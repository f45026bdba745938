import Xv6.Fs.Links

/-!
# Inodes and names are made and removed

The steps of `LinkInv` that change what there is: `ialloc` and the freeing of an inode, the entries of a new directory,
a new name, and the removal of a name. A new name makes good a link that was counted before; a removed one leaves a link
that is still counted.
-/

namespace Xv6.Fs

open Function (update update_of_ne update_self)

variable {P : Type} [DecidableEq P] [Fintype P] {strict : Bool} {ino : Nat → Inode} {g : P → Ghost P}
  {att : Nat → Bool} {L L' : Nat → Nat} {V V' : Nat → Prop} {p : P} {x : Ghost P} {n : Nat}
variable {i : Fin NINODE} {k : Held} {r : Inode} {b : Bool}

theorem pendAt_eq_zero (hn : pendAt x n = 0) (b : Bool) : (n, b) ∉ x.pend := by
  intro hm
  have : 0 < x.pend.countP fun t => t.1 = n := Multiset.countP_pos.mpr ⟨(n, b), hm, rfl⟩
  rw [pendAt] at hn
  omega

namespace LinkInv

/-! ## Inodes -/

section

variable (h : LinkInv strict ino g att L V)
include h

/-- A free inode is allocated. -/
theorem ialloc (hn : (ino n).type = .free) (hrange : 0 < n ∧ n < NINODES)
    {t : InodeType} (ht : t ≠ .free) (hk : (g p).kid = none) (hown : ∀ q i k, (g q).own i = some k → 0 < L k.inum) :
    LinkInv strict (update ino n ⟨t, 0, 0, []⟩) (update g p { g p with kid := some (.fresh n t) })
      att L V := by
  have hnd := h.node n
  have h0 := hnd.nlink
  rw [hnd.free hn] at h0
  have hr : real ino n = 0 := by omega
  have hu : up ino att n = 0 := by omega
  have hpq : ∀ q, pendAt (g q) n = 0 := fun q => by
    have := pendAt_le_pending (g := g) q n
    omega
  have hatt : att n = false := h.tree.not_att (by rw [hn]; exact nofun)
  have hLn : L n = 0 := by
    by_contra hne
    exact hnd.alloc (by omega) hn
  have hownq : ∀ q i k, (g q).own i = some k → k.inum ≠ n := by
    rintro q i k ho rfl
    have := hown q i k ho
    omega
  have hkidq : ∀ q k, (g q).kid = some k → k.inum ≠ n := by
    rintro q k hkq rfl
    exact (h.kid_nlink hkq).2.1 hn
  have hself : update ino n ⟨t, 0, 0, []⟩ n = ⟨t, 0, 0, []⟩ := update_self _ _ _
  have hne : ∀ m, m ≠ n → update ino n ⟨t, 0, 0, []⟩ m = ino m := fun m hm => update_of_ne hm _ _
  have he : ∀ m, (update ino n ⟨t, 0, 0, []⟩ m).ents = (ino m).ents :=
    proj_update Inode.ents (h.tree.ents n (by rw [hn]; exact nofun)).symm
  have hpar : ∀ m, att m = true → parentOf (update ino n ⟨t, 0, 0, []⟩ m) = parentOf (ino m) := fun m _ => by
    rw [parentOf, parentOf, he]
  have hpart := h.part p
  refine h.step (M := fun m => m = n) (N := fun _ => False) ?_ ?_ ?_ ?_ ?_ ?_
  · refine ⟨hne, fun _ _ => rfl, fun m _ _ => real_congr he m, fun m _ _ => up_congr hpar m, fun _ _ _ => rfl,
      fun _ _ => rfl, fun _ _ => id, fun q _ => hownq q, fun _ _ m _ _ => real_congr he m, fun q _ k hkq => ⟨hkidq q k hkq, id⟩, fun k hkp => ?_, fun q _ m hm htm => ?_⟩
    · rw [hk] at hkp
      cases hkp
    · have hmn : m ≠ n := by
        rintro rfl
        exact pendAt_eq_zero (hpq q) true hm
      rwa [hne m hmn]
  · rw [flux_update (by rfl)]
    refine h.tree.setInode hne hatt hr hrange ?_ ?_ <;> rw [hself]
    · exact fun _ => rfl
    · exact fun e he => absurd he List.not_mem_nil
  · rintro m (rfl | ⟨⟨⟩⟩)
    have hkid : update g p { g p with kid := some (.fresh m t) } p = { g p with kid := some (.fresh m t) } :=
      update_self _ _ _
    constructor
    · rw [hself]
      exact fun hf => absurd hf ht
    · rw [hself]
      exact fun _ => ht
    · have h1 : pending (update g p { g p with kid := some (.fresh m t) }) m + pendAt (g p) m =
          pending g m + pendAt (g p) m := pending_update m
      rw [hself, real_congr he, up_congr hpar, hr, hu]
      have h2 : pending (update g p { g p with kid := some (.fresh m t) }) m = 0 := by omega
      rw [h2]
      rfl
    · rw [hself]
      exact (by decide : (0 : Int) < 2 ^ 15)
    · exact fun _ => .inr (.inl ⟨p, _, by rw [hkid], rfl⟩)
    · exact fun _ _ _ => .inr ⟨p, _, by rw [hkid], rfl, rfl⟩
  · refine hpart.frame rfl rfl rfl (fun i k ho => ⟨hne _ (hownq p i k ho), rfl⟩) (fun m _ _ => real_congr he m)
      (fun m hm htm => ?_) ?_
    · have hmn : m ≠ n := by
        rintro rfl
        exact pendAt_eq_zero (hpq p) true hm
      rwa [hne m hmn]
    · rintro k ⟨⟩
      exact ⟨hself, ht, hLn, hatt⟩
  · rintro k ⟨⟩ q _
    exact ⟨hownq q, hkidq q⟩
  · exact fun i k ho q hq c hc => h.kidOwn q p c i k hc (Ne.symm hq) ho

/-- An inode without links and without other references is freed. -/
theorem ifree (hu : OwnUnique g)
    (hk : (g p).kid = some (.gone i n)) (ho : (g p).own i = some k) (hkn : k.inum = n) (hflux : (g p).flux = none)
    (hown : x.own = update (g p).own i none) (hpend : x.pend = (g p).pend) (hfx : x.flux = none)
    (hkx : x.kid = none) (hL : ∀ m, m ≠ n → L' m = L m) (hLn : L' n = 0) (hV : ∀ m, m ≠ n → V m → V' m) :
    LinkInv strict (update ino n { ino n with type := .free, ents := [] }) (update g p x) att L' V' := by
  obtain ⟨hnl, htype, -, -, hatt⟩ := (h.part p).kid _ hk
  obtain ⟨hr, hup0, hpd0⟩ := h.kid_real hk
  have hpn : pendAt (g p) n = 0 := by
    have h1 := (h.kid_nlink hk).1
    simp only [Kid.inum] at h1
    omega
  simp only [Kid.inum] at hr hup0 hpd0
  obtain ⟨hself, hne⟩ : update ino n { ino n with type := .free, ents := [] } n =
      { ino n with type := .free, ents := [] } ∧
      ∀ m, m ≠ n → update ino n { ino n with type := .free, ents := [] } m = ino m :=
    ⟨update_self _ _ _, fun m hm => update_of_ne hm _ _⟩
  have hrange := h.tree.range n htype
  have hreal : ∀ m, real (update ino n { ino n with type := .free, ents := [] }) m = real ino m := by
    intro m
    have h1 := real_update ino hrange.2 { ino n with type := .free, ents := [] } m
    rw [nameCount_eq_zero (h.tree.noNames n hatt)] at h1
    simpa [nameCount] using h1
  have hpar : ∀ m, att m = true → parentOf (update ino n { ino n with type := .free, ents := [] } m) =
      parentOf (ino m) := by
    intro m hm
    rw [hne]
    rintro rfl
    rw [hatt] at hm
    cases hm
  have hpq : ∀ q m, (m, true) ∈ (g q).pend → m ≠ n := by
    rintro q m hm rfl
    refine pendAt_eq_zero ?_ true hm
    have h1 := pendAt_le_pending (g := g) q m
    omega
  have hown' : ∀ j k', x.own j = some k' → (g p).own j = some k' ∧ k'.inum ≠ n := by
    intro j k' hj
    have hji : j ≠ i := by
      rintro rfl
      rw [hown, update_self] at hj
      cases hj
    rw [hown, update_of_ne hji] at hj
    exact ⟨hj, fun he => hji (hu p j k' p i k hj ho (he.trans hkn.symm)).2⟩
  refine h.step (M := fun m => m = n) (N := fun m => m = n) ?_ ?_ ?_ ?_ ?_ ?_
  · refine ⟨hne, fun _ _ => rfl, fun m _ _ => hreal m, fun m _ _ => up_congr hpar m,
      fun m _ _ => by rw [pendAt, pendAt, hpend], hL, hV, fun q hq => (h.kid_local hk hq).1, fun _ _ m _ _ => hreal m, fun q hq c hc => ⟨(h.kid_local hk hq).2 c hc, (h.kid_local hk hq).2 c hc⟩,
      fun c hc hcn => ?_, fun q _ m hm htm => ?_⟩
    · rw [hk] at hc
      cases hc
      exact absurd rfl hcn
    · rwa [hne m (hpq q m hm)]
  · rw [flux_update (hflux.trans hfx.symm)]
    refine h.tree.setInode hne hatt hr hrange ?_ ?_ <;> rw [hself]
    · exact fun _ => rfl
    · exact fun e he => absurd he List.not_mem_nil
  · rintro m (rfl | rfl)
    all_goals
      constructor <;> rw [hself]
      · exact fun _ => hnl
      · rw [hLn]
        exact fun hc => absurd hc (Nat.lt_irrefl 0)
      · have h1 := pending_update (g := g) (p := p) (x := x) m
        have h2 : pendAt x m = pendAt (g p) m := by rw [pendAt, pendAt, hpend]
        rw [hreal, up_congr hpar]
        dsimp only
        omega
      · dsimp only
        rw [hnl]
        decide
      · exact fun hd => by cases hd
      · exact fun _ hd => absurd rfl hd
  · refine ⟨fun j k' hj => ?_, fun m hm => ?_, fun m hm => ?_, fun m b hm => ?_, fun c hc => ?_⟩
    · obtain ⟨h1, h2⟩ := hown' j k' hj
      rw [hne _ h2]
      exact (h.part p).own j k' h1
    · rw [hpend] at hm
      rw [hne m (hpq p m hm)]
      exact (h.part p).pend m hm
    · rw [hpend] at hm
      obtain ⟨j, k', hj, rfl⟩ := (h.part p).pendOwn m hm
      refine ⟨j, k', ?_, rfl⟩
      rw [hown, update_of_ne]
      · exact hj
      · rintro rfl
        rw [ho] at hj
        cases hj
        rw [hkn] at hm
        exact pendAt_eq_zero hpn false hm
    · rw [hfx] at hm
      cases hm
    · rw [hkx] at hc
      cases hc
  · intro c hc
    rw [hkx] at hc
    cases hc
  · intro j k' hj q hq c hc
    exact h.kidOwn q p c j k' hc (Ne.symm hq) (hown' j k' hj).1

/-- The entries of a new directory. -/
theorem writeKid (hu : OwnUnique g)
    (hk : (g p).kid = some (.held i n)) (ho : (g p).own i = some k) (ht : k.ino.type = .dir)
    (hrt : r.type = k.ino.type) (hrn : r.nlink = k.ino.nlink) (he : ∀ e ∈ r.ents, e.inum ≠ 0 → isReal e.name = false)
    (hflux : (g p).flux = none) (htok : x.tok = (g p).tok) (hpend : x.pend = (g p).pend)
    (hown : x.own = update (g p).own i (some ⟨k.inum, r, k.att⟩)) (hfx : x.flux = none)
    (hkx : x.kid = (g p).kid) : LinkInv strict (update ino k.inum r) (update g p x) att L V := by
  obtain ⟨hnl, htype, htokn, hL1, hatt, k', ho', rfl⟩ := (h.part p).kid _ hk
  obtain rfl : k = k' := Option.some.inj (ho.symm.trans ho')
  have hr := (h.kid_real hk).1
  obtain ⟨hino, hattk⟩ := (h.part p).own i k ho
  have hself : update ino k.inum r k.inum = r := update_self _ _ _
  have hne : ∀ m, m ≠ k.inum → update ino k.inum r m = ino m := fun m hm => update_of_ne hm _ _
  have hrange := h.tree.range k.inum htype
  have hreal : ∀ m, real (update ino k.inum r) m = real ino m := by
    intro m
    have h1 := real_update ino hrange.2 r m
    rw [nameCount_eq_zero (h.tree.noNames _ hatt), nameCount_eq_zero he] at h1
    exact h1
  have htypes : ∀ m, (update ino k.inum r m).type = (ino m).type := proj_update Inode.type (by rw [hrt, hino])
  have hup : ∀ m, up (update ino k.inum r) att m = up ino att m := up_congr fun m hm => by
    rw [hne]
    rintro rfl
    rw [hatt] at hm
    cases hm
  have hpa : ∀ m, pendAt x m = pendAt (g p) m := fun m => by rw [pendAt, pendAt, hpend]
  refine h.stepOwn (N := fun _ => False) hu ho hown hrt hup (fun m _ => hreal m) (fun m _ _ => hpa m) (fun _ _ _ _ _ => id)
    (fun _ _ _ _ => id) (fun c hc _ _ => hkx.trans hc) ?_ ?_ ?_ ?_ ?_ ?_ ?_
  · rw [flux_update (hflux.trans hfx.symm)]
    refine h.tree.setInode hne hatt hr hrange ?_ ?_ <;> rw [hself]
    · exact fun hd => absurd (hrt.trans ht) hd
    · exact he
  · rintro m (rfl | ⟨⟨⟩⟩)
    have h1 := (h.node k.inum).nlink
    have h2 := pending_update (g := g) (p := p) (x := x) k.inum
    have h3 := hpa k.inum
    have h4 := (h.node k.inum).small
    rw [hino] at h1 h4
    refine ⟨?_, fun _ => ?_, ?_, ?_, fun _ => .inr (.inl ⟨p, .held i k.inum, ?_, rfl⟩), ?_⟩
    · rw [htypes]
      exact fun hf => absurd hf htype
    · rw [htypes]
      exact htype
    · rw [hself, hreal, hup]
      omega
    · rw [hself, hrn]
      exact h4
    · rw [update_self, hkx]
      exact hk
    · rw [htypes, hself, hrn, ← hino]
      intro hs htn h0
      refine ((h.node k.inum).orphan hs htn h0).imp_right ?_
      rintro ⟨q, c, hc, hcn, hce⟩
      exact ⟨q, c, (proj_update Ghost.kid hkx q).trans hc, hcn, hce⟩
  · rw [hpend]
    exact (h.part p).pend
  · rw [hpend]
    exact (h.part p).pendOwn
  · intro m b hm
    rw [hfx] at hm
    cases hm
  · intro c hc
    rw [hkx, hk] at hc
    cases hc
    refine ⟨?_, ?_, htok ▸ htokn, hL1, hatt, ⟨k.inum, r, k.att⟩, by rw [hown, update_self], rfl⟩
    · rw [hself, hrn, hpa, ← hino]
      exact hnl
    · rw [htypes]
      exact htype
  · rintro m ⟨c, hc, he'⟩
    exact ⟨c, hkx ▸ hc, he'⟩

end

/-! ## Names -/

theorem flux_mono (hf : (g p).flux = none) (m : Nat) (c : Bool) (h : Flux g m c) : Flux (update g p x) m c := by
  obtain ⟨q, hq⟩ := h
  refine ⟨q, ?_⟩
  rw [update_of_ne]
  · exact hq
  · rintro rfl
    rw [hf] at hq
    cases hq

/-- What a process has of links with one link more, to `n`. -/
theorem pendAt_cons {y : Ghost P} (h : y.pend = (n, b) ::ₘ x.pend) :
    pendAt y n = pendAt x n + 1 ∧ ∀ m, m ≠ n → pendAt y m = pendAt x m := by
  simp only [pendAt, h]
  refine ⟨Multiset.countP_cons_of_pos _ rfl, fun m hm => Multiset.countP_cons_of_neg _ ?_⟩
  exact fun he => hm he.symm

section

variable (h : LinkInv strict ino g att L V) (hu : OwnUnique g)
include h hu

/-- An entry of a locked, attached directory changes, and with it the names of `n`; the links to `n` that the process has
still to make, or to undo, make up for it. -/
theorem putName
    (ho : (g p).own i = some k) (hkn : n ≠ k.inum) (hd : att k.inum = true) (hrt : r.type = k.ino.type)
    (hrn : r.nlink = k.ino.nlink) (hrp : parentOf r = parentOf k.ino) (hL : 0 < L k.inum) (hV : V k.inum)
    (hown : x.own = update (g p).own i (some ⟨k.inum, r, k.att⟩)) (hkx : x.kid = none)
    (hkp : ∀ c, (g p).kid = some c → c.inum = n) (hkq : ∀ q, q ≠ p → ∀ c, (g q).kid = some c → c.inum ≠ n)
    (hfq : ∀ q, q ≠ p → ∀ b, (g q).flux ≠ some (n, b))
    (htree : TreeInv (update ino k.inum r) att (Flux (update g p x)))
    (hreal : ∀ m, m ≠ n → real (update ino k.inum r) m = real ino m)
    (hcount : real (update ino k.inum r) n + pendAt x n = real ino n + pendAt (g p) n)
    (hpend : ∀ m, m ≠ n → pendAt x m = pendAt (g p) m) (hpos : (ino n).nlink ≠ 0)
    (hshape : (ino n).type = .dir → Shape n (ino n).ents)
    (hpt : ∀ m, (m, true) ∈ x.pend → (ino m).type ≠ .dir)
    (hpf : ∀ m, (m, false) ∈ x.pend → ∃ j k', (g p).own j = some k' ∧ k'.inum = m)
    (hfx : ∀ m b, x.flux = some (m, b) → FluxOk (update ino k.inum r) att x m b) :
    LinkInv strict (update ino k.inum r) (update g p x) att L V := by
  obtain ⟨hino, hattk⟩ := (h.part p).own i k ho
  have hself : update ino k.inum r k.inum = r := update_self _ _ _
  have hne : ∀ m, m ≠ k.inum → update ino k.inum r m = ino m := fun m hm => update_of_ne hm _ _
  have htypes : ∀ m, (update ino k.inum r m).type = (ino m).type := proj_update Inode.type (by rw [hrt, hino])
  have hup : ∀ m, up (update ino k.inum r) att m = up ino att m :=
    up_congr fun d _ => proj_update parentOf (by rw [hrp, hino]) d
  refine h.stepOwn (N := fun m => m = n) hu ho hown hrt hup hreal (fun m _ hm => hpend m hm) ?_ hkq
    (fun c hc _ hcn => absurd (hkp c hc) hcn) htree ?_ hpt hpf hfx ?_ ?_
  · rintro q hq m b hf rfl
    exact hfq q hq b hf
  · rintro m (rfl | rfl)
    · have hnd := h.node k.inum
      have h1 := hnd.nlink
      have h2 := pending_update (g := g) (p := p) (x := x) k.inum
      have h3 := hpend _ (Ne.symm hkn)
      have h4 := hreal _ (Ne.symm hkn)
      refine ⟨?_, ?_, ?_, ?_, fun _ => .inl (htree.attDir _ hd).2, fun _ _ _ => .inl ⟨hL, hV⟩⟩
      · rw [htypes, hself, hrn, ← hino]
        exact hnd.free
      · rw [htypes]
        exact hnd.alloc
      · rw [hself, hrn, ← hino, h4, hup]
        omega
      · rw [hself, hrn, ← hino]
        exact hnd.small
    · have hnd := h.node m
      have h1 := hnd.nlink
      have h2 := pending_update (g := g) (p := p) (x := x) m
      refine ⟨?_, ?_, ?_, ?_, ?_, ?_⟩ <;> rw [hne m hkn]
      · exact hnd.free
      · exact hnd.alloc
      · rw [hup]
        omega
      · exact hnd.small
      · exact fun hdir => .inl (hshape hdir)
      · exact fun _ _ h0 => absurd h0 hpos
  · intro c hc
    rw [hkx] at hc
    cases hc
  · rintro m ⟨c, hc, -⟩
    rw [hkx] at hc
    cases hc

/-- **A new name** makes good a link that was counted before. The name of a new directory is not yet counted by the
parent. -/
theorem addName {off : Nat}
    {name : Name} {T : Multiset (Nat × Bool)} (ho : (g p).own i = some k) (hd : att k.inum = true)
    (hL : 0 < L k.inum) (hV : V k.inum) (hoff : off ≤ k.ino.ents.length)
    (hslot : ∀ e, k.ino.ents[off]? = some e → e.inum = 0) (hname : isReal name = true) (hT : (g p).pend = (n, b) ::ₘ T)
    (hflux : (g p).flux = none) (hkp : ∀ c, (g p).kid = some c → c.inum = n)
    (hdir : b = false → ∃ j kn, (g p).kid = some (.held j n) ∧ (g p).own j = some kn ∧ kn.ino.type = .dir ∧
      kn.ino.ents = [⟨n, dot⟩, ⟨k.inum, dotdot⟩])
    (hx : x = { g p with
      own := update (g p).own i (some ⟨k.inum, { k.ino with ents := putEntry k.ino.ents off ⟨n, name⟩ }, k.att⟩)
      pend := T
      kid := none
      flux := if b then none else some (n, true) }) :
    LinkInv strict (update ino k.inum { k.ino with ents := putEntry k.ino.ents off ⟨n, name⟩ })
      (update g p x) att L V := by
  have hp := h.part p
  obtain ⟨hino, hattk⟩ := hp.own i k ho
  obtain ⟨hpn, hpm⟩ := pendAt_cons (x := x) (y := g p) (by rw [hx]; exact hT)
  have hpos : (ino n).nlink ≠ 0 := by
    have h1 := (h.node n).nlink
    have h2 := pendAt_le_pending (g := g) p n
    omega
  have hn0 : n ≠ 0 := by
    refine Nat.ne_of_gt (h.tree.range n fun hf => ?_).1
    exact hpos ((h.node n).free hf)
  -- The inode is either no directory, or the new directory of this process.
  have hcase : (ino n).type = .dir → b = false := by
    intro ht
    by_contra hb
    have hb' : b = true := by simpa using hb
    refine hp.pend n ?_ ht
    rw [hT, hb']
    exact Multiset.mem_cons_self _ _
  have hkid : ∀ q, q ≠ p → ∀ c, (g q).kid = some c → c.inum ≠ n := by
    rintro q hq c hc rfl
    have h1 := (h.kid_real hc).2.2
    have h2 : pendAt (g p) c.inum + pendAt (g q) c.inum ≤ pending g c.inum := by
      have h3 := Finset.add_sum_erase Finset.univ (fun r => pendAt (g r) c.inum) (Finset.mem_univ p)
      have h4 := Finset.single_le_sum (f := fun r => pendAt (g r) c.inum)
        (fun _ _ => Nat.zero_le _) (Finset.mem_erase.mpr ⟨hq, Finset.mem_univ q⟩)
      rw [pending]
      omega
    omega
  have hnew : (ino n).type = .dir → ∃ j kn, (g p).own j = some kn ∧ kn.inum = n ∧ att n = false ∧ real ino n = 0 ∧
      kn.ino.ents = [⟨n, dot⟩, ⟨k.inum, dotdot⟩] := by
    intro ht
    obtain ⟨j, kn, hkj, hj, -, hents⟩ := hdir (hcase ht)
    obtain ⟨-, -, -, -, hatt, kn', hj', hknn⟩ := hp.kid _ hkj
    obtain rfl : kn = kn' := Option.some.inj (hj.symm.trans hj')
    exact ⟨j, kn, hj, hknn, hatt, (h.kid_real hkj).1, hents⟩
  have hkn : n ≠ k.inum := by
    rintro rfl
    obtain ⟨-, -, -, -, hatt, -⟩ := hnew (h.tree.attDir _ hd).1
    rw [hd] at hatt
    cases hatt
  have hne : ∀ r, update ino k.inum r n = ino n := fun r => update_of_ne hkn _ _
  have hFx : (ino n).type = .dir → Flux (update g p x) n true := by
    intro ht
    refine ⟨p, ?_⟩
    rw [update_self, hx, hcase ht]
    rfl
  obtain ⟨htree, hreal⟩ := h.tree.addName hd hino hslot hn0 hname
    (fun ht => by obtain ⟨-, -, -, -, h1, h2, -⟩ := hnew ht; exact ⟨h1, h2, hFx ht⟩) (flux_mono hflux)
  have hs : Shape k.inum k.ino.ents := hino ▸ (h.tree.attDir _ hd).2
  have h2 : 2 ≤ off := hs.two_le fun e he => .inl (hslot e he)
  refine h.putName hu ho hkn hd rfl rfl ?_ hL hV (by rw [hx]) (by rw [hx]) hkp hkid ?_ htree ?_ ?_
    (fun m hm => (hpm m hm).symm) hpos ?_ ?_ ?_ ?_
  · rw [parentOf, parentOf, (hs.putEntry h2 ⟨n, name⟩ fun _ => hname).2]
  · intro q hq c hc
    obtain ⟨hdq, ⟨j', k', hj', hk'⟩, -, -, -⟩ := (h.part q).flux n c hc
    obtain ⟨j, kn, hj, hknn, -⟩ := hnew hdq
    exact hq (hu q j' k' p j kn hj' hj (hk'.trans hknn.symm)).1
  · intro m hm
    rw [hreal, if_neg hm, Nat.add_zero]
  · rw [hreal, if_pos rfl]
    omega
  · intro ht
    obtain ⟨j, kn, hj, hknn, -, -, hents⟩ := hnew ht
    have h3 := (hp.own j kn hj).1
    rw [hknn] at h3
    rw [h3, hents]
    refine ⟨k.inum, [], rfl, hn0, ?_, fun e he => absurd he List.not_mem_nil⟩
    refine Nat.ne_of_gt (h.tree.range k.inum ?_).1
    rw [(h.tree.attDir _ hd).1]
    decide
  · intro m hm
    refine hp.pend m ?_
    rw [hx] at hm
    rw [hT]
    exact Multiset.mem_cons_of_mem hm
  · intro m hm
    refine hp.pendOwn m ?_
    rw [hx] at hm
    rw [hT]
    exact Multiset.mem_cons_of_mem hm
  · intro m c hm
    rw [hx] at hm
    dsimp only at hm
    cases b with
    | true => cases hm
    | false =>
      obtain ⟨rfl, rfl⟩ := Prod.mk.inj (Option.some.inj hm)
      obtain ⟨j, kn, hkj, hj, ht, hents⟩ := hdir rfl
      obtain ⟨-, -, -, -, hatt, kn', hj', hknn⟩ := hp.kid _ hkj
      obtain rfl : kn = kn' := Option.some.inj (hj.symm.trans hj')
      have hinon := (hp.own j kn hj).1
      rw [hknn] at hinon
      have hji : j ≠ i := by
        rintro rfl
        rw [ho] at hj
        cases hj
        exact hkn hknn.symm
      have hi : x.own i = some ⟨k.inum, { k.ino with ents := putEntry k.ino.ents off ⟨n, name⟩ }, k.att⟩ := by
        rw [hx]
        exact update_self _ _ _
      refine ⟨?_, ⟨j, kn, ?_, hknn⟩, ⟨i, _, hi, ?_, Ne.symm hkn, fun _ => ?_⟩, hatt, ?_⟩
      · rw [hne, hinon]
        exact ht
      · rw [hx]
        exact (update_of_ne hji _ _).trans hj
      · rw [hne, hinon, parentOf_cons _ _ _ hents]
      · rw [update_self]
        exact nameCount_pos (mem_putEntry_self hoff) (Dirent.names_self hn0 hname)
      · rw [hreal, if_pos rfl, show real ino n = 0 from (h.kid_real hkj).1]
        rfl

/-- **A removed name** leaves a link that is still counted. A directory without its name is still counted by the parent. -/
theorem removeName {j : Fin NINODE} {kn : Held} {off : Nat}
    {e : Dirent} (hi : (g p).own i = some k) (hj : (g p).own j = some kn) (hij : i ≠ j)
    (hL : 0 < L k.inum) (hV : V k.inum) (he : k.ino.ents[off]? = some e) (h0 : e.inum ≠ 0) (hre : isReal e.name = true)
    (hen : e.inum = kn.inum) (hflux : (g p).flux = none) (hkid : (g p).kid = none)
    (hb : b = true ↔ kn.ino.type ≠ .dir)
    (hx : x = { g p with
      own := update (g p).own i (some ⟨k.inum, { k.ino with ents := putEntry k.ino.ents off ⟨0, []⟩ }, k.att⟩)
      pend := (kn.inum, b) ::ₘ (g p).pend
      flux := if b then none else some (kn.inum, false) }) :
    LinkInv strict (update ino k.inum { k.ino with ents := putEntry k.ino.ents off ⟨0, []⟩ })
      (update g p x) att L V := by
  have hp := h.part p
  obtain ⟨hino, hattk⟩ := hp.own i k hi
  obtain ⟨hinon, hattn⟩ := hp.own j kn hj
  have hkn : kn.inum ≠ k.inum := fun hc => hij (hu p i k p j kn hi hj hc.symm).2
  have hmem : e ∈ (ino k.inum).ents := by
    rw [hino]
    exact List.mem_of_getElem? he
  have hd : att k.inum = true := by
    by_contra hn
    have := h.tree.noNames _ (by simpa using hn) e hmem h0
    rw [hre] at this
    cases this
  obtain ⟨hpn, hpm⟩ := pendAt_cons (x := g p) (y := x) (by rw [hx])
  have hne : ∀ r, update ino k.inum r kn.inum = ino kn.inum := fun r => update_of_ne hkn _ _
  have hpos : 0 < real ino kn.inum := by
    rw [← hen]
    exact h.tree.real_pos hmem h0 hre
  -- A directory with this name is attached to the parent: no other process has it locked.
  have hdir : (ino kn.inum).type = .dir → att kn.inum = true ∧ parentOf (ino kn.inum) = some k.inum := by
    intro ht
    rcases h.tree.nameAtt _ e hmem h0 hre (by rw [hen]; exact ht) with h1 | ⟨c, q, hq⟩
    · rwa [hen] at h1
    · obtain ⟨-, ⟨j', k', hj', hk'⟩, -, -, -⟩ := (h.part q).flux _ _ hq
      have := (hu q j' k' p j kn hj' hj (hk'.trans hen)).1
      subst this
      rw [hflux] at hq
      cases hq
  have hcase : (ino kn.inum).type = .dir → b = false := by
    intro ht
    by_contra hn
    exact hb.mp (by simpa using hn) (hinon ▸ ht)
  have hFx : (ino e.inum).type = .dir → Flux (update g p x) e.inum false := by
    rw [hen]
    intro ht
    refine ⟨p, ?_⟩
    rw [update_self, hx, hcase ht]
    rfl
  obtain ⟨htree, hreal⟩ := h.tree.removeName hino he h0 hre hFx (flux_mono hflux)
  rw [hen] at hreal
  have hs : Shape k.inum k.ino.ents := hino ▸ (h.tree.attDir _ hd).2
  have h2 : 2 ≤ off := hs.two_le fun e' he' => by
    rw [he] at he'
    cases he'
    exact .inr hre
  refine h.putName hu hi hkn hd rfl rfl ?_ hL hV (by rw [hx]) (by rw [hx]; exact hkid) ?_
    (fun q hq => (h.own_local hu hj hq).2) ?_ htree ?_ ?_ hpm ?_ ?_ ?_ ?_ ?_
  · rw [parentOf, parentOf, (hs.putEntry h2 ⟨0, []⟩ fun hc => absurd rfl hc).2]
  · intro c hc
    rw [hkid] at hc
    cases hc
  · intro q hq c hc
    obtain ⟨-, ⟨j', k', hj', hk'⟩, -, -, -⟩ := (h.part q).flux _ c hc
    exact hq (hu q j' k' p j kn hj' hj hk').1
  · intro m hm
    have h3 := hreal m
    rw [if_neg hm] at h3
    exact h3
  · have h3 := hreal kn.inum
    rw [if_pos rfl] at h3
    dsimp only at h3 ⊢
    omega
  · have h3 := (h.node kn.inum).nlink
    omega
  · intro ht
    exact (h.tree.attDir _ (hdir ht).1).2
  · intro m hm
    rw [hx] at hm
    rcases Multiset.mem_cons.mp hm with hm | hm
    · obtain ⟨rfl, hb'⟩ := Prod.mk.inj hm
      rw [hinon]
      exact hb.mp hb'.symm
    · exact hp.pend m hm
  · intro m hm
    rw [hx] at hm
    rcases Multiset.mem_cons.mp hm with hm | hm
    · obtain ⟨rfl, -⟩ := Prod.mk.inj hm
      exact ⟨j, kn, hj, rfl⟩
    · exact hp.pendOwn m hm
  · intro m c hm
    rw [hx] at hm
    dsimp only at hm
    cases hbb : b with
    | true =>
      rw [hbb] at hm
      cases hm
    | false =>
      rw [hbb] at hm
      obtain ⟨rfl, rfl⟩ := Prod.mk.inj (Option.some.inj hm)
      have ht : (ino kn.inum).type = .dir := by
        by_contra hn
        have := hb.mpr (hinon ▸ hn)
        rw [hbb] at this
        cases this
      obtain ⟨hatt, hpar⟩ := hdir ht
      have hi' : x.own i = some ⟨k.inum, { k.ino with ents := putEntry k.ino.ents off ⟨0, []⟩ }, k.att⟩ := by
        rw [hx]
        exact update_self _ _ _
      refine ⟨?_, ⟨j, kn, ?_, rfl⟩, ⟨i, _, hi', ?_, Ne.symm hkn, fun hc => by cases hc⟩, hatt, ?_⟩
      · rw [hne]
        exact ht
      · rw [hx]
        exact (update_of_ne (Ne.symm hij) _ _).trans hj
      · rw [hne]
        exact hpar
      · have h3 := hreal kn.inum
        have h4 := h.tree.nameOne _ ht
        rw [if_pos rfl] at h3
        rw [if_neg Bool.false_ne_true]
        dsimp only at h3 ⊢
        omega

end

/-! ## Links that are only counted -/

/-- The count goes up for a link that is still to be made. -/
theorem addLink (h : LinkInv strict ino g att L V) (hu : OwnUnique g)
    (ho : (g p).own i = some k) (htype : r.type = k.ino.type) (hents : r.ents = k.ino.ents) (hL : 0 < L k.inum)
    (hV : V k.inum) (hflux : (g p).flux = none) (hn : r.nlink = k.ino.nlink + 1) (hsmall : r.nlink < 2 ^ 15)
    (hb : b = true → k.ino.type ≠ .dir) (hkid : ∀ c, (g p).kid = some c → c = .held i k.inum)
    (hx : x = { g p with
      own := update (g p).own i (some ⟨k.inum, r, k.att⟩), pend := (k.inum, b) ::ₘ (g p).pend }) :
    LinkInv strict (update ino k.inum r) (update g p x) att L V := by
  obtain ⟨hpk, hpm⟩ := pendAt_cons (x := g p) (y := x) (by rw [hx])
  refine h.setCount hu ho htype hents hL hV hflux (by rw [hx]; exact hflux) (by rw [hx]) ?_ hsmall hpm ?_ ?_ ?_ ?_ ?_
  · omega
  · intro m hm
    rw [hx] at hm
    rcases Multiset.mem_cons.mp hm with he | hm
    · obtain ⟨rfl, hb'⟩ := Prod.mk.inj he
      exact .inr ⟨rfl, hb hb'.symm⟩
    · exact .inl hm
  · intro m hm
    rw [hx] at hm
    rcases Multiset.mem_cons.mp hm with he | hm
    · exact .inr (Prod.mk.inj he).1
    · exact .inl hm
  · intro m
    rw [hx]
    exact Iff.rfl
  · intro c hc
    right
    rw [hx]
    exact hc
  · intro c hc
    have hc' : (g p).kid = some c := by
      rw [hx] at hc
      exact hc
    have hce := hkid c hc'
    subst hce
    obtain ⟨h1, h2, h3, h4, h5, -⟩ := (h.part p).kid _ hc'
    have hino := ((h.part p).own i k ho).1
    rw [hino] at h1 h2
    refine ⟨?_, ?_, by rw [hx]; exact h3, h4, h5, ⟨k.inum, r, k.att⟩, ?_, rfl⟩
    · rw [update_self]
      omega
    · rw [update_self, htype]
      exact h2
    · rw [hx]
      exact update_self _ _ _

/-- The count goes down for a link that is no more, or is not to be made. -/
theorem removeLink (h : LinkInv strict ino g att L V) (hu : OwnUnique g)
    {T : Multiset (Nat × Bool)} {c : Option Kid} (ho : (g p).own i = some k) (htype : r.type = k.ino.type)
    (hents : r.ents = k.ino.ents) (hL : 0 < L k.inum) (hV : V k.inum) (hflux : (g p).flux = none)
    (hp : (g p).pend = (k.inum, b) ::ₘ T) (hn : r.nlink + 1 = k.ino.nlink) (hsmall : r.nlink < 2 ^ 15)
    (hkid : (g p).kid = none ∧ c = none ∨ (g p).kid = some (.held i k.inum) ∧ c = some (.gone i k.inum) ∧ r.nlink = 0)
    (hx : x = { g p with own := update (g p).own i (some ⟨k.inum, r, k.att⟩), pend := T, kid := c }) :
    LinkInv strict (update ino k.inum r) (update g p x) att L V := by
  obtain ⟨hpk, hpm⟩ := pendAt_cons (x := x) (y := g p) (by rw [hx]; exact hp)
  have hmem : ∀ t ∈ T, t ∈ (g p).pend := fun t ht => hp ▸ Multiset.mem_cons_of_mem ht
  refine h.setCount hu ho htype hents hL hV hflux (by rw [hx]; exact hflux) (by rw [hx]) ?_ hsmall
    (fun m hm => (hpm m hm).symm) ?_ ?_ ?_ ?_ ?_
  · omega
  · intro m hm
    rw [hx] at hm
    exact .inl (hmem _ hm)
  · intro m hm
    rw [hx] at hm
    exact .inl (hmem _ hm)
  · intro m
    rw [hx, IsKid, IsKid]
    rcases hkid with ⟨h0, rfl⟩ | ⟨h0, rfl, -⟩ <;> rw [h0]
    · simp [Kid.inum]
  · intro d hd
    rcases hkid with ⟨h0, -⟩ | ⟨h0, -, -⟩ <;> rw [h0] at hd
    · cases hd
    · cases hd
      exact .inl rfl
  · intro d hd
    rw [hx] at hd
    rcases hkid with ⟨-, rfl⟩ | ⟨h0, rfl, hr0⟩
    · cases hd
    · cases hd
      obtain ⟨-, h2, h3, h4, h5, -⟩ := (h.part p).kid _ h0
      have hino := ((h.part p).own i k ho).1
      rw [hino] at h2
      refine ⟨?_, ?_, by rw [hx]; exact h3, h4, h5⟩
      · rw [update_self]
        exact hr0
      · rw [update_self, htype]
        exact h2

/-! ## What can be looked up -/

variable (h : LinkInv strict ino g att L V)
include h

/-- A directory that the process has locked is attached, if it has links and nothing is to be done about them. -/
theorem att_of_own (hu : OwnUnique g)
    (ho : (g p).own i = some k) (hd : k.ino.type = .dir) (hn : 0 < k.ino.nlink) (hf : (g p).flux = none)
    (hp : (k.inum, false) ∉ (g p).pend) : att k.inum = true := by
  obtain ⟨hino, -⟩ := (h.part p).own i k ho
  have hlinks := (h.node k.inum).nlink
  have hdir : (ino k.inum).type = .dir := hino ▸ hd
  rw [hino] at hlinks
  rcases (by omega : 0 < real ino k.inum ∨ 0 < up ino att k.inum ∨ 0 < pending g k.inum) with h1 | h1 | h1
  · obtain ⟨d, e, he, hname⟩ := exists_of_real_pos h1
    obtain ⟨hen, h0, hre⟩ := Dirent.names_iff.mp hname
    rcases h.tree.nameAtt d e he h0 hre (by rw [hen]; exact hdir) with ⟨h2, -⟩ | ⟨b, q, hq⟩
    · rwa [← hen]
    · -- A directory in between is locked by who is about to attach it.
      obtain ⟨-, ⟨j, k', hj, hk'⟩, -⟩ := (h.part q).flux _ _ hq
      have := (hu q j k' p i k hj ho (hk'.trans hen)).1
      subst this
      rw [hf] at hq
      cases hq
  · obtain ⟨d, hd', hpar⟩ := exists_of_up_pos h1
    exact h.tree.attParent d _ hd' hpar
  · obtain ⟨q, b, hq⟩ := exists_of_pending_pos h1
    cases b with
    | true => exact absurd hdir ((h.part q).pend _ hq)
    | false =>
      obtain ⟨j, k', hj, hk'⟩ := (h.part q).pendOwn _ hq
      have := (hu q j k' p i k hj ho hk').1
      subst this
      exact absurd hq hp

/-- A directory that the process has locked is complete, unless it is a new one. -/
theorem shape_of_own (ho : (g p).own i = some k)
    (hL : 0 < L k.inum) (hd : k.ino.type = .dir) (hk : ∀ c, (g p).kid = some c → c.inum ≠ k.inum) :
    Shape k.inum k.ino.ents := by
  obtain ⟨hino, -⟩ := (h.part p).own i k ho
  rw [← hino] at hd ⊢
  rcases (h.node k.inum).shape hd with h1 | ⟨q, c, hc, he⟩ | ⟨-, h1⟩
  · exact h1
  · by_cases hq : q = p
    · subst hq
      exact absurd he (hk c hc)
    · exact absurd he.symm (h.kidOwn q p c i k hc (Ne.symm hq) ho)
  · omega

/-- **What a directory has an entry for is allocated**, and not about to be made: the directory itself, its parent if
it is attached, or an inode with a name. -/
theorem lookup (hu : OwnUnique g) {e : Dirent}
    (ho : (g p).own i = some k) (hL : 0 < L k.inum) (hd : k.ino.type = .dir) (hk : (g p).kid = none)
    (hf : (g p).flux = none) (hp : (k.inum, false) ∉ (g p).pend) (he : e ∈ k.ino.ents) (h0 : e.inum ≠ 0)
    (hup : e.name = dotdot → 0 < k.ino.nlink) :
    (ino e.inum).type ≠ .free ∧ (∀ q, ¬IsKid (g q) e.inum) ∧ (0 < L e.inum ∨ (ino e.inum).nlink ≠ 0) := by
  have hs := h.shape_of_own ho hL hd fun c hc => by rw [hk] at hc; cases hc
  obtain ⟨hino, -⟩ := (h.part p).own i k ho
  have linked : 0 < real ino e.inum + up ino att e.inum →
      (ino e.inum).type ≠ .free ∧ (∀ q, ¬IsKid (g q) e.inum) ∧ (0 < L e.inum ∨ (ino e.inum).nlink ≠ 0) := by
    intro hpos
    obtain ⟨h1, h2⟩ := h.alloc_of_linked hpos
    exact ⟨h1, h.not_kid hpos, .inr (by omega)⟩
  rcases hs.cases he h0 with rfl | ⟨hname, hpar⟩ | hre
  · refine ⟨(h.node _).alloc hL, ?_, .inl hL⟩
    rintro q ⟨c, hc, he⟩
    by_cases hq : q = p
    · subst hq
      rw [hk] at hc
      cases hc
    · exact h.kidOwn q p c i k hc (Ne.symm hq) ho he.symm
  · apply linked
    have hatt := h.att_of_own hu ho hd (hup hname) hf hp
    have := h.tree.up_pos hatt (by rw [parentOf, hino]; exact hpar)
    omega
  · apply linked
    have := h.tree.real_pos (by rw [hino]; exact he) h0 hre
    omega

end LinkInv

end Xv6.Fs
