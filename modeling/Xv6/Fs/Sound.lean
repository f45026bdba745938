import Xv6.Fs.Rules

/-!
# The rules are sound

Every step that is made by a rule keeps the invariant of the file system (`Rule.sound`), with what the rule says that
the process has afterwards. For every rule there is a lemma about the state and the ghost values; what changes in the
references comes from `RefInv`, what changes in inodes and names from `LinkInv`.
-/

namespace Xv6.Fs

open FsState (setTab_self setTab_of_ne setTab_inum incRef_inum decRef_inum)
open Function (update update_apply update_eq_self update_of_ne update_self)

variable {P : Type} [DecidableEq P] [Fintype P] {strict : Bool} {s s' : FsState P} {g : P → Ghost P} {p q : P}
  {x y : Ghost P} {i j : Fin NINODE} {n : Nat}
variable {T : Multiset (Fin NINODE × Nat)} {k : Held} {f : Fin NFILE} {att : Nat → Bool} {fd : Fin NOFILE}

/-! ## References -/

/-- One more reference, as counted by the inode. -/
theorem liveIno_dup (m : Nat) : liveIno (s.incRef i) (update g p ((g p).give i n)) m =
    liveIno s g m + if m = (s.tab i).inum then 1 else 0 := by
  have h : liveIno (s.incRef i) (update g p ((g p).give i n)) m + (if (s.tab i).inum = m then 0 else 0) =
      liveIno s g m + if (s.tab i).inum = m then 1 else 0 :=
    liveIno_move 0 1 (fun _ _ => by rfl) (fun j => incRef_inum j) ?_ ?_ m
  · rw [ite_self] at h
    simp only [eq_comm (a := m)]
    omega
  · intro j hj
    rw [weight_give, if_neg (Ne.symm hj)]
    rfl
  · have hw : weight (s.incRef i) (g p) p i = weight s (g p) p i := rfl
    have hf : files (s.incRef i) i = files s i := rfl
    rw [weight_give, if_pos rfl, hw, hf]
    omega

/-- The first reference, in an entry that was unused. -/
theorem liveIno_recycle (hr : RefInv s g) (hi : (s.tab i).ref = 0) (m : Nat) :
    liveIno (s.setTab i ⟨n, 1, false, (s.tab i).lock⟩) (update g p ((g p).give i n)) m =
      liveIno s g m + if m = n then 1 else 0 := by
  have h0 : live s g i = 0 := Nat.le_zero.mp (hi ▸ hr.live_le i)
  have h1 : ∀ j, live (s.setTab i ⟨n, 1, false, (s.tab i).lock⟩) (update g p ((g p).give i n)) j +
      (weight s (g p) p j + files s j) = live s g j + (weight s ((g p).give i n) p j + files s j) :=
    live_update fun _ _ => rfl
  have hl : ∀ j, live (s.setTab i ⟨n, 1, false, (s.tab i).lock⟩) (update g p ((g p).give i n)) j =
      live s g j + if i = j then 1 else 0 := by
    intro j
    have h2 := h1 j
    rw [weight_give] at h2
    omega
  have h2 := liveIno_change (s := s) i (fun j hj => by rw [hl, if_neg (Ne.symm hj), Nat.add_zero])
    (fun j hj => by rw [setTab_of_ne ⟨n, 1, false, (s.tab i).lock⟩ hj]) m
  rw [hl, h0, if_pos rfl, setTab_self, ite_self] at h2
  simp only [eq_comm (a := m)]
  omega

/-- `iget` gives a reference. -/
theorem RefInv.iget (hr : RefInv s g) (hs : s.iget n = some (i, s')) : RefInv s' (update g p ((g p).give i n)) ∧
      (∀ m, liveIno s' (update g p ((g p).give i n)) m = liveIno s g m + if m = n then 1 else 0) ∧
      (∀ m, Cached s m → Cached s' m) ∧ (∀ j, 0 < (s.tab j).ref → (s'.tab j).inum = (s.tab j).inum) ∧
      s'.ino = s.ino ∧ s'.panicked = s.panicked := by
  rcases FsState.iget_cases hs with ⟨hi, rfl, rfl⟩ | ⟨hi, hn, rfl⟩
  · refine ⟨hr.dup hi, liveIno_dup, fun m hc => hc.mono fun j h1 h2 h3 => ?_, fun j _ => incRef_inum j, rfl, rfl⟩
    by_cases hj : j = i
    · subst hj
      rw [FsState.incRef, setTab_self]
      exact ⟨h1, Nat.succ_pos _, h3⟩
    · rw [FsState.incRef, setTab_of_ne _ hj]
      exact ⟨h1, h2, h3⟩
  · have hne : ∀ j, 0 < (s.tab j).ref → j ≠ i := by
      rintro j hj rfl
      omega
    refine ⟨hr.recycle hi hn, liveIno_recycle hr hi, fun m hc => hc.mono fun j h1 h2 h3 => ?_, fun j hj => ?_, rfl, rfl⟩
    · rw [setTab_of_ne _ (hne j h2)]
      exact ⟨h1, h2, h3⟩
    · rw [setTab_of_ne _ (hne j hj)]

namespace FsInv

section

variable (h : FsInv strict s g)
include h

/-- A process that is past freeing an inode: it is still free. -/
theorem keepDead (hino : ∀ j, 0 < (s.tab j).ref → (s.inode j).type = .free → (s'.inode j).type = .free)
    (hx : x.dead = (g p).dead ∨ x.dead = none) (hst : strict = true) (q : P) (j : Fin NINODE)
    (hd : (update g p x q).dead = some j) : (s'.inode j).type = .free := by
  have hd' : (g q).dead = some j := by
    by_cases hq : q = p
    · subst hq
      rw [update_self] at hd
      rcases hx with hx | hx <;> rw [hx] at hd
      · exact hd
      · cases hd
    · rwa [update_of_ne hq] at hd
  exact hino j (h.refs.doomed_pos hd').2 (h.dead hst q j hd')

theorem panic {x : FsPanic} (hx : x ≠ .ilockNoType) : FsInv strict (s.panic x) g := by
  obtain ⟨att, hl⟩ := h.links
  refine ⟨h.refs.frame _ _ _, ⟨att, ?_⟩, fun he => hx (Option.some.inj he), h.dead⟩
  have hL : liveIno (s.panic x) g = liveIno s g := liveIno_congr (by rfl) (by rfl) (by rfl)
  rw [hL]
  exact hl

theorem setData (m : Nat) (d : List UInt8) : FsInv strict (s.setData m d) g := by
  obtain ⟨att, hl⟩ := h.links
  refine ⟨h.refs.frame _ _ _, ⟨att, ?_⟩, h.quiet, h.dead⟩
  have hL : liveIno (s.setData m d) g = liveIno s g := liveIno_congr (by rfl) (by rfl) (by rfl)
  rw [hL]
  exact hl

/-- **A reference to an inode that is not new.** -/
theorem give (hs : s.iget n = some (i, s')) (hn : (s.ino n).type ≠ .free)
    (hk : ∀ q, ¬IsKid (g q) n) (hlost : 0 < liveIno s g n ∨ (s.ino n).nlink ≠ 0) :
    FsInv strict s' (update g p ((g p).give i n)) := by
  obtain ⟨hr, hL, hV, hinum, hino, hpan⟩ := h.refs.iget hs
  obtain ⟨att, hl⟩ := h.links
  refine ⟨hr, ⟨att, ?_⟩, by rw [hpan]; exact h.quiet, h.keepDead (fun j hj hf => ?_) (.inl rfl)⟩
  · rw [hino]
    exact hl.more rfl rfl rfl rfl (fun _ ht => Multiset.mem_cons_of_mem ht) hn hk hlost hL hV
  · rw [FsState.inode, hino, hinum j hj]
    exact hf

/-- **The first reference to a new inode.** -/
theorem giveKid (hs : s.iget n = some (i, s')) {t : InodeType} (hk : (g p).kid = some (.fresh n t)) :
    FsInv strict s' (update g p { (g p).give i n with kid := some (.born i n t) }) := by
  obtain ⟨hr, hL, hV, hinum, hino, hpan⟩ := h.refs.iget hs
  obtain ⟨att, hl⟩ := h.links
  have hsame : Same { (g p).give i n with kid := some (.born i n t) } ((g p).give i n) :=
    ⟨rfl, fun _ => rfl, rfl, rfl, rfl, rfl, rfl⟩
  refine ⟨hr.relabel hsame, ⟨att, ?_⟩, by rw [hpan]; exact h.quiet, h.keepDead (fun j hj hf => ?_) (.inl rfl)⟩
  · rw [hino]
    refine hl.giveKid i hk (fun m => ?_) hV
    rw [liveIno_relabel hsame]
    exact hL m
  · rw [FsState.inode, hino, hinum j hj]
    exact hf

end

/-! ### The current directory -/

/-- Nothing changes that inodes depend on. -/
theorem move (h : FsInv strict s g) (hr : RefInv s' (update g p x)) (hino : s'.ino = s.ino)
    (hpan : s'.panicked = s.panicked) (hL : ∀ m, liveIno s' (update g p x) m = liveIno s g m)
    (htab : s'.tab = s.tab) (hown : x.own = (g p).own) (hpend : x.pend = (g p).pend) (hflux : x.flux = (g p).flux)
    (hkid : x.kid = (g p).kid) (hdead : x.dead = (g p).dead)
    (htok : (g p).kid = none ∨ ∀ t ∈ (g p).tok, t ∈ x.tok) : FsInv strict s' (update g p x) := by
  obtain ⟨att, hl⟩ := h.links
  refine ⟨hr, ⟨att, ?_⟩, by rw [hpan]; exact h.quiet, h.keepDead (fun j _ hf => ?_) (.inl hdead)⟩
  · rw [hino]
    refine hl.congr hown hpend hflux hkid htok hL fun m hc => ?_
    rw [Cached, htab]
    exact hc
  · rw [FsState.inode, hino, htab]
    exact hf

/-- `idup(p->cwd)`. -/
theorem idupCwd (h : FsInv strict s g) (hc : s.cwd p = some i) (ht : (g p).taken = false) (hk : (g p).kid = none) :
    FsInv strict (s.incRef i) (update g p ((g p).give i (s.tab i).inum)) := by
  have hw := weight_cwd_pos ht hc
  obtain ⟨att, hl⟩ := h.links
  obtain ⟨hL, halloc⟩ := hl.alloc_of_weight h.refs hw
  have hi : 0 < (s.tab i).ref := Nat.lt_of_lt_of_le (live_of_weight hw) (h.refs.live_le i)
  refine ⟨h.refs.dup hi, ⟨att, ?_⟩, h.quiet, h.keepDead (fun j _ hf => ?_) (.inl rfl)⟩
  · refine hl.more rfl rfl rfl rfl (fun _ ht => Multiset.mem_cons_of_mem ht) halloc ?_ (.inl hL) liveIno_dup
      fun m hc => hc.mono fun j h1 h2 h3 => ?_
    · rintro q ⟨k, hkq, he⟩
      by_cases hq : q = p
      · subst hq
        rw [hk] at hkq
        cases hkq
      · exact hl.kid_ne_of_weight h.refs hw hq hkq he
    · by_cases hj : j = i
      · subst hj
        rw [FsState.incRef, setTab_self]
        exact ⟨h1, Nat.succ_pos _, h3⟩
      · rw [FsState.incRef, setTab_of_ne _ hj]
        exact ⟨h1, h2, h3⟩
  · rw [FsState.inode, incRef_inum]
    exact hf

/-- `iput` takes the reference of the current directory. -/
theorem take (h : FsInv strict s g) (hc : s.cwd p = some i) (ht : (g p).taken = false) (hk : (g p).kid = none) :
    FsInv strict s (update g p { (g p).give i (s.tab i).inum with taken := true }) := by
  refine h.move (h.refs.take hc ht) rfl rfl ?_ rfl rfl rfl rfl rfl rfl (.inl hk)
  refine liveIno_same (fun _ _ => rfl) (fun _ => rfl) fun j => ?_
  simp [weight, Ghost.give, Multiset.countP_cons, hc, ht]

/-- `p->cwd = ip`. -/
theorem setCwd (h : FsInv strict s g) (ht : (g p).taken = true)
    (hT : (g p).tok = (i, n) ::ₘ T) (ho : (g p).own i = none) (hk : (g p).kid = none) :
    FsInv strict (s.setCwd p (some i)) (update g p { g p with tok := T, taken := false }) := by
  refine h.move (h.refs.setCwd ht hT ho) rfl rfl ?_ rfl rfl rfl rfl rfl rfl (.inl hk)
  refine liveIno_same (fun q hq => by simp [FsState.setCwd, hq]) (fun _ => rfl) fun j => ?_
  have hw : weight (s.setCwd p (some i)) { g p with tok := T, taken := false } p j = weight s (g p) p j := by
    simp [weight, hT, Multiset.countP_cons, ht, FsState.setCwd]
  rw [hw]
  rfl

/-! ### Locks -/

/-- Who has locked an inode, and who could have. -/
theorem own_none (h : FsInv strict s g) (hlock : (s.tab i).lock = none) (q : P) : (g q).own i = none := by
  by_contra hn
  have := (h.refs.locks.lock i q).mpr (Option.isSome_iff_ne_none.mpr hn)
  rw [hlock] at this
  cases this

section

variable (h : FsInv strict s g) (hl : LinkInv strict s.ino g att (liveIno s g) (Cached s)) (hlock : (s.tab i).lock = none) (ht : (i, n) ∈ (g p).tok)
include h hl hlock ht

/-- An inode that is not locked, and to which the process has a reference, is not locked or made by another process. -/
theorem hold_local
    (hq : q ≠ p) : (∀ j k, (g q).own j = some k → k.inum ≠ n) ∧ ∀ k, (g q).kid = some k → k.inum ≠ n := by
  have hn : (s.tab i).inum = n := h.refs.counts.tok p _ ht
  refine ⟨fun j k hj he => ?_, fun k hk he => ?_⟩
  · have hij : j = i := by
      refine h.refs.counts.uniq j i ?_ ?_ ?_
      · exact Nat.lt_of_lt_of_le (h.refs.live_of_own hj) (h.refs.live_le j)
      · exact Nat.lt_of_lt_of_le (RefInv.live_of_tok ht) (h.refs.live_le i)
      · rw [(h.refs.locks.own q j k hj).1, hn, he]
    subst hij
    rw [h.own_none hlock] at hj
    cases hj
  · exact hl.kid_ne_of_weight h.refs (weight_pos_of_tok ht) hq hk (he.trans hn.symm)

/-- **An inode is locked.** -/
theorem hold {c : Option Kid} (hx : x = { (g p).hold i ⟨n, s.ino n, att n⟩ with kid := c })
    (hold : ∀ k, (g p).kid = some k → k.inum = n ∧ ∃ k', c = some k' ∧ k'.inum = n)
    (hnew : ∀ k, c = some k → k.inum = n ∧ KidOk s.ino att (liveIno s g) x k) :
    FsInv strict (s.setTab i { s.tab i with valid := true, lock := some p }) (update g p x) := by
  have hn : (s.tab i).inum = n := h.refs.counts.tok p _ ht
  have href : 0 < (s.tab i).ref := Nat.lt_of_lt_of_le (RefInv.live_of_tok ht) (h.refs.live_le i)
  have hlive : liveIno s g n = live s g i := h.refs.liveIno_tok ht
  have hpos : 0 < live s g i := RefInv.live_of_tok ht
  have hinum : ∀ j, ((s.setTab i { s.tab i with valid := true, lock := some p }).tab j).inum = (s.tab j).inum :=
    setTab_inum rfl
  have hL : liveIno (s.setTab i { s.tab i with valid := true, lock := some p }) (update g p x) = liveIno s g := by
    funext m
    rw [hx]
    exact liveIno_same (fun _ _ => by rfl) hinum (fun _ => by rfl) m
  have hsame : Same x ((g p).hold i ⟨n, s.ino n, att n⟩) := by
    rw [hx]
    exact ⟨rfl, fun _ => rfl, rfl, rfl, rfl, rfl, rfl⟩
  refine ⟨(h.refs.lock hlock ht).relabel hsame, ⟨att, ?_⟩, h.quiet, h.keepDead (fun j _ hf => ?_) ?_⟩
  · rw [hL]
    refine hl.hold (i := i) (fun q hq => h.hold_local hl hlock ht hq) (h.own_none hlock p) ?_ ?_ ?_ hx hold hnew
    · omega
    · refine fun m hc => hc.mono fun j h1 h2 h3 => ?_
      by_cases hj : j = i
      · subst hj
        rw [setTab_self]
        exact ⟨h1, h2, rfl⟩
      · rw [setTab_of_ne _ hj]
        exact ⟨h1, h2, h3⟩
    · refine ⟨i, ?_⟩
      rw [setTab_self]
      exact ⟨hn, href, rfl⟩
  · rw [FsState.inode, hinum]
    exact hf
  · rw [hx]
    exact .inl rfl

end

/-- An inode is unlocked. -/
theorem unlock (h : FsInv strict s g) (ho : (g p).own i = some k) (hf : (g p).flux = none)
    (hp : ∀ m, (m, false) ∈ (g p).pend → ∃ j k, j ≠ i ∧ (g p).own j = some k ∧ k.inum = m)
    (hk : ∀ m, (g p).kid ≠ some (.held i m)) :
    FsInv strict (s.setTab i { s.tab i with lock := none }) (update g p ((g p).unhold i)) := by
  obtain ⟨att, hl⟩ := h.links
  have hinum : ∀ j, ((s.setTab i { s.tab i with lock := none }).tab j).inum = (s.tab j).inum := setTab_inum rfl
  have hL : liveIno (s.setTab i { s.tab i with lock := none }) (update g p ((g p).unhold i)) =
      liveIno s g := funext fun m => liveIno_same (fun _ _ => by rfl) hinum (fun _ => by rfl) m
  have hV : Cached (s.setTab i { s.tab i with lock := none }) = Cached s := by
    funext m
    have ht : ∀ j, ((s.setTab i { s.tab i with lock := none }).tab j).ref = (s.tab j).ref ∧
        ((s.setTab i { s.tab i with lock := none }).tab j).valid = (s.tab j).valid := by
      intro j
      by_cases hj : j = i
      · rw [hj, setTab_self]
        exact ⟨rfl, rfl⟩
      · rw [setTab_of_ne _ hj]
        exact ⟨rfl, rfl⟩
    simp only [Cached, hinum, ht]
  refine ⟨h.refs.unlock ho, ⟨att, ?_⟩, h.quiet, h.keepDead (fun j _ hd => ?_) (.inl rfl)⟩
  · rw [hL, hV]
    exact hl.unhold hf hp hk
  · rw [FsState.inode, hinum]
    exact hd

/-! ### Inodes -/

section

variable (h : FsInv strict s g)
include h

/-- An inode that a process has locked. -/
theorem own_ino (hl : LinkInv strict s.ino g att (liveIno s g) (Cached s)) (ho : (g p).own i = some k) :
    (s.tab i).inum = k.inum ∧ s.inode i = k.ino ∧ 0 < liveIno s g k.inum ∧ Cached s k.inum ∧ k.ino.type ≠ .free := by
  obtain ⟨hn, hvalid, -⟩ := h.refs.locks.own p i k ho
  obtain ⟨hino, -⟩ := (hl.part p).own i k ho
  have hlive := h.refs.live_of_own ho
  have hL : 0 < liveIno s g k.inum := by
    rw [h.refs.liveIno_own ho]
    exact hlive
  refine ⟨hn, ?_, hL, ⟨i, hn, Nat.lt_of_lt_of_le hlive (h.refs.live_le i), hvalid⟩, ?_⟩
  · rw [FsState.inode, hn, hino]
  · rw [← hino]
    exact (hl.node _).alloc hL

/-- An inode changes, and no reference. -/
theorem change {r : Inode} (att : Nat → Bool) (hx : Same x (g p))
    (hl : LinkInv strict (update s.ino n r) (update g p x) att (liveIno s g) (Cached s))
    (hdead : strict = true → ∀ j, 0 < (s.tab j).ref → (s.tab j).inum = n → (s.ino n).type ≠ .free) :
    FsInv strict (s.setIno n r) (update g p x) := by
  have hr : RefInv s (update g p x) := by
    refine RefInv.relabel ?_ hx
    rw [update_eq_self]
    exact h.refs
  have hL : liveIno (s.setIno n r) (update g p x) = liveIno s g := by
    have h1 : liveIno s (update g p x) = liveIno s (update g p (g p)) := liveIno_relabel hx
    rw [update_eq_self] at h1
    have h2 : liveIno (s.setIno n r) (update g p x) = liveIno s (update g p x) :=
      liveIno_congr (by rfl) (by rfl) (by rfl)
    exact h2.trans h1
  refine ⟨hr.frame _ _ _, ⟨att, ?_⟩, h.quiet, fun hst => h.keepDead (fun j hj hf => ?_) (.inl hx.dead) hst⟩
  · rw [hL]
    exact hl
  · have hne : (s.tab j).inum ≠ n := fun he => hdead hst j hj he (by rw [← he]; exact hf)
    rw [FsState.inode, FsState.setIno]
    dsimp only
    rw [update_of_ne hne]
    exact hf

/-- An inode that the process has locked changes. -/
theorem changeOwn {r : Inode} (att' : Nat → Bool)
    (hl : LinkInv strict s.ino g att (liveIno s g) (Cached s)) (ho : (g p).own i = some k) (hx : Same x (g p))
    (hl' : LinkInv strict (update s.ino k.inum r) (update g p x) att' (liveIno s g) (Cached s)) :
    FsInv strict (s.setIno k.inum r) (update g p x) := by
  refine h.change att' hx hl' fun _ _ _ _ => ?_
  obtain ⟨-, -, -, -, ht⟩ := h.own_ino hl ho
  obtain ⟨hino, -⟩ := (hl.part p).own i k ho
  rwa [hino]

/-- A name for a link that is counted. -/
theorem addName {off : Nat} {b : Bool} {name : Name} (ho : (g p).own i = some k)
    (hd : k.ino.type = .dir) (hp : (g p).pend = {(n, b)}) (hf : (g p).flux = none) (hname : isReal name = true)
    (hoff : off ≤ k.ino.ents.length) (hslot : ∀ e, k.ino.ents[off]? = some e → e.inum = 0)
    (hk : ∀ c, (g p).kid = some c → c.inum = n)
    (hdir : b = false → ∃ j kn, j ≠ i ∧ (g p).kid = some (.held j n) ∧ (g p).own j = some kn ∧ kn.ino.type = .dir ∧
      kn.ino.ents = [⟨n, dot⟩, ⟨k.inum, dotdot⟩])
    (hcond : n ≠ 0 → 0 < k.ino.nlink) :
    FsInv strict (s.setIno k.inum { k.ino with ents := putEntry k.ino.ents off ⟨n, name⟩ })
      (update g p { (g p).set i k { k.ino with ents := putEntry k.ino.ents off ⟨n, name⟩ } with
        pend := 0, kid := none, flux := if b then none else some (n, true) }) := by
  obtain ⟨att, hl⟩ := h.links
  obtain ⟨-, -, hL, hV, -⟩ := h.own_ino hl ho
  have hu := h.refs.ownUnique
  have hmem : (n, b) ∈ (g p).pend := by
    rw [hp]
    exact Multiset.mem_singleton_self _
  have hn0 : n ≠ 0 := by
    have h1 : 0 < pendAt (g p) n := Multiset.countP_pos.mpr ⟨(n, b), hmem, rfl⟩
    have h2 := pendAt_le_pending (g := g) p n
    have h3 := (hl.node n).nlink
    have h4 : (s.ino n).type ≠ .free := fun hfree => by
      have := (hl.node n).free hfree
      omega
    exact Nat.ne_of_gt (hl.tree.range n h4).1
  have hother : (k.inum, false) ∉ (g p).pend := by
    rw [hp]
    intro hm
    obtain ⟨hkn, hb⟩ := Prod.mk.inj (Multiset.mem_singleton.mp hm)
    obtain ⟨j, kn, hji, hkid, hj, -, -⟩ := hdir hb.symm
    obtain ⟨-, -, -, -, -, k', hk', hin⟩ := (hl.part p).kid _ hkid
    exact hji (hu p j k' p i k hk' ho (hin.trans hkn.symm)).2
  have hatt := hl.att_of_own hu ho hd (hcond hn0) hf hother
  refine h.changeOwn att hl ho ⟨rfl, LinkInv.own_map_update ho rfl, rfl, rfl, rfl, rfl, rfl⟩ ?_
  refine hl.addName hu ho hatt hL hV hoff hslot hname hp hf hk ?_ rfl
  intro hb
  obtain ⟨j, kn, -, h1, h2, h3, h4⟩ := hdir hb
  exact ⟨j, kn, h1, h2, h3, h4⟩

/-- An entry of a new directory. -/
theorem addKid {off : Nat} {de : Dirent} (hk : (g p).kid = some (.held i n))
    (ho : (g p).own i = some k) (hd : k.ino.type = .dir) (hf : (g p).flux = none) (hde : isReal de.name = false) :
    FsInv strict (s.setIno k.inum { k.ino with ents := putEntry k.ino.ents off de })
      (update g p ((g p).set i k { k.ino with ents := putEntry k.ino.ents off de })) := by
  obtain ⟨att, hl⟩ := h.links
  obtain ⟨hino, hatt⟩ := (hl.part p).own i k ho
  obtain ⟨-, -, -, -, hfalse, k', hk', hn⟩ := (hl.part p).kid _ hk
  rw [ho] at hk'
  cases hk'
  refine h.changeOwn att hl ho ⟨rfl, LinkInv.own_map_update ho rfl, rfl, rfl, rfl, rfl, rfl⟩ ?_
  refine hl.writeKid h.refs.ownUnique hk ho hd rfl rfl ?_ hf rfl rfl rfl hf rfl
  intro e he h0
  rcases mem_putEntry he with rfl | he
  · exact hde
  · refine hl.tree.noNames k.inum (by rw [hn]; exact hfalse) e ?_ h0
    rw [hino]
    exact he

/-- A name is removed. -/
theorem removeName {kn : Held} {off : Nat} {e : Dirent} (ho : (g p).own i = some k)
    (hj : (g p).own j = some kn) (hij : i ≠ j) (he : k.ino.ents[off]? = some e) (h0 : e.inum ≠ 0)
    (hname : isReal e.name = true) (hn : e.inum = kn.inum) (hf : (g p).flux = none) (hk : (g p).kid = none) :
    FsInv strict (s.setIno k.inum { k.ino with ents := putEntry k.ino.ents off ⟨0, []⟩ })
      (update g p { (g p).set i k { k.ino with ents := putEntry k.ino.ents off ⟨0, []⟩ } with
        pend := (kn.inum, decide (kn.ino.type ≠ .dir)) ::ₘ (g p).pend
        flux := if decide (kn.ino.type ≠ .dir) then none else some (kn.inum, false) }) := by
  obtain ⟨att, hl⟩ := h.links
  obtain ⟨-, -, hL, hV, -⟩ := h.own_ino hl ho
  refine h.changeOwn att hl ho ⟨rfl, LinkInv.own_map_update ho rfl, rfl, rfl, rfl, rfl, rfl⟩ ?_
  exact hl.removeName h.refs.ownUnique ho hj hij hL hV he h0 hname hn hf hk decide_eq_true_iff rfl

/-- A free inode is allocated. -/
theorem ialloc {t : InodeType} (hfree : (s.ino n).type = .free) (hn : 0 < n ∧ n < NINODES)
    (ht : t ≠ .free) (hk : (g p).kid = none) (hcond : strict = true → ∀ j, (s.tab j).inum = n → (s.tab j).ref = 0) :
    FsInv strict (s.setIno n ⟨t, 0, 0, []⟩) (update g p { g p with kid := some (.fresh n t) }) := by
  obtain ⟨att, hl⟩ := h.links
  refine h.change att ⟨rfl, fun _ => rfl, rfl, rfl, rfl, rfl, rfl⟩ ?_ ?_
  · refine hl.ialloc hfree hn ht hk fun q j k hj => ?_
    exact (h.own_ino hl hj).2.2.1
  · intro hst j hj he
    have := hcond hst j he
    omega

/-- The first link of a new inode. -/
theorem setLink {major : Int} (hk : (g p).kid = some (.held i n))
    (ho : (g p).own i = some k) (h0 : k.ino.nlink = 0) (hf : (g p).flux = none) :
    FsInv strict (s.setIno k.inum { k.ino with major := major, nlink := 1 })
      (update g p { (g p).set i k { k.ino with major := major, nlink := 1 } with
        pend := (n, decide (k.ino.type ≠ .dir)) ::ₘ (g p).pend }) := by
  obtain ⟨att, hl⟩ := h.links
  obtain ⟨-, -, hL, hV, -⟩ := h.own_ino hl ho
  obtain ⟨-, -, -, -, -, k', hk', hn⟩ := (hl.part p).kid _ hk
  rw [ho] at hk'
  cases hk'
  subst hn
  refine h.changeOwn att hl ho ⟨rfl, LinkInv.own_map_update ho rfl, rfl, rfl, rfl, rfl, rfl⟩ ?_
  refine hl.addLink h.refs.ownUnique ho rfl rfl hL hV hf ?_
    (show (1 : Int) < 2 ^ 15 by decide) decide_eq_true_iff.mp ?_ rfl
  · rw [h0]
    rfl
  · intro c hc
    rw [hk] at hc
    cases hc
    rfl

/-- A link that is to be made. -/
theorem incLink (ho : (g p).own i = some k) (hd : k.ino.type ≠ .dir)
    (hf : (g p).flux = none) (hk : (g p).kid = none) (hc : k.ino.nlink < 2 ^ 15 - 1) :
    FsInv strict (s.setIno k.inum { k.ino with nlink := k.ino.nlink + 1 })
      (update g p { (g p).set i k { k.ino with nlink := k.ino.nlink + 1 } with
        pend := (k.inum, true) ::ₘ (g p).pend }) := by
  obtain ⟨att, hl⟩ := h.links
  obtain ⟨-, -, hL, hV, -⟩ := h.own_ino hl ho
  refine h.changeOwn att hl ho ⟨rfl, LinkInv.own_map_update ho rfl, rfl, rfl, rfl, rfl, rfl⟩ ?_
  refine hl.addLink h.refs.ownUnique ho rfl rfl hL hV hf rfl ?_ (fun _ => hd) ?_ rfl
  · dsimp only
    omega
  · intro c hc
    rw [hk] at hc
    cases hc

/-- A link that is no more. -/
theorem decLink {b : Bool} {T : Multiset (Nat × Bool)} (ho : (g p).own i = some k)
    (hp : (g p).pend = (k.inum, b) ::ₘ T) (hf : (g p).flux = none) (hk : (g p).kid = none) :
    0 < k.ino.nlink ∧ k.ino.nlink < 2 ^ 15 ∧ FsInv strict (s.setIno k.inum { k.ino with nlink := k.ino.nlink - 1 })
      (update g p { (g p).set i k { k.ino with nlink := k.ino.nlink - 1 } with pend := T }) := by
  obtain ⟨att, hl⟩ := h.links
  obtain ⟨-, -, hL, hV, -⟩ := h.own_ino hl ho
  obtain ⟨hino, -⟩ := (hl.part p).own i k ho
  have h1 : 0 < pendAt (g p) k.inum := Multiset.countP_pos.mpr ⟨(k.inum, b), by rw [hp]; exact Multiset.mem_cons_self _ _, rfl⟩
  have h2 := pendAt_le_pending (g := g) p k.inum
  have h3 := (hl.node k.inum).nlink
  have h4 := (hl.node k.inum).small
  rw [hino] at h3 h4
  refine ⟨by omega, h4, ?_⟩
  refine h.changeOwn att hl ho ⟨rfl, LinkInv.own_map_update ho rfl, rfl, rfl, rfl, rfl, rfl⟩ ?_
  refine hl.removeLink h.refs.ownUnique ho rfl rfl hL hV hf hp ?_ ?_ (.inl ⟨hk, hk⟩) rfl
  · dsimp only
    omega
  · dsimp only
    omega

/-- A new inode is given up. -/
theorem zeroLink {b : Bool} (hk : (g p).kid = some (.held i n))
    (ho : (g p).own i = some k) (hp : (g p).pend = {(n, b)}) (hf : (g p).flux = none) :
    FsInv strict (s.setIno k.inum { k.ino with nlink := 0 })
      (update g p { (g p).set i k { k.ino with nlink := 0 } with pend := 0, kid := some (.gone i n) }) := by
  obtain ⟨att, hl⟩ := h.links
  obtain ⟨-, -, hL, hV, -⟩ := h.own_ino hl ho
  obtain ⟨h1, -, -, -, -, k', hk', hn⟩ := (hl.part p).kid _ hk
  rw [ho] at hk'
  cases hk'
  subst hn
  have hpk : pendAt (g p) k.inum = 1 := by
    rw [pendAt, hp]
    exact Multiset.countP_cons_of_pos 0 rfl
  rw [((hl.part p).own i k ho).1, hpk] at h1
  refine h.changeOwn att hl ho ⟨rfl, LinkInv.own_map_update ho rfl, rfl, rfl, rfl, rfl, rfl⟩ ?_
  refine hl.removeLink h.refs.ownUnique ho rfl rfl hL hV hf hp ?_ (show (0 : Int) < 2 ^ 15 by decide)
    (.inr ⟨hk, rfl, rfl⟩) rfl
  rw [h1]
  rfl

/-- The parent comes to count a new directory. -/
theorem attach {kn : Held} (ho : (g p).own i = some k) (hj : (g p).own j = some kn)
    (hij : i ≠ j) (hf : (g p).flux = some (kn.inum, true)) (hpar : parentOf kn.ino = some k.inum)
    (hk : (g p).kid = none) (hc : k.ino.nlink < 2 ^ 15 - 1) :
    FsInv strict (s.setIno k.inum { k.ino with nlink := k.ino.nlink + 1 }) (update g p
        { ((g p).set i k { k.ino with nlink := k.ino.nlink + 1 }).hold j ⟨kn.inum, kn.ino, true⟩ with flux := none }) := by
  obtain ⟨att, hl⟩ := h.links
  obtain ⟨-, -, hL, hV, -⟩ := h.own_ino hl ho
  obtain ⟨-, -, hLn, -, -⟩ := h.own_ino hl hj
  obtain ⟨hino, -⟩ := (hl.part p).own j kn hj
  have hflux := (hl.part p).flux _ _ hf
  have hdir : kn.ino.type = .dir := hino ▸ hflux.dir
  have hshape := hl.shape_of_own hj hLn hdir fun c hc => by rw [hk] at hc; cases hc
  obtain ⟨i', k', hi', hpar', -, hcount⟩ := hflux.parent
  have hk' : k'.inum = k.inum := by
    rw [hino, hpar] at hpar'
    exact (Option.some.inj hpar').symm
  rw [hk'] at hcount
  -- The parent holds a name, so it is attached.
  have hatt : att k.inum = true := by
    by_contra hn
    have := nameCount_eq_zero (hl.tree.noNames k.inum (by simpa using hn)) kn.inum
    have := hcount rfl
    omega
  refine h.changeOwn (update att kn.inum true) hl ho (Ghost.set_hold_same ho hj hij _ true) ?_
  refine hl.setAttached h.refs.ownUnique ho hj hij hf rfl rfl ?_ ?_ hL hV hpar hk rfl ?_
  · simp
  · dsimp only
    omega
  · refine hl.tree.attach hflux.dir (hino ▸ hshape) (by rw [hino]; exact hpar) hatt hflux.real (hcount rfl) ?_
    rintro m b ⟨q, hq⟩ hm
    refine ⟨q, ?_⟩
    rw [update_of_ne]
    · exact hq
    · rintro rfl
      rw [hf] at hq
      cases hq
      exact hm rfl

/-- The parent counts a removed directory no more. -/
theorem detach {kn : Held} (ho : (g p).own i = some k) (hj : (g p).own j = some kn)
    (hij : i ≠ j) (hf : (g p).flux = some (kn.inum, false)) (hk : (g p).kid = none) (he : isdirempty kn.ino = true)
    (hown : ∀ c k', (g p).own c = some k' → c = i ∨ c = j) :
    0 < k.ino.nlink ∧ k.ino.nlink < 2 ^ 15 ∧ FsInv strict (s.setIno k.inum { k.ino with nlink := k.ino.nlink - 1 })
      (update g p
        { ((g p).set i k { k.ino with nlink := k.ino.nlink - 1 }).hold j ⟨kn.inum, kn.ino, false⟩ with flux := none }) := by
  obtain ⟨att, hl⟩ := h.links
  obtain ⟨-, -, hL, hV, -⟩ := h.own_ino hl ho
  obtain ⟨-, -, hLn, -, -⟩ := h.own_ino hl hj
  obtain ⟨hino, -⟩ := (hl.part p).own j kn hj
  obtain ⟨hinod, -⟩ := (hl.part p).own i k ho
  have hu := h.refs.ownUnique
  have hflux := (hl.part p).flux _ _ hf
  have hdir : kn.ino.type = .dir := hino ▸ hflux.dir
  have hshape := hl.shape_of_own hj hLn hdir fun c hc => by rw [hk] at hc; cases hc
  -- The parent is the other directory that the process has locked.
  have hpar : parentOf kn.ino = some k.inum ∧ k.inum ≠ kn.inum := by
    obtain ⟨c, k', hc, hpar, hne, -⟩ := hflux.parent
    rw [hino] at hpar
    rcases hown c k' hc with rfl | rfl
    · rw [ho] at hc
      cases hc
      exact ⟨hpar, hne⟩
    · rw [hj] at hc
      cases hc
      exact absurd rfl hne
  have hup := hl.tree.up_pos (by rw [hflux.att]; rfl) (by rw [hino]; exact hpar.1)
  have hlinks := (hl.node k.inum).nlink
  have hsmall := (hl.node k.inum).small
  rw [hinod] at hlinks hsmall
  refine ⟨by omega, hsmall, ?_⟩
  refine h.changeOwn (update att kn.inum false) hl ho (Ghost.set_hold_same ho hj hij _ false) ?_
  refine hl.setAttached hu ho hj hij hf rfl rfl ?_ ?_ hL hV hpar.1 hk rfl ?_
  · simp
  · dsimp only
    omega
  · refine hl.tree.detach (by rw [hflux.att]; rfl) (by rw [hino]; exact hpar.1) hpar.2 hflux.real ?_ ?_ ?_
    · rw [hino]
      exact hshape.empty he
    · rintro m b ⟨q, hq⟩ hm
      refine ⟨q, ?_⟩
      rw [update_of_ne]
      · exact hq
      · rintro rfl
        rw [hf] at hq
        cases hq
        exact hm rfl
    · -- Nobody is about to attach a directory to this one, which the process has locked.
      rintro m b ⟨q, hq⟩ hm hm'
      obtain ⟨c, k', hc, hpar', -, -⟩ := ((hl.part q).flux _ _ hq).parent
      rw [hm'] at hpar'
      have := (hu q c k' p j kn hc hj (Option.some.inj hpar').symm).1
      subst this
      rw [hf] at hq
      cases hq
      exact hm rfl

end

/-! ### Dropping references -/

/-- One reference less, as counted by the inode. -/
theorem liveIno_drop (hn : (s.tab i).inum = n) (hT : (g p).tok = (i, n) ::ₘ T)
    (hx : x.tok = T) (ht : x.taken = (g p).taken) (hcwd : s'.cwd = s.cwd) (hfile : s'.file = s.file)
    (hinum : ∀ j, (s'.tab j).inum = (s.tab j).inum) (m : Nat) :
    liveIno s' (update g p x) m + (if m = n then 1 else 0) = liveIno s g m := by
  have hw : ∀ j, weight s (g p) p j = weight s' x p j + if i = j then 1 else 0 :=
    weight_cons (by rw [hT, hx]) ht.symm (by rw [hcwd])
  have hfiles : ∀ j, files s' j = files s j := fun j => by rw [files, files, hfile]
  have h := liveIno_move (x := x) (g := g) (p := p) (i := i) 1 0 (fun q _ => congrFun hcwd q) hinum ?_ ?_ m
  · rw [ite_self, hn] at h
    simp only [eq_comm]
    omega
  · intro j hj
    rw [hw, hfiles, if_neg (Ne.symm hj)]
    rfl
  · rw [hw, hfiles, if_pos rfl]
    omega

section

variable (h : FsInv strict s g)
include h

/-- The entry of an inode that is not to be freed is not doomed. -/
theorem doomed_eq_zero (hst : strict = true) (ht : (s.inode i).type ≠ .free) : doomed g i = 0 := by
  refine Finset.sum_eq_zero fun q _ => if_neg fun hd => ?_
  exact ht (h.dead hst q i hd)

/-- **A reference is dropped**, which was not the last one to an inode without links. -/
theorem drop (hT : (g p).tok = (i, n) ::ₘ T)
    (ho : (g p).own i = none ∨ (i, n) ∈ T) (hk : (g p).kid = none ∨ (g p).kid = some (.gone i n))
    (htest : ¬((s.tab i).ref = 1 ∧ (s.tab i).valid = true ∧ (s.inode i).nlink = 0)) :
    FsInv strict (s.decRef i) (update g p { g p with tok := T, kid := none }) := by
  obtain ⟨att, hl⟩ := h.links
  have ht : (i, n) ∈ (g p).tok := by
    rw [hT]
    exact Multiset.mem_cons_self _ _
  have hn : (s.tab i).inum = n := h.refs.counts.tok p _ ht
  have hw := weight_pos_of_tok (s := s) ht
  have hsame : Same { g p with tok := T, kid := none } { g p with tok := T } :=
    ⟨rfl, fun _ => rfl, rfl, rfl, rfl, rfl, rfl⟩
  have hL : ∀ m, liveIno (s.decRef i) (update g p { g p with tok := T, kid := none }) m +
      (if m = n then 1 else 0) = liveIno s g m := liveIno_drop hn hT rfl rfl rfl rfl decRef_inum
  have hq : ∀ q, q ≠ p → ∀ k, (g q).kid = some k → k.inum ≠ n := by
    intro q hqp k hkq
    rw [← hn]
    exact hl.kid_ne_of_weight h.refs hw hqp hkq
  refine ⟨(h.refs.drop hT ho).relabel hsame, ⟨att, hl.drop hk hq hL ?_ ?_⟩, h.quiet, h.keepDead (fun j _ hf => ?_) (.inl rfl)⟩
  · refine fun m hm hc => hc.mono fun j h1 h2 h3 => ?_
    have hj : j ≠ i := by
      rintro rfl
      exact hm (h1.symm.trans hn)
    rw [FsState.decRef, setTab_of_ne _ hj]
    exact ⟨h1, h2, h3⟩
  · -- The entry is valid and the inode has no links, so there is another reference.
    intro hst htype h0
    rcases (hl.node n).orphan hst htype h0 with ⟨-, j, h1, h2, h3⟩ | ⟨q, k, hkq, he, hearly⟩
    · have href : 0 < (s.tab i).ref := Nat.lt_of_lt_of_le (live_of_weight hw) (h.refs.live_le i)
      have hj : j = i := h.refs.counts.uniq j i h2 href (h1.trans hn.symm)
      subst hj
      have hino : s.inode j = s.ino n := by rw [FsState.inode, hn]
      have hd := h.doomed_eq_zero hst (by rw [hino]; exact htype)
      have hcount := h.refs.counts.ref j
      have hlive := h.refs.liveIno_tok ht
      have hLn := hL n
      rw [if_pos rfl] at hLn
      have hne : (s.tab j).ref ≠ 1 := fun h4 => htest ⟨h4, h3, by rw [hino]; exact h0⟩
      refine ⟨by omega, j, ?_⟩
      rw [FsState.decRef, setTab_self]
      exact ⟨hn, by dsimp only; omega, h3⟩
    · by_cases hqp : q = p
      · subst hqp
        rcases hk with hk | hk <;> rw [hk] at hkq <;> cases hkq
        cases hearly
      · exact absurd he (hq q hqp k hkq)
  · rw [FsState.inode, decRef_inum]
    exact hf

/-- **The last reference to an inode without links.** It is not locked by anybody, and is to be freed. -/
theorem last (hT : (g p).tok = (i, n) ::ₘ T)
    (hk : (g p).kid = none ∨ (g p).kid = some (.gone i n)) (hlock : (s.tab i).lock = none)
    (href : (s.tab i).ref = 1) (hvalid : (s.tab i).valid = true) (h0 : (s.inode i).nlink = 0) :
    FsInv strict (s.setTab i { s.tab i with lock := some p })
      (update g p { (g p).hold i ⟨n, s.ino n, false⟩ with kid := some (.gone i n) }) := by
  obtain ⟨att, hl⟩ := h.links
  have ht : (i, n) ∈ (g p).tok := by
    rw [hT]
    exact Multiset.mem_cons_self _ _
  have hn : (s.tab i).inum = n := h.refs.counts.tok p _ ht
  have hlive := h.refs.liveIno_tok ht
  have hpos : 0 < live s g i := RefInv.live_of_tok ht
  have hcount := h.refs.counts.ref i
  have hL : liveIno s g n = 1 := by omega
  have hlinks := (hl.node n).nlink
  rw [FsState.inode, hn] at h0
  -- An attached directory has a link, or is locked by who is about to detach it.
  have hatt : att n = false := by
    by_contra hn'
    have hn' : att n = true := by simpa using hn'
    rcases hl.tree.attName n hn' with rfl | h1 | ⟨q, hq⟩
    · have := hl.tree.up_pos hl.tree.root.1 hl.tree.root.2.1
      omega
    · omega
    · obtain ⟨-, ⟨j, k, hj, hkn⟩, -, -, -⟩ := (hl.part q).flux _ _ hq
      have hji : j = i := by
        refine h.refs.counts.uniq j i ?_ (by omega) ?_
        · exact Nat.lt_of_lt_of_le (h.refs.live_of_own hj) (h.refs.live_le j)
        · rw [(h.refs.locks.own q j k hj).1, hn, hkn]
      rw [hji, h.own_none hlock] at hj
      cases hj
  have htab : { s.tab i with lock := some p } = { s.tab i with valid := true, lock := some p } := by
    simp only [hvalid]
  rw [htab]
  refine h.hold hl hlock ht (by rw [hatt]) ?_ ?_
  · intro k hkp
    refine ⟨?_, _, rfl, rfl⟩
    rcases hk with hk | hk <;> rw [hk] at hkp <;> cases hkp
    rfl
  · rintro k ⟨⟩
    exact ⟨rfl, h0, (hl.node n).alloc (by omega), ht, hL, hatt⟩

/-- An inode is freed. -/
theorem free (hk : (g p).kid = some (.gone i n))
    (ho : (g p).own i = some k) (hkn : k.inum = n) (hT : (g p).tok = (i, n) ::ₘ T) (hd : (g p).dead = none)
    (hf : (g p).flux = none) :
    FsInv strict ((s.setIno n { s.ino n with type := .free, ents := [] }).setTab i
        { s.tab i with valid := false, lock := none })
      (update g p { (g p).unhold i with tok := T, kid := none, dead := some i }) := by
  obtain ⟨att, hl⟩ := h.links
  obtain ⟨-, -, -, hL1, -⟩ := (hl.part p).kid _ hk
  have hn : (s.tab i).inum = n := (h.refs.locks.own p i k ho).1.trans hkn
  have hsame : Same { (g p).unhold i with tok := T, kid := none, dead := some i }
      { (g p).unhold i with tok := T, dead := some i } := ⟨rfl, fun _ => rfl, rfl, rfl, rfl, rfl, rfl⟩
  have hinum : ∀ j, ((s.setTab i { s.tab i with valid := false, lock := none }).tab j).inum = (s.tab j).inum :=
    setTab_inum rfl
  have hL : ∀ m, liveIno ((s.setIno n { s.ino n with type := .free, ents := [] }).setTab i
      { s.tab i with valid := false, lock := none })
      (update g p { (g p).unhold i with tok := T, kid := none, dead := some i }) m +
      (if m = n then 1 else 0) = liveIno s g m := liveIno_drop hn hT rfl rfl rfl rfl hinum
  have hino : ∀ j, ((s.setIno n { s.ino n with type := .free, ents := [] }).setTab i
      { s.tab i with valid := false, lock := none }).inode j =
      if (s.tab j).inum = n then { s.ino n with type := .free, ents := [] } else s.inode j := by
    intro j
    show update s.ino n _ ((s.setTab i { s.tab i with valid := false, lock := none }).tab j).inum = _
    rw [hinum, update_apply]
    rfl
  refine ⟨?_, ⟨att, ?_⟩, h.quiet, ?_⟩
  · exact ((h.refs.free ho hT hd).relabel hsame).frame _ _ _
  · refine hl.ifree h.refs.ownUnique hk ho hkn hf rfl rfl hf rfl (fun m hm => ?_) ?_ fun m hm hc => ?_
    · have := hL m
      rw [if_neg hm] at this
      exact this
    · have := hL n
      rw [if_pos rfl, hL1] at this
      exact Nat.succ.inj this
    · refine hc.mono fun j h1 h2 h3 => ?_
      have hj : j ≠ i := by
        rintro rfl
        exact hm (h1.symm.trans hn)
      rw [setTab_of_ne _ hj]
      exact ⟨h1, h2, h3⟩
  · intro hst q j hdj
    rw [hino]
    split
    · rfl
    · next hne =>
      by_cases hq : q = p
      · subst hq
        rw [update_self] at hdj
        cases hdj
        exact absurd hn hne
      · rw [update_of_ne hq] at hdj
        exact h.dead hst q j hdj

/-- The entry of an inode that has been freed is dropped. -/
theorem dropDead (hd : (g p).dead = some i) : FsInv strict (s.decRef i) (update g p { g p with dead := none }) := by
  obtain ⟨att, hl⟩ := h.links
  have hL : ∀ m, liveIno (s.decRef i) (update g p { g p with dead := none }) m = liveIno s g m :=
    liveIno_same (fun _ _ => by rfl) decRef_inum fun _ => by rfl
  refine ⟨h.refs.dropDead hd, ⟨att, ?_⟩, h.quiet, h.keepDead (fun j _ hf => ?_) (.inr rfl)⟩
  · refine LinkInv.uncache (hl.congr (by rfl) (by rfl) (by rfl) (by rfl) (.inr fun _ ht => ht) hL
      fun _ => id) fun hst m hm hc => ?_
    refine hc.mono fun j h1 h2 h3 => ?_
    have hj : j ≠ i := by
      rintro rfl
      have := h.dead hst p j hd
      rw [FsState.inode, h1] at this
      exact hm this
    rw [FsState.decRef, setTab_of_ne _ hj]
    exact ⟨h1, h2, h3⟩
  · rw [FsState.inode, decRef_inum]
    exact hf

end

/-! ### Files and processes -/

variable (h : FsInv strict s g)
include h

/-- The reference becomes that of an open file. -/
theorem fopen (hu : (g p).up = true) (hT : (g p).tok = (i, n) ::ₘ T) (hk : (g p).kid = none) (hf : (s.file f).ref = 0)
    (hfd : s.ofile p fd = none) :
    FsInv strict ((s.setFile f ⟨1, some i⟩).setOfile p fd (some f))
      (update g p { g p with tok := T, closed := [] }) := by
  have hip : (s.file f).ip = none := h.refs.files.ip f hf
  refine h.move (h.refs.fopen hu hT hf hfd) rfl rfl ?_ rfl rfl rfl rfl rfl rfl (.inl hk)
  exact liveIno_same (fun _ _ => by rfl) (fun _ => by rfl) (fopen_weight hT hip)

/-- The descriptors of the process change, but no reference. -/
theorem keep (hr : RefInv s' (update g p x)) (hino : s'.ino = s.ino)
    (hpan : s'.panicked = s.panicked) (hcwd : ∀ q, q ≠ p → s'.cwd q = s.cwd q) (htab : s'.tab = s.tab)
    (hw : ∀ j, weight s' x p j + files s' j = weight s (g p) p j + files s j) (hown : x.own = (g p).own)
    (hpend : x.pend = (g p).pend) (hflux : x.flux = (g p).flux) (hkid : x.kid = (g p).kid) (hdead : x.dead = (g p).dead)
    (htok : (g p).kid = none ∨ ∀ t ∈ (g p).tok, t ∈ x.tok) : FsInv strict s' (update g p x) :=
  h.move hr hino hpan (liveIno_same hcwd (fun j => by rw [htab]) hw) htab hown hpend hflux hkid hdead htok

omit h in
/-- A file that is closed but has other descriptors still has its inode. -/
theorem files_setRef (y : Nat) (j : Fin NINODE) : files (s.setFile f { s.file f with ref := y }) j = files s j :=
  Nat.add_right_cancel (files_setFile f { s.file f with ref := y } j)

theorem fcloseMore (hu : (g p).up = true)
    (hown : ∀ j, (g p).own j = none) (hfd : s.ofile p fd = some f) (hf : 1 < (s.file f).ref) :
    FsInv strict ((s.setFile f { s.file f with ref := (s.file f).ref - 1 }).setOfile p fd none)
      (update g p { g p with closed := fd :: (g p).closed }) := by
  refine h.keep (h.refs.fcloseMore hu hown hfd hf) rfl rfl (fun _ _ => rfl) rfl (fun j => ?_) rfl rfl rfl rfl rfl
    (.inr fun _ ht => ht)
  have h1 : files ((s.setFile f { s.file f with ref := (s.file f).ref - 1 }).setOfile p fd none) j =
      files (s.setFile f { s.file f with ref := (s.file f).ref - 1 }) j := rfl
  rw [h1, files_setRef]
  rfl

theorem fcloseLast (hu : (g p).up = true)
    (hown : ∀ j, (g p).own j = none) (hk : (g p).kid = none) (hfd : s.ofile p fd = some f) (hf : (s.file f).ref = 1)
    (hx : x = { g p with closed := fd :: (g p).closed, tok := match (s.file f).ip with
      | none => (g p).tok
      | some i => (i, (s.tab i).inum) ::ₘ (g p).tok }) :
    FsInv strict ((s.setFile f ⟨0, none⟩).setOfile p fd none) (update g p x) := by
  refine h.keep (h.refs.fcloseLast hu hown hfd hf hx) rfl rfl (fun _ _ => rfl) rfl (fcloseLast_weight hx) ?_ ?_ ?_ ?_ ?_
    (.inl hk) <;> rw [hx]

theorem filedup {np : P} {l : List (Fin NOFILE)} (hc : (g p).child = some (np, fd :: l)) :
    FsInv strict ((s.setFile f { s.file f with ref := (s.file f).ref + 1 }).setOfile np fd (some f))
      (update g p { g p with child := some (np, l) }) := by
  refine h.keep (h.refs.filedup hc) rfl rfl (fun _ _ => rfl) rfl (fun j => ?_) rfl rfl rfl rfl rfl (.inr fun _ ht => ht)
  have h1 : files ((s.setFile f { s.file f with ref := (s.file f).ref + 1 }).setOfile np fd (some f)) j =
      files (s.setFile f { s.file f with ref := (s.file f).ref + 1 }) j := rfl
  rw [h1, files_setRef]
  rfl

/-- **The child shares the parent's current directory.** -/
theorem forkCwd {np : P} {l : List (Fin NOFILE)} (hch : (g p).child = some (np, l))
    (hc : s.cwd p = some i) (ht : (g p).taken = false) (hk : (g p).kid = none) :
    FsInv strict (((s.incRef i).setCwd np (some i)).setProc np .runnable) (update g p { g p with child := none }) := by
  have hw := weight_cwd_pos ht hc
  obtain ⟨att, hl⟩ := h.links
  obtain ⟨hL, halloc⟩ := hl.alloc_of_weight h.refs hw
  have hinum : ∀ j, ((forked s np i).tab j).inum = (s.tab j).inum := incRef_inum
  have hL' : ∀ m, liveIno (forked s np i) (update g p { g p with child := none }) m =
      liveIno s g m + if m = (s.tab i).inum then 1 else 0 := by
    intro m
    have hlive := h.refs.forked_live hch hc
    generalize update g p { g p with child := none } = g' at hlive ⊢
    have h1 : liveIno (forked s np i) g' m + (if (s.tab i).inum = m then live s g i else 0) =
        liveIno s g m + if ((forked s np i).tab i).inum = m then live (forked s np i) g' i else 0 :=
      liveIno_change i (fun j hj => (hlive j).trans (by rw [if_neg (Ne.symm hj), Nat.add_zero])) (fun j _ => hinum j) m
    rw [hlive, if_pos rfl, hinum] at h1
    simp only [eq_comm (a := m)]
    by_cases hm : (s.tab i).inum = m
    · rw [if_pos hm, if_pos hm] at h1
      rw [if_pos hm]
      omega
    · rw [if_neg hm, if_neg hm] at h1
      rw [if_neg hm]
      exact h1
  refine ⟨h.refs.forkCwd hch hc ht, ⟨att, ?_⟩, h.quiet, h.keepDead (fun j _ hf => ?_) (.inl rfl)⟩
  · refine hl.more rfl rfl rfl rfl (fun _ ht => ht) halloc ?_ (.inl hL) hL' fun m hc => hc.mono fun j h1 h2 h3 => ?_
    · rintro q ⟨k, hkq, he⟩
      by_cases hq : q = p
      · subst hq
        rw [hk] at hkq
        cases hkq
      · exact hl.kid_ne_of_weight h.refs hw hq hkq he
    · show ((s.incRef i).tab j).inum = m ∧ 0 < ((s.incRef i).tab j).ref ∧ ((s.incRef i).tab j).valid = true
      by_cases hj : j = i
      · subst hj
        rw [FsState.incRef, setTab_self]
        exact ⟨h1, Nat.succ_pos _, h3⟩
      · rw [FsState.incRef, setTab_of_ne _ hj]
        exact ⟨h1, h2, h3⟩
  · show (s.ino ((forked s np i).tab j).inum).type = .free
    rw [hinum]
    exact hf

theorem exit (hx : g p = { Ghost.empty with taken := true, closed := (g p).closed, up := (g p).up })
    (hcl : ∀ fd, fd ∈ (g p).closed) :
    FsInv strict ((s.setCwd p none).setProc p .unused) (update g p Ghost.empty) := by
  refine h.keep (h.refs.exit hx hcl) rfl rfl (fun q hq => ?_) rfl (fun j => ?_) ?_ ?_ ?_ ?_ ?_ (.inl ?_)
  · simp [FsState.setProc, FsState.setCwd, hq]
  · have h1 : weight ((s.setCwd p none).setProc p .unused) Ghost.empty p j = weight s (g p) p j := by
      rw [hx]
      simp [weight, Ghost.empty, FsState.setProc, FsState.setCwd]
    rw [h1]
    rfl
  · rw [hx]
  · rw [hx]
  · rw [hx]
  · rw [hx]
  · rw [hx]
  · rw [hx]
    rfl

end FsInv

end Xv6.Fs
