import Xv6.Fs.Sound

/-!
# The logic of the file system

`Rule.sound`: a step that is made by a rule, under the condition `FsCond`, keeps the invariant, and the process has
afterwards what the rule says. `fsLogic` is the logic that the rules make.
-/

namespace Xv6.Fs

open Lib (Prog Machine Logic)

variable {P : Type} [DecidableEq P] [Fintype P] {strict : Bool} {s s' : FsState P} {g : P → Ghost P} {p : P}

/-- After a step that returned `r`, the invariant holds and the process has what `Q` says. -/
def After (strict : Bool) (s' : FsState P) (g : P → Ghost P) (p : P) {α : Type} (r : α) (Q : α → Ghost P → Prop) : Prop :=
  ∃ x, FsInv strict s' (Function.update g p x) ∧ (s'.panicked.isSome = false → Q r x)

section

variable {α : Type} {r : α} {Q : α → Ghost P → Prop}

theorem After.of {x : Ghost P} (h : FsInv strict s' (Function.update g p x)) (hQ : Q r x) : After strict s' g p r Q :=
  ⟨x, h, fun _ => hQ⟩

theorem After.same (h : FsInv strict s g) (hQ : Q r (g p)) : After strict s g p r Q :=
  ⟨g p, by rwa [Function.update_eq_self], fun _ => hQ⟩

/-- After a panic nothing happens. -/
theorem After.panic (h : FsInv strict s g) {x : FsPanic} (hx : x ≠ .ilockNoType) : After strict (s.panic x) g p r Q := by
  refine ⟨g p, ?_, fun hh => by cases hh⟩
  rw [Function.update_eq_self]
  exact h.panic hx

end

/-! ## Steps on locked inodes -/

/-- A change to a locked inode. -/
theorem modify_eq {i : Fin NINODE} {k : Held} (hn : (s.tab i).inum = k.inum) (hi : s.inode i = k.ino) (f : Inode → Inode) :
    s.modify i f = s.setIno k.inum (f k.ino) := by
  rw [FsState.modify, hn, hi]

theorem short_eq {x : Int} (h1 : -2 ^ 15 ≤ x) (h2 : x < 2 ^ 15) : short x = x := by
  unfold short
  rw [Int.bmod_def]
  omega

/-- What `writei` of one entry does. -/
theorem writeDirent_cases {i : Fin NINODE} {k : Held} {off ch : Nat} {de : Dirent} {r : Bool}
    (hn : (s.tab i).inum = k.inum) (hi : s.inode i = k.ino)
    (hs : FsCmd.exec p (.writeDirent i off de) ch s = some (r, s')) :
    (r = true ∧ off ≤ k.ino.ents.length ∧ s' = s.setIno k.inum { k.ino with ents := putEntry k.ino.ents off de }) ∨
      (r = false ∧ ¬off < k.ino.ents.length ∧ s' = s) := by
  simp only [FsCmd.exec, hi, modify_eq hn hi] at hs
  split at hs
  · next hlt =>
    cases hs
    refine .inl ⟨rfl, Nat.le_of_lt hlt, ?_⟩
    rw [putEntry, if_pos hlt]
  · next hlt =>
    split at hs
    · next heq =>
      cases hs
      refine .inl ⟨rfl, Nat.le_of_eq heq.1, ?_⟩
      rw [putEntry, if_neg hlt]
    · cases hs
      exact .inr ⟨rfl, hlt, rfl⟩

/-- The entry that `dirlookup` has found. -/
theorem findEntry_some {ents : List Dirent} {name : Name} {off : Nat} (h : findEntry ents name = some off) :
    ∃ e, ents[off]? = some e ∧ e ∈ ents ∧ e.inum ≠ 0 ∧ namecmp name e.name = true := by
  obtain ⟨hlt, hp, -⟩ := List.findIdx?_eq_some_iff_getElem.mp h
  simp only [Bool.and_eq_true, bne_iff_ne, ne_eq] at hp
  exact ⟨ents[off], List.getElem?_eq_getElem hlt, List.getElem_mem hlt, hp.1, hp.2⟩

theorem FsInv.nlink_nonneg (h : FsInv strict s g) {i : Fin NINODE} {k : Held} (ho : (g p).own i = some k) :
    0 ≤ k.ino.nlink := by
  obtain ⟨att, hl⟩ := h.links
  have := (hl.node k.inum).nlink
  rw [((hl.part p).own i k ho).1] at this
  omega

/-! ## Steps that have several outcomes -/

section

variable {i : Fin NINODE} {n ch : Nat}

variable (h : FsInv strict s g)
include h

theorem after_iget {r : Fin NINODE} {Q : Fin NINODE → Ghost P → Prop} (hs : FsCmd.exec p (.iget n) ch s = some (r, s'))
    (hQ : ∀ i s₁, s.iget n = some (i, s₁) → After strict s₁ g p i Q) : After strict s' g p r Q := by
  simp only [FsCmd.exec] at hs
  split at hs
  · next hi =>
    cases hs
    exact hQ _ _ hi
  · cases hs
    exact .panic h nofun

/-- The root directory is allocated: it is its own parent. -/
theorem FsInv.root : (s.ino ROOTINO).type ≠ .free ∧ (∀ q, ¬IsKid (g q) ROOTINO) ∧ (s.ino ROOTINO).nlink ≠ 0 := by
  obtain ⟨att, hl⟩ := h.links
  have hup := hl.tree.up_pos hl.tree.root.1 hl.tree.root.2.1
  have hpos : 0 < real s.ino ROOTINO + up s.ino att ROOTINO := by omega
  obtain ⟨h1, h2⟩ := hl.alloc_of_linked hpos
  exact ⟨h1, hl.not_kid hpos, by omega⟩

theorem after_ilock {r : Unit} {Q : Unit → Ghost P → Prop} (ht : (i, n) ∈ (g p).tok)
    (hs : FsCmd.exec p (.ilock i) ch s = some (r, s'))
    (hQ : (s.tab i).lock = none → (s.inode i).type ≠ .free →
      After strict (s.setTab i { s.tab i with valid := true, lock := some p }) g p r Q) : After strict s' g p r Q := by
  obtain ⟨att, hl⟩ := h.links
  obtain ⟨-, halloc⟩ := hl.alloc_of_weight h.refs (weight_pos_of_tok ht)
  simp only [FsCmd.exec] at hs
  split at hs
  · cases hs
    exact .panic h nofun
  · split at hs
    · cases hs
    · next hlock =>
      split at hs
      · next hfree =>
        -- An inode to which the process has a reference has a type.
        simp only [Bool.and_eq_true, decide_eq_true_eq] at hfree
        exact absurd hfree.2 halloc
      · cases hs
        exact hQ (by simpa using hlock) halloc

theorem after_dirlookup {r : Option (Nat × Fin NINODE)} {Q : Option (Nat × Fin NINODE) → Ghost P → Prop} {name : Name}
    {k : Held} (ho : (g p).own i = some k) (hs : FsCmd.exec p (.dirlookup i name) ch s = some (r, s'))
    (hnone : k.ino.type = .dir → findEntry k.ino.ents name = none → Q none (g p))
    (hsome : ∀ off e j s₁, k.ino.type = .dir → findEntry k.ino.ents name = some off → k.ino.ents[off]? = some e →
      s.iget e.inum = some (j, s₁) → After strict s₁ g p (some (off, j)) Q) : After strict s' g p r Q := by
  obtain ⟨att, hl⟩ := h.links
  obtain ⟨-, hi, -⟩ := h.own_ino hl ho
  simp only [FsCmd.exec, hi] at hs
  split at hs
  · cases hs
    exact .panic h nofun
  · next hdir =>
    split at hs
    · next hf =>
      cases hs
      exact .same h (hnone (by simpa using hdir) hf)
    · next off hf =>
      obtain ⟨e, he, -, -, -⟩ := findEntry_some hf
      rw [List.getD_eq_getElem?_getD, he] at hs
      split at hs
      · next hj =>
        cases hs
        exact hsome off e _ _ (by simpa using hdir) hf he hj
      · cases hs
        exact .panic h nofun

/-- What an entry names when it is not the `..` of a removed directory. -/
theorem after_lookup {Q : Option (Nat × Fin NINODE) → Ghost P → Prop} {name : Name} {k : Held} {off : Nat} {e : Dirent}
    {j : Fin NINODE} (ho : (g p).own i = some k) (hk : (g p).kid = none)
    (hf : (g p).flux = none) (hp : (k.inum, false) ∉ (g p).pend) (hd : k.ino.type = .dir)
    (hfind : findEntry k.ino.ents name = some off) (he : k.ino.ents[off]? = some e) (hj : s.iget e.inum = some (j, s'))
    (ht : ∀ j k, (g p).own j = some k → (j, k.inum) ∈ (g p).tok) (hc : namecmp name dotdot = true → 0 < k.ino.nlink)
    (hQ : ((g p).own j = none ∨ (j, e.inum) ∈ (g p).tok) → Q (some (off, j)) ((g p).give j e.inum)) :
    After strict s' g p (some (off, j)) Q := by
  obtain ⟨att, hl⟩ := h.links
  obtain ⟨-, -, hL, -, -⟩ := h.own_ino hl ho
  obtain ⟨e', he', hmem, h0, hcmp⟩ := findEntry_some hfind
  rw [he] at he'
  cases he'
  obtain ⟨h1, h2, h3⟩ := hl.lookup h.refs.ownUnique ho hL hd hk hf hp hmem h0 fun hname => hc (hname ▸ hcmp)
  refine .of (h.give hj h1 h2 h3) (hQ ?_)
  rcases hown : (g p).own j with _ | k'
  · exact .inl rfl
  · -- The entry was in use, so it was found and not recycled.
    have hn : (s.tab j).inum = k'.inum := (h.refs.locks.own p j k' hown).1
    have href : 0 < (s.tab j).ref := Nat.lt_of_lt_of_le (h.refs.live_of_own hown) (h.refs.live_le j)
    right
    rcases FsState.iget_cases hj with ⟨-, he, -⟩ | ⟨h0, -⟩
    · rw [← he, hn]
      exact ht j k' hown
    · omega

theorem after_iputTest {r : Bool} {Q : Bool → Ghost P → Prop} {T : Multiset (Fin NINODE × Nat)}
    (hT : (g p).tok = (i, n) ::ₘ T) (ho : (g p).own i = none ∨ (i, n) ∈ T)
    (hk : (g p).kid = none ∨ (g p).kid = some (.gone i n)) (hs : FsCmd.exec p (.iputTest i) ch s = some (r, s'))
    (htrue : ∀ x, (g p).own i = none → Q true { (g p).hold i ⟨n, x, false⟩ with kid := some (.gone i n) })
    (hfalse : Q false { g p with tok := T, kid := none }) : After strict s' g p r Q := by
  simp only [FsCmd.exec] at hs
  split at hs
  · next htest =>
    split at hs
    · cases hs
    · next hlock =>
      cases hs
      have hlock' : (s.tab i).lock = none := by simpa using hlock
      exact .of (h.last hT hk hlock' htest.1 htest.2.1 htest.2.2) (htrue _ (h.own_none hlock' p))
  · next htest =>
    cases hs
    exact .of (h.drop hT ho hk htest) hfalse

theorem after_fopen {r : Option (Fin NOFILE)} {Q : Option (Fin NOFILE) → Ghost P → Prop}
    {T : Multiset (Fin NINODE × Nat)} (hu : (g p).up = true) (hT : (g p).tok = (i, n) ::ₘ T)
    (hk : (g p).kid = none) (hs : FsCmd.exec p (.fopen i) ch s = some (r, s')) (hnone : Q none (g p))
    (hsome : ∀ fd, Q (some fd) { g p with tok := T, closed := [] }) : After strict s' g p r Q := by
  simp only [FsCmd.exec] at hs
  split at hs
  · next f fd hf hfd =>
    split at hs
    · cases hs
      have hf' := List.find?_some hf
      have hfd' := List.find?_some hfd
      exact .of (h.fopen hu hT hk (by simpa using hf') (by simpa using hfd')) (hsome fd)
    · cases hs
      exact .same h hnone
  · cases hs
    exact .same h hnone

theorem after_fclose {r : Option (Fin NINODE)} {Q : Option (Fin NINODE) → Ghost P → Prop} {fd : Fin NOFILE} (hu : (g p).up = true) (ho : ∀ j, (g p).own j = none) (hk : (g p).kid = none)
    (hs : FsCmd.exec p (.fclose fd) ch s = some (r, s'))
    (hnone : Q none { g p with closed := fd :: (g p).closed })
    (hsome : ∀ i n, Q (some i) { (g p).give i n with closed := fd :: (g p).closed }) : After strict s' g p r Q := by
  simp only [FsCmd.exec] at hs
  split at hs
  · next hfd =>
    cases hs
    exact .of (h.keep (h.refs.closed hu hfd) rfl rfl (fun _ _ => rfl) rfl (fun _ => rfl) rfl rfl rfl rfl rfl
      (.inl hk)) hnone
  · next f hfd =>
    split at hs
    · cases hs
      exact .panic h nofun
    · split at hs
      · next hf =>
        cases hs
        exact .of (h.fcloseMore hu ho hfd hf) hnone
      · next h1 h2 =>
        have hlast := h.fcloseLast hu ho hk hfd (by omega) rfl
        cases hs
        cases hip : (s.file f).ip with
        | none =>
          rw [hip] at hlast
          exact .of hlast hnone
        | some i =>
          rw [hip] at hlast
          exact .of hlast (hsome i _)

end

/-! ## All steps -/

/-- **The rules are sound.** -/
theorem Rule.sound {c : FsCmd P} {Q : c.R → Ghost P → Prop} {ch : Nat} {r : c.R} (hr : Rule c (g p) Q)
    (h : FsInv strict s g) (hc : FsCond strict s p c) (hs : FsCmd.exec p c ch s = some (r, s')) :
    After strict s' g p r Q := by
  obtain ⟨att, hl⟩ := h.links
  cases hr with
  | igetRoot =>
    obtain ⟨h1, h2, h3⟩ := h.root
    exact after_iget h hs fun i s₁ hi => .of (h.give hi h1 h2 (.inr h3)) rfl
  | igetKid hk =>
    exact after_iget h hs fun i s₁ hi => .of (h.giveKid hi hk) rfl
  | idupCwd ht hk =>
    obtain ⟨i, hi, he⟩ := Option.map_eq_some_iff.mp hs
    cases he
    exact .of (h.idupCwd hi ht hk) ⟨_, rfl⟩
  | cwd ht hk =>
    obtain ⟨i, hi, he⟩ := Option.map_eq_some_iff.mp hs
    cases he
    exact .of (h.take hi ht hk) ⟨_, rfl⟩
  | setCwd ht hT ho hk =>
    cases hs
    exact .of (h.setCwd ht hT ho hk) rfl
  | @ilock _ i n ht hk =>
    refine after_ilock h ht hs fun hlock hfree => ?_
    have hn : (s.tab i).inum = n := h.refs.counts.tok p _ ht
    rw [FsState.inode, hn] at hfree
    refine .of (h.hold hl hlock ht rfl ?_ ?_) ⟨h.own_none hlock p, s.ino n, att n, hfree, rfl⟩
    · intro k hkp
      rw [hk] at hkp
      cases hkp
    · intro k hkp
      rw [hk] at hkp
      cases hkp
  | @ilockKid _ i n t hk =>
    obtain ⟨h1, h2, h3, h4, h5⟩ := (hl.part p).kid _ hk
    refine after_ilock h h3 hs fun hlock _ => .of (h.hold hl hlock h3 (by rw [h1, h5]) ?_ ?_) ⟨h.own_none hlock p, rfl⟩
    · intro k hkp
      rw [hk] at hkp
      cases hkp
      exact ⟨rfl, _, rfl, rfl⟩
    · rintro k ⟨⟩
      have hn := (hl.kid_nlink hk).1
      exact ⟨rfl, hn, by rw [h1]; exact h2, h3, h4, h5, _, Function.update_self _ _ _, rfl⟩
  | @iunlock _ i k ho hf hp hk =>
    simp only [FsCmd.exec] at hs
    split at hs
    · cases hs
      exact .panic h (by decide)
    · cases hs
      exact .of (h.unlock ho hf hp hk) rfl
  | read ho =>
    cases hs
    exact .same h ⟨(h.own_ino hl ho).2.1, rfl⟩
  | @inum _ i n ht =>
    cases hs
    have hn : (s.tab i).inum = n := h.refs.counts.tok p _ ht
    obtain ⟨-, halloc⟩ := hl.alloc_of_weight h.refs (weight_pos_of_tok ht)
    rw [hn] at halloc
    exact .same h ⟨hn, hl.tree.range n halloc, rfl⟩
  | dirlookupNone ho hf =>
    refine after_dirlookup h ho hs (fun _ _ => ⟨rfl, rfl⟩) fun off e j s₁ _ hf' => ?_
    rw [hf] at hf'
    cases hf'
  | dirlookup ho hk hf hp ht =>
    obtain ⟨-, hi, hL, -⟩ := h.own_ino hl ho
    refine after_dirlookup h ho hs (fun hd hfind => ⟨hd, hfind, ?_, rfl⟩) fun off e j s₁ hd hfind he hj => ?_
    · refine (hl.shape_of_own ho hL hd fun c hc => ?_).real_of_none hfind
      rw [hk] at hc
      cases hc
    · refine after_lookup h ho hk hf hp hd hfind he hj ht (fun hname => ?_) fun hown => ⟨hd, e, hfind, he, hown, rfl⟩
      rw [← hi]
      exact hc hname
  | addName ho hd hp hf hname hslot hk hdir =>
    obtain ⟨hn, hi, -⟩ := h.own_ino hl ho
    rcases writeDirent_cases hn hi hs with ⟨rfl, hoff, rfl⟩ | ⟨rfl, -, rfl⟩
    · refine .of (h.addName ho hd hp hf hname hoff hslot hk hdir fun hn0 => ?_) rfl
      rw [← hi]
      exact hc hn0
    · exact .same h rfl
  | addKid hk ho hd hf hde =>
    obtain ⟨hn, hi, -⟩ := h.own_ino hl ho
    rcases writeDirent_cases hn hi hs with ⟨rfl, hoff, rfl⟩ | ⟨rfl, -, rfl⟩
    · exact .of (h.addKid hk ho hd hf hde) rfl
    · exact .same h rfl
  | removeName ho hj hij he h0 hname hn hf hk =>
    obtain ⟨hn', hi, -⟩ := h.own_ino hl ho
    rcases writeDirent_cases hn' hi hs with ⟨rfl, -, rfl⟩ | ⟨rfl, hlt, rfl⟩
    · exact .of (h.removeName ho hj hij he h0 hname hn hf hk) ⟨rfl, rfl⟩
    · exact absurd (List.getElem?_eq_some_iff.mp he).1 hlt
  | @ialloc _ n t hn ht hk =>
    simp only [FsCmd.exec] at hs
    split at hs
    · next hfree =>
      cases hs
      exact .of ((h.ialloc hfree hn ht hk fun hst => hc hst hfree).setData n []) rfl
    · cases hs
      exact .same h rfl
  | setLink hk ho h0 hf =>
    obtain ⟨hn, hi, -⟩ := h.own_ino hl ho
    simp only [FsCmd.exec, modify_eq hn hi] at hs
    cases hs
    exact .of (h.setLink hk ho h0 hf) rfl
  | @incLink _ i k ho hd hf hk =>
    obtain ⟨hn, hi, -⟩ := h.own_ino hl ho
    have hlt : k.ino.nlink < 2 ^ 15 - 1 := hi ▸ hc
    have hpos := h.nlink_nonneg ho
    simp only [FsCmd.exec, modify_eq hn hi] at hs
    rw [short_eq (by omega) (by omega)] at hs
    cases hs
    exact .of (h.incLink ho hd hf hk hlt) rfl
  | @attach _ i j k kn ho hj hij hf hpar hk =>
    obtain ⟨hn, hi, -⟩ := h.own_ino hl ho
    have hlt : k.ino.nlink < 2 ^ 15 - 1 := hi ▸ hc
    have hpos := h.nlink_nonneg ho
    simp only [FsCmd.exec, modify_eq hn hi] at hs
    rw [short_eq (by omega) (by omega)] at hs
    cases hs
    exact .of (h.attach ho hj hij hf hpar hk hlt) rfl
  | decLink ho hp hf hk =>
    obtain ⟨hn, hi, -⟩ := h.own_ino hl ho
    obtain ⟨h1, h2, h3⟩ := h.decLink ho hp hf hk
    simp only [FsCmd.exec, modify_eq hn hi] at hs
    rw [short_eq (by omega) (by omega)] at hs
    cases hs
    exact .of h3 rfl
  | detach ho hj hij hf hk he hown =>
    obtain ⟨hn, hi, -⟩ := h.own_ino hl ho
    obtain ⟨h1, h2, h3⟩ := h.detach ho hj hij hf hk he hown
    simp only [FsCmd.exec, modify_eq hn hi] at hs
    rw [short_eq (by omega) (by omega)] at hs
    cases hs
    exact .of h3 rfl
  | zeroLink hk ho hp hf =>
    obtain ⟨hn, hi, -⟩ := h.own_ino hl ho
    simp only [FsCmd.exec, modify_eq hn hi] at hs
    cases hs
    exact .of (h.zeroLink hk ho hp hf) rfl
  | @itrunc _ i =>
    cases hs
    exact .same (h.setData (s.tab i).inum []) rfl
  | iputTest hT ho hd hk =>
    exact after_iputTest h hT ho hk hs (fun _ ho => ⟨ho, _, rfl⟩) rfl
  | @ifree _ i n k T hk ho hn hT hd hf =>
    obtain ⟨hn', -⟩ := h.own_ino hl ho
    have hin : (s.tab i).inum = n := hn'.trans hn
    have hm : s.modify i (fun r => { r with type := .free, ents := [] }) =
        s.setIno n { s.ino n with type := .free, ents := [] } := by rw [FsState.modify, FsState.inode, hin]
    simp only [FsCmd.exec, hm] at hs
    cases hs
    exact .of ((h.free hk ho hn hT hd hf).setData (s.tab i).inum []) rfl
  | iputDrop hd =>
    cases hs
    exact .of (h.dropDead hd) rfl
  | fopen hu hT hk =>
    exact after_fopen h hu hT hk hs rfl fun _ => rfl
  | fclose hu ho hk =>
    exact after_fclose h hu ho hk hs rfl fun _ n => ⟨n, rfl⟩
  | allocproc =>
    simp only [FsCmd.exec] at hs
    split at hs
    · next hnp =>
      cases hs
      exact .of (h.keep (h.refs.allocproc hnp) rfl rfl (fun _ _ => rfl) rfl (fun _ => rfl) rfl rfl rfl rfl rfl
        (.inr fun _ ht => ht)) rfl
    · cases hs
      exact .same h rfl
  | filedup hch =>
    simp only [FsCmd.exec] at hs
    split at hs
    · cases hs
      exact .of (h.keep (h.refs.filedupNone hch) rfl rfl (fun _ _ => rfl) rfl (fun _ => rfl) rfl rfl rfl rfl rfl
        (.inr fun _ ht => ht)) rfl
    · split at hs
      · cases hs
        exact .panic h (by decide)
      · cases hs
        exact .of (h.filedup hch) rfl
  | forkCwd hch ht hk =>
    obtain ⟨i, hi, he⟩ := Option.map_eq_some_iff.mp hs
    cases he
    exact .of (h.forkCwd hch hi ht hk) rfl
  | exit hg hcl =>
    cases hs
    exact .of (h.exit hg hcl) rfl
  | panic hx' =>
    cases hs
    exact .panic h hx'

/-- **The logic of the file system.** -/
def fsLogic (P : Type) [DecidableEq P] [Fintype P] (strict : Bool) : Logic (fsMachine P) (FsCond strict) (Ghost P) where
  inv := FsInv strict
  idle x := x = { Ghost.empty with closed := x.closed, up := x.up }
  pre _ c x Q := ∃ Q₀, Rule c x Q₀ ∧ ∀ r x', Q₀ r x' → Q r x'
  mono := by
    rintro p c x Q Q' hQ ⟨Q₀, hr, h⟩
    exact ⟨Q₀, hr, fun r x' h₀ => hQ r x' (h r x' h₀)⟩
  sound := by
    rintro s g p c Q ch r s' h ⟨Q₀, hr, hQ⟩ - hc hs
    obtain ⟨x, hx, hq⟩ := hr.sound h hc hs
    exact ⟨x, hx, fun hh => hQ r x (hq hh)⟩

/-- The weakest precondition of a program, for process `p`. -/
abbrev wp (strict : Bool) (p : P) {α : Type} (f : FsProg P α) (x : Ghost P) (Q : α → Ghost P → Prop) : Prop :=
  (fsLogic P strict).wp p f x Q

/-- A step by a rule. -/
theorem wp_step {α : Type} {c : FsCmd P} {k : c.R → FsProg P α} {x : Ghost P} {Q : α → Ghost P → Prop}
    {Q₀ : c.R → Ghost P → Prop} (hr : Rule c x Q₀) (h : ∀ r x', Q₀ r x' → wp strict p (k r) x' Q) :
    wp strict p (FsProg.step c >>= k) x Q := ⟨Q₀, hr, h⟩

end Xv6.Fs
