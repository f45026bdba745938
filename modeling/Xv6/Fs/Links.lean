import Xv6.Fs.Tree

/-!
# Link counts

`LinkInv` says that the link count of every inode is the number of its names, of the directories attached to it, and of
the links that processes have still to make or to undo. It is about inodes (`Node`) and about what processes have
(`Part`); how many references an inode has (`L`) and whether its copy in the inode table is valid (`V`) come from
`RefInv`.

Under `strict` no allocated inode without links is without a reference. This fails when `ialloc` takes the number of an
inode that another process has just freed, and is about to drop.

`LinkInv.step` is the rule for all changes: a process changes only inodes that no other process has locked or is about
to create, and only these have to be looked at.
-/

namespace Xv6.Fs

open Lib (sum_change)
open Function (update update_of_ne update_self)

variable {P : Type} [DecidableEq P] [Fintype P]
variable {i : Fin NINODE} {y : Ghost P} {k : Held}

/-- The links of a process to an inode. -/
def pendAt (x : Ghost P) (n : Nat) : Nat := x.pend.countP fun t => t.1 = n

/-- The links that processes have still to make, or to undo. -/
def pending (g : P → Ghost P) (n : Nat) : Nat := ∑ p, pendAt (g p) n

/-- A directory whose name and whose attachment to its parent differ. -/
def Flux (g : P → Ghost P) (n : Nat) (b : Bool) : Prop := ∃ p, (g p).flux = some (n, b)

/-- The inode can be reached by this process only. -/
def IsKid (x : Ghost P) (n : Nat) : Prop := ∃ k, x.kid = some k ∧ k.inum = n

/-- The inode has just been allocated, and has not been read from disk. -/
def Kid.early : Kid → Bool
  | .fresh _ _ => true
  | .born _ _ _ => true
  | _ => false

def IsEarly (x : Ghost P) (n : Nat) : Prop := ∃ k, x.kid = some k ∧ k.inum = n ∧ k.early = true

/-- The link count of an inode is right. -/
structure Node (strict : Bool) (ino : Nat → Inode) (g : P → Ghost P) (att : Nat → Bool) (L : Nat → Nat)
    (V : Nat → Prop) (n : Nat) : Prop where
  free : (ino n).type = .free → (ino n).nlink = 0
  alloc : 0 < L n → (ino n).type ≠ .free
  nlink : (ino n).nlink = ((real ino n + up ino att n + pending g n : Nat) : Int)
  small : (ino n).nlink < 2 ^ 15
  shape : (ino n).type = .dir → Shape n (ino n).ents ∨ (∃ p, IsKid (g p) n) ∨ (ino n).nlink = 0 ∧ L n = 0
  orphan : strict = true → (ino n).type ≠ .free → (ino n).nlink = 0 → 0 < L n ∧ V n ∨ ∃ p, IsEarly (g p) n

/-- A directory between its name and its attachment, with its parent locked too. -/
structure FluxOk (ino : Nat → Inode) (att : Nat → Bool) (x : Ghost P) (n : Nat) (b : Bool) : Prop where
  dir : (ino n).type = .dir
  own : ∃ i h, x.own i = some h ∧ h.inum = n
  parent : ∃ i h, x.own i = some h ∧ parentOf (ino n) = some h.inum ∧ h.inum ≠ n ∧
    (b = true → 0 < nameCount (ino h.inum).ents n)
  att : att n = !b
  real : real ino n = if b then 1 else 0

/-- An inode that only this process can reach. -/
def KidOk (ino : Nat → Inode) (att : Nat → Bool) (L : Nat → Nat) (x : Ghost P) : Kid → Prop
  | .fresh n t => ino n = ⟨t, 0, 0, []⟩ ∧ t ≠ .free ∧ L n = 0 ∧ att n = false
  | .born i n t => ino n = ⟨t, 0, 0, []⟩ ∧ t ≠ .free ∧ (i, n) ∈ x.tok ∧ L n = 1 ∧ att n = false
  | .held i n => (ino n).nlink = pendAt x n ∧ (ino n).type ≠ .free ∧ (i, n) ∈ x.tok ∧ L n = 1 ∧ att n = false ∧
    ∃ h, x.own i = some h ∧ h.inum = n
  | .gone i n => (ino n).nlink = 0 ∧ (ino n).type ≠ .free ∧ (i, n) ∈ x.tok ∧ L n = 1 ∧ att n = false

/-- What a process has is right. -/
structure Part (ino : Nat → Inode) (att : Nat → Bool) (L : Nat → Nat) (x : Ghost P) : Prop where
  own : ∀ i h, x.own i = some h → ino h.inum = h.ino ∧ att h.inum = h.att
  pend : ∀ n, (n, true) ∈ x.pend → (ino n).type ≠ .dir
  pendOwn : ∀ n, (n, false) ∈ x.pend → ∃ i h, x.own i = some h ∧ h.inum = n
  flux : ∀ n b, x.flux = some (n, b) → FluxOk ino att x n b
  kid : ∀ k, x.kid = some k → KidOk ino att L x k

/-- **The link counts are exact.** -/
structure LinkInv (strict : Bool) (ino : Nat → Inode) (g : P → Ghost P) (att : Nat → Bool) (L : Nat → Nat)
    (V : Nat → Prop) : Prop where
  tree : TreeInv ino att (Flux g)
  node : ∀ n, Node strict ino g att L V n
  part : ∀ p, Part ino att L (g p)
  kidOwn : ∀ p q k i h, (g p).kid = some k → q ≠ p → (g q).own i = some h → h.inum ≠ k.inum
  kidOne : ∀ p q k k', (g p).kid = some k → (g q).kid = some k' → k.inum = k'.inum → p = q

/-- Locked inodes are different ones. -/
def OwnUnique (g : P → Ghost P) : Prop :=
  ∀ p i h q j h', (g p).own i = some h → (g q).own j = some h' → h.inum = h'.inum → p = q ∧ i = j

theorem RefInv.ownUnique {s : FsState P} {g : P → Ghost P} (hr : RefInv s g) : OwnUnique g :=
  fun _ _ _ _ _ _ ho ho' he => hr.own_unique ho ho' he

section

variable {strict : Bool} {ino ino' : Nat → Inode} {g : P → Ghost P} {att att' : Nat → Bool} {L L' : Nat → Nat}
  {V V' : Nat → Prop} {p : P} {x : Ghost P} {n : Nat}

theorem pending_update (n : Nat) : pending (update g p x) n + pendAt (g p) n = pending g n + pendAt x n := by
  have h := sum_change Finset.univ (fun q => pendAt (g q) n) (fun q => pendAt (update g p x q) n) p
    (Finset.mem_univ p) fun q hq => by simp only [update_of_ne hq]
  rw [update_self] at h
  exact h

theorem pendAt_le_pending (p : P) (n : Nat) : pendAt (g p) n ≤ pending g n :=
  Finset.single_le_sum (f := fun q => pendAt (g q) n) (fun _ _ => Nat.zero_le _) (Finset.mem_univ p)

theorem exists_of_pending_pos (h : 0 < pending g n) : ∃ q b, (n, b) ∈ (g q).pend := by
  obtain ⟨q, -, hq⟩ := Finset.exists_ne_zero_of_sum_ne_zero (Nat.ne_of_gt h)
  obtain ⟨⟨m, b⟩, hm, he⟩ := Multiset.countP_pos.mp (Nat.pos_of_ne_zero hq)
  cases he
  exact ⟨q, b, hm⟩

namespace LinkInv

variable (h : LinkInv strict ino g att L V)
include h

/-- All links to a new inode are those that its process has still to make. -/
theorem kid_nlink {k : Kid} (hk : (g p).kid = some k) :
    (ino k.inum).nlink = pendAt (g p) k.inum ∧ (ino k.inum).type ≠ .free ∧ att k.inum = false := by
  have hok := (h.part p).kid k hk
  have hn := (h.node k.inum).nlink
  have hle := pendAt_le_pending (g := g) p k.inum
  cases k with
  | fresh n t =>
    obtain ⟨h1, h2, -, h4⟩ := hok
    simp only [Kid.inum] at hn hle ⊢
    rw [h1] at hn ⊢
    exact ⟨by simp only at hn ⊢; omega, h2, h4⟩
  | born i n t =>
    obtain ⟨h1, h2, -, -, h4⟩ := hok
    simp only [Kid.inum] at hn hle ⊢
    rw [h1] at hn ⊢
    exact ⟨by simp only at hn ⊢; omega, h2, h4⟩
  | held i n =>
    obtain ⟨h1, h2, -, -, h4, -⟩ := hok
    exact ⟨h1, h2, h4⟩
  | gone i n =>
    obtain ⟨h1, h2, -, -, h4⟩ := hok
    simp only [Kid.inum] at hn hle ⊢
    exact ⟨by omega, h2, h4⟩

/-- A new inode has no name, and nothing is attached to it. -/
theorem kid_real {k : Kid} (hk : (g p).kid = some k) :
    real ino k.inum = 0 ∧ up ino att k.inum = 0 ∧ pending g k.inum = pendAt (g p) k.inum := by
  have h1 := (h.kid_nlink hk).1
  have h2 := (h.node k.inum).nlink
  have h3 := pendAt_le_pending (g := g) p k.inum
  omega

/-- An inode that has a name, or to which something is attached, is not new. -/
theorem not_kid (hn : 0 < real ino n + up ino att n) (q : P) : ¬IsKid (g q) n := by
  rintro ⟨k, hk, rfl⟩
  obtain ⟨h1, h2, -⟩ := h.kid_real hk
  omega

theorem alloc_of_linked (hn : 0 < real ino n + up ino att n) : (ino n).type ≠ .free ∧ 0 < (ino n).nlink := by
  have h2 := (h.node n).nlink
  have h3 : 0 < (ino n).nlink := by omega
  refine ⟨fun hf => ?_, h3⟩
  have := (h.node n).free hf
  omega

end LinkInv

/-- What a process has is still right when the inodes it has locked are the same. -/
theorem Part.frame (hp : Part ino att L x) (hown : y.own = x.own) (hpend : y.pend = x.pend)
    (hflux : y.flux = x.flux) (hino : ∀ i k, x.own i = some k → ino' k.inum = ino k.inum ∧ att' k.inum = att k.inum)
    (hreal : ∀ m b, x.flux = some (m, b) → real ino' m = real ino m)
    (htype : ∀ m, (m, true) ∈ x.pend → (ino m).type ≠ .dir → (ino' m).type ≠ .dir)
    (hkid : ∀ k, y.kid = some k → KidOk ino' att' L' y k) : Part ino' att' L' y := by
  refine ⟨?_, ?_, ?_, ?_, hkid⟩
  · rw [hown]
    intro i k ho
    obtain ⟨h1, h2⟩ := hino i k ho
    rw [h1, h2]
    exact hp.own i k ho
  · rw [hpend]
    exact fun m hm => htype m hm (hp.pend m hm)
  · rw [hpend, hown]
    exact hp.pendOwn
  · rw [hflux]
    intro m b hf
    obtain ⟨h1, ⟨i, k, ho, rfl⟩, ⟨j, k', ho', h2, h3, h4⟩, h5, h6⟩ := hp.flux m b hf
    obtain ⟨hi, ha⟩ := hino i k ho
    obtain ⟨hi', -⟩ := hino j k' ho'
    refine ⟨?_, ⟨i, k, by rw [hown]; exact ho, rfl⟩, ⟨j, k', by rw [hown]; exact ho', ?_, h3, ?_⟩, ?_, ?_⟩
    · rw [hi]
      exact h1
    · rw [hi]
      exact h2
    · rw [hi']
      exact h4
    · rw [ha]
      exact h5
    · rw [hreal _ b hf]
      exact h6

/-- Process `p`, whose ghost value becomes `x`, changes only the inodes `M`, which no other process has locked or is
about to create, and the references or the names of the inodes `N`, which no other process is about to create. -/
structure Local (g : P → Ghost P) (ino ino' : Nat → Inode) (att att' : Nat → Bool) (L L' : Nat → Nat) (V V' : Nat → Prop)
    (p : P) (x : Ghost P) (M N : Nat → Prop) : Prop where
  sameIno : ∀ m, ¬M m → ino' m = ino m
  sameAtt : ∀ m, ¬M m → att' m = att m
  sameReal : ∀ m, ¬M m → ¬N m → real ino' m = real ino m
  sameUp : ∀ m, ¬M m → ¬N m → up ino' att' m = up ino att m
  samePend : ∀ m, ¬M m → ¬N m → pendAt x m = pendAt (g p) m
  sameRefs : ∀ m, ¬N m → L' m = L m
  valid : ∀ m, ¬N m → V m → V' m
  own : ∀ q, q ≠ p → ∀ i h, (g q).own i = some h → ¬M h.inum
  flux : ∀ q, q ≠ p → ∀ m b, (g q).flux = some (m, b) → real ino' m = real ino m
  kid : ∀ q, q ≠ p → ∀ k, (g q).kid = some k → ¬M k.inum ∧ ¬N k.inum
  kidSelf : ∀ k, (g p).kid = some k → ¬M k.inum → ¬N k.inum → x.kid = some k
  type : ∀ q, q ≠ p → ∀ m, (m, true) ∈ (g q).pend → (ino m).type ≠ .dir → (ino' m).type ≠ .dir

namespace Local

variable {M N : Nat → Prop}

/-- No inode changes. -/
theorem same (hpend : x.pend = (g p).pend) (hL : ∀ m, ¬N m → L' m = L m) (hV : ∀ m, ¬N m → V m → V' m)
    (hq : ∀ q, q ≠ p → ∀ k, (g q).kid = some k → ¬N k.inum)
    (hself : ∀ k, (g p).kid = some k → ¬N k.inum → x.kid = some k) :
    Local g ino ino att att L L' V V' p x (fun _ => False) N :=
  ⟨fun _ _ => rfl, fun _ _ => rfl, fun _ _ _ => rfl, fun _ _ _ => rfl, fun _ _ _ => by rw [pendAt, pendAt, hpend], hL, hV,
    fun _ _ _ _ _ => id, fun _ _ _ _ _ => rfl, fun q hqp k hk => ⟨id, hq q hqp k hk⟩, fun k hk _ => hself k hk,
    fun _ _ _ _ => id⟩

theorem node (hl : Local g ino ino' att att' L L' V V' p x M N) {m : Nat} (hm : ¬M m) (hn : ¬N m)
    (h : Node strict ino g att L V m) : Node strict ino' (update g p x) att' L' V' m := by
  have hpend : pending (update g p x) m = pending g m := by
    have h1 := pending_update (g := g) (p := p) (x := x) m
    have h2 := hl.samePend m hm hn
    omega
  have hkid : ∀ q k, (g q).kid = some k → k.inum = m → (update g p x q).kid = some k := by
    rintro q k hk rfl
    by_cases hq : q = p
    · subst hq
      rw [update_self]
      exact hl.kidSelf k hk hm hn
    · rwa [update_of_ne hq]
  constructor
  · rw [hl.sameIno m hm]
    exact h.free
  · rw [hl.sameIno m hm, hl.sameRefs m hn]
    exact h.alloc
  · rw [hl.sameIno m hm, hl.sameReal m hm hn, hl.sameUp m hm hn, hpend]
    exact h.nlink
  · rw [hl.sameIno m hm]
    exact h.small
  · rw [hl.sameIno m hm, hl.sameRefs m hn]
    intro ht
    refine (h.shape ht).imp_right (Or.imp_left ?_)
    rintro ⟨q, k, hk, he⟩
    exact ⟨q, k, hkid q k hk he, he⟩
  · rw [hl.sameIno m hm, hl.sameRefs m hn]
    intro hst ht hn0
    refine (h.orphan hst ht hn0).imp (fun hv => ⟨hv.1, hl.valid m hn hv.2⟩) ?_
    rintro ⟨q, k, hk, he, hearly⟩
    exact ⟨q, k, hkid q k hk he, he, hearly⟩

theorem part (hl : Local g ino ino' att att' L L' V V' p x M N) {q : P} (hq : q ≠ p) (h : Part ino att L (g q)) :
    Part ino' att' L' (g q) := by
  refine h.frame rfl rfl rfl (fun i k ho => ?_) (hl.flux q hq) (hl.type q hq) ?_
  · have hm := hl.own q hq i k ho
    exact ⟨hl.sameIno _ hm, hl.sameAtt _ hm⟩
  · intro k hk
    obtain ⟨hm, hn⟩ := hl.kid q hq k hk
    have hok := h.kid k hk
    cases k <;> simp only [Kid.inum] at hm hn <;>
      simp only [KidOk, hl.sameIno _ hm, hl.sameAtt _ hm, hl.sameRefs _ hn] at hok ⊢ <;> exact hok

end Local

theorem KidOk.mono {k : Kid} (hk : KidOk ino att L x k) (hL : L' k.inum = L k.inum)
    (htok : ∀ t ∈ x.tok, t ∈ y.tok) (hown : ∀ i h, x.own i = some h → y.own i = some h) (hpend : y.pend = x.pend) :
    KidOk ino att L' y k := by
  cases k with
  | fresh n t =>
    obtain ⟨h1, h2, h3, h4⟩ := hk
    exact ⟨h1, h2, hL.trans h3, h4⟩
  | born i n t | gone i n =>
    obtain ⟨h1, h2, h3, h4, h5⟩ := hk
    exact ⟨h1, h2, htok _ h3, hL.trans h4, h5⟩
  | held i n =>
    obtain ⟨h1, h2, h3, h4, h5, k, h6, h7⟩ := hk
    refine ⟨?_, h2, htok _ h3, hL.trans h4, h5, k, hown i k h6, h7⟩
    rw [pendAt, hpend]
    exact h1

/-- What a process has is still right with more references and locks. -/
theorem Part.mono (hp : Part ino att L x) (htok : ∀ t ∈ x.tok, t ∈ y.tok)
    (hown : ∀ i h, x.own i = some h → y.own i = some h) (hpend : y.pend = x.pend) (hflux : y.flux = x.flux)
    (hnew : ∀ i h, y.own i = some h → x.own i = some h ∨ ino h.inum = h.ino ∧ att h.inum = h.att)
    (hkid : ∀ k, y.kid = some k → x.kid = some k ∧ L' k.inum = L k.inum ∨ KidOk ino att L' y k) :
    Part ino att L' y := by
  constructor
  · intro i k hk
    exact (hnew i k hk).elim (hp.own i k) id
  · rw [hpend]
    exact hp.pend
  · rw [hpend]
    intro m hm
    obtain ⟨i, k, ho, he⟩ := hp.pendOwn m hm
    exact ⟨i, k, hown i k ho, he⟩
  · rw [hflux]
    intro m b hm
    obtain ⟨h1, ⟨i, k, ho, he⟩, ⟨j, k', ho', h2⟩, h3, h4⟩ := hp.flux m b hm
    exact ⟨h1, ⟨i, k, hown i k ho, he⟩, ⟨j, k', hown j k' ho', h2⟩, h3, h4⟩
  · intro k hk
    rcases hkid k hk with ⟨h1, h2⟩ | h1
    · exact KidOk.mono (hp.kid k h1) h2 htok hown hpend
    · exact h1

namespace LinkInv

section

variable (h : LinkInv strict ino g att L V)
include h

/-- **The rule for changes.** A process changes inodes that are its own; these, what it has, and the tree have to be
right afterwards. -/
theorem step {M N : Nat → Prop} (hl : Local g ino ino' att att' L L' V V' p x M N)
    (htree : TreeInv ino' att' (Flux (update g p x)))
    (hnode : ∀ m, M m ∨ N m → Node strict ino' (update g p x) att' L' V' m) (hpart : Part ino' att' L' x)
    (hkidOwn : ∀ k, x.kid = some k → ∀ q, q ≠ p → (∀ i h, (g q).own i = some h → h.inum ≠ k.inum) ∧
      ∀ k', (g q).kid = some k' → k'.inum ≠ k.inum)
    (hownKid : ∀ i h, x.own i = some h → ∀ q, q ≠ p → ∀ k, (g q).kid = some k → h.inum ≠ k.inum) :
    LinkInv strict ino' (update g p x) att' L' V' := by
  refine ⟨htree, fun m => ?_, fun q => ?_, fun q r k i k' hk hr ho => ?_, fun q r k k' hk hk' he => ?_⟩
  · by_cases hm : M m ∨ N m
    · exact hnode m hm
    · exact hl.node (fun h1 => hm (.inl h1)) (fun h1 => hm (.inr h1)) (h.node m)
  · by_cases hq : q = p
    · subst hq
      rw [update_self]
      exact hpart
    · rw [update_of_ne hq]
      exact hl.part hq (h.part q)
  · by_cases hq : q = p
    · subst hq
      rw [update_self] at hk
      rw [update_of_ne hr] at ho
      exact (hkidOwn k hk r hr).1 i k' ho
    · rw [update_of_ne hq] at hk
      by_cases hrp : r = p
      · subst hrp
        rw [update_self] at ho
        exact hownKid i k' ho q hq k hk
      · rw [update_of_ne hrp] at ho
        exact h.kidOwn q r k i k' hk hr ho
  · by_cases hq : q = p
    · by_cases hr : r = p
      · rw [hq, hr]
      · subst hq
        rw [update_self] at hk
        rw [update_of_ne hr] at hk'
        exact absurd he.symm ((hkidOwn k hk r hr).2 k' hk')
    · rw [update_of_ne hq] at hk
      by_cases hr : r = p
      · subst hr
        rw [update_self] at hk'
        exact absurd he ((hkidOwn k' hk' q hq).2 k hk)
      · rw [update_of_ne hr] at hk'
        exact h.kidOne q r k k' hk hk' he

/-- An inode that the process has locked is its own. -/
theorem own_local (hu : OwnUnique g) (ho : (g p).own i = some k) {q : P} (hq : q ≠ p) :
    (∀ j k', (g q).own j = some k' → k'.inum ≠ k.inum) ∧ ∀ k', (g q).kid = some k' → k'.inum ≠ k.inum :=
  ⟨fun j k' ho' he => hq (hu q j k' p i k ho' ho he).1, fun k' hk' he => h.kidOwn q p k' i k hk' (Ne.symm hq) ho he.symm⟩

theorem kid_local {k : Kid} (hk : (g p).kid = some k) {q : P} (hq : q ≠ p) :
    (∀ j k', (g q).own j = some k' → k'.inum ≠ k.inum) ∧ ∀ k', (g q).kid = some k' → k'.inum ≠ k.inum :=
  ⟨fun j k' ho' => h.kidOwn p q k j k' hk hq ho', fun k' hk' he => hq (h.kidOne q p k' k hk' hk he)⟩

omit h in
theorem own_of_map (hm : ∀ j, (x.own j).map Held.inum = (y.own j).map Held.inum) {j : Fin NINODE}
    (hj : x.own j = some k) : ∃ k', y.own j = some k' ∧ k'.inum = k.inum := by
  have := hm j
  rw [hj] at this
  exact Option.map_eq_some_iff.mp this.symm

omit h in
theorem own_map_update {own : Fin NINODE → Option Held} {k' : Held} (ho : own i = some k)
    (hk : k'.inum = k.inum) (j : Fin NINODE) :
    (update own i (some k') j).map Held.inum = (own j).map Held.inum := by
  by_cases hj : j = i
  · rw [hj, update_self, ho, Option.map_some, Option.map_some, hk]
  · rw [update_of_ne hj]

/-- The rule for changes after which the process has the same locks, and no new inode that it had not. -/
theorem stepSame {M N : Nat → Prop} (hl : Local g ino ino' att att' L L' V V' p x M N)
    (htree : TreeInv ino' att' (Flux (update g p x)))
    (hnode : ∀ m, M m ∨ N m → Node strict ino' (update g p x) att' L' V' m) (hpart : Part ino' att' L' x)
    (hown : ∀ j, (x.own j).map Held.inum = ((g p).own j).map Held.inum) (hkid : ∀ m, IsKid x m → IsKid (g p) m) :
    LinkInv strict ino' (update g p x) att' L' V' := by
  refine h.step hl htree hnode hpart ?_ ?_
  · intro c hc q hq
    obtain ⟨c', hc', he⟩ := hkid c.inum ⟨c, hc, rfl⟩
    rw [← he]
    exact h.kid_local hc' hq
  · intro j k hj q hq c hc
    obtain ⟨k', hj', he⟩ := own_of_map hown hj
    rw [← he]
    exact h.kidOwn q p c j k' hc (Ne.symm hq) hj'

omit h in
/-- A process that is not between the name of a directory and its attachment does not matter for the tree. -/
theorem flux_update (hf : (g p).flux = x.flux) : Flux (update g p x) = Flux g := by
  funext n b
  refine propext ⟨?_, ?_⟩ <;> rintro ⟨q, hq⟩ <;> refine ⟨q, ?_⟩ <;> by_cases hqp : q = p
  · subst hqp
    rwa [update_self, ← hf] at hq
  · rwa [update_of_ne hqp] at hq
  · subst hqp
    rwa [update_self, ← hf]
  · rwa [update_of_ne hqp]

/-- The rule for changes to one inode that the process has locked, and to the names of the inodes `N`. -/
theorem stepOwn {N : Nat → Prop} {r : Inode} (hu : OwnUnique g)
    (ho : (g p).own i = some k) (hown : x.own = update (g p).own i (some ⟨k.inum, r, k.att⟩))
    (hrt : r.type = k.ino.type) (hup : ∀ m, up (update ino k.inum r) att m = up ino att m)
    (hreal : ∀ m, ¬N m → real (update ino k.inum r) m = real ino m)
    (hpend : ∀ m, m ≠ k.inum → ¬N m → pendAt x m = pendAt (g p) m)
    (hfq : ∀ q, q ≠ p → ∀ m b, (g q).flux = some (m, b) → ¬N m) (hkq : ∀ q, q ≠ p → ∀ c, (g q).kid = some c → ¬N c.inum)
    (hself : ∀ c, (g p).kid = some c → c.inum ≠ k.inum → ¬N c.inum → x.kid = some c)
    (htree : TreeInv (update ino k.inum r) att (Flux (update g p x)))
    (hnode : ∀ m, m = k.inum ∨ N m → Node strict (update ino k.inum r) (update g p x) att L V m)
    (hpt : ∀ m, (m, true) ∈ x.pend → (ino m).type ≠ .dir)
    (hpf : ∀ m, (m, false) ∈ x.pend → ∃ j k', (g p).own j = some k' ∧ k'.inum = m)
    (hfx : ∀ m b, x.flux = some (m, b) → FluxOk (update ino k.inum r) att x m b)
    (hkok : ∀ c, x.kid = some c → KidOk (update ino k.inum r) att L x c) (hkid : ∀ m, IsKid x m → IsKid (g p) m) :
    LinkInv strict (update ino k.inum r) (update g p x) att L V := by
  obtain ⟨hino, hatt⟩ := (h.part p).own i k ho
  have hne : ∀ m, m ≠ k.inum → update ino k.inum r m = ino m := fun m hm => update_of_ne hm _ _
  have ht : ∀ m, (update ino k.inum r m).type = (ino m).type := proj_update Inode.type (by rw [hrt, hino])
  have hmap : ∀ j, (x.own j).map Held.inum = ((g p).own j).map Held.inum := by
    rw [hown]
    exact own_map_update ho rfl
  refine h.stepSame (M := fun m => m = k.inum) ⟨hne, fun _ _ => rfl, fun m _ => hreal m, fun m _ _ => hup m, hpend,
    fun _ _ => rfl, fun _ _ => id, fun q hq => (h.own_local hu ho hq).1, fun q hq m b hf => hreal m (hfq q hq m b hf),
    fun q hq c hc => ⟨(h.own_local hu ho hq).2 c hc, hkq q hq c hc⟩, hself, fun q _ m _ hm => by rwa [ht]⟩ htree hnode
    ⟨fun j c hc => ?_, fun m hm => ?_, fun m hm => ?_, hfx, hkok⟩ hmap hkid
  · rw [hown] at hc
    by_cases hj : j = i
    · subst hj
      rw [update_self] at hc
      cases hc
      exact ⟨update_self _ _ _, hatt⟩
    · rw [update_of_ne hj] at hc
      have hcn : c.inum ≠ k.inum := fun hcn => hj (hu p j c p i k hc ho hcn).2
      rw [hne _ hcn]
      exact (h.part p).own j c hc
  · rw [ht]
    exact hpt m hm
  · obtain ⟨j, c, hc, rfl⟩ := hpf m hm
    obtain ⟨c', hc', he'⟩ := own_of_map (fun j => (hmap j).symm) hc
    exact ⟨j, c', hc', he'⟩

end

/-! ## Changes to the references -/

section

variable (h : LinkInv strict ino g att L V)
include h

/-- The references to one inode change, and no inode. -/
theorem refs (n : Nat) (hL : ∀ m, m ≠ n → L' m = L m)
    (hV : ∀ m, m ≠ n → V m → V' m) (hpend : x.pend = (g p).pend) (hflux : x.flux = (g p).flux)
    (hq : ∀ q, q ≠ p → ∀ k, (g q).kid = some k → k.inum ≠ n)
    (hself : ∀ k, (g p).kid = some k → k.inum ≠ n → x.kid = some k) (halloc : 0 < L' n → (ino n).type ≠ .free)
    (hshape : (ino n).type = .dir →
      Shape n (ino n).ents ∨ (∃ q, IsKid (update g p x q) n) ∨ (ino n).nlink = 0 ∧ L' n = 0)
    (horphan : strict = true → (ino n).type ≠ .free → (ino n).nlink = 0 →
      0 < L' n ∧ V' n ∨ ∃ q, IsEarly (update g p x q) n)
    (hpart : Part ino att L' x)
    (hkidOwn : ∀ k, x.kid = some k → ∀ q, q ≠ p → (∀ i h, (g q).own i = some h → h.inum ≠ k.inum) ∧
      ∀ k', (g q).kid = some k' → k'.inum ≠ k.inum)
    (hownKid : ∀ i h, x.own i = some h → ∀ q, q ≠ p → ∀ k, (g q).kid = some k → h.inum ≠ k.inum) :
    LinkInv strict ino (update g p x) att L' V' := by
  refine h.step (N := fun m => m = n) (.same hpend hL hV hq hself) ?_ ?_ hpart hkidOwn hownKid
  · rw [flux_update hflux.symm]
    exact h.tree
  · rintro m (⟨⟨⟩⟩ | rfl)
    have hnd := h.node m
    have h1 := pending_update (g := g) (p := p) (x := x) m
    have h2 : pendAt x m = pendAt (g p) m := by rw [pendAt, pendAt, hpend]
    refine ⟨hnd.free, halloc, ?_, hnd.small, hshape, horphan⟩
    have h3 := hnd.nlink
    omega

/-- One more reference to an inode that is not new. -/
theorem more (hown : x.own = (g p).own) (hpend : x.pend = (g p).pend)
    (hflux : x.flux = (g p).flux) (hkid : x.kid = (g p).kid) (htok : ∀ t ∈ (g p).tok, t ∈ x.tok)
    (hn : (ino n).type ≠ .free) (hk : ∀ q, ¬IsKid (g q) n) (hlost : 0 < L n ∨ (ino n).nlink ≠ 0)
    (hL : ∀ m, L' m = L m + if m = n then 1 else 0) (hV : ∀ m, V m → V' m) :
    LinkInv strict ino (update g p x) att L' V' := by
  have hL' : ∀ m, m ≠ n → L' m = L m := fun m hm => by rw [hL, if_neg hm, Nat.add_zero]
  have hne : ∀ q k, (g q).kid = some k → k.inum ≠ n := fun q k hc he => hk q ⟨k, hc, he⟩
  refine h.refs n hL' (fun m _ => hV m) hpend hflux (fun q _ => hne q) (fun _ hc _ => hkid.trans hc) (fun _ => hn)
    ?_ ?_ ?_ ?_ ?_
  · intro ht
    rcases (h.node n).shape ht with h1 | ⟨q, h1⟩ | ⟨h1, h2⟩
    · exact .inl h1
    · exact absurd h1 (hk q)
    · omega
  · intro hst ht h0
    rcases (h.node n).orphan hst ht h0 with ⟨h1, h2⟩ | ⟨q, k, hc, he, -⟩
    · left
      refine ⟨?_, hV n h2⟩
      rw [hL]
      omega
    · exact absurd ⟨k, hc, he⟩ (hk q)
  · refine (h.part p).mono htok (by rw [hown]; exact fun _ _ => id) hpend hflux (by rw [hown]; exact fun _ _ => .inl) ?_
    intro k hc
    rw [hkid] at hc
    exact .inl ⟨hc, hL' _ (hne p k hc)⟩
  · intro k hc q hq
    rw [hkid] at hc
    exact h.kid_local hc hq
  · intro j k ho q hq c hc
    rw [hown] at ho
    exact h.kidOwn q p c j k hc (Ne.symm hq) ho

/-- The first reference to an inode that has just been allocated. -/
theorem giveKid (i : Fin NINODE) {t : InodeType}
    (hk : (g p).kid = some (.fresh n t)) (hL : ∀ m, L' m = L m + if m = n then 1 else 0) (hV : ∀ m, V m → V' m) :
    LinkInv strict ino (update g p { (g p).give i n with kid := some (.born i n t) }) att L' V' := by
  obtain ⟨h1, h2, h3, h4⟩ := (h.part p).kid _ hk
  have hL' : ∀ m, m ≠ n → L' m = L m := fun m hm => by rw [hL, if_neg hm, Nat.add_zero]
  have hself : update g p { (g p).give i n with kid := some (.born i n t) } p =
      { (g p).give i n with kid := some (.born i n t) } := update_self _ _ _
  refine h.refs n hL' (fun m _ => hV m) rfl rfl (fun q hq => (h.kid_local hk hq).2) ?_ ?_ ?_ ?_ ?_ ?_ ?_
  · intro k hc hne
    rw [hk] at hc
    cases hc
    exact absurd rfl hne
  · intro _
    rw [h1]
    exact h2
  · exact fun _ => .inr (.inl ⟨p, _, by rw [hself], rfl⟩)
  · exact fun _ _ _ => .inr ⟨p, _, by rw [hself], rfl, rfl⟩
  · refine (h.part p).mono (fun t ht => Multiset.mem_cons_of_mem ht) (fun _ _ => id) rfl rfl (fun _ _ => .inl) fun k hc => ?_
    cases hc
    refine .inr ⟨h1, h2, Multiset.mem_cons_self _ _, ?_, h4⟩
    rw [hL, if_pos rfl, h3]
  · rintro k ⟨⟩ q hq
    exact h.kid_local hk hq
  · exact fun j k ho q hq c hc => h.kidOwn q p c j k hc (Ne.symm hq) ho

/-- Nothing changes that inodes depend on. -/
theorem congr (hown : x.own = (g p).own) (hpend : x.pend = (g p).pend)
    (hflux : x.flux = (g p).flux) (hkid : x.kid = (g p).kid) (htok : (g p).kid = none ∨ ∀ t ∈ (g p).tok, t ∈ x.tok)
    (hL : ∀ m, L' m = L m) (hV : ∀ m, V m → V' m) : LinkInv strict ino (update g p x) att L' V' := by
  have hpart : Part ino att L' x := by
    refine (h.part p).frame hown hpend hflux (fun _ _ _ => ⟨rfl, rfl⟩) (fun _ _ _ => rfl) (fun _ _ => id) fun k hk => ?_
    rw [hkid] at hk
    rcases htok with h0 | htok
    · rw [h0] at hk
      cases hk
    · exact KidOk.mono ((h.part p).kid k hk) (hL _) htok (by rw [hown]; exact fun _ _ => id) hpend
  refine h.stepSame (N := fun _ => False) (.same hpend (fun m _ => hL m) (fun m _ => hV m) (fun _ _ _ _ => id)
    fun k hk _ => hkid.trans hk) ?_ ?_ hpart (by rw [hown]; exact fun _ => rfl) ?_
  · rw [flux_update hflux.symm]
    exact h.tree
  · rintro m (⟨⟨⟩⟩ | ⟨⟨⟩⟩)
  · rintro m ⟨k, hk, he⟩
    rw [hkid] at hk
    exact ⟨k, hk, he⟩

/-- Whether the copy of a free inode is valid does not matter. -/
theorem uncache (hV : strict = true → ∀ m, (ino m).type ≠ .free → V m → V' m) : LinkInv strict ino g att L V' := by
  refine ⟨h.tree, fun m => ?_, h.part, h.kidOwn, h.kidOne⟩
  have hn := h.node m
  refine ⟨hn.free, hn.alloc, hn.nlink, hn.small, hn.shape, fun hst ht h0 => ?_⟩
  exact (hn.orphan hst ht h0).imp_left fun hc => ⟨hc.1, hV hst m ht hc.2⟩

/-- A reference is dropped. -/
theorem drop {T : Multiset (Fin NINODE × Nat)}
    (hkid : (g p).kid = none ∨ (g p).kid = some (.gone i n)) (hq : ∀ q, q ≠ p → ∀ k, (g q).kid = some k → k.inum ≠ n)
    (hL : ∀ m, L' m + (if m = n then 1 else 0) = L m) (hV : ∀ m, m ≠ n → V m → V' m)
    (horphan : strict = true → (ino n).type ≠ .free → (ino n).nlink = 0 → 0 < L' n ∧ V' n) :
    LinkInv strict ino (update g p { g p with tok := T, kid := none }) att L' V' := by
  have hLn := hL n
  rw [if_pos rfl] at hLn
  have hp := h.part p
  refine h.refs n (fun m hm => ?_) hV rfl rfl hq ?_ ?_ ?_ (fun hs ht h0 => .inl (horphan hs ht h0)) ?_ ?_ ?_
  · have := hL m
    rw [if_neg hm] at this
    omega
  · intro k hk hne
    rcases hkid with h0 | h0
    · rw [h0] at hk
      cases hk
    · rw [h0] at hk
      cases hk
      exact absurd rfl hne
  · exact fun _ => (h.node n).alloc (by omega)
  · intro ht
    rcases (h.node n).shape ht with h1 | ⟨q, k, hk, he⟩ | ⟨h1, h2⟩
    · exact .inl h1
    · by_cases hqp : q = p
      · subst hqp
        rcases hkid with h0 | h0
        · rw [h0] at hk
          cases hk
        · obtain ⟨h1, -, -, h4, -⟩ := hp.kid _ h0
          refine .inr (.inr ⟨h1, ?_⟩)
          omega
      · exact absurd he (hq q hqp k hk)
    · omega
  · exact hp.frame rfl rfl rfl (fun _ _ _ => ⟨rfl, rfl⟩) (fun _ _ _ => rfl) (fun _ _ => id) fun k hk => by cases hk
  · rintro k ⟨⟩
  · exact fun j k ho q hqp c hc => h.kidOwn q p c j k hc (Ne.symm hqp) ho

/-- An inode is locked. It may be a new one, or one that is to be freed. -/
theorem hold {c : Option Kid}
    (hq : ∀ q, q ≠ p → (∀ j k, (g q).own j = some k → k.inum ≠ n) ∧ ∀ k, (g q).kid = some k → k.inum ≠ n)
    (ho : (g p).own i = none) (hLn : 0 < L n) (hV : ∀ m, V m → V' m) (hVn : V' n)
    (hx : x = { (g p).hold i ⟨n, ino n, att n⟩ with kid := c })
    (hold : ∀ k, (g p).kid = some k → k.inum = n ∧ ∃ k', c = some k' ∧ k'.inum = n)
    (hnew : ∀ k, c = some k → k.inum = n ∧ KidOk ino att L x k) :
    LinkInv strict ino (update g p x) att L V' := by
  have hself : update g p x p = x := update_self _ _ _
  have hown : ∀ j k, x.own j = some k → k = ⟨n, ino n, att n⟩ ∨ (g p).own j = some k := by
    intro j k hj
    rw [hx] at hj
    by_cases hji : j = i
    · subst hji
      left
      simpa [Ghost.hold, eq_comm] using hj
    · right
      simpa [Ghost.hold, hji] using hj
  have hkeep : ∀ j k, (g p).own j = some k → x.own j = some k := by
    intro j k hj
    have hji : j ≠ i := by
      rintro rfl
      rw [ho] at hj
      cases hj
    rw [hx]
    simpa [Ghost.hold, hji] using hj
  refine h.refs n (fun _ _ => rfl) (fun m _ => hV m) (by rw [hx]; rfl) (by rw [hx]; rfl) (fun q hqp => (hq q hqp).2) ?_
    (h.node n).alloc ?_ (fun _ _ _ => .inl ⟨hLn, hVn⟩) ?_ ?_ ?_
  · exact fun k hk hne => absurd (hold k hk).1 hne
  · intro ht
    rcases (h.node n).shape ht with h1 | ⟨q, k, hk, he⟩ | ⟨h1, h2⟩
    · exact .inl h1
    · by_cases hqp : q = p
      · subst hqp
        obtain ⟨-, k', hc, he'⟩ := hold k hk
        refine .inr (.inl ⟨q, k', ?_, he'⟩)
        rw [hself, hx]
        exact hc
      · exact absurd he ((hq q hqp).2 k hk)
    · omega
  · refine (h.part p).mono ?_ hkeep (by rw [hx]; rfl) (by rw [hx]; rfl) ?_ ?_
    · rw [hx]
      exact fun _ => id
    · intro j k hj
      rcases hown j k hj with rfl | hj
      · exact .inr ⟨rfl, rfl⟩
      · exact .inl hj
    · intro k hk
      rw [hx] at hk
      exact .inr (hnew k hk).2
  · intro k hk q hqp
    rw [hx] at hk
    rw [(hnew k hk).1]
    exact hq q hqp
  · intro j k hj q hqp c' hc'
    rcases hown j k hj with rfl | hj
    · exact Ne.symm ((hq q hqp).2 c' hc')
    · exact h.kidOwn q p c' j k hc' (Ne.symm hqp) hj

/-- An inode is unlocked. -/
theorem unhold (hflux : (g p).flux = none)
    (hpend : ∀ m, (m, false) ∈ (g p).pend → ∃ j k, j ≠ i ∧ (g p).own j = some k ∧ k.inum = m)
    (hkid : ∀ m, (g p).kid ≠ some (.held i m)) :
    LinkInv strict ino (update g p ((g p).unhold i)) att L V := by
  have hown : ∀ j k, ((g p).unhold i).own j = some k → (g p).own j = some k := by
    intro j k hj
    by_cases hji : j = i
    · subst hji
      simp [Ghost.unhold] at hj
    · simpa [Ghost.unhold, hji] using hj
  have hkeep : ∀ j k, j ≠ i → (g p).own j = some k → ((g p).unhold i).own j = some k := by
    intro j k hji hj
    simpa [Ghost.unhold, hji] using hj
  have hp := h.part p
  have hpart : Part ino att L ((g p).unhold i) := by
    refine ⟨fun j k hj => hp.own j k (hown j k hj), hp.pend, fun m hm => ?_, fun m b hm => ?_, fun k hk => ?_⟩
    · obtain ⟨j, k, hji, hj, he⟩ := hpend m hm
      exact ⟨j, k, hkeep j k hji hj, he⟩
    · rw [show ((g p).unhold i).flux = (g p).flux from rfl, hflux] at hm
      cases hm
    · have hok := hp.kid k hk
      cases k with
      | held j m =>
        obtain ⟨h1, h2, h3, h4, h5, k, h6, h7⟩ := hok
        refine ⟨h1, h2, h3, h4, h5, k, hkeep j k ?_ h6, h7⟩
        rintro rfl
        exact hkid m hk
      | fresh | born | gone => exact hok
  refine h.step (N := fun _ => False) (.same rfl (fun _ _ => rfl) (fun _ _ => id) (fun _ _ _ _ => id) fun k hk _ => hk)
    ?_ ?_ hpart (fun k hk q hq => h.kid_local hk hq) ?_
  · rw [flux_update (by rfl)]
    exact h.tree
  · rintro m (⟨⟨⟩⟩ | ⟨⟨⟩⟩)
  · exact fun j k ho q hqp c hc => h.kidOwn q p c j k hc (Ne.symm hqp) (hown j k ho)

end

/-! ## Changes to the count of a locked inode -/

/-- The count of a locked inode changes by as much as the links that the process has still to make. -/
theorem setCount (h : LinkInv strict ino g att L V) (hu : OwnUnique g) {r : Inode}
    (ho : (g p).own i = some k) (htype : r.type = k.ino.type) (hents : r.ents = k.ino.ents)
    (hL : 0 < L k.inum) (hV : V k.inum) (hflux : (g p).flux = none) (hfx : x.flux = none)
    (hown : x.own = update (g p).own i (some ⟨k.inum, r, k.att⟩))
    (hn : r.nlink + pendAt (g p) k.inum = k.ino.nlink + pendAt x k.inum) (hsmall : r.nlink < 2 ^ 15)
    (hpend : ∀ m, m ≠ k.inum → pendAt x m = pendAt (g p) m)
    (hpt : ∀ m, (m, true) ∈ x.pend → (m, true) ∈ (g p).pend ∨ m = k.inum ∧ k.ino.type ≠ .dir)
    (hpf : ∀ m, (m, false) ∈ x.pend → (m, false) ∈ (g p).pend ∨ m = k.inum)
    (hkid : ∀ m, IsKid x m ↔ IsKid (g p) m) (hself : ∀ c, (g p).kid = some c → c.inum = k.inum ∨ x.kid = some c)
    (hkok : ∀ c, x.kid = some c → KidOk (update ino k.inum r) att L x c) :
    LinkInv strict (update ino k.inum r) (update g p x) att L V := by
  obtain ⟨hino, -⟩ := (h.part p).own i k ho
  have hself' : update ino k.inum r k.inum = r := update_self _ _ _
  have ht : ∀ m, (update ino k.inum r m).type = (ino m).type := proj_update Inode.type (by rw [htype, hino])
  have he : ∀ m, (update ino k.inum r m).ents = (ino m).ents := proj_update Inode.ents (by rw [hents, hino])
  have hup : ∀ m, up (update ino k.inum r) att m = up ino att m := up_congr fun d _ => by rw [parentOf, parentOf, he]
  refine h.stepOwn (N := fun _ => False) hu ho hown htype hup (fun m _ => real_congr he m) (fun m hm _ => hpend m hm)
    (fun _ _ _ _ _ => id) (fun _ _ _ _ => id) (fun c hc hcm _ => (hself c hc).resolve_left hcm) ?_ ?_ ?_ ?_ ?_ hkok
    fun m => (hkid m).mp
  · rw [flux_update (hflux.trans hfx.symm)]
    exact h.tree.congr ht he
  · rintro m (rfl | ⟨⟨⟩⟩)
    have hnd := h.node k.inum
    have h1 := pending_update (g := g) (p := p) (x := x) k.inum
    have h2 := hnd.nlink
    rw [hino] at h2
    constructor
    · rw [ht]
      exact fun hf => absurd hf (hnd.alloc hL)
    · rw [ht]
      exact hnd.alloc
    · rw [hself', real_congr he, hup]
      omega
    · rw [hself']
      exact hsmall
    · rw [ht, he]
      intro hd
      rcases hnd.shape hd with h3 | ⟨q, h3⟩ | ⟨-, h3⟩
      · exact .inl h3
      · right; left
        refine ⟨q, ?_⟩
        by_cases hq : q = p
        · subst hq
          rw [update_self]
          exact (hkid _).mpr h3
        · rwa [update_of_ne hq]
      · omega
    · exact fun _ _ _ => .inl ⟨hL, hV⟩
  · intro m hm
    rcases hpt m hm with hm | ⟨rfl, hd⟩
    · exact (h.part p).pend m hm
    · rwa [hino]
  · intro m hm
    rcases hpf m hm with hm | rfl
    · exact (h.part p).pendOwn m hm
    · exact ⟨i, k, ho, rfl⟩
  · intro m b hm
    rw [hfx] at hm
    cases hm

/-! ## Attaching and detaching a directory -/

/-- The parent of a directory comes to count it, or counts it no more. -/
theorem setAttached (h : LinkInv strict ino g att L V) (hu : OwnUnique g) {j : Fin NINODE} {kd kn : Held} {r : Inode}
    {b : Bool} (hi : (g p).own i = some kd) (hj : (g p).own j = some kn) (hij : i ≠ j)
    (hflux : (g p).flux = some (kn.inum, b)) (htype : r.type = kd.ino.type) (hents : r.ents = kd.ino.ents)
    (hn : r.nlink + (if b then 0 else 1 : Nat) = kd.ino.nlink + (if b then 1 else 0 : Nat)) (hsmall : r.nlink < 2 ^ 15)
    (hLd : 0 < L kd.inum) (hVd : V kd.inum) (hpar : parentOf kn.ino = some kd.inum) (hkid : (g p).kid = none)
    (hx : x = { g p with
      own := update (update (g p).own i (some ⟨kd.inum, r, kd.att⟩)) j (some ⟨kn.inum, kn.ino, b⟩)
      flux := none })
    (htree : TreeInv ino (update att kn.inum b) (Flux (update g p x))) :
    LinkInv strict (update ino kd.inum r) (update g p x) (update att kn.inum b) L V := by
  obtain ⟨hinod, hattd⟩ := (h.part p).own i kd hi
  obtain ⟨hinon, hattn⟩ := (h.part p).own j kn hj
  have hdn : kn.inum ≠ kd.inum := fun he => hij (hu p i kd p j kn hi hj he.symm).2
  have hself : update ino kd.inum r kd.inum = r := update_self _ _ _
  have hne : ∀ m, m ≠ kd.inum → update ino kd.inum r m = ino m := fun m hm => update_of_ne hm _ _
  have hatt : ∀ m, m ≠ kn.inum → update att kn.inum b m = att m := fun m hm => update_of_ne hm _ _
  have ht : ∀ m, (update ino kd.inum r m).type = (ino m).type := proj_update Inode.type (by rw [htype, hinod])
  have he : ∀ m, (update ino kd.inum r m).ents = (ino m).ents := proj_update Inode.ents (by rw [hents, hinod])
  have hpar' : ∀ m, parentOf (update ino kd.inum r m) = parentOf (ino m) := fun m => by
    rw [parentOf, parentOf, he]
  have hf := (h.part p).flux _ _ hflux
  have hrange : kn.inum < NINODES := (h.tree.range _ (by rw [hf.dir]; decide)).2
  have hup : ∀ m, up (update ino kd.inum r) (update att kn.inum b) m +
      (if m = kd.inum then if b then 0 else 1 else 0) = up ino att m + if m = kd.inum then if b then 1 else 0 else 0 := by
    intro m
    have h1 : up (update ino kd.inum r) (update att kn.inum b) m + upAt ino att kn.inum m =
        up ino att m + upAt (update ino kd.inum r) (update att kn.inum b) kn.inum m :=
      up_change hrange (fun d hd => ⟨hatt d hd, hpar' d⟩) m
    have h2 : upAt ino att kn.inum m = if m = kd.inum then if b then 0 else 1 else 0 := by
      rw [upAt, hf.att, hinon, hpar]
      cases b <;> simp [eq_comm]
    have h3 : upAt (update ino kd.inum r) (update att kn.inum b) kn.inum m =
        if m = kd.inum then if b then 1 else 0 else 0 := by
      rw [upAt, update_self, hpar', hinon, hpar]
      cases b <;> simp [eq_comm]
    omega
  have hupne : ∀ m, m ≠ kd.inum → up (update ino kd.inum r) (update att kn.inum b) m = up ino att m := by
    intro m hm
    have h1 := hup m
    rw [if_neg hm, if_neg hm] at h1
    exact h1
  have hpend : ∀ m, pending (update g p x) m = pending g m := by
    intro m
    have h1 := pending_update (g := g) (p := p) (x := x) m
    have h2 : pendAt x m = pendAt (g p) m := by rw [hx]; rfl
    omega
  have hkids : ∀ q, (update g p x q).kid = (g q).kid := proj_update Ghost.kid (by rw [hx])
  have hmap : ∀ c, (x.own c).map Held.inum = ((g p).own c).map Held.inum := by
    intro c
    rw [hx]
    dsimp only
    have hj' : update (g p).own i (some ⟨kd.inum, r, kd.att⟩) j = some kn := by
      rw [update_of_ne (Ne.symm hij), hj]
    exact (own_map_update hj' (by rfl) c).trans (own_map_update hi (by rfl) c)
  have hshape : ∀ m, (ino m).type = .dir → 0 < L m ∨ (ino m).nlink ≠ 0 →
      Shape m (ino m).ents ∨ ∃ q, IsKid (update g p x q) m := by
    intro m hd hL
    rcases (h.node m).shape hd with h1 | ⟨q, c, hc, hcm⟩ | ⟨h1, h2⟩
    · exact .inl h1
    · exact .inr ⟨q, c, by rw [hkids]; exact hc, hcm⟩
    · omega
  refine h.stepSame (M := fun m => m = kd.inum ∨ m = kn.inum) (N := fun _ => False) ?_ ?_ ?_ ?_ hmap ?_
  · refine ⟨fun m hm => hne m fun hc => hm (.inl hc), fun m hm => hatt m fun hc => hm (.inr hc),
      fun m _ _ => real_congr he m, fun m hm _ => hupne m fun hc => hm (.inl hc), fun m _ _ => by rw [hx]; rfl,
      fun _ _ => rfl, fun _ _ => id, ?_, fun _ _ m _ _ => real_congr he m, fun q hq c hc => ⟨?_, id⟩, ?_,
      fun q _ m _ hm => by rwa [ht]⟩
    · rintro q hq c k' hc (hm | hm)
      · exact (h.own_local hu hi hq).1 c k' hc hm
      · exact (h.own_local hu hj hq).1 c k' hc hm
    · rintro (hm | hm)
      · exact (h.own_local hu hi hq).2 c hc hm
      · exact (h.own_local hu hj hq).2 c hc hm
    · intro c hc
      rw [hkid] at hc
      cases hc
  · exact htree.congr ht he
  · rintro m ((rfl | rfl) | ⟨⟨⟩⟩)
    · have hnd := h.node kd.inum
      have h1 := hnd.nlink
      have h2 := hup kd.inum
      rw [hinod] at h1
      rw [if_pos rfl, if_pos rfl] at h2
      constructor
      · rw [ht]
        exact fun hfree => absurd hfree (hnd.alloc hLd)
      · rw [ht]
        exact hnd.alloc
      · rw [hself, real_congr he, hpend]
        omega
      · rw [hself]
        exact hsmall
      · rw [ht, he]
        intro hd
        exact (hshape _ hd (.inl hLd)).imp_right .inl
      · exact fun _ _ _ => .inl ⟨hLd, hVd⟩
    · have hnd := h.node kn.inum
      constructor
      · rw [hne _ hdn]
        exact hnd.free
      · rw [hne _ hdn]
        exact hnd.alloc
      · rw [hne _ hdn, real_congr he, hpend, hupne _ hdn]
        exact hnd.nlink
      · rw [hne _ hdn]
        exact hnd.small
      · rw [hne _ hdn]
        intro hd
        rcases hnd.shape hd with h1 | ⟨q, c, hc, hcm⟩ | h1
        · exact .inl h1
        · exact .inr (.inl ⟨q, c, by rw [hkids]; exact hc, hcm⟩)
        · exact .inr (.inr h1)
      · rw [hne _ hdn]
        intro hst htn hn0
        refine (hnd.orphan hst htn hn0).imp_right ?_
        rintro ⟨q, c, hc, hcm⟩
        exact ⟨q, c, by rw [hkids]; exact hc, hcm⟩
  · have hp := h.part p
    constructor
    · intro c k' hc
      rw [hx] at hc
      dsimp only at hc
      by_cases hcj : c = j
      · subst hcj
        rw [update_self] at hc
        cases hc
        exact ⟨(hne _ hdn).trans hinon, update_self _ _ _⟩
      · rw [update_of_ne hcj] at hc
        by_cases hci : c = i
        · subst hci
          rw [update_self] at hc
          cases hc
          exact ⟨hself, (hatt _ (Ne.symm hdn)).trans hattd⟩
        · rw [update_of_ne hci] at hc
          have h1 : k'.inum ≠ kd.inum := fun hm => hci (hu p c k' p i kd hc hi hm).2
          have h2 : k'.inum ≠ kn.inum := fun hm => hcj (hu p c k' p j kn hc hj hm).2
          rw [hne _ h1, hatt _ h2]
          exact hp.own c k' hc
    · intro m hm
      rw [ht]
      rw [hx] at hm
      exact hp.pend m hm
    · intro m hm
      have hm' : (m, false) ∈ (g p).pend := by rw [hx] at hm; exact hm
      obtain ⟨c, k', hc, rfl⟩ := hp.pendOwn m hm'
      obtain ⟨k'', hc', he'⟩ := own_of_map (fun c => (hmap c).symm) hc
      exact ⟨c, k'', hc', he'⟩
    · intro m b' hm
      rw [hx] at hm
      cases hm
    · intro c hc
      rw [hx] at hc
      dsimp only at hc
      rw [hkid] at hc
      cases hc
  · rintro m ⟨c, hc, hcm⟩
    rw [hx] at hc
    exact ⟨c, hc, hcm⟩

end LinkInv

end

end Xv6.Fs
