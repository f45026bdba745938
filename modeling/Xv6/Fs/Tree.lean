import Xv6.Fs.Refs

/-!
# The directory tree

The names and the parents of inodes. An entry other than `.` and `..` is a name (`real` counts those of an inode); the
`..` of an attached directory is a link to its parent (`up` counts them). A directory is attached while its parent
counts it: from the `dp->nlink++` of `create` to the `dp->nlink--` of `sys_unlink`.

`TreeInv` says that the attached directories form a tree under the root: each has one name, which lies in its parent,
and its parent is attached. A directory that is not attached holds no names. `F` are the directories that have their
name but are not yet attached (`true`), or are attached but have no more a name (`false`). There is one lemma for every
kind of change to the tree.
-/

namespace Xv6.Fs

open Lib (sum_change)
open Function (update update_of_ne update_self)

/-! ## Names and parents -/

/-- Neither `.` nor `..`. -/
def isReal (name : Name) : Bool := !namecmp name dot && !namecmp name dotdot

/-- The entry is a name of the inode. -/
def Dirent.names (e : Dirent) (n : Nat) : Bool := e.inum == n && e.inum != 0 && isReal e.name

theorem Dirent.names_iff {e : Dirent} {n : Nat} : e.names n = true ↔ e.inum = n ∧ e.inum ≠ 0 ∧ isReal e.name = true := by
  simp [Dirent.names, and_assoc]

theorem Dirent.names_self {e : Dirent} (h0 : e.inum ≠ 0) (hr : isReal e.name = true) : e.names e.inum = true :=
  Dirent.names_iff.mpr ⟨rfl, h0, hr⟩

/-- The names of an inode in a directory. -/
def nameCount (ents : List Dirent) (n : Nat) : Nat := ents.countP (·.names n)

/-- The names of an inode. -/
def real (ino : Nat → Inode) (n : Nat) : Nat := ∑ d ∈ Finset.range NINODES, nameCount (ino d).ents n

/-- What the second entry of a directory names. -/
def parentOf (r : Inode) : Option Nat := (r.ents[1]?).map Dirent.inum

/-- 1 if the directory is attached to `n`. -/
def upAt (ino : Nat → Inode) (att : Nat → Bool) (d n : Nat) : Nat :=
  if att d = true ∧ parentOf (ino d) = some n then 1 else 0

/-- The directories attached to an inode. -/
def up (ino : Nat → Inode) (att : Nat → Bool) (n : Nat) : Nat := ∑ d ∈ Finset.range NINODES, upAt ino att d n

/-- The entries of a directory that is complete: first `.` and `..`, and then names. -/
def Shape (d : Nat) (ents : List Dirent) : Prop :=
  ∃ par rest, ents = ⟨d, dot⟩ :: ⟨par, dotdot⟩ :: rest ∧ d ≠ 0 ∧ par ≠ 0 ∧ ∀ e ∈ rest, e.inum ≠ 0 → isReal e.name = true

section Counting

variable {ino ino' : Nat → Inode} {att att' : Nat → Bool} {ents : List Dirent} {e de : Dirent} {d d' n off : Nat}

theorem nameCount_pos (he : e ∈ ents) (hn : e.names n = true) : 0 < nameCount ents n :=
  List.countP_pos_iff.mpr ⟨e, he, hn⟩

theorem nameCount_eq_zero (h : ∀ e ∈ ents, e.inum ≠ 0 → isReal e.name = false) (n : Nat) : nameCount ents n = 0 := by
  refine List.countP_eq_zero.mpr fun e he hn => ?_
  obtain ⟨-, h0, hr⟩ := Dirent.names_iff.mp hn
  rw [h e he h0] at hr
  cases hr

theorem nameCount_set (he : ents[off]? = some e) (de : Dirent) (n : Nat) :
    nameCount (ents.set off de) n + (if e.names n then 1 else 0) = nameCount ents n + if de.names n then 1 else 0 := by
  induction ents generalizing off with
  | nil => cases he
  | cons a rest ih =>
    cases off with
    | zero =>
      cases he
      simp only [nameCount, List.set_cons_zero, List.countP_cons]
      omega
    | succ off =>
      have := ih he
      simp only [nameCount, List.set_cons_succ, List.countP_cons] at this ⊢
      omega

theorem nameCount_append (de : Dirent) (n : Nat) :
    nameCount (ents ++ [de]) n = nameCount ents n + if de.names n then 1 else 0 := by
  rw [nameCount, nameCount, List.countP_append, List.countP_singleton]

theorem real_change (hd : d < NINODES) (h : ∀ d', d' ≠ d → (ino' d').ents = (ino d').ents) (n : Nat) :
    real ino' n + nameCount (ino d).ents n = real ino n + nameCount (ino' d).ents n :=
  sum_change (Finset.range NINODES) (fun d => nameCount (ino d).ents n) (fun d => nameCount (ino' d).ents n) d
    (Finset.mem_range.mpr hd) fun d' hd' => by simp only [h d' hd']

theorem real_update (ino : Nat → Inode) (hd : d < NINODES) (r : Inode) (n : Nat) :
    real (update ino d r) n + nameCount (ino d).ents n = real ino n + nameCount r.ents n := by
  have h : real (update ino d r) n + nameCount (ino d).ents n = real ino n + nameCount (update ino d r d).ents n :=
    real_change hd (fun d' hd' => by rw [update_of_ne hd']) n
  rwa [update_self] at h

theorem real_congr (h : ∀ d, (ino' d).ents = (ino d).ents) (n : Nat) : real ino' n = real ino n :=
  Finset.sum_congr rfl fun d _ => by rw [h d]

theorem up_change (hd : d < NINODES) (h : ∀ d', d' ≠ d → att' d' = att d' ∧ parentOf (ino' d') = parentOf (ino d'))
    (n : Nat) : up ino' att' n + upAt ino att d n = up ino att n + upAt ino' att' d n :=
  sum_change (Finset.range NINODES) (fun d => upAt ino att d n) (fun d => upAt ino' att' d n) d
    (Finset.mem_range.mpr hd) fun d' hd' => by simp only [upAt, h d' hd']

theorem up_congr (h : ∀ d, att d = true → parentOf (ino' d) = parentOf (ino d)) (n : Nat) :
    up ino' att n = up ino att n := by
  refine Finset.sum_congr rfl fun d _ => ?_
  rw [upAt, upAt]
  by_cases ha : att d = true
  · rw [h d ha]
  · rw [if_neg fun hn => ha hn.1, if_neg fun hn => ha hn.1]

theorem nameCount_le_real (hd : d < NINODES) (n : Nat) : nameCount (ino d).ents n ≤ real ino n :=
  Finset.single_le_sum (f := fun d => nameCount (ino d).ents n) (fun _ _ => Nat.zero_le _) (Finset.mem_range.mpr hd)

theorem upAt_le_up (hd : d < NINODES) (n : Nat) : upAt ino att d n ≤ up ino att n :=
  Finset.single_le_sum (f := fun d => upAt ino att d n) (fun _ _ => Nat.zero_le _) (Finset.mem_range.mpr hd)

/-- An inode with one name has it in one directory. -/
theorem eq_of_real_le_one (hd : d < NINODES) (hd' : d' < NINODES) (h1 : real ino n ≤ 1)
    (h : 0 < nameCount (ino d).ents n) (h' : 0 < nameCount (ino d').ents n) : d = d' := by
  by_contra hne
  have h2 := Finset.add_sum_erase (Finset.range NINODES) (fun d => nameCount (ino d).ents n) (Finset.mem_range.mpr hd)
  have h3 := Finset.single_le_sum (f := fun d => nameCount (ino d).ents n)
    (fun _ _ => Nat.zero_le _) (Finset.mem_erase.mpr ⟨Ne.symm hne, Finset.mem_range.mpr hd'⟩)
  unfold real at h1
  omega

theorem parentOf_cons (a b : Dirent) (rest : List Dirent) {r : Inode} (h : r.ents = a :: b :: rest) :
    parentOf r = some b.inum := by
  rw [parentOf, h]
  rfl

theorem exists_of_real_pos (h : 0 < real ino n) : ∃ d, ∃ e ∈ (ino d).ents, e.names n = true := by
  obtain ⟨d, -, hd⟩ := Finset.exists_ne_zero_of_sum_ne_zero (Nat.ne_of_gt h)
  obtain ⟨e, he, hn⟩ := List.countP_pos_iff.mp (Nat.pos_of_ne_zero hd)
  exact ⟨d, e, he, hn⟩

theorem exists_of_up_pos (h : 0 < up ino att n) : ∃ d, att d = true ∧ parentOf (ino d) = some n := by
  obtain ⟨d, -, hd⟩ := Finset.exists_ne_zero_of_sum_ne_zero (Nat.ne_of_gt h)
  unfold upAt at hd
  split at hd
  · next hc => exact ⟨d, hc⟩
  · exact absurd rfl hd

/-- All names are in one directory. -/
theorem real_single (hd : d < NINODES) (h : ∀ d', d' ≠ d → (ino d').ents = []) (n : Nat) :
    real ino n = nameCount (ino d).ents n := by
  refine Finset.sum_eq_single d (fun d' _ hd' => ?_) fun hn => absurd (Finset.mem_range.mpr hd) hn
  rw [h d' hd']
  rfl

/-- Only one directory is attached. -/
theorem up_single (hd : d < NINODES) (h : ∀ d', att d' = true → d' = d) (n : Nat) : up ino att n = upAt ino att d n := by
  refine Finset.sum_eq_single d (fun d' _ hd' => ?_) fun hn => absurd (Finset.mem_range.mpr hd) hn
  exact if_neg fun hc => hd' (h d' hc.1)

/-- Names and attachments together, directory by directory. -/
theorem real_add_up (n : Nat) :
    real ino n + up ino att n = ∑ d ∈ Finset.range NINODES, (nameCount (ino d).ents n + upAt ino att d n) :=
  Finset.sum_add_distrib.symm

-- A sum over all inodes is never to be computed.
attribute [irreducible] real up

end Counting

/-! ## Entries -/

/-- The entries after `writei` of one of them, or of a new one at the end. -/
def putEntry (ents : List Dirent) (off : Nat) (de : Dirent) : List Dirent :=
  if off < ents.length then ents.set off de else ents ++ [de]

section Entries

variable {ents : List Dirent} {e de : Dirent} {d n off : Nat}

theorem mem_putEntry (he : e ∈ putEntry ents off de) : e = de ∨ e ∈ ents := by
  unfold putEntry at he
  split at he
  · exact (List.mem_or_eq_of_mem_set he).symm
  · rcases List.mem_append.mp he with h | h
    · exact .inr h
    · exact .inl (List.mem_singleton.mp h)

theorem mem_putEntry_self (h : off ≤ ents.length) : de ∈ putEntry ents off de := by
  unfold putEntry
  split
  · next hlt => exact List.mem_set hlt de
  · exact List.mem_append_right ents (List.mem_singleton.mpr rfl)

theorem nameCount_putEntry (h0 : ∀ e, ents[off]? = some e → e.names n = false) :
    nameCount (putEntry ents off de) n = nameCount ents n + if de.names n then 1 else 0 := by
  unfold putEntry
  split
  · next hlt =>
    have h1 := nameCount_set (List.getElem?_eq_getElem hlt) de n
    rw [h0 _ (List.getElem?_eq_getElem hlt)] at h1
    simpa using h1
  · exact nameCount_append de n

theorem nameCount_removeEntry (he : ents[off]? = some e) (n : Nat) :
    nameCount (putEntry ents off ⟨0, []⟩) n + (if e.names n then 1 else 0) = nameCount ents n := by
  unfold putEntry
  rw [if_pos (List.getElem?_eq_some_iff.mp he).1]
  have h1 := nameCount_set he ⟨0, []⟩ n
  simpa [Dirent.names] using h1

theorem Shape.two_le (hs : Shape d ents) (he : ∀ e, ents[off]? = some e → e.inum = 0 ∨ isReal e.name = true) :
    2 ≤ off := by
  obtain ⟨par, rest, rfl, hd, hpar, -⟩ := hs
  match off with
  | 0 => exact absurd (he _ rfl) (by simp [hd, isReal, dot, namecmp])
  | 1 => exact absurd (he _ rfl) (by simp [hpar, isReal, dot, dotdot, namecmp])
  | off + 2 => exact Nat.le_add_left 2 off

/-- `.` and `..` stay where they are. -/
theorem Shape.putEntry (hs : Shape d ents) (h2 : 2 ≤ off) (de : Dirent) (hde : de.inum ≠ 0 → isReal de.name = true) :
    Shape d (putEntry ents off de) ∧ (putEntry ents off de)[1]? = ents[1]? := by
  obtain ⟨par, rest, rfl, hd, hpar, hrest⟩ := hs
  obtain ⟨off, rfl⟩ := Nat.exists_eq_add_of_le' h2
  have he : Fs.putEntry (⟨d, dot⟩ :: ⟨par, dotdot⟩ :: rest) (off + 2) de =
      ⟨d, dot⟩ :: ⟨par, dotdot⟩ :: Fs.putEntry rest off de := by
    simp only [Fs.putEntry, List.length_cons, Nat.add_lt_add_iff_right, List.set_cons_succ, List.cons_append]
    split <;> rfl
  rw [he]
  refine ⟨⟨par, _, rfl, hd, hpar, fun e hm h0 => ?_⟩, rfl⟩
  rcases mem_putEntry hm with rfl | hm
  · exact hde h0
  · exact hrest e hm h0

/-- A directory that `isdirempty` finds empty holds no names. -/
theorem Shape.empty {r : Inode} (hs : Shape d r.ents) (he : isdirempty r = true) :
    ∀ e ∈ r.ents, e.inum ≠ 0 → isReal e.name = false := by
  obtain ⟨par, rest, hents, -⟩ := hs
  rw [isdirempty, hents] at he
  rw [hents]
  intro e hm h0
  rcases List.mem_cons.mp hm with rfl | hm
  · rfl
  · rcases List.mem_cons.mp hm with rfl | hm
    · rfl
    · have := List.all_eq_true.mp he e hm
      exact absurd (by simpa using this) h0

/-- What is not found in a complete directory is neither `.` nor `..`. -/
theorem Shape.real_of_none (hs : Shape d ents) {name : Name} (hf : findEntry ents name = none) : isReal name = true := by
  obtain ⟨par, rest, rfl, hd, hpar, -⟩ := hs
  have h := List.findIdx?_eq_none_iff.mp hf
  have h1 := h ⟨d, dot⟩ List.mem_cons_self
  have h2 := h ⟨par, dotdot⟩ (List.mem_cons_of_mem _ List.mem_cons_self)
  simp only [Bool.and_eq_false_iff, bne_eq_false_iff_eq, hd, hpar, false_or] at h1 h2
  simp [isReal, h1, h2]

/-- The entries of a complete directory. -/
theorem Shape.cases (hs : Shape d ents) (he : e ∈ ents) (h0 : e.inum ≠ 0) :
    e = ⟨d, dot⟩ ∨ e.name = dotdot ∧ (ents[1]?).map Dirent.inum = some e.inum ∨ isReal e.name = true := by
  obtain ⟨par, rest, rfl, -, -, hrest⟩ := hs
  rcases List.mem_cons.mp he with rfl | he
  · exact .inl rfl
  · rcases List.mem_cons.mp he with rfl | he
    · exact .inr (.inl ⟨rfl, rfl⟩)
    · exact .inr (.inr (hrest e he h0))

end Entries

/-! ## The tree -/

/-- **The attached directories form a tree.** -/
structure TreeInv (ino : Nat → Inode) (att : Nat → Bool) (F : Nat → Bool → Prop) : Prop where
  range : ∀ n, (ino n).type ≠ .free → 0 < n ∧ n < NINODES
  ents : ∀ n, (ino n).type ≠ .dir → (ino n).ents = []
  root : att ROOTINO = true ∧ parentOf (ino ROOTINO) = some ROOTINO ∧ real ino ROOTINO = 0
  attDir : ∀ d, att d = true → (ino d).type = .dir ∧ Shape d (ino d).ents
  nameAtt : ∀ d e, e ∈ (ino d).ents → e.inum ≠ 0 → isReal e.name = true → (ino e.inum).type = .dir →
    (att e.inum = true ∧ parentOf (ino e.inum) = some d) ∨ ∃ b, F e.inum b
  nameOne : ∀ n, (ino n).type = .dir → real ino n ≤ 1
  attName : ∀ n, att n = true → n = ROOTINO ∨ real ino n = 1 ∨ F n false
  attParent : ∀ d m, att d = true → parentOf (ino d) = some m → att m = true
  noNames : ∀ d, att d = false → ∀ e ∈ (ino d).ents, e.inum ≠ 0 → isReal e.name = false

namespace TreeInv

variable {ino ino' : Nat → Inode} {att : Nat → Bool} {F F' : Nat → Bool → Prop} {d n : Nat}

variable (h : TreeInv ino att F)
include h

theorem range_of_ents {e : Dirent} (he : e ∈ (ino d).ents) : d < NINODES := by
  refine (h.range d fun hf => ?_).2
  rw [h.ents d (by rw [hf]; exact nofun)] at he
  cases he

theorem range_of_att (ha : att d = true) : d < NINODES := by
  refine (h.range d ?_).2
  rw [(h.attDir d ha).1]
  exact nofun

theorem not_att (ht : (ino n).type ≠ .dir) : att n = false := by
  by_contra ha
  exact ht (h.attDir n (by simpa using ha)).1

/-- An entry that is a name is counted. -/
theorem real_pos {e : Dirent} (he : e ∈ (ino d).ents) (h0 : e.inum ≠ 0)
    (hr : isReal e.name = true) : 0 < real ino e.inum :=
  Nat.lt_of_lt_of_le (nameCount_pos he (Dirent.names_self h0 hr)) (nameCount_le_real (h.range_of_ents he) _)

/-- The parent of an attached directory counts it. -/
theorem up_pos (ha : att d = true) (hp : parentOf (ino d) = some n) : 0 < up ino att n := by
  have h1 : upAt ino att d n = 1 := if_pos ⟨ha, hp⟩
  have h2 : upAt ino att d n ≤ up ino att n := upAt_le_up (h.range_of_att ha) n
  omega

/-- Only the fields of inodes change. -/
theorem congr (ht : ∀ n, (ino' n).type = (ino n).type) (he : ∀ n, (ino' n).ents = (ino n).ents) :
    TreeInv ino' att F := by
  have hp : ∀ n, parentOf (ino' n) = parentOf (ino n) := fun n => by rw [parentOf, parentOf, he]
  have hr : ∀ n, real ino' n = real ino n := real_congr he
  constructor <;> simp only [ht, he, hp, hr]
  · exact h.range
  · exact h.ents
  · exact h.root
  · exact h.attDir
  · exact h.nameAtt
  · exact h.nameOne
  · exact h.attName
  · exact h.attParent
  · exact h.noNames

/-- An inode that has no name changes its type, or its entries, which are no names. -/
theorem setInode (hne : ∀ m, m ≠ n → ino' m = ino m) (ha : att n = false)
    (hn : real ino n = 0) (hrange : 0 < n ∧ n < NINODES) (ht : (ino' n).type ≠ .dir → (ino' n).ents = [])
    (he : ∀ e ∈ (ino' n).ents, e.inum ≠ 0 → isReal e.name = false) : TreeInv ino' att F := by
  have hatt : ∀ m, att m = true → m ≠ n := by
    rintro m hm rfl
    rw [ha] at hm
    cases hm
  have hreal : ∀ m, real ino' m = real ino m := by
    intro m
    have h1 : real ino' m + nameCount (ino n).ents m = real ino m + nameCount (ino' n).ents m :=
      real_change hrange.2 (fun d hd => by rw [hne d hd]) m
    rw [nameCount_eq_zero he, nameCount_eq_zero (h.noNames n ha)] at h1
    omega
  have hmem : ∀ d e, e ∈ (ino' d).ents → e.inum ≠ 0 → isReal e.name = true → e ∈ (ino d).ents ∧ e.inum ≠ n := by
    intro d e hm h0 hr
    have hdn : d ≠ n := by
      rintro rfl
      rw [he e hm h0] at hr
      cases hr
    rw [hne d hdn] at hm
    refine ⟨hm, fun hen => ?_⟩
    have := h.real_pos hm h0 hr
    rw [hen] at this
    omega
  refine ⟨fun m hm => ?_, fun m hm => ?_, ?_, fun m hm => ?_, fun m e hm h0 hr htype => ?_, fun m hm => ?_, fun m hm => ?_,
    fun m k hm hp => ?_, fun m hm => ?_⟩
  · by_cases hmn : m = n
    · rw [hmn]
      exact hrange
    · rw [hne m hmn] at hm
      exact h.range m hm
  · by_cases hmn : m = n
    · subst hmn
      exact ht hm
    · rw [hne m hmn] at hm ⊢
      exact h.ents m hm
  · rw [hreal, hne _ (hatt _ h.root.1)]
    exact h.root
  · rw [hne m (hatt m hm)]
    exact h.attDir m hm
  · obtain ⟨h1, h2⟩ := hmem m e hm h0 hr
    rw [hne _ h2] at htype ⊢
    exact h.nameAtt m e h1 h0 hr htype
  · rw [hreal]
    by_cases hmn : m = n
    · rw [hmn, hn]
      exact Nat.zero_le 1
    · rw [hne m hmn] at hm
      exact h.nameOne m hm
  · rw [hreal]
    exact h.attName m hm
  · rw [hne m (hatt m hm)] at hp
    exact h.attParent m k hm hp
  · by_cases hmn : m = n
    · subst hmn
      exact he
    · rw [hne m hmn]
      exact h.noNames m hm

/-- The names of one inode change, by an entry of an attached directory. -/
theorem setEntry (hd : att d = true) (hne : ∀ m, m ≠ d → ino' m = ino m)
    (ht : (ino' d).type = .dir) (hs : Shape d (ino' d).ents) (hp : parentOf (ino' d) = parentOf (ino d))
    (hF : ∀ m b, F m b → F' m b)
    (hmem : ∀ e ∈ (ino' d).ents, e.inum ≠ 0 → isReal e.name = true →
      e ∈ (ino d).ents ∨ ((ino e.inum).type = .dir → ∃ b, F' e.inum b))
    (hreal : ∀ m, m ≠ n → real ino' m = real ino m) (hone : (ino n).type = .dir → real ino' n ≤ 1)
    (hname : att n = true → real ino' n = 1 ∨ F' n false) (hroot : n ≠ ROOTINO) : TreeInv ino' att F' := by
  have htype : ∀ m, (ino' m).type = (ino m).type := by
    intro m
    by_cases hm : m = d
    · rw [hm, ht, (h.attDir d hd).1]
    · rw [hne m hm]
  have hpar : ∀ m, parentOf (ino' m) = parentOf (ino m) := by
    intro m
    by_cases hm : m = d
    · rw [hm, hp]
    · rw [hne m hm]
  refine ⟨fun m hm => ?_, fun m hm => ?_, ?_, fun m hm => ?_, fun m e hm h0 hr hdir => ?_, fun m hm => ?_, fun m hm => ?_,
    fun m k hm hk => ?_, fun m hm => ?_⟩
  · rw [htype] at hm
    exact h.range m hm
  · have hmd : m ≠ d := by
      rintro rfl
      exact hm ht
    rw [hne m hmd] at hm ⊢
    exact h.ents m hm
  · rw [hpar, hreal _ (Ne.symm hroot)]
    exact h.root
  · rw [htype]
    refine ⟨(h.attDir m hm).1, ?_⟩
    by_cases hmd : m = d
    · subst hmd
      exact hs
    · rw [hne m hmd]
      exact (h.attDir m hm).2
  · rw [htype] at hdir
    rw [hpar]
    have hold : e ∈ (ino m).ents → (att e.inum = true ∧ parentOf (ino e.inum) = some m) ∨ ∃ b, F' e.inum b :=
      fun he => (h.nameAtt m e he h0 hr hdir).imp_right fun ⟨b, hb⟩ => ⟨b, hF _ b hb⟩
    by_cases hmd : m = d
    · subst hmd
      obtain he | he := hmem e hm h0 hr
      · exact hold he
      · exact .inr (he hdir)
    · rw [hne m hmd] at hm
      exact hold hm
  · rw [htype] at hm
    by_cases hmn : m = n
    · subst hmn
      exact hone hm
    · rw [hreal m hmn]
      exact h.nameOne m hm
  · by_cases hmn : m = n
    · subst hmn
      exact .inr (hname hm)
    · rw [hreal m hmn]
      exact (h.attName m hm).imp_right fun h1 => h1.imp_right (hF m false)
  · rw [hpar] at hk
    exact h.attParent m k hm hk
  · have hmd : m ≠ d := by
      rintro rfl
      rw [hd] at hm
      cases hm
    rw [hne m hmd]
    exact h.noNames m hm

/-- An inode gets one more name, in an attached directory. -/
theorem addName {off : Nat} {name : Name} {r : Inode} (hd : att d = true)
    (hr : ino d = r) (hslot : ∀ e, r.ents[off]? = some e → e.inum = 0) (hn0 : n ≠ 0) (hname : isReal name = true)
    (hn : (ino n).type = .dir → att n = false ∧ real ino n = 0 ∧ F' n true) (hF : ∀ m b, F m b → F' m b) :
    TreeInv (update ino d { r with ents := putEntry r.ents off ⟨n, name⟩ }) att F' ∧
      ∀ m, real (update ino d { r with ents := putEntry r.ents off ⟨n, name⟩ }) m =
        real ino m + if m = n then 1 else 0 := by
  obtain ⟨htype, hs⟩ := h.attDir d hd
  rw [hr] at htype hs
  have hself : update ino d { r with ents := putEntry r.ents off ⟨n, name⟩ } d =
      { r with ents := putEntry r.ents off ⟨n, name⟩ } := update_self _ _ _
  have hne : ∀ m, m ≠ d → update ino d { r with ents := putEntry r.ents off ⟨n, name⟩ } m = ino m :=
    fun m hm => update_of_ne hm _ _
  have h2 : 2 ≤ off := hs.two_le fun e he => .inl (hslot e he)
  obtain ⟨hs', hp'⟩ := hs.putEntry h2 ⟨n, name⟩ fun _ => hname
  have hreal : ∀ m, real (update ino d { r with ents := putEntry r.ents off ⟨n, name⟩ }) m =
      real ino m + if m = n then 1 else 0 := by
    intro m
    have h1 := real_update ino (h.range_of_att hd) { r with ents := putEntry r.ents off ⟨n, name⟩ } m
    rw [hr] at h1
    rw [nameCount_putEntry fun e he => by simp [Dirent.names, hslot e he]] at h1
    have h3 : (if (⟨n, name⟩ : Dirent).names m = true then 1 else 0) = if m = n then 1 else 0 := by
      refine if_congr ?_ rfl rfl
      rw [Dirent.names_iff]
      exact ⟨fun hx => hx.1.symm, fun hx => ⟨hx.symm, hn0, hname⟩⟩
    omega
  have hnr : n ≠ ROOTINO := by
    rintro rfl
    have := (hn (h.attDir _ h.root.1).1).1
    rw [h.root.1] at this
    cases this
  refine ⟨h.setEntry hd hne ?_ ?_ ?_ hF ?_ ?_ ?_ ?_ hnr, hreal⟩
  · rw [hself]
    exact htype
  · rw [hself]
    exact hs'
  · rw [hself, hr, parentOf, parentOf, hp']
  · intro e he h0 hre
    rw [hself] at he
    rcases mem_putEntry he with rfl | he
    · exact .inr fun ht => ⟨true, (hn ht).2.2⟩
    · rw [hr]
      exact .inl he
  · intro m hm
    rw [hreal, if_neg hm, Nat.add_zero]
  · intro ht
    rw [hreal, if_pos rfl, (hn ht).2.1]
  · intro ha
    have := (hn (h.attDir n ha).1).1
    rw [ha] at this
    cases this

/-- A name is removed. -/
theorem removeName {off : Nat} {e : Dirent} {r : Inode} (hr : ino d = r)
    (he : r.ents[off]? = some e) (h0 : e.inum ≠ 0) (hre : isReal e.name = true)
    (hn : (ino e.inum).type = .dir → F' e.inum false) (hF : ∀ m b, F m b → F' m b) :
    TreeInv (update ino d { r with ents := putEntry r.ents off ⟨0, []⟩ }) att F' ∧
      ∀ m, real (update ino d { r with ents := putEntry r.ents off ⟨0, []⟩ }) m +
        (if m = e.inum then 1 else 0) = real ino m := by
  have hmem : e ∈ (ino d).ents := hr ▸ List.mem_of_getElem? he
  have hd : att d = true := by
    by_contra hn
    have := h.noNames d (by simpa using hn) e hmem h0
    rw [hre] at this
    cases this
  obtain ⟨htype, hs⟩ := h.attDir d hd
  rw [hr] at htype hs
  have hself : update ino d { r with ents := putEntry r.ents off ⟨0, []⟩ } d =
      { r with ents := putEntry r.ents off ⟨0, []⟩ } := update_self _ _ _
  have hne : ∀ m, m ≠ d → update ino d { r with ents := putEntry r.ents off ⟨0, []⟩ } m = ino m :=
    fun m hm => update_of_ne hm _ _
  have h2 : 2 ≤ off := hs.two_le fun e' he' => by
    rw [he] at he'
    cases he'
    exact .inr hre
  obtain ⟨hs', hp'⟩ := hs.putEntry h2 ⟨0, []⟩ fun hx => absurd rfl hx
  have hreal : ∀ m, real (update ino d { r with ents := putEntry r.ents off ⟨0, []⟩ }) m +
      (if m = e.inum then 1 else 0) = real ino m := by
    intro m
    have h1 := real_update ino (h.range_of_att hd) { r with ents := putEntry r.ents off ⟨0, []⟩ } m
    rw [hr] at h1
    dsimp only at h1
    have h3 := nameCount_removeEntry he m
    have h4 : (if e.names m = true then 1 else 0) = if m = e.inum then 1 else 0 := by
      refine if_congr ?_ rfl rfl
      rw [Dirent.names_iff]
      exact ⟨fun hx => hx.1.symm, fun hx => ⟨hx.symm, h0, hre⟩⟩
    omega
  have hnr : e.inum ≠ ROOTINO := by
    intro hx
    have h1 := h.real_pos hmem h0 hre
    rw [hx, h.root.2.2] at h1
    cases h1
  refine ⟨h.setEntry hd hne ?_ ?_ ?_ hF ?_ ?_ ?_ ?_ hnr, hreal⟩
  · rw [hself]
    exact htype
  · rw [hself]
    exact hs'
  · rw [hself, hr, parentOf, parentOf, hp']
  · intro e' he' h0' _
    rw [hself] at he'
    rcases mem_putEntry he' with rfl | he'
    · exact absurd rfl h0'
    · rw [hr]
      exact .inl he'
  · intro m hm
    have h1 := hreal m
    rw [if_neg hm] at h1
    omega
  · intro ht
    have h1 := hreal e.inum
    have h3 := h.nameOne _ ht
    omega
  · intro ha
    exact .inr (hn (h.attDir _ ha).1)

/-- A new directory is attached to its parent. -/
theorem attach (ht : (ino n).type = .dir) (hs : Shape n (ino n).ents)
    (hp : parentOf (ino n) = some d) (hd : att d = true) (hr : real ino n = 1) (hn : 0 < nameCount (ino d).ents n)
    (hF : ∀ m b, F m b → m ≠ n → F' m b) : TreeInv ino (update att n true) F' := by
  have hatt : ∀ m, att m = true → update att n true m = true := by
    intro m hm
    by_cases hmn : m = n
    · rw [hmn, update_self]
    · rwa [update_of_ne hmn]
  have hold : ∀ m, m ≠ n → update att n true m = att m := fun m hm => update_of_ne hm _ _
  refine ⟨h.range, h.ents, ⟨hatt _ h.root.1, h.root.2⟩, fun m hm => ?_, fun m e hm h0 hre hdir => ?_, h.nameOne,
    fun m hm => ?_, fun m k hm hk => ?_, fun m hm => ?_⟩
  · by_cases hmn : m = n
    · subst hmn
      exact ⟨ht, hs⟩
    · rw [hold m hmn] at hm
      exact h.attDir m hm
  · by_cases hen : e.inum = n
    · left
      rw [hen]
      refine ⟨update_self _ _ _, ?_⟩
      have hnames : e.names n = true := Dirent.names_iff.mpr ⟨hen, h0, hre⟩
      rw [hp, eq_of_real_le_one (h.range_of_att hd) (h.range_of_ents hm) (Nat.le_of_eq hr) hn (nameCount_pos hm hnames)]
    · rw [hold _ hen]
      exact (h.nameAtt m e hm h0 hre hdir).imp_right fun ⟨b, hb⟩ => ⟨b, hF _ b hb hen⟩
  · by_cases hmn : m = n
    · subst hmn
      exact .inr (.inl hr)
    · rw [hold m hmn] at hm
      exact (h.attName m hm).imp_right fun h1 => h1.imp_right fun h2 => hF m false h2 hmn
  · by_cases hmn : m = n
    · subst hmn
      rw [hp] at hk
      cases hk
      exact hatt d hd
    · rw [hold m hmn] at hm
      exact hatt k (h.attParent m k hm hk)
  · have hmn : m ≠ n := by
      rintro rfl
      rw [update_self] at hm
      cases hm
    rw [hold m hmn] at hm
    exact h.noNames m hm

/-- An empty directory without a name is detached from its parent. -/
theorem detach (ha : att n = true) (hp : parentOf (ino n) = some d) (hdn : d ≠ n)
    (hr : real ino n = 0) (he : ∀ e ∈ (ino n).ents, e.inum ≠ 0 → isReal e.name = false)
    (hF : ∀ m b, F m b → m ≠ n → F' m b) (hpar : ∀ m b, F m b → m ≠ n → parentOf (ino m) ≠ some n) :
    TreeInv ino (update att n false) F' := by
  have hatt : ∀ m, update att n false m = true → att m = true ∧ m ≠ n := by
    intro m hm
    by_cases hmn : m = n
    · rw [hmn, update_self] at hm
      cases hm
    · rw [update_of_ne hmn] at hm
      exact ⟨hm, hmn⟩
  have hold : ∀ m, m ≠ n → update att n false m = att m := fun m hm => update_of_ne hm _ _
  have hroot : ROOTINO ≠ n := by
    rintro rfl
    rw [h.root.2.1] at hp
    exact hdn (Option.some.inj hp).symm
  -- A directory attached to `n` would have its name in `n`.
  have hkids : ∀ m, att m = true → m ≠ n → parentOf (ino m) ≠ some n := by
    intro m hm hmn hpm
    rcases h.attName m hm with rfl | h1 | h2
    · rw [h.root.2.1] at hpm
      exact hroot (Option.some.inj hpm)
    · obtain ⟨k, hk, hpos⟩ : ∃ k ∈ Finset.range NINODES, nameCount (ino k).ents m ≠ 0 := by
        by_contra hn
        push Not at hn
        rw [real, Finset.sum_eq_zero hn] at h1
        cases h1
      obtain ⟨e, hek, hem⟩ := List.countP_pos_iff.mp (Nat.pos_of_ne_zero hpos)
      obtain ⟨rfl, h0, hre⟩ := Dirent.names_iff.mp hem
      rcases h.nameAtt k e hek h0 hre (h.attDir _ hm).1 with ⟨-, h3⟩ | ⟨b, hb⟩
      · rw [hpm] at h3
        cases h3
        rw [he e hek h0] at hre
        cases hre
      · exact hpar _ b hb hmn hpm
    · exact hpar m false h2 hmn hpm
  refine ⟨h.range, h.ents, ⟨?_, h.root.2⟩, fun m hm => h.attDir m (hatt m hm).1, fun m e hm h0 hre hdir => ?_, h.nameOne,
    fun m hm => ?_, fun m k hm hk => ?_, fun m hm => ?_⟩
  · rw [hold _ hroot]
    exact h.root.1
  · have hen : e.inum ≠ n := by
      intro hen
      have := h.real_pos hm h0 hre
      rw [hen] at this
      omega
    rw [hold _ hen]
    exact (h.nameAtt m e hm h0 hre hdir).imp_right fun ⟨b, hb⟩ => ⟨b, hF _ b hb hen⟩
  · obtain ⟨h1, h2⟩ := hatt m hm
    exact (h.attName m h1).imp_right fun h3 => h3.imp_right fun h4 => hF m false h4 h2
  · obtain ⟨h1, h2⟩ := hatt m hm
    have hkn : k ≠ n := by
      rintro rfl
      exact hkids m h1 h2 hk
    rw [hold k hkn]
    exact h.attParent m k h1 hk
  · by_cases hmn : m = n
    · subst hmn
      exact he
    · rw [hold m hmn] at hm
      exact h.noNames m hm

end TreeInv

end Xv6.Fs
