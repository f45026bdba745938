import Xv6.Fs.Exact

/-!
# Calls that fail

A call that is run without interference and returns -1 leaves everything as it was: the inodes and what they hold, the
names, the descriptors and the current directory of the process.

`Frame s₀ s T W` compares the state `s` inside a call with the state `s₀` before it: the process has the references `T`
besides those that were there, and `W` is what can be seen of the inodes. An inode that looks different than before is
one that the process has a reference to. The state before the call is `Settled`: every inode with a reference is
allocated, and every allocated inode has a link or a reference. Then `iput` frees nothing on the way.
-/

namespace Xv6.Fs

open Lib (Prog Machine)
open FsState (setTab_self setTab_of_ne setTab_inum incRef_inum decRef_inum incRef_ref pos_of_incRef iget_cases)
open Function (update update_eq_self update_eq_self_iff update_idem update_of_ne update_self)

variable {P : Type} [DecidableEq P]
variable {path : List Char} {type : InodeType} {r : Inode} {d : List UInt8} {trunc : Bool} {name : Name}

/-! ## What can be seen -/

/-- What can be seen of the inodes: nothing of those that are free. -/
def FsState.view (s : FsState P) (n : Nat) : Option (Inode × List UInt8) :=
  if (s.ino n).type = .free then none else some (s.ino n, s.data n)

theorem FsState.of_view {s : FsState P} {n : Nat} (h : s.view n = some (r, d)) : s.ino n = r ∧ s.data n = d := by
  rw [FsState.view] at h
  split at h
  · cases h
  · cases h
    exact ⟨rfl, rfl⟩

/-- The inode of entry `i` is freed, and a reference to it is dropped. -/
def FsState.freed (s : FsState P) (i : Fin NINODE) : FsState P :=
  { s with
    ino := update s.ino (s.tab i).inum { s.inode i with type := .free, ents := [] }
    data := update s.data (s.tab i).inum []
    tab := update s.tab i { s.tab i with ref := (s.tab i).ref - 1, valid := false, lock := none } }

/-- The inode that a path names, from inode `n` on. -/
def resolve (view : Nat → Option (Inode × List UInt8)) : Nat → Nat → List Char → Option Nat
  | 0, n, _ => some n
  | fuel + 1, n, path =>
    match skipelem path with
    | none => some n
    | some (name, path) => do
      let (r, _) ← view n
      if r.type = .dir then
        let off ← findEntry r.ents name
        let e ← r.ents[off]?
        resolve view fuel e.inum path
      else none

/-- The inode that a path names in a state. -/
def FsState.names (s : FsState P) (n : Nat) (path : List Char) : Option Nat := resolve s.view path.length n path

/-- A state between calls. -/
structure Settled (s : FsState P) : Prop where
  uniq : ∀ i j, 0 < (s.tab i).ref → 0 < (s.tab j).ref → (s.tab i).inum = (s.tab j).inum → i = j
  alloc : ∀ i, 0 < (s.tab i).ref → (s.inode i).type ≠ .free
  orphan : ∀ n, (s.ino n).type ≠ .free → (s.ino n).nlink = 0 → ∃ i, (s.tab i).inum = n ∧ 0 < (s.tab i).ref
  cwd : ∀ p i, s.cwd p = some i → 0 < (s.tab i).ref
  short : ∀ n, -2 ^ 15 ≤ (s.ino n).nlink ∧ (s.ino n).nlink < 2 ^ 15

/-! ## Inside a call -/

/-- The state inside a call, compared with that before it. -/
structure Frame (s₀ s : FsState P) (T : Multiset (Fin NINODE × Nat)) (W : Nat → Option (Inode × List UInt8)) : Prop where
  ref : ∀ i, (s.tab i).ref = (s₀.tab i).ref + T.countP fun t => t.1 = i
  inum : ∀ i, 0 < (s₀.tab i).ref → (s.tab i).inum = (s₀.tab i).inum
  uniq : ∀ i j, 0 < (s.tab i).ref → 0 < (s.tab j).ref → (s.tab i).inum = (s.tab j).inum → i = j
  tok : ∀ t ∈ T, (s.tab t.1).inum = t.2
  view : s.view = W
  held : ∀ n, W n ≠ s₀.view n → ∃ i, (i, n) ∈ T ∧ (s.tab i).valid = true
  file : s.file = s₀.file
  ofile : s.ofile = s₀.ofile
  cwd : s.cwd = s₀.cwd

/-- The process has a reference to every inode that looks different than before. -/
def Holds (s₀ : FsState P) (T : Multiset (Fin NINODE × Nat)) (W : Nat → Option (Inode × List UInt8)) : Prop :=
  ∀ n, W n ≠ s₀.view n → ∃ i, (i, n) ∈ T

theorem Holds.cons {s₀ : FsState P} {T : Multiset (Fin NINODE × Nat)} {W : Nat → Option (Inode × List UInt8)}
    (hT : Holds s₀ T W) (t : Fin NINODE × Nat) : Holds s₀ (t ::ₘ T) W := by
  intro n hn
  obtain ⟨i, hi⟩ := hT n hn
  exact ⟨i, Multiset.mem_cons_of_mem hi⟩

theorem Holds.update {s₀ : FsState P} {T : Multiset (Fin NINODE × Nat)} {i : Fin NINODE} {n : Nat} (hi : (i, n) ∈ T)
    (w : Option (Inode × List UInt8)) : Holds s₀ T (update s₀.view n w) := by
  intro m hm
  by_cases hmn : m = n
  · exact ⟨i, hmn ▸ hi⟩
  · rw [update_of_ne hmn] at hm
    exact absurd rfl hm

theorem Holds.same {s₀ : FsState P} {T : Multiset (Fin NINODE × Nat)} : Holds s₀ T s₀.view := fun _ hn => absurd rfl hn

variable {s₀ s s' : FsState P} {T : Multiset (Fin NINODE × Nat)} {W : Nat → Option (Inode × List UInt8)} {p : P}
  {i j : Fin NINODE} {n : Nat}

namespace Frame

section

variable (h : Frame s₀ s T W)
include h

theorem ref_pos (ht : (i, n) ∈ T) : 0 < (s.tab i).ref := by
  have := Multiset.countP_pos_of_mem (p := fun t : Fin NINODE × Nat => t.1 = i) ht rfl
  rw [h.ref]
  omega

/-- What changes in the table is not about references. -/
theorem setLock {b : Bool} (hb : (s.tab i).valid = true → b = true) (l : Option P) :
    Frame s₀ (s.setTab i { s.tab i with valid := b, lock := l }) T W := by
  have hinum : ∀ j, ((s.setTab i { s.tab i with valid := b, lock := l }).tab j).inum = (s.tab j).inum := setTab_inum rfl
  have href : ∀ j, ((s.setTab i { s.tab i with valid := b, lock := l }).tab j).ref = (s.tab j).ref := by
    intro j
    by_cases hj : j = i
    · rw [hj, setTab_self]
    · rw [setTab_of_ne _ hj]
  refine ⟨fun j => ?_, fun j hj => ?_, fun j k hj hk hjk => ?_, fun t ht => ?_, h.view, fun m hm => ?_, h.file, h.ofile,
    h.cwd⟩
  · rw [href]
    exact h.ref j
  · rw [hinum]
    exact h.inum j hj
  · rw [href] at hj hk
    rw [hinum, hinum] at hjk
    exact h.uniq j k hj hk hjk
  · rw [hinum]
    exact h.tok t ht
  · obtain ⟨j, hj, hv⟩ := h.held m hm
    refine ⟨j, hj, ?_⟩
    by_cases he : j = i
    · subst he
      rw [setTab_self]
      exact hb hv
    · rw [setTab_of_ne _ he]
      exact hv

theorem incRef (hi : 0 < (s.tab i).ref) (hn : (s.tab i).inum = n) : Frame s₀ (s.incRef i) ((i, n) ::ₘ T) W := by
  refine ⟨fun j => ?_, fun j hj => ?_, fun j k hj hk hjk => ?_, fun t ht => ?_, h.view, fun m hm => ?_, h.file, h.ofile,
    h.cwd⟩
  · rw [incRef_ref, h.ref, Multiset.countP_cons]
    simp only [eq_comm]
    omega
  · rw [incRef_inum]
    exact h.inum j hj
  · rw [incRef_inum, incRef_inum] at hjk
    exact h.uniq j k (pos_of_incRef hi hj) (pos_of_incRef hi hk) hjk
  · rw [incRef_inum]
    rcases Multiset.mem_cons.mp ht with rfl | ht
    · exact hn
    · exact h.tok t ht
  · obtain ⟨j, hj, hv⟩ := h.held m hm
    refine ⟨j, Multiset.mem_cons_of_mem hj, ?_⟩
    by_cases he : j = i
    · subst he
      rw [FsState.incRef, setTab_self]
      exact hv
    · rw [FsState.incRef, setTab_of_ne _ he]
      exact hv

theorem recycle (hi : (s.tab i).ref = 0) (hn : ∀ j, 0 < (s.tab j).ref → (s.tab j).inum ≠ n) :
    Frame s₀ (s.setTab i ⟨n, 1, false, (s.tab i).lock⟩) ((i, n) ::ₘ T) W := by
  have hne : ∀ j m, (j, m) ∈ T → j ≠ i := by
    rintro j m hj rfl
    have := h.ref_pos hj
    omega
  refine ⟨fun j => ?_, fun j hj => ?_, fun j k hj hk hjk => ?_, fun t ht => ?_, h.view, fun m hm => ?_, h.file, h.ofile,
    h.cwd⟩
  · have href := h.ref j
    rw [Multiset.countP_cons]
    by_cases he : j = i
    · subst he
      rw [setTab_self, if_pos rfl]
      dsimp only
      omega
    · rw [setTab_of_ne _ he, if_neg (Ne.symm he)]
      exact href
  · have he : j ≠ i := by
      rintro rfl
      have := h.ref j
      omega
    rw [setTab_of_ne _ he]
    exact h.inum j hj
  · by_cases h1 : j = i <;> by_cases h2 : k = i
    · rw [h1, h2]
    · rw [h1, setTab_self, setTab_of_ne _ h2] at hjk
      rw [setTab_of_ne _ h2] at hk
      exact absurd hjk.symm (hn k hk)
    · rw [h2, setTab_self, setTab_of_ne _ h1] at hjk
      rw [setTab_of_ne _ h1] at hj
      exact absurd hjk (hn j hj)
    · rw [setTab_of_ne _ h1] at hj hjk
      rw [setTab_of_ne _ h2] at hk hjk
      exact h.uniq j k hj hk hjk
  · rcases Multiset.mem_cons.mp ht with rfl | ht
    · rw [setTab_self]
    · rw [setTab_of_ne _ (hne t.1 t.2 ht)]
      exact h.tok t ht
  · obtain ⟨j, hj, hv⟩ := h.held m hm
    refine ⟨j, Multiset.mem_cons_of_mem hj, ?_⟩
    rw [setTab_of_ne _ (hne j m hj)]
    exact hv

theorem iget (hs : s.iget n = some (i, s')) : Frame s₀ s' ((i, n) ::ₘ T) W := by
  rcases iget_cases hs with ⟨hi, hn, rfl⟩ | ⟨hi, hn, rfl⟩
  · exact h.incRef hi hn
  · exact h.recycle hi hn

omit h in
/-- One reference is dropped, and the entry may be valid no more if that was the last one. -/
theorem drop (h : Frame s₀ s ((i, n) ::ₘ T) W) (hT : Holds s₀ T W) (hne : ∀ j, j ≠ i → s'.tab j = s.tab j)
    (hi : (s'.tab i).inum = (s.tab i).inum ∧ (s'.tab i).ref = (s.tab i).ref - 1)
    (hv : (s'.tab i).valid = (s.tab i).valid ∨ (s.tab i).ref = 1) (hview : s'.view = s.view) (hfile : s'.file = s.file)
    (hofile : s'.ofile = s.ofile) (hcwd : s'.cwd = s.cwd) : Frame s₀ s' T W := by
  have hpos := h.ref_pos (Multiset.mem_cons_self (i, n) T)
  have hinum : ∀ j, (s'.tab j).inum = (s.tab j).inum := by
    intro j
    by_cases hj : j = i
    · rw [hj, hi.1]
    · rw [hne j hj]
  have hle : ∀ j, 0 < (s'.tab j).ref → 0 < (s.tab j).ref := by
    intro j hj'
    by_cases hj : j = i
    · rw [hj]
      exact hpos
    · rwa [hne j hj] at hj'
  refine ⟨fun j => ?_, fun j hj => ?_, fun j k hj hk hjk => ?_, fun t ht => ?_, ?_, fun m hm => ?_, hfile.trans h.file,
    hofile.trans h.ofile, hcwd.trans h.cwd⟩
  · have href := h.ref j
    rw [Multiset.countP_cons] at href
    by_cases hj : j = i
    · subst hj
      rw [if_pos rfl] at href
      omega
    · rw [if_neg (Ne.symm hj)] at href
      rw [hne j hj]
      exact href
  · rw [hinum]
    exact h.inum j hj
  · rw [hinum, hinum] at hjk
    exact h.uniq j k (hle j hj) (hle k hk) hjk
  · rw [hinum]
    exact h.tok t (Multiset.mem_cons_of_mem ht)
  · rw [hview]
    exact h.view
  · -- the reference that is left is to the same entry
    obtain ⟨j, hj, hjv⟩ := h.held m hm
    obtain ⟨k, hk⟩ := hT m hm
    have hk' : (k, m) ∈ (i, n) ::ₘ T := Multiset.mem_cons_of_mem hk
    have he : j = k := h.uniq j k (h.ref_pos hj) (h.ref_pos hk') ((h.tok _ hj).trans (h.tok _ hk').symm)
    subst he
    refine ⟨j, hk, ?_⟩
    by_cases hji : j = i
    · subst hji
      rcases hv with hv | hv
      · rw [hv]
        exact hjv
      · have href := h.ref j
        have hcount := Multiset.countP_pos_of_mem (p := fun t : Fin NINODE × Nat => t.1 = j) hk rfl
        rw [Multiset.countP_cons, if_pos rfl] at href
        omega
    · rw [hne j hji]
      exact hjv

/-- An inode changes to which the process has a reference. -/
theorem write (ht : (i, n) ∈ T) (hv : (s.tab i).valid = true) (r : Inode) (d : List UInt8) :
    Frame s₀ ((s.setIno n r).setData n d) T (update W n (if r.type = .free then none else some (r, d))) := by
  refine ⟨h.ref, h.inum, h.uniq, h.tok, ?_, fun m hm => ?_, h.file, h.ofile, h.cwd⟩
  · funext m
    by_cases hm : m = n
    · simp [FsState.view, FsState.setData, FsState.setIno, hm]
    · simp [FsState.view, FsState.setData, FsState.setIno, hm, ← h.view]
  · by_cases hmn : m = n
    · exact ⟨i, hmn ▸ ht, hv⟩
    · rw [update_of_ne hmn] at hm
      exact h.held m hm

/-- A field of an inode changes. -/
theorem modify (ht : (i, n) ∈ T) (hv : (s.tab i).valid = true)
    (hW : W n = some (r, d)) (f : Inode → Inode) (hf : (f r).type ≠ .free) :
    Frame s₀ (s.modify i f) T (update W n (some (f r, d))) := by
  have hn : (s.tab i).inum = n := h.tok _ ht
  have hino : s.ino n = r ∧ s.data n = d := FsState.of_view (by rw [h.view]; exact hW)
  have hs : s.modify i f = (s.setIno n (f r)).setData n d := by
    rw [FsState.modify, FsState.inode, hn, hino.1, FsState.setData, ← hino.2]
    simp [FsState.setIno]
  have hw := h.write ht hv (f r) d
  rw [if_neg hf] at hw
  rw [hs]
  exact hw

end

/-- The last reference is dropped, and the inode is freed. -/
theorem freed (h : Frame s₀ s ((i, n) ::ₘ T) W) (hv : (s.tab i).valid = true) (h1 : (s.tab i).ref = 1)
    (hT : Holds s₀ T (update W n none)) : Frame s₀ (s.freed i) T (update W n none) := by
  have hmem : (i, n) ∈ (i, n) ::ₘ T := Multiset.mem_cons_self _ _
  obtain rfl : (s.tab i).inum = n := h.tok _ hmem
  have hw := h.write hmem hv { s.inode i with type := .free, ents := [] } []
  rw [if_pos rfl] at hw
  refine hw.drop hT (fun j hj => update_of_ne hj _ _) ?_ (.inr h1) rfl rfl rfl rfl
  simp [FsState.freed, FsState.setData, FsState.setIno]

end Frame

/-! ## Running a program -/

/-- Nobody else uses the file table for a moment. -/
def Alone : FsCmd P → Nat → Prop
  | .fopen _, ch => ch = 0
  | _, _ => True

/-- What holds of every end of a program that process `p` runs alone. -/
abbrev alone {α : Type} (p : P) (f : FsProg P α) (s : FsState P) (Q : α → FsState P → Prop) : Prop :=
  (fsMachine P).wlp Alone p f s Q

section Steps

variable {α : Type} {Q : α → FsState P → Prop}

end Steps

section Paths

variable {Q : Option (Fin NINODE × Name) → FsState P → Prop}

section

variable (hs₀ : Settled s₀) (h : Frame s₀ s ((i, n) ::ₘ T) W) (hT : Holds s₀ T W) (hnone : ∀ s', Frame s₀ s' T W → Q none s')
include hs₀ h hT hnone

end

end Paths

section

variable (hs₀ : Settled s₀) (h : Frame s₀ s 0 s₀.view)
include hs₀ h

end

/-! ## Calls that make inodes -/

section

variable (hs₀ : Settled s₀) (h : Frame s₀ s ((i, n) ::ₘ T) (update s₀.view n (some (r, d)))) (hn₀ : s₀.view n = none)
include hs₀ h hn₀

end

/-- Only the inode of entry `j` has changed. -/
structure Elsewhere (j : Fin NINODE) (s s' : FsState P) : Prop where
  inum : ∀ i, (s'.tab i).inum = (s.tab i).inum
  ino : ∀ n, n ≠ (s.tab j).inum → s'.ino n = s.ino n
  file : s'.file = s.file
  ofile : s'.ofile = s.ofile

namespace Elsewhere

variable {s₁ s₂ s₃ : FsState P}

theorem trans (h : Elsewhere j s₁ s₂) (h' : Elsewhere j s₂ s₃) : Elsewhere j s₁ s₃ := by
  refine ⟨fun i => (h'.inum i).trans (h.inum i), fun n hn => ?_, h'.file.trans h.file, h'.ofile.trans h.ofile⟩
  rw [h'.ino n (by rw [h.inum]; exact hn), h.ino n hn]

theorem setTab (s : FsState P) {e : ItabEntry P} (he : e.inum = (s.tab i).inum) : Elsewhere j s (s.setTab i e) :=
  ⟨setTab_inum he, fun _ _ => rfl, rfl, rfl⟩

theorem modify (s : FsState P) (f : Inode → Inode) : Elsewhere j s (s.modify j f) :=
  ⟨fun _ => rfl, fun _ hn => update_of_ne hn _ _, rfl, rfl⟩

end Elsewhere

/-- Before the call. -/
theorem Frame.start (hs : Settled s) : Frame s s 0 s.view :=
  ⟨fun _ => rfl, fun _ _ => rfl, hs.uniq, fun _ ht => absurd ht (Multiset.notMem_zero _), rfl, fun _ hn => absurd rfl hn,
    rfl, rfl, rfl⟩

/-- The end of a program that is run without any choices. -/
def endOf (p : P) (f : FsProg P Bool) (s : FsState P) : Option (Bool × FsState P) :=
  match (fsMachine P).run (fun _ _ _ => true) p f [] s with
  | some (.ret b, s') => if s'.panicked.isNone then some (b, s') else none
  | _ => none

end Xv6.Fs
