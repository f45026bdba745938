import Mathlib.Algebra.BigOperators.Ring.Finset
import Xv6.Fs.Files

/-!
# The inode table

The references to entries of the inode table alone. They are balanced whatever has become of the inodes: neither locks
nor the contents of inodes matter, and no condition on the run is needed. `Balanced` says that `ref` of every entry is
the number of references to it, and that a process in a call has at most three.

Under `room` the panic of `iget` is not reached: there are never more references than entries.
-/

namespace Xv6.Fs

open Lib (Prog Machine Logic sum_change)
open FsState (setTab_self setTab_of_ne setTab_inum incRef_inum decRef_inum incRef_ref pos_of_incRef iget_cases
  iget_eq_none)
open Function (update update_eq_self update_of_ne update_self)

/-! ## What a process has -/

/-- The references of a process in a call. -/
@[ext]
structure Refs (P : Type) where
  tok : Multiset (Fin NINODE)
  /-- The one of the current directory is among them. -/
  taken : Bool
  /-- The child being made by `kfork`. -/
  child : Option P
  /-- The process is known to be runnable. -/
  up : Bool

namespace Refs

variable {P : Type}

def empty : Refs P := ⟨0, false, none, false⟩

def give (x : Refs P) (i : Fin NINODE) : Refs P := { x with tok := i ::ₘ x.tok }

def drop (x : Refs P) (i : Fin NINODE) : Refs P := { x with tok := x.tok.erase i }

/-- Whether a process that has `x` may make a step. -/
def pre (x : Refs P) : FsCmd P → Prop
  | .iget _ | .dirlookup _ _ | .fclose _ => x.tok.card ≤ 2
  | .idupCwd | .cwd => x.tok.card ≤ 2 ∧ x.taken = false
  | .setCwd i => i ∈ x.tok ∧ x.taken = true
  | .iputTest i | .iputDrop i | .fopen i => i ∈ x.tok
  | .allocproc _ => x.child = none
  | .forkCwd np => x.child = some np ∧ x.taken = false
  | .exit => x.tok = 0 ∧ x.taken = true ∧ x.child = none
  | .panic e => e ≠ .igetNoInodes
  | _ => True

/-- What it has after the step. -/
def after (x : Refs P) : (c : FsCmd P) → c.R → Refs P
  | .iget _, i | .idupCwd, i => x.give i
  | .cwd, i => { x.give i with taken := true }
  | .setCwd i, _ => { x.drop i with taken := false }
  | .dirlookup _ _, some (_, i) => x.give i
  | .iputTest i, false => x.drop i
  | .iputDrop i, _ => x.drop i
  | .fopen i, some _ => x.drop i
  | .fclose _, some i => x.give i
  | .allocproc np, true => { x with child := some np }
  | .forkCwd _, _ => { x with child := none }
  | .exit, _ => empty
  | _, _ => x

/-- The references to an entry of a process that stands in `cwd`. -/
def weight (x : Refs P) (cwd : Option (Fin NINODE)) (i : Fin NINODE) : Nat :=
  x.tok.count i + if x.taken = false ∧ cwd = some i then 1 else 0

variable {x : Refs P} {cwd : Option (Fin NINODE)} {i j : Fin NINODE}

theorem weight_give (j : Fin NINODE) : (x.give i).weight cwd j = x.weight cwd j + if j = i then 1 else 0 := by
  rw [weight, weight, give, Multiset.count_cons]
  dsimp only
  omega

theorem weight_drop (hi : i ∈ x.tok) (j : Fin NINODE) :
    (x.drop i).weight cwd j + (if j = i then 1 else 0) = x.weight cwd j := by
  have h : ((x.drop i).give i).weight cwd j = (x.drop i).weight cwd j + if j = i then 1 else 0 := weight_give j
  rw [show (x.drop i).give i = x from Refs.ext (Multiset.cons_erase hi) rfl rfl rfl] at h
  exact h.symm

end Refs

variable {P : Type} [DecidableEq P] [Fintype P]

/-! ## The invariant -/

/-- The references to an entry. -/
def refCount (s : FsState P) (g : P → Refs P) (i : Fin NINODE) : Nat := ∑ p, (g p).weight (s.cwd p) i + files s i

/-- The open files. -/
def openFiles (s : FsState P) : Nat := (Finset.univ.filter fun f => 0 < (s.file f).ref).card

/-- The processes. -/
def procs (s : FsState P) : Nat := (Finset.univ.filter fun p => s.proc p ≠ .unused).card

/-- There is room in the inode table for every open file and four references of every process. -/
def Room (s : FsState P) (_ : P) : FsCmd P → Prop
  | .iget _ | .dirlookup _ _ => openFiles s + 4 * procs s ≤ NINODE
  | _ => True

/-- **References are balanced.** -/
structure Balanced (room : Bool) (s : FsState P) (g : P → Refs P) : Prop where
  ref : ∀ i, (s.tab i).ref = refCount s g i
  uniq : ∀ i j, 0 < (s.tab i).ref → 0 < (s.tab j).ref → (s.tab i).inum = (s.tab j).inum → i = j
  few : ∀ p, (g p).tok.card ≤ 3
  file : ∀ f, (s.file f).ref = 0 → (s.file f).ip = none
  rest : ∀ p, s.proc p ≠ .runnable → s.cwd p = none ∧ g p = Refs.empty
  child : ∀ p np, (g p).child = some np → s.proc np = .used
  childOne : ∀ p q np, (g p).child = some np → (g q).child = some np → p = q
  quiet : room = true → s.panicked ≠ some .igetNoInodes

namespace Balanced

variable {room : Bool} {s s' : FsState P} {g : P → Refs P} {p : P} {x : Refs P} {i j : Fin NINODE}

theorem runnable (h : Balanced room s g) (hu : (g p).up = true) : s.proc p = .runnable := by
  by_contra hn
  rw [(h.rest p hn).2] at hu
  cases hu

theorem refCount_update (h : ∀ q, q ≠ p → s'.cwd q = s.cwd q) (i : Fin NINODE) :
    refCount s' (update g p x) i + ((g p).weight (s.cwd p) i + files s i) =
      refCount s g i + (x.weight (s'.cwd p) i + files s' i) := by
  have hs := sum_change Finset.univ (fun q => (g q).weight (s.cwd q) i)
    (fun q => (update g p x q).weight (s'.cwd q) i) p (Finset.mem_univ p) fun q hq => by
      simp only [update_of_ne hq, h q hq]
  simp only [update_self] at hs
  unfold refCount
  omega

/-- A step after which only process `p` has something else, and all processes are in the same states. -/
theorem step (h : Balanced room s g) (hp : s.proc p = .runnable)
    (href : ∀ i, (s'.tab i).ref + ((g p).weight (s.cwd p) i + files s i) =
      (s.tab i).ref + (x.weight (s'.cwd p) i + files s' i))
    (huniq : ∀ i j, 0 < (s'.tab i).ref → 0 < (s'.tab j).ref → (s'.tab i).inum = (s'.tab j).inum → i = j)
    (hcwd : ∀ q, q ≠ p → s'.cwd q = s.cwd q) (hproc : s'.proc = s.proc)
    (hfile : ∀ f, (s'.file f).ref = 0 → (s'.file f).ip = none) (hcard : x.tok.card ≤ 3) (hchild : x.child = (g p).child)
    (hquiet : room = true → s'.panicked ≠ some .igetNoInodes) : Balanced room s' (update g p x) := by
  have hg : ∀ q, (update g p x q).child = (g q).child := by
    intro q
    by_cases hq : q = p
    · rw [hq, update_self, hchild]
    · rw [update_of_ne hq]
  refine ⟨fun i => ?_, huniq, fun q => ?_, hfile, fun q hq => ?_, fun q np => ?_, fun q q' np => ?_, hquiet⟩
  · have h1 : refCount s' (update g p x) i + ((g p).weight (s.cwd p) i + files s i) =
        refCount s g i + (x.weight (s'.cwd p) i + files s' i) := refCount_update hcwd i
    have h2 := href i
    rw [h.ref i] at h2
    omega
  · by_cases hq : q = p
    · rw [hq, update_self]
      exact hcard
    · rw [update_of_ne hq]
      exact h.few q
  · rw [hproc] at hq
    have hne : q ≠ p := by
      rintro rfl
      exact hq hp
    rw [update_of_ne hne, hcwd q hne]
    exact h.rest q hq
  · rw [hg, hproc]
    exact h.child q np
  · rw [hg, hg]
    exact h.childOne q q' np

/-- A step that leaves all references alone. -/
theorem same (h : Balanced room s g) (href : ∀ i, (s'.tab i).ref = (s.tab i).ref ∧ (s'.tab i).inum = (s.tab i).inum)
    (hcwd : s'.cwd = s.cwd) (hproc : s'.proc = s.proc)
    (hfile : ∀ f, (s'.file f).ip = (s.file f).ip ∧ ((s'.file f).ref = 0 → (s.file f).ip = none))
    (hquiet : room = true → s'.panicked ≠ some .igetNoInodes) : Balanced room s' g := by
  refine ⟨fun i => ?_, fun i j => ?_, h.few, fun f hf => ?_, ?_, ?_, h.childOne, hquiet⟩
  · have hfiles : files s' i = files s i := by
      unfold files
      simp only [(hfile _).1]
    rw [(href i).1, h.ref i, refCount, refCount, hfiles, hcwd]
  · rw [(href i).1, (href i).2, (href j).1, (href j).2]
    exact h.uniq i j
  · rw [(hfile f).1]
    exact (hfile f).2 hf
  · rw [hproc, hcwd]
    exact h.rest
  · rw [hproc]
    exact h.child

/-! ## References are made and dropped -/

theorem ref_pos (h : Balanced room s g) (hw : 0 < (g p).weight (s.cwd p) i) : 0 < (s.tab i).ref := by
  have h1 := Finset.single_le_sum (f := fun q => (g q).weight (s.cwd q) i) (fun _ _ => Nat.zero_le _) (Finset.mem_univ p)
  rw [h.ref, refCount]
  omega

theorem weight_pos_of_mem (hi : i ∈ x.tok) (c : Option (Fin NINODE)) : 0 < x.weight c i := by
  have := Multiset.count_pos.mpr hi
  unfold Refs.weight
  omega

section

variable (h : Balanced room s g) (hu : (g p).up = true) (hc : (g p).tok.card ≤ 2)
include h hu hc

/-- A reference to an entry that is in use. -/
theorem incRef (hi : 0 < (s.tab i).ref) : Balanced room (s.incRef i) (update g p ((g p).give i)) := by
  refine h.step (h.runnable hu) (fun j => ?_) (fun j k hj hk hjk => ?_) (fun _ _ => rfl) rfl h.file ?_ rfl h.quiet
  · rw [Refs.weight_give, incRef_ref]
    show _ = _ + ((g p).weight (s.cwd p) j + _ + files s j)
    omega
  · rw [incRef_inum, incRef_inum] at hjk
    exact h.uniq j k (pos_of_incRef hi hj) (pos_of_incRef hi hk) hjk
  · rw [Refs.give, Multiset.card_cons]
    omega

/-- A reference to an inode that had no entry. -/
theorem recycle (hi : (s.tab i).ref = 0) {n : Nat} (hn : ∀ j, 0 < (s.tab j).ref → (s.tab j).inum ≠ n) :
    Balanced room (s.setTab i ⟨n, 1, false, (s.tab i).lock⟩) (update g p ((g p).give i)) := by
  refine h.step (h.runnable hu) (fun j => ?_) (fun j k hj hk hjk => ?_) (fun _ _ => rfl) rfl h.file ?_ rfl h.quiet
  · rw [Refs.weight_give]
    show _ = _ + ((g p).weight (s.cwd p) j + _ + files s j)
    by_cases he : j = i
    · rw [he, setTab_self, if_pos rfl]
      dsimp only
      omega
    · rw [setTab_of_ne _ he, if_neg he]
      omega
  · by_cases h1 : j = i <;> by_cases h2 : k = i
    · rw [h1, h2]
    · rw [h1, setTab_self, setTab_of_ne _ h2] at hjk
      rw [setTab_of_ne _ h2] at hk
      exact absurd hjk.symm (hn k hk)
    · rw [h2, setTab_self, setTab_of_ne _ h1] at hjk
      rw [setTab_of_ne _ h1] at hj
      exact absurd hjk (hn j hj)
    · rw [setTab_of_ne _ h1] at hj hjk
      rw [setTab_of_ne _ h2] at hk hjk
      exact h.uniq j k hj hk hjk
  · rw [Refs.give, Multiset.card_cons]
    omega

theorem iget {n : Nat} (hs : s.iget n = some (i, s')) : Balanced room s' (update g p ((g p).give i)) := by
  rcases iget_cases hs with ⟨hi, -, rfl⟩ | ⟨hi, hn, rfl⟩
  · exact h.incRef hu hc hi
  · exact h.recycle hu hc hi hn

end

/-- A reference is dropped. -/
theorem decRef (h : Balanced room s g) (hu : (g p).up = true) (hi : i ∈ (g p).tok) :
    Balanced room (s.decRef i) (update g p ((g p).drop i)) := by
  have hpos : ∀ j, 0 < ((s.decRef i).tab j).ref → 0 < (s.tab j).ref := by
    intro j hj
    by_cases he : j = i
    · rw [he]
      exact h.ref_pos (weight_pos_of_mem hi _)
    · rwa [FsState.decRef, setTab_of_ne _ he] at hj
  refine h.step (h.runnable hu) (fun j => ?_) (fun j k hj hk hjk => ?_) (fun _ _ => rfl) rfl h.file ?_ rfl h.quiet
  · have hw : ((g p).drop i).weight (s.cwd p) j + (if j = i then 1 else 0) = (g p).weight (s.cwd p) j :=
      Refs.weight_drop hi j
    show _ = _ + (((g p).drop i).weight (s.cwd p) j + files s j)
    by_cases he : j = i
    · have href := h.ref_pos (weight_pos_of_mem hi (s.cwd p))
      rw [he, if_pos rfl] at hw
      rw [he, FsState.decRef, setTab_self]
      dsimp only
      omega
    · rw [if_neg he] at hw
      rw [FsState.decRef, setTab_of_ne _ he]
      omega
  · rw [decRef_inum, decRef_inum] at hjk
    exact h.uniq j k (hpos j hj) (hpos k hk) hjk
  · exact Nat.le_trans (Multiset.card_le_card (Multiset.erase_le i _)) (h.few p)

/-! ## References change hands -/

section

variable (h : Balanced room s g) (hu : (g p).up = true)
include h hu

/-- The reference of the current directory is taken. -/
theorem take (hc : (g p).tok.card ≤ 2) (ht : (g p).taken = false)
    (hi : s.cwd p = some i) : Balanced room s (update g p { (g p).give i with taken := true }) := by
  refine h.step (h.runnable hu) (fun j => ?_) h.uniq (fun _ _ => rfl) rfl h.file ?_ rfl h.quiet
  · have hw : { (g p).give i with taken := true }.weight (s.cwd p) j = (g p).weight (s.cwd p) j := by
      simp only [Refs.weight, Refs.give, Multiset.count_cons, ht, hi, Option.some.injEq, true_and, eq_comm (a := j),
        Bool.true_eq_false, false_and, if_false, Nat.add_zero]
    rw [hw]
  · rw [show ({ (g p).give i with taken := true } : Refs P).tok = i ::ₘ (g p).tok from rfl, Multiset.card_cons]
    omega

/-- A reference becomes that of the current directory. -/
theorem setCwd (hi : i ∈ (g p).tok) (ht : (g p).taken = true) :
    Balanced room (s.setCwd p (some i)) (update g p { (g p).drop i with taken := false }) := by
  refine h.step (h.runnable hu) (fun j => ?_) h.uniq (fun q hq => update_of_ne hq _ _) rfl h.file ?_ rfl h.quiet
  · have hw : { (g p).drop i with taken := false }.weight (some i) j = (g p).weight (s.cwd p) j := by
      have hcons := Multiset.count_cons j i ((g p).tok.erase i)
      rw [Multiset.cons_erase hi] at hcons
      simp only [Refs.weight, Refs.drop, ht, Bool.true_eq_false, false_and, if_false, true_and, Option.some.injEq,
        hcons, eq_comm (a := i), Nat.add_zero]
    rw [show (s.setCwd p (some i)).cwd p = some i from update_self _ _ _, hw]
    rfl
  · exact Nat.le_trans (Multiset.card_le_card (Multiset.erase_le i _)) (h.few p)

/-- A reference becomes that of an open file. -/
theorem fopen (hi : i ∈ (g p).tok) {f : Fin NFILE} {fd : Fin NOFILE} (hf : (s.file f).ref = 0) :
    Balanced room ((s.setFile f ⟨1, some i⟩).setOfile p fd (some f)) (update g p ((g p).drop i)) := by
  refine h.step (h.runnable hu) (fun j => ?_) h.uniq (fun _ _ => rfl) rfl (fun f' hf' => ?_) ?_ rfl h.quiet
  · have hw : ((g p).drop i).weight (s.cwd p) j + (if j = i then 1 else 0) = (g p).weight (s.cwd p) j :=
      Refs.weight_drop hi j
    have hfiles := files_setFile (s := s) f ⟨1, some i⟩ j
    rw [h.file f hf, if_neg (Option.some_ne_none j).symm] at hfiles
    simp only [Option.some.injEq, eq_comm (a := i)] at hfiles
    show (s.tab j).ref + _ = _ + (((g p).drop i).weight (s.cwd p) j + files (s.setFile f ⟨1, some i⟩) j)
    omega
  · by_cases he : f' = f
    · rw [he] at hf'
      rw [show ((s.setFile f ⟨1, some i⟩).setOfile p fd (some f)).file f = ⟨1, some i⟩ from update_self _ _ _] at hf'
      cases hf'
    · rw [show ((s.setFile f ⟨1, some i⟩).setOfile p fd (some f)).file f' = s.file f' from update_of_ne he _ _] at hf' ⊢
      exact h.file f' hf'
  · exact Nat.le_trans (Multiset.card_le_card (Multiset.erase_le i _)) (h.few p)

/-- The reference of an open file is taken. -/
theorem fclose (hc : (g p).tok.card ≤ 2) {f : Fin NFILE} {fd : Fin NOFILE} (hf : (s.file f).ip = some i) :
    Balanced room ((s.setFile f ⟨0, none⟩).setOfile p fd none) (update g p ((g p).give i)) := by
  refine h.step (h.runnable hu) (fun j => ?_) h.uniq (fun _ _ => rfl) rfl (fun f' hf' => ?_) ?_ rfl h.quiet
  · have hfiles := files_setFile (s := s) f ⟨0, none⟩ j
    rw [hf, if_neg (Option.some_ne_none j).symm] at hfiles
    simp only [Option.some.injEq, eq_comm (a := i)] at hfiles
    rw [Refs.weight_give]
    show (s.tab j).ref + _ = _ + ((g p).weight (s.cwd p) j + _ + files (s.setFile f ⟨0, none⟩) j)
    omega
  · by_cases he : f' = f
    · rw [he]
      exact congrArg File.ip (update_self f ⟨0, none⟩ s.file)
    · rw [show ((s.setFile f ⟨0, none⟩).setOfile p fd none).file f' = s.file f' from update_of_ne he _ _] at hf' ⊢
      exact h.file f' hf'
  · rw [Refs.give, Multiset.card_cons]
    omega

end

/-! ## Processes -/

section

variable (h : Balanced room s g) (hu : (g p).up = true)
include h hu

theorem allocproc (hc : (g p).child = none) {np : P}
    (hn : s.proc np = .unused) : Balanced room (s.setProc np .used) (update g p { g p with child := some np }) := by
  have hp := h.runnable hu
  have hne : np ≠ p := by
    rintro rfl
    rw [hp] at hn
    cases hn
  have hproc : ∀ q, q ≠ np → (s.setProc np .used).proc q = s.proc q := fun q hq => update_of_ne hq _ _
  have hself : (s.setProc np .used).proc np = .used := update_self _ _ _
  have hnew : ∀ q, (g q).child ≠ some np := by
    intro q hq
    have := h.child q np hq
    rw [hn] at this
    cases this
  refine ⟨fun i => ?_, h.uniq, fun q => ?_, h.file, fun q hq => ?_, fun q m hm => ?_, fun q q' m hq hq' => ?_, h.quiet⟩
  · have h1 : refCount (s.setProc np .used) (update g p { g p with child := some np }) i + _ =
        refCount s g i + _ := refCount_update (fun _ _ => rfl) i
    rw [show (s.setProc np .used).tab i = s.tab i from rfl, h.ref i]
    exact (Nat.add_right_cancel h1).symm
  · by_cases hq : q = p
    · rw [hq, update_self]
      exact h.few p
    · rw [update_of_ne hq]
      exact h.few q
  · have hqp : q ≠ p := by
      rintro rfl
      rw [hproc q hne.symm] at hq
      exact hq hp
    rw [update_of_ne hqp]
    refine h.rest q ?_
    by_cases hqn : q = np
    · rw [hqn, hn]
      exact nofun
    · rwa [hproc q hqn] at hq
  · by_cases hq : q = p
    · rw [hq, update_self] at hm
      cases hm
      exact hself
    · rw [update_of_ne hq] at hm
      have hmn : m ≠ np := by
        rintro rfl
        exact hnew q hm
      rw [hproc m hmn]
      exact h.child q m hm
  · by_cases h1 : q = p <;> by_cases h2 : q' = p
    · rw [h1, h2]
    · rw [h1, update_self] at hq
      rw [update_of_ne h2] at hq'
      cases hq
      exact absurd hq' (hnew q')
    · rw [h2, update_self] at hq'
      rw [update_of_ne h1] at hq
      cases hq'
      exact absurd hq (hnew q)
    · rw [update_of_ne h1] at hq
      rw [update_of_ne h2] at hq'
      exact h.childOne q q' m hq hq'

/-- The child gets a reference to the current directory of its parent. -/
theorem forkCwd {np : P} (hc : (g p).child = some np) (ht : (g p).taken = false) (hi : s.cwd p = some i) :
    Balanced room (((s.incRef i).setCwd np (some i)).setProc np .runnable) (update g p { g p with child := none }) := by
  have hp := h.runnable hu
  have hused := h.child p np hc
  have hne : np ≠ p := by
    rintro rfl
    rw [hp] at hused
    cases hused
  obtain ⟨hcwd, hempty⟩ := h.rest np (by rw [hused]; exact nofun)
  have hpos : 0 < (s.tab i).ref := by
    refine h.ref_pos (p := p) ?_
    rw [Refs.weight, if_pos ⟨ht, hi⟩]
    omega
  have hproc : ∀ q, q ≠ np → (((s.incRef i).setCwd np (some i)).setProc np .runnable).proc q = s.proc q :=
    fun q hq => update_of_ne hq _ _
  have hself : (((s.incRef i).setCwd np (some i)).setProc np .runnable).proc np = .runnable := update_self _ _ _
  have hcwd' : ∀ q, q ≠ np → (((s.incRef i).setCwd np (some i)).setProc np .runnable).cwd q = s.cwd q :=
    fun q hq => update_of_ne hq _ _
  have hcwdnp : (((s.incRef i).setCwd np (some i)).setProc np .runnable).cwd np = some i := update_self _ _ _
  have huniq : ∀ j k, 0 < ((s.incRef i).tab j).ref → 0 < ((s.incRef i).tab k).ref →
      ((s.incRef i).tab j).inum = ((s.incRef i).tab k).inum → j = k := by
    intro j k hj hk hjk
    rw [incRef_inum, incRef_inum] at hjk
    refine h.uniq j k (pos_of_incRef hpos hj) (pos_of_incRef hpos hk) hjk
  refine ⟨fun j => ?_, huniq, fun q => ?_, h.file, fun q hq => ?_, fun q m hm => ?_, fun q q' m hq hq' => ?_, h.quiet⟩
  · -- only the child has one reference more
    have hsum := sum_change Finset.univ (fun q => (g q).weight (s.cwd q) j)
      (fun q => (update g p { g p with child := none } q).weight
        ((((s.incRef i).setCwd np (some i)).setProc np .runnable).cwd q) j) np (Finset.mem_univ np) fun q hq => by
        simp only [hcwd' q hq]
        by_cases hqp : q = p
        · rw [hqp, update_self]
          rfl
        · rw [update_of_ne hqp]
    rw [update_of_ne hne, hcwdnp, hcwd, hempty] at hsum
    have h0 : (Refs.empty : Refs P).weight none j = 0 := by simp [Refs.weight, Refs.empty]
    have h1 : (Refs.empty : Refs P).weight (some i) j = if j = i then 1 else 0 := by
      simp [Refs.weight, Refs.empty, eq_comm]
    have href := h.ref j
    unfold refCount at href ⊢
    rw [show (((s.incRef i).setCwd np (some i)).setProc np .runnable).tab j = (s.incRef i).tab j from rfl, incRef_ref]
    show _ = _ + files s j
    omega
  · by_cases hq : q = p
    · rw [hq, update_self]
      exact h.few p
    · rw [update_of_ne hq]
      exact h.few q
  · have hqn : q ≠ np := by
      rintro rfl
      exact hq hself
    rw [hproc q hqn] at hq
    have hqp : q ≠ p := by
      rintro rfl
      exact hq hp
    rw [update_of_ne hqp, hcwd' q hqn]
    exact h.rest q hq
  · have hqp : q ≠ p := by
      rintro rfl
      rw [update_self] at hm
      cases hm
    rw [update_of_ne hqp] at hm
    have hmn : m ≠ np := by
      rintro rfl
      exact hqp (h.childOne q p m hm hc)
    rw [hproc m hmn]
    exact h.child q m hm
  · have hold : ∀ r, (update g p { g p with child := none } r).child = some m → (g r).child = some m := by
      intro r hr
      by_cases hrp : r = p
      · rw [hrp, update_self] at hr
        cases hr
      · rwa [update_of_ne hrp] at hr
    exact h.childOne q q' m (hold q hq) (hold q' hq')

/-- The process has no current directory any more, and has gone. -/
theorem exit (hT : (g p).tok = 0) (ht : (g p).taken = true) :
    Balanced room ((s.setCwd p none).setProc p .unused) (update g p Refs.empty) := by
  have hp := h.runnable hu
  have hproc : ∀ q, q ≠ p → ((s.setCwd p none).setProc p .unused).proc q = s.proc q := fun q hq => update_of_ne hq _ _
  have hcwd : ∀ q, q ≠ p → ((s.setCwd p none).setProc p .unused).cwd q = s.cwd q := fun q hq => update_of_ne hq _ _
  have hcwdp : ((s.setCwd p none).setProc p .unused).cwd p = none := update_self _ _ _
  have hold : ∀ r m, (update g p Refs.empty r).child = some m → (g r).child = some m ∧ m ≠ p := by
    intro r m hr
    by_cases hrp : r = p
    · rw [hrp, update_self] at hr
      cases hr
    · rw [update_of_ne hrp] at hr
      refine ⟨hr, ?_⟩
      rintro rfl
      have := h.child r m hr
      rw [hp] at this
      cases this
  refine ⟨fun j => ?_, h.uniq, fun q => ?_, h.file, fun q hq => ?_, fun q m hm => ?_, fun q q' m hq hq' => ?_, h.quiet⟩
  · have h1 : refCount ((s.setCwd p none).setProc p .unused) (update g p Refs.empty) j +
        ((g p).weight (s.cwd p) j + files s j) = refCount s g j + (Refs.empty.weight _ j + files s j) :=
      refCount_update hcwd j
    have h2 : (g p).weight (s.cwd p) j = 0 := by simp [Refs.weight, hT, ht]
    have h3 : (Refs.empty : Refs P).weight (((s.setCwd p none).setProc p .unused).cwd p) j = 0 := by
      simp [Refs.weight, Refs.empty, hcwdp]
    have h4 := h.ref j
    rw [show ((s.setCwd p none).setProc p .unused).tab j = s.tab j from rfl]
    omega
  · by_cases hq : q = p
    · rw [hq, update_self]
      exact Nat.zero_le 3
    · rw [update_of_ne hq]
      exact h.few q
  · by_cases hqp : q = p
    · rw [hqp, hcwdp, update_self]
      exact ⟨rfl, rfl⟩
    · rw [hproc q hqp] at hq
      rw [hcwd q hqp, update_of_ne hqp]
      exact h.rest q hq
  · obtain ⟨hm, hmp⟩ := hold q m hm
    rw [hproc m hmp]
    exact h.child q m hm
  · exact h.childOne q q' m (hold q m hq).1 (hold q' m hq').1

end

/-- A process that starts a call is runnable. -/
theorem start (h : Balanced room s g) (hp : s.proc p = .runnable) :
    Balanced room s (update g p { g p with up := true }) :=
  h.step hp (fun _ => rfl) h.uniq (fun _ _ => rfl) rfl h.file (h.few p) rfl h.quiet

/-! ## Room in the inode table -/

theorem sum_weight_le (x : Refs P) (c : Option (Fin NINODE)) : ∑ i, x.weight c i ≤ x.tok.card + 1 := by
  have h1 : ∑ i, x.tok.count i = x.tok.card := Multiset.sum_count_eq_card fun i _ => Finset.mem_univ i
  have h2 : ∑ i, (if x.taken = false ∧ c = some i then 1 else 0) ≤ 1 := by
    rw [← Finset.card_filter]
    refine Finset.card_le_one.mpr fun i hi j hj => ?_
    have hi := (Finset.mem_filter.mp hi).2.2
    have hj := (Finset.mem_filter.mp hj).2.2
    exact Option.some.inj (hi.symm.trans hj)
  unfold Refs.weight
  rw [Finset.sum_add_distrib, h1]
  omega

/-- A process has at most three references and its current directory. -/
theorem sum_weight_le_four (h : Balanced room s g) (q : P) :
    ∑ i, (g q).weight (s.cwd q) i ≤ if s.proc q ≠ .unused then 4 else 0 := by
  split
  · have h1 := sum_weight_le (g q) (s.cwd q)
    have h2 := h.few q
    omega
  · next hq =>
    have hun : s.proc q = .unused := not_not.mp hq
    obtain ⟨hc, hg⟩ := h.rest q (by rw [hun]; exact nofun)
    rw [hc, hg]
    exact Nat.le_of_eq (Finset.sum_eq_zero fun i _ => by simp [Refs.weight, Refs.empty])

theorem sum_files_le (h : Balanced room s g) : ∑ i, files s i ≤ openFiles s := by
  unfold files openFiles
  simp only [Finset.card_filter]
  rw [Finset.sum_comm]
  refine Finset.sum_le_sum fun f _ => ?_
  cases hip : (s.file f).ip with
  | none => simp
  | some i =>
    have hpos : 0 < (s.file f).ref := by
      by_contra h0
      have := h.file f (by omega)
      rw [hip] at this
      cases this
    simp [hpos]

/-- **There are fewer references than entries**, when a process looks for one. -/
theorem sum_ref_lt (h : Balanced room s g) (hu : (g p).up = true) (hc : (g p).tok.card ≤ 2)
    (hroom : openFiles s + 4 * procs s ≤ NINODE) : ∑ i, (s.tab i).ref < NINODE := by
  have hrefs : ∑ i, (s.tab i).ref = ∑ q, ∑ i, (g q).weight (s.cwd q) i + ∑ i, files s i := by
    simp only [h.ref, refCount]
    rw [Finset.sum_add_distrib, Finset.sum_comm]
  have hprocs : ∑ q, ∑ i, (g q).weight (s.cwd q) i < 4 * procs s := by
    have hsum : 4 * procs s = ∑ q, if s.proc q ≠ .unused then 4 else 0 := by
      rw [procs, Finset.card_filter, Finset.mul_sum]
      simp only [mul_ite, Nat.mul_one, Nat.mul_zero]
    rw [hsum]
    refine Finset.sum_lt_sum (fun q _ => h.sum_weight_le_four q) ⟨p, Finset.mem_univ p, ?_⟩
    have h1 := sum_weight_le (g p) (s.cwd p)
    rw [h.runnable hu, if_pos nofun]
    omega
  have hfiles := h.sum_files_le
  omega

theorem iget_ne_none (h : Balanced room s g) (hu : (g p).up = true) (hc : (g p).tok.card ≤ 2)
    (hroom : openFiles s + 4 * procs s ≤ NINODE) (n : Nat) : s.iget n ≠ none := by
  intro hs
  have h1 := h.sum_ref_lt hu hc hroom
  have h2 : ∑ _i : Fin NINODE, 1 ≤ ∑ i, (s.tab i).ref := Finset.sum_le_sum fun i _ => iget_eq_none hs i
  rw [← Finset.card_eq_sum_ones, Finset.card_univ, Fintype.card_fin] at h2
  omega

/-! ## Every step keeps the invariant -/

variable (h : Balanced room s g)
include h

theorem panic (e : FsPanic) (he : e ≠ .igetNoInodes) : Balanced room (s.panic e) g :=
  h.same (fun _ => ⟨rfl, rfl⟩) rfl rfl (fun f => ⟨rfl, h.file f⟩) fun _ hc => he (Option.some.inj hc)

/-- `iget` finds an entry, or panics because there is no room. -/
theorem iget_panic (hu : (g p).up = true) (hc : (g p).tok.card ≤ 2)
    (hroom : room = true → openFiles s + 4 * procs s ≤ NINODE) {n : Nat} (hs : s.iget n = none) :
    Balanced room (s.panic .igetNoInodes) g :=
  h.same (fun _ => ⟨rfl, rfl⟩) rfl rfl (fun f => ⟨rfl, h.file f⟩) fun hr => absurd hs (h.iget_ne_none hu hc (hroom hr) n)

omit h in
/-- The process has the same after the step. -/
theorem keep (h : Balanced room s' g) : ∃ x, Balanced room s' (update g p x) ∧ (s'.panicked.isSome = false → x = g p) :=
  ⟨g p, by rw [update_eq_self]; exact h, fun _ => rfl⟩

omit h in
/-- The machine is halted. -/
theorem halt (h : Balanced room s' g) (hs : s'.panicked.isSome = true) (y : Refs P) :
    ∃ x, Balanced room s' (update g p x) ∧ (s'.panicked.isSome = false → x = y) := by
  refine ⟨g p, by rw [update_eq_self]; exact h, fun hn => ?_⟩
  rw [hn] at hs
  cases hs

theorem setLock (b : Bool) (l : Option P) : Balanced room (s.setTab i { s.tab i with valid := b, lock := l }) g := by
  refine h.same (fun j => ?_) rfl rfl (fun f => ⟨rfl, h.file f⟩) h.quiet
  by_cases hj : j = i
  · rw [hj, setTab_self]
    exact ⟨rfl, rfl⟩
  · rw [setTab_of_ne _ hj]
    exact ⟨rfl, rfl⟩

theorem setIno (n : Nat) (r : Inode) : Balanced room (s.setIno n r) g :=
  h.same (fun _ => ⟨rfl, rfl⟩) rfl rfl (fun f => ⟨rfl, h.file f⟩) h.quiet

theorem modify (f : Inode → Inode) : Balanced room (s.modify i f) g := h.setIno _ _

theorem setData (n : Nat) (d : List UInt8) : Balanced room (s.setData n d) g :=
  h.same (fun _ => ⟨rfl, rfl⟩) rfl rfl (fun f => ⟨rfl, h.file f⟩) h.quiet

/-- More or fewer descriptors for an open file. -/
theorem setRef {f : Fin NFILE} {n : Nat} (hn : n = 0 → (s.file f).ip = none) (q : P) (fd : Fin NOFILE)
    (z : Option (Fin NFILE)) : Balanced room ((s.setFile f { s.file f with ref := n }).setOfile q fd z) g := by
  refine h.same (fun _ => ⟨rfl, rfl⟩) rfl rfl (fun f' => ?_) h.quiet
  by_cases hf : f' = f
  · rw [hf, show ((s.setFile f { s.file f with ref := n }).setOfile q fd z).file f = { s.file f with ref := n } from
      update_self _ _ _]
    exact ⟨rfl, hn⟩
  · rw [show ((s.setFile f { s.file f with ref := n }).setOfile q fd z).file f' = s.file f' from update_of_ne hf _ _]
    exact ⟨rfl, h.file f'⟩

/-- **Every step keeps the invariant.** -/
theorem sound {c : FsCmd P} {ch : Nat} {r : c.R} (hu : (g p).up = true) (hpre : (g p).pre c)
    (hroom : room = true → Room s p c) (hs : c.exec p ch s = some (r, s')) :
    ∃ x, Balanced room s' (update g p x) ∧ (s'.panicked.isSome = false → x = (g p).after c r) := by
  cases c with
  | iget n =>
    simp only [FsCmd.exec] at hs
    split at hs
    · next j s₁ hj =>
      cases hs
      exact ⟨_, h.iget hu hpre hj, fun _ => rfl⟩
    · next hn =>
      cases hs
      exact (h.iget_panic hu hpre hroom hn).halt rfl _
  | idupCwd =>
    obtain ⟨j, hj, he⟩ := Option.map_eq_some_iff.mp hs
    cases he
    refine ⟨_, h.incRef hu hpre.1 (h.ref_pos (p := p) ?_), fun _ => rfl⟩
    rw [Refs.weight, if_pos ⟨hpre.2, hj⟩]
    omega
  | cwd =>
    obtain ⟨j, hj, he⟩ := Option.map_eq_some_iff.mp hs
    cases he
    exact ⟨_, h.take hu hpre.1 hpre.2 hj, fun _ => rfl⟩
  | setCwd i =>
    cases hs
    exact ⟨_, h.setCwd hu hpre.1 hpre.2, fun _ => rfl⟩
  | ilock i =>
    simp only [FsCmd.exec] at hs
    split at hs
    · cases hs
      exact (h.panic .ilock nofun).halt rfl _
    · split at hs
      · cases hs
      · split at hs
        · cases hs
          exact ((h.setLock true (some p)).panic .ilockNoType nofun).halt rfl _
        · cases hs
          exact (h.setLock _ _).keep
  | iunlock i =>
    simp only [FsCmd.exec] at hs
    split at hs
    · cases hs
      exact (h.panic .iunlock nofun).halt rfl _
    · cases hs
      exact (h.setLock (s.tab i).valid none).keep
  | read i | inum i =>
    cases hs
    exact h.keep
  | dirlookup i name =>
    simp only [FsCmd.exec] at hs
    split at hs
    · cases hs
      exact (h.panic .dirlookupNotDir nofun).halt rfl _
    · split at hs
      · cases hs
        exact h.keep
      · split at hs
        · next j s₁ hj =>
          cases hs
          exact ⟨_, h.iget hu hpre hj, fun _ => rfl⟩
        · next hn =>
          cases hs
          exact (h.iget_panic hu hpre hroom hn).halt rfl _
  | writeDirent i off de =>
    simp only [FsCmd.exec] at hs
    split at hs
    · cases hs
      exact (h.modify _).keep
    · split at hs
      · cases hs
        exact (h.modify _).keep
      · cases hs
        exact h.keep
  | ialloc n type =>
    simp only [FsCmd.exec] at hs
    split at hs
    · cases hs
      exact ((h.setIno _ _).setData _ _).keep
    · cases hs
      exact h.keep
  | setLink i major | incLink i | decLink i | zeroLink i =>
    cases hs
    exact (h.modify _).keep
  | itrunc i =>
    cases hs
    exact (h.setData _ _).keep
  | iputTest i =>
    simp only [FsCmd.exec] at hs
    split at hs
    · split at hs
      · cases hs
      · cases hs
        exact (h.setLock (s.tab i).valid (some p)).keep
    · cases hs
      exact ⟨_, h.decRef hu hpre, fun _ => rfl⟩
  | ifree i =>
    cases hs
    exact (((h.modify _).setLock false none).setData _ _).keep
  | iputDrop i =>
    cases hs
    exact ⟨_, h.decRef hu hpre, fun _ => rfl⟩
  | fopen i =>
    simp only [FsCmd.exec] at hs
    split at hs
    · next f fd hf hfd =>
      split at hs
      · cases hs
        have href := List.find?_some hf
        simp only [beq_iff_eq] at href
        exact ⟨_, h.fopen hu hpre href, fun _ => rfl⟩
      · cases hs
        exact h.keep
    · cases hs
      exact h.keep
  | fclose fd =>
    simp only [FsCmd.exec] at hs
    split at hs
    · cases hs
      exact h.keep
    · next f hf =>
      split at hs
      · cases hs
        exact (h.panic .fileclose nofun).halt rfl _
      · split at hs
        · next h1 =>
          cases hs
          exact (h.setRef (fun h0 => absurd h0 (by omega)) p fd none).keep
        · cases hip : (s.file f).ip with
          | none =>
            rw [hip] at hs
            cases hs
            have he : s.setFile f ⟨0, none⟩ = s.setFile f { s.file f with ref := 0 } := by dsimp only; rw [hip]
            rw [he]
            exact (h.setRef (fun _ => hip) p fd none).keep
          | some j =>
            rw [hip] at hs
            cases hs
            exact ⟨_, h.fclose hu hpre hip, fun _ => rfl⟩
  | allocproc np =>
    simp only [FsCmd.exec] at hs
    split at hs
    · next hn =>
      cases hs
      exact ⟨_, h.allocproc hu hpre hn, fun _ => rfl⟩
    · cases hs
      exact h.keep
  | filedup np i =>
    simp only [FsCmd.exec] at hs
    split at hs
    · cases hs
      exact h.keep
    · split at hs
      · cases hs
        exact (h.panic .filedup nofun).halt rfl _
      · cases hs
        exact (h.setRef (fun h0 => absurd h0 (Nat.succ_ne_zero _)) np i _).keep
  | forkCwd np =>
    obtain ⟨j, hj, he⟩ := Option.map_eq_some_iff.mp hs
    cases he
    exact ⟨_, h.forkCwd hu hpre.1 hpre.2 hj, fun _ => rfl⟩
  | exit =>
    cases hs
    exact ⟨_, h.exit hu hpre.1 hpre.2.1, fun _ => rfl⟩
  | panic e =>
    cases hs
    exact (h.panic e hpre).halt rfl _

end Balanced

end Xv6.Fs
