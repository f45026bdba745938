import Mathlib.Data.Multiset.Count
import Xv6.Lib.Count
import Xv6.Ftable.Model

/-!
# References to open files and pipes

What a process has while it is in a call: references to files that are not in its descriptors, ends of pipes that no
file stands for, a pipe that it is about to free. `Inv` says that every count and every flag is the number of these:

- `Counted`: `ref` of a file is the number of descriptors for it and of references that processes have;
- `Ended`: an end of a pipe is open while exactly one file or one process has it;
- `Placed`: a process inside `piperead` or `pipewrite`, asleep or not, has a descriptor for the pipe;
- `Family`: a process that is not running has nothing, and a child being made belongs to one process.
-/

namespace Xv6.Ftable

open Lib (sum_change places places_update places_pos)
open Fs (NFILE NOFILE)
open Function (update update_of_ne update_self)

/-! ## What a process has -/

/-- What a process in a call has. -/
@[ext]
structure Own (P : Type) where
  /-- References to files, apart from its descriptors. -/
  hold : Multiset (Fin NFILE)
  /-- The files that it has allocated and whose type it has yet to set. -/
  fresh : Finset (Fin NFILE)
  /-- Descriptors that it has just made. -/
  known : Fin NOFILE → Option (Fin NFILE)
  /-- Ends of pipes; `true` is the end to write to. -/
  ends : Multiset (Nat × Bool)
  /-- The pipe that it is about to free. -/
  dead : Option Nat
  /-- The pipe on which it is inside `piperead` or `pipewrite`. -/
  inside : Option (Nat × Bool)
  /-- The child that it is making, and the descriptors that the child has not got yet. -/
  child : Option (P × List (Fin NOFILE))
  /-- Descriptors that it has closed. -/
  closed : Finset (Fin NOFILE)
  /-- It is known to be runnable. -/
  up : Bool

namespace Own

variable {P : Type}

def empty : Own P := ⟨0, ∅, fun _ => none, 0, none, none, none, ∅, false⟩

/-- A process that has nothing but its descriptors. -/
structure Clear (x : Own P) : Prop where
  hold : x.hold = 0
  fresh : x.fresh = ∅
  ends : x.ends = 0
  dead : x.dead = none
  child : x.child = none

/-- A process that is in no call. -/
structure Idle (x : Own P) : Prop extends x.Clear where
  inside : x.inside = none

/-- The end of a pipe that a file stood for whose last reference is gone. -/
def endOf : Option File → Multiset (Nat × Bool)
  | none => 0
  | some ff => if ff.type = .pipe then {(ff.pipe, ff.writable)} else 0

/-- Whether a process that has `x` may make a step. -/
def pre (x : Own P) : Cmd P → Prop
  | .fdalloc f => f ∈ x.hold
  | .setFile f type r w pipe =>
    f ∈ x.fresh ∧ type ≠ .none ∧ (type = .pipe → r = !w ∧ (pipe.isSome ∧ (pipe.getD 0, w) ∈ x.ends))
  | .clearFd fd => (x.known fd).isSome ∧ x.inside = none
  | .dup _ => x.fresh = ∅
  | .close _ => x.fresh = ∅ ∧ x.inside = none
  | .fileclose f => f ∈ x.hold ∧ x.inside = none
  | .pipeclose n w => (n, w) ∈ x.ends ∧ x.dead = none
  | .kfree n => x.dead = some n
  | .access _ _ => x.Idle
  | .piperead n _ => x.Clear ∧ x.inside = some (n, false)
  | .pipewrite n _ _ => x.Clear ∧ x.inside = some (n, true)
  | .kill _ => x.Idle
  | .allocproc _ => x.child = none
  | .uvmcopy np => x.child = some (np, List.finRange NOFILE)
  | .filedup np i => x.fresh = ∅ ∧ ∃ rest, x.child = some (np, i :: rest) ∧ i ∉ rest
  | .start np => x.child = some (np, [])
  | .exit => x.Idle ∧ ∀ fd, fd ∈ x.closed
  | .panic e => e = .initExiting
  | .wait => x.Clear
  | _ => True

/-- What it has after the step. -/
def after (x : Own P) : (c : Cmd P) → c.R → Own P
  | .filealloc, some f => { x with hold := f ::ₘ x.hold, fresh := insert f x.fresh }
  | .fdalloc f, some fd =>
    { x with hold := x.hold.erase f, known := Function.update x.known fd (some f), closed := ∅ }
  | .setFile f type _ w pipe, _ =>
    { x with fresh := x.fresh.erase f, ends := if type = .pipe then x.ends.erase (pipe.getD 0, w) else x.ends }
  | .clearFd fd, _ =>
    { x with hold := x.hold + (x.known fd).elim 0 fun f => {f}, known := Function.update x.known fd none }
  | .dup _, _ => { x with closed := ∅ }
  | .close fd, r =>
    { x with known := Function.update x.known fd none, closed := insert fd x.closed, ends := endOf r + x.ends }
  | .fileclose f, r =>
    { x with hold := x.hold.erase f, fresh := x.fresh.erase f, ends := endOf r + x.ends }
  | .kallocPipe, some n => { x with ends := (n, false) ::ₘ (n, true) ::ₘ x.ends }
  | .pipeclose n w, r => { x with ends := x.ends.erase (n, w), dead := if r then some n else x.dead }
  | .kfree _, _ => { x with dead := none }
  | .access _ write, some (_, n) => { x with inside := some (n, write) }
  | .piperead _ _, some _ => { x with inside := none }
  | .pipewrite _ _ _, .inl _ => { x with inside := none }
  | .allocproc np, true => { x with child := some (np, List.finRange NOFILE) }
  | .uvmcopy _, false => { x with child := none }
  | .filedup _ _, _ => { x with child := x.child.map fun c => (c.1, c.2.tail) }
  | .start _, _ => { x with child := none }
  | .exit, _ => empty
  | _, _ => x

/-- What it learns from the answer: what it has allocated is new to it, and it does not wait for ever. -/
def learns (x : Own P) : (c : Cmd P) → c.R → Prop
  | .filealloc, some f => f ∉ x.fresh
  | .fdalloc _, some fd => x.known fd = none
  | .wait, _ => False
  | .panic _, _ => False
  | _, _ => True

end Own

variable {P : Type} [DecidableEq P]

/-! ## The invariant -/

/-- The references to a file of a process that has `x`, its descriptors included. -/
def weight (s : State P) (x : Own P) (p : P) (f : Fin NFILE) : Nat := x.hold.count f + places (s.ofile p) (some f)

/-- Is the file this end of the pipe? -/
def File.isEnd (x : File) (n : Nat) (w : Bool) : Bool := x.type = .pipe && x.pipe = n && x.writable = w

/-- The files that are this end of the pipe. -/
def endFiles (s : State P) (n : Nat) (w : Bool) : Nat := places (fun f => (s.file f).isEnd n w) true

/-- `pi->writeopen` or `pi->readopen`. -/
def isOpen (w : Bool) : Option Pipe → Bool
  | none => false
  | some pi => if w then pi.writeopen else pi.readopen

variable [Fintype P]

structure Counted (s : State P) (g : P → Own P) : Prop where
  ref : ∀ f, (s.file f).ref = ∑ p, weight s (g p) p f
  free : ∀ f, (s.file f).ref = 0 → (s.file f).type = .none
  fresh : ∀ p f, f ∈ (g p).fresh → (s.file f).type = .none ∧ (s.file f).ref = 1 ∧ 0 < weight s (g p) p f
  typed : ∀ f, 0 < (s.file f).ref → (s.file f).type = .none → ∃ p, f ∈ (g p).fresh

structure Ended (s : State P) (g : P → Own P) : Prop where
  ends : ∀ n w, endFiles s n w + ∑ p, (g p).ends.count (n, w) = if isOpen w (s.pipe n) then 1 else 0
  dead : ∀ p n, (g p).dead = some n → (s.pipe n).isSome ∧ ∀ w, isOpen w (s.pipe n) = false
  deadOne : ∀ p q n, (g p).dead = some n → (g q).dead = some n → p = q
  readable : ∀ f, (s.file f).type = .pipe → (s.file f).readable = !(s.file f).writable

structure Placed (s : State P) (g : P → Own P) : Prop where
  inside : ∀ p, s.inside p = (g p).inside
  file : ∀ p n w, (g p).inside = some (n, w) →
    ∃ fd f, s.ofile p fd = some f ∧ (s.file f).type = .pipe ∧ (s.file f).pipe = n
  queue : ∀ n w p, p ∈ s.queue n w → (g p).inside = some (n, w)

structure Family (s : State P) (g : P → Own P) : Prop where
  rest : ∀ p, s.proc p ≠ .runnable → g p = Own.empty
  unused : ∀ p, s.proc p = .unused → ∀ fd, s.ofile p fd = none
  child : ∀ p np l, (g p).child = some (np, l) → s.proc np = .used ∧ ∀ fd ∈ l, s.ofile np fd = none
  childOne : ∀ p q np l l', (g p).child = some (np, l) → (g q).child = some (np, l') → p = q
  known : ∀ p fd f, (g p).known fd = some f → s.ofile p fd = some f
  closed : ∀ p fd, fd ∈ (g p).closed → s.ofile p fd = none

/-- **Counts and flags are exact**, and nothing has panicked but the exit of the first process. -/
structure Inv (s : State P) (g : P → Own P) : Prop where
  counted : Counted s g
  ended : Ended s g
  placed : Placed s g
  family : Family s g
  quiet : ∀ e, s.panicked = some e → e = .initExiting

namespace State

omit [Fintype P]
variable {s : State P} {f f' : Fin NFILE} {y : File}

theorem setFile_self : (s.setFile f y).file f = y := update_self ..
theorem setFile_of_ne (h : f' ≠ f) : (s.setFile f y).file f' = s.file f' := update_of_ne h ..

end State

section Same

variable {s s' : State P} {g g' : P → Own P} {p : P} {x : Own P} {f : Fin NFILE}

omit [Fintype P] in
/-- What a process has, when only that of another kind has changed. -/
theorem update_same {β : Type} (φ : Own P → β) (h : φ x = φ (g p)) (q : P) : φ (update g p x q) = φ (g q) := by
  by_cases hq : q = p
  · rw [hq, update_self, h]
  · rw [update_of_ne hq]

/-! ## Counts -/

namespace Counted

variable (h : Counted s g)
include h

/-- Some process has a reference. -/
theorem ref_pos (hw : 0 < weight s (g p) p f) : 0 < (s.file f).ref := by
  have h1 := Finset.single_le_sum (f := fun q => weight s (g q) q f) (fun _ _ => Nat.zero_le _) (Finset.mem_univ p)
  rw [h.ref]
  exact lt_of_lt_of_le hw h1

/-- A file with one reference belongs to one process. -/
theorem sole (h1 : (s.file f).ref = 1) {q : P} (hp : 0 < weight s (g p) p f) (hq : 0 < weight s (g q) q f) : p = q := by
  by_contra hne
  have h2 : weight s (g p) p f + weight s (g q) q f ≤ ∑ r, weight s (g r) r f := by
    rw [← Finset.sum_pair (f := fun r => weight s (g r) r f) hne]
    exact Finset.sum_le_sum_of_subset (Finset.subset_univ _)
  rw [← h.ref, h1] at h2
  omega

/-- A file to which a process has a reference, and which it has not just allocated, is nobody's new file. -/
theorem not_fresh (hw : 0 < weight s (g p) p f) (hf : f ∉ (g p).fresh) (q : P) : f ∉ (g q).fresh := by
  intro hq
  obtain ⟨-, h1, hwq⟩ := h.fresh q f hq
  rw [h.sole h1 hwq hw] at hq
  exact hf hq

/-- Nothing changes but who has a reference in which way. -/
theorem same (hfile : s'.file = s.file) (hw : ∀ q f, weight s' (g' q) q f = weight s (g q) q f)
    (hfresh : ∀ q, (g' q).fresh = (g q).fresh) : Counted s' g' := by
  refine ⟨fun f => ?_, ?_, fun q f hf => ?_, fun f hr ht => ?_⟩
  · rw [hfile, h.ref]
    exact Finset.sum_congr rfl fun q _ => (hw q f).symm
  · rw [hfile]
    exact h.free
  · rw [hfresh] at hf
    rw [hfile, hw]
    exact h.fresh q f hf
  · rw [hfile] at hr ht
    obtain ⟨q, hq⟩ := h.typed f hr ht
    exact ⟨q, by rwa [hfresh]⟩

/-- A step that has to do with neither files nor references. -/
theorem keep (hfile : s'.file = s.file) (hofile : s'.ofile = s.ofile) (hhold : x.hold = (g p).hold)
    (hfresh : x.fresh = (g p).fresh) : Counted s' (update g p x) := by
  refine h.same hfile (fun q f => ?_) (update_same Own.fresh hfresh)
  rw [weight, weight, hofile, update_same Own.hold hhold]

/-- The counts, when process `p` has something else. -/
theorem step (hof : ∀ q, q ≠ p → s'.ofile q = s.ofile q)
    (href : ∀ f, (s'.file f).ref + weight s (g p) p f = (s.file f).ref + weight s' x p f) (f : Fin NFILE) :
    (s'.file f).ref = ∑ q, weight s' (update g p x q) q f := by
  have h1 := sum_change Finset.univ (fun q => weight s (g q) q f) (fun q => weight s' (update g p x q) q f) p
    (Finset.mem_univ p) fun q hq => by simp only [weight, update_of_ne hq, hof q hq]
  have h2 := href f
  simp only [update_self] at h1
  rw [h.ref f] at h2
  omega

theorem filealloc (hf : (s.file f).ref = 0) : Counted (s.setFile f { s.file f with ref := 1 })
      (update g p { g p with hold := f ::ₘ (g p).hold, fresh := insert f (g p).fresh }) := by
  have hw : ∀ f', weight (s.setFile f { s.file f with ref := 1 }) { g p with hold := f ::ₘ (g p).hold, fresh := insert f (g p).fresh }
      p f' = weight s (g p) p f' + if f' = f then 1 else 0 := by
    intro f'
    rw [weight, weight, Multiset.count_cons]
    show _ + _ + places (s.ofile p) _ = _
    omega
  refine ⟨h.step (fun _ _ => rfl) fun f' => ?_, fun f' hr => ?_, fun q f' hf' => ?_, fun f' hr ht => ?_⟩
  · rw [hw]
    by_cases he : f' = f
    · rw [he, State.setFile_self, hf, if_pos rfl]
      dsimp only
      omega
    · rw [State.setFile_of_ne he, if_neg he]
      omega
  · by_cases he : f' = f
    · rw [he, State.setFile_self] at hr
      exact absurd hr Nat.one_ne_zero
    · rw [State.setFile_of_ne he] at hr ⊢
      exact h.free f' hr
  · by_cases hq : q = p
    · subst hq
      rw [update_self] at hf' ⊢
      rw [hw]
      rcases Finset.mem_insert.mp hf' with rfl | hf'
      · rw [State.setFile_self, if_pos rfl]
        exact ⟨h.free f' hf, rfl, Nat.succ_pos _⟩
      · obtain ⟨h1, h2, h3⟩ := h.fresh q f' hf'
        have he : f' ≠ f := by
          rintro rfl
          omega
        rw [State.setFile_of_ne he]
        exact ⟨h1, h2, Nat.add_pos_left h3 _⟩
    · rw [update_of_ne hq] at hf' ⊢
      obtain ⟨h1, h2, h3⟩ := h.fresh q f' hf'
      have he : f' ≠ f := by
        rintro rfl
        omega
      rw [State.setFile_of_ne he]
      exact ⟨h1, h2, h3⟩
  · by_cases he : f' = f
    · exact ⟨p, by rw [update_self, he]; exact Finset.mem_insert_self _ _⟩
    · rw [State.setFile_of_ne he] at hr ht
      obtain ⟨q, hq⟩ := h.typed f' hr ht
      refine ⟨q, ?_⟩
      by_cases hqp : q = p
      · rw [hqp] at hq ⊢
        rw [update_self]
        exact Finset.mem_insert_of_mem hq
      · rwa [update_of_ne hqp]

/-- The type of a new file is set. -/
theorem setFile (hf : f ∈ (g p).fresh) {y : File} (href : y.ref = (s.file f).ref) (htype : y.type ≠ .none)
    (hhold : x.hold = (g p).hold) (hfresh : x.fresh = (g p).fresh.erase f) :
    Counted (s.setFile f y) (update g p x) := by
  have hother : ∀ q f', f' ∈ (update g p x q).fresh → f' ∈ (g q).fresh ∧ f' ≠ f := by
    intro q f' hf'
    by_cases hq : q = p
    · subst hq
      rw [update_self, hfresh] at hf'
      exact ⟨Finset.mem_of_mem_erase hf', Finset.ne_of_mem_erase hf'⟩
    · rw [update_of_ne hq] at hf'
      refine ⟨hf', ?_⟩
      rintro rfl
      obtain ⟨-, h1, h2⟩ := h.fresh p f' hf
      exact hq (h.sole h1 (h.fresh q f' hf').2.2 h2)
  have hw : ∀ q f', weight (s.setFile f y) (update g p x q) q f' = weight s (g q) q f' := by
    intro q f'
    rw [weight, update_same Own.hold hhold]
    rfl
  have hr : ∀ f', ((s.setFile f y).file f').ref = (s.file f').ref := by
    intro f'
    by_cases he : f' = f
    · rw [he, State.setFile_self, href]
    · rw [State.setFile_of_ne he]
  refine ⟨fun f' => ?_, fun f' h0 => ?_, fun q f' hf' => ?_, fun f' h0 ht => ?_⟩
  · rw [hr, h.ref]
    exact Finset.sum_congr rfl fun q _ => (hw q f').symm
  · rw [hr] at h0
    have he : f' ≠ f := by
      rintro rfl
      have := (h.fresh p f' hf).2.1
      omega
    rw [State.setFile_of_ne he]
    exact h.free f' h0
  · obtain ⟨hq, he⟩ := hother q f' hf'
    rw [hw, State.setFile_of_ne he]
    exact h.fresh q f' hq
  · rw [hr] at h0
    have he : f' ≠ f := by
      rintro rfl
      rw [State.setFile_self] at ht
      exact htype ht
    rw [State.setFile_of_ne he] at ht
    obtain ⟨q, hq⟩ := h.typed f' h0 ht
    refine ⟨q, ?_⟩
    by_cases hqp : q = p
    · rw [hqp] at hq ⊢
      rw [update_self, hfresh]
      exact Finset.mem_erase.mpr ⟨he, hq⟩
    · rwa [update_of_ne hqp]

/-- Another descriptor for a file. -/
theorem filedup (hf : ∀ q, f ∉ (g q).fresh) (hpos : 0 < (s.file f).ref) {fd : Fin NOFILE} (hfd : s.ofile p fd = none) :
    Counted ((s.setFile f { s.file f with ref := (s.file f).ref + 1 }).setOfile p fd (some f)) g := by
  set s' := (s.setFile f { s.file f with ref := (s.file f).ref + 1 }).setOfile p fd (some f) with hs'
  have hself : s'.file f = { s.file f with ref := (s.file f).ref + 1 } := update_self ..
  have hne : ∀ f', f' ≠ f → s'.file f' = s.file f' := fun f' he => update_of_ne he ..
  have hwp : ∀ f', weight s' (g p) p f' = weight s (g p) p f' + if f' = f then 1 else 0 := by
    intro f'
    have h1 := places_update (s.ofile p) fd (some f) (some f')
    have h2 : s'.ofile p = update (s.ofile p) fd (some f) := update_self ..
    simp only [hfd, reduceCtorEq, if_false, Option.some.injEq, eq_comm (a := f)] at h1
    rw [weight, weight, h2]
    omega
  have hwq : ∀ q, q ≠ p → ∀ f', weight s' (g q) q f' = weight s (g q) q f' := by
    intro q hq f'
    have h2 : s'.ofile q = s.ofile q := update_of_ne hq ..
    rw [weight, weight, h2]
  refine ⟨fun f' => ?_, fun f' h0 => ?_, fun q f' hf' => ?_, fun f' h0 ht => ?_⟩
  · have h1 := sum_change Finset.univ (fun q => weight s (g q) q f') (fun q => weight s' (g q) q f') p
      (Finset.mem_univ p) fun q hq => hwq q hq f'
    rw [← h.ref, hwp] at h1
    by_cases he : f' = f
    · rw [he, if_pos rfl] at h1
      rw [he, hself]
      dsimp only
      omega
    · rw [if_neg he] at h1
      rw [hne f' he]
      omega
  · by_cases he : f' = f
    · rw [he, hself] at h0
      exact absurd h0 (Nat.succ_ne_zero _)
    · rw [hne f' he] at h0 ⊢
      exact h.free f' h0
  · have he : f' ≠ f := by
      rintro rfl
      exact hf q hf'
    obtain ⟨h1, h2, h3⟩ := h.fresh q f' hf'
    rw [hne f' he]
    refine ⟨h1, h2, ?_⟩
    by_cases hq : q = p
    · rw [hq] at h3 ⊢
      rw [hwp]
      omega
    · rwa [hwq q hq]
  · by_cases he : f' = f
    · rw [he] at ht ⊢
      rw [hself] at ht
      exact h.typed f hpos ht
    · rw [hne f' he] at h0 ht
      exact h.typed f' h0 ht

/-- A reference is dropped: the file loses its type with the last one. -/
theorem fileclose (hf : f ∈ (g p).hold) {y : File} (href : y.ref + 1 = (s.file f).ref)
    (hfree : y.ref = 0 → y.type = .none) (hkeep : y.ref ≠ 0 → y.type = (s.file f).type)
    (hhold : x.hold = (g p).hold.erase f) (hfresh : x.fresh = if y.ref = 0 then (g p).fresh.erase f else (g p).fresh) :
    Counted (s.setFile f y) (update g p x) := by
  have hpos : 0 < weight s (g p) p f := Nat.add_pos_left (Multiset.count_pos.mpr hf) _
  have hw : ∀ f', weight (s.setFile f y) x p f' + (if f' = f then 1 else 0) = weight s (g p) p f' := by
    intro f'
    have h1 : (g p).hold.count f' = ((g p).hold.erase f).count f' + if f' = f then 1 else 0 := by
      rw [← Multiset.count_cons, Multiset.cons_erase hf]
    rw [weight, weight, hhold, h1]
    show _ + places (s.ofile p) _ + _ = _
    omega
  have hother : ∀ q f', f' ∈ (update g p x q).fresh → f' ∈ (g q).fresh ∧ f' ≠ f := by
    intro q f' hf'
    by_cases hq : q = p
    · subst hq
      rw [update_self, hfresh] at hf'
      split at hf'
      · exact ⟨Finset.mem_of_mem_erase hf', Finset.ne_of_mem_erase hf'⟩
      · refine ⟨hf', ?_⟩
        rintro rfl
        have := (h.fresh q f' hf').2.1
        omega
    · rw [update_of_ne hq] at hf'
      refine ⟨hf', ?_⟩
      rintro rfl
      obtain ⟨-, h1, h2⟩ := h.fresh q f' hf'
      exact hq (h.sole h1 h2 hpos)
  refine ⟨h.step (fun _ _ => rfl) fun f' => ?_, fun f' h0 => ?_, fun q f' hf' => ?_, fun f' h0 ht => ?_⟩
  · have h1 := hw f'
    by_cases he : f' = f
    · rw [he, if_pos rfl] at h1
      rw [he, State.setFile_self]
      omega
    · rw [if_neg he] at h1
      rw [State.setFile_of_ne he]
      omega
  · by_cases he : f' = f
    · rw [he, State.setFile_self] at h0 ⊢
      exact hfree h0
    · rw [State.setFile_of_ne he] at h0 ⊢
      exact h.free f' h0
  · obtain ⟨hq, he⟩ := hother q f' hf'
    obtain ⟨h1, h2, h3⟩ := h.fresh q f' hq
    rw [State.setFile_of_ne he]
    refine ⟨h1, h2, ?_⟩
    by_cases hqp : q = p
    · have := hw f'
      rw [if_neg he] at this
      rw [hqp] at h3 ⊢
      rw [update_self]
      omega
    · rw [update_of_ne hqp]
      exact h3
  · have hold : ∃ q, f' ∈ (g q).fresh := by
      by_cases he : f' = f
      · rw [he, State.setFile_self] at h0 ht
        rw [hkeep (by omega)] at ht
        rw [he]
        exact h.typed f (h.ref_pos hpos) ht
      · rw [State.setFile_of_ne he] at h0 ht
        exact h.typed f' h0 ht
    obtain ⟨q, hq⟩ := hold
    refine ⟨q, ?_⟩
    by_cases hqp : q = p
    · rw [hqp] at hq ⊢
      rw [update_self, hfresh]
      split
      · next hy =>
        refine Finset.mem_erase.mpr ⟨?_, hq⟩
        rintro rfl
        rw [State.setFile_self] at h0
        omega
      · exact hq
    · rwa [update_of_ne hqp]

end Counted

/-! ## Ends of pipes -/

omit [Fintype P] in
theorem endFiles_setFile (f : Fin NFILE) (y : File) (n : Nat) (w : Bool) :
    endFiles (s.setFile f y) n w + (if (s.file f).isEnd n w = true then 1 else 0) =
      endFiles s n w + if y.isEnd n w = true then 1 else 0 := by
  have h : (fun f' => ((s.setFile f y).file f').isEnd n w) =
      update (fun f' => (s.file f').isEnd n w) f (y.isEnd n w) := by
    funext f'
    by_cases he : f' = f
    · rw [he, State.setFile_self, update_self]
    · rw [State.setFile_of_ne he, update_of_ne he]
  rw [endFiles, endFiles, h]
  exact places_update _ f (y.isEnd n w) true

namespace Ended

section

variable (h : Ended s g)
include h

/-- Somebody has an end of a pipe, so it is open. -/
theorem isOpen_of_mem {n : Nat} {w : Bool} (hm : (n, w) ∈ (g p).ends) : isOpen w (s.pipe n) = true := by
  have h1 := h.ends n w
  have h2 := Finset.single_le_sum (f := fun q => (g q).ends.count (n, w)) (fun _ _ => Nat.zero_le _) (Finset.mem_univ p)
  have h3 := Multiset.count_pos.mpr hm
  by_contra hn
  rw [if_neg hn] at h1
  omega

/-- A file stands for an end of a pipe, so it is open. -/
theorem isOpen_of_file (hf : (s.file f).type = .pipe) : isOpen (s.file f).writable (s.pipe (s.file f).pipe) = true := by
  have h1 := h.ends (s.file f).pipe (s.file f).writable
  have h2 : 0 < endFiles s (s.file f).pipe (s.file f).writable := places_pos f (by simp [File.isEnd, hf])
  by_contra hn
  rw [if_neg hn] at h1
  omega

/-- A step after which process `p` has other ends. -/
theorem step (hends : ∀ n w, endFiles s' n w + x.ends.count (n, w) + (if isOpen w (s.pipe n) then 1 else 0) =
      endFiles s n w + (g p).ends.count (n, w) + if isOpen w (s'.pipe n) then 1 else 0)
    (hdead : ∀ q n, (update g p x q).dead = some n → (s'.pipe n).isSome ∧ (∀ w, isOpen w (s'.pipe n) = false) ∧
        ∀ q', (update g p x q').dead = some n → q = q')
    (hread : ∀ f, (s'.file f).type = .pipe → (s'.file f).readable = !(s'.file f).writable) :
    Ended s' (update g p x) := by
  refine ⟨fun n w => ?_, fun q n hq => ⟨(hdead q n hq).1, (hdead q n hq).2.1⟩,
    fun q q' n hq hq' => (hdead q n hq).2.2 q' hq', hread⟩
  have h1 := sum_change Finset.univ (fun q => (g q).ends.count (n, w))
    (fun q => (update g p x q).ends.count (n, w)) p (Finset.mem_univ p) fun q hq => by
      rw [update_of_ne hq]
  have h2 := hends n w
  have h3 := h.ends n w
  simp only [update_self] at h1
  omega

/-- Ends go from processes to files and back. -/
theorem move (hpipe : s'.pipe = s.pipe)
    (hends : ∀ n w, endFiles s' n w + x.ends.count (n, w) = endFiles s n w + (g p).ends.count (n, w))
    (hdead : x.dead = (g p).dead)
    (hread : ∀ f, (s'.file f).type = .pipe → (s'.file f).readable = !(s'.file f).writable) :
    Ended s' (update g p x) := by
  refine h.step (fun n w => ?_) (fun q n hq => ?_) hread
  · rw [hpipe, hends]
  · rw [update_same Own.dead hdead] at hq
    rw [hpipe]
    refine ⟨(h.dead q n hq).1, (h.dead q n hq).2, fun q' hq' => ?_⟩
    rw [update_same Own.dead hdead] at hq'
    exact h.deadOne q q' n hq hq'

/-- Nothing that matters changes. -/
theorem same (hfile : ∀ f, (s'.file f).type = (s.file f).type ∧ (s'.file f).readable = (s.file f).readable ∧
      (s'.file f).writable = (s.file f).writable ∧ (s'.file f).pipe = (s.file f).pipe)
    (hpipe : ∀ n, (s'.pipe n).isSome = (s.pipe n).isSome ∧ ∀ w, isOpen w (s'.pipe n) = isOpen w (s.pipe n))
    (hends : ∀ q, (g' q).ends = (g q).ends) (hdead : ∀ q, (g' q).dead = (g q).dead) : Ended s' g' := by
  have he : ∀ n w, endFiles s' n w = endFiles s n w := by
    intro n w
    rw [endFiles, endFiles]
    congr 1
    funext f
    obtain ⟨h1, -, h3, h4⟩ := hfile f
    rw [File.isEnd, File.isEnd, h1, h3, h4]
  refine ⟨fun n w => ?_, fun q n hq => ?_, fun q q' n => ?_, fun f hf => ?_⟩
  · simp only [he, hends, (hpipe n).2 w]
    exact h.ends n w
  · rw [hdead] at hq
    simp only [(hpipe n).1, (hpipe n).2]
    exact h.dead q n hq
  · rw [hdead, hdead]
    exact h.deadOne q q' n
  · obtain ⟨h1, h2, h3, -⟩ := hfile f
    rw [h1] at hf
    rw [h2, h3]
    exact h.readable f hf

end

omit [Fintype P] in
theorem isEnd_of_none {y : File} (hy : y.type = .none) (n : Nat) (w : Bool) : y.isEnd n w = false := by
  rw [File.isEnd, hy]
  rfl

omit [Fintype P] in
theorem isEnd_iff {y : File} (hy : y.type = .pipe) (n : Nat) (w : Bool) :
    y.isEnd n w = true ↔ (n, w) = (y.pipe, y.writable) := by
  simp only [File.isEnd, hy, decide_true, Bool.true_and, Bool.and_eq_true, decide_eq_true_eq, Prod.mk.injEq]
  exact ⟨fun ⟨h1, h2⟩ => ⟨h1.symm, h2.symm⟩, fun ⟨h1, h2⟩ => ⟨h1.symm, h2.symm⟩⟩

/-- The type of a new file is set, and the file is the end of a pipe that the process had, if it is one at all. -/
theorem setFile (h : Ended s g) (hf : (s.file f).type = .none) {y : File} (hr : y.type = .pipe → y.readable = !y.writable)
    (hm : y.type = .pipe → (y.pipe, y.writable) ∈ (g p).ends)
    (hends : x.ends = if y.type = .pipe then (g p).ends.erase (y.pipe, y.writable) else (g p).ends)
    (hdead : x.dead = (g p).dead) : Ended (s.setFile f y) (update g p x) := by
  refine h.move rfl (fun n w => ?_) hdead fun f' hf' => ?_
  · have h1 := endFiles_setFile (s := s) f y n w
    rw [isEnd_of_none hf, if_neg Bool.false_ne_true] at h1
    by_cases hy : y.type = .pipe
    · have h2 : (g p).ends.count (n, w) = ((g p).ends.erase (y.pipe, y.writable)).count (n, w) +
          if (n, w) = (y.pipe, y.writable) then 1 else 0 := by
        rw [← Multiset.count_cons, Multiset.cons_erase (hm hy)]
      rw [hends, if_pos hy, h2]
      simp only [isEnd_iff hy] at h1
      omega
    · have h3 : y.isEnd n w = false := by
        rw [File.isEnd, decide_eq_false hy]
        rfl
      rw [h3, if_neg Bool.false_ne_true] at h1
      rw [hends, if_neg hy]
      omega
  · by_cases he : f' = f
    · rw [he, State.setFile_self] at hf' ⊢
      exact hr hf'
    · rw [State.setFile_of_ne he] at hf' ⊢
      exact h.readable f' hf'

/-- A file loses its type, and the process has the end of the pipe that it stood for. -/
theorem fileclose (h : Ended s g) {y : File} (hy : y.type = .none) (hends : x.ends = Own.endOf (some (s.file f)) + (g p).ends)
    (hdead : x.dead = (g p).dead) : Ended (s.setFile f y) (update g p x) := by
  refine h.move rfl (fun n w => ?_) hdead fun f' hf' => ?_
  · have h1 := endFiles_setFile (s := s) f y n w
    rw [isEnd_of_none hy, if_neg Bool.false_ne_true] at h1
    have h2 : (Own.endOf (some (s.file f))).count (n, w) = if (s.file f).isEnd n w = true then 1 else 0 := by
      by_cases ht : (s.file f).type = .pipe
      · simp only [isEnd_iff ht, Own.endOf, if_pos ht, Multiset.count_singleton]
      · simp only [Own.endOf, File.isEnd, ht, if_false, Multiset.count_zero, decide_false, Bool.false_and,
          Bool.false_eq_true]
    rw [hends, Multiset.count_add, h2]
    omega
  · have he : f' ≠ f := by
      rintro rfl
      rw [State.setFile_self, hy] at hf'
      cases hf'
    rw [State.setFile_of_ne he] at hf' ⊢
    exact h.readable f' hf'

end Ended

/-! ## Processes in `piperead` and `pipewrite` -/

namespace Placed

/-- No process enters, leaves or goes to sleep. -/
theorem keep (h : Placed s g) (hin : s'.inside = s.inside) (hqueue : ∀ n w, s'.queue n w ⊆ s.queue n w)
    (hg : ∀ q, (g' q).inside = (g q).inside)
    (hfile : ∀ q fd f, (g q).inside ≠ none → s.ofile q fd = some f → (s.file f).type = .pipe →
      s'.ofile q fd = some f ∧ (s'.file f).type = .pipe ∧ (s'.file f).pipe = (s.file f).pipe) : Placed s' g' := by
  refine ⟨fun q => ?_, fun q n w hq => ?_, fun n w q hq => ?_⟩
  · rw [hin, hg]
    exact h.inside q
  · rw [hg] at hq
    obtain ⟨fd, f, h1, h2, h3⟩ := h.file q n w hq
    obtain ⟨h4, h5, h6⟩ := hfile q fd f (by rw [hq]; exact Option.some_ne_none _) h1 h2
    exact ⟨fd, f, h4, h5, h6.trans h3⟩
  · rw [hg]
    exact h.queue n w q (hqueue n w hq)

/-- Process `p` enters. -/
theorem enter (h : Placed s g) {n : Nat} {w : Bool} {fd : Fin NOFILE} (hfd : s.ofile p fd = some f) (ht : (s.file f).type = .pipe)
    (hn : (s.file f).pipe = n) (hp : (g p).inside = none) :
    Placed (s.setInside p (some (n, w))) (update g p { g p with inside := some (n, w) }) := by
  refine ⟨fun q => ?_, fun q m v hq => ?_, fun m v q hq => ?_⟩
  · by_cases he : q = p
    · rw [he, update_self]
      exact update_self ..
    · rw [update_of_ne he, ← h.inside q]
      exact update_of_ne he ..
  · by_cases he : q = p
    · rw [he, update_self] at hq
      cases hq
      rw [he]
      exact ⟨fd, f, hfd, ht, hn⟩
    · rw [update_of_ne he] at hq
      exact h.file q m v hq
  · have hm := h.queue m v q hq
    have he : q ≠ p := by
      rintro rfl
      rw [hp] at hm
      cases hm
    rw [update_of_ne he]
    exact hm

/-- Process `p` leaves. -/
theorem leave (h : Placed s g) {n : Nat} {w : Bool} (hp : (g p).inside = some (n, w)) (hq : p ∉ s.queue n w) :
    Placed (s.setInside p none) (update g p { g p with inside := none }) := by
  refine ⟨fun q => ?_, fun q m v hq => ?_, fun m v q hm => ?_⟩
  · by_cases he : q = p
    · rw [he, update_self]
      exact update_self ..
    · rw [update_of_ne he, ← h.inside q]
      exact update_of_ne he ..
  · by_cases he : q = p
    · rw [he, update_self] at hq
      cases hq
    · rw [update_of_ne he] at hq
      exact h.file q m v hq
  · have hin := h.queue m v q hm
    have he : q ≠ p := by
      rintro rfl
      rw [hp] at hin
      cases hin
      exact hq hm
    rw [update_of_ne he]
    exact hin

/-- Process `p` goes to sleep. -/
theorem sleep (h : Placed s g) {n : Nat} {w : Bool} (hp : (g p).inside = some (n, w)) : Placed (s.sleep p n w) g := by
  refine ⟨h.inside, h.file, fun m v q hq => ?_⟩
  by_cases hm : m = n
  · subst hm
    by_cases hv : v = w
    · subst hv
      have hq : q ∈ p :: s.queue m v := by
        simpa only [State.sleep, State.setQueue, update_self] using hq
      rcases List.mem_cons.mp hq with rfl | hq
      · exact hp
      · exact h.queue m v q hq
    · refine h.queue m v q ?_
      simpa only [State.sleep, State.setQueue, update_self, update_of_ne hv] using hq
  · refine h.queue m v q ?_
    simpa only [State.sleep, State.setQueue, update_of_ne hm] using hq

end Placed

/-! ## Processes -/

namespace Family

omit [Fintype P] in
theorem runnable (h : Family s g) (hu : (g p).up = true) : s.proc p = .runnable := by
  by_contra hn
  rw [h.rest p hn] at hu
  cases hu

omit [Fintype P] in
/-- A step of a running process that starts and ends none. -/
theorem step (h : Family s g) (hp : s.proc p = .runnable) (hproc : s'.proc = s.proc)
    (hof : ∀ q, q ≠ p → s'.ofile q = s.ofile q) (hchild : x.child = (g p).child)
    (hknown : ∀ fd f, x.known fd = some f → s'.ofile p fd = some f) (hclosed : ∀ fd ∈ x.closed, s'.ofile p fd = none) :
    Family s' (update g p x) := by
  have hne : ∀ q, s.proc q ≠ .runnable → q ≠ p := by
    rintro q hq rfl
    exact hq hp
  refine ⟨fun q hq => ?_, fun q hq fd => ?_, fun q np l hq => ?_, fun q q' np l l' => ?_, fun q fd f hq => ?_,
    fun q fd hq => ?_⟩
  · rw [hproc] at hq
    rw [update_of_ne (hne q hq)]
    exact h.rest q hq
  · rw [hproc] at hq
    have hr : s.proc q ≠ .runnable := by
      rw [hq]
      decide
    rw [hof q (hne q hr)]
    exact h.unused q hq fd
  · rw [update_same Own.child hchild] at hq
    obtain ⟨h1, h2⟩ := h.child q np l hq
    have hr : s.proc np ≠ .runnable := by
      rw [h1]
      decide
    rw [hproc, hof np (hne np hr)]
    exact ⟨h1, h2⟩
  · rw [update_same Own.child hchild, update_same Own.child hchild]
    exact h.childOne q q' np l l'
  · by_cases he : q = p
    · rw [he, update_self] at hq
      rw [he]
      exact hknown fd f hq
    · rw [update_of_ne he] at hq
      rw [hof q he]
      exact h.known q fd f hq
  · by_cases he : q = p
    · rw [he, update_self] at hq
      rw [he]
      exact hclosed fd hq
    · rw [update_of_ne he] at hq
      rw [hof q he]
      exact h.closed q fd hq

omit [Fintype P] in
/-- A step that has to do with neither processes nor descriptors. -/
theorem same (h : Family s g) (hu : (g p).up = true) (hproc : s'.proc = s.proc) (hof : s'.ofile = s.ofile)
    (hchild : x.child = (g p).child) (hknown : x.known = (g p).known) (hclosed : x.closed = (g p).closed) :
    Family s' (update g p x) := by
  refine h.step (h.runnable hu) hproc (fun q _ => by rw [hof]) hchild (fun fd f hf => ?_) fun fd hfd => ?_
  · rw [hknown] at hf
    rw [hof]
    exact h.known p fd f hf
  · rw [hclosed] at hfd
    rw [hof]
    exact h.closed p fd hfd

omit [Fintype P] in
/-- A process begins a call. -/
theorem begin (h : Family s g) (hp : s.proc p = .runnable) :
    Family s (update g p { g p with known := fun _ => none, closed := ∅, up := true }) :=
  h.step hp rfl (fun _ _ => rfl) rfl nofun fun fd hfd => absurd hfd (Finset.notMem_empty fd)

end Family

end Same

end Xv6.Ftable
