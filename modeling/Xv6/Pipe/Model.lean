import Mathlib.Logic.Function.Basic
import Mathlib.Logic.Relation
import Xv6.Lib.Index

/-!
# Pipes

The functions `pipewrite`, `piperead` and `pipeclose` of `pipe.c` on one pipe, for any processes `P`. Between two
releases of `pi->lock` a function runs without interference, and so does `sleep`; such a stretch is one step. What a
stretch reads outside the pipe (the result of `killed`, of `copyin` and of `copyout`) is an input of the step.

The processes asleep on `&pi->nread` and on `&pi->nwrite` are kept in the order of the wait queue: the most recent
sleeper comes first, and `wakeup_one` takes it. With `sleep` in one piece, `wq_has_sleeper` is nonzero whenever there
is somebody to wake, so `if(wq_has_sleeper(c)) wakeup_one(c)` is `wakeup_one(c)`.
-/

namespace Xv6

/-- `PIPESIZE`. -/
abbrev PIPESIZE : Nat := 512

/-- `struct pipe`, without its lock. -/
structure Pipe where
  data : Fin PIPESIZE → BitVec 8
  nread : BitVec 32
  nwrite : BitVec 32
  readopen : Bool
  writeopen : Bool

namespace Pipe

/-- The index `n % PIPESIZE`. -/
def slot (n : BitVec 32) : Fin PIPESIZE := ⟨n.toNat % PIPESIZE, Nat.mod_lt _ (by decide)⟩

/-- `pi->data[pi->nwrite++ % PIPESIZE] = ch`. -/
def put (pi : Pipe) (ch : BitVec 8) : Pipe :=
  { pi with data := Function.update pi.data (slot pi.nwrite) ch, nwrite := pi.nwrite + 1 }

/-- `pi->nread++`. -/
def take (pi : Pipe) : Pipe := { pi with nread := pi.nread + 1 }

/-- `pi->data[pi->nread % PIPESIZE]`. -/
def next (pi : Pipe) : BitVec 8 := pi.data (slot pi.nread)

/-- The number of bytes in the pipe: the difference of the two counters, which wrap around. -/
def count (pi : Pipe) : Nat := (pi.nwrite - pi.nread).toNat

/-- A new pipe. -/
def alloc : Pipe where
  data _ := 0
  nread := 0
  nwrite := 0
  readopen := true
  writeopen := true

end Pipe

/-- A call in progress: `pipewrite` of `n` bytes of which `i` are stored, or `piperead` of `n` bytes. -/
inductive PipeCall
  | write (n : Int) (i : Nat)
  | read (n : Int)

/-- What a stretch gets from outside the pipe: in the turn of its loop for byte `i`, is the process killed, what does
`copyin` deliver (nothing if it fails), does `copyout` succeed? -/
structure PipeEnv where
  killed : Nat → Bool
  copyin : Nat → Option (BitVec 8)
  copyout : Nat → Bool

/-- How the loop of `pipewrite` is left: by `return -1`, for `sleep` in a full pipe, or at its end. -/
inductive WriteEnd
  | dead
  | full (i : Nat)
  | done (i : Nat)

/-- The loop of `pipewrite` with `r` bytes to go. -/
def writeLoop (e : PipeEnv) : (r i : Nat) → Pipe → Pipe × WriteEnd
  | 0, i, pi => (pi, .done i)
  | r + 1, i, pi =>
    if pi.readopen = false ∨ e.killed i then (pi, .dead)
    else if pi.nwrite = pi.nread + BitVec.ofNat 32 PIPESIZE then (pi, .full i)
    else
      match e.copyin i with
      | none => (pi, .done i)
      | some ch => writeLoop e r (i + 1) (pi.put ch)

/-- The copying loop of `piperead` with at most `r` bytes to go: the pipe afterwards, the value to return, and the
bytes copied out. -/
def readLoop (e : PipeEnv) : (r i : Nat) → Pipe → Pipe × Int × List (BitVec 8)
  | 0, i, pi => (pi, i, [])
  | r + 1, i, pi =>
    if pi.nread = pi.nwrite then (pi, i, [])
    else if e.copyout i then
      let (pi', v, out) := readLoop e r (i + 1) pi.take
      (pi', v, pi.next :: out)
    else (pi, if i = 0 then -1 else i, [])

/-- One pipe and the processes that use it. -/
structure PipeState (P : Type) where
  pi : Pipe
  inside : P → Option PipeCall
  /-- The processes asleep on `&pi->nread`, and those asleep on `&pi->nwrite`. -/
  onRead : List P
  onWrite : List P
  /-- The value a process got back from its last call, and the bytes it has read so far. -/
  ret : P → Int
  got : P → List (BitVec 8)

namespace PipeState

variable {P : Type} [DecidableEq P]

/-- Process `p` returns `v`. -/
def leave (s : PipeState P) (p : P) (v : Int) : PipeState P :=
  { s with inside := Function.update s.inside p none, ret := Function.update s.ret p v }

/-- `wakeup_one(&pi->nread)`. -/
def wakeOneReader (s : PipeState P) : PipeState P := { s with onRead := s.onRead.tail }

/-- `wakeup_one(&pi->nwrite)`. -/
def wakeOneWriter (s : PipeState P) : PipeState P := { s with onWrite := s.onWrite.tail }

/-- A stretch of `pipewrite(pi, addr, n)` by `p`, which has stored `i` bytes so far. -/
def write (s : PipeState P) (p : P) (n : Int) (i : Nat) (e : PipeEnv) : PipeState P :=
  let (pi, fin) := writeLoop e (n.toNat - i) i s.pi
  let s := { s with pi := pi }
  match fin with
  | .dead => s.leave p (-1)
  | .full i =>
    let s := s.wakeOneReader
    { s with inside := Function.update s.inside p (some (.write n i)), onWrite := p :: s.onWrite }
  | .done i => s.wakeOneReader.leave p i

/-- A stretch of `piperead(pi, addr, n)` by `p`. -/
def read (s : PipeState P) (p : P) (n : Int) (e : PipeEnv) : PipeState P :=
  if s.pi.nread = s.pi.nwrite ∧ s.pi.writeopen = true then
    if e.killed 0 then s.leave p (-1) else { s with onRead := p :: s.onRead }
  else
    let (pi, v, out) := readLoop e n.toNat 0 s.pi
    let s := { s with pi := pi, got := Function.update s.got p (s.got p ++ out) }
    s.wakeOneWriter.leave p v

/-- `pipeclose(pi, writable)`. -/
def close (s : PipeState P) (writable : Bool) : PipeState P :=
  if writable then { s with pi := { s.pi with writeopen := false }, onRead := [] }
  else { s with pi := { s.pi with readopen := false }, onWrite := [] }

end PipeState

/-- What happens next: a process calls one of the functions, a process inside one runs up to the next release of the
lock, the pipe is closed at one end, or a `kkill` wakes everybody asleep on one of the channels. -/
inductive PipeAct (P : Type)
  | callWrite (p : P) (n : Int)
  | callRead (p : P) (n : Int)
  | run (p : P) (e : PipeEnv)
  | close (writable : Bool)
  | wakeReaders
  | wakeWriters

variable {P : Type} [DecidableEq P]

/-- One step; a process that is asleep does not run. -/
def pipeStep (s : PipeState P) : PipeAct P → Option (PipeState P)
  | .callWrite p n =>
    if (s.inside p).isSome then none else some { s with inside := Function.update s.inside p (some (.write n 0)) }
  | .callRead p n =>
    if (s.inside p).isSome then none else some { s with inside := Function.update s.inside p (some (.read n)) }
  | .run p e =>
    if p ∈ s.onRead ∨ p ∈ s.onWrite then none
    else
      match s.inside p with
      | some (.write n i) => some (s.write p n i e)
      | some (.read n) => some (s.read p n e)
      | none => none
  | .close writable => some (s.close writable)
  | .wakeReaders => some { s with onRead := [] }
  | .wakeWriters => some { s with onWrite := [] }

/-- A new pipe that nobody uses yet. -/
def PipeState.init : PipeState P where
  pi := .alloc
  inside _ := none
  onRead := []
  onWrite := []
  ret _ := 0
  got _ := []

/-- The states reached by steps that satisfy a condition on the state before and the step. -/
def PipeReachable (C : PipeState P → PipeAct P → Prop) (s : PipeState P) : Prop :=
  Relation.ReflTransGen (fun s s' => ∃ a, C s a ∧ pipeStep s a = some s') PipeState.init s

/-- A list of steps, one after the other. -/
def pipeRun (s : PipeState P) (as : List (PipeAct P)) : Option (PipeState P) := as.foldlM pipeStep s

theorem pipeReachable_run {s s' : PipeState P} (as : List (PipeAct P)) (h : PipeReachable (fun _ _ => True) s)
    (hr : pipeRun s as = some s') : PipeReachable (fun _ _ => True) s' := by
  induction as generalizing s with
  | nil => cases hr; exact h
  | cons a as ih =>
    simp only [pipeRun, List.foldlM_cons, Option.bind_eq_bind, Option.bind_eq_some_iff] at hr
    obtain ⟨s₁, h1, h2⟩ := hr
    exact ih (h.tail ⟨a, trivial, h1⟩) h2

/-- The state after a list of steps on a new pipe, if all of them can be taken. -/
def pipeAfter (as : List (PipeAct P)) : PipeState P := (pipeRun .init as).getD .init

theorem pipeReachable_after (as : List (PipeAct P)) : PipeReachable (fun _ _ => True) (pipeAfter as) := by
  unfold pipeAfter
  cases h : pipeRun .init as with
  | none => exact Relation.ReflTransGen.refl
  | some s => exact pipeReachable_run as Relation.ReflTransGen.refl h

/-! ## The counters -/

namespace Pipe

variable {pi : Pipe}

theorem count_eq_zero : pi.count = 0 ↔ pi.nread = pi.nwrite := by
  unfold count
  constructor <;> intro h <;> bv_omega

theorem count_eq_size : pi.count = PIPESIZE ↔ pi.nwrite = pi.nread + BitVec.ofNat 32 PIPESIZE := by
  unfold count PIPESIZE
  constructor <;> intro h <;> bv_omega

theorem count_put (ch : BitVec 8) (h : pi.count < PIPESIZE) : (pi.put ch).count = pi.count + 1 := by
  unfold count put PIPESIZE at *
  bv_omega

theorem count_take (h : pi.count ≠ 0) : pi.take.count + 1 = pi.count := by
  unfold count take at *
  bv_omega

end Pipe

end Xv6
