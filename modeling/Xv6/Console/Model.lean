import Mathlib.Data.List.Induction
import Mathlib.Logic.Relation
import Xv6.Lib.Index
import Xv6.Lib.Window

/-!
# The console

`consoleread` and `consoleintr` of `console.c`, for any processes `P`. Between two releases of `cons.lock` a function runs
without interference, and so does `sleep`; such a stretch is one step. What a stretch reads outside the console (the
results of `killed` and of `either_copyout`) is an input of the step.

`input` and `output` are the histories of the run: the bytes that `consoleintr` has passed on to the readers, and the
bytes that `consoleread` has taken out of the buffer.
-/

namespace Xv6

open Lib (slot window)

abbrev INPUT_BUF_SIZE : Nat := 128

/-- `C('D')`, end of file. -/
abbrev ctrlD : BitVec 8 := 4
/-- `C('H')`. -/
abbrev ctrlH : BitVec 8 := 8
/-- `C('P')`. -/
abbrev ctrlP : BitVec 8 := 16
/-- `C('U')`. -/
abbrev ctrlU : BitVec 8 := 21
abbrev newline : BitVec 8 := 10
abbrev carriageReturn : BitVec 8 := 13
/-- The delete key. -/
abbrev delete : BitVec 8 := 127

/-- The input buffer, without its lock: the read, the write and the edit index. -/
structure Cons where
  buf : Fin INPUT_BUF_SIZE → BitVec 8
  r : BitVec 32
  w : BitVec 32
  e : BitVec 32

namespace Cons

/-- `cons.e-cons.r < INPUT_BUF_SIZE`. -/
def room (s : Cons) : Bool := s.e - s.r < BitVec.ofNat 32 INPUT_BUF_SIZE

/-- `while(cons.e != cons.w && cons.buf[(cons.e-1) % INPUT_BUF_SIZE] != '\n') cons.e--`, in at most `n` turns. -/
def killLine : Nat → Cons → Cons
  | 0, s => s
  | n + 1, s =>
    if s.e ≠ s.w ∧ s.buf (slot INPUT_BUF_SIZE (s.e - 1)) ≠ newline then killLine n { s with e := s.e - 1 } else s

/-- `cons.buf[cons.e++ % INPUT_BUF_SIZE] = c`. -/
def store (s : Cons) (c : BitVec 8) : Cons :=
  { s with buf := Function.update s.buf (slot INPUT_BUF_SIZE s.e) c, e := s.e + 1 }

/-- Is the input to be passed on, after `c` was stored? -/
def complete (s : Cons) (c : BitVec 8) : Bool :=
  c = newline ∨ c = ctrlD ∨ s.e - s.r = BitVec.ofNat 32 INPUT_BUF_SIZE

/-- The character is stored, and the input is passed on if it is complete. -/
def put (s : Cons) (c : BitVec 8) : Cons × Bool :=
  let s := s.store c
  if s.complete c then ({ s with w := s.e }, true) else (s, false)

/-- `consoleintr(c)`, and whether it calls `wakeup(&cons.r)`. The echo, and the process list for `C('P')`, are left
out. -/
def intr (s : Cons) (c : BitVec 8) : Cons × Bool :=
  if c = ctrlP then (s, false)
  else if c = ctrlU then (killLine (s.e - s.w).toNat s, false)
  else if c = ctrlH ∨ c = delete then (if s.e ≠ s.w then { s with e := s.e - 1 } else s, false)
  else if c ≠ 0 ∧ s.room then s.put (if c = carriageReturn then newline else c)
  else (s, false)

end Cons

/-- Why a byte has left the buffer: it was copied to the reader, it ended the call of the reader, or `either_copyout`
failed. -/
inductive Fate
  | copied
  | eof
  | lost
  deriving DecidableEq

/-- A byte that `consoleread` has taken out, the reader, and the number of bytes its call had copied before. -/
structure Taken (P : Type) where
  byte : BitVec 8
  fate : Fate
  reader : P
  before : Nat

/-- What a stretch of `consoleread` gets from outside, with `n` bytes to go: is the process killed, and does
`either_copyout` succeed? -/
structure ConsEnv where
  killed : Nat → Bool
  copyout : Nat → Bool

/-- How the loop of `consoleread` is left: by `return -1`, for `sleep`, or at its end, with `n` bytes to go. -/
inductive ReadEnd
  | dead
  | wait (n : Nat)
  | done (n : Nat)

/-- The loop of `consoleread` by `p`, with `n` of `target` bytes to go. -/
def consLoop {P : Type} (v : ConsEnv) (p : P) (target : Nat) : Nat → Cons → Cons × ReadEnd × List (Taken P)
  | 0, s => (s, .done 0, [])
  | n + 1, s =>
    if s.r = s.w then
      if v.killed (n + 1) then (s, .dead, []) else (s, .wait (n + 1), [])
    else
      let c := s.buf (slot INPUT_BUF_SIZE s.r)
      let s := { s with r := s.r + 1 }
      if c = ctrlD then
        -- save ^D for next time, to make sure the caller gets a 0-byte result
        if n + 1 < target then ({ s with r := s.r - 1 }, .done (n + 1), [])
        else (s, .done (n + 1), [⟨c, .eof, p, target - (n + 1)⟩])
      else if v.copyout (n + 1) then
        if c = newline then (s, .done n, [⟨c, .copied, p, target - (n + 1)⟩])
        else
          let (s, fin, out) := consLoop v p target n s
          (s, fin, ⟨c, .copied, p, target - (n + 1)⟩ :: out)
      else (s, .done (n + 1), [⟨c, .lost, p, target - (n + 1)⟩])

/-- The console and the processes that read from it. -/
structure ConsState (P : Type) where
  cons : Cons
  /-- A process inside `consoleread`: `target`, and the bytes still to go. -/
  inside : P → Option (Nat × Nat)
  /-- Is the process asleep on `&cons.r`? -/
  asleep : P → Bool
  /-- The value a process got back from its last call. -/
  ret : P → Int
  input : List (BitVec 8)
  output : List (Taken P)

/-- What happens next: a process calls `consoleread`, a process inside it runs up to the next release of the lock, a
character arrives, or a `kkill` wakes everybody asleep on the channel. -/
inductive ConsAct (P : Type)
  | call (p : P) (n : Int)
  | run (p : P) (v : ConsEnv)
  | intr (c : BitVec 8)
  | wake

variable {P : Type} [DecidableEq P]

namespace ConsState

/-- Process `p` returns `v`. -/
def leave (s : ConsState P) (p : P) (v : Int) : ConsState P :=
  { s with inside := Function.update s.inside p none, ret := Function.update s.ret p v }

/-- A stretch of `consoleread` by `p`. -/
def read (s : ConsState P) (p : P) (target n : Nat) (v : ConsEnv) : ConsState P :=
  let (cons, fin, out) := consLoop v p target n s.cons
  let s := { s with cons := cons, output := s.output ++ out }
  match fin with
  | .dead => s.leave p (-1)
  | .wait n =>
    { s with inside := Function.update s.inside p (some (target, n)), asleep := Function.update s.asleep p true }
  | .done n => s.leave p (target - n : Nat)

/-- `consoleintr(c)`. -/
def intr (s : ConsState P) (c : BitVec 8) : ConsState P :=
  match s.cons.intr c with
  | (cons, false) => { s with cons := cons }
  | (cons, true) =>
    { s with
      cons := cons, asleep := fun _ => false
      input := s.input ++ window cons.buf s.cons.w (cons.w - s.cons.w).toNat }

end ConsState

/-- One step; a process that is asleep does not run. -/
def consStep (s : ConsState P) : ConsAct P → Option (ConsState P)
  | .call p n =>
    if (s.inside p).isSome then none
    else some { s with inside := Function.update s.inside p (some (n.toNat, n.toNat)) }
  | .run p v =>
    if s.asleep p then none else (s.inside p).map fun x => s.read p x.1 x.2 v
  | .intr c => some (s.intr c)
  | .wake => some { s with asleep := fun _ => false }

/-- The console after `consoleinit`. -/
def ConsState.init : ConsState P where
  cons := ⟨fun _ => 0, 0, 0, 0⟩
  inside _ := none
  asleep _ := false
  ret _ := 0
  input := []
  output := []

/-- The states reached by steps that satisfy a condition on the state before and the step. -/
def ConsReachable (C : ConsState P → ConsAct P → Prop) (s : ConsState P) : Prop :=
  Relation.ReflTransGen (fun s s' => ∃ a, C s a ∧ consStep s a = some s') ConsState.init s

/-- The state after a list of steps; a step that cannot be taken is left out. -/
def consAfter (as : List (ConsAct P)) : ConsState P := as.foldl (fun s a => (consStep s a).getD s) .init

theorem consReachable_after {C : ConsState P → ConsAct P → Prop} {as : List (ConsAct P)} (hC : ∀ s, ∀ a ∈ as, C s a) :
    ConsReachable C (consAfter as) := by
  induction as using List.reverseRecOn with
  | nil => exact .refl
  | append_singleton as a ih =>
    have ih := ih fun s b hb => hC s b (List.mem_append_left [a] hb)
    rw [consAfter, List.foldl_append]
    show ConsReachable C ((consStep (consAfter as) a).getD (consAfter as))
    cases hs : consStep (consAfter as) a with
    | none => exact ih
    | some s' => exact ih.tail ⟨a, hC _ a (by simp), hs⟩

end Xv6
