import Xv6.Fs.Model
import Xv6.Pipe.Model

/-!
# Open files and pipes

The file table, the descriptors of the processes `P` and the pipes: `file.c`, `pipe.c`, and the calls of `sysfile.c` and
`proc.c` that open, duplicate, close and inherit descriptors.

A step is a critical section of `ftable.lock` or `pi->lock`, with what the process does around it to data that no other
process looks at: its own descriptors, a file it has just allocated. `kalloc`, `copyout` and `uvmcopy` may fail at any
time. A pipe is known by the number of its page; a page that is no pipe may be in use for something else. What `fileclose`
and `sys_open` do with the inode of a file is not part of this; see `Xv6.Fs`.

The processes asleep in `piperead` and `pipewrite` are in the wait queues of the two channels of the pipe. The stretches of
these functions between releases of `pi->lock` are those of `Xv6.Pipe.Model`. As `wq_has_sleeper` may overlook a process
that is on its way into the queue, `if(wq_has_sleeper(c)) wakeup_one(c)` wakes somebody or not.
-/

namespace Xv6.Ftable

open Lib (Prog Machine)
open Fs (NFILE NOFILE)

inductive FileType
  | none
  | pipe
  | inode
  | device
  deriving DecidableEq

/-- `struct file`; `pipe` is the number of the pipe's page. -/
structure File where
  ref : Nat
  type : FileType
  readable : Bool
  writable : Bool
  pipe : Nat
  deriving DecidableEq

inductive Panic
  | fileclose
  | filedup
  | fileread
  | filewrite
  | initExiting
  deriving DecidableEq

def Panic.msg : Panic → String
  | .fileclose => "fileclose"
  | .filedup => "filedup"
  | .fileread => "fileread"
  | .filewrite => "filewrite"
  | .initExiting => "init exiting"

structure State (P : Type) where
  file : Fin NFILE → File
  ofile : P → Fin NOFILE → Option (Fin NFILE)
  /-- The pages that are pipes. -/
  pipe : Nat → Option Pipe
  /-- The pipe on which a process is inside `piperead` or (with `true`) `pipewrite`. -/
  inside : P → Option (Nat × Bool)
  /-- The wait queues of `&pi->nread` and (with `true`) of `&pi->nwrite`. -/
  queue : Nat → Bool → List P
  proc : P → Fs.ProcState
  panicked : Option Panic

/-- The steps. -/
inductive Cmd (P : Type)
  | filealloc
  /-- `fdalloc(f)`. -/
  | fdalloc (f : Fin NFILE)
  /-- The assignments to the fields of a file; `sys_open` leaves `f->pipe` alone. -/
  | setFile (f : Fin NFILE) (type : FileType) (readable writable : Bool) (pipe : Option Nat)
  /-- `p->ofile[fd] = 0`. -/
  | clearFd (fd : Fin NOFILE)
  /-- `sys_dup`: `argfd`, `fdalloc` and `filedup`. -/
  | dup (fd : Fin NOFILE)
  /-- `argfd`, `p->ofile[fd] = 0` and the critical section of `fileclose`: the file, if that was its last reference. -/
  | close (fd : Fin NOFILE)
  /-- The critical section of `fileclose`. -/
  | fileclose (f : Fin NFILE)
  /-- `kalloc`, and a new pipe in the page. -/
  | kallocPipe
  /-- `copyout` to the process. -/
  | copyout
  /-- The critical section of `pipeclose`: whether both ends are closed. -/
  | pipeclose (pi : Nat) (writable : Bool)
  | kfree (pi : Nat)
  /-- `fileread` or (with `true`) `filewrite`, up to the call of `piperead` or `pipewrite`. -/
  | access (fd : Fin NOFILE) (write : Bool)
  /-- A stretch of `piperead(pi, addr, n)`: the value it returns, unless it goes to sleep. -/
  | piperead (pi : Nat) (n : Int)
  /-- A stretch of `pipewrite(pi, addr, n)` after `i` bytes: the value it returns, or the bytes so far if it goes to sleep. -/
  | pipewrite (pi : Nat) (n : Int) (i : Nat)
  /-- `wakeup` on the channel on which a process sleeps, by `kkill`. -/
  | kill (q : P)
  /-- `allocproc` finds the process `np` unused. -/
  | allocproc (np : P)
  /-- `uvmcopy`, and `freeproc(np)` if it fails. -/
  | uvmcopy (np : P)
  /-- `if(p->ofile[i]) np->ofile[i] = filedup(p->ofile[i])`. -/
  | filedup (np : P) (i : Fin NOFILE)
  /-- `np->state = RUNNABLE`. -/
  | start (np : P)
  /-- The process becomes a zombie, and may be freed. -/
  | exit
  | panic (x : Panic)
  /-- The process waits for ever. -/
  | wait

/-- What the steps return. -/
abbrev Cmd.R {P : Type} : Cmd P → Type
  | .filealloc => Option (Fin NFILE)
  | .fdalloc _ => Option (Fin NOFILE)
  | .dup _ => Option (Fin NOFILE)
  | .close _ => Option File
  | .fileclose _ => Option File
  | .kallocPipe => Option Nat
  | .copyout => Bool
  | .pipeclose _ _ => Bool
  | .access _ _ => Option (Fin NFILE × Nat)
  | .piperead _ _ => Option Int
  | .pipewrite _ _ _ => Int ⊕ Nat
  | .allocproc _ => Bool
  | .uvmcopy _ => Bool
  | _ => Unit

abbrev FProg (P : Type) := Prog (Cmd P) Cmd.R

namespace State

variable {P : Type} [DecidableEq P] (s : State P)

def panic (x : Panic) : State P := { s with panicked := some x }

def setFile (f : Fin NFILE) (x : File) : State P := { s with file := Function.update s.file f x }

def setOfile (p : P) (fd : Fin NOFILE) (x : Option (Fin NFILE)) : State P :=
  { s with ofile := Function.update s.ofile p (Function.update (s.ofile p) fd x) }

def setPipe (n : Nat) (x : Option Pipe) : State P := { s with pipe := Function.update s.pipe n x }

def setInside (p : P) (x : Option (Nat × Bool)) : State P := { s with inside := Function.update s.inside p x }

def setQueue (n : Nat) (w : Bool) (l : List P) : State P :=
  { s with queue := Function.update s.queue n (Function.update (s.queue n) w l) }

def setProc (p : P) (x : Fs.ProcState) : State P := { s with proc := Function.update s.proc p x }

/-- `wakeup`. -/
def wakeup (n : Nat) (w : Bool) : State P := s.setQueue n w []

/-- `if(wq_has_sleeper(c)) wakeup_one(c)`, which may overlook a process. -/
def wakeupOne (n : Nat) (w : Bool) (seen : Bool) : State P := if seen then s.setQueue n w (s.queue n w).tail else s

/-- `sleep`. -/
def sleep (p : P) (n : Nat) (w : Bool) : State P := s.setQueue n w (p :: s.queue n w)

/-- The first free descriptor. -/
def freeFd (p : P) : Option (Fin NOFILE) := (List.finRange NOFILE).find? fun fd => (s.ofile p fd).isNone

/-- `fileclose` of a file, up to `release(&ftable.lock)`. -/
def fileclose (f : Fin NFILE) : Option File × State P :=
  if (s.file f).ref < 1 then (none, s.panic .fileclose)
  else if 1 < (s.file f).ref then (none, s.setFile f { s.file f with ref := (s.file f).ref - 1 })
  else (some (s.file f), s.setFile f { s.file f with ref := 0, type := .none })

end State

/-- What a stretch of `piperead` or `pipewrite` gets from outside, from the digits of a number. -/
def envOf (ch : Nat) : PipeEnv where
  killed i := (ch / 2048 ^ i).testBit 0
  copyin i := if (ch / 2048 ^ i).testBit 1 then none else some (BitVec.ofNat 8 (ch / 2048 ^ i / 8))
  copyout i := !(ch / 2048 ^ i).testBit 2

variable {P : Type} [DecidableEq P]

/-- A step of process `p`. The choice `ch` says which page `kalloc` finds, what fails, and what a process gets from
outside the pipe. A process that has to wait has no step. -/
def Cmd.exec (p : P) : (c : Cmd P) → Nat → State P → Option (c.R × State P)
  | .filealloc, _, s =>
    match (List.finRange NFILE).find? fun f => (s.file f).ref == 0 with
    | some f => some (some f, s.setFile f { s.file f with ref := 1 })
    | none => some (none, s)
  | .fdalloc f, _, s =>
    match s.freeFd p with
    | some fd => some (some fd, s.setOfile p fd (some f))
    | none => some (none, s)
  | .setFile f type r w pipe, _, s =>
    some ((), s.setFile f ⟨(s.file f).ref, type, r, w, pipe.getD (s.file f).pipe⟩)
  | .clearFd fd, _, s => some ((), s.setOfile p fd none)
  | .dup fd, _, s =>
    match s.ofile p fd, s.freeFd p with
    | some f, some fd' =>
      if (s.file f).ref < 1 then some (none, s.panic .filedup)
      else some (some fd', (s.setFile f { s.file f with ref := (s.file f).ref + 1 }).setOfile p fd' (some f))
    | _, _ => some (none, s)
  | .close fd, _, s =>
    match s.ofile p fd with
    | none => some (none, s)
    | some f => some ((s.setOfile p fd none).fileclose f)
  | .fileclose f, _, s => some (s.fileclose f)
  | .kallocPipe, ch, s =>
    if ch = 0 then some (none, s)
    else if (s.pipe (ch - 1)).isNone then some (some (ch - 1), s.setPipe (ch - 1) (some Pipe.alloc))
    else none
  | .copyout, ch, s => some (ch == 0, s)
  | .pipeclose n w, _, s =>
    match s.pipe n with
    | none => none
    | some pi =>
      let pi := if w then { pi with writeopen := false } else { pi with readopen := false }
      some (!pi.readopen && !pi.writeopen, (s.setPipe n (some pi)).wakeup n (!w))
  | .kfree n, _, s => some ((), s.setPipe n none)
  | .access fd write, _, s =>
    match s.ofile p fd with
    | none => some (none, s)
    | some f =>
      if (if write then (s.file f).writable else (s.file f).readable) = false then some (none, s)
      else
        match (s.file f).type with
        | .pipe => some (some (f, (s.file f).pipe), s.setInside p (some ((s.file f).pipe, write)))
        | .none => some (none, s.panic (if write then .filewrite else .fileread))
        | _ => some (none, s)
  | .piperead n count, ch, s =>
    if p ∈ s.queue n false then none
    else
      match s.pipe n with
      | none => none
      | some pi =>
        let e := envOf (ch / 2)
        if pi.nread = pi.nwrite ∧ pi.writeopen = true then
          if e.killed 0 then some (some (-1), s.setInside p none) else some (none, s.sleep p n false)
        else
          let (pi, v, _) := readLoop e count.toNat 0 pi
          some (some v, ((s.setPipe n (some pi)).wakeupOne n true (ch.testBit 0)).setInside p none)
  | .pipewrite n count i, ch, s =>
    if p ∈ s.queue n true then none
    else
      match s.pipe n with
      | none => none
      | some pi =>
        let (pi, fin) := writeLoop (envOf (ch / 2)) (count.toNat - i) i pi
        let s := s.setPipe n (some pi)
        match fin with
        | .dead => some (.inl (-1), s.setInside p none)
        | .full i => some (.inr i, (s.wakeupOne n false (ch.testBit 0)).sleep p n true)
        | .done i => some (.inl i, (s.wakeupOne n false (ch.testBit 0)).setInside p none)
  | .kill q, _, s =>
    match s.inside q with
    | none => some ((), s)
    | some (n, w) => some ((), if q ∈ s.queue n w then s.wakeup n w else s)
  | .allocproc np, _, s =>
    if s.proc np = .unused then some (true, s.setProc np .used) else some (false, s)
  | .uvmcopy np, ch, s => if ch = 0 then some (true, s) else some (false, s.setProc np .unused)
  | .filedup np i, _, s =>
    match s.ofile p i with
    | none => some ((), s)
    | some f =>
      if (s.file f).ref < 1 then some ((), s.panic .filedup)
      else some ((), (s.setFile f { s.file f with ref := (s.file f).ref + 1 }).setOfile np i (some f))
  | .start np, _, s => some ((), s.setProc np .runnable)
  | .exit, _, s => some ((), s.setProc p .unused)
  | .panic x, _, s => some ((), s.panic x)
  | .wait, _, _ => none

/-- The machine. -/
def machine (P : Type) [DecidableEq P] : Machine P (Cmd P) Cmd.R (State P) where
  exec := Cmd.exec
  halted s := s.panicked.isSome

/-! ## The functions -/

section Programs

variable {P : Type}

/-- Make a step. -/
def FProg.step (c : Cmd P) : FProg P c.R := Prog.call c

export FProg (step)

def pipeclose (pi : Nat) (writable : Bool) : FProg P Unit := do
  if ← step (.pipeclose pi writable) then
    step (.kfree pi)

/-- `fileclose` after its critical section. -/
def filecloseEnd : Option File → FProg P Unit
  | none => return ()
  | some ff => if ff.type = .pipe then pipeclose ff.pipe ff.writable else return ()

def fileclose (f : Fin NFILE) : FProg P Unit := do
  filecloseEnd (← step (.fileclose f))

def pipealloc : FProg P (Option (Fin NFILE × Fin NFILE)) := do
  match ← step .filealloc with
  | none => return none
  | some f0 =>
    match ← step .filealloc with
    | none =>
      fileclose f0
      return none
    | some f1 =>
      match ← step .kallocPipe with
      | none =>
        fileclose f0
        fileclose f1
        return none
      | some pi =>
        step (.setFile f0 .pipe true false (some pi))
        step (.setFile f1 .pipe false true (some pi))
        return some (f0, f1)

def sysPipe : FProg P Bool := do
  match ← pipealloc with
  | none => return false
  | some (rf, wf) =>
    match ← step (.fdalloc rf) with
    | none =>
      fileclose rf
      fileclose wf
      return false
    | some fd0 =>
      match ← step (.fdalloc wf) with
      | none =>
        step (.clearFd fd0)
        fileclose rf
        fileclose wf
        return false
      | some fd1 =>
        if (← step .copyout) && (← step .copyout) then return true
        else
          step (.clearFd fd0)
          step (.clearFd fd1)
          fileclose rf
          fileclose wf
          return false

/-- `sys_open` once the inode is found, of a device or not. -/
def sysOpen (device readable writable : Bool) : FProg P Bool := do
  match ← step .filealloc with
  | none => return false
  | some f =>
    match ← step (.fdalloc f) with
    | none =>
      fileclose f
      return false
    | some _ =>
      step (.setFile f (if device then .device else .inode) readable writable none)
      return true

def sysClose (fd : Fin NOFILE) : FProg P Unit := do
  filecloseEnd (← step (.close fd))

/-- `piperead`, in which the process goes to sleep fewer than `turns` times. -/
def piperead (pi : Nat) (n : Int) : Nat → FProg P Unit
  | 0 => step .wait
  | turns + 1 => do
    match ← step (.piperead pi n) with
    | some _ => return ()
    | none => piperead pi n turns

/-- `pipewrite` after `i` bytes, in which the process goes to sleep fewer than `turns` times. -/
def pipewrite (pi : Nat) (n : Int) : Nat → Nat → FProg P Unit
  | 0, _ => step .wait
  | turns + 1, i => do
    match ← step (.pipewrite pi n i) with
    | .inl _ => return ()
    | .inr i => pipewrite pi n turns i

def sysRead (fd : Fin NOFILE) (n : Int) (turns : Nat) : FProg P Unit := do
  match ← step (.access fd false) with
  | none => return ()
  | some (_, pi) => piperead pi n turns

def sysWrite (fd : Fin NOFILE) (n : Int) (turns : Nat) : FProg P Unit := do
  match ← step (.access fd true) with
  | none => return ()
  | some (_, pi) => pipewrite pi n turns 0

/-- The loop of `kfork` over the open files. -/
def dupFiles (np : P) : List (Fin NOFILE) → FProg P Unit
  | [] => return ()
  | fd :: rest => do
    step (.filedup np fd)
    dupFiles np rest

/-- `kfork`, when `allocproc` comes to the process `np`. -/
def kfork (np : P) : FProg P Bool := do
  if ← step (.allocproc np) then
    if ← step (.uvmcopy np) then
      dupFiles np (List.finRange NOFILE)
      step (.start np)
      return true
    else return false
  else return false

/-- The loop of `kexit` over the open files. It clears a descriptor after `fileclose`, which is seen by nobody. -/
def closeFiles : List (Fin NOFILE) → FProg P Unit
  | [] => return ()
  | fd :: rest => do
    sysClose fd
    closeFiles rest

def kexit (init : Bool) : FProg P Unit := do
  if init then
    step (.panic .initExiting)
  else
    closeFiles (List.finRange NOFILE)
    step .exit

/-- The calls. A process that reads or writes goes to sleep any number of times. -/
inductive Call (P : Type)
  | «open» (device readable writable : Bool)
  | dup (fd : Fin NOFILE)
  | close (fd : Fin NOFILE)
  | pipe
  | read (fd : Fin NOFILE) (n : Int) (turns : Nat)
  | write (fd : Fin NOFILE) (n : Int) (turns : Nat)
  | kill (q : P)
  | fork (np : P)
  | exit

def Call.prog (init : Bool) : Call P → FProg P Unit
  | .open device r w => do let _ ← sysOpen device r w
  | .dup fd => do let _ ← step (.dup fd)
  | .close fd => sysClose fd
  | .pipe => do let _ ← sysPipe
  | .read fd n turns => sysRead fd n turns
  | .write fd n turns => sysWrite fd n turns
  | .kill q => step (.kill q)
  | .fork np => do let _ ← kfork np
  | .exit => kexit init

end Programs

/-- A process that is runnable and in no call may make any. -/
def Calls (initproc : P) (s : State P) (p : P) (f : FProg P Unit) : Prop :=
  s.proc p = .runnable ∧ ∃ c : Call P, f = c.prog (decide (p = initproc))

/-- The first process is made, and nothing is open. -/
def State.init (initproc : P) : State P where
  file _ := ⟨0, .none, false, false, 0⟩
  ofile _ _ := none
  pipe _ := none
  inside _ := none
  queue _ _ := []
  proc p := if p = initproc then .runnable else .unused
  panicked := none

/-- The configurations that can be reached. -/
def Reachable (initproc : P) (x : Machine.Conf P (Cmd P) Cmd.R (State P)) : Prop :=
  (machine P).Reachable (Calls initproc) (fun _ _ _ => True) (State.init initproc) x

end Xv6.Ftable
