import Mathlib.Logic.Function.Basic
import Xv6.Lib.Index
import Xv6.Lib.Runs

/-!
# Spinlocks, interrupts and context switches

`acquire`, `release`, `push_off` and `pop_off` of `spinlock.c`, and what `scheduler`, `sched`, `yield` and `sleep` of `proc.c`
do with them, on any CPUs `C` that share the kernel threads of any processes `T`. Besides the process locks there are
spinlocks `L`.

A function is the list of its instructions: `acquire(lk)` is `push_off`, the test of `holding(lk)` and the loop around the
atomic swap. A thread that is between two calls may call any of them, in any order, and takes its process lock and
the state in it only as the functions of `proc.c` do; interrupts may come whenever they are enabled, and a handler is again
any sequence of calls. `lk->locked` and `lk->cpu` are one field here: no other CPU can see the moment between the two
stores.
-/

namespace Xv6.Spin

variable {C T L : Type}

inductive Lock (T L : Type)
  /-- `p->lock`. -/
  | proc (t : T)
  | other (l : L)
  deriving DecidableEq

inductive PState
  | unused | used | sleeping | runnable | running | zombie
  deriving DecidableEq

/-- `struct cpu`, with the interrupt-enable bit of the CPU. -/
structure Cpu where
  noff : Nat
  intena : Bool
  sie : Bool
  panicked : Option String

/-- `push_off()`. -/
def Cpu.pushOff (x : Cpu) : Cpu :=
  { x with sie := false, intena := if x.noff = 0 then x.sie else x.intena, noff := x.noff + 1 }

/-- `pop_off()`. -/
def Cpu.popOff (x : Cpu) : Cpu :=
  if x.sie then { x with panicked := some "pop_off - interruptible" }
  else if x.noff < 1 then { x with panicked := some "pop_off" }
  else { x with noff := x.noff - 1, sie := x.noff - 1 = 0 && x.intena }

/-! ## Code -/

inductive Instr (T L : Type)
  | pushOff
  | popOff
  /-- `if(holding(lk)) panic("acquire")`. -/
  | check (l : Lock T L)
  /-- `while(__sync_lock_test_and_set(&lk->locked, 1) != 0)`, and `lk->cpu = mycpu()`. -/
  | take (l : Lock T L)
  /-- `if(!holding(lk)) panic("release")`, `lk->cpu = 0` and `__sync_lock_release(&lk->locked)`. -/
  | drop (l : Lock T L)
  /-- `p->state = st` for `myproc()`. -/
  | setState (st : PState)
  /-- `sched()` after `myproc()`, up to its `swtch`. -/
  | sched
  /-- `mycpu()->intena = intena`, when `swtch` has come back. -/
  | restore (intena : Bool)
  /-- `if(p->state == RUNNABLE)` in `scheduler`, with what is inside up to the `swtch`. -/
  | test (t : T)
  | panic (msg : String)

def acquire (l : Lock T L) : List (Instr T L) := [.pushOff, .check l, .take l]

def release (l : Lock T L) : List (Instr T L) := [.drop l, .popOff]

def myproc : List (Instr T L) := [.pushOff, .popOff]

def sched : List (Instr T L) := myproc ++ [.sched]

def yield (t : T) : List (Instr T L) := myproc ++ acquire (.proc t) ++ [.setState .runnable] ++ sched ++ release (.proc t)

/-- `sleep(chan, lk)`, where `b` is the lock of the bucket of `chan`. -/
def sleep (t : T) (lk b : L) : List (Instr T L) :=
  myproc ++ acquire (.other b) ++ acquire (.proc t) ++ release (.other lk) ++ [.setState .sleeping] ++ release (.other b) ++
    sched ++ release (.proc t) ++ acquire (.other lk)

/-- The end of `kexit`, from where `wait_lock` is held. -/
def exit (t : T) (waitLock : L) : List (Instr T L) :=
  acquire (.proc t) ++ [.setState .zombie] ++ release (.other waitLock) ++ sched ++ [.panic "zombie exit"]

/-- `forkret()`, which releases the lock that the scheduler has taken. -/
def forkret (t : T) : List (Instr T L) := myproc ++ release (.proc t)

/-- The body of the inner loop of `scheduler()`. -/
def pick (t : T) : List (Instr T L) := acquire (.proc t) ++ [.test t] ++ release (.proc t)

/-! ## Machine -/

/-- A kernel thread: the scheduler of a CPU, or that of a process. -/
inductive Tid (C T : Type)
  | sched (c : C)
  | proc (t : T)
  deriving DecidableEq

structure State (C T L : Type) where
  cpu : C → Cpu
  cur : C → Tid C T
  lock : Lock T L → Option C
  /-- `p->state`. -/
  state : T → PState
  /-- What is left of the function that a thread is in, and of those that interrupts have interrupted. -/
  stack : Tid C T → List (List (Instr T L))

/-- What a thread does when it is in no function. -/
inductive Op (T L : Type)
  | acquire (l : Lock T L)
  | release (l : Lock T L)
  | myproc
  | yield
  | sleep (lk b : L)
  | sched
  | exit (waitLock : L)
  /-- The state of another process is changed, with its lock held: `wakeup`, `allocproc`, `freeproc`, `kfork`. -/
  | setState (t : T) (st : PState)
  /-- `allocproc` makes another process start at `forkret`. -/
  | spawn (t : T)
  /-- A turn of the loop in `scheduler()`. -/
  | pick (t : T)
  /-- `intr_on()` and `intr_off()`. -/
  | intrOn
  | intrOff
  /-- The end of an interrupt handler. -/
  | sret
  deriving DecidableEq

inductive Act (T L : Type)
  | run
  | call (op : Op T L)
  | intr
  deriving DecidableEq

section Step

variable [DecidableEq C] [DecidableEq T] [DecidableEq L]

namespace State

variable (s : State C T L) (c : C)

def setCpu (g : Cpu → Cpu) : State C T L := { s with cpu := Function.update s.cpu c (g (s.cpu c)) }

def setStack (st : List (List (Instr T L))) : State C T L := { s with stack := Function.update s.stack (s.cur c) st }

def panic (msg : String) : State C T L := s.setCpu c fun x => { x with panicked := some msg }

def setState (t : T) (st : PState) : State C T L := { s with state := Function.update s.state t st }

/-- `sched()` by process `t`, with `k` and `rest` left to do. -/
def sched (t : T) (k : List (Instr T L)) (rest : List (List (Instr T L))) : State C T L :=
  if s.lock (.proc t) ≠ some c then s.panic c "sched p->lock"
  else if (s.cpu c).noff ≠ 1 then s.panic c "sched locks"
  else if s.state t = .running then s.panic c "sched RUNNING"
  else if (s.cpu c).sie then s.panic c "sched interruptible"
  else { s.setStack c ((.restore (s.cpu c).intena :: k) :: rest) with cur := Function.update s.cur c (.sched c) }

/-- One instruction of CPU `c`; a CPU that spins has none. -/
def exec (k : List (Instr T L)) (rest : List (List (Instr T L))) : Instr T L → Option (State C T L)
  | .pushOff => some ((s.setCpu c Cpu.pushOff).setStack c (k :: rest))
  | .popOff => some ((s.setCpu c Cpu.popOff).setStack c (k :: rest))
  | .check l => some (if s.lock l = some c then s.panic c "acquire" else s.setStack c (k :: rest))
  | .take l =>
    if s.lock l = none then some { s.setStack c (k :: rest) with lock := Function.update s.lock l (some c) } else none
  | .drop l =>
    some (if s.lock l = some c then { s.setStack c (k :: rest) with lock := Function.update s.lock l none }
      else s.panic c "release")
  | .setState st =>
    match s.cur c with
    | .proc t => some ((s.setState t st).setStack c (k :: rest))
    | .sched _ => none
  | .sched =>
    match s.cur c with
    | .proc t => some (s.sched c t k rest)
    | .sched _ => none
  | .restore b => some ((s.setCpu c fun x => { x with intena := b }).setStack c (k :: rest))
  | .test t =>
    if s.state t = .runnable then
      some { (s.setState t .running).setStack c (k :: rest) with cur := Function.update s.cur c (.proc t) }
    else some (s.setStack c (k :: rest))
  | .panic msg => some (s.panic c msg)

/-- A call by the process `t`. -/
def callProc (t : T) (rest : List (List (Instr T L))) : Op T L → Option (State C T L)
  | .yield => some (s.setStack c (Spin.yield t :: rest))
  | .sleep lk b => some (s.setStack c (Spin.sleep t lk b :: rest))
  | .sched => some (s.setStack c (Spin.sched :: rest))
  | .exit waitLock => some (s.setStack c (Spin.exit t waitLock :: rest))
  | _ => none

/-- A call on CPU `c`, whose thread has interrupted functions `rest`. -/
def call (rest : List (List (Instr T L))) : Op T L → Option (State C T L)
  | .acquire l => some (s.setStack c (Spin.acquire l :: rest))
  | .release l => some (s.setStack c (Spin.release l :: rest))
  | .myproc => some (s.setStack c (Spin.myproc :: rest))
  | .setState t st =>
    if s.lock (.proc t) = some c ∧ s.cur c ≠ .proc t ∧ s.state t ≠ .running ∧ st ≠ .running then some (s.setState t st)
    else none
  | .spawn t =>
    if s.lock (.proc t) = some c ∧ s.cur c ≠ .proc t ∧ s.state t ≠ .running then
      some { s with stack := Function.update s.stack (.proc t) [forkret t] }
    else none
  | .pick t =>
    if s.cur c = .sched c ∧ rest = [] ∧ (s.cpu c).noff = 0 then some (s.setStack c (Spin.pick t :: rest)) else none
  | .intrOn => if (s.cpu c).noff = 0 then some (s.setCpu c fun x => { x with sie := true }) else none
  | .intrOff => some (s.setCpu c fun x => { x with sie := false })
  | .sret =>
    match rest with
    | [] => none
    | k :: rest =>
      if (s.cpu c).noff = 0 then some ((s.setCpu c fun x => { x with sie := true }).setStack c (k :: rest)) else none
  | op =>
    match s.cur c with
    | .proc t => s.callProc c t rest op
    | .sched _ => none

end State

/-- One step of CPU `c`. -/
def step (s : State C T L) (a : C × Act T L) : Option (State C T L) :=
  if (s.cpu a.1).panicked.isSome then none
  else
    match s.stack (s.cur a.1), a.2 with
    | [], _ => none
    | (i :: k) :: rest, .run => s.exec a.1 k rest i
    | [] :: rest, .call op => s.call a.1 rest op
    | k :: rest, .intr =>
      if (s.cpu a.1).sie then
        some ((s.setCpu a.1 fun x => { x with sie := false }).setStack a.1 ([] :: k :: rest))
      else none
    | _, _ => none

/-- The machine when the CPUs enter `scheduler()`, with one process. -/
def State.boot (init : T) : State C T L where
  cpu _ := ⟨0, false, false, none⟩
  cur c := .sched c
  lock _ := none
  state t := if t = init then .runnable else .unused
  stack
    | .sched _ => [[]]
    | .proc t => [forkret t]

def Reachable (s : State C T L) : Prop := ∃ init, Lib.Runs step (fun _ _ => True) (State.boot init) s

end Step

end Xv6.Spin
