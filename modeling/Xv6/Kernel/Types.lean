import Mathlib.Logic.Function.Basic
import Xv6.Lib.Chain
import Xv6.Lib.Index

/-!
# The process table, the wait queues and the locks

The data of `kernel/proc.h`, `kernel/waitqueue.h` and `kernel/spinlock.h`: processes with their embedded wait-queue
entry, the sixteen buckets, the per-CPU state, and the names of the kernel's spinlocks. The table has `np` slots
(`NPROC`), a slot is a `Fin np`, and a pointer to a process (or to the `wq_entry` embedded in it) is an
`Option (Fin np)`, the null pointer being `none`.
-/

namespace Xv6

/-- A sleep channel: a kernel address. -/
abbrev Chan := BitVec 64

/-- `NWQUEUE`, the number of buckets of the wait-queue table. -/
abbrev NWQUEUE : Nat := 16

/-- `enum procstate`. -/
inductive ProcState
  | unused | used | sleeping | runnable | running | zombie
  deriving DecidableEq, Repr

/-- `struct wq_entry`, embedded in `struct proc`; `next` points to the entry embedded in that process. -/
structure WqEntry (np : Nat) where
  proc : Fin np
  chan : Chan
  next : Option (Fin np)
  queued : Bool

/-- `struct proc`, without the fields private to the process (memory, trapframe, open files, name). -/
structure Proc (np : Nat) where
  state : ProcState
  chan : Chan
  killed : Bool
  xstate : BitVec 32
  pid : BitVec 32
  parent : Option (Fin np)
  wqEntry : WqEntry np

/-- `struct cpu`, with the interrupt-enable bit of the hart and the message of the `panic` it stopped at. -/
structure Cpu (np : Nat) where
  proc : Option (Fin np)
  noff : Nat
  intena : Bool
  sie : Bool
  panicked : Option String

/-- The spinlocks outside the process table and the wait queues. `pipe pi` is `pi->lock`, `sleepLk a` the spinlock
`lk` inside a sleep-lock. -/
inductive LockName
  | waitLock | pidLock | ticksLock | consLock | txLock | logLock | vdiskLock
  | itableLock | ftableLock | bcacheLock | kmemLock
  | pipe (pi : Nat)
  | sleepLk (a : Nat)
  deriving DecidableEq, Repr

/-- A spinlock: a named one, the lock of a wait-queue bucket, or `p->lock`. -/
inductive Lock (np : Nat)
  | named (k : LockName)
  | bucket (i : Fin NWQUEUE)
  | proc (p : Fin np)
  deriving DecidableEq

/-- The shared data the code of `proc.c` and `waitqueue.c` works on; `data` is the shared data of its callers. -/
structure Kernel (np : Nat) (D : Type) where
  procs : Fin np → Proc np
  head : Fin NWQUEUE → Option (Fin np)
  nextpid : BitVec 32
  data : D

/-- `wq_hash`. -/
def wqHash (chan : Chan) : Fin NWQUEUE :=
  ⟨((chan >>> 3) &&& 15#64).toNat, by
    rw [BitVec.toNat_and]
    exact Nat.lt_of_le_of_lt Nat.and_le_right (by decide)⟩

namespace Kernel

variable {np : Nat} {D : Type}

/-- A store to one process. -/
def setProc (κ : Kernel np D) (p : Fin np) (f : Proc np → Proc np) : Kernel np D :=
  { κ with procs := Function.update κ.procs p (f (κ.procs p)) }

/-- A store to the head of one bucket. -/
def setHead (κ : Kernel np D) (i : Fin NWQUEUE) (h : Option (Fin np)) : Kernel np D :=
  { κ with head := Function.update κ.head i h }

/-- The `next` fields of the embedded entries. -/
def nextOf (κ : Kernel np D) (p : Fin np) : Option (Fin np) := (κ.procs p).wqEntry.next

variable (κ : Kernel np D) (p q : Fin np) (f : Proc np → Proc np) (i : Fin NWQUEUE) (h : Option (Fin np))

@[simp] theorem setProc_same : (κ.setProc p f).procs p = f (κ.procs p) := by simp [setProc]
@[simp] theorem setProc_head : (κ.setProc p f).head = κ.head := rfl
@[simp] theorem setHead_procs : (κ.setHead i h).procs = κ.procs := rfl
@[simp] theorem setHead_same : (κ.setHead i h).head i = h := by simp [setHead]
theorem setProc_procs : (κ.setProc p f).procs q = if q = p then f (κ.procs p) else κ.procs q := by
  simp only [setProc, Function.update_apply]

variable {p q i}

theorem setProc_ne (hq : q ≠ p) : (κ.setProc p f).procs q = κ.procs q := Function.update_of_ne hq _ _
theorem setHead_ne {j : Fin NWQUEUE} (hj : j ≠ i) : (κ.setHead i h).head j = κ.head j := Function.update_of_ne hj _ _

end Kernel

end Xv6
