import Xv6.Kernel.WaitQueue

/-!
# The program text of `proc.c`

Every function of `proc.c` that takes part in sleeping, waking, killing, forking, exiting and scheduling is a set of
program points, one for each access that another CPU can interleave with: a lock operation, an access to the data a
lock protects, a call, a context switch. `instr` gives the instruction at each point and the points it goes on to.

The code around these functions (system calls, drivers, the file system) is a parameter: a `System` brings its own
program points `L`, its shared data `D` and the operations its points perform. Nothing is assumed about it.
-/

namespace Xv6

/-! ## The code around `proc.c` -/

/-- What the surrounding code does at one of its program points; `k` is the point it goes on to. -/
inductive Op (np : Nat) (D L : Type)
  | acquire (l : LockName) (k : L)
  | release (l : LockName) (k : L)
  | data (f : D → D) (k : D → L)
  | choose (k : Nat → L)
  | self (k : Option (Fin np) → L)
  | mypid (k : BitVec 32 → L)
  | call (callee k : L)
  | ret (v : Int)
  | sleep (chan : Chan) (lk : LockName) (k : L)
  | wakeup (chan : Chan) (k : L)
  | wakeupOne (chan : Chan) (k : L)
  | wqHasSleeper (chan : Chan) (k : Bool → L)
  | kkill (pid : BitVec 32) (k : L)
  | setkilled (k : L)
  | killed (k : L)
  | kfork (k : L)
  | kexit (status : BitVec 32)
  | kwait (k : L)
  | yield (k : L)
  | intrOn (k : L)
  | intrOff (k : L)
  | panic (msg : String)

/-- The surroundings of `proc.c`: the other kernel code, the interrupt handlers, where the process structures lie and
which of them is `initproc`. -/
structure System (np : Nat) where
  D : Type
  L : Type
  data0 : D
  code : L → Op np D L
  /-- The point after a call, given the value the call returned. -/
  resume : L → Int → L
  /-- What a process runs once `forkret` has released its lock. -/
  main : L
  /-- The part of `kfork` that duplicates the open files and the current directory for the child in a slot. -/
  dup : Fin np → L
  /-- The device code run for an interrupt. -/
  handler : Nat → L
  /-- Is this the timer interrupt (`devintr() == 2`)? -/
  timer : Nat → Bool
  procAddr : Fin np → Chan
  initproc : Fin np

/-! ## Program points -/

inductive SleepPc
  | lockBucket | lockProc | unlockCond | enqueue | setSleeping | unlockBucket | callSched | tidy | unlockProc | lockCond

/-- Points of `wakeup` and `wakeup_one`: `q` is `e->proc`, and `unlockBucket` carries the entry at which the loop was
left by `break`. -/
inductive WakePc (np : Nat)
  | lockBucket
  | first
  | walk (e : Option (Fin np))
  | lockProc (e q : Fin np) (next : Option (Fin np))
  | test (e q : Fin np) (next : Option (Fin np))
  | unlink (e q : Fin np) (next : Option (Fin np))
  | unlockWoken (e q : Fin np) (next : Option (Fin np))
  | unlockMiss (e q : Fin np) (next : Option (Fin np))
  | unlockBucket (e : Option (Fin np))

inductive KkillPc (np : Nat)
  | scan (i : Nat)
  | test (i : Fin np)
  | unlockMiss (i : Fin np)
  | unlockAsleep (i : Fin np) (chan : Chan)
  | callWakeup (i : Fin np) (chan : Chan)
  | unlockHit (i : Fin np)
  | found (i : Fin np)

inductive SetkilledPc
  | lock | set | unlock

inductive KilledPc
  | lock | read
  | unlock (k : Bool)

/-- Points of `kfork`, with `allocproc`, `allocpid` and `freeproc` inlined; `i` is the slot of the child. -/
inductive KforkPc (np : Nat)
  | scan (i : Nat)
  | test (i : Fin np)
  | unlockUsed (i : Fin np)
  | lockPid (i : Fin np)
  | readPid (i : Fin np)
  | unlockPid (i : Fin np) (pid : BitVec 32)
  | setUsed (i : Fin np) (pid : BitVec 32)
  | trapframe (i : Fin np) (pid : BitVec 32)
  | pagetable (i : Fin np) (pid : BitVec 32)
  | context (i : Fin np) (pid : BitVec 32)
  | uvmcopy (i : Fin np) (pid : BitVec 32)
  | dup (i : Fin np) (pid : BitVec 32)
  | unlockChild (i : Fin np) (pid : BitVec 32)
  | lockWait (i : Fin np) (pid : BitVec 32)
  | setParent (i : Fin np) (pid : BitVec 32)
  | unlockWait (i : Fin np) (pid : BitVec 32)
  | lockChild (i : Fin np) (pid : BitVec 32)
  | setRunnable (i : Fin np) (pid : BitVec 32)
  | unlockDone (i : Fin np) (pid : BitVec 32)
  | freeproc (i : Fin np)
  | unlockFail (i : Fin np)

/-- Points of `kexit`, with `reparent` inlined. -/
inductive KexitPc (np : Nat)
  | start
  | lockWait
  | reparent (i : Nat)
  | callInit (i : Fin np)
  | callParent (chan : Chan)
  | lockSelf
  | setZombie
  | unlockWait
  | callSched
  | zombieExit

inductive KwaitPc (np : Nat)
  | lockWait
  | start
  | scan (i : Nat) (havekids : Bool)
  | lockChild (i : Fin np)
  | test (i : Fin np)
  | copyout (i : Fin np) (pid : BitVec 32)
  | freeproc (i : Fin np) (pid : BitVec 32)
  | unlockFound (i : Fin np) (v : Int)
  | unlockMiss (i : Fin np)
  | check (havekids : Bool)
  | decide (killed : Int)
  | callSleep
  | unlockWait (v : Int)

inductive YieldPc
  | lock | setRunnable | callSched | unlock

/-- Points of `sched`: before the checks, and after `swtch` has come back, with the saved `intena`. -/
inductive SchedPc
  | enter
  | back (intena : Bool)

inductive SchedulerPc (np : Nat)
  | start | intrOn | intrOff
  | scan (i : Nat) (found : Bool)
  | test (i : Fin np) (found : Bool)
  | run (i : Fin np)
  | back (i : Fin np)
  | unlock (i : Fin np) (found : Bool)
  | idle (found : Bool)

inductive TrapPc
  | devintr (irq : Nat)
  | after (timer : Bool)
  | sret

/-- An activation record of the kernel: the function, its local variables and where it is. -/
inductive Frame (np : Nat) (L : Type)
  | client (l : L)
  | ret (v : Int)
  | sleep (p : Fin np) (chan : Chan) (lk : LockName) (pc : SleepPc)
  | wake (one : Bool) (chan : Chan) (pc : WakePc np)
  | kkill (pid : BitVec 32) (pc : KkillPc np)
  | setkilled (q : Fin np) (pc : SetkilledPc)
  | killed (q : Fin np) (pc : KilledPc)
  | kfork (p : Fin np) (pc : KforkPc np)
  | kexit (p : Fin np) (status : BitVec 32) (pc : KexitPc np)
  | kwait (p : Fin np) (pc : KwaitPc np)
  | yield (p : Fin np) (pc : YieldPc)
  | sched (p : Fin np) (pc : SchedPc)
  | scheduler (pc : SchedulerPc np)
  | forkret (p : Fin np)
  | kerneltrap (pc : TrapPc)

/-- A call of `wakeup(chan)`. -/
def Frame.wakeup {np : Nat} {L : Type} (chan : Chan) : Frame np L := .wake false chan .lockBucket

/-- A call of `wakeup_one(chan)`. -/
def Frame.wakeupOne {np : Nat} {L : Type} (chan : Chan) : Frame np L := .wake true chan .lockBucket

/-! ## Instructions -/

/-- One atomic action of a CPU, with the point (or points) it continues at. -/
inductive Instr (np : Nat) (D L : Type)
  | acquire (l : Lock np) (k : Frame np L)
  | release (l : Lock np) (k : Frame np L)
  /-- Read the shared data, go to `k`, and store the change `g`. -/
  | upd (g : Kernel np D → Kernel np D) (k : Kernel np D → Frame np L)
  | call (callee k : Frame np L)
  | ret (v : Int)
  /-- An outcome the model does not determine (memory left, user memory mapped, device state). -/
  | choose (k : Nat → Frame np L)
  /-- `sched()` up to its `swtch`. -/
  | sched (p : Fin np)
  /-- `p->state = RUNNING; c->proc = p; swtch(&c->context, &p->context)`. -/
  | dispatch (p : Fin np) (k : Frame np L)
  /-- Make the context of a new process start at `forkret`. -/
  | spawn (q : Fin np) (k : Frame np L)
  /-- A change of this CPU's own `c->proc`, `intena` or interrupt-enable bit (to off). -/
  | cpu (g : Cpu np → Cpu np) (k : Frame np L)
  /-- `intr_on()`. -/
  | intrOn (k : Frame np L)
  /-- Return from an interrupt, with interrupts on again. -/
  | sret
  | panic (msg : String)

/-- `freeproc(p)`. -/
def freeproc {np : Nat} (p : Proc np) : Proc np :=
  { p with
    state := .unused, chan := 0, killed := false, xstate := 0, pid := 0, parent := none
    wqEntry := { p.wqEntry with chan := 0, next := none, queued := false } }

/-! ## The text -/

section Text

variable {np : Nat}

/-- Kernel data, activation records and instructions of a system. -/
abbrev System.K (S : System np) := Kernel np S.D
abbrev System.F (S : System np) := Frame np S.L
abbrev System.I (S : System np) := Instr np S.D S.L

variable (S : System np)

/-- `sleep(chan, lk)`. -/
def sleepText (p : Fin np) (chan : Chan) (lk : LockName) : SleepPc → S.I
  | .lockBucket => .acquire (.bucket (wqHash chan)) (.sleep p chan lk .lockProc)
  | .lockProc => .acquire (.proc p) (.sleep p chan lk .unlockCond)
  | .unlockCond => .release (.named lk) (.sleep p chan lk .enqueue)
  | .enqueue => .upd (fun κ => κ.wqAddLocked (wqHash chan) chan p) fun _ => .sleep p chan lk .setSleeping
  | .setSleeping =>
    .upd (fun κ => κ.setProc p fun q => { q with chan := chan, state := .sleeping })
      fun _ => .sleep p chan lk .unlockBucket
  | .unlockBucket => .release (.bucket (wqHash chan)) (.sleep p chan lk .callSched)
  | .callSched => .call (.sched p .enter) (.sleep p chan lk .tidy)
  | .tidy => .upd (fun κ => κ.setProc p fun q => { q with chan := 0 }) fun _ => .sleep p chan lk .unlockProc
  | .unlockProc => .release (.proc p) (.sleep p chan lk .lockCond)
  | .lockCond => .acquire (.named lk) (.ret 0)

/-- `wakeup(chan)` and, with `one`, `wakeup_one(chan)`, which leaves the loop once it has woken a process. -/
def wakeText (one : Bool) (chan : Chan) : WakePc np → S.I
  | .lockBucket => .acquire (.bucket (wqHash chan)) (.wake one chan .first)
  | .first => .upd id fun κ => .wake one chan (.walk (κ.head (wqHash chan)))
  | .walk none => .upd id fun _ => .wake one chan (.unlockBucket none)
  | .walk (some e) =>
    .upd id fun κ =>
      let entry := (κ.procs e).wqEntry
      if entry.chan = chan then .wake one chan (.lockProc e entry.proc entry.next)
      else .wake one chan (.walk entry.next)
  | .lockProc e q next => .acquire (.proc q) (.wake one chan (.test e q next))
  | .test e q next =>
    .upd (fun κ =>
        if (κ.procs q).state = .sleeping ∧ (κ.procs q).chan = chan then
          κ.setProc q fun r => { r with state := .runnable }
        else κ)
      fun κ =>
        if (κ.procs q).state = .sleeping ∧ (κ.procs q).chan = chan then .wake one chan (.unlink e q next)
        else .wake one chan (.unlockMiss e q next)
  | .unlink e q next =>
    .upd (fun κ => κ.wqRemoveLocked (wqHash chan) e) fun _ => .wake one chan (.unlockWoken e q next)
  | .unlockWoken e q next =>
    .release (.proc q) (if one then .wake one chan (.unlockBucket (some e)) else .wake one chan (.walk next))
  | .unlockMiss _ q next => .release (.proc q) (.wake one chan (.walk next))
  | .unlockBucket _ => .release (.bucket (wqHash chan)) (.ret 0)

/-- `kkill(pid)`. -/
def kkillText (pid : BitVec 32) : KkillPc np → S.I
  | .scan i =>
    if h : i < np then .acquire (.proc ⟨i, h⟩) (.kkill pid (.test ⟨i, h⟩)) else .upd id fun _ => .ret (-1)
  | .test i =>
    .upd (fun κ => if (κ.procs i).pid = pid then κ.setProc i fun q => { q with killed := true } else κ)
      fun κ =>
        if (κ.procs i).pid = pid then
          if (κ.procs i).state = .sleeping then .kkill pid (.unlockAsleep i (κ.procs i).chan)
          else .kkill pid (.unlockHit i)
        else .kkill pid (.unlockMiss i)
  | .unlockMiss i => .release (.proc i) (.kkill pid (.scan (i + 1)))
  | .unlockAsleep i chan => .release (.proc i) (.kkill pid (.callWakeup i chan))
  | .callWakeup i chan => .call (.wakeup chan) (.kkill pid (.found i))
  | .unlockHit i => .release (.proc i) (.kkill pid (.found i))
  | .found _ => .ret 0

/-- `setkilled(q)`. -/
def setkilledText (q : Fin np) : SetkilledPc → S.I
  | .lock => .acquire (.proc q) (.setkilled q .set)
  | .set => .upd (fun κ => κ.setProc q fun r => { r with killed := true }) fun _ => .setkilled q .unlock
  | .unlock => .release (.proc q) (.ret 0)

/-- `killed(q)`. -/
def killedText (q : Fin np) : KilledPc → S.I
  | .lock => .acquire (.proc q) (.killed q .read)
  | .read => .upd id fun κ => .killed q (.unlock (κ.procs q).killed)
  | .unlock k => .release (.proc q) (.ret (if k then 1 else 0))

/-- `kfork()` by `p`. `kalloc`, `proc_pagetable` and `uvmcopy` may fail; `kmem.lock`, which they take and release
inside, is not shown. -/
def kforkText (p : Fin np) : KforkPc np → S.I
  | .scan i =>
    if h : i < np then .acquire (.proc ⟨i, h⟩) (.kfork p (.test ⟨i, h⟩)) else .upd id fun _ => .ret (-1)
  | .test i =>
    .upd id fun κ => if (κ.procs i).state = .unused then .kfork p (.lockPid i) else .kfork p (.unlockUsed i)
  | .unlockUsed i => .release (.proc i) (.kfork p (.scan (i + 1)))
  | .lockPid i => .acquire (.named .pidLock) (.kfork p (.readPid i))
  | .readPid i => .upd (fun κ => { κ with nextpid := κ.nextpid + 1 }) fun κ => .kfork p (.unlockPid i κ.nextpid)
  | .unlockPid i pid => .release (.named .pidLock) (.kfork p (.setUsed i pid))
  | .setUsed i pid =>
    .upd (fun κ => κ.setProc i fun q => { q with pid := pid, state := .used }) fun _ => .kfork p (.trapframe i pid)
  | .trapframe i pid => .choose fun n => if n = 0 then .kfork p (.freeproc i) else .kfork p (.pagetable i pid)
  | .pagetable i pid => .choose fun n => if n = 0 then .kfork p (.freeproc i) else .kfork p (.context i pid)
  | .context i pid => .spawn i (.kfork p (.uvmcopy i pid))
  | .uvmcopy i pid => .choose fun n => if n = 0 then .kfork p (.freeproc i) else .kfork p (.dup i pid)
  | .dup i pid => .call (.client (S.dup i)) (.kfork p (.unlockChild i pid))
  | .unlockChild i pid => .release (.proc i) (.kfork p (.lockWait i pid))
  | .lockWait i pid => .acquire (.named .waitLock) (.kfork p (.setParent i pid))
  | .setParent i pid =>
    .upd (fun κ => κ.setProc i fun q => { q with parent := some p }) fun _ => .kfork p (.unlockWait i pid)
  | .unlockWait i pid => .release (.named .waitLock) (.kfork p (.lockChild i pid))
  | .lockChild i pid => .acquire (.proc i) (.kfork p (.setRunnable i pid))
  | .setRunnable i pid =>
    .upd (fun κ => κ.setProc i fun q => { q with state := .runnable }) fun _ => .kfork p (.unlockDone i pid)
  | .unlockDone i pid => .release (.proc i) (.ret pid.toInt)
  | .freeproc i => .upd (fun κ => κ.setProc i freeproc) fun _ => .kfork p (.unlockFail i)
  | .unlockFail i => .release (.proc i) (.ret (-1))

/-- The address a pointer to a process holds. -/
def procPtr : Option (Fin np) → Chan
  | none => 0
  | some p => S.procAddr p

/-- `kexit(status)` by `p`. Closing the files and dropping the current directory happens between the first test and
`acquire(&wait_lock)`; that part is code of the system, which calls `kexit` when it is done. -/
def kexitText (p : Fin np) (status : BitVec 32) : KexitPc np → S.I
  | .start => if p = S.initproc then .panic "init exiting" else .upd id fun _ => .kexit p status .lockWait
  | .lockWait => .acquire (.named .waitLock) (.kexit p status (.reparent 0))
  | .reparent i =>
    if h : i < np then
      .upd (fun κ =>
          if (κ.procs ⟨i, h⟩).parent = some p then κ.setProc ⟨i, h⟩ fun q => { q with parent := some S.initproc }
          else κ)
        fun κ =>
          if (κ.procs ⟨i, h⟩).parent = some p then .kexit p status (.callInit ⟨i, h⟩)
          else .kexit p status (.reparent (i + 1))
    else .upd id fun κ => .kexit p status (.callParent (procPtr S (κ.procs p).parent))
  | .callInit i => .call (.wakeup (S.procAddr S.initproc)) (.kexit p status (.reparent (i + 1)))
  | .callParent chan => .call (.wakeup chan) (.kexit p status .lockSelf)
  | .lockSelf => .acquire (.proc p) (.kexit p status .setZombie)
  | .setZombie =>
    .upd (fun κ => κ.setProc p fun q => { q with xstate := status, state := .zombie })
      fun _ => .kexit p status .unlockWait
  | .unlockWait => .release (.named .waitLock) (.kexit p status .callSched)
  | .callSched => .call (.sched p .enter) (.kexit p status .zombieExit)
  | .zombieExit => .panic "zombie exit"

/-- `kwait(addr)` by `p`; the copy of the exit status to `addr` may fail. -/
def kwaitText (p : Fin np) : KwaitPc np → S.I
  | .lockWait => .acquire (.named .waitLock) (.kwait p .start)
  | .start => .upd id fun _ => .kwait p (.scan 0 false)
  | .scan i havekids =>
    if h : i < np then
      .upd id fun κ =>
        if (κ.procs ⟨i, h⟩).parent = some p then .kwait p (.lockChild ⟨i, h⟩) else .kwait p (.scan (i + 1) havekids)
    else .upd id fun _ => .kwait p (.check havekids)
  | .lockChild i => .acquire (.proc i) (.kwait p (.test i))
  | .test i =>
    .upd id fun κ =>
      if (κ.procs i).state = .zombie then .kwait p (.copyout i (κ.procs i).pid) else .kwait p (.unlockMiss i)
  | .copyout i pid =>
    .choose fun n => if n = 0 then .kwait p (.unlockFound i (-1)) else .kwait p (.freeproc i pid)
  | .freeproc i pid => .upd (fun κ => κ.setProc i Xv6.freeproc) fun _ => .kwait p (.unlockFound i pid.toInt)
  | .unlockFound i v => .release (.proc i) (.kwait p (.unlockWait v))
  | .unlockMiss i => .release (.proc i) (.kwait p (.scan (i + 1) true))
  | .check havekids =>
    if havekids then .call (.killed p .lock) (.kwait p (.decide 0)) else .upd id fun _ => .kwait p (.unlockWait (-1))
  | .decide k => .upd id fun _ => if k = 0 then .kwait p .callSleep else .kwait p (.unlockWait (-1))
  | .callSleep => .call (.sleep p (S.procAddr p) .waitLock .lockBucket) (.kwait p .start)
  | .unlockWait v => .release (.named .waitLock) (.ret v)

/-- `yield()` by `p`. -/
def yieldText (p : Fin np) : YieldPc → S.I
  | .lock => .acquire (.proc p) (.yield p .setRunnable)
  | .setRunnable => .upd (fun κ => κ.setProc p fun q => { q with state := .runnable }) fun _ => .yield p .callSched
  | .callSched => .call (.sched p .enter) (.yield p .unlock)
  | .unlock => .release (.proc p) (.ret 0)

/-- `sched()` by `p`. -/
def schedText (p : Fin np) : SchedPc → S.I
  | .enter => .sched p
  | .back intena => .cpu (fun c => { c with intena := intena }) (.ret 0)

/-- `scheduler()`. -/
def schedulerText : SchedulerPc np → S.I
  | .start => .cpu (fun c => { c with proc := none }) (.scheduler .intrOn)
  | .intrOn => .intrOn (.scheduler .intrOff)
  | .intrOff => .cpu (fun c => { c with sie := false }) (.scheduler (.scan 0 false))
  | .scan i found =>
    if h : i < np then .acquire (.proc ⟨i, h⟩) (.scheduler (.test ⟨i, h⟩ found))
    else .upd id fun _ => .scheduler (.idle found)
  | .test i found =>
    .upd id fun κ => if (κ.procs i).state = .runnable then .scheduler (.run i) else .scheduler (.unlock i found)
  | .run i => .dispatch i (.scheduler (.back i))
  | .back i => .cpu (fun c => { c with proc := none }) (.scheduler (.unlock i true))
  | .unlock i found => .release (.proc i) (.scheduler (.scan (i + 1) found))
  | .idle _ => .upd id fun _ => .scheduler .intrOn

/-- `kerneltrap()` for an interrupt; `me` is `myproc()`. -/
def trapText (me : Option (Fin np)) : TrapPc → S.I
  | .devintr irq => .call (.client (S.handler irq)) (.kerneltrap (.after (S.timer irq)))
  | .after timer =>
    match timer, me with
    | true, some p => .call (.yield p .lock) (.kerneltrap .sret)
    | _, _ => .upd id fun _ => .kerneltrap .sret
  | .sret => .sret

/-- What a function that needs `myproc()` does; without a process it would follow a null pointer. -/
def withProc (me : Option (Fin np)) (k : Fin np → S.I) : S.I :=
  match me with
  | some p => k p
  | none => .panic "myproc"

/-- The instruction of the surrounding code. -/
def opText (me : Option (Fin np)) : Op np S.D S.L → S.I
  | .acquire l k => .acquire (.named l) (.client k)
  | .release l k => .release (.named l) (.client k)
  | .data f k => .upd (fun κ => { κ with data := f κ.data }) fun κ => .client (k κ.data)
  | .choose k => .choose fun n => .client (k n)
  | .self k => .upd id fun _ => .client (k me)
  | .mypid k => withProc S me fun p => .upd id fun κ => .client (k (κ.procs p).pid)
  | .call callee k => .call (.client callee) (.client k)
  | .ret v => .ret v
  | .sleep chan lk k => withProc S me fun p => .call (.sleep p chan lk .lockBucket) (.client k)
  | .wakeup chan k => .call (.wakeup chan) (.client k)
  | .wakeupOne chan k => .call (.wakeupOne chan) (.client k)
  | .wqHasSleeper chan k => .upd id fun κ => .client (k (κ.wqHasSleeper chan))
  | .kkill pid k => .call (.kkill pid (.scan 0)) (.client k)
  | .setkilled k => withProc S me fun p => .call (.setkilled p .lock) (.client k)
  | .killed k => withProc S me fun p => .call (.killed p .lock) (.client k)
  | .kfork k => withProc S me fun p => .call (.kfork p (.scan 0)) (.client k)
  | .kexit status => withProc S me fun p => .call (.kexit p status .start) (.ret 0)
  | .kwait k => withProc S me fun p => .call (.kwait p .lockWait) (.client k)
  | .yield k => withProc S me fun p => .call (.yield p .lock) (.client k)
  | .intrOn k => .intrOn (.client k)
  | .intrOff k => .cpu (fun c => { c with sie := false }) (.client k)
  | .panic msg => .panic msg

/-- The instruction at a program point; `me` is the process of the executing CPU. -/
def instr (me : Option (Fin np)) : S.F → S.I
  | .client l => opText S me (S.code l)
  | .ret v => .ret v
  | .sleep p chan lk pc => sleepText S p chan lk pc
  | .wake one chan pc => wakeText S one chan pc
  | .kkill pid pc => kkillText S pid pc
  | .setkilled q pc => setkilledText S q pc
  | .killed q pc => killedText S q pc
  | .kfork p pc => kforkText S p pc
  | .kexit p status pc => kexitText S p status pc
  | .kwait p pc => kwaitText S p pc
  | .yield p pc => yieldText S p pc
  | .sched p pc => schedText S p pc
  | .scheduler pc => schedulerText S pc
  | .forkret p => .release (.proc p) (.client S.main)
  | .kerneltrap pc => trapText S me pc

/-- The caller goes on with the value its callee returned. -/
def resume : S.F → Int → S.F
  | .client l, v => .client (S.resume l v)
  | .kwait p (.decide _), v => .kwait p (.decide v)
  | f, _ => f

end Text

end Xv6
