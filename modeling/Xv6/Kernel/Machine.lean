import Mathlib.Logic.Relation
import Xv6.Kernel.Code

/-!
# The machine: CPUs running kernel threads

A kernel thread is the stack of a process or the scheduler stack of a CPU (`Tid`); every CPU runs one of them at a
time (`cur`). `step s c a` is one instruction of CPU `c`, or the start of an interrupt on it; any CPU may take the next
step, so the runs of the machine are all sequentially consistent interleavings. A CPU that spins on a lock another CPU
holds has no step, and one that called `panic` never steps again.

`Fires` is `step` by cases on the instruction (`fires_of_step`): later proofs use it and never unfold `step`.
-/

namespace Xv6

variable {np nc : Nat}

/-- A kernel thread: that of a process, or the scheduler of a CPU. -/
inductive Tid (np nc : Nat)
  | proc (p : Fin np)
  | cpu (c : Fin nc)
  deriving DecidableEq

structure State (S : System np) (nc : Nat) where
  kern : S.K
  /-- Which CPU holds a spinlock: `lk->cpu` while `lk->locked`. -/
  locks : Lock np → Option (Fin nc)
  cpus : Fin nc → Cpu np
  stk : Tid np nc → List S.F
  /-- The thread a CPU is running. -/
  cur : Fin nc → Tid np nc

/-- `push_off()`. -/
def Cpu.pushOff (c : Cpu np) : Cpu np :=
  { c with sie := false, intena := if c.noff = 0 then c.sie else c.intena, noff := c.noff + 1 }

/-- `pop_off()`. -/
def Cpu.popOff (c : Cpu np) : Cpu np :=
  if c.sie then { c with panicked := some "pop_off - interruptible" }
  else if c.noff < 1 then { c with panicked := some "pop_off" }
  else { c with noff := c.noff - 1, sie := c.noff - 1 = 0 && c.intena }

namespace State

variable {S : System np}

/-- Replace the stack of the thread CPU `c` is running. -/
def setStk (s : State S nc) (c : Fin nc) (st : List S.F) : State S nc :=
  { s with stk := Function.update s.stk (s.cur c) st }

/-- Change the state of CPU `c`. -/
def setCpu (s : State S nc) (c : Fin nc) (g : Cpu np → Cpu np) : State S nc :=
  { s with cpus := Function.update s.cpus c (g (s.cpus c)) }

@[simp] theorem setStk_cpus (s : State S nc) (c : Fin nc) (st : List S.F) : (s.setStk c st).cpus = s.cpus := rfl
@[simp] theorem setStk_cur (s : State S nc) (c : Fin nc) (st : List S.F) : (s.setStk c st).cur = s.cur := rfl
@[simp] theorem setCpu_stk (s : State S nc) (c : Fin nc) (g : Cpu np → Cpu np) : (s.setCpu c g).stk = s.stk := rfl
@[simp] theorem setCpu_cur (s : State S nc) (c : Fin nc) (g : Cpu np → Cpu np) : (s.setCpu c g).cur = s.cur := rfl

@[simp] theorem setStk_stk (s : State S nc) (c : Fin nc) (st : List S.F) :
    (s.setStk c st).stk = Function.update s.stk (s.cur c) st := rfl

@[simp] theorem setCpu_cpus (s : State S nc) (c : Fin nc) (g : Cpu np → Cpu np) :
    (s.setCpu c g).cpus = Function.update s.cpus c (g (s.cpus c)) := rfl

/-- `panic(msg)` on CPU `c`. -/
def panic (s : State S nc) (c : Fin nc) (msg : String) : State S nc :=
  s.setCpu c fun x => { x with panicked := some msg }

/-- `acquire(l)`, going on at `k`. -/
def acquire (s : State S nc) (c : Fin nc) (l : Lock np) (k : S.F) (rest : List S.F) : Option (State S nc) :=
  match s.locks l with
  | none => some { (s.setCpu c Cpu.pushOff).setStk c (k :: rest) with locks := Function.update s.locks l (some c) }
  | some c' => if c' = c then some ((s.setCpu c Cpu.pushOff).panic c "acquire") else none

/-- `release(l)`, going on at `k`. -/
def release (s : State S nc) (c : Fin nc) (l : Lock np) (k : S.F) (rest : List S.F) : Option (State S nc) :=
  if s.locks l = some c then
    some { (s.setCpu c Cpu.popOff).setStk c (k :: rest) with locks := Function.update s.locks l none }
  else some (s.panic c "release")

/-- `sched()` by process `p` up to its `swtch` into the scheduler. -/
def sched (s : State S nc) (c : Fin nc) (p : Fin np) (rest : List S.F) : State S nc :=
  if s.locks (.proc p) ≠ some c then s.panic c "sched p->lock"
  else if (s.cpus c).noff ≠ 1 then s.panic c "sched locks"
  else if (s.kern.procs p).state = .running then s.panic c "sched RUNNING"
  else if (s.cpus c).sie then s.panic c "sched interruptible"
  else { s.setStk c (.sched p (.back (s.cpus c).intena) :: rest) with cur := Function.update s.cur c (.cpu c) }

/-- Interrupts are turned on, and the thread goes on with `st`. Turning them on with a spinlock held would let a handler
spin on that lock forever, so the machine stops there. -/
def intrOn (s : State S nc) (c : Fin nc) (st : List S.F) : State S nc :=
  if (s.cpus c).noff = 0 then (s.setCpu c fun x => { x with sie := true }).setStk c st
  else s.panic c "interrupts on with a lock held"

/-- One instruction of CPU `c`; `n` is the outcome of a `choose`. -/
def exec (s : State S nc) (c : Fin nc) (n : Nat) (rest : List S.F) : S.I → Option (State S nc)
  | .acquire l k => s.acquire c l k rest
  | .release l k => s.release c l k rest
  | .upd g k => some { s.setStk c (k s.kern :: rest) with kern := g s.kern }
  | .call callee k => some (s.setStk c (callee :: k :: rest))
  | .ret v =>
    match rest with
    | [] => none
    | g :: rest => some (s.setStk c (resume S g v :: rest))
  | .choose k => some (s.setStk c (k n :: rest))
  | .sched p => some (s.sched c p rest)
  | .dispatch p k =>
    some { (s.setCpu c fun x => { x with proc := some p }).setStk c (k :: rest) with
      kern := s.kern.setProc p fun q => { q with state := .running }
      cur := Function.update s.cur c (.proc p) }
  | .spawn q k => some (State.setStk { s with stk := Function.update s.stk (.proc q) [.forkret q] } c (k :: rest))
  | .cpu g k => some ((s.setCpu c g).setStk c (k :: rest))
  | .intrOn k => some (s.intrOn c (k :: rest))
  | .sret => some (s.intrOn c rest)
  | .panic msg => some (s.panic c msg)

end State

/-- What a CPU does next: its next instruction, or it takes an interrupt. -/
inductive Act
  | run (n : Nat)
  | intr (irq : Nat)

/-- One step of CPU `c`. -/
def step {S : System np} (s : State S nc) (c : Fin nc) (a : Act) : Option (State S nc) :=
  if (s.cpus c).panicked.isSome then none
  else
    match s.stk (s.cur c), a with
    | [], _ => none
    | f :: rest, .run n => s.exec c n rest (instr S (s.cpus c).proc f)
    | f :: rest, .intr irq =>
      if (s.cpus c).sie then
        some ((s.setCpu c fun x => { x with sie := false }).setStk c (.kerneltrap (.devintr irq) :: f :: rest))
      else none

/-- A list of steps, one after the other. -/
def run {S : System np} : State S nc → List (Fin nc × Act) → Option (State S nc)
  | s, [] => some s
  | s, (c, a) :: as => (step s c a).bind fun s' => run s' as

/-! ## Booting -/

/-- A process as `procinit` leaves it. -/
def Proc.fresh (p : Fin np) : Proc np where
  state := .unused
  chan := 0
  killed := false
  xstate := 0
  pid := 0
  parent := none
  wqEntry := { proc := p, chan := 0, next := none, queued := false }

/-- The machine when the CPUs enter `scheduler()`: `userinit` has made `initproc` runnable with the first pid. The
context of a slot is set by `allocproc` before the slot is first run. -/
def boot (S : System np) (nc : Nat) : State S nc where
  kern :=
    { procs := fun p => if p = S.initproc then { Proc.fresh p with state := .runnable, pid := 1 } else Proc.fresh p
      head := fun _ => none
      nextpid := 2
      data := S.data0 }
  locks := fun _ => none
  cpus := fun _ => { proc := none, noff := 0, intena := false, sie := false, panicked := none }
  stk := fun
    | .proc p => [.forkret p]
    | .cpu _ => [.scheduler .start]
  cur := fun c => .cpu c

/-- Some CPU takes a step. -/
def Step {S : System np} (s s' : State S nc) : Prop := ∃ c a, step s c a = some s'

/-- The states a machine can reach. -/
def Reachable {S : System np} (s : State S nc) : Prop := Relation.ReflTransGen Step (boot S nc) s

theorem Reachable.step {S : System np} {s s' : State S nc} (h : Reachable s) (hs : Step s s') : Reachable s' :=
  Relation.ReflTransGen.tail h hs

theorem Reachable.steps {S : System np} {s s' : State S nc} (h : Reachable s)
    (hs : Relation.ReflTransGen Step s s') : Reachable s' := Relation.ReflTransGen.trans h hs

/-- What holds after booting and is kept by every step from a reachable state holds in every reachable state. -/
theorem Reachable.induct {S : System np} {P : State S nc → Prop} (h0 : P (boot S nc))
    (hs : ∀ s s', Reachable s → P s → Step s s' → P s') {s : State S nc} (h : Reachable s) : P s := by
  induction h with
  | refl => exact h0
  | tail hr hst ih => exact hs _ _ hr ih hst

/-- A state evaluated from the boot state is reachable. -/
theorem reachable_run {S : System np} {s s' : State S nc} (as : List (Fin nc × Act)) (h : Reachable s)
    (hr : run s as = some s') : Reachable s' := by
  induction as generalizing s with
  | nil => simp only [run, Option.some.injEq] at hr; exact hr ▸ h
  | cons x as ih =>
    simp only [run, Option.bind_eq_some_iff] at hr
    obtain ⟨s1, h1, h2⟩ := hr
    exact ih (h.step ⟨_, _, h1⟩) h2

/-- The state after a list of steps from the boot state, if all of them can be taken. -/
def after (S : System np) (nc : Nat) (as : List (Fin nc × Act)) : State S nc := (run (boot S nc) as).getD (boot S nc)

theorem reachable_after (S : System np) (as : List (Fin nc × Act)) : Reachable (after S nc as) := by
  unfold after
  cases h : run (boot S nc) as with
  | none => exact Relation.ReflTransGen.refl
  | some s => exact reachable_run as Relation.ReflTransGen.refl h

/-! ## Clients given by a table -/

/-- A client that is a table of operations: a process starts at point `1`, point `n + 1` performs the `n`-th operation,
and point `0` returns. Process structures are `360` bytes apart. -/
def tableSystem (ops : List (Op np Unit Nat)) (initproc : Fin np) (timer : Nat → Bool) : System np where
  D := Unit
  L := Nat
  data0 := ()
  code
    | 0 => .ret 0
    | n + 1 => ops.getD n (.panic "end of table")
  resume l _ := l
  main := 1
  dup _ := 0
  handler _ := 0
  timer := timer
  procAddr p := 0x80012000#64 + BitVec.ofNat 64 (360 * p)
  initproc := initproc

/-! ## A step by cases on its instruction -/

/-- The steps of CPU `c`. `f` is the top activation record of its thread and `rest` the ones below. -/
inductive Fires {S : System np} (s : State S nc) (c : Fin nc) : State S nc → Prop
  | acquire {f : S.F} {rest : List S.F} {l : Lock np} {k : S.F} (hs : s.stk (s.cur c) = f :: rest)
      (hi : instr S (s.cpus c).proc f = .acquire l k) (hl : s.locks l = none) :
      Fires s c { (s.setCpu c Cpu.pushOff).setStk c (k :: rest) with locks := Function.update s.locks l (some c) }
  | release {f : S.F} {rest : List S.F} {l : Lock np} {k : S.F} (hs : s.stk (s.cur c) = f :: rest)
      (hi : instr S (s.cpus c).proc f = .release l k) (hl : s.locks l = some c) :
      Fires s c { (s.setCpu c Cpu.popOff).setStk c (k :: rest) with locks := Function.update s.locks l none }
  | upd {f : S.F} {rest : List S.F} {g : S.K → S.K} {k : S.K → S.F} (hs : s.stk (s.cur c) = f :: rest)
      (hi : instr S (s.cpus c).proc f = .upd g k) :
      Fires s c { s.setStk c (k s.kern :: rest) with kern := g s.kern }
  | call {f : S.F} {rest : List S.F} {callee k : S.F} (hs : s.stk (s.cur c) = f :: rest)
      (hi : instr S (s.cpus c).proc f = .call callee k) : Fires s c (s.setStk c (callee :: k :: rest))
  | ret {f g : S.F} {rest : List S.F} {v : Int} (hs : s.stk (s.cur c) = f :: g :: rest)
      (hi : instr S (s.cpus c).proc f = .ret v) : Fires s c (s.setStk c (resume S g v :: rest))
  | choose {f : S.F} {rest : List S.F} {k : Nat → S.F} (n : Nat) (hs : s.stk (s.cur c) = f :: rest)
      (hi : instr S (s.cpus c).proc f = .choose k) : Fires s c (s.setStk c (k n :: rest))
  | sched {f : S.F} {rest : List S.F} {p : Fin np} (hs : s.stk (s.cur c) = f :: rest)
      (hi : instr S (s.cpus c).proc f = .sched p) (hl : s.locks (.proc p) = some c) (hn : (s.cpus c).noff = 1)
      (hr : (s.kern.procs p).state ≠ .running) (hsie : (s.cpus c).sie = false) :
      Fires s c
        { s.setStk c (.sched p (.back (s.cpus c).intena) :: rest) with cur := Function.update s.cur c (.cpu c) }
  | dispatch {f : S.F} {rest : List S.F} {p : Fin np} {k : S.F} (hs : s.stk (s.cur c) = f :: rest)
      (hi : instr S (s.cpus c).proc f = .dispatch p k) :
      Fires s c
        { (s.setCpu c fun x => { x with proc := some p }).setStk c (k :: rest) with
          kern := s.kern.setProc p fun q => { q with state := .running }
          cur := Function.update s.cur c (.proc p) }
  | spawn {f : S.F} {rest : List S.F} {q : Fin np} {k : S.F} (hs : s.stk (s.cur c) = f :: rest)
      (hi : instr S (s.cpus c).proc f = .spawn q k) :
      Fires s c (State.setStk { s with stk := Function.update s.stk (.proc q) [.forkret q] } c (k :: rest))
  | cpu {f : S.F} {rest : List S.F} {g : Cpu np → Cpu np} {k : S.F} (hs : s.stk (s.cur c) = f :: rest)
      (hi : instr S (s.cpus c).proc f = .cpu g k) : Fires s c ((s.setCpu c g).setStk c (k :: rest))
  | intrOn {f : S.F} {rest : List S.F} {k : S.F} (hs : s.stk (s.cur c) = f :: rest)
      (hi : instr S (s.cpus c).proc f = .intrOn k) (hn : (s.cpus c).noff = 0) :
      Fires s c ((s.setCpu c fun x => { x with sie := true }).setStk c (k :: rest))
  | sret {f : S.F} {rest : List S.F} (hs : s.stk (s.cur c) = f :: rest)
      (hi : instr S (s.cpus c).proc f = .sret) (hn : (s.cpus c).noff = 0) :
      Fires s c ((s.setCpu c fun x => { x with sie := true }).setStk c rest)
  | panic {x : Cpu np} (hx : x.panicked.isSome) (hp : x.proc = (s.cpus c).proc) :
      Fires s c { s with cpus := Function.update s.cpus c x }
  | intr {f : S.F} {rest : List S.F} (irq : Nat) (hs : s.stk (s.cur c) = f :: rest) (hi : (s.cpus c).sie = true) :
      Fires s c ((s.setCpu c fun x => { x with sie := false }).setStk c (.kerneltrap (.devintr irq) :: f :: rest))

theorem fires_panic {S : System np} {s : State S nc} {c : Fin nc} (msg : String) : Fires s c (s.panic c msg) :=
  Fires.panic rfl rfl

/-- Every step is one of these. -/
theorem fires_of_step {S : System np} {s s' : State S nc} {c : Fin nc} {a : Act} (h : step s c a = some s') :
    (s.cpus c).panicked = none ∧ Fires s c s' := by
  simp only [step] at h
  split at h
  · cases h
  · rename_i hc
    refine ⟨by simpa using hc, ?_⟩
    split at h
    · cases h
    · rename_i f rest n hs
      generalize hi : instr S (s.cpus c).proc f = i at h
      cases i with
      | acquire l k =>
        simp only [State.exec, State.acquire] at h
        split at h
        · rename_i hl
          simp only [Option.some.injEq] at h
          exact h ▸ .acquire hs hi hl
        · split at h
          · simp only [Option.some.injEq, State.panic, State.setCpu, Function.update_self, Function.update_idem] at h
            exact h ▸ .panic rfl rfl
          · cases h
      | release l k =>
        simp only [State.exec, State.release] at h
        split at h
        · rename_i hl
          simp only [Option.some.injEq] at h
          exact h ▸ .release hs hi hl
        · simp only [Option.some.injEq] at h
          exact h ▸ fires_panic _
      | upd g k => simp only [State.exec, Option.some.injEq] at h; exact h ▸ .upd hs hi
      | call callee k => simp only [State.exec, Option.some.injEq] at h; exact h ▸ .call hs hi
      | ret v =>
        cases rest with
        | nil => simp [State.exec] at h
        | cons g rest => simp only [State.exec, Option.some.injEq] at h; exact h ▸ .ret hs hi
      | choose k => simp only [State.exec, Option.some.injEq] at h; exact h ▸ .choose n hs hi
      | sched p =>
        simp only [State.exec, State.sched, Option.some.injEq] at h
        split at h
        · exact h ▸ fires_panic _
        · rename_i hl
          split at h
          · exact h ▸ fires_panic _
          · rename_i hn
            split at h
            · exact h ▸ fires_panic _
            · rename_i hr
              split at h
              · exact h ▸ fires_panic _
              · rename_i hsie
                exact h ▸ .sched hs hi (not_not.mp hl) (not_not.mp hn) hr (by simpa using hsie)
      | dispatch p k => simp only [State.exec, Option.some.injEq] at h; exact h ▸ .dispatch hs hi
      | spawn q k => simp only [State.exec, Option.some.injEq] at h; exact h ▸ .spawn hs hi
      | cpu g k => simp only [State.exec, Option.some.injEq] at h; exact h ▸ .cpu hs hi
      | intrOn k =>
        simp only [State.exec, State.intrOn, Option.some.injEq] at h
        split at h
        · rename_i hn; exact h ▸ .intrOn hs hi hn
        · exact h ▸ fires_panic _
      | sret =>
        simp only [State.exec, State.intrOn, Option.some.injEq] at h
        split at h
        · rename_i hn; exact h ▸ .sret hs hi hn
        · exact h ▸ fires_panic _
      | panic msg => simp only [State.exec, Option.some.injEq] at h; exact h ▸ fires_panic _
    · split at h
      · rename_i f rest irq hs hi
        simp only [Option.some.injEq] at h
        exact h ▸ .intr irq hs hi
      · cases h

end Xv6
