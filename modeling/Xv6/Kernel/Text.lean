import Xv6.Kernel.Machine

/-!
# What the program text does with locks and process states

For each program point: the bucket and process locks held there (`Frame.held`), the process the function runs for
(`Frame.own`), the state it knows some process to be in (`Frame.expects`), and the state its own process has already
been given on the way to `swtch` (`Frame.restTop`). `textOk` checks all of this against the program text, one point
at a time; the invariants of the machine follow from it without looking at the text again.
-/

namespace Xv6

variable {np : Nat} {L : Type}

/-- A lock of the wait queues or of the process table. -/
def Lock.core : Lock np → Bool
  | .named _ => false
  | _ => true

namespace Frame

/-- The bucket and process locks held at a program point. -/
def held : Frame np L → List (Lock np)
  | .sleep p chan _ pc =>
    match pc with
    | .lockBucket | .lockCond => []
    | .lockProc => [.bucket (wqHash chan)]
    | .unlockCond | .enqueue | .setSleeping | .unlockBucket => [.proc p, .bucket (wqHash chan)]
    | .callSched | .tidy | .unlockProc => [.proc p]
  | .wake _ chan pc =>
    match pc with
    | .lockBucket => []
    | .first | .walk _ | .lockProc _ _ _ | .unlockBucket _ => [.bucket (wqHash chan)]
    | .test _ q _ | .unlink _ q _ | .unlockWoken _ q _ | .unlockMiss _ q _ => [.proc q, .bucket (wqHash chan)]
  | .kkill _ pc =>
    match pc with
    | .test i | .unlockMiss i | .unlockAsleep i _ | .unlockHit i => [.proc i]
    | .scan _ | .callWakeup _ _ | .found _ => []
  | .setkilled q pc =>
    match pc with
    | .lock => []
    | .set | .unlock => [.proc q]
  | .killed q pc =>
    match pc with
    | .lock => []
    | .read | .unlock _ => [.proc q]
  | .kfork _ pc =>
    match pc with
    | .scan _ | .lockWait _ _ | .setParent _ _ | .unlockWait _ _ | .lockChild _ _ => []
    | .test i | .unlockUsed i | .lockPid i | .readPid i | .unlockPid i _ | .setUsed i _ | .trapframe i _
    | .pagetable i _ | .context i _ | .uvmcopy i _ | .dup i _ | .unlockChild i _ | .setRunnable i _
    | .unlockDone i _ | .freeproc i | .unlockFail i => [.proc i]
  | .kexit p _ pc =>
    match pc with
    | .setZombie | .unlockWait | .callSched | .zombieExit => [.proc p]
    | .start | .lockWait | .reparent _ | .callInit _ | .callParent _ | .lockSelf => []
  | .kwait _ pc =>
    match pc with
    | .test i | .copyout i _ | .freeproc i _ | .unlockFound i _ | .unlockMiss i => [.proc i]
    | .lockWait | .start | .scan _ _ | .lockChild _ | .check _ | .decide _ | .callSleep | .unlockWait _ => []
  | .yield p pc =>
    match pc with
    | .lock => []
    | .setRunnable | .callSched | .unlock => [.proc p]
  | .scheduler pc =>
    match pc with
    | .test i _ | .run i | .back i | .unlock i _ => [.proc i]
    | .start | .intrOn | .intrOff | .scan _ _ | .idle _ => []
  | .forkret p => [.proc p]
  | .client _ | .ret _ | .sched _ _ | .kerneltrap _ => []

/-- The process a function runs for: its `myproc()`. -/
def own : Frame np L → Option (Fin np)
  | .sleep p _ _ _ | .setkilled p _ | .killed p _ | .kfork p _ | .kexit p _ _ | .kwait p _ | .yield p _ | .sched p _
  | .forkret p => some p
  | .client _ | .ret _ | .wake _ _ _ | .kkill _ _ | .scheduler _ | .kerneltrap _ => none

/-- Is this a point of `scheduler()`? -/
def isScheduler : Frame np L → Bool
  | .scheduler _ => true
  | _ => false

/-- The child `kfork` is building. -/
def child : Frame np L → Option (Fin np)
  | .kfork _ pc =>
    match pc with
    | .scan _ | .test _ | .unlockUsed _ | .unlockDone _ _ | .unlockFail _ => none
    | .lockPid i | .readPid i | .unlockPid i _ | .setUsed i _ | .trapframe i _ | .pagetable i _ | .context i _
    | .uvmcopy i _ | .dup i _ | .unlockChild i _ | .lockWait i _ | .setParent i _ | .unlockWait i _ | .lockChild i _
    | .setRunnable i _ | .freeproc i => some i
  | _ => none

/-- The state some process is known to be in at a program point. -/
def expects : Frame np L → Option (Fin np × ProcState)
  | .kfork _ pc =>
    match pc with
    | .scan _ | .test _ | .unlockUsed _ | .unlockDone _ _ | .unlockFail _ => none
    | .lockPid i | .readPid i | .unlockPid i _ | .setUsed i _ => some (i, .unused)
    | .trapframe i _ | .pagetable i _ | .context i _ | .uvmcopy i _ | .dup i _ | .unlockChild i _ | .lockWait i _
    | .setParent i _ | .unlockWait i _ | .lockChild i _ | .setRunnable i _ | .freeproc i => some (i, .used)
  | .kwait _ (.copyout i _) | .kwait _ (.freeproc i _) => some (i, .zombie)
  | .scheduler (.run i) => some (i, .runnable)
  | _ => none

/-- The state a process has already given itself, at the points between that store and its call of `sched`. -/
def restTop : Frame np L → Option ProcState
  | .sleep _ _ _ .unlockBucket | .sleep _ _ _ .callSched => some .sleeping
  | .yield _ .callSched => some .runnable
  | .kexit _ _ .unlockWait | .kexit _ _ .callSched => some .zombie
  | _ => none

/-- The same for the callers of `sched`, at the point after that call. -/
def afterSched : Frame np L → Option ProcState
  | .sleep _ _ _ .tidy => some .sleeping
  | .yield _ .unlock => some .runnable
  | .kexit _ _ .zombieExit => some .zombie
  | _ => none

/-- The entry of `sched`. -/
def isEnter : Frame np L → Bool
  | .sched _ .enter => true
  | _ => false

/-- Points of `sleep`, `wakeup` and `wakeup_one`. -/
def inQueue : Frame np L → Bool
  | .sleep _ _ _ _ | .wake _ _ _ => true
  | _ => false

/-- The channel at the points of `sleep` where `p->chan` is set to it. -/
def sleepsOn : Frame np L → Option Chan
  | .sleep _ chan _ pc => match pc with | .unlockBucket | .callSched | .tidy => some chan | _ => none
  | _ => none

/-- The points a call comes back to. -/
def returns : Frame np L → Bool
  | .sleep _ _ _ pc => match pc with | .tidy => true | _ => false
  | .kkill _ pc => match pc with | .found _ => true | _ => false
  | .kfork _ pc => match pc with | .unlockChild _ _ => true | _ => false
  | .kexit _ _ pc => match pc with | .reparent _ | .lockSelf | .zombieExit => true | _ => false
  | .kwait _ pc => match pc with | .decide _ | .start => true | _ => false
  | .yield _ pc => match pc with | .unlock => true | _ => false
  | .kerneltrap pc => match pc with | .after _ | .sret => true | _ => false
  | .client _ | .ret _ => true
  | .wake _ _ _ | .setkilled _ _ | .killed _ _ | .sched _ _ | .scheduler _ | .forkret _ => false

/-- A point that is neither on the way to `sched` nor at its entry. -/
def calm (f : Frame np L) : Bool := !f.isEnter && f.restTop.isNone

end Frame

/-- The bucket and process locks a thread holds. -/
def heldS (st : List (Frame np L)) : List (Lock np) := st.flatMap Frame.held

/-- The children a thread is building. -/
def children (st : List (Frame np L)) : List (Fin np) := st.filterMap Frame.child

/-- The state the process of a thread has already been given, if it is on its way to `swtch`. -/
def restState : List (Frame np L) → Option ProcState
  | f :: g :: _ => if f.isEnter then g.afterSched else f.restTop
  | f :: _ => f.restTop
  | [] => none

@[simp] theorem heldS_nil : heldS ([] : List (Frame np L)) = [] := rfl

@[simp] theorem heldS_cons (f : Frame np L) (st : List (Frame np L)) : heldS (f :: st) = f.held ++ heldS st := by
  simp [heldS]

@[simp] theorem Frame.held_sched (p : Fin np) (pc : SchedPc) : (Frame.sched p pc : Frame np L).held = [] := rfl

theorem mem_heldS {l : Lock np} {f : Frame np L} {st : List (Frame np L)} (hf : f ∈ st) (hl : l ∈ f.held) :
    l ∈ heldS st := List.mem_flatMap.mpr ⟨f, hf, hl⟩

theorem mem_children {i : Fin np} {f : Frame np L} {st : List (Frame np L)} (hf : f ∈ st) (hc : f.child = some i) :
    i ∈ children st := List.mem_filterMap.mpr ⟨f, hf, hc⟩

@[simp] theorem children_cons (f : Frame np L) (st : List (Frame np L)) :
    children (f :: st) = f.child.toList ++ children st := by
  simp only [children, List.filterMap_cons]
  cases f.child <;> rfl

theorem restState_top {f : Frame np L} (h : f.isEnter = false) (st : List (Frame np L)) :
    restState (f :: st) = f.restTop := by
  cases st <;> simp [restState, h]

theorem restState_calm {f : Frame np L} (h : f.calm = true) (st : List (Frame np L)) : restState (f :: st) = none := by
  simp only [Frame.calm, Bool.and_eq_true, Bool.not_eq_true', Option.isNone_iff_eq_none] at h
  rw [restState_top h.1, h.2]

/-! ## How the annotations hang together -/

section Points

variable {f : Frame np L} {i : Fin np} {st : ProcState}

/-- Only locks of the wait queues and the process table are listed. -/
theorem core_of_held {l : Lock np} (h : l ∈ f.held) : l.core = true := by
  cases f
  all_goals try cases ‹SleepPc›
  all_goals try cases ‹WakePc np›
  all_goals try cases ‹KkillPc np›
  all_goals try cases ‹SetkilledPc›
  all_goals try cases ‹KilledPc›
  all_goals try cases ‹KforkPc np›
  all_goals try cases ‹KexitPc np›
  all_goals try cases ‹KwaitPc np›
  all_goals try cases ‹YieldPc›
  all_goals try cases ‹SchedulerPc np›
  all_goals simp only [Frame.held, List.mem_cons, List.not_mem_nil, or_false] at h
  all_goals first | exact h.elim | (rcases h with rfl | rfl <;> rfl)

/-- A process on its way to `sched` holds its own lock. -/
theorem held_of_restTop (h : f.restTop ≠ none) : ∃ p, f.own = some p ∧ Lock.proc p ∈ f.held := by
  cases f with
  | sleep p chan lk pc | yield p pc | kexit p status pc =>
    cases pc <;> simp_all [Frame.restTop, Frame.own, Frame.held]
  | _ => simp [Frame.restTop] at h

/-- A process gives itself no other states than these. -/
theorem restTop_ne (h : f.restTop = some st) : st ≠ .unused ∧ st ≠ .used ∧ st ≠ .running := by
  cases f with
  | sleep p chan lk pc | yield p pc | kexit p status pc =>
    cases pc <;> simp_all [Frame.restTop] <;> subst h <;> decide
  | _ => simp [Frame.restTop] at h

theorem afterSched_ne (h : f.afterSched = some st) : st ≠ .unused ∧ st ≠ .used ∧ st ≠ .running := by
  cases f with
  | sleep p chan lk pc | yield p pc | kexit p status pc =>
    cases pc <;> simp_all [Frame.afterSched] <;> subst h <;> decide
  | _ => simp [Frame.afterSched] at h

theorem restState_ne {fs : List (Frame np L)} (h : restState fs = some st) :
    st ≠ .unused ∧ st ≠ .used ∧ st ≠ .running := by
  match fs, h with
  | [f], h => exact restTop_ne h
  | f :: g :: fs, h =>
    simp only [restState] at h
    split at h
    · exact afterSched_ne h
    · exact restTop_ne h

/-- The callers of `sched` know nothing about other processes there. -/
theorem expects_of_afterSched (h : f.afterSched ≠ none) : f.expects = none := by
  cases f <;> simp_all [Frame.afterSched, Frame.expects]

/-- A state other than `USED` is known only while holding the lock of the process; a `USED` process is known to the
`kfork` that is building it. -/
theorem expects_cases (h : f.expects = some (i, st)) :
    (st ≠ .running ∧ st ≠ .sleeping) ∧ (Lock.proc i ∈ f.held ∨ st = .used ∧ f.child = some i) := by
  cases f with
  | kfork p pc =>
    cases pc <;> simp_all [Frame.expects, Frame.held, Frame.child] <;> obtain ⟨rfl, rfl⟩ := h <;> decide
  | kwait p pc | scheduler pc =>
    cases pc <;> simp_all [Frame.expects, Frame.held] <;> obtain ⟨rfl, rfl⟩ := h <;> decide
  | _ => simp [Frame.expects] at h

/-- A child being built is unused, with its lock held, or used. -/
theorem child_cases (h : f.child = some i) :
    f.expects = some (i, .unused) ∧ Lock.proc i ∈ f.held ∨ f.expects = some (i, .used) := by
  cases f with
  | kfork p pc => cases pc <;> simp_all [Frame.expects, Frame.held, Frame.child]
  | _ => simp [Frame.child] at h

theorem child_of_expects_used (h : f.expects = some (i, .used)) : f.child = some i := by
  cases f with
  | kfork p pc => cases pc <;> simp_all [Frame.expects, Frame.child]
  | kwait p pc | scheduler pc => cases pc <;> simp_all [Frame.expects]
  | _ => simp [Frame.expects] at h

end Points

/-! ## The check -/

section Check

variable {S : System np}

/-- How the state of one process may change at a program point `f` that goes on to `k`: a process puts itself to
rest, a waker makes a sleeper runnable, or a process in a known state is created or freed. -/
inductive Moved (f k : S.F) (q : Fin np) (a b : ProcState) : Prop
  | own (ho : f.own = some q) (hr : k.restTop = some b)
  | wake (ha : a = .sleeping) (hb : b = .runnable)
  | known (he : f.expects = some (q, a)) (ha : a ≠ .runnable) (hb : b ≠ .running ∧ b ≠ .sleeping)

/-- `k` continues the function of `f`, or returns from it. -/
@[mk_iff]
structure Goes (f k : S.F) : Prop where
  own : k.own = f.own ∨ k.own = none
  sched : k.isScheduler = f.isScheduler
  enter : k.isEnter = false
  expects : k.expects = f.expects ∨ k.expects = none
  child : k.child = f.child ∨ k.child = none
  queue : f.inQueue = true ∨ k.inQueue = false
  sleeps : k.sleepsOn = f.sleepsOn

/-- The states the point relies on are the ones the processes are in. -/
def Meets (κ : S.K) (f : S.F) : Prop := ∀ i st, f.expects = some (i, st) → (κ.procs i).state = st

/-- What the text promises about an access at `f` that takes the data from `κ` to `κ'` and goes on to `k`. -/
@[mk_iff]
structure UpdOk (f k : S.F) (κ κ' : S.K) : Prop where
  held : k.held = f.held
  calm : f.calm = true
  enter : k.isEnter = false
  own : k.own = f.own ∨ k.own = none
  sched : k.isScheduler = f.isScheduler
  moved : Meets κ f → ∀ q, (κ'.procs q).state = (κ.procs q).state ∨
    Lock.proc q ∈ f.held ∧ Moved f k q (κ.procs q).state (κ'.procs q).state
  rest : k.restTop = none ∨ ∃ q, f.own = some q ∧ k.restTop = some (κ'.procs q).state
  expects : Meets κ f → Meets κ' k
  child : k.child = f.child ∨ k.child = none ∨
    f.child = none ∧ ∃ i, k.child = some i ∧ Lock.proc i ∈ f.held ∧ (κ.procs i).state = .unused
  queue : f.inQueue = true ∨ k.inQueue = false
  sleeps : k.sleepsOn = f.sleepsOn ∨ ∃ p chan lk, f = .sleep p chan lk .setSleeping ∨ f = .sleep p chan lk .tidy

/-- What the text promises about a call at `f`, which goes on to `k` afterwards. -/
@[mk_iff]
structure CallOk (me : Option (Fin np)) (f callee k : S.F) : Prop extends Goes f k where
  calleeHeld : callee.held = []
  calleeSched : callee.isScheduler = false
  calleeOwn : callee.own = none ∨ callee.own = me ∨ callee.own = f.own
  calleeExpects : callee.expects = none
  calleeChild : callee.child = none
  calleeSleeps : callee.sleepsOn = none
  held : k.held = f.held
  calm : k.calm = true
  returns : k.returns = true
  /-- `sched` is called by a process on its way there, holding its lock; everything else by a running one. -/
  rest : callee.calm = true ∧ f.calm = true ∨
    k.afterSched = f.restTop ∧ f.restTop ≠ none ∧ f.isEnter = false ∧
      ∃ p, callee = .sched p .enter ∧ f.own = some p ∧ k.held = [.proc p]

/-- What the text promises about the instruction at `f`. -/
def TextOk (me : Option (Fin np)) (f : S.F) : S.I → Prop
  | .acquire l k => k.held = (if l.core then l :: f.held else f.held) ∧ f.calm = true ∧ k.calm = true ∧ Goes f k
  | .release l k =>
    f.held.Perm (if l.core then l :: k.held else k.held) ∧ f.isEnter = false ∧ k.restTop = f.restTop ∧ Goes f k
  | .upd g k => ∀ κ : S.K, UpdOk f (k κ) κ (g κ)
  | .call callee k => CallOk me f callee k
  | .ret _ => f.held = [] ∧ f.calm = true ∧ f.isScheduler = false ∧ f.child = none ∧ f.sleepsOn = none
  | .choose k => ∀ n, (k n).held = f.held ∧ f.calm = true ∧ (k n).calm = true ∧ Goes f (k n)
  | .sched p => f = .sched p .enter
  | .dispatch p k => f = .scheduler (.run p) ∧ k = .scheduler (.back p)
  | .spawn q k =>
    (∃ p pid, f = .kfork p (.context q pid)) ∧ k.held = f.held ∧ f.calm = true ∧ k.calm = true ∧ Goes f k
  | .cpu g k =>
    k.held = f.held ∧ f.calm = true ∧ k.calm = true ∧ Goes f k ∧
      (∀ x, (g x).noff = x.noff ∧ (g x).panicked = x.panicked ∧ ((g x).sie = true → x.sie = true)) ∧
      ((∀ x, (g x).proc = x.proc) ∧ (∀ p, f ≠ .scheduler (.back p)) ∨ f.isScheduler = true ∧ ∀ x, (g x).proc = none)
  | .intrOn k => k.held = f.held ∧ f.calm = true ∧ k.calm = true ∧ Goes f k
  | .sret => f.held = [] ∧ f.calm = true ∧ f.isScheduler = false ∧ f.sleepsOn = none
  | .panic _ => True

/-! ## Checking the text -/

/-- An access that changes no process state, at a point that claims nothing. -/
theorem updOk_plain {f k : S.F} {κ κ' : S.K} (hs : ∀ q, (κ'.procs q).state = (κ.procs q).state)
    (hh : k.held = f.held) (hf : f.calm = true) (hk : k.calm = true) (hg : Goes f k) : UpdOk f k κ κ' where
  held := hh
  calm := hf
  enter := hg.enter
  own := hg.own
  sched := hg.sched
  moved _ q := .inl (hs q)
  rest := by
    simp only [Frame.calm, Bool.and_eq_true, Option.isNone_iff_eq_none] at hk
    exact .inl hk.2
  expects hm i st he := by
    rcases hg.expects with h | h
    · rw [hs i]; exact hm i st (h ▸ he)
    · rw [h] at he; cases he
  child := hg.child.imp_right .inl
  queue := hg.queue
  sleeps := .inl hg.sleeps


/-- A store to one process changes at most the state of that process. -/
theorem moved_setProc {f k : S.F} {κ : S.K} {p : Fin np} {g : Proc np → Proc np}
    (h : (g (κ.procs p)).state = (κ.procs p).state ∨ Moved f k p (κ.procs p).state (g (κ.procs p)).state)
    (q : Fin np) :
    ((κ.setProc p g).procs q).state = (κ.procs q).state ∨
      q = p ∧ Moved f k q (κ.procs q).state ((κ.setProc p g).procs q).state := by
  by_cases hq : q = p
  · subst hq
    rw [Kernel.setProc_same]
    exact h.imp_right fun h => ⟨rfl, h⟩
  · exact .inl (by rw [Kernel.setProc_ne _ _ hq])

section Points

attribute [local simp] TextOk goes_iff updOk_iff callOk_iff Meets Frame.held Frame.calm Frame.isEnter Frame.restTop
  Frame.own Frame.isScheduler Frame.expects Frame.child Frame.afterSched Frame.returns Frame.inQueue
  Frame.sleepsOn Lock.core

variable (me : Option (Fin np))

theorem sleepText_ok (p : Fin np) (chan : Chan) (lk : LockName) (pc : SleepPc) :
    TextOk me (.sleep p chan lk pc) (sleepText S p chan lk pc) := by
  cases pc with
  | unlockBucket => simpa [sleepText] using List.Perm.swap _ _ _
  | setSleeping => simpa [sleepText] using fun κ => moved_setProc (.inr (.own rfl rfl))
  | tidy => simpa [sleepText] using fun κ => moved_setProc (.inl rfl)
  | _ => simp [sleepText]

theorem wakeText_ok (one : Bool) (chan : Chan) (pc : WakePc np) :
    TextOk me (.wake one chan pc) (wakeText S one chan pc) := by
  cases pc with
  | walk e =>
    cases e with
    | none => simp [wakeText]
    | some e =>
      intro κ
      by_cases h : (κ.procs e).wqEntry.chan = chan <;> simp [h]
  | test e q next =>
    intro κ
    by_cases h : (κ.procs q).state = .sleeping ∧ (κ.procs q).chan = chan
    · simp only [if_pos h]
      simpa using moved_setProc (.inr (.wake h.1 rfl))
    · simp only [if_neg h]
      simp
  | unlockWoken e q next => cases one <;> simp [wakeText]
  | _ => simp [wakeText]

theorem kkillText_ok (pid : BitVec 32) (pc : KkillPc np) : TextOk me (.kkill pid pc) (kkillText S pid pc) := by
  cases pc with
  | scan i => by_cases h : i < np <;> simp [kkillText, h]
  | test i =>
    intro κ
    by_cases h : (κ.procs i).pid = pid
    · by_cases h' : (κ.procs i).state = .sleeping
      · simp only [if_pos h, if_pos h']
        simpa using moved_setProc (.inl rfl)
      · simp only [if_pos h, if_neg h']
        simpa using moved_setProc (.inl rfl)
    · simp only [if_neg h]
      simp
  | _ => simp [kkillText, Frame.wakeup]

theorem setkilledText_ok (q : Fin np) (pc : SetkilledPc) : TextOk me (.setkilled q pc) (setkilledText S q pc) := by
  cases pc with
  | set => simpa [setkilledText] using fun κ => moved_setProc (.inl rfl)
  | _ => simp [setkilledText]

theorem killedText_ok (q : Fin np) (pc : KilledPc) : TextOk me (.killed q pc) (killedText S q pc) := by
  cases pc <;> simp [killedText]

theorem kforkText_ok (p : Fin np) (pc : KforkPc np) : TextOk me (.kfork p pc) (kforkText S p pc) := by
  cases pc with
  | scan i => by_cases h : i < np <;> simp [kforkText, h]
  | test i =>
    intro κ
    by_cases h : (κ.procs i).state = .unused <;> simp [h]
  | setUsed i pid | setRunnable i pid =>
    simpa [kforkText] using fun κ h => moved_setProc (.inr (.known (h ▸ rfl) (by simp [h]) (by simp)))
  | freeproc i =>
    simpa [kforkText] using fun κ h => moved_setProc (.inr (.known (h ▸ rfl) (by simp [h]) (by simp [freeproc])))
  | setParent i pid =>
    intro κ
    refine updOk_plain (fun q => ?_) rfl rfl rfl (by simp)
    simp only [Kernel.setProc_procs]
    split
    · next h => rw [h]
    · rfl
  | trapframe i pid | pagetable i pid | uvmcopy i pid =>
    intro n
    by_cases h : n = 0 <;> simp [h]
  | _ => simp [kforkText]

theorem kexitText_ok (p : Fin np) (status : BitVec 32) (pc : KexitPc np) :
    TextOk me (.kexit p status pc) (kexitText S p status pc) := by
  cases pc with
  | start => by_cases h : p = S.initproc <;> simp [kexitText, h]
  | reparent i =>
    by_cases h : i < np
    · simp only [kexitText, dif_pos h]
      intro κ
      by_cases h' : (κ.procs ⟨i, h⟩).parent = some p
      · simp only [if_pos h']
        refine updOk_plain (fun q => ?_) rfl rfl rfl (by simp)
        simp only [Kernel.setProc_procs]
        split
        · next h => rw [h]
        · rfl
      · simp only [if_neg h']
        simp
    · simp [kexitText, h]
  | setZombie => simpa [kexitText] using fun κ => moved_setProc (.inr (.own rfl rfl))
  | _ => simp [kexitText, Frame.wakeup]

theorem kwaitText_ok (p : Fin np) (pc : KwaitPc np) : TextOk me (.kwait p pc) (kwaitText S p pc) := by
  cases pc with
  | scan i havekids =>
    by_cases h : i < np
    · simp only [kwaitText, dif_pos h]
      intro κ
      by_cases h' : (κ.procs ⟨i, h⟩).parent = some p <;> simp [h']
    · simp [kwaitText, h]
  | test i =>
    intro κ
    by_cases h : (κ.procs i).state = .zombie <;> simp [h]
  | copyout i pid =>
    intro n
    by_cases h : n = 0 <;> simp [h]
  | freeproc i pid =>
    simpa [kwaitText] using fun κ h => moved_setProc (.inr (.known (h ▸ rfl) (by simp [h]) (by simp [freeproc])))
  | check havekids => cases havekids <;> simp [kwaitText]
  | decide k =>
    intro κ
    by_cases h : k = 0 <;> simp [h]
  | _ => simp [kwaitText]

theorem yieldText_ok (p : Fin np) (pc : YieldPc) : TextOk me (.yield p pc) (yieldText S p pc) := by
  cases pc with
  | setRunnable => simpa [yieldText] using fun κ => moved_setProc (.inr (.own rfl rfl))
  | _ => simp [yieldText]

theorem schedText_ok (p : Fin np) (pc : SchedPc) : TextOk me (.sched p pc) (schedText S p pc) := by
  cases pc <;> simp [schedText]

theorem schedulerText_ok (pc : SchedulerPc np) : TextOk me (.scheduler pc) (schedulerText S pc) := by
  cases pc with
  | scan i found => by_cases h : i < np <;> simp [schedulerText, h]
  | test i found =>
    intro κ
    by_cases h : (κ.procs i).state = .runnable <;> simp [h]
  | _ => simp [schedulerText]

theorem trapText_ok (pc : TrapPc) : TextOk me (.kerneltrap pc) (trapText S me pc) := by
  cases pc with
  | after timer => cases timer <;> cases me <;> simp [trapText]
  | _ => simp [trapText]

theorem opText_ok (l : S.L) (op : Op np S.D S.L) : TextOk me (.client l) (opText S me op) := by
  cases op <;> cases me <;> simp [opText, withProc, Frame.wakeup, Frame.wakeupOne]

/-- Going on after a call changes no annotation. -/
theorem resume_ok (f : S.F) (v : Int) :
    (resume S f v).held = f.held ∧ (resume S f v).own = f.own ∧ (resume S f v).isScheduler = f.isScheduler ∧
      (resume S f v).isEnter = f.isEnter ∧ (resume S f v).expects = f.expects ∧ (resume S f v).child = f.child ∧
      (resume S f v).restTop = f.restTop ∧ (resume S f v).returns = f.returns ∧
      (resume S f v).sleepsOn = f.sleepsOn := by
  cases f with
  | kwait p pc => cases pc <;> simp [resume]
  | _ => simp [resume]

/-- **The text keeps the promises of its program points.** -/
theorem textOk (f : S.F) : TextOk me f (instr S me f) := by
  cases f with
  | client l => exact opText_ok me l (S.code l)
  | ret v => simp [instr]
  | sleep p chan lk pc => exact sleepText_ok me p chan lk pc
  | wake one chan pc => exact wakeText_ok me one chan pc
  | kkill pid pc => exact kkillText_ok me pid pc
  | setkilled q pc => exact setkilledText_ok me q pc
  | killed q pc => exact killedText_ok me q pc
  | kfork p pc => exact kforkText_ok me p pc
  | kexit p status pc => exact kexitText_ok me p status pc
  | kwait p pc => exact kwaitText_ok me p pc
  | yield p pc => exact yieldText_ok me p pc
  | sched p pc => exact schedText_ok me p pc
  | scheduler pc => exact schedulerText_ok me pc
  | forkret p => simp [instr]
  | kerneltrap pc => exact trapText_ok me pc

end Points

variable {κ : S.K} {f : S.F} {me : Option (Fin np)} {g : S.K → S.K} {k : S.K → S.F}

theorem textOk_of {ins : S.I} (hi : instr S me f = ins) : TextOk me f ins := hi ▸ textOk me f

theorem updOk_of_upd (hi : instr S me f = .upd g k) (κ : S.K) : UpdOk f (k κ) κ (g κ) := textOk_of hi κ

/-! ## What is stored -/

/-- What an access at a program point stores. -/
inductive Stores (κ : S.K) : S.F → S.K → Prop
  /-- Nothing about processes and queues. -/
  | data {f : S.F} {κ' : S.K} (hq : f.inQueue = false) (hp : κ'.procs = κ.procs) (hh : κ'.head = κ.head)
      (hn : κ'.nextpid = κ.nextpid) : Stores κ f κ'
  | nextpid (p i : Fin np) : Stores κ (.kfork p (.readPid i)) { κ with nextpid := κ.nextpid + 1 }
  | enqueue (p : Fin np) (chan : Chan) (lk : LockName) :
      Stores κ (.sleep p chan lk .enqueue) (κ.wqAddLocked (wqHash chan) chan p)
  | sleep (p : Fin np) (chan : Chan) (lk : LockName) :
      Stores κ (.sleep p chan lk .setSleeping) (κ.setProc p fun q => { q with chan := chan, state := .sleeping })
  | tidy (p : Fin np) (chan : Chan) (lk : LockName) :
      Stores κ (.sleep p chan lk .tidy) (κ.setProc p fun q => { q with chan := 0 })
  | first (one : Bool) (chan : Chan) : Stores κ (.wake one chan .first) κ
  | walk (one : Bool) (chan : Chan) (e : Option (Fin np)) : Stores κ (.wake one chan (.walk e)) κ
  | miss (one : Bool) (chan : Chan) (e q : Fin np) (next : Option (Fin np))
      (h : ¬ ((κ.procs q).state = .sleeping ∧ (κ.procs q).chan = chan)) : Stores κ (.wake one chan (.test e q next)) κ
  | wake (one : Bool) (chan : Chan) (e q : Fin np) (next : Option (Fin np))
      (h : (κ.procs q).state = .sleeping ∧ (κ.procs q).chan = chan) :
      Stores κ (.wake one chan (.test e q next)) (κ.setProc q fun r => { r with state := .runnable })
  | unlink (one : Bool) (chan : Chan) (e q : Fin np) (next : Option (Fin np)) :
      Stores κ (.wake one chan (.unlink e q next)) (κ.wqRemoveLocked (wqHash chan) e)
  | kill (i : Fin np) : Stores κ (.kkill (κ.procs i).pid (.test i)) (κ.setProc i fun q => { q with killed := true })
  | setkilled (q : Fin np) : Stores κ (.setkilled q .set) (κ.setProc q fun r => { r with killed := true })
  | create (p i : Fin np) (pid : BitVec 32) :
      Stores κ (.kfork p (.setUsed i pid)) (κ.setProc i fun q => { q with pid := pid, state := .used })
  | adopt (p i : Fin np) (pid : BitVec 32) :
      Stores κ (.kfork p (.setParent i pid)) (κ.setProc i fun q => { q with parent := some p })
  | ready (p i : Fin np) (pid : BitVec 32) :
      Stores κ (.kfork p (.setRunnable i pid)) (κ.setProc i fun q => { q with state := .runnable })
  | drop (p i : Fin np) : Stores κ (.kfork p (.freeproc i)) (κ.setProc i freeproc)
  | reparent (p i : Fin np) (status : BitVec 32) (h : (κ.procs i).parent = some p) :
      Stores κ (.kexit p status (.reparent i)) (κ.setProc i fun q => { q with parent := some S.initproc })
  | exit (p : Fin np) (status : BitVec 32) :
      Stores κ (.kexit p status .setZombie) (κ.setProc p fun q => { q with xstate := status, state := .zombie })
  | reap (p i : Fin np) (pid : BitVec 32) : Stores κ (.kwait p (.freeproc i pid)) (κ.setProc i freeproc)
  | yield (p : Fin np) : Stores κ (.yield p .setRunnable) (κ.setProc p fun q => { q with state := .runnable })

/-- **Every access of the program text stores one of these.** -/
theorem stores_of_upd (hi : instr S me f = .upd g k) (κ : S.K) : Stores κ f (g κ) := by
  cases f with
  | client l =>
    simp only [instr] at hi
    generalize S.code l = op at hi
    cases op <;> cases me <;> simp only [opText, withProc, reduceCtorEq, Instr.upd.injEq] at hi
    all_goals (obtain ⟨rfl, _⟩ := hi; exact .data rfl rfl rfl rfl)
  | sleep p chan lk pc =>
    cases pc with
    | enqueue => cases hi; exact .enqueue p chan lk
    | setSleeping => cases hi; exact .sleep p chan lk
    | tidy => cases hi; exact .tidy p chan lk
    | _ => cases hi
  | wake one chan pc =>
    cases pc with
    | first => cases hi; exact .first one chan
    | walk e => cases e <;> (cases hi; exact .walk one chan _)
    | test e q next =>
      cases hi
      by_cases h : (κ.procs q).state = .sleeping ∧ (κ.procs q).chan = chan
      · simp only [if_pos h]
        exact .wake one chan e q next h
      · simp only [if_neg h]
        exact .miss one chan e q next h
    | unlink e q next => cases hi; exact .unlink one chan e q next
    | _ => cases hi
  | kkill pid pc =>
    cases pc with
    | scan i =>
      simp only [instr, kkillText] at hi
      split at hi <;> cases hi
      exact .data rfl rfl rfl rfl
    | test i =>
      cases hi
      by_cases h : (κ.procs i).pid = pid
      · subst h
        simp only [if_true]
        exact .kill i
      · simp only [if_neg h]
        exact .data rfl rfl rfl rfl
    | _ => cases hi
  | setkilled q pc =>
    cases pc <;> cases hi
    exact .setkilled q
  | kfork p pc =>
    cases pc with
    | scan i =>
      simp only [instr, kforkText] at hi
      split at hi <;> cases hi
      exact .data rfl rfl rfl rfl
    | test i => cases hi; exact .data rfl rfl rfl rfl
    | readPid i => cases hi; exact .nextpid p i
    | setUsed i pid => cases hi; exact .create p i pid
    | setParent i pid => cases hi; exact .adopt p i pid
    | setRunnable i pid => cases hi; exact .ready p i pid
    | freeproc i => cases hi; exact .drop p i
    | _ => cases hi
  | kexit p status pc =>
    cases pc with
    | start =>
      simp only [instr, kexitText] at hi
      split at hi <;> cases hi
      exact .data rfl rfl rfl rfl
    | reparent i =>
      simp only [instr, kexitText] at hi
      split at hi
      · next h =>
        cases hi
        by_cases h' : (κ.procs ⟨i, h⟩).parent = some p
        · simp only [if_pos h']
          exact .reparent p ⟨i, h⟩ status h'
        · simp only [if_neg h']
          exact .data rfl rfl rfl rfl
      · cases hi; exact .data rfl rfl rfl rfl
    | setZombie => cases hi; exact .exit p status
    | _ => cases hi
  | kwait p pc =>
    cases pc with
    | scan i havekids =>
      simp only [instr, kwaitText] at hi
      split at hi <;> (cases hi; exact .data rfl rfl rfl rfl)
    | freeproc i pid => cases hi; exact .reap p i pid
    | check havekids =>
      simp only [instr, kwaitText] at hi
      split at hi <;> cases hi
      exact .data rfl rfl rfl rfl
    | start | test _ | decide _ => cases hi; exact .data rfl rfl rfl rfl
    | _ => cases hi
  | yield p pc =>
    cases pc <;> cases hi
    exact .yield p
  | sched p pc => cases pc <;> cases hi
  | scheduler pc =>
    cases pc with
    | scan i found =>
      simp only [instr, schedulerText] at hi
      split at hi <;> cases hi
      exact .data rfl rfl rfl rfl
    | test _ _ | idle _ => cases hi; exact .data rfl rfl rfl rfl
    | _ => cases hi
  | kerneltrap pc =>
    cases pc with
    | after timer =>
      cases timer <;> cases me <;> cases hi
      all_goals exact .data rfl rfl rfl rfl
    | _ => cases hi
  | killed q pc =>
    cases pc <;> cases hi
    exact .data rfl rfl rfl rfl
  | _ => cases hi

end Check

end Xv6
