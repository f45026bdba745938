import Xv6.Kernel.Scan

/-!
# The life of a process

- `Fires.mem`, `conts_fn`: where the activation records on a stack come from;
- `LifeStep`, `life_step`: what a step does to the state, the pid, the parent and the exit status of one slot, and to
  `nextpid`.
-/

namespace Xv6

open State

variable {np nc : Nat} {S : System np}
variable {s s' : State S nc} {c : Fin nc} {t : Tid np nc}

/-! ## Records on stacks -/

/-- The points an instruction goes on to, with the data and the outcome it reads. -/
def Instr.conts {D L : Type} (κ : Kernel np D) (n : Nat) : Instr np D L → List (Frame np L)
  | .acquire _ k | .release _ k | .dispatch _ k | .spawn _ k | .cpu _ k | .intrOn k => [k]
  | .upd _ k => [k κ]
  | .call callee k => [callee, k]
  | .choose k => [k n]
  | .ret _ | .sched _ | .sret | .panic _ => []

/-- The record comes from the one that was executed. -/
abbrev Executed (s s' : State S nc) (c : Fin nc) (f' : S.F) : Prop :=
  ∃ f rest n, s.stk (s.cur c) = f :: rest ∧ f' ∈ (instr S (s.cpus c).proc f).conts s.kern n ∧
    ∀ g k, instr S (s.cpus c).proc f = .upd g k → s'.kern = g s.kern

/-- Where the records on a stack come from. -/
theorem Fires.mem (hf : Fires s c s') {f' : S.F} (hm : f' ∈ s'.stk t) :
    f' ∈ s.stk t ∨ (∃ g ∈ s.stk t, ∃ v, f' = resume S g v) ∨ (∃ q, f' = .forkret q) ∨
      (∃ p b, f' = .sched p (.back b)) ∨ (∃ irq, f' = .kerneltrap (.devintr irq)) ∨ Executed s s' c f' := by
  -- the stack of the running thread is replaced by new records and a part of the old one
  have key : ∀ pre {st : List S.F}, (∀ x ∈ st, x ∈ s.stk (s.cur c)) →
      f' ∈ Function.update s.stk (s.cur c) (pre ++ st) t → f' ∈ s.stk t ∨ t = s.cur c ∧ f' ∈ pre := by
    intro pre st hst hm
    by_cases ht : t = s.cur c
    · subst ht
      rw [Function.update_self, List.mem_append] at hm
      rcases hm with hm | hm
      · exact .inr ⟨rfl, hm⟩
      · exact .inl (hst f' hm)
    · rw [Function.update_of_ne ht] at hm
      exact .inl hm
  have hrest : ∀ {f : S.F} {rest : List S.F}, s.stk (s.cur c) = f :: rest → ∀ x ∈ rest, x ∈ s.stk (s.cur c) :=
    fun hs x hx => by rw [hs]; exact List.mem_cons_of_mem _ hx
  have goes : ∀ {f : S.F} {rest : List S.F} {i : S.I} n, s.stk (s.cur c) = f :: rest →
      instr S (s.cpus c).proc f = i → (∀ g k, i = .upd g k → s'.kern = g s.kern) →
      f' ∈ s.stk t ∨ t = s.cur c ∧ f' ∈ i.conts s.kern n →
      f' ∈ s.stk t ∨ (∃ g ∈ s.stk t, ∃ v, f' = resume S g v) ∨ (∃ q, f' = .forkret q) ∨
        (∃ p b, f' = .sched p (.back b)) ∨ (∃ irq, f' = .kerneltrap (.devintr irq)) ∨ Executed s s' c f' := by
    rintro f rest i n hs hi hk (hx | ⟨-, hx⟩)
    · exact .inl hx
    · exact .inr (.inr (.inr (.inr (.inr ⟨f, rest, n, hs, hi ▸ hx, hi ▸ hk⟩))))
  cases hf with
  | acquire hs hi hl | release hs hi hl | dispatch hs hi | cpu hs hi | intrOn hs hi hn =>
    exact goes 0 hs hi nofun (key [_] (hrest hs) hm)
  | upd hs hi => exact goes 0 hs hi (fun g k he => by cases he; rfl) (key [_] (hrest hs) hm)
  | call hs hi => exact goes 0 hs hi nofun (key [_, _] (hrest hs) hm)
  | choose n hs hi => exact goes n hs hi nofun (key [_] (hrest hs) hm)
  | panic hx hp => exact .inl hm
  | sret hs hi hn => exact .inl ((key [] (hrest hs) hm).resolve_right (by simp))
  | @intr f rest irq hs hi =>
    rcases key [_] (show ∀ x ∈ f :: rest, _ by rw [hs]; exact fun x hx => hx) hm with hx | ⟨-, hx⟩
    · exact .inl hx
    · exact .inr (.inr (.inr (.inr (.inl ⟨irq, List.mem_singleton.mp hx⟩))))
  | sched hs hi =>
    rcases key [_] (hrest hs) hm with hx | ⟨-, hx⟩
    · exact .inl hx
    · exact .inr (.inr (.inr (.inl ⟨_, _, List.mem_singleton.mp hx⟩)))
  | @ret f g rest v hs hi =>
    rcases key [_] (fun x hx => hrest hs x (List.mem_cons_of_mem _ hx)) hm with hx | ⟨rfl, hx⟩
    · exact .inl hx
    · exact .inr (.inl ⟨g, hrest hs g List.mem_cons_self, v, List.mem_singleton.mp hx⟩)
  | @spawn f rest q k hs hi =>
    by_cases ht : t = .proc q ∧ t ≠ s.cur c
    · obtain ⟨rfl, hne⟩ := ht
      simp only [setStk_stk, Function.update_of_ne hne, Function.update_self, List.mem_singleton] at hm
      exact .inr (.inr (.inl ⟨q, hm⟩))
    · refine goes 0 hs hi nofun (key [_] (hrest hs) ?_)
      by_cases hc : t = s.cur c
      · subst hc
        simpa using hm
      · have hq : t ≠ .proc q := fun hx => ht ⟨hx, hc⟩
        simpa [Function.update_of_ne hc, Function.update_of_ne hq] using hm

/-- The functions whose records carry something from one point to the next. -/
inductive Fn (np : Nat)
  | kkill (pid : BitVec 32)
  | kfork (p : Fin np)
  | kexit (p : Fin np) (status : BitVec 32)
  | kwait (p : Fin np)

/-- The function of a record, if it is one of these. -/
def Frame.fn {L : Type} : Frame np L → Option (Fn np)
  | .kkill pid _ => some (.kkill pid)
  | .kfork p _ => some (.kfork p)
  | .kexit p status _ => some (.kexit p status)
  | .kwait p _ => some (.kwait p)
  | _ => none

/-- The first point of such a function. -/
def Frame.begins {L : Type} : Frame np L → Bool
  | .kkill _ (.scan 0) => true
  | .kfork _ (.scan 0) => true
  | .kexit _ _ .start => true
  | .kwait _ .lockWait => true
  | _ => false

/-- How a record on a stack comes from the record `f` that was executed. -/
def Frame.From {L : Type} (f f' : Frame np L) : Prop := f'.fn = none ∨ f'.begins = true ∨ f'.fn = f.fn

theorem Frame.From.ite {L : Type} {c : Prop} [Decidable c] {f g h : Frame np L} (hg : f.From g) (hh : f.From h) :
    f.From (if c then g else h) := by
  split
  · exact hg
  · exact hh

/-- **A function goes on with itself**, or calls another one. -/
theorem conts_fn {me : Option (Fin np)} {κ : S.K} {n : Nat} {f : S.F} : ∀ f' ∈ (instr S me f).conts κ n, f.From f' := by
  have one : ∀ {k : S.F}, f.From k → ∀ f' ∈ [k], f.From f' := fun h f' hf' => by
    rw [List.mem_singleton.mp hf']
    exact h
  have two : ∀ {k k' : S.F}, f.From k → f.From k' → ∀ f' ∈ [k, k'], f.From f' := fun h h' f' hf' => by
    rcases List.mem_cons.mp hf' with rfl | hf'
    · exact h
    · exact one h' f' hf'
  have nil : ∀ f' ∈ ([] : List S.F), f.From f' := fun _ h => nomatch h
  have ends : ∀ {k : S.F}, k.fn = none → f.From k := .inl
  have starts : ∀ {k : S.F}, k.begins = true → f.From k := fun h => .inr (.inl h)
  have goes : ∀ {k : S.F}, k.fn = f.fn → f.From k := fun h => .inr (.inr h)
  cases f with
  | client l =>
    simp only [instr]
    generalize S.code l = op
    cases op <;> cases me
    all_goals first | exact one (ends rfl) | exact two (ends rfl) (ends rfl) | exact two (starts rfl) (ends rfl) | exact nil
  | ret v => exact nil
  | sleep p chan lk pc | yield p pc => cases pc <;> first | exact one (ends rfl) | exact two (ends rfl) (ends rfl)
  | wake one' chan pc =>
    cases pc with
    | walk e =>
      cases e with
      | none => exact one (ends rfl)
      | some e => exact one (.ite (ends rfl) (ends rfl))
    | test e q next | unlockWoken e q next => exact one (.ite (ends rfl) (ends rfl))
    | _ => exact one (ends rfl)
  | kkill pid pc =>
    cases pc with
    | scan i => simp only [instr, kkillText]; split <;> first | exact one (goes rfl) | exact one (ends rfl)
    | test i => exact one (.ite (.ite (goes rfl) (goes rfl)) (goes rfl))
    | callWakeup i chan => exact two (ends rfl) (goes rfl)
    | found i => exact nil
    | _ => exact one (goes rfl)
  | setkilled q pc | killed q pc => cases pc <;> exact one (ends rfl)
  | kfork p pc =>
    cases pc with
    | scan i => simp only [instr, kforkText]; split <;> first | exact one (goes rfl) | exact one (ends rfl)
    | test i | trapframe i pid | pagetable i pid | uvmcopy i pid => exact one (.ite (goes rfl) (goes rfl))
    | dup i pid => exact two (ends rfl) (goes rfl)
    | unlockDone i pid | unlockFail i => exact one (ends rfl)
    | _ => exact one (goes rfl)
  | kexit p status pc =>
    cases pc with
    | start =>
      simp only [instr, kexitText]
      split
      · exact nil
      · exact one (goes rfl)
    | reparent i =>
      simp only [instr, kexitText]
      split
      · exact one (.ite (goes rfl) (goes rfl))
      · exact one (goes rfl)
    | callInit i | callParent chan | callSched => exact two (ends rfl) (goes rfl)
    | zombieExit => exact nil
    | _ => exact one (goes rfl)
  | kwait p pc =>
    cases pc with
    | scan i havekids =>
      simp only [instr, kwaitText]
      split
      · exact one (.ite (goes rfl) (goes rfl))
      · exact one (goes rfl)
    | test i | copyout i pid | decide k => exact one (.ite (goes rfl) (goes rfl))
    | check havekids =>
      simp only [instr, kwaitText]
      split
      · exact two (ends rfl) (goes rfl)
      · exact one (goes rfl)
    | callSleep => exact two (ends rfl) (goes rfl)
    | unlockWait v => exact one (ends rfl)
    | _ => exact one (goes rfl)
  | sched p pc => cases pc <;> first | exact one (ends rfl) | exact nil
  | scheduler pc =>
    cases pc with
    | scan i found => simp only [instr, schedulerText]; split <;> exact one (ends rfl)
    | test i found => exact one (.ite (ends rfl) (ends rfl))
    | _ => exact one (ends rfl)
  | forkret p => exact one (ends rfl)
  | kerneltrap pc =>
    cases pc with
    | devintr irq => exact two (ends rfl) (ends rfl)
    | after timer => cases timer <;> cases me <;> first | exact one (ends rfl) | exact two (ends rfl) (ends rfl)
    | sret => exact nil

/-- The same for the records of these functions, apart from the one that takes a returned value. -/
theorem Fires.mem_fn (hf : Fires s c s') {f' : S.F}
    (hm : f' ∈ s'.stk t) (hfn : f'.fn ≠ none) (hd : ∀ p k, f' ≠ .kwait p (.decide k)) :
    f' ∈ s.stk t ∨ Executed s s' c f' := by
  rcases hf.mem hm with hx | ⟨g, hg, v, rfl⟩ | ⟨q, rfl⟩ | ⟨p, b, rfl⟩ | ⟨irq, rfl⟩ | hx
  · exact .inl hx
  · refine .inl ?_
    cases g with
    | kwait p pc =>
      cases pc with
      | decide k => exact absurd rfl (hd p v)
      | _ => exact hg
    | client l => exact absurd rfl hfn
    | _ => exact hg
  · exact absurd rfl hfn
  · exact absurd rfl hfn
  · exact absurd rfl hfn
  · exact .inr hx

/-! ## The edges of `kfork`, `kexit` and `kwait` -/

/-- One point of `kfork` and the next. -/
inductive KforkGoes (κ : S.K) : KforkPc np → KforkPc np → Prop
  | scan (i : Nat) (h : i < np) : KforkGoes κ (.scan i) (.test ⟨i, h⟩)
  | unused (i : Fin np) (h : (κ.procs i).state = .unused) : KforkGoes κ (.test i) (.lockPid i)
  | inUse (i : Fin np) : KforkGoes κ (.test i) (.unlockUsed i)
  | unlockUsed (i : Fin np) : KforkGoes κ (.unlockUsed i) (.scan (i + 1))
  | lockPid (i : Fin np) : KforkGoes κ (.lockPid i) (.readPid i)
  | readPid (i : Fin np) : KforkGoes κ (.readPid i) (.unlockPid i κ.nextpid)
  | unlockPid (i : Fin np) (pid : BitVec 32) : KforkGoes κ (.unlockPid i pid) (.setUsed i pid)
  | setUsed (i : Fin np) (pid : BitVec 32) : KforkGoes κ (.setUsed i pid) (.trapframe i pid)
  | trapframe (i : Fin np) (pid : BitVec 32) : KforkGoes κ (.trapframe i pid) (.pagetable i pid)
  | noTrapframe (i : Fin np) (pid : BitVec 32) : KforkGoes κ (.trapframe i pid) (.freeproc i)
  | pagetable (i : Fin np) (pid : BitVec 32) : KforkGoes κ (.pagetable i pid) (.context i pid)
  | noPagetable (i : Fin np) (pid : BitVec 32) : KforkGoes κ (.pagetable i pid) (.freeproc i)
  | context (i : Fin np) (pid : BitVec 32) : KforkGoes κ (.context i pid) (.uvmcopy i pid)
  | uvmcopy (i : Fin np) (pid : BitVec 32) : KforkGoes κ (.uvmcopy i pid) (.dup i pid)
  | noCopy (i : Fin np) (pid : BitVec 32) : KforkGoes κ (.uvmcopy i pid) (.freeproc i)
  | dup (i : Fin np) (pid : BitVec 32) : KforkGoes κ (.dup i pid) (.unlockChild i pid)
  | unlockChild (i : Fin np) (pid : BitVec 32) : KforkGoes κ (.unlockChild i pid) (.lockWait i pid)
  | lockWait (i : Fin np) (pid : BitVec 32) : KforkGoes κ (.lockWait i pid) (.setParent i pid)
  | setParent (i : Fin np) (pid : BitVec 32) : KforkGoes κ (.setParent i pid) (.unlockWait i pid)
  | unlockWait (i : Fin np) (pid : BitVec 32) : KforkGoes κ (.unlockWait i pid) (.lockChild i pid)
  | lockChild (i : Fin np) (pid : BitVec 32) : KforkGoes κ (.lockChild i pid) (.setRunnable i pid)
  | setRunnable (i : Fin np) (pid : BitVec 32) : KforkGoes κ (.setRunnable i pid) (.unlockDone i pid)
  | freeproc (i : Fin np) : KforkGoes κ (.freeproc i) (.unlockFail i)

/-- One point of `kexit` by `p` and the next. -/
inductive KexitGoes (κ : S.K) (p : Fin np) : KexitPc np → KexitPc np → Prop
  | start (h : p ≠ S.initproc) : KexitGoes κ p .start .lockWait
  | lockWait : KexitGoes κ p .lockWait (.reparent 0)
  | give (i : Nat) (h : i < np) (hp : (κ.procs ⟨i, h⟩).parent = some p) : KexitGoes κ p (.reparent i) (.callInit ⟨i, h⟩)
  | skip (i : Nat) (h : i < np) (hp : (κ.procs ⟨i, h⟩).parent ≠ some p) :
      KexitGoes κ p (.reparent i) (.reparent (i + 1))
  | last (i : Nat) (h : np ≤ i) (chan : Chan) : KexitGoes κ p (.reparent i) (.callParent chan)
  | callInit (i : Fin np) : KexitGoes κ p (.callInit i) (.reparent (i + 1))
  | callParent (chan : Chan) : KexitGoes κ p (.callParent chan) .lockSelf
  | lockSelf : KexitGoes κ p .lockSelf .setZombie
  | setZombie : KexitGoes κ p .setZombie .unlockWait
  | unlockWait : KexitGoes κ p .unlockWait .callSched
  | callSched : KexitGoes κ p .callSched .zombieExit

/-- One point of `kwait` by `p` and the next. -/
inductive KwaitGoes (κ : S.K) (p : Fin np) : KwaitPc np → KwaitPc np → Prop
  | lockWait : KwaitGoes κ p .lockWait .start
  | start : KwaitGoes κ p .start (.scan 0 false)
  | child (i : Nat) (h : i < np) (b : Bool) (hp : (κ.procs ⟨i, h⟩).parent = some p) :
      KwaitGoes κ p (.scan i b) (.lockChild ⟨i, h⟩)
  | other (i : Nat) (b : Bool) : KwaitGoes κ p (.scan i b) (.scan (i + 1) b)
  | last (i : Nat) (b : Bool) : KwaitGoes κ p (.scan i b) (.check b)
  | lockChild (i : Fin np) : KwaitGoes κ p (.lockChild i) (.test i)
  | zombie (i : Fin np) (h : (κ.procs i).state = .zombie) : KwaitGoes κ p (.test i) (.copyout i (κ.procs i).pid)
  | miss (i : Fin np) : KwaitGoes κ p (.test i) (.unlockMiss i)
  | copied (i : Fin np) (pid : BitVec 32) : KwaitGoes κ p (.copyout i pid) (.freeproc i pid)
  | noCopy (i : Fin np) (pid : BitVec 32) : KwaitGoes κ p (.copyout i pid) (.unlockFound i (-1))
  | freeproc (i : Fin np) (pid : BitVec 32) : KwaitGoes κ p (.freeproc i pid) (.unlockFound i pid.toInt)
  | unlockFound (i : Fin np) (v : Int) : KwaitGoes κ p (.unlockFound i v) (.unlockWait v)
  | unlockMiss (i : Fin np) : KwaitGoes κ p (.unlockMiss i) (.scan (i + 1) true)
  | check : KwaitGoes κ p (.check true) (.decide 0)
  | noKids : KwaitGoes κ p (.check false) (.unlockWait (-1))
  | stay (k : Int) : KwaitGoes κ p (.decide k) .callSleep
  | killed (k : Int) : KwaitGoes κ p (.decide k) (.unlockWait (-1))
  | callSleep : KwaitGoes κ p .callSleep .start

section Edges

variable {me : Option (Fin np)} {κ : S.K} {n : Nat} {f : S.F} {p : Fin np}

theorem conts_kfork {pc' : KforkPc np} (hm : .kfork p pc' ∈ (instr S me f).conts κ n) :
    pc' = .scan 0 ∨ ∃ pc, f = .kfork p pc ∧ KforkGoes κ pc pc' := by
  rcases conts_fn _ hm with hn | hb | hs
  · cases hn
  · cases pc' with
    | scan i =>
      cases i with
      | zero => exact .inl rfl
      | succ i => cases hb
    | _ => cases hb
  · cases f with
    | kfork q pc =>
      cases hs
      refine .inr ⟨pc, rfl, ?_⟩
      cases pc with
      | scan i =>
        simp only [instr, kforkText] at hm
        split at hm <;> cases List.mem_singleton.mp hm
        exact .scan i _
      | test i =>
        simp only [instr, kforkText, Instr.conts, List.mem_singleton] at hm
        split at hm <;> cases hm
        · exact .unused i ‹_›
        · exact .inUse i
      | trapframe i pid | pagetable i pid | uvmcopy i pid =>
        simp only [instr, kforkText, Instr.conts, List.mem_singleton] at hm
        split at hm <;> cases hm <;> constructor
      | dup i pid =>
        rcases List.mem_cons.mp hm with hm | hm
        · cases hm
        · cases List.mem_singleton.mp hm
          exact .dup i pid
      | _ =>
        cases List.mem_singleton.mp hm
        all_goals constructor
    | _ => cases hs

theorem conts_kexit {status : BitVec 32} {pc' : KexitPc np} (hm : .kexit p status pc' ∈ (instr S me f).conts κ n) :
    pc' = .start ∨ ∃ pc, f = .kexit p status pc ∧ KexitGoes κ p pc pc' := by
  rcases conts_fn _ hm with hn | hb | hs
  · cases hn
  · cases pc' with
    | start => exact .inl rfl
    | _ => cases hb
  · cases f with
    | kexit q status' pc =>
      cases hs
      refine .inr ⟨pc, rfl, ?_⟩
      cases pc with
      | start =>
        simp only [instr, kexitText] at hm
        split at hm
        · cases hm
        · cases List.mem_singleton.mp hm
          exact .start ‹_›
      | reparent i =>
        simp only [instr, kexitText] at hm
        split at hm
        · simp only [Instr.conts, List.mem_singleton] at hm
          split at hm <;> cases hm
          · exact .give i _ ‹_›
          · exact .skip i ‹_› ‹_›
        · cases List.mem_singleton.mp hm
          exact .last i (Nat.not_lt.mp ‹_›) _
      | callInit i | callParent chan | callSched =>
        rcases List.mem_cons.mp hm with hm | hm
        · cases hm
        · cases List.mem_singleton.mp hm
          constructor
      | zombieExit => cases hm
      | _ =>
        cases List.mem_singleton.mp hm
        constructor
    | _ => cases hs

theorem conts_kwait {pc' : KwaitPc np} (hm : .kwait p pc' ∈ (instr S me f).conts κ n) :
    pc' = .lockWait ∨ ∃ pc, f = .kwait p pc ∧ KwaitGoes κ p pc pc' := by
  rcases conts_fn _ hm with hn | hb | hs
  · cases hn
  · cases pc' with
    | lockWait => exact .inl rfl
    | _ => cases hb
  · cases f with
    | kwait q pc =>
      cases hs
      refine .inr ⟨pc, rfl, ?_⟩
      cases pc with
      | scan i b =>
        simp only [instr, kwaitText] at hm
        split at hm
        · simp only [Instr.conts, List.mem_singleton] at hm
          split at hm <;> cases hm
          · exact .child i _ b ‹_›
          · exact .other i b
        · cases List.mem_singleton.mp hm
          exact .last i b
      | test i =>
        simp only [instr, kwaitText, Instr.conts, List.mem_singleton] at hm
        split at hm <;> cases hm
        · exact .zombie i ‹_›
        · exact .miss i
      | copyout i pid | decide k =>
        simp only [instr, kwaitText, Instr.conts, List.mem_singleton] at hm
        split at hm <;> cases hm <;> constructor
      | check b =>
        cases b with
        | true =>
          rcases List.mem_cons.mp hm with hm | hm
          · cases hm
          · cases List.mem_singleton.mp hm
            exact .check
        | false =>
          cases List.mem_singleton.mp hm
          exact .noKids
      | callSleep =>
        rcases List.mem_cons.mp hm with hm | hm
        · cases hm
        · cases List.mem_singleton.mp hm
          exact .callSleep
      | unlockWait v => cases List.mem_singleton.mp hm
      | _ =>
        cases List.mem_singleton.mp hm
        constructor
    | _ => cases hs

end Edges

/-! ## What a step does to a process -/

/-- The states of a process that has been started and has not exited. -/
def ProcState.live : ProcState → Bool
  | .sleeping | .runnable | .running => true
  | _ => false

/-- The effect of an access at `f` on the life of the process in slot `q`. -/
inductive LifeStep (f : S.F) (q : Fin np) (a b : Proc np) : Prop
  | same (hs : b.state = a.state ∨ a.state.live = true ∧ b.state.live = true) (hp : b.pid = a.pid)
      (hpar : b.parent = a.parent) (hx : b.xstate = a.xstate)
  | create (p : Fin np) (pid : BitVec 32) (hf : f = .kfork p (.setUsed q pid)) (ha : a.state = .unused)
      (hb : b = { a with pid := pid, state := .used })
  | adopt (p : Fin np) (pid : BitVec 32) (hf : f = .kfork p (.setParent q pid)) (hb : b = { a with parent := some p })
  | ready (p : Fin np) (pid : BitVec 32) (hf : f = .kfork p (.setRunnable q pid)) (ha : a.state = .used)
      (hb : b = { a with state := .runnable })
  | drop (p : Fin np) (hf : f = .kfork p (.freeproc q)) (ha : a.state = .used) (hb : b = freeproc a)
  | reparent (p : Fin np) (status : BitVec 32) (hf : f = .kexit p status (.reparent q)) (ha : a.parent = some p)
      (hb : b = { a with parent := some S.initproc })
  | exit (status : BitVec 32) (hf : f = .kexit q status .setZombie) (ha : a.state = .running)
      (hb : b = { a with xstate := status, state := .zombie })
  | reap (p : Fin np) (pid : BitVec 32) (hf : f = .kwait p (.freeproc q pid)) (ha : a.state = .zombie) (hb : b = freeproc a)

/-- The effect of an access at `f` on the process table and on `nextpid`. -/
structure Access (f : S.F) (κ κ' : S.K) : Prop where
  slot : ∀ q, LifeStep f q (κ.procs q) (κ'.procs q)
  nextpid : κ'.nextpid = κ.nextpid ∨ ∃ p i, f = .kfork p (.readPid i) ∧ κ' = { κ with nextpid := κ.nextpid + 1 }

namespace Access

variable {κ κ' : S.K} {f : S.F} {me : Option (Fin np)} {g : S.K → S.K} {k : S.K → S.F}

/-- Nothing changes. -/
theorem refl (f : S.F) (κ : S.K) : Access f κ κ := ⟨fun _ => .same (.inl rfl) rfl rfl rfl, .inl rfl⟩

/-- A store to one slot. -/
theorem store {i : Fin np} {h : Proc np → Proc np} (hi : LifeStep f i (κ.procs i) (h (κ.procs i))) :
    Access f κ (κ.setProc i h) := by
  refine ⟨fun q => ?_, .inl rfl⟩
  by_cases hq : q = i
  · subst hq
    rw [Kernel.setProc_same]
    exact hi
  · rw [Kernel.setProc_ne _ _ hq]
    exact .same (.inl rfl) rfl rfl rfl

/-- A change of wait-queue entries. -/
theorem entries (h : Kernel.OnlyEntries κ κ') (hn : κ'.nextpid = κ.nextpid) : Access f κ κ' :=
  ⟨fun q => .same (.inl (h.state q)) (h.pid q) (h.parent q) (by rw [h q]), .inl hn⟩

theorem removeAfter_nextpid (e : Fin np) (n : Nat) (h : Option (Fin np)) (κ : S.K) :
    (Kernel.removeAfter e n h κ).nextpid = κ.nextpid := by
  induction n generalizing h with
  | zero => rfl
  | succ n ih =>
    cases h with
    | none => rfl
    | some a =>
      simp only [Kernel.removeAfter]
      split
      · rfl
      · split
        · rfl
        · exact ih _

theorem wqRemoveLocked_nextpid (i : Fin NWQUEUE) (e : Fin np) (κ : S.K) : (κ.wqRemoveLocked i e).nextpid = κ.nextpid := by
  simp only [Kernel.wqRemoveLocked]
  split
  · rfl
  · exact removeAfter_nextpid e np _ κ

/-- **Every access of the program text has one of these effects.** -/
theorem of_upd (hi : instr S me f = .upd g k) (hm : Meets κ f)
    (ho : ∀ p, f.own = some p → (κ.procs p).state = .running) : Access f κ (g κ) := by
  -- a store that takes a living process to another state of a living process
  have moves : ∀ {i : Fin np} {h : Proc np → Proc np}, (κ.procs i).state.live = true → (h (κ.procs i)).state.live = true →
      (h (κ.procs i)).pid = (κ.procs i).pid → (h (κ.procs i)).parent = (κ.procs i).parent →
      (h (κ.procs i)).xstate = (κ.procs i).xstate → Access f κ (κ.setProc i h) :=
    fun ha hb hp hq hx => .store (.same (.inr ⟨ha, hb⟩) hp hq hx)
  have hst := stores_of_upd hi κ
  generalize g κ = κ' at hst ⊢
  cases hst with
  | data _ hp _ hn => exact ⟨fun _ => by rw [hp]; exact .same (.inl rfl) rfl rfl rfl, .inl hn⟩
  | nextpid p i => exact ⟨fun _ => .same (.inl rfl) rfl rfl rfl, .inr ⟨p, i, rfl, rfl⟩⟩
  | enqueue p chan lk => exact .entries (Kernel.wqAddLocked_only _ _ _ _) rfl
  | sleep p chan lk | yield p => exact moves (by rw [ho p rfl]; rfl) rfl rfl rfl rfl
  | tidy | kill i | setkilled q => exact .store (.same (.inl rfl) rfl rfl rfl)
  | first | walk | miss => exact .refl _ _
  | wake one chan e q next h => exact moves (by rw [h.1]; rfl) rfl rfl rfl rfl
  | unlink one chan e q next => exact .entries (Kernel.wqRemoveLocked_only _ _ _) (wqRemoveLocked_nextpid _ _ _)
  | create p i pid => exact .store (.create p pid rfl (hm i .unused rfl) rfl)
  | adopt p i pid => exact .store (.adopt p pid rfl rfl)
  | ready p i pid => exact .store (.ready p pid rfl (hm i .used rfl) rfl)
  | drop p i => exact .store (.drop p rfl (hm i .used rfl) rfl)
  | reparent p i status h => exact .store (.reparent p status rfl h rfl)
  | exit p status => exact .store (.exit status rfl (ho p rfl) rfl)
  | reap p i pid => exact .store (.reap p pid rfl (hm i .zombie rfl) rfl)

end Access

/-- The top record of CPU `c` is executed, and the process table changes as the text of that record says. -/
theorem access_step (hb : Base s) (hf : Fires s c s') :
    s'.kern = s.kern ∨ ∃ f rest, s.stk (s.cur c) = f :: rest ∧ f.calm = true ∧ Access f s.kern s'.kern := by
  cases hf with
  | @upd f rest g k hs hi =>
    have hu := updOk_of_upd hi s.kern
    exact .inr ⟨f, rest, hs, hu.calm, .of_upd hi (hb.meets_top hs) fun p hp => hb.own_running hs hu.calm hp⟩
  | @dispatch f rest p k hs hi =>
    obtain rfl : f = .scheduler (.run p) := by
      have := textOk (s.cpus c).proc f
      rw [hi] at this
      exact this.1
    have hr := hb.meets_top hs p .runnable rfl
    exact .inr ⟨_, rest, hs, rfl, .store (h := fun q => { q with state := .running })
      (.same (.inr ⟨by rw [hr]; rfl, rfl⟩) rfl rfl rfl)⟩
  | _ => exact .inl rfl

/-- An access that changes something is the last step of its record. -/
theorem Fires.of_upd {f : S.F} {rest : List S.F} {g : S.K → S.K} {k : S.K → S.F}
    (hf : Fires s c s') (hs : s.stk (s.cur c) = f :: rest) (hi : instr S (s.cpus c).proc f = .upd g k)
    (hne : s'.kern ≠ s.kern) :
    s'.kern = g s.kern ∧ s'.cur = s.cur ∧ s'.stk (s.cur c) = k s.kern :: rest := by
  cases hf with
  | upd hs' hi' =>
    rw [hs] at hs'
    cases hs'
    rw [hi] at hi'
    cases hi'
    exact ⟨rfl, rfl, Function.update_self ..⟩
  | dispatch hs' hi' =>
    rw [hs] at hs'
    cases hs'
    rw [hi] at hi'
    cases hi'
  | _ => exact absurd rfl hne

/-- A child is built by one `kfork`. -/
theorem Base.child_eq (h : Base s) {t' : Tid np nc} {f f' : S.F} {i : Fin np} (hf : f ∈ s.stk t)
    (hf' : f' ∈ s.stk t') (hi : f.child = some i) (hi' : f'.child = some i) : f = f' := by
  obtain rfl := h.childDisj t t' i (mem_children hf hi) (mem_children hf' hi')
  have hn := h.childNodup t
  generalize s.stk t = st at hf hf' hn
  induction st with
  | nil => cases hf
  | cons g rest ih =>
    rw [children_cons] at hn
    -- one of the two on top, the other below
    have clash : ∀ {f : S.F}, f ∈ rest → f.child = some i → g.child ≠ some i := fun hf hi hg =>
      (List.nodup_append.mp hn).2.2 i (by rw [hg]; exact List.mem_singleton_self i) i (mem_children hf hi) rfl
    rcases List.mem_cons.mp hf with rfl | h1 <;> rcases List.mem_cons.mp hf' with rfl | h2
    · rfl
    · exact absurd hi (clash h2 hi')
    · exact absurd hi' (clash h1 hi)
    · exact ih h1 h2 (List.nodup_append.mp hn).2.1

end Xv6
