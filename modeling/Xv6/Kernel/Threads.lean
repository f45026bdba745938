import Xv6.Kernel.Text

/-!
# Threads, locks and process states

`Base` is the invariant every later proof starts from. It says which stacks threads have, that a bucket or process lock
is held by exactly the CPU whose running thread lists it, that `noff` counts the spinlocks of a CPU and that interrupts
are off while it is positive, that a process on a CPU is RUNNING or in the state it has given itself on the way to
`swtch`, and that the process states program points rely on are the actual ones.

- `Base.step`: every step keeps it, and `Reachable.base`: it holds in every reachable state;
- `Base.holder` and `Base.no_other`: a lock a running thread lists is held by its CPU and listed nowhere else.
-/

namespace Xv6

open State
open Function (update update_of_ne update_self)

variable {np nc : Nat} {S : System np}
variable {C : Fin nc → Cpu np} {l : Lock np}

/-! ## Stacks -/

/-- The part of the stack shape below everything else: `scheduler()` on a scheduler stack. -/
def Tid.bottom : Tid np nc → List Bool
  | .proc _ => []
  | .cpu _ => [true]

/-- The stacks a thread can have. -/
structure StkOk (t : Tid np nc) (st : List S.F) : Prop where
  /-- Below the top there are callers, and functions interrupted while they hold no lock. -/
  tail : ∀ f ∈ st.tail, f.calm = true ∧ (f.held = [] ∨ f.returns = true)
  own : ∀ f ∈ st, ∀ p, f.own = some p → t = .proc p
  shape : ∃ n, st.map Frame.isScheduler = List.replicate n false ++ t.bottom
  enter : ∀ p rest, st = .sched p .enter :: rest →
    ∃ g rest', rest = g :: rest' ∧ g.held = [.proc p] ∧ g.afterSched ≠ none

namespace StkOk

variable {t : Tid np nc} {f k g : S.F} {rest st : List S.F} {p : Fin np} {c : Fin nc}

/-- The top activation record moves to another point of its function. -/
theorem top (h : StkOk t (f :: rest)) (ho : k.own = f.own ∨ k.own = none) (hs : k.isScheduler = f.isScheduler)
    (he : k.isEnter = false) : StkOk t (k :: rest) where
  tail := h.tail
  own f' hf' p hp := by
    rcases List.mem_cons.mp hf' with rfl | hf'
    · rcases ho with ho | ho
      · exact h.own f List.mem_cons_self p (ho ▸ hp)
      · rw [ho] at hp; cases hp
    · exact h.own f' (List.mem_cons_of_mem _ hf') p hp
  shape := by
    obtain ⟨n, hn⟩ := h.shape
    refine ⟨n, ?_⟩
    rw [← hn, List.map_cons, List.map_cons, hs]
  enter p rest' hr := by
    obtain ⟨rfl, rfl⟩ := List.cons.inj hr
    cases he

/-- A function is called, and its caller will go on at `k`. -/
theorem push (h : StkOk t (k :: rest)) (hk : k.calm = true ∧ (k.held = [] ∨ k.returns = true))
    (ho : ∀ p, g.own = some p → t = .proc p)
    (hs : g.isScheduler = false)
    (he : g.isEnter = false ∨ ∃ p, g = .sched p .enter ∧ k.held = [.proc p] ∧ k.afterSched ≠ none) :
    StkOk t (g :: k :: rest) where
  tail f' hf' := by
    rcases List.mem_cons.mp hf' with rfl | hf'
    · exact hk
    · exact h.tail f' hf'
  own f' hf' p hp := by
    rcases List.mem_cons.mp hf' with rfl | hf'
    · exact ho p hp
    · exact h.own f' hf' p hp
  shape := by
    obtain ⟨n, hn⟩ := h.shape
    exact ⟨n + 1, by rw [List.map_cons, hn, hs]; rfl⟩
  enter p rest' hr := by
    obtain ⟨rfl, rfl⟩ := List.cons.inj hr
    rcases he with he | ⟨p', hg, hk, ha⟩
    · cases he
    · cases hg
      exact ⟨k, rest, rfl, hk, ha⟩

theorem isEnter_of_calm (h : f.calm = true) : f.isEnter = false := by
  simp only [Frame.calm, Bool.and_eq_true, Bool.not_eq_true'] at h
  exact h.1

/-- The top activation record is dropped. -/
theorem pop (h : StkOk t (f :: rest)) (hf : f.isScheduler = false) : StkOk t rest where
  tail f' hf' := h.tail f' (List.mem_of_mem_tail hf')
  own f' hf' := h.own f' (List.mem_cons_of_mem _ hf')
  shape := by
    obtain ⟨n, hn⟩ := h.shape
    cases n with
    | zero =>
      cases t with
      | proc p => simp [Tid.bottom] at hn
      | cpu c => simp [Tid.bottom, hf] at hn
    | succ n => exact ⟨n, by simpa [List.replicate_succ, hf] using hn⟩
  enter p rest' hr := by
    subst hr
    have := isEnter_of_calm (h.tail (.sched p .enter) List.mem_cons_self).1
    cases this

/-- There is no `scheduler()` on the stack of a process. -/
theorem not_scheduler (h : StkOk (.proc p : Tid np nc) st) (hf : f ∈ st) : f.isScheduler = false := by
  obtain ⟨n, hn⟩ := h.shape
  have hm : f.isScheduler ∈ List.replicate n false ++ (Tid.proc p : Tid np nc).bottom := hn ▸ List.mem_map_of_mem hf
  simp only [Tid.bottom, List.append_nil] at hm
  exact List.eq_of_mem_replicate hm

/-- Nothing is below `scheduler()`. -/
theorem scheduler_alone (h : StkOk (.cpu c : Tid np nc) (f :: rest)) (hf : f.isScheduler = true) : rest = [] := by
  obtain ⟨n, hn⟩ := h.shape
  cases n with
  | zero =>
    simp only [List.map_cons, List.replicate_zero, Tid.bottom, List.nil_append, List.cons.injEq,
      List.map_eq_nil_iff] at hn
    exact hn.2
  | succ n => simp [List.replicate_succ, hf] at hn

/-- A process on its way to `swtch` lists its own lock. -/
theorem rest_held (h : StkOk (.proc p : Tid np nc) st) (hr : restState st ≠ none) : Lock.proc p ∈ heldS st := by
  cases st with
  | nil => exact absurd rfl hr
  | cons f rest =>
    by_cases he : f.isEnter = true
    · cases f with
      | sched q pc =>
        cases pc with
        | enter =>
          obtain ⟨g, rest', rfl, hg, _⟩ := h.enter q rest rfl
          have hq := h.own (.sched q .enter) List.mem_cons_self q rfl
          cases hq
          simp [hg]
        | back b => cases he
      | _ => cases he
    · rw [restState_top (by simpa using he)] at hr
      obtain ⟨q, hq, hl⟩ := held_of_restTop hr
      have hp := h.own f List.mem_cons_self q hq
      cases hp
      exact mem_heldS List.mem_cons_self hl

end StkOk

/-- The stack of a process that is not on a CPU: inside `swtch`, or not started yet. -/
def Parked (p : Fin np) (st : List S.F) : Prop :=
  st = [.forkret p] ∨
    ∃ b g rest, st = .sched p (.back b) :: g :: rest ∧ g.held = [.proc p] ∧ g.afterSched ≠ none ∧ heldS rest = []

namespace Parked

variable {p : Fin np} {st : List S.F} {f : S.F}

theorem heldS_eq (h : Parked p st) : heldS st = [.proc p] := by
  rcases h with rfl | ⟨b, g, rest, rfl, hg, _, hr⟩
  · rfl
  · simp [hg, hr]

theorem restState_eq (h : Parked p st) : restState st = none := by
  rcases h with rfl | ⟨b, g, rest, rfl, _⟩ <;> rfl

/-- A parked process has no lock-protected knowledge about others. -/
theorem held_of_expects (h : Parked p st) (hf : f ∈ st) (he : f.expects ≠ none) : f.held = [] := by
  rcases h with rfl | ⟨b, g, rest, rfl, hg, ha, hr⟩
  · rw [List.mem_singleton.mp hf] at he
    exact absurd rfl he
  · simp only [List.mem_cons] at hf
    rcases hf with rfl | rfl | hf
    · rfl
    · exact absurd (expects_of_afterSched ha) he
    · exact List.flatMap_eq_nil_iff.mp hr f hf

end Parked

/-! ## The invariant -/

/-- `noff` counts the spinlocks CPU `c` holds, and interrupts are off while there are any. -/
def Counted (locks : Lock np → Option (Fin nc)) (c : Fin nc) (x : Cpu np) : Prop :=
  x.panicked = none →
    (∃ hl : List (Lock np), hl.Nodup ∧ (∀ l, l ∈ hl ↔ locks l = some c) ∧ hl.length = x.noff) ∧
      (0 < x.noff → x.sie = false)

/-- The base invariant. -/
structure Base (s : State S nc) : Prop where
  inj : ∀ c c', s.cur c = s.cur c' → c = c'
  cpu : ∀ c c', s.cur c = .cpu c' → c' = c
  stk : ∀ t, StkOk t (s.stk t)
  /-- The scheduler of a CPU that runs a process waits for it in `swtch`. -/
  back : ∀ c p, s.cur c = .proc p → s.stk (.cpu c) = [.scheduler (.back p)]
  parked : ∀ p, (∀ c, s.cur c ≠ .proc p) → Parked p (s.stk (.proc p))
  me : ∀ c p, s.cur c = .proc p → (s.cpus c).proc = some p
  noProc : ∀ c, s.cur c = .cpu c → (∃ p, s.stk (.cpu c) = [.scheduler (.back p)]) ∨ (s.cpus c).proc = none
  owner : ∀ c l, l.core = true → (s.locks l = some c ↔ l ∈ heldS (s.stk (s.cur c)))
  nodup : ∀ c, (heldS (s.stk (s.cur c))).Nodup
  counted : ∀ c, Counted s.locks c (s.cpus c)
  /-- A process on a CPU is RUNNING, or in the state it gave itself on the way to `swtch`. -/
  run : ∀ c p, s.cur c = .proc p → (s.kern.procs p).state = (restState (s.stk (.proc p))).getD .running
  meets : ∀ t, ∀ f ∈ s.stk t, Meets s.kern f
  childNodup : ∀ t, (children (s.stk t)).Nodup
  childDisj : ∀ t t' i, i ∈ children (s.stk t) → i ∈ children (s.stk t') → t = t'

/-- The CPUs `C` are those of `s`, but `c` may have changed: it has the same process and counts the locks `L`. -/
structure Mine (s : State S nc) (c : Fin nc) (L : Lock np → Option (Fin nc)) (C : Fin nc → Cpu np) : Prop where
  others : ∀ c' ≠ c, C c' = s.cpus c'
  me : ∀ p, s.cur c = .proc p → (C c).proc = (s.cpus c).proc
  noProc : s.cur c = .cpu c → (C c).proc = none
  counted : Counted L c (C c)

theorem base_boot : Base (boot S nc) where
  inj c c' h := by simpa [boot] using h
  cpu c c' h := by simpa [boot, eq_comm] using h
  stk t := by
    cases t with
    | proc p =>
      refine ⟨by simp [boot], fun f hf q hq => ?_, ⟨1, rfl⟩, by simp [boot]⟩
      simp only [boot, List.mem_singleton] at hf
      subst hf
      simpa [Frame.own] using hq
    | cpu c =>
      refine ⟨by simp [boot], fun f hf q hq => ?_, ⟨0, rfl⟩, by simp [boot]⟩
      simp only [boot, List.mem_singleton] at hf
      subst hf
      cases hq
  back c p h := by simp [boot] at h
  parked p _ := .inl rfl
  me c p h := by simp [boot] at h
  noProc c _ := .inr rfl
  owner c l _ := by simp [boot, Frame.held]
  nodup c := by simp [boot, Frame.held]
  counted c _ := ⟨⟨[], by simp [boot]⟩, by simp [boot]⟩
  run c p h := by simp [boot] at h
  meets t f hf i st he := by
    cases t <;> (simp only [boot, List.mem_singleton] at hf; subst hf; cases he)
  childNodup t := by cases t <;> exact List.nodup_nil
  childDisj t t' i hi _ := by cases t <;> cases hi

namespace Base

variable {s : State S nc} {c : Fin nc} {f k : S.F} {rest : List S.F}

/-! ## Consequences -/

/-- A lock the running thread of a CPU lists is held by that CPU. -/
theorem holder (h : Base s) (hl : l ∈ heldS (s.stk (s.cur c))) : s.locks l = some c := by
  obtain ⟨f, _, hf⟩ := List.mem_flatMap.mp hl
  exact (h.owner c l (core_of_held hf)).mpr hl

/-- The thread a CPU runs for a process is the thread of `myproc()`. -/
theorem cur_of_proc (h : Base s) {p : Fin np} (hp : (s.cpus c).proc = some p)
    (hb : ∀ p, s.stk (s.cur c) ≠ [.scheduler (.back p)]) : s.cur c = .proc p := by
  cases hc : s.cur c with
  | proc q =>
    have := h.me c q hc
    rw [hp] at this
    rw [Option.some.inj this]
  | cpu c' =>
    obtain rfl := h.cpu c c' hc
    rcases h.noProc c' hc with ⟨q, hq⟩ | hn
    · exact absurd (hc ▸ hq) (hb q)
    · rw [hp] at hn; cases hn

section

variable (h : Base s) (hs : s.stk (s.cur c) = f :: rest)
include h hs

/-- A lock listed by the top record of a running thread is listed nowhere else, except by processes that will get it
handed over. -/
theorem no_other (hl : l ∈ f.held) :
    (∀ f' ∈ rest, l ∉ f'.held) ∧ ∀ t ≠ s.cur c, ∀ f' ∈ s.stk t, f'.expects ≠ none → l ∉ f'.held := by
  have hown : s.locks l = some c := h.holder (by rw [hs]; exact mem_heldS List.mem_cons_self hl)
  -- a thread running on another CPU would hold the lock itself
  have hrun : ∀ c' f', s.cur c' ≠ s.cur c → f' ∈ s.stk (s.cur c') → l ∉ f'.held := by
    intro c' f' hne hf' hl'
    have := h.holder (mem_heldS hf' hl')
    rw [hown] at this
    exact hne (by rw [Option.some.inj this])
  refine ⟨fun f' hf' hl' => ?_, fun t ht f' hf' he hl' => ?_⟩
  · have hn := h.nodup c
    rw [hs, heldS_cons] at hn
    exact (List.nodup_append.mp hn).2.2 _ hl _ (mem_heldS hf' hl') rfl
  · cases t with
    | proc p =>
      by_cases hp : ∃ c', s.cur c' = .proc p
      · obtain ⟨c', hc'⟩ := hp
        exact hrun c' f' (hc' ▸ ht) (hc' ▸ hf') hl'
      · have hpk := h.parked p fun c' hc' => hp ⟨c', hc'⟩
        rw [hpk.held_of_expects hf' he] at hl'
        cases hl'
    | cpu c' =>
      cases hc' : s.cur c' with
      | proc p =>
        rw [h.back c' p hc', List.mem_singleton] at hf'
        subst hf'
        exact he rfl
      | cpu c'' =>
        obtain rfl := h.cpu c' c'' hc'
        exact hrun c'' f' (hc' ▸ ht) (hc' ▸ hf') hl'

/-- The process of a thread that is not on its way to `sched` is RUNNING. -/
theorem own_running (hf : f.calm = true) {p : Fin np} (hp : f.own = some p) : (s.kern.procs p).state = .running := by
  have hc : s.cur c = .proc p := (hs ▸ h.stk (s.cur c)).own f List.mem_cons_self p hp
  rw [h.run c p hc, ← hc, hs, restState_calm hf]
  rfl

/-- Two CPUs do not run threads that list the same lock. -/
theorem held_unique {c' : Fin nc} {f' : S.F} {rest' : List S.F}
    (hs' : s.stk (s.cur c') = f' :: rest') (hl : l ∈ f.held) (hl' : l ∈ f'.held) : c' = c := by
  have h1 := h.holder (by rw [hs]; exact mem_heldS List.mem_cons_self hl)
  have h2 := h.holder (by rw [hs']; exact mem_heldS List.mem_cons_self hl')
  rw [h1] at h2
  exact (Option.some.inj h2).symm

/-- A process whose state is known to the holder of its lock is on no CPU. -/
theorem known_parked (hf : f.calm = true) {q : Fin np} {st : ProcState}
    (he : f.expects = some (q, st)) (hl : Lock.proc q ∈ f.held) (c' : Fin nc) : s.cur c' ≠ .proc q := by
  intro hc'
  have hst : (s.kern.procs q).state = st := h.meets _ f (hs ▸ List.mem_cons_self) q st he
  have hne := (expects_cases he).1.1
  have hrun := h.run c' q hc'
  by_cases hcc : c' = c
  · subst hcc
    rw [← hc', hs, restState_calm hf] at hrun
    exact hne (hst.symm.trans hrun)
  · cases hr : restState (s.stk (.proc q)) with
    | none =>
      rw [hr] at hrun
      exact hne (hst.symm.trans hrun)
    | some x =>
      have h1 := h.holder (hc' ▸ (h.stk (.proc q)).rest_held (by rw [hr]; simp))
      have h2 := h.holder (by rw [hs]; exact mem_heldS List.mem_cons_self hl)
      rw [h1] at h2
      exact hcc (Option.some.inj h2)

end

/-- A process that is on a CPU is not being created, freed or dispatched by somebody who knows its state. -/
theorem run_ne (h : Base s) {p : Fin np} (hp : s.cur c = .proc p) :
    (s.kern.procs p).state ≠ .unused ∧ (s.kern.procs p).state ≠ .used := by
  rw [h.run c p hp]
  cases hr : restState (s.stk (.proc p)) with
  | none => simp
  | some st => simpa using ⟨(restState_ne hr).1, (restState_ne hr).2.1⟩

/-! ## Steps that stay on their thread -/

/-- A step that changes the stack of the running thread of `c`, the state of `c`, its locks and the shared data. -/
theorem local_step (h : Base s) {st : List S.F} {κ : S.K} {L : Lock np → Option (Fin nc)}
    (hst : StkOk (s.cur c) st) (hC : Mine s c L C)
    (hL : ∀ l, l.core = true → (L l = some c ↔ l ∈ heldS st)) (hL' : ∀ c' ≠ c, ∀ l, L l = some c' ↔ s.locks l = some c')
    (hnd : (heldS st).Nodup)
    (hrun : ∀ p, s.cur c = .proc p → (κ.procs p).state = (restState st).getD .running)
    (hrun' : ∀ c' p, c' ≠ c → s.cur c' = .proc p → (κ.procs p).state = (s.kern.procs p).state)
    (hmt : ∀ f ∈ st, Meets κ f) (hmt' : ∀ t ≠ s.cur c, ∀ f ∈ s.stk t, Meets κ f)
    (hcn : (children st).Nodup) (hcd : ∀ t ≠ s.cur c, ∀ i ∈ children st, i ∉ children (s.stk t)) :
    Base { s with kern := κ, locks := L, cpus := C, stk := update s.stk (s.cur c) st } := by
  have hne : ∀ c' ≠ c, s.cur c' ≠ s.cur c := fun c' hc' e => hc' (h.inj _ _ e)
  refine ⟨h.inj, h.cpu, fun t => ?_, fun c' p hp => ?_, fun p hp => ?_, fun c' p hp => ?_, fun c' hc' => ?_,
    fun c' l hl => ?_, fun c' => ?_, fun c' => ?_, fun c' p hp => ?_, fun t => ?_, fun t => ?_, fun t t' i hi hi' => ?_⟩
  · by_cases ht : t = s.cur c
    · subst ht; simpa using hst
    · simpa [update_of_ne ht] using h.stk t
  · have ht : Tid.cpu c' ≠ s.cur c := fun e => by
      have := h.cpu c c' e.symm
      subst this
      rw [hp] at e; cases e
    simpa [update_of_ne ht] using h.back c' p hp
  · have ht : Tid.proc p ≠ s.cur c := fun e => hp c e.symm
    simpa [update_of_ne ht] using h.parked p hp
  · by_cases hc : c' = c
    · subst hc
      exact (hC.me p hp).trans (h.me _ p hp)
    · show (C c').proc = _
      rw [hC.others c' hc]; exact h.me c' p hp
  · by_cases hc : c' = c
    · subst hc
      exact .inr (hC.noProc hc')
    · show _ ∨ (C c').proc = none
      rw [hC.others c' hc]
      have ht : Tid.cpu c' ≠ s.cur c := fun e => hc (h.cpu c c' e.symm)
      simpa [update_of_ne ht] using h.noProc c' hc'
  · by_cases hc : c' = c
    · subst hc; simpa using hL l hl
    · simpa [update_of_ne (hne c' hc)] using (hL' c' hc l).trans (h.owner c' l hl)
  · by_cases hc : c' = c
    · subst hc; simpa using hnd
    · simpa [update_of_ne (hne c' hc)] using h.nodup c'
  · by_cases hc : c' = c
    · subst hc; exact hC.counted
    · show Counted L c' (C c')
      rw [hC.others c' hc]
      intro hx
      obtain ⟨⟨hl, h1, h2, h3⟩, h4⟩ := h.counted c' hx
      exact ⟨⟨hl, h1, fun l => (h2 l).trans (hL' c' hc l).symm, h3⟩, h4⟩
  · by_cases hc : c' = c
    · subst hc
      have hst : update s.stk (s.cur c') st (.proc p) = st := by
        rw [show Tid.proc p = s.cur c' from hp.symm, update_self]
      simpa [hst] using hrun p hp
    · have ht : Tid.proc p ≠ s.cur c := fun e => hne c' hc (hp.trans e)
      simpa [update_of_ne ht] using (hrun' c' p hc hp).trans (h.run c' p hp)
  · by_cases ht : t = s.cur c
    · subst ht; simpa using hmt
    · simpa [update_of_ne ht] using hmt' t ht
  · by_cases ht : t = s.cur c
    · subst ht; simpa using hcn
    · simpa [update_of_ne ht] using h.childNodup t
  · by_cases ht : t = s.cur c
    · by_cases ht' : t' = s.cur c
      · rw [ht, ht']
      · simp only [ht, update_self, update_of_ne ht'] at hi hi'
        exact absurd hi' (hcd t' ht' i hi)
    · by_cases ht' : t' = s.cur c
      · simp only [ht', update_self, update_of_ne ht] at hi hi'
        exact absurd hi (hcd t ht i hi')
      · simp only [update_of_ne ht, update_of_ne ht'] at hi hi'
        exact h.childDisj t t' i hi hi'

variable (h : Base s) (hs : s.stk (s.cur c) = f :: rest)
include h hs

/-- The same without a change of the shared data. -/
theorem quiet_step {st : List S.F} {L : Lock np → Option (Fin nc)}
    (hst : StkOk (s.cur c) st) (hC : Mine s c L C)
    (hL : ∀ l, l.core = true → (L l = some c ↔ l ∈ heldS st)) (hL' : ∀ c' ≠ c, ∀ l, L l = some c' ↔ s.locks l = some c')
    (hnd : (heldS st).Nodup) (hr : restState st = restState (f :: rest))
    (hmt : ∀ f' ∈ st, Meets s.kern f') (hch : (children st).Sublist (children (f :: rest))) :
    Base { s with locks := L, cpus := C, stk := update s.stk (s.cur c) st } := by
  rw [← hs] at hr hch
  refine h.local_step hst hC hL hL' hnd (fun p hp => ?_) (fun _ _ _ _ => rfl) hmt
    (fun t _ => h.meets t) (hch.nodup (h.childNodup _)) fun t ht i hi hi' => ?_
  · rw [hr, h.run c p hp, hp]
  · exact ht (h.childDisj t _ i hi' (hch.subset hi))

/-- The same without a change of the locks. -/
theorem plain_step {st : List S.F} (hst : StkOk (s.cur c) st) (hC : Mine s c s.locks C)
    (hh : heldS st = heldS (f :: rest)) (hr : restState st = restState (f :: rest))
    (hmt : ∀ f' ∈ st, Meets s.kern f') (hch : (children st).Sublist (children (f :: rest))) :
    Base { s with cpus := C, stk := update s.stk (s.cur c) st } := by
  refine h.quiet_step hs hst hC (fun l hl => ?_) (fun _ _ _ => Iff.rfl) ?_ hr hmt hch
  · rw [hh, ← hs]; exact h.owner c l hl
  · rw [hh, ← hs]; exact h.nodup c

/-- Outside `swtch`, the scheduler of a CPU has no process. -/
theorem proc_none (hf : ∀ p, f ≠ .scheduler (.back p)) (hc : s.cur c = .cpu c) : (s.cpus c).proc = none := by
  rcases h.noProc c hc with ⟨p, hp⟩ | hn
  · rw [hc, hp] at hs
    exact absurd (List.cons.inj hs).1.symm (hf p)
  · exact hn

theorem mine (hf : ∀ p, f ≠ .scheduler (.back p)) : Mine s c s.locks s.cpus :=
  ⟨fun _ _ => rfl, fun _ _ => rfl, h.proc_none hs hf, h.counted c⟩

theorem mine_set {x : Cpu np} {L : Lock np → Option (Fin nc)} (hf : ∀ p, f ≠ .scheduler (.back p))
    (hx : x.proc = (s.cpus c).proc) (hcnt : Counted L c x) : Mine s c L (update s.cpus c x) := by
  refine ⟨fun c' hc' => update_of_ne hc' _ _, fun _ _ => ?_, fun hc => ?_, ?_⟩ <;> rw [update_self]
  · exact hx
  · rw [hx]
    exact h.proc_none hs hf hc
  · exact hcnt

theorem meets_top : Meets s.kern f := h.meets _ f (hs ▸ List.mem_cons_self)

theorem stk_top : StkOk (s.cur c) (f :: rest) := hs ▸ h.stk (s.cur c)

/-- The records below the top one still meet the states. -/
theorem meets_cons (hk : Meets s.kern k) : ∀ f' ∈ k :: rest, Meets s.kern f' := by
  intro f' hf'
  rcases List.mem_cons.mp hf' with rfl | hf'
  · exact hk
  · exact h.meets _ f' (hs ▸ List.mem_cons_of_mem _ hf')

end Base

/-! ## One instruction at a time -/

theorem Goes.meets {f k : S.F} (hg : Goes f k) {κ : S.K} (h : Meets κ f) : Meets κ k := by
  intro i st he
  rcases hg.expects with hk | hk
  · exact h i st (hk ▸ he)
  · rw [hk] at he; cases he

theorem Goes.children {f k : S.F} (hg : Goes f k) (rest : List S.F) :
    (children (k :: rest)).Sublist (Xv6.children (f :: rest)) := by
  simp only [children_cons]
  refine List.Sublist.append_right ?_ _
  rcases hg.child with hk | hk <;> rw [hk]
  exact List.nil_sublist _

namespace Base

variable {s : State S nc} {c : Fin nc} {f k : S.F} {rest : List S.F} {me : Option (Fin np)}

theorem not_back {i : S.I} (hi : instr S me f = i) (hc : ∀ g k, i ≠ .cpu g k) (p : Fin np) :
    f ≠ .scheduler (.back p) := by
  rintro rfl
  exact hc _ _ hi.symm

section

variable (h : Base s) (hs : s.stk (s.cur c) = f :: rest)
include h hs

theorem acquire_step
    (hi : instr S (s.cpus c).proc f = .acquire l k) (hl : s.locks l = none) (hp : (s.cpus c).panicked = none) :
    Base { (s.setCpu c Cpu.pushOff).setStk c (k :: rest) with locks := update s.locks l (some c) } := by
  obtain ⟨hk, hf, hkc, hg⟩ : TextOk (s.cpus c).proc f (.acquire l k) := textOk_of hi
  have hfree : ∀ c', l.core = true → l ∉ heldS (s.stk (s.cur c')) := fun c' hc hm => by
    rw [h.holder hm] at hl; cases hl
  have hmem : ∀ l', l'.core = true → (l' ∈ heldS (k :: rest) ↔ l' = l ∨ l' ∈ heldS (f :: rest)) := by
    intro l' hl'
    rw [heldS_cons, heldS_cons, hk]
    by_cases hc : l.core = true
    · simp [hc]
    · have : l' ≠ l := fun e => hc (e ▸ hl')
      simp [hc, this]
  refine h.quiet_step hs ((h.stk_top hs).top hg.own hg.sched hg.enter) (h.mine_set hs (not_back hi (by simp)) rfl fun _ => ?_)
    (fun l' hl' => ?_) (fun c' hc' l' => ?_) ?_ ?_ (h.meets_cons hs (hg.meets (h.meets_top hs))) (hg.children rest)
  · obtain ⟨⟨hl', h1, h2, h3⟩, _⟩ := h.counted c hp
    refine ⟨⟨l :: hl', List.nodup_cons.mpr ⟨fun hm => ?_, h1⟩, fun l' => ?_, by simp [Cpu.pushOff, h3]⟩, fun _ => rfl⟩
    · rw [(h2 l).mp hm] at hl; cases hl
    · by_cases he : l' = l
      · simp [he]
      · simp [he, h2]
  · rw [hmem l' hl', ← hs, ← h.owner c l' hl']
    by_cases he : l' = l
    · simp [he]
    · simp [he]
  · by_cases he : l' = l
    · subst he; simp [hl, hc'.symm]
    · simp [he]
  · by_cases hc : l.core = true
    · have hn := h.nodup c
      have := hfree c hc
      rw [hs] at hn this
      rw [heldS_cons] at hn this ⊢
      rw [hk, if_pos hc, List.cons_append]
      exact List.nodup_cons.mpr ⟨this, hn⟩
    · have hn := h.nodup c
      rw [hs] at hn
      rw [heldS_cons] at hn ⊢
      rwa [hk, if_neg hc]
  · rw [restState_calm hf, restState_calm hkc]

omit h hs in
theorem counted_popOff {x : Cpu np} {locks : Lock np → Option (Fin nc)} (h : Counted locks c x)
    (hp : x.panicked = none) (hl : locks l = some c) : Counted (update locks l none) c x.popOff := by
  intro hx
  obtain ⟨⟨hl', h1, h2, h3⟩, h4⟩ := h hp
  have hm : l ∈ hl' := (h2 l).mpr hl
  have hpos : 0 < hl'.length := List.length_pos_of_mem hm
  have hs : x.sie = false := h4 (by omega)
  have hn : ¬ x.noff < 1 := by omega
  have hpop : x.popOff = { x with noff := x.noff - 1, sie := x.noff - 1 = 0 && x.intena } := by
    simp [Cpu.popOff, hs, hn]
  rw [hpop]
  refine ⟨⟨hl'.erase l, h1.erase l, fun l' => ?_, ?_⟩, fun hpos' => ?_⟩
  · rw [h1.mem_erase_iff]
    by_cases he : l' = l
    · simp [he]
    · simp [he, h2]
  · rw [List.length_erase_of_mem hm, h3]
  · have : ¬ x.noff - 1 = 0 := by simpa using Nat.pos_iff_ne_zero.mp hpos'
    simp [this]

omit h hs in
theorem popOff_proc (x : Cpu np) : x.popOff.proc = x.proc := by
  simp only [Cpu.popOff]
  split
  · rfl
  · split <;> rfl

theorem release_step
    (hi : instr S (s.cpus c).proc f = .release l k) (hl : s.locks l = some c) (hp : (s.cpus c).panicked = none) :
    Base { (s.setCpu c Cpu.popOff).setStk c (k :: rest) with locks := update s.locks l none } := by
  obtain ⟨hk, hfe, hr, hg⟩ : TextOk (s.cpus c).proc f (.release l k) := textOk_of hi
  have hperm : (heldS (f :: rest)).Perm (if l.core then l :: heldS (k :: rest) else heldS (k :: rest)) := by
    rw [heldS_cons, heldS_cons]
    refine (hk.append_right _).trans ?_
    split <;> simp
  have hnd : (if l.core then l :: heldS (k :: rest) else heldS (k :: rest)).Nodup := by
    rw [← hperm.nodup_iff, ← hs]; exact h.nodup c
  have hC := h.mine_set hs (not_back hi (by simp)) (popOff_proc _) (counted_popOff (h.counted c) hp hl)
  refine h.quiet_step hs ((h.stk_top hs).top hg.own hg.sched hg.enter) hC
    (fun l' hl' => ?_) (fun c' hc' l' => ?_) ?_ ?_ (h.meets_cons hs (hg.meets (h.meets_top hs))) (hg.children rest)
  · by_cases he : l' = l
    · subst he
      rw [if_pos hl'] at hnd
      simpa using (List.nodup_cons.mp hnd).1
    · have hm : l' ∈ heldS (f :: rest) ↔ l' ∈ heldS (k :: rest) := by
        rw [hperm.mem_iff]
        split <;> simp [he]
      rw [← hm, ← hs, ← h.owner c l' hl']
      simp [he]
  · by_cases he : l' = l
    · subst he; simp [hl, hc'.symm]
    · simp [he]
  · split at hnd
    · exact (List.nodup_cons.mp hnd).2
    · exact hnd
  · rw [restState_top hfe, restState_top hg.enter, hr]

theorem call_step {callee : S.F}
    (hi : instr S (s.cpus c).proc f = .call callee k) : Base (s.setStk c (callee :: k :: rest)) := by
  have hok : CallOk (s.cpus c).proc f callee k := textOk_of hi
  have hg := hok.toGoes
  have hst := (h.stk_top hs).top hg.own hg.sched hg.enter
  have hown : ∀ p, callee.own = some p → s.cur c = .proc p := by
    intro p hp
    rcases hok.calleeOwn with ho | ho | ho
    · rw [hp] at ho; cases ho
    · refine h.cur_of_proc (ho ▸ hp) fun q hq => ?_
      rw [hs] at hq
      exact not_back hi (by simp) q (List.cons.inj hq).1
    · exact (h.stk_top hs).own f List.mem_cons_self p (ho ▸ hp)
  have hcalm : ∀ g : S.F, g.calm = true → g.isEnter = false := fun g => StkOk.isEnter_of_calm
  refine h.plain_step hs (hst.push ⟨hok.calm, .inr hok.returns⟩ hown hok.calleeSched ?_)
    (h.mine hs (not_back hi (by simp))) ?_ ?_ ?_ ?_
  · rcases hok.rest with ⟨hc, _⟩ | ⟨ha, hr, _, p, rfl, _, hk⟩
    · exact .inl (hcalm _ hc)
    · exact .inr ⟨p, rfl, hk, ha ▸ hr⟩
  · simp only [heldS_cons, hok.calleeHeld, hok.held, List.nil_append]
  · rcases hok.rest with ⟨hc, hf⟩ | ⟨ha, _, hf, p, rfl, _, _⟩
    · rw [restState_calm hc, restState_calm hf]
    · rw [restState_top hf]; exact ha
  · intro f' hf'
    rcases List.mem_cons.mp hf' with rfl | hf'
    · intro i st he
      rw [hok.calleeExpects] at he; cases he
    · exact h.meets_cons hs (hg.meets (h.meets_top hs)) f' hf'
  · rw [children_cons, hok.calleeChild]
    exact hg.children rest

omit h hs in
theorem ret_step {g : S.F} {v : Int} (h : Base s) (hs : s.stk (s.cur c) = f :: g :: rest)
    (hi : instr S (s.cpus c).proc f = .ret v) : Base (s.setStk c (resume S g v :: rest)) := by
  obtain ⟨hh, hf, hsch, hch, _⟩ : TextOk (s.cpus c).proc f (.ret v) := textOk_of hi
  obtain ⟨r1, r2, r3, r4, r5, r6, r7, _⟩ := resume_ok g v
  have hst := h.stk_top hs
  have hgc : g.calm = true := (hst.tail g List.mem_cons_self).1
  have hge := StkOk.isEnter_of_calm hgc
  refine h.plain_step hs ((hst.pop hsch).top (.inl r2) r3 (r4.trans hge))
    (h.mine hs (not_back hi (by simp))) ?_ ?_ ?_ ?_
  · simp only [heldS_cons, hh, r1, List.nil_append]
  · rw [restState_calm hf, restState_top (r4.trans hge), r7, ← restState_top hge rest, restState_calm hgc]
  · intro f' hf'
    rcases List.mem_cons.mp hf' with rfl | hf'
    · intro i st he
      exact h.meets _ g (by rw [hs]; simp) i st (r5 ▸ he)
    · exact h.meets _ f' (by rw [hs]; simp [hf'])
  · simp only [children_cons, hch, r6]
    exact List.Sublist.refl _

/-- The thread moves on to `k`, changing only the state of its CPU. -/
theorem goes_step (hk : k.held = f.held ∧ f.calm = true ∧ k.calm = true ∧ Goes f k) (hC : Mine s c s.locks C) :
    Base { s with cpus := C, stk := update s.stk (s.cur c) (k :: rest) } := by
  obtain ⟨hh, hf, hkc, hg⟩ := hk
  refine h.plain_step hs ((h.stk_top hs).top hg.own hg.sched hg.enter) hC ?_ ?_
    (h.meets_cons hs (hg.meets (h.meets_top hs))) (hg.children rest)
  · simp only [heldS_cons, hh]
  · rw [restState_calm hf, restState_calm hkc]

theorem cpu_step {g : Cpu np → Cpu np}
    (hi : instr S (s.cpus c).proc f = .cpu g k) : Base ((s.setCpu c g).setStk c (k :: rest)) := by
  obtain ⟨hh, hf, hkc, hg, hx, hp⟩ : TextOk (s.cpus c).proc f (.cpu g k) := textOk_of hi
  refine h.goes_step hs ⟨hh, hf, hkc, hg⟩ ⟨fun c' hc' => update_of_ne hc' _ _, fun p hc => ?_, fun hc => ?_, ?_⟩
  · simp only [setCpu_cpus, update_self]
    rcases hp with ⟨hp, _⟩ | ⟨hf', _⟩
    · exact hp _
    · have := (hc ▸ h.stk (s.cur c)).not_scheduler (by rw [← hc, hs]; exact List.mem_cons_self)
      rw [hf'] at this; cases this
  · simp only [setCpu_cpus, update_self]
    rcases hp with ⟨hp, hb⟩ | ⟨_, hp⟩
    · rw [hp]
      exact h.proc_none hs hb hc
    · exact hp _
  · simp only [setCpu_cpus, update_self]
    obtain ⟨h1, h2, h3⟩ := hx (s.cpus c)
    intro hpn
    obtain ⟨⟨hl, hn, hm, hlen⟩, hint⟩ := h.counted c (h2 ▸ hpn)
    refine ⟨⟨hl, hn, hm, hlen.trans h1.symm⟩, fun hpos => ?_⟩
    have := hint (h1 ▸ hpos)
    cases hg : (g (s.cpus c)).sie with
    | false => rfl
    | true => rw [h3 hg] at this; cases this

theorem intrOn_step (hi : instr S (s.cpus c).proc f = .intrOn k) (hn : (s.cpus c).noff = 0) :
    Base ((s.setCpu c fun x => { x with sie := true }).setStk c (k :: rest)) := by
  have hk : TextOk (s.cpus c).proc f (.intrOn k) := textOk_of hi
  refine h.goes_step hs hk (h.mine_set hs (not_back hi (by simp)) rfl fun hpn => ?_)
  exact ⟨(h.counted c hpn).1, fun hpos => absurd hn (Nat.pos_iff_ne_zero.mp hpos)⟩

omit h hs in
theorem choose_step {k : Nat → S.F} (n : Nat) (h : Base s) (hs : s.stk (s.cur c) = f :: rest)
    (hi : instr S (s.cpus c).proc f = .choose k) : Base (s.setStk c (k n :: rest)) := by
  have hk : TextOk (s.cpus c).proc f (.choose k) := textOk_of hi
  exact h.goes_step hs (hk n) (h.mine hs (not_back hi (by simp)))

theorem sret_step (hi : instr S (s.cpus c).proc f = .sret)
    (hn : (s.cpus c).noff = 0) : Base ((s.setCpu c fun x => { x with sie := true }).setStk c rest) := by
  obtain ⟨hh, hf, hsch, _⟩ : TextOk (s.cpus c).proc f .sret := textOk_of hi
  have hst := h.stk_top hs
  refine h.plain_step hs (hst.pop hsch) (h.mine_set hs (not_back hi (by simp)) rfl fun hpn => ?_) ?_ ?_ ?_ ?_
  · exact ⟨(h.counted c hpn).1, fun hpos => absurd hn (Nat.pos_iff_ne_zero.mp hpos)⟩
  · simp only [heldS_cons, hh, List.nil_append]
  · cases rest with
    | nil => rw [restState_calm hf]; rfl
    | cons g rest => rw [restState_calm hf, restState_calm (hst.tail g List.mem_cons_self).1]
  · exact fun f' hf' => h.meets _ f' (hs ▸ List.mem_cons_of_mem _ hf')
  · rw [children_cons]; exact List.sublist_append_right _ _

end

/-- With interrupts on, the running thread lists no lock. -/
theorem heldS_of_sie (h : Base s) (hp : (s.cpus c).panicked = none) (hi : (s.cpus c).sie = true) :
    heldS (s.stk (s.cur c)) = [] := by
  obtain ⟨⟨hl, _, hm, hlen⟩, hint⟩ := h.counted c hp
  have hz : (s.cpus c).noff = 0 := by
    by_contra hne
    rw [hint (Nat.pos_of_ne_zero hne)] at hi; cases hi
  rw [hz, List.length_eq_zero_iff] at hlen
  refine List.eq_nil_iff_forall_not_mem.mpr fun l hl' => ?_
  have := (hm l).mpr (h.holder hl')
  rw [hlen] at this; cases this

/-- A thread that lists no lock is not on its way to `sched`. -/
theorem calm_of_heldS {t : Tid np nc} (hst : StkOk t (f :: rest)) (hh : heldS (f :: rest) = []) : f.calm = true := by
  have he : f.isEnter = false := by
    cases f with
    | sched p pc =>
      cases pc with
      | back b => rfl
      | enter =>
        obtain ⟨g, rest', rfl, hg, _⟩ := hst.enter p rest rfl
        simp [hg] at hh
    | _ => rfl
  have hr : f.restTop = none := by
    by_contra hne
    obtain ⟨p, _, hl⟩ := held_of_restTop hne
    have : _ ∈ heldS (f :: rest) := mem_heldS List.mem_cons_self hl
    rw [hh] at this; cases this
  simp [Frame.calm, he, hr]

theorem intr_step (irq : Nat) (h : Base s) (hp : (s.cpus c).panicked = none) (hs : s.stk (s.cur c) = f :: rest)
    (hi : (s.cpus c).sie = true) :
    Base ((s.setCpu c fun x => { x with sie := false }).setStk c (.kerneltrap (.devintr irq) :: f :: rest)) := by
  have hh := h.heldS_of_sie hp hi
  rw [hs] at hh
  have hst := h.stk_top hs
  have hf := calm_of_heldS hst hh
  have hfh : f.held = [] := (List.append_eq_nil_iff.mp hh).1
  refine h.plain_step hs (hst.push ⟨hf, .inl hfh⟩ (fun p hp => by cases hp) rfl (.inl rfl))
    (h.mine_set hs (fun p e => ?_) rfl ?_) rfl ?_ ?_ ?_
  · subst e
    cases hh
  · exact fun hpn => ⟨(h.counted c hpn).1, fun _ => rfl⟩
  · rw [restState_calm rfl, restState_calm hf]
  · intro f' hf'
    rcases List.mem_cons.mp hf' with rfl | hf'
    · intro i st he; cases he
    · exact h.meets _ f' (hs ▸ hf')
  · exact List.Sublist.refl _

theorem panic_step {x : Cpu np} (h : Base s) (hx : x.panicked.isSome = true) (hp : x.proc = (s.cpus c).proc) :
    Base { s with cpus := update s.cpus c x } := by
  have hproc : ∀ c', (update s.cpus c x c').proc = (s.cpus c').proc := by
    intro c'
    by_cases hc : c' = c
    · subst hc; simpa using hp
    · simp [hc]
  refine ⟨h.inj, h.cpu, h.stk, h.back, h.parked, fun c' p hc => (hproc c').trans (h.me c' p hc), fun c' hc => ?_, h.owner,
    h.nodup, fun c' => ?_, h.run, h.meets, h.childNodup, h.childDisj⟩
  · show _ ∨ (update s.cpus c x c').proc = none
    rw [hproc c']
    exact h.noProc c' hc
  · show Counted s.locks c' (update s.cpus c x c')
    by_cases hc : c' = c
    · subst hc
      intro hn
      rw [update_self] at hn
      rw [hn] at hx; cases hx
    · rw [update_of_ne hc]
      exact h.counted c'

/-! ## Accesses -/

section Access

variable {κ : S.K}

variable (h : Base s) (hs : s.stk (s.cur c) = f :: rest)
include h hs

/-- The state of a process an access does not change by what it holds and knows is not changed for the others. -/
theorem upd_other (hu : UpdOk f k s.kern κ) :
    (∀ c' p, c' ≠ c → s.cur c' = .proc p → (κ.procs p).state = (s.kern.procs p).state) ∧
      (∀ f' ∈ rest, Meets κ f') ∧ ∀ t ≠ s.cur c, ∀ f' ∈ s.stk t, Meets κ f' := by
  have hm := h.meets_top hs
  have hst := h.stk_top hs
  -- a record elsewhere that knows the state of a process excludes that this access changes it
  have key : ∀ f', (∀ l ∈ f.held, f'.expects ≠ none → l ∉ f'.held) →
      (∀ i, f.child = some i → f'.child ≠ some i) → Meets s.kern f' → Meets κ f' := by
    intro f' hh hc hm' i st he
    rcases hu.moved hm i with hq | ⟨hl, hmv⟩
    · rw [hq]; exact hm' i st he
    · obtain ⟨hrun, hx⟩ := expects_cases he
      rcases hx with hx | ⟨rfl, hx⟩
      · exact absurd hx (hh _ hl (by rw [he]; simp))
      · have hst' := hm' i .used he
        exfalso
        cases hmv with
        | own ho _ =>
          have hi := hst.own f List.mem_cons_self i ho
          exact (h.run_ne hi).2 hst'
        | wake ha _ => rw [hst'] at ha; cases ha
        | known he' _ _ =>
          rw [hst'] at he'
          exact hc i (child_of_expects_used he') hx
  refine ⟨fun c' p hne hp => ?_, fun f' hf' => ?_, fun t ht f' hf' => ?_⟩
  · rcases hu.moved hm p with hq | ⟨hl, hmv⟩
    · exact hq
    · exfalso
      have hlc : s.locks (.proc p) = some c := h.holder (by rw [hs]; exact mem_heldS List.mem_cons_self hl)
      have hnl : restState (s.stk (.proc p)) = none := by
        by_contra hr
        have := h.holder (hp ▸ (h.stk (.proc p)).rest_held hr)
        rw [hlc] at this
        exact hne (Option.some.inj this).symm
      have hrun : (s.kern.procs p).state = .running := by rw [h.run c' p hp, hnl]; rfl
      cases hmv with
      | own ho _ =>
        have hi := hst.own f List.mem_cons_self p ho
        exact hne (h.inj _ _ (hp.trans hi.symm))
      | wake ha _ => rw [hrun] at ha; cases ha
      | known he' _ _ => exact (expects_cases he').1.1 hrun
  · refine key f' (fun l hl _ => (h.no_other hs hl).1 f' hf') (fun i hi hi' => ?_) (h.meets _ f' (hs ▸ List.mem_cons_of_mem _ hf'))
    have hn := h.childNodup (s.cur c)
    rw [hs, children_cons, hi] at hn
    exact (List.nodup_cons.mp hn).1 (mem_children hf' hi')
  · refine key f' (fun l hl he => (h.no_other hs hl).2 t ht f' hf' he) (fun i hi hi' => ?_) (h.meets t f' hf')
    exact ht (h.childDisj _ _ i (mem_children hf' hi') (mem_children (hs ▸ List.mem_cons_self) hi))

/-- A slot found unused, with its lock held, is nobody's child. -/
theorem upd_child {i : Fin np} (hl : Lock.proc i ∈ f.held) (hi : (s.kern.procs i).state = .unused) :
    (∀ f' ∈ rest, f'.child ≠ some i) ∧ ∀ t ≠ s.cur c, ∀ f' ∈ s.stk t, f'.child ≠ some i := by
  have key : ∀ f', Meets s.kern f' → (f'.expects ≠ none → Lock.proc i ∉ f'.held) → f'.child ≠ some i := by
    intro f' hm hn hc
    rcases child_cases hc with ⟨he, hl'⟩ | he
    · exact hn (by rw [he]; simp) hl'
    · have := hm i .used he
      rw [hi] at this; cases this
  exact ⟨fun f' hf' => key f' (h.meets _ f' (hs ▸ List.mem_cons_of_mem _ hf')) fun _ => (h.no_other hs hl).1 f' hf',
    fun t ht f' hf' => key f' (h.meets t f' hf') ((h.no_other hs hl).2 t ht f' hf')⟩

theorem upd_step {g : S.K → S.K} {k : S.K → S.F}
    (hi : instr S (s.cpus c).proc f = .upd g k) : Base { s.setStk c (k s.kern :: rest) with kern := g s.kern } := by
  have hok : TextOk (s.cpus c).proc f (.upd g k) := textOk_of hi
  have hu := hok s.kern
  have hm := h.meets_top hs
  have hst := h.stk_top hs
  obtain ⟨ho1, ho2, ho3⟩ := h.upd_other hs hu
  have hheld : heldS (k s.kern :: rest) = heldS (s.stk (s.cur c)) := by rw [hs, heldS_cons, heldS_cons, hu.held]
  refine h.local_step (hst.top hu.own hu.sched hu.enter) (h.mine hs (not_back hi (by simp))) (fun l hl => ?_)
    (fun _ _ _ => Iff.rfl) ?_ (fun p hp => ?_) ho1
    (fun f' hf' => ?_) ho3 ?_ ?_
  · rw [hheld]; exact h.owner c l hl
  · rw [hheld]; exact h.nodup c
  · rw [restState_top hu.enter]
    have hrun : (s.kern.procs p).state = .running := by
      rw [h.run c p hp, ← hp, hs, restState_calm hu.calm]; rfl
    rcases hu.rest with hr | ⟨q, hq, hr⟩
    · rw [hr]
      rcases hu.moved hm p with hmv | ⟨_, hmv⟩
      · exact hmv.trans hrun
      · exfalso
        cases hmv with
        | own _ hr' => rw [hr] at hr'; cases hr'
        | wake ha _ => rw [hrun] at ha; cases ha
        | known he' _ _ => exact (expects_cases he').1.1 hrun
    · have := hst.own f List.mem_cons_self q hq
      rw [hp] at this
      cases this
      rw [hr]; rfl
  · rcases List.mem_cons.mp hf' with rfl | hf'
    · exact hu.expects hm
    · exact ho2 f' hf'
  · have hn := h.childNodup (s.cur c)
    rw [hs, children_cons] at hn
    rw [children_cons]
    rcases hu.child with hc | hc | ⟨_, i, hc, hl, hun⟩
    · rw [hc]; exact hn
    · rw [hc]; exact hn.of_append_right
    · rw [hc]
      refine List.nodup_cons.mpr ⟨fun hmem => ?_, hn.of_append_right⟩
      obtain ⟨f', hf', hfc⟩ := List.mem_filterMap.mp hmem
      exact (h.upd_child hs hl hun).1 f' hf' hfc
  · intro t ht i hmem hmem'
    rw [children_cons] at hmem
    have hold : i ∈ children (f :: rest) → False := fun hx => ht (h.childDisj _ _ i hmem' (hs ▸ hx))
    rcases List.mem_append.mp hmem with hmem | hmem
    · rcases hu.child with hc | hc | ⟨_, j, hc, hl, hun⟩
      · rw [hc] at hmem
        exact hold (by rw [children_cons]; exact List.mem_append_left _ hmem)
      · rw [hc] at hmem; cases hmem
      · rw [hc] at hmem
        obtain rfl : i = j := by simpa using hmem
        obtain ⟨f', hf', hfc⟩ := List.mem_filterMap.mp hmem'
        exact (h.upd_child hs hl hun).2 t ht f' hf' hfc
    · exact hold (by rw [children_cons]; exact List.mem_append_right _ hmem)

end Access

/-! ## Context switches -/

section

variable (h : Base s) (hs : s.stk (s.cur c) = f :: rest)
include h hs

theorem own_cur {p : Fin np} (hp : f.own = some p) : s.cur c = .proc p := (h.stk_top hs).own f List.mem_cons_self p hp

/-- CPU `c` leaves its thread at `k` and goes on with the thread `t`, which no CPU was running. -/
theorem switch_step {t : Tid np nc} {κ : S.K} (ht : ∀ c', s.cur c' ≠ t) (hst : StkOk (s.cur c) (k :: rest))
    (hheld : heldS (s.stk t) = heldS (s.stk (s.cur c))) (hk : k.child = f.child)
    (hcpu : ∀ c', t = .cpu c' → c' = c)
    (hback : ∀ c' p, update s.cur c t c' = .proc p →
      update s.stk (s.cur c) (k :: rest) (.cpu c') = [.scheduler (.back p)])
    (hparked : ∀ p, (∀ c', update s.cur c t c' ≠ .proc p) → Parked p (update s.stk (s.cur c) (k :: rest) (.proc p)))
    (hme : ∀ c' p, update s.cur c t c' = .proc p → (C c').proc = some p)
    (hno : ∀ c', update s.cur c t c' = .cpu c' →
      (∃ p, update s.stk (s.cur c) (k :: rest) (.cpu c') = [.scheduler (.back p)]) ∨ (C c').proc = none)
    (hcnt : ∀ c', Counted s.locks c' (C c'))
    (hrun : ∀ c' p, update s.cur c t c' = .proc p →
      (κ.procs p).state = (restState (update s.stk (s.cur c) (k :: rest) (.proc p))).getD .running)
    (hmt : ∀ t', ∀ f' ∈ update s.stk (s.cur c) (k :: rest) t', Meets κ f') :
    Base { s with
      kern := κ, cpus := C, stk := update s.stk (s.cur c) (k :: rest), cur := update s.cur c t } := by
  have hcur : ∀ c' ≠ c, update s.cur c t c' = s.cur c' := fun c' hc' => update_of_ne hc' _ _
  have hne : ∀ c' ≠ c, s.cur c' ≠ s.cur c := fun c' hc' e => hc' (h.inj _ _ e)
  have hchild : ∀ t', children (update s.stk (s.cur c) (k :: rest) t') = children (s.stk t') := by
    intro t'
    by_cases ht' : t' = s.cur c
    · rw [ht', update_self, hs, children_cons, children_cons, hk]
    · rw [update_of_ne ht']
  -- the stack each CPU now runs lists the same locks as the one it ran before
  have hheld' : ∀ c', heldS (update s.stk (s.cur c) (k :: rest) (update s.cur c t c')) = heldS (s.stk (s.cur c')) := by
    intro c'
    by_cases hc' : c' = c
    · subst hc'
      rw [update_self, update_of_ne (fun e => ht c' e.symm), hheld]
    · rw [hcur c' hc', update_of_ne (hne c' hc')]
  refine ⟨fun c1 c2 he => ?_, fun c1 c2 he => ?_, fun t' => ?_, hback, hparked, hme, hno, fun c' l hl => ?_, fun c' => ?_,
    hcnt, hrun, hmt, fun t' => ?_, fun t1 t2 i h1 h2 => ?_⟩
  · by_cases h1 : c1 = c
    · by_cases h2 : c2 = c
      · rw [h1, h2]
      · simp only [h1, update_self, hcur c2 h2] at he
        exact absurd he.symm (ht c2)
    · by_cases h2 : c2 = c
      · simp only [h2, update_self, hcur c1 h1] at he
        exact absurd he (ht c1)
      · simp only [hcur c1 h1, hcur c2 h2] at he
        exact h.inj _ _ he
  · by_cases h1 : c1 = c
    · simp only [h1, update_self] at he ⊢
      exact hcpu c2 he
    · simp only [hcur c1 h1] at he
      exact h.cpu _ _ he
  · by_cases ht' : t' = s.cur c
    · subst ht'; simpa using hst
    · simpa [update_of_ne ht'] using h.stk t'
  · simpa only [hheld' c'] using h.owner c' l hl
  · simpa only [hheld' c'] using h.nodup c'
  · simpa only [hchild t'] using h.childNodup t'
  · simp only [hchild] at h1 h2
    exact h.childDisj t1 t2 i h1 h2

omit h hs in
/-- At the call of `sched` with one spinlock held, the caller's process lock is the only one listed. -/
theorem sched_caller {p : Fin np} (h : Base s) (hs : s.stk (s.cur c) = .sched p .enter :: rest)
    (hn : (s.cpus c).noff = 1) (hp : (s.cpus c).panicked = none) :
    ∃ g rest', rest = g :: rest' ∧ g.held = [.proc p] ∧ g.afterSched ≠ none ∧ heldS rest' = [] := by
  obtain ⟨g, rest, rfl, hg, ha⟩ := (h.stk_top hs).enter p rest rfl
  refine ⟨g, rest, rfl, hg, ha, List.eq_nil_iff_forall_not_mem.mpr fun l hl => ?_⟩
  obtain ⟨⟨hl', _, hm, hlen⟩, _⟩ := h.counted c hp
  have hnd := h.nodup c
  rw [hs] at hnd
  simp only [heldS_cons, Frame.held_sched, hg, List.nil_append, List.singleton_append, List.nodup_cons] at hnd
  obtain ⟨a, rfl⟩ := List.length_eq_one_iff.mp (hlen.trans hn)
  have h1 : l = a := by simpa using (hm l).mpr (h.holder (by rw [hs]; simp [hg, hl]))
  have h2 : Lock.proc p = a := by simpa using (hm (.proc p)).mpr (h.holder (by rw [hs]; simp [hg]))
  exact hnd.1 (h2.trans h1.symm ▸ hl)

theorem sched_step {p : Fin np}
    (hi : instr S (s.cpus c).proc f = .sched p) (hn : (s.cpus c).noff = 1) (hp : (s.cpus c).panicked = none) :
    Base { s.setStk c (.sched p (.back (s.cpus c).intena) :: rest) with cur := update s.cur c (.cpu c) } := by
  obtain rfl : f = .sched p .enter := textOk_of hi
  obtain ⟨g, rest, rfl, hg, ha, hrest⟩ := h.sched_caller hs hn hp
  have hc : s.cur c = .proc p := h.own_cur hs rfl
  have hcpu := h.back c p hc
  have hcur : ∀ c' q, update s.cur c (.cpu c) c' = .proc q → c' ≠ c ∧ s.cur c' = .proc q := by
    intro c' q hq
    have hne : c' ≠ c := by
      rintro rfl
      rw [update_self] at hq; cases hq
    exact ⟨hne, by rwa [update_of_ne hne] at hq⟩
  have hstk : ∀ t ≠ .proc p, ∀ st, update s.stk (s.cur c) st t = s.stk t := fun t ht st => update_of_ne (hc ▸ ht) _ _
  refine h.switch_step hs (fun c' hc' => ?_) ((h.stk_top hs).top (.inl rfl) rfl rfl) ?_ rfl (fun c' e => (Tid.cpu.inj e).symm)
    (fun c' q hq => ?_) (fun q hq => ?_) (fun c' q hq => h.me c' q (hcur c' q hq).2) (fun c' hc' => ?_) h.counted
    (fun c' q hq => ?_) (fun t => ?_)
  · have := h.cpu c' c hc'
    subst this
    rw [hc] at hc'; cases hc'
  · rw [hcpu, hs, heldS_cons, heldS_cons, heldS_cons, hg, hrest]; rfl
  · rw [hstk (.cpu c') (by simp)]
    exact h.back c' q (hcur c' q hq).2
  · by_cases hqp : q = p
    · rw [hqp, ← hc, update_self]
      exact .inr ⟨_, g, rest, rfl, hg, ha, hrest⟩
    · rw [hstk (.proc q) (by simpa using hqp)]
      refine h.parked q fun c' hc' => ?_
      by_cases hcc : c' = c
      · rw [hcc, hc] at hc'
        exact hqp (Tid.proc.inj hc').symm
      · exact hq c' (by rwa [update_of_ne hcc])
  · rw [hstk (.cpu c') (by simp)]
    by_cases hcc : c' = c
    · exact .inl ⟨p, hcc ▸ hcpu⟩
    · rw [update_of_ne hcc] at hc'
      exact h.noProc c' hc'
  · obtain ⟨hne, hq'⟩ := hcur c' q hq
    rw [hstk (.proc q) (fun e => hne (h.inj _ _ ((hq'.trans e).trans hc.symm)))]
    exact h.run c' q hq'
  · by_cases ht : t = .proc p
    · rw [ht, ← hc, update_self]
      exact h.meets_cons hs fun i st he => by cases he
    · rw [hstk t ht]
      exact h.meets t

omit h hs in
/-- The scheduler dispatches a process that no CPU is running. -/
theorem dispatch_parked {p : Fin np} (h : Base s) (hs : s.stk (s.cur c) = .scheduler (.run p) :: rest) :
    s.cur c = .cpu c ∧ rest = [] ∧ (s.kern.procs p).state = .runnable ∧ ∀ c', s.cur c' ≠ .proc p := by
  have hc : s.cur c = .cpu c := by
    cases hc : s.cur c with
    | proc q =>
      have := (hc ▸ h.stk_top hs).not_scheduler List.mem_cons_self
      cases this
    | cpu c' => rw [h.cpu c c' hc]
  have hrunnable : (s.kern.procs p).state = .runnable := h.meets_top hs p .runnable rfl
  have hlock : s.locks (.proc p) = some c := h.holder (by rw [hs]; simp [Frame.held])
  refine ⟨hc, (hc ▸ h.stk_top hs).scheduler_alone rfl, hrunnable, fun c' hc' => ?_⟩
  -- a CPU running `p` would hold its lock, since `p` is not RUNNING
  have hrun := h.run c' p hc'
  rw [hrunnable] at hrun
  have hr : restState (s.stk (.proc p)) ≠ none := fun e => by rw [e] at hrun; cases hrun
  have := h.holder (hc' ▸ (h.stk (.proc p)).rest_held hr)
  rw [hlock] at this
  rw [← Option.some.inj this, hc] at hc'; cases hc'

theorem dispatch_step {p : Fin np} (hi : instr S (s.cpus c).proc f = .dispatch p k) :
    Base { (s.setCpu c fun x => { x with proc := some p }).setStk c (k :: rest) with
      kern := s.kern.setProc p fun q => { q with state := .running }
      cur := update s.cur c (.proc p) } := by
  obtain ⟨rfl, rfl⟩ : f = .scheduler (.run p) ∧ k = .scheduler (.back p) := textOk_of hi
  obtain ⟨hc, rfl, hrunnable, hnot⟩ := h.dispatch_parked hs
  have hpk := h.parked p hnot
  have hcur : ∀ c' ≠ c, update s.cur c (.proc p) c' = s.cur c' := fun c' hc' => update_of_ne hc' _ _
  have hstk : ∀ t ≠ .cpu c, ∀ st, update s.stk (s.cur c) st t = s.stk t := fun t ht st => update_of_ne (hc ▸ ht) _ _
  refine h.switch_step hs hnot ((h.stk_top hs).top (.inl rfl) rfl rfl) ?_ rfl (fun c' e => by cases e)
    (fun c' q hq => ?_) (fun q hq => ?_) (fun c' q hq => ?_) (fun c' hc' => ?_) (fun c' => ?_) (fun c' q hq => ?_)
    (fun t f' hf' => ?_)
  · rw [hpk.heldS_eq, hs]; rfl
  · by_cases hcc : c' = c
    · rw [hcc, update_self] at hq
      rw [hcc, ← hc, update_self, Tid.proc.inj hq]
    · rw [hcur c' hcc] at hq
      rw [hstk (.cpu c') (by simpa using hcc)]
      exact h.back c' q hq
  · rw [hstk (.proc q) (by simp)]
    refine h.parked q fun c' hc' => ?_
    by_cases hcc : c' = c
    · rw [hcc, hc] at hc'; cases hc'
    · exact hq c' (by rwa [hcur c' hcc])
  · by_cases hcc : c' = c
    · rw [hcc, update_self] at hq
      simp [hcc, Tid.proc.inj hq]
    · rw [hcur c' hcc] at hq
      simpa [update_of_ne hcc] using h.me c' q hq
  · have hcc : c' ≠ c := by
      rintro rfl
      rw [update_self] at hc'; cases hc'
    rw [hcur c' hcc] at hc'
    rw [hstk (.cpu c') (by simpa using hcc)]
    simpa [update_of_ne hcc] using h.noProc c' hc'
  · by_cases hcc : c' = c
    · subst hcc
      simpa [Counted] using h.counted c'
    · simpa [update_of_ne hcc] using h.counted c'
  · rw [hstk (.proc q) (by simp)]
    by_cases hqp : q = p
    · subst hqp
      rw [hpk.restState_eq]; simp
    · have hcc : c' ≠ c := by
        rintro rfl
        rw [update_self] at hq
        exact hqp (Tid.proc.inj hq).symm
      rw [hcur c' hcc] at hq
      rw [Kernel.setProc_ne _ _ hqp]
      exact h.run c' q hq
  · intro i st he
    by_cases ht : t = .cpu c
    · rw [ht, ← hc, update_self, List.mem_singleton] at hf'
      subst hf'; cases he
    · rw [hstk t ht] at hf'
      have hm := h.meets t f' hf' i st he
      by_cases hip : i = p
      · subst hip
        exfalso
        rcases (expects_cases he).2 with hl | ⟨rfl, _⟩
        · exact (h.no_other hs (by simp [Frame.held])).2 t (hc ▸ ht) f' hf' (by rw [he]; simp) hl
        · rw [hrunnable] at hm; cases hm
      · rw [Kernel.setProc_ne _ _ hip]; exact hm

theorem spawn_step {q : Fin np} (hi : instr S (s.cpus c).proc f = .spawn q k) :
    Base (State.setStk { s with stk := update s.stk (.proc q) [.forkret q] } c (k :: rest)) := by
  obtain ⟨⟨p, pid, rfl⟩, hk⟩ : TextOk (s.cpus c).proc f (.spawn q k) := textOk_of hi
  have hused : (s.kern.procs q).state = .used := h.meets_top hs q .used rfl
  have hnot : ∀ c', s.cur c' ≠ .proc q := fun c' hc' => (h.run_ne hc').2 hused
  have hb : Base { s with stk := update s.stk (.proc q) [.forkret q] } := by
    have hstk : ∀ t ≠ .proc q, update s.stk (.proc q) [.forkret q] t = s.stk t := fun t ht => update_of_ne ht _ _
    refine ⟨h.inj, h.cpu, fun t => ?_, fun c' r hr => ?_, fun r hr => ?_, h.me, fun c' hc' => ?_, fun c' l hl => ?_,
      fun c' => ?_, h.counted, fun c' r hr => ?_, fun t f' hf' => ?_, fun t => ?_, fun t t' i h1 h2 => ?_⟩
    · by_cases ht : t = .proc q
      · subst ht
        simp only [update_self]
        refine ⟨by simp, fun f' hf' r hr => ?_, ⟨1, rfl⟩, by simp⟩
        rw [List.mem_singleton.mp hf'] at hr
        exact congrArg Tid.proc (Option.some.inj hr)
      · simp only [hstk t ht]; exact h.stk t
    · simp only [hstk (.cpu c') (by simp)]; exact h.back c' r hr
    · by_cases hrq : r = q
      · subst hrq
        simp only [update_self]; exact .inl rfl
      · simp only [hstk (.proc r) (by simpa using hrq)]; exact h.parked r hr
    · simp only [hstk (.cpu c') (by simp)]; exact h.noProc c' hc'
    · simp only [hstk _ (hnot c')]; exact h.owner c' l hl
    · simp only [hstk _ (hnot c')]; exact h.nodup c'
    · simp only [hstk _ (hr ▸ hnot c')]; exact h.run c' r hr
    · by_cases ht : t = .proc q
      · subst ht
        simp only [update_self, List.mem_singleton] at hf'
        subst hf'
        intro i st he; cases he
      · simp only [hstk t ht] at hf'; exact h.meets t f' hf'
    · by_cases ht : t = .proc q
      · subst ht
        simp only [update_self]; exact List.nodup_nil
      · simp only [hstk t ht]; exact h.childNodup t
    · have hnil : ∀ j, j ∉ children (update s.stk (.proc q) [.forkret q] (.proc q)) := by
        intro j hj
        rw [update_self] at hj; cases hj
      by_cases ht : t = .proc q
      · exact absurd (ht ▸ h1) (hnil i)
      · by_cases ht' : t' = .proc q
        · exact absurd (ht' ▸ h2) (hnil i)
        · simp only [hstk t ht] at h1
          simp only [hstk t' ht'] at h2
          exact h.childDisj t t' i h1 h2
  have hs' : update s.stk (.proc q) [.forkret q] (s.cur c) = _ :: rest := (update_of_ne (hnot c) _ _).trans hs
  exact hb.goes_step hs' hk (hb.mine hs' (not_back hi (by simp)))

end

/-- **Every step keeps the base invariant.** -/
theorem step {s' : State S nc} {a : Act} (h : Base s) (hst : step s c a = some s') : Base s' := by
  obtain ⟨hp, hf⟩ := fires_of_step hst
  cases hf with
  | acquire hs hi hl => exact h.acquire_step hs hi hl hp
  | release hs hi hl => exact h.release_step hs hi hl hp
  | upd hs hi => exact h.upd_step hs hi
  | call hs hi => exact h.call_step hs hi
  | ret hs hi => exact h.ret_step hs hi
  | choose n hs hi => exact h.choose_step n hs hi
  | sched hs hi hl hn hr hsie => exact h.sched_step hs hi hn hp
  | dispatch hs hi => exact h.dispatch_step hs hi
  | spawn hs hi => exact h.spawn_step hs hi
  | cpu hs hi => exact h.cpu_step hs hi
  | intrOn hs hi hn => exact h.intrOn_step hs hi hn
  | sret hs hi hn => exact h.sret_step hs hi hn
  | panic hx hp' => exact h.panic_step hx hp'
  | intr irq hs hi => exact h.intr_step irq hp hs hi

/-! ## What a step leaves alone -/

/-- A step of one CPU does not touch what the other CPUs are running. -/
theorem other_cpu {s' : State S nc} (h : Base s) (hf : Fires s c s') {c' : Fin nc} (hc : c' ≠ c) :
    s'.cur c' = s.cur c' ∧ s'.stk (s.cur c') = s.stk (s.cur c') := by
  have hne : s.cur c' ≠ s.cur c := fun e => hc (h.inj _ _ e)
  cases hf with
  | @spawn f rest q k hs hi =>
    obtain ⟨⟨p, pid, rfl⟩, _⟩ : TextOk (s.cpus c).proc f (.spawn q k) := textOk_of hi
    have hnot : s.cur c' ≠ .proc q := fun e => (h.run_ne e).2 (h.meets_top hs q .used rfl)
    exact ⟨rfl, (update_of_ne hne _ _).trans (update_of_ne hnot _ _)⟩
  | sched | dispatch => exact ⟨update_of_ne hc _ _, update_of_ne hne _ _⟩
  | panic => exact ⟨rfl, rfl⟩
  | _ => exact ⟨rfl, update_of_ne hne _ _⟩

end Base

/-- **The base invariant holds in every reachable state.** -/
theorem Reachable.base {s : State S nc} (h : Reachable s) : Base s :=
  Reachable.induct base_boot (fun _ _ _ hb ⟨_, _, hs⟩ => hb.step hs) h

end Xv6
