import Xv6.Kernel.Threads

/-!
# A process runs on one CPU

The lock of a process is held across `swtch`: the process takes it before it calls `sched`, and the scheduler it
switches to releases it. So a CPU that looks at the process with its lock held finds it off every CPU.

- `Placed`: a process that is `c->proc` of a CPU is run by it, or has just left it with its lock still held; and a
  process off the CPUs is not RUNNING. `Placed.step` keeps it;
- `one_cpu`: no two CPUs have the same `c->proc` or the same stack, a RUNNING process is run by exactly one CPU, and a
  process is switched to, freed or given a new stack only when no CPU is running it.
-/

namespace Xv6

open Function (update update_of_ne update_self)

variable {np nc : Nat} {S : System np}

/-- Where the processes are. -/
structure Placed (s : State S nc) : Prop where
  proc : ∀ c p, (s.cpus c).proc = some p →
    s.cur c = .proc p ∨ s.cur c = .cpu c ∧ s.stk (.cpu c) = [.scheduler (.back p)] ∧ ∀ c', s.cur c' ≠ .proc p
  off : ∀ p, (∀ c, s.cur c ≠ .proc p) → (s.kern.procs p).state ≠ .running

theorem placed_boot : Placed (boot S nc) := by
  refine ⟨fun c p h => (by cases h), fun p _ => ?_⟩
  simp only [boot]
  split <;> simp [Proc.fresh]

namespace Placed

variable {s s' : State S nc} {c : Fin nc} {f k : S.F} {rest st : List S.F} {p : Fin np}

/-- A step of a CPU that goes on with the same thread and is not between `swtch` and `c->proc = 0`. -/
theorem keep (h : Placed s) (hb : Base s) (hf : Fires s c s') (hcur : s'.cur = s.cur)
    (hback : ∀ p, s.stk (s.cur c) ≠ [.scheduler (.back p)])
    (hproc : ∀ c' p, (s'.cpus c').proc = some p → (s.cpus c').proc = some p)
    (hoff : ∀ p, (∀ c, s.cur c ≠ .proc p) → (s.kern.procs p).state ≠ .running → (s'.kern.procs p).state ≠ .running) :
    Placed s' := by
  refine ⟨fun c' p hp => ?_, fun p hp => hoff p (hcur ▸ hp) (h.off p (hcur ▸ hp))⟩
  rw [hcur]
  rcases h.proc c' p (hproc c' p hp) with hc | ⟨hc, hst, hno⟩
  · exact .inl hc
  · have hne : c' ≠ c := by
      rintro rfl
      exact hback p (hc ▸ hst)
    have := (hb.other_cpu hf hne).2
    rw [hc, hst] at this
    exact .inr ⟨hc, this, hno⟩

/-- A CPU that takes an interrupt holds no lock, so it is not in the scheduler after `swtch`. -/
theorem not_back_of_sie (hb : Base s) (hp : (s.cpus c).panicked = none) (hi : (s.cpus c).sie = true) (p : Fin np) :
    s.stk (s.cur c) ≠ [.scheduler (.back p)] := by
  intro he
  have := hb.heldS_of_sie hp hi
  rw [he] at this
  cases this

/-- An access leaves the processes off the CPUs not RUNNING. -/
theorem off_of_upd {g : S.K → S.K} {k : S.K → S.F} (hb : Base s) (hs : s.stk (s.cur c) = f :: rest)
    (hi : instr S (s.cpus c).proc f = .upd g k) (hp : ∀ c, s.cur c ≠ .proc p)
    (hr : (s.kern.procs p).state ≠ .running) : ((g s.kern).procs p).state ≠ .running := by
  have hok : TextOk (s.cpus c).proc f (.upd g k) := textOk_of hi
  rcases (hok s.kern).moved (hb.meets_top hs) p with h | ⟨-, hm⟩
  · rw [h]; exact hr
  · cases hm with
    | own ho _ => exact absurd (hb.own_cur hs ho) (hp c)
    | wake _ hb => rw [hb]; decide
    | known _ _ hb => exact hb.1

/-- `sched` leaves the process off the CPUs, and the scheduler of its CPU before `c->proc = 0`. -/
theorem sched_step (h : Placed s) (hb : Base s) (hs : s.stk (s.cur c) = f :: rest)
    (hi : instr S (s.cpus c).proc f = .sched p) (hr : (s.kern.procs p).state ≠ .running) :
    Placed { s.setStk c (.sched p (.back (s.cpus c).intena) :: rest) with cur := update s.cur c (.cpu c) } := by
  obtain rfl : f = .sched p .enter := textOk_of hi
  have hcp : s.cur c = .proc p := hb.own_cur hs rfl
  have hstk : ∀ c' st, update s.stk (s.cur c) st (.cpu c') = s.stk (.cpu c') := fun c' st =>
    update_of_ne (by rw [hcp]; simp) _ _
  have hcur : ∀ q c', update s.cur c (.cpu c) c' = .proc q → s.cur c' = .proc q := by
    intro q c' hq
    by_cases hcc : c' = c
    · rw [hcc, update_self] at hq; cases hq
    · rwa [update_of_ne hcc] at hq
  refine ⟨fun c' q hq => ?_, fun q hq => ?_⟩
  · simp only [State.setStk_stk, hstk]
    by_cases hcc : c' = c
    · -- the CPU that switches
      subst hcc
      have hqp : q = p := by
        have hq' : (s.cpus c').proc = some q := hq
        rw [hb.me c' p hcp] at hq'
        exact (Option.some.inj hq').symm
      subst hqp
      refine .inr ⟨update_self _ _ _, hb.back c' q hcp, fun c'' hc'' => ?_⟩
      have hc1 := hcur q c'' hc''
      have hc2 : c'' = c' := hb.inj _ _ (hc1.trans hcp.symm)
      rw [hc2] at hc''
      rw [update_self] at hc''
      cases hc''
    · rcases h.proc c' q hq with hc | ⟨hc, hst, hno⟩
      · exact .inl ((update_of_ne hcc _ _).trans hc)
      · exact .inr ⟨(update_of_ne hcc _ _).trans hc, hst, fun c'' hc'' => hno c'' (hcur q c'' hc'')⟩
  · by_cases hqp : q = p
    · subst hqp; exact hr
    · refine h.off q fun c' hc' => ?_
      by_cases hcc : c' = c
      · rw [hcc, hcp] at hc'
        exact hqp (Tid.proc.inj hc').symm
      · exact hq c' ((update_of_ne hcc _ _).trans hc')

/-- The scheduler switches to a process that it has locked and that no CPU is running. -/
theorem dispatch_step (h : Placed s) (hb : Base s) (hs : s.stk (s.cur c) = f :: rest)
    (hi : instr S (s.cpus c).proc f = .dispatch p k) :
    Placed { (s.setCpu c fun x => { x with proc := some p }).setStk c (k :: rest) with
      kern := s.kern.setProc p fun q => { q with state := .running }
      cur := update s.cur c (.proc p) } := by
  obtain ⟨rfl, rfl⟩ : f = .scheduler (.run p) ∧ k = .scheduler (.back p) := textOk_of hi
  obtain ⟨hc, rfl, -, hnot⟩ := hb.dispatch_parked hs
  have hlock : s.locks (.proc p) = some c := hb.holder (by rw [hs]; simp [Frame.held])
  refine ⟨fun c' q hq => ?_, fun q hq => ?_⟩
  · by_cases hcc : c' = c
    · subst hcc
      simp only [State.setStk_cpus, State.setCpu_cpus, update_self, Option.some.injEq] at hq
      exact .inl (hq ▸ update_self _ _ _)
    · simp only [State.setStk_cpus, State.setCpu_cpus, update_of_ne hcc] at hq
      rcases h.proc c' q hq with hc' | ⟨hc', hst, hno⟩
      · exact .inl ((update_of_ne hcc _ _).trans hc')
      · -- that CPU still holds the lock of the process it has left
        have hqp : q ≠ p := by
          rintro rfl
          have : s.locks (.proc q) = some c' := hb.holder (by rw [hc', hst]; simp [Frame.held])
          rw [hlock] at this
          exact hcc (Option.some.inj this).symm
        refine .inr ⟨(update_of_ne hcc _ _).trans hc', ?_, fun c'' hc'' => ?_⟩
        · have hne : Tid.cpu c' ≠ s.cur c := by rw [hc]; simpa using hcc
          exact (update_of_ne hne _ _).trans hst
        · by_cases h2 : c'' = c
          · rw [h2] at hc''
            exact hqp (Tid.proc.inj ((update_self c (Tid.proc p) s.cur).symm.trans hc'')).symm
          · exact hno c'' ((update_of_ne h2 _ _).symm.trans hc'')
  · have hqp : q ≠ p := fun e => hq c (e ▸ update_self _ _ _)
    simp only [Kernel.setProc_ne _ _ hqp]
    refine h.off q fun c' hc' => ?_
    by_cases hcc : c' = c
    · rw [hcc, hc] at hc'; cases hc'
    · exact hq c' ((update_of_ne hcc _ _).trans hc')

/-- **Every step keeps it.** -/
theorem step {a : Act} (h : Placed s) (hb : Base s) (hst : step s c a = some s') : Placed s' := by
  obtain ⟨hp, hf⟩ := fires_of_step hst
  -- the top record is not the one after `swtch`, whose instruction is `c->proc = 0`
  have hnb : ∀ {f : S.F} {rest : List S.F} {i : S.I}, s.stk (s.cur c) = f :: rest → instr S (s.cpus c).proc f = i →
      (∀ g k, i ≠ .cpu g k) → ∀ p, s.stk (s.cur c) ≠ [.scheduler (.back p)] := by
    intro f rest i hs hi hc p he
    rw [hs] at he
    exact Base.not_back hi hc p (List.cons.inj he).1
  have hcpu : ∀ {x : Cpu np}, x.proc = (s.cpus c).proc → ∀ c' p,
      (update s.cpus c x c').proc = some p → (s.cpus c').proc = some p := by
    intro x hx c' p hp
    by_cases hcc : c' = c
    · subst hcc
      rwa [update_self, hx] at hp
    · rwa [update_of_ne hcc] at hp
  cases id hf with
  | acquire hs hi hl | intrOn hs hi hn | sret hs hi hn =>
    exact h.keep hb hf rfl (hnb hs hi (by simp)) (hcpu rfl) fun _ _ => id
  | release hs hi hl => exact h.keep hb hf rfl (hnb hs hi (by simp)) (hcpu (Base.popOff_proc _)) fun _ _ => id
  | upd hs hi => exact h.keep hb hf rfl (hnb hs hi (by simp)) (fun _ _ => id) fun _ => off_of_upd hb hs hi
  | call hs hi | ret hs hi | choose n hs hi | spawn hs hi =>
    exact h.keep hb hf rfl (hnb hs hi (by simp)) (fun _ _ => id) fun _ _ => id
  | sched hs hi hl hn hr hsie => exact h.sched_step hb hs hi hr
  | dispatch hs hi => exact h.dispatch_step hb hs hi
  | @cpu f rest g k hs hi =>
    obtain ⟨-, -, -, -, -, hproc⟩ : TextOk (s.cpus c).proc f (.cpu g k) := textOk_of hi
    rcases hproc with ⟨hg, hback⟩ | ⟨-, hg⟩
    · refine h.keep hb hf rfl (fun p he => ?_) (hcpu (hg _)) fun _ _ => id
      rw [hs] at he
      exact hback p (List.cons.inj he).1
    · -- the scheduler sets `c->proc = 0`
      refine ⟨fun c' p hp => ?_, h.off⟩
      have hcc : c' ≠ c := by
        rintro rfl
        simp only [State.setStk_cpus, State.setCpu_cpus, update_self] at hp
        rw [hg] at hp; cases hp
      simp only [State.setStk_cpus, State.setCpu_cpus, update_of_ne hcc] at hp
      rcases h.proc c' p hp with hc | ⟨hc, hst, hno⟩
      · exact .inl hc
      · have := (hb.other_cpu hf hcc).2
        rw [hc, hst] at this
        exact .inr ⟨hc, this, hno⟩
  | @panic x hx hp' =>
    exact ⟨fun c' p hp => h.proc c' p (hcpu hp' c' p hp), h.off⟩
  | intr irq hs hi => exact h.keep hb hf rfl (not_back_of_sie hb hp hi) (hcpu rfl) fun _ _ => id

end Placed

theorem Reachable.placed {s : State S nc} (h : Reachable s) : Placed s :=
  Reachable.induct placed_boot (fun _ _ hr hp ⟨_, _, hst⟩ => hp.step hr.base hst) h

/-- The process whose stack is about to be taken: the scheduler switches to it, `freeproc` frees it, or `allocproc`
makes its context start at `forkret`. -/
def Frame.takes {L : Type} : Frame np L → Option (Fin np)
  | .scheduler (.run p) => some p
  | .kwait _ (.freeproc p _) | .kfork _ (.freeproc p) | .kfork _ (.context p _) => some p
  | _ => none

/-- Each process is in one place. -/
structure OneCpu (s : State S nc) : Prop where
  /-- A process is the `c->proc` of at most one CPU. -/
  proc : ∀ c c' p, (s.cpus c).proc = some p → (s.cpus c').proc = some p → c = c'
  /-- No two CPUs run on the same stack. -/
  stack : ∀ c c', s.cur c = s.cur c' → c = c'
  /-- A RUNNING process is run by exactly one CPU, which has it as `c->proc`. -/
  running : ∀ p, (s.kern.procs p).state = .running → ∃ c, s.cur c = .proc p ∧ (s.cpus c).proc = some p ∧
    ∀ c', s.cur c' = .proc p → c' = c
  /-- A process that is switched to or freed has been left, by `swtch`, by every CPU. -/
  left : ∀ c f rest p, s.stk (s.cur c) = f :: rest → f.takes = some p → ∀ c', s.cur c' ≠ .proc p

/-- Whoever takes the stack of a process knows, under its lock, that it is not RUNNING. -/
theorem Frame.takes_cases {f : S.F} {p : Fin np} (h : f.takes = some p) :
    f.calm = true ∧ Lock.proc p ∈ f.held ∧ ∃ st, f.expects = some (p, st) := by
  cases f with
  | scheduler pc | kwait q pc | kfork q pc =>
    cases pc <;> simp_all [Frame.takes, Frame.calm, Frame.isEnter, Frame.restTop, Frame.held, Frame.expects]
  | _ => cases h

/-- **A process runs on at most one CPU, and its stack is never shared.** -/
theorem one_cpu {s : State S nc} (h : Reachable s) : OneCpu s where
  proc c c' p hc hc' := by
    have hb := h.base
    rcases h.placed.proc c p hc with h1 | ⟨h1, hst, hno⟩
    · rcases h.placed.proc c' p hc' with h2 | ⟨-, -, hno⟩
      · exact hb.inj _ _ (h1.trans h2.symm)
      · exact absurd h1 (hno c)
    · rcases h.placed.proc c' p hc' with h2 | ⟨h2, hst', -⟩
      · exact absurd h2 (hno c')
      · -- both hold the lock of the process they have left
        have l1 : s.locks (.proc p) = some c := hb.holder (by rw [h1, hst]; simp [Frame.held])
        have l2 : s.locks (.proc p) = some c' := hb.holder (by rw [h2, hst']; simp [Frame.held])
        exact Option.some.inj (l1.symm.trans l2)
  stack := h.base.inj
  running p hp := by
    by_cases hc : ∃ c, s.cur c = .proc p
    · obtain ⟨c, hc⟩ := hc
      exact ⟨c, hc, h.base.me c p hc, fun c' hc' => h.base.inj _ _ (hc'.trans hc.symm)⟩
    · exact absurd hp (h.placed.off p fun c hx => hc ⟨c, hx⟩)
  left c f rest p hs ht := by
    obtain ⟨hf, hl, st, he⟩ := f.takes_cases ht
    exact h.base.known_parked hs hf he hl

/-- A process that only runs, and two CPUs. -/
def idler : System 1 := tableSystem [.choose fun _ => 1] 0 fun _ => false

/-- One CPU has dispatched the process, and the other is about to look at it. -/
theorem one_cpu_idler :
    let s := after idler 2 ([(1, .run 0), (1, .run 0), (1, .run 0)] ++ List.replicate 7 (0, .run 0))
    (s.kern.procs 0).state = .running ∧ s.stk (s.cur 1) = [.scheduler (.scan 0 false)] ∧ OneCpu s :=
  ⟨rfl, rfl, one_cpu (reachable_after _ _)⟩

end Xv6
