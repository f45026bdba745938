import Xv6.Spin.Count

/-!
# Interrupts belong to the thread

`noff` and `intena` are fields of the CPU, and `sched` carries `intena` over a context switch by hand. `State.enabled` is the
interrupt state of the thread that a CPU runs: the enable bit when the CPU holds no lock, and otherwise what the last `pop_off`
will bring back. A thread that holds a lock keeps it from step to step, and a suspended thread has it in the `restore`
it goes on with (`Saved.step`); so a thread finds interrupts as it left them (`interrupts_kept`).
-/

namespace Xv6.Spin

open Function (update update_eq_self update_of_ne update_self)

variable {C T L : Type} [DecidableEq C] [DecidableEq T] [DecidableEq L] {s s' : State C T L} {c : C} {a : Act T L}
  {i : Instr T L} {k : List (Instr T L)} {rest : List (List (Instr T L))}
variable {t : T}

/-! ## What a step does -/

/-- What an instruction does to the CPU. -/
def Instr.onCpu : Instr T L → Cpu → Cpu
  | .pushOff, x => x.pushOff
  | .popOff, x => x.popOff
  | .restore b, x => { x with intena := b }
  | _, x => x

theorem exec_inv (h : s.exec c k rest i = some s') : (∃ msg, s' = s.panic c msg) ∨
      (s'.cur = s.cur ∧ s'.cpu = update s.cpu c (i.onCpu (s.cpu c)) ∧ s'.stack = update s.stack (s.cur c) (k :: rest)) ∨
      ((s.cpu c).noff = 1 ∧ i = .sched ∧ s'.cur = update s.cur c (.sched c) ∧ s'.cpu = s.cpu ∧
        s'.stack = update s.stack (s.cur c) ((.restore (s.cpu c).intena :: k) :: rest)) ∨
      ∃ t, i = .test t ∧ s'.cur = update s.cur c (.proc t) ∧ s'.cpu = s.cpu ∧
        s'.stack = update s.stack (s.cur c) (k :: rest) := by
  have hid : s.cpu = update s.cpu c (s.cpu c) := (update_eq_self c s.cpu).symm
  cases i with
  | pushOff | popOff | restore b =>
    cases h
    exact .inr (.inl ⟨rfl, rfl, rfl⟩)
  | check l | drop l =>
    obtain rfl := Option.some.inj h
    split
    · first | exact .inl ⟨_, rfl⟩ | exact .inr (.inl ⟨rfl, hid, rfl⟩)
    · first | exact .inl ⟨_, rfl⟩ | exact .inr (.inl ⟨rfl, hid, rfl⟩)
  | take l =>
    rw [State.exec] at h
    split at h
    · cases h
      exact .inr (.inl ⟨rfl, hid, rfl⟩)
    · cases h
  | setState st =>
    unfold State.exec at h
    dsimp only at h
    split at h
    · cases h
      exact .inr (.inl ⟨rfl, hid, rfl⟩)
    · cases h
  | sched =>
    unfold State.exec at h
    dsimp only at h
    split at h
    · obtain rfl := Option.some.inj h
      rw [State.sched]
      split_ifs with h1 h2
      iterate 4 exact .inl ⟨_, rfl⟩
      exact .inr (.inr (.inl ⟨not_not.mp h2, rfl, rfl, rfl, rfl⟩))
    · cases h
  | test t =>
    rw [State.exec] at h
    split at h
    · cases h
      exact .inr (.inr (.inr ⟨t, rfl, rfl, rfl, rfl⟩))
    · cases h
      exact .inr (.inl ⟨rfl, hid, rfl⟩)
  | panic msg =>
    cases h
    exact .inl ⟨msg, rfl⟩

/-- A `restore` stands only where `sched` has put it. -/
def Fresh (k : List (Instr T L)) : Prop := ∀ b, .restore b ∉ k

theorem call_inv {op : Op T L} (h : s.call c rest op = some s') : (∃ k, Fresh k ∧ s' = s.setStack c (k :: rest)) ∨
      (∃ t st, s' = s.setState t st) ∨
      (∃ t, op = .spawn t ∧ s.cur c ≠ .proc t ∧ s' = { s with stack := update s.stack (.proc t) [forkret t] }) ∨
      (∃ b, (b = true → (s.cpu c).noff = 0) ∧ s' = s.setCpu c fun x => { x with sie := b }) ∨
      ∃ k rest', rest = k :: rest' ∧ (s.cpu c).noff = 0 ∧
        s' = (s.setCpu c fun x => { x with sie := true }).setStack c (k :: rest') := by
  cases op with
  | acquire l | release l | myproc =>
    cases h
    exact .inl ⟨_, by simp [Fresh, acquire, release, myproc], rfl⟩
  | setState t st =>
    rw [State.call] at h
    split at h
    · cases h
      exact .inr (.inl ⟨t, st, rfl⟩)
    · cases h
  | spawn t =>
    rw [State.call] at h
    split at h
    · next hg =>
      cases h
      exact .inr (.inr (.inl ⟨t, rfl, hg.2.1, rfl⟩))
    · cases h
  | pick t =>
    rw [State.call] at h
    split at h
    · cases h
      exact .inl ⟨_, by simp [Fresh, pick, acquire, release], rfl⟩
    · cases h
  | intrOn =>
    rw [State.call] at h
    split at h
    · next h0 =>
      cases h
      exact .inr (.inr (.inr (.inl ⟨true, fun _ => h0, rfl⟩)))
    · cases h
  | intrOff =>
    cases h
    exact .inr (.inr (.inr (.inl ⟨false, fun h => Bool.noConfusion h, rfl⟩)))
  | sret =>
    cases rest with
    | nil => cases h
    | cons k rest =>
      rw [State.call] at h
      split at h
      · next h0 =>
        cases h
        exact .inr (.inr (.inr (.inr ⟨k, rest, rfl, h0, rfl⟩)))
      · cases h
  | yield | sleep lk b | sched | exit w =>
    cases hc : s.cur c with
    | sched c₁ =>
      simp only [State.call, hc] at h
      cases h
    | proc t =>
      simp only [State.call, hc] at h
      cases h
      exact .inl ⟨_, by simp [Fresh, yield, sleep, sched, exit, acquire, release, myproc], rfl⟩

/-! ## Where a `restore` stands -/

/-- A `restore` is the first thing that a suspended function does. -/
def Plain (s : State C T L) : Prop := ∀ x, ∀ k ∈ s.stack x, Fresh k.tail

omit [DecidableEq L] in
theorem Plain.setStack {st : List (List (Instr T L))} (h : Plain s) (hst : ∀ k ∈ st, Fresh k.tail) :
    Plain (s.setStack c st) := by
  intro x k hk
  by_cases hx : x = s.cur c
  · have hself : (s.setStack c st).stack x = st := by
      rw [hx]
      exact update_self ..
    rw [hself] at hk
    exact hst k hk
  · have hne : (s.setStack c st).stack x = s.stack x := update_of_ne hx _ _
    rw [hne] at hk
    exact h x k hk

theorem Fresh.tail (h : Fresh k) : Fresh k.tail := fun b hb => h b (List.mem_of_mem_tail hb)

theorem Plain.exec (h : Plain s) (hs : s.stack (s.cur c) = (i :: k) :: rest) (he : s.exec c k rest i = some s') :
    Plain s' := by
  have hk : Fresh k := h (s.cur c) (i :: k) (by rw [hs]; exact List.mem_cons_self)
  have hrest : ∀ k' ∈ rest, Fresh k'.tail := fun k' hk' =>
    h (s.cur c) k' (by rw [hs]; exact List.mem_cons_of_mem _ hk')
  have hnew : ∀ k₁, Fresh k₁.tail → Plain (s.setStack c (k₁ :: rest)) := by
    intro k₁ hk₁
    refine h.setStack fun k' hk' => ?_
    rcases List.mem_cons.mp hk' with rfl | hk'
    · exact hk₁
    · exact hrest k' hk'
  rcases exec_inv he with ⟨msg, rfl⟩ | ⟨-, -, hst⟩ | ⟨-, -, -, -, hst⟩ | ⟨t, -, -, -, hst⟩
  · exact h
  · intro x
    rw [hst]
    exact hnew k hk.tail x
  · intro x
    rw [hst]
    exact hnew (.restore (s.cpu c).intena :: k) hk x
  · intro x
    rw [hst]
    exact hnew k hk.tail x

theorem fresh_forkret (t : T) : Fresh (forkret t : List (Instr T L)) := by simp [Fresh, forkret, release, myproc]

theorem Plain.step {a : C × Act T L} (h : Plain s) (he : Spin.step s a = some s') : Plain s' := by
  obtain ⟨c, a⟩ := a
  have hmem : ∀ k' ∈ s.stack (s.cur c), Fresh k'.tail := h (s.cur c)
  rcases step_inv he with ⟨i, k, rest, hs, hx⟩ | ⟨op, rest, hs, -, hx⟩ | ⟨k, rest, hs, -, rfl⟩
  · exact h.exec hs hx
  · rw [hs] at hmem
    rcases call_inv hx with ⟨k, hk, rfl⟩ | ⟨t, st, rfl⟩ | ⟨t, -, -, rfl⟩ | ⟨b, -, rfl⟩ | ⟨k, rest', rfl, -, rfl⟩
    · refine h.setStack fun k' hk' => ?_
      rcases List.mem_cons.mp hk' with rfl | hk'
      · exact hk.tail
      · exact hmem k' (List.mem_cons_of_mem _ hk')
    · exact h
    · intro x k' hk'
      by_cases hxt : x = .proc t
      · rw [hxt] at hk'
        dsimp only at hk'
        rw [update_self, List.mem_singleton] at hk'
        rw [hk']
        exact (fresh_forkret t).tail
      · dsimp only at hk'
        rw [update_of_ne hxt] at hk'
        exact h x k' hk'
    · exact h
    · exact h.setStack fun k' hk' => hmem k' (List.mem_cons_of_mem _ hk')
  · rw [hs] at hmem
    refine h.setStack fun k' hk' => ?_
    rcases List.mem_cons.mp hk' with rfl | hk'
    · exact fun _ hb => nomatch hb
    · exact hmem k' hk'

theorem Plain.boot (init : T) : Plain (State.boot init : State C T L) := by
  intro x k hk
  cases x with
  | sched c =>
    obtain rfl := List.mem_singleton.mp hk
    exact fun _ hb => nomatch hb
  | proc t =>
    obtain rfl := List.mem_singleton.mp hk
    exact (fresh_forkret t).tail

/-! ## The interrupt state of a thread -/

/-- What `intena` will be when the thread runs its own instructions again. -/
def saved : List (List (Instr T L)) → Bool → Bool
  | (.restore b :: _) :: _, _ => b
  | _, intena => intena

/-- The interrupt state of the thread that CPU `c` runs. -/
def State.enabled (s : State C T L) (c : C) : Bool :=
  if (s.cpu c).noff = 0 then (s.cpu c).sie else saved (s.stack (s.cur c)) (s.cpu c).intena

theorem saved_fresh {b : Bool} (h : Fresh k) : saved (k :: rest) b = b := by
  match k, h with
  | [], _ | .pushOff :: _, _ | .popOff :: _, _ | .check _ :: _, _ | .take _ :: _, _ | .drop _ :: _, _ | .setState _ :: _, _
  | .sched :: _, _ | .test _ :: _, _ | .panic _ :: _, _ => rfl
  | .restore b' :: _, h => exact absurd List.mem_cons_self (h b')

theorem enabled_eq {x : Cpu} (hcpu : s.cpu c = x) {b : Bool} (hb : saved (s.stack (s.cur c)) x.intena = b) :
    s.enabled c = if x.noff = 0 then x.sie else b := by rw [State.enabled, hcpu, hb]

/-- A scheduler tests a process whose lock it holds. -/
theorem Inv.test (h : Inv s) (hs : s.stack (s.cur c) = (.test t :: k) :: rest) :
    (∃ c', s.cur c = .sched c') ∧ s.lock (.proc t) = some c := by
  obtain ⟨p, H, k', rest', ht, hH, -⟩ := h.cpu c
  have hstack := ht.stack
  rw [hs] at hstack
  cases hstack
  obtain ⟨-, hmem, hc, -⟩ := ht.ok
  exact ⟨hc, hH hmem⟩

theorem enabled_exec (h : Inv s) (hp : Plain s) (hs : s.stack (s.cur c) = (i :: k) :: rest)
    (he : s.exec c k rest i = some s') (hc : s.cur c = .proc t) (hc' : s'.cur c = .proc t) :
    s'.enabled c = s.enabled c := by
  obtain ⟨p, H, k', rest', ht, -, hcount⟩ := h.cpu c
  have hstack := ht.stack
  rw [hs] at hstack
  cases hstack
  have hk : Fresh k := hp (s.cur c) (i :: k) (by rw [hs]; exact List.mem_cons_self)
  rcases exec_inv he with ⟨msg, rfl⟩ | ⟨hcur, hcpu, hst⟩ | ⟨-, -, hcur, -, -⟩ | ⟨t', rfl, -, -, -⟩
  · exact enabled_eq (setCpu_self s c _) rfl
  · have hafter : s'.enabled c = if (i.onCpu (s.cpu c)).noff = 0 then (i.onCpu (s.cpu c)).sie
        else (i.onCpu (s.cpu c)).intena := by
      refine enabled_eq (by rw [hcpu, update_self]) ?_
      rw [hst, hcur, update_self]
      exact saved_fresh hk
    rw [hafter, State.enabled, hs]
    cases i with
    | pushOff =>
      show (if (s.cpu c).noff + 1 = 0 then _ else _) = _
      rfl
    | popOff =>
      obtain rfl : p = true := ht.ok.1
      have hpos : (s.cpu c).noff ≠ 0 := by
        rw [hcount.noff]
        exact Nat.succ_ne_zero _
      show (if (s.cpu c).popOff.noff = 0 then (s.cpu c).popOff.sie else (s.cpu c).popOff.intena) = _
      rw [hcount.popOff, if_neg hpos]
      show (if (s.cpu c).noff - 1 = 0 then decide ((s.cpu c).noff - 1 = 0) && (s.cpu c).intena else (s.cpu c).intena) =
        (s.cpu c).intena
      split
      · next h0 => simp [h0]
      · rfl
    | restore b => rfl
    | _ => rfl
  · rw [hcur, update_self] at hc'
    cases hc'
  · obtain ⟨⟨c₁, hc₁⟩, -⟩ := h.test hs
    rw [hc₁] at hc
    cases hc

/-- A thread that holds a lock before or after a step keeps its interrupt state. -/
theorem enabled_step (h : Inv s) (hp : Plain s) (he : step s (c, a) = some s') (hc : s.cur c = .proc t)
    (hc' : s'.cur c = .proc t) (hn : 0 < (s.cpu c).noff ∨ 0 < (s'.cpu c).noff) : s'.enabled c = s.enabled c := by
  obtain ⟨p, H, k₁, rest₁, -, -, hcount⟩ := h.cpu c
  rcases step_inv he with ⟨i, k, rest, hs, hx⟩ | ⟨op, rest, hs, rfl, hx⟩ | ⟨k, rest, hs, hsie, rfl⟩
  · exact enabled_exec h hp hs hx hc hc'
  · rcases call_inv hx with ⟨k, hk, rfl⟩ | ⟨t', st, rfl⟩ | ⟨t', -, hne, rfl⟩ | ⟨b, hb, rfl⟩ | ⟨k, rest', rfl, h0, rfl⟩
    · refine enabled_eq rfl ?_
      show saved (update s.stack (s.cur c) (k :: rest) (s.cur c)) (s.cpu c).intena = _
      rw [update_self, hs]
      exact saved_fresh hk
    · rfl
    · refine enabled_eq rfl ?_
      show saved (update s.stack (.proc t') [forkret t'] (s.cur c)) _ = _
      rw [update_of_ne hne]
    · have hpos : (s.cpu c).noff ≠ 0 := by
        rcases hn with hn | hn
        · exact hn.ne'
        · rw [setCpu_self] at hn
          exact hn.ne'
      refine (enabled_eq (setCpu_self s c fun x => { x with sie := b }) rfl).trans ?_
      show (if (s.cpu c).noff = 0 then b else _) = _
      rw [if_neg hpos, State.enabled, if_neg hpos]
      rfl
    · rcases hn with hn | hn
      · omega
      · have hn' : 0 < ((s.setCpu c fun x => { x with sie := true }).cpu c).noff := hn
        rw [setCpu_self] at hn'
        exact absurd h0 hn'.ne'
  · have h0 : (s.cpu c).noff = 0 := by
      by_contra hne
      rw [hcount.off (Nat.pos_of_ne_zero hne)] at hsie
      cases hsie
    rcases hn with hn | hn
    · omega
    · have hn' : 0 < ((s.setCpu c fun x => { x with sie := false }).cpu c).noff := hn
      rw [setCpu_self] at hn'
      exact absurd h0 hn'.ne'

/-- A thread that gives its CPU up goes on with a `restore` of its interrupt state. -/
theorem suspended_step (h : Inv s) (he : step s (c, a) = some s') (hc : s.cur c = .proc t) (hc' : s'.cur c ≠ .proc t) :
    ∃ k rest, s'.stack (.proc t) = (.restore (s.enabled c) :: k) :: rest := by
  have hsame : s'.cur ≠ s.cur := fun h => hc' (h ▸ hc)
  rcases step_inv he with ⟨i, k, rest, hs, hx⟩ | ⟨op, rest, hs, rfl, hx⟩ | ⟨k, rest, hs, hsie, rfl⟩
  · rcases exec_inv hx with ⟨msg, rfl⟩ | ⟨hcur, -, -⟩ | ⟨h1, rfl, -, -, hst⟩ | ⟨t', rfl, -, -, -⟩
    · exact absurd rfl hsame
    · exact absurd hcur hsame
    · have hb : s.enabled c = (s.cpu c).intena := by
        rw [State.enabled, h1, if_neg (by decide), hs]
        rfl
      exact ⟨k, rest, by rw [hb, ← hc, hst, update_self]⟩
    · obtain ⟨⟨c₁, hc₁⟩, -⟩ := h.test hs
      rw [hc₁] at hc
      cases hc
  · rcases call_inv hx with ⟨k, hk, rfl⟩ | ⟨t', st, rfl⟩ | ⟨t', -, hne, rfl⟩ | ⟨b, hb, rfl⟩ | ⟨k, rest', rfl, h0, rfl⟩
    all_goals exact absurd rfl hsame
  · exact absurd rfl hsame

/-- A step of CPU `c` leaves the other CPUs alone. -/
theorem step_other {c' : C} (he : step s (c, a) = some s') (hc' : c' ≠ c) :
    s'.cur c' = s.cur c' ∧ s'.cpu c' = s.cpu c' := by
  rcases step_inv he with ⟨i, k, rest, -, hx⟩ | ⟨op, rest, -, -, hx⟩ | ⟨k, rest, -, -, rfl⟩
  · rcases exec_inv hx with ⟨msg, rfl⟩ | ⟨hcur, hcpu, -⟩ | ⟨-, -, hcur, hcpu, -⟩ | ⟨t', -, hcur, hcpu, -⟩
    · exact ⟨rfl, setCpu_ne s _ c' hc'⟩
    · exact ⟨by rw [hcur], by rw [hcpu, update_of_ne hc']⟩
    · exact ⟨by rw [hcur, update_of_ne hc'], by rw [hcpu]⟩
    · exact ⟨by rw [hcur, update_of_ne hc'], by rw [hcpu]⟩
  · rcases call_inv hx with ⟨k, -, rfl⟩ | ⟨t', st, rfl⟩ | ⟨t', -, -, rfl⟩ | ⟨b, -, rfl⟩ | ⟨k, rest', -, -, rfl⟩
    · exact ⟨rfl, rfl⟩
    · exact ⟨rfl, rfl⟩
    · exact ⟨rfl, rfl⟩
    · exact ⟨rfl, setCpu_ne s _ c' hc'⟩
    · exact ⟨rfl, setCpu_ne s (fun x => { x with sie := true }) c' hc'⟩
  · exact ⟨rfl, setCpu_ne s (fun x => { x with sie := false }) c' hc'⟩

/-- A step of CPU `c` leaves the code of a thread that it does not run. -/
theorem step_stack (he : step s (c, a) = some s') (hc : s.cur c ≠ .proc t) (ha : a ≠ .call (.spawn t)) :
    s'.stack (.proc t) = s.stack (.proc t) := by
  have hne : ∀ st, update s.stack (s.cur c) st (.proc t) = s.stack (.proc t) := fun st => update_of_ne (Ne.symm hc) _ _
  rcases step_inv he with ⟨i, k, rest, -, hx⟩ | ⟨op, rest, -, rfl, hx⟩ | ⟨k, rest, -, -, rfl⟩
  · rcases exec_inv hx with ⟨msg, rfl⟩ | ⟨-, -, hst⟩ | ⟨-, -, -, -, hst⟩ | ⟨t', -, -, -, hst⟩
    · rfl
    · rw [hst, hne]
    · rw [hst, hne]
    · rw [hst, hne]
  · rcases call_inv hx with ⟨k, -, rfl⟩ | ⟨t', st, rfl⟩ | ⟨t', rfl, -, rfl⟩ | ⟨b, -, rfl⟩ | ⟨k, rest', -, -, rfl⟩
    · exact hne _
    · rfl
    · have hne' : t ≠ t' := by
        rintro rfl
        exact ha rfl
      exact update_of_ne (fun he => hne' (Tid.proc.inj he)) _ _
    · rfl
    · exact hne _
  · exact hne _

/-- A process comes to run on a CPU that holds its lock. -/
theorem dispatch_step (h : Inv s) (he : step s (c, a) = some s') (hc : s.cur c ≠ .proc t)
    (hc' : s'.cur c = .proc t) : s'.cpu c = s.cpu c ∧ s.lock (.proc t) = some c := by
  have hsame : s'.cur ≠ s.cur := fun h => hc (h ▸ hc')
  rcases step_inv he with ⟨i, k, rest, hs, hx⟩ | ⟨op, rest, -, rfl, hx⟩ | ⟨k, rest, -, -, rfl⟩
  · rcases exec_inv hx with ⟨msg, rfl⟩ | ⟨hcur, -, -⟩ | ⟨-, -, hcur, -, -⟩ | ⟨t', rfl, hcur, hcpu, -⟩
    · exact absurd rfl hsame
    · exact absurd hcur hsame
    · rw [hcur, update_self] at hc'
      cases hc'
    · rw [hcur, update_self] at hc'
      cases hc'
      exact ⟨by rw [hcpu], (h.test hs).2⟩
  · rcases call_inv hx with ⟨k, hk, rfl⟩ | ⟨t', st, rfl⟩ | ⟨t', -, hne, rfl⟩ | ⟨b, hb, rfl⟩ | ⟨k, rest', rfl, h0, rfl⟩
    all_goals exact absurd rfl hsame
  · exact absurd rfl hsame

/-! ## Runs -/

/-- The interrupt state of process `t` is `b`. -/
structure Saved (s : State C T L) (t : T) (b : Bool) : Prop where
  running : ∀ c, s.cur c = .proc t → s.enabled c = b
  asleep : (∀ c, s.cur c ≠ .proc t) → ∃ k rest, s.stack (.proc t) = (.restore b :: k) :: rest

/-- A step with a lock held before or after it keeps the interrupt state of a process. -/
theorem Saved.step {b : Bool} (h : Saved s t b) (hi : Inv s) (hp : Plain s) (he : Spin.step s (c, a) = some s')
    (hn : s.cur c = .proc t → s'.cur c = .proc t → 0 < (s.cpu c).noff ∨ 0 < (s'.cpu c).noff)
    (ha : s.cur c ≠ .proc t → a ≠ .call (.spawn t)) : Saved s' t b := by
  by_cases hc : s.cur c = .proc t
  · have hb := h.running c hc
    have hother : ∀ c', c' ≠ c → s'.cur c' ≠ .proc t := by
      intro c' hc' hrun
      rw [(step_other he hc').1] at hrun
      exact hi.cur_ne hc' (hrun.trans hc.symm)
    refine ⟨fun c' hrun => ?_, fun hasleep => ?_⟩
    · by_cases hcc : c' = c
      · rw [hcc] at hrun ⊢
        rw [enabled_step hi hp he hc hrun (hn hc hrun), hb]
      · exact absurd hrun (hother c' hcc)
    · rw [← hb]
      exact suspended_step hi he hc (hasleep c)
  · have hstack := step_stack he hc (ha hc)
    refine ⟨fun c' hrun => ?_, fun hasleep => ?_⟩
    · by_cases hcc : c' = c
      · -- the process was suspended, and its lock is held
        rw [hcc] at hrun ⊢
        obtain ⟨hcpu, hl⟩ := dispatch_step hi he hc hrun
        have hidle : ∀ c₁, s.cur c₁ ≠ .proc t := by
          intro c₁ hc₁
          by_cases hcc₁ : c₁ = c
          · exact hc (hcc₁ ▸ hc₁)
          · have h1 := (step_other he hcc₁).1.trans hc₁
            exact hcc₁ ((hi.step he).one c₁ c t h1 hrun)
        obtain ⟨k, rest, hk⟩ := h.asleep hidle
        obtain ⟨p, H, -, -, -, -, hcount⟩ := hi.cpu c
        have hpos : (s.cpu c).noff ≠ 0 := by
          intro h0
          have hmem : Lock.proc t ∈ s.held c := hl
          rw [(hcount.zero h0).1] at hmem
          exact hmem
        rw [State.enabled, hcpu, if_neg hpos, hrun, hstack, hk]
        rfl
      · obtain ⟨hcur, hcpu⟩ := step_other he hcc
        rw [hcur] at hrun
        rw [← h.running c' hrun, State.enabled, State.enabled, hcpu, hcur, hrun, hstack]
    · have hidle : ∀ c₁, s.cur c₁ ≠ .proc t := by
        intro c₁ hc₁
        by_cases hcc₁ : c₁ = c
        · exact hc (hcc₁ ▸ hc₁)
        · exact hasleep c₁ ((step_other he hcc₁).1.trans hc₁)
      rw [hstack]
      exact h.asleep hidle

/-- A step from a state in which process `t` holds a lock or is suspended; the process does not become another one. -/
def Busy (t : T) (s : State C T L) (a : C × Act T L) : Prop := (∀ c, ¬ s.Free t c) ∧ a.2 ≠ .call (.spawn t)

instance [Fintype T] [Fintype L] (s : State C T L) (t : T) (c : C) : Decidable (s.Free t c) :=
  have hheld : s.held c = ∅ ↔ (∀ t, s.lock (.proc t) ≠ some c) ∧ ∀ l, s.lock (.other l) ≠ some c := by
    rw [Set.eq_empty_iff_forall_notMem]
    constructor
    · exact fun h => ⟨fun t => h (.proc t), fun l => h (.other l)⟩
    · rintro ⟨h1, h2⟩ l
      cases l with
      | proc t => exact h1 t
      | other l => exact h2 l
  decidable_of_iff (s.cur c = .proc t ∧ ((∀ t, s.lock (.proc t) ≠ some c) ∧ ∀ l, s.lock (.other l) ≠ some c) ∧
    s.pending c = 0) (by rw [State.Free, hheld])

instance [Fintype C] [Fintype T] [Fintype L] (t : T) (s : State C T L) (a : C × Act T L) : Decidable (Busy t s a) :=
  inferInstanceAs (Decidable ((∀ c, ¬ s.Free t c) ∧ a.2 ≠ .call (.spawn t)))

theorem enabled_free (h : Inv s) (hf : s.Free t c) : s.enabled c = (s.cpu c).sie := by
  rw [State.enabled, if_pos ((h.free_iff c).mp hf).2]

/-- A run with `t` busy keeps its interrupt state. -/
theorem Saved.runs {b : Bool} (h : Saved s t b) (hi : Inv s) (hp : Plain s)
    (hr : Lib.Runs Spin.step (Busy t) s s') : Saved s' t b ∧ Inv s' ∧ Plain s' := by
  refine Lib.Runs.invariant (I := fun x => Saved x t b ∧ Inv x ∧ Plain x) hr ⟨h, hi, hp⟩ fun {s₁ s₂ a} hinv hg he => ?_
  obtain ⟨h1, h2, h3⟩ := hinv
  refine ⟨h1.step h2 h3 he (fun hc _ => .inl ?_) fun _ => hg.2, h2.step he, h3.step he⟩
  have hnot := hg.1 a.1
  rw [h2.free_iff] at hnot
  exact Nat.pos_of_ne_zero fun h0 => hnot ⟨hc, h0⟩

/-- **Interrupt state belongs to the thread**: interrupts are off while `noff` is positive, `noff` counts the locks of the CPU
and the pending `push_off`s, `pop_off` never panics, and a process that comes to hold no lock again, on whatever CPU, finds
interrupts as they were when it took the first one. -/
theorem interrupts_kept (h : Reachable s) : (∀ c, (0 < (s.cpu c).noff → (s.cpu c).sie = false) ∧
      (s.held c).Finite ∧ (s.cpu c).noff = (s.held c).ncard + s.pending c ∧
      (s.cpu c).panicked ≠ some "pop_off - interruptible" ∧ (s.cpu c).panicked ≠ some "pop_off") ∧
    ∀ t c a s₁ s₂ c', s.Free t c → step s (c, a) = some s₁ → (∀ c₁, ¬ s₁.Free t c₁) → Lib.Runs step (Busy t) s₁ s₂ →
      s₂.Free t c' → (s₂.cpu c').sie = (s.cpu c).sie := by
  have hi := h.inv
  have hp : Plain s := by
    obtain ⟨init, hruns⟩ := h
    exact hruns.invariant (Plain.boot init) fun hp _ he => hp.step he
  refine ⟨fun c => ?_, fun t c a s₁ s₂ c' hfree he hbusy hruns hend => ?_⟩
  · obtain ⟨p, H, k, rest, -, -, hcount⟩ := hi.cpu c
    exact ⟨hcount.off, hcount.fin, hi.noff c, hcount.calm.1, hcount.calm.2⟩
  -- the process leaves the free state with its interrupt state saved, and keeps it until it is free again
  have hstart : Saved s t (s.cpu c).sie := by
    refine ⟨fun c₁ hc₁ => ?_, fun hasleep => absurd hfree.1 (hasleep c)⟩
    rw [hi.one c₁ c t hc₁ hfree.1]
    exact enabled_free hi hfree
  have hleft : Saved s₁ t (s.cpu c).sie := by
    refine hstart.step hi hp he (fun _ hrun => .inr ?_) fun hne => absurd hfree.1 hne
    have hnot := hbusy c
    rw [(hi.step he).free_iff] at hnot
    exact Nat.pos_of_ne_zero fun h0 => hnot ⟨hrun, h0⟩
  obtain ⟨hsaved, hi₂, -⟩ := hleft.runs (hi.step he) (hp.step he) hruns
  rw [← enabled_free hi₂ hend]
  exact hsaved.running c' hend.1

/-- A process that runs with interrupts enabled yields on one CPU and is resumed on the other. -/
theorem interrupts_kept_yield : ∃ s s₂ : State (Fin 2) Unit Empty, s.Free () 0 ∧ s₂.Free () 1 ∧ (s.cpu 0).sie = true ∧
    (s.cpu 1).sie = false ∧ (s₂.cpu 1).sie = (s.cpu 0).sie := by
  let start : List (Fin 2 × Act Unit Empty) := (0, .call (.pick ())) :: List.replicate 8 (0, .run) ++
    [(0, .call .intrOn), (0, .call .yield), (0, .run), (0, .run)]
  let switch : List (Fin 2 × Act Unit Empty) := List.replicate 8 (0, .run) ++ (1, .call (.pick ())) :: List.replicate 7 (1, .run)
  let s : State (Fin 2) Unit Empty := (start.foldlM step (State.boot ())).get (by decide)
  let s₁ : State (Fin 2) Unit Empty := (step s (0, .run)).get (by decide)
  let s₂ : State (Fin 2) Unit Empty :=
    (switch.foldlM (fun s a => if Busy () s a then step s a else none) s₁).get (by decide)
  have hr : Reachable s := ⟨(), Lib.Runs.of_foldlM (fun _ _ _ => trivial) (Option.some_get _).symm⟩
  have hruns : Lib.Runs step (Busy ()) s₁ s₂ := Lib.Runs.of_guarded (Option.some_get _).symm
  have hfree : s.Free () 0 := by decide
  have hend : s₂.Free () 1 := by decide
  exact ⟨s, s₂, hfree, hend, by decide, by decide,
    (interrupts_kept hr).2 () 0 .run s₁ s₂ 1 hfree (Option.some_get _).symm (by decide) hruns hend⟩

end Xv6.Spin
