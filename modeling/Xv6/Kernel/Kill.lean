import Xv6.Kernel.Life

/-!
# Which process a kill hits

`kkill` compares `p->pid` only, a free slot has pid `0`, and `allocproc` leaves `p->killed` as it finds it.

- `slot_step`: what one step does to the state, the pid and the kill flag of one slot;
- `kills_are_aimed`: in a run in which no `kkill(0)` looks at an UNUSED slot, a kill flag was set during the lifetime of
  its process, by `setkilled` or by a `kkill` with its pid;
- `kill_zero_hits_unused`: a run in which `kkill(0)` marks a free slot, and the next process starts out killed.
-/

namespace Xv6

open State

variable {np nc : Nat} {S : System np}
variable {i : Fin np} {pid : BitVec 32} {s : State S nc}

/-! ## What a step does to one slot -/

/-- The effect of an access at `f` on the slot `q`. -/
inductive SlotStep (f : S.F) (q : Fin np) (a b : Proc np) : Prop
  /-- Pid and kill flag stay, and the slot stays free or stays in use. -/
  | same (hs : b.state = .unused ↔ a.state = .unused) (hp : b.pid = a.pid) (hk : b.killed = a.killed)
  | create (p : Fin np) (pid : BitVec 32) (hf : f = .kfork p (.setUsed q pid)) (ha : a.state = .unused)
      (hs : b.state = .used) (hp : b.pid = pid) (hk : b.killed = a.killed)
  | free (hs : b.state = .unused) (hp : b.pid = 0) (hk : b.killed = false)
  | kill (hf : f = .kkill a.pid (.test q)) (hb : b = { a with killed := true })
  | setkilled (hf : f = .setkilled q .set) (ha : a.state = .running) (hb : b = { a with killed := true })

section Slot

variable {κ : S.K} {f : S.F} {me : Option (Fin np)} {g : S.K → S.K} {k : S.K → S.F} {q : Fin np}

theorem SlotStep.refl (a : Proc np) : SlotStep f q a a := .same Iff.rfl rfl rfl

/-- A store to one slot. -/
theorem SlotStep.store {h : Proc np → Proc np} (hi : SlotStep f i (κ.procs i) (h (κ.procs i))) :
    SlotStep f q (κ.procs q) ((κ.setProc i h).procs q) := by
  by_cases hq : q = i
  · subst hq; rw [Kernel.setProc_same]; exact hi
  · rw [Kernel.setProc_ne _ _ hq]; exact .refl _

theorem SlotStep.entries {κ' : S.K} (h : Kernel.OnlyEntries κ κ') : SlotStep f q (κ.procs q) (κ'.procs q) :=
  .same (by rw [h.state q]) (h.pid q) (h.killed q)

/-- **Every access of the program text has one of these effects on a slot.** -/
theorem slot_of_upd (hi : instr S me f = .upd g k) (hm : Meets κ f)
    (ho : ∀ p, f.own = some p → (κ.procs p).state = .running) : SlotStep f q (κ.procs q) ((g κ).procs q) := by
  -- a store that takes a slot in use to another state of a slot in use
  have moves : ∀ {i : Fin np} {h : Proc np → Proc np}, (κ.procs i).state ≠ .unused → (h (κ.procs i)).state ≠ .unused →
      (h (κ.procs i)).pid = (κ.procs i).pid → (h (κ.procs i)).killed = (κ.procs i).killed →
      SlotStep f q (κ.procs q) ((κ.setProc i h).procs q) :=
    fun ha hb hp hk => .store (.same (iff_of_false hb ha) hp hk)
  have hst := stores_of_upd hi κ
  generalize g κ = κ' at hst ⊢
  cases hst with
  | data _ hp _ _ => rw [hp]; exact .refl _
  | nextpid | first | walk | miss => exact .refl _
  | enqueue p chan lk => exact .entries (Kernel.wqAddLocked_only _ _ _ _)
  | sleep p chan lk | exit p status | yield p => exact moves (by rw [ho p rfl]; simp) (by simp) rfl rfl
  | tidy | adopt | reparent => exact .store (.same Iff.rfl rfl rfl)
  | wake one chan e r next h => exact moves (by rw [h.1]; simp) (by simp) rfl rfl
  | unlink one chan e r next => exact .entries (Kernel.wqRemoveLocked_only _ _ _)
  | kill i => exact .store (.kill rfl rfl)
  | setkilled p => exact .store (.setkilled rfl (ho p rfl) rfl)
  | create p i pid => exact .store (.create p pid rfl (hm i .unused rfl) rfl rfl rfl)
  | ready p i pid => exact moves (by rw [hm i .used rfl]; simp) (by simp) rfl rfl
  | drop p i | reap p i pid => exact .store (.free rfl rfl rfl)

end Slot

/-- **What a step of the machine does to one slot.** -/
theorem slot_step {s' : State S nc} {c : Fin nc} (hb : Base s) (hf : Fires s c s') (q : Fin np) : s'.kern = s.kern ∨
      ∃ f rest, s.stk (s.cur c) = f :: rest ∧ SlotStep f q (s.kern.procs q) (s'.kern.procs q) := by
  cases hf with
  | @upd f rest g k hs hi =>
    have hu := updOk_of_upd hi s.kern
    exact .inr ⟨f, rest, hs, slot_of_upd hi (hb.meets_top hs) fun p hp => hb.own_running hs hu.calm hp⟩
  | @dispatch f rest p k hs hi =>
    obtain rfl : f = .scheduler (.run p) := by
      have := textOk (s.cpus c).proc f
      rw [hi] at this
      exact this.1
    have hr := hb.meets_top hs p .runnable rfl
    exact .inr ⟨_, rest, hs, .store (h := fun q => { q with state := .running }) (.same (by rw [hr]; simp) rfl rfl)⟩
  | _ => exact .inl rfl

/-- A free slot has pid `0`. -/
theorem Reachable.pid_unused (h : Reachable s) {q : Fin np}
    (hq : (s.kern.procs q).state = .unused) : (s.kern.procs q).pid = 0 := by
  revert q
  refine h.induct (P := fun s => ∀ {q : Fin np}, (s.kern.procs q).state = .unused → (s.kern.procs q).pid = 0) ?_ ?_
  · intro q hq
    simp only [boot] at hq ⊢
    split at hq
    · cases hq
    · next hn => rw [if_neg hn]; rfl
  · rintro s s' hr ih ⟨c, a, hst⟩ q hq
    rcases slot_step hr.base (fires_of_step hst).2 q with hk | ⟨f, rest, -, hsl⟩
    · rw [hk] at hq ⊢; exact ih hq
    · cases hsl with
      | same hs hp hk => rw [hp]; exact ih (hs.mp hq)
      | create p pid hf ha hs hp hk => rw [hs] at hq; cases hq
      | free hs hp hk => exact hp
      | kill hf hb | setkilled hf ha hb => rw [hb] at hq ⊢; exact ih hq

/-! ## What `kkill` has found -/

/-- The pid and the slot `kkill` has found. -/
def Frame.hit {L : Type} : Frame np L → Option (BitVec 32 × Fin np)
  | .kkill pid (.unlockAsleep i _) | .kkill pid (.callWakeup i _) | .kkill pid (.unlockHit i)
  | .kkill pid (.found i) => some (pid, i)
  | _ => none

/-- A point of `kkill`. -/
def Frame.isKkill {L : Type} : Frame np L → Bool
  | .kkill _ _ => true
  | _ => false

/-- Only `kkill` itself goes on to its later points. -/
theorem not_kkill_conts {me : Option (Fin np)} {κ : S.K} {n : Nat} {f f' : S.F} (hf : f.isKkill = false)
    (hm : f' ∈ (instr S me f).conts κ n) : f'.hit = none := by
  cases f' with
  | kkill pid pc =>
    rcases conts_fn _ hm with hn | hb | hs
    · cases hn
    · cases pc with
      | scan i => rfl
      | _ => cases hb
    · cases f with
      | kkill _ _ => cases hf
      | _ => cases hs
  | _ => rfl

/-- `kkill` finds a slot by its test. -/
theorem hit_conts {me : Option (Fin np)} {κ : S.K} {n : Nat} {f f' : S.F}
    (hm : f' ∈ (instr S me f).conts κ n) (hh : f'.hit = some (pid, i)) :
    f.hit = some (pid, i) ∨ f = .kkill pid (.test i) ∧ (κ.procs i).pid = pid := by
  cases f with
  | kkill pid' pc =>
    cases pc with
    | scan j =>
      simp only [instr, kkillText] at hm
      split at hm <;> (simp only [Instr.conts, List.mem_singleton] at hm; subst hm; cases hh)
    | test j =>
      simp only [instr, kkillText, Instr.conts, List.mem_singleton] at hm
      subst hm
      by_cases h : (κ.procs j).pid = pid'
      · simp only [if_pos h] at hh
        right
        split at hh <;> (cases hh; exact ⟨rfl, h⟩)
      · simp only [if_neg h] at hh
        cases hh
    | callWakeup j chan =>
      simp only [instr, kkillText, Instr.conts, List.mem_cons, List.not_mem_nil, or_false] at hm
      rcases hm with rfl | rfl
      · cases hh
      · exact .inl hh
    | found j => cases hm
    | unlockMiss j => cases List.mem_singleton.mp hm; cases hh
    | unlockAsleep j chan | unlockHit j => cases List.mem_singleton.mp hm; exact .inl hh
  | _ => exact absurd hh (by rw [not_kkill_conts rfl hm]; simp)

/-! ## Kills along an execution -/

/-- No `kkill(0)` is looking at an UNUSED slot. -/
def AimedKills (s : State S nc) : Prop :=
  ∀ c i rest, s.stk (s.cur c) = .kkill 0 (.test i) :: rest → (s.kern.procs i).state ≠ .unused

/-- Some CPU is about to set the kill flag of `q`: in `setkilled`, or in a `kkill` with the pid of `q`. -/
def KillsNow (s : State S nc) (q : Fin np) : Prop :=
  ∃ c rest, s.stk (s.cur c) = .setkilled q .set :: rest ∨
    s.stk (s.cur c) = .kkill (s.kern.procs q).pid (.test q) :: rest

/-- During the lifetime that the process in slot `q` has at time `n`, its kill flag has been set. -/
def KilledSince (σ : Nat → State S nc) (n : Nat) (q : Fin np) : Prop :=
  ∃ m < n, KillsNow (σ m) q ∧ ∀ l, m ≤ l → l ≤ n →
    ((σ l).kern.procs q).state ≠ .unused ∧ ((σ l).kern.procs q).pid = ((σ n).kern.procs q).pid

/-- A process is killed only by a kill aimed at it. -/
structure KillsAimed (σ : Nat → State S nc) : Prop where
  /-- `kkill(pid)` returns `0` only if it has found a slot in use with that pid. -/
  returned : ∀ n t pid i, .kkill pid (.found i) ∈ (σ n).stk t →
    ∃ m < n, ((σ m).kern.procs i).state ≠ .unused ∧ ((σ m).kern.procs i).pid = pid
  /-- `kkill` does not match a free slot, so it does not change it. -/
  spares : ∀ n c pid i rest, (σ n).stk ((σ n).cur c) = .kkill pid (.test i) :: rest →
    ((σ n).kern.procs i).state = .unused → ((σ n).kern.procs i).pid ≠ pid
  /-- A new process is not killed. -/
  created : ∀ n q, ((σ n).kern.procs q).state = .unused → ((σ (n + 1)).kern.procs q).state ≠ .unused →
    ((σ (n + 1)).kern.procs q).killed = false
  /-- The kill flag of a process was set during its lifetime. -/
  killed : ∀ n q, ((σ n).kern.procs q).killed = true → KilledSince σ n q

section Run

variable {σ : Nat → State S nc}

/-- A `kkill` that does not look at free slots with pid `0` does not match a free slot. -/
theorem AimedKills.spares (h : AimedKills s) (hr : Reachable s) {c : Fin nc}
    {rest : List S.F} (hs : s.stk (s.cur c) = .kkill pid (.test i) :: rest)
    (hi : (s.kern.procs i).state = .unused) : (s.kern.procs i).pid ≠ pid := by
  intro hp
  rw [hr.pid_unused hi] at hp
  subst hp
  exact h c i rest hs hi

/-- A process that has the kill flag got it during its lifetime. -/
theorem killed_has_cause (hσ : Exec σ) (hk : ∀ n, AimedKills (σ n)) (n : Nat) (q : Fin np)
    (hq : ((σ n).kern.procs q).killed = true) : KilledSince σ n q := by
  induction n with
  | zero =>
    rw [hσ.start] at hq
    simp only [boot] at hq
    split at hq <;> cases hq
  | succ n ih =>
    -- the flag was set before and the lifetime goes on, or it is set now
    have old : ((σ n).kern.procs q).killed = true →
        (((σ (n + 1)).kern.procs q).state = .unused ↔ ((σ n).kern.procs q).state = .unused) →
        ((σ (n + 1)).kern.procs q).pid = ((σ n).kern.procs q).pid → KilledSince σ (n + 1) q := by
      intro hq' hs hp
      obtain ⟨m, hm, hnow, hlife⟩ := ih hq'
      refine ⟨m, by omega, hnow, fun l h1 h2 => ?_⟩
      by_cases hl : l = n + 1
      · rw [hl]
        exact ⟨fun hx => (hlife n hm.le le_rfl).1 (hs.mp hx), rfl⟩
      · rw [hp]; exact hlife l h1 (by omega)
    have now : KillsNow (σ n) q → ((σ n).kern.procs q).state ≠ .unused →
        (σ (n + 1)).kern.procs q = { (σ n).kern.procs q with killed := true } → KilledSince σ (n + 1) q := by
      intro hnow hs he
      refine ⟨n, by omega, hnow, fun l h1 h2 => ?_⟩
      obtain rfl | rfl : l = n ∨ l = n + 1 := by omega
      · rw [he]; exact ⟨hs, rfl⟩
      · rw [he]; exact ⟨hs, rfl⟩
    rcases hσ.next n with he | ⟨c, a, hst⟩
    · rw [he] at hq
      exact old hq (by rw [he]) (by rw [he])
    · have hr := hσ.reachable n
      rcases slot_step hr.base (fires_of_step hst).2 q with hkern | ⟨f, rest, hs, hsl⟩
      · rw [hkern] at hq
        exact old hq (by rw [hkern]) (by rw [hkern])
      · cases hsl with
        | same hs hp hkd => exact old (hkd ▸ hq) hs hp
        | create p pid hf ha hs hp hkd =>
          obtain ⟨m, hm, -, hlife⟩ := ih (hkd ▸ hq)
          exact absurd ha (hlife n hm.le le_rfl).1
        | free hs hp hkd => rw [hkd] at hq; cases hq
        | kill hf hb =>
          subst hf
          exact now ⟨c, rest, .inr hs⟩ (fun hx => (hk n).spares hr hs hx rfl) hb
        | setkilled hf ha hb =>
          subst hf
          exact now ⟨c, rest, .inl hs⟩ (by rw [ha]; simp) hb

/-- A `kkill` that has found a slot found it in use, with the pid it looks for. -/
theorem hit_has_cause (hσ : Exec σ) (hk : ∀ n, AimedKills (σ n)) (n : Nat) {t : Tid np nc} {f : S.F}
    (hm : f ∈ (σ n).stk t) (hh : f.hit = some (pid, i)) :
    ∃ m < n, ((σ m).kern.procs i).state ≠ .unused ∧ ((σ m).kern.procs i).pid = pid := by
  induction n generalizing t f with
  | zero =>
    rw [hσ.start] at hm
    cases t <;> (simp only [boot, List.mem_singleton] at hm; subst hm; cases hh)
  | succ n ih =>
    have old : ∀ {t : Tid np nc} {f : S.F}, f ∈ (σ n).stk t → f.hit = some (pid, i) →
        ∃ m < n + 1, ((σ m).kern.procs i).state ≠ .unused ∧ ((σ m).kern.procs i).pid = pid := by
      intro t f hm hh
      obtain ⟨m, h1, h2⟩ := ih hm hh
      exact ⟨m, Nat.lt_succ_of_lt h1, h2⟩
    rcases hσ.next n with he | ⟨c, a, hst⟩
    · exact old (he ▸ hm) hh
    · rcases (fires_of_step hst).2.mem hm with hx | ⟨g, hg, v, rfl⟩ | ⟨q, rfl⟩ | ⟨p, b, rfl⟩ | ⟨irq, rfl⟩ |
          ⟨g, rest, k, hs, hx, -⟩
      · exact old hx hh
      · refine old hg ?_
        cases g with
        | kwait p pc => cases pc <;> cases hh
        | _ => exact hh
      · cases hh
      · cases hh
      · cases hh
      · rcases hit_conts hx hh with hg | ⟨rfl, hp⟩
        · exact old (by rw [hs]; exact List.mem_cons_self) hg
        · exact ⟨n, by omega, fun hu => (hk n).spares (hσ.reachable n) hs hu hp, hp⟩

/-- **A process is killed only by a kill aimed at it**, in an execution in which no `kkill(0)` looks at an UNUSED slot. -/
theorem kills_are_aimed (hσ : Exec σ) (hk : ∀ n, AimedKills (σ n)) : KillsAimed σ where
  returned n t pid i hm := hit_has_cause hσ hk n hm rfl
  spares n c pid i rest hs hi := (hk n).spares (hσ.reachable n) hs hi
  created n q hu hn := by
    by_contra hx
    obtain ⟨m, hm, -, hlife⟩ := killed_has_cause hσ hk (n + 1) q (by simpa using hx)
    exact (hlife n (by omega) (by omega)).1 hu
  killed n q hq := killed_has_cause hσ hk n q hq

end Run

/-- Process `0` creates a child and kills it. -/
def killChild : System 2 := tableSystem [.kfork 2, .kkill 2 0] 0 fun _ => false

def killChildRun : Nat → State killChild 1 := execOf killChild 1 (List.replicate 38 (0, .run 1))

set_option maxRecDepth 4000 in
/-- In that run the kill is aimed at the child. -/
theorem kills_are_aimed_child : KillsAimed killChildRun ∧ ((killChildRun 38).kern.procs 1).killed = true := by
  refine ⟨kills_are_aimed (exec_execOf _ _) (execOf_forall fun n hn c i rest h => ?_), rfl⟩
  obtain rfl : c = 0 := Subsingleton.elim _ _
  have hn : n ≤ 38 := hn
  interval_cases n <;> cases h

/-- Process `0` calls `kkill(0)` and creates a child. -/
def killZero : System 2 := tableSystem [.kkill 0 2, .kfork 0] 0 fun _ => false

def killZeroRun : Nat → State killZero 1 := execOf killZero 1 (List.replicate 38 (0, .run 1))

set_option maxRecDepth 4000 in
/-- **`kkill(0)` hits a free slot.** It sets the kill flag of the UNUSED slot `1`, whose pid is `0`, and returns `0`. The
child `kfork` then creates in that slot has pid `2`, and it is killed although nobody killed it. -/
theorem kill_zero_hits_unused :
    let s := fun n => (killZeroRun n).kern.procs 1
    Exec killZeroRun ∧ ((s 12).state = .unused ∧ (s 12).killed = false ∧
        (killZeroRun 12).stk (.proc 0) = [.kkill 0 (.test 1), .client (2 : Nat)]) ∧
      ((s 14).state = .unused ∧ (s 14).killed = true ∧
        (killZeroRun 14).stk (.proc 0) = [.kkill 0 (.found 1), .client (2 : Nat)]) ∧
      ((s 38).state = .runnable ∧ (s 38).pid = 2 ∧ (s 38).killed = true) ∧ ¬ KillsAimed killZeroRun := by
  refine ⟨exec_execOf _ _, ⟨rfl, rfl, rfl⟩, ⟨rfl, rfl, rfl⟩, ⟨rfl, rfl, rfl⟩, fun h => ?_⟩
  have := h.created 24 1 rfl (by intro hx; cases hx)
  cases this

end Xv6
