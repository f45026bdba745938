import Xv6.Kernel.Queue

/-!
# Processes inside `sleep`

`SleepOk` relates `p->chan` and the state of a process to where its thread is in `sleep`: between the store of the
channel and the tidy-up `p->chan` is the channel of the call, a process that left its CPU in `sleep` is SLEEPING or
RUNNABLE, and a SLEEPING process is in `sleep` (`sleeping_shape`).

A call of `sleep` is followed along a run by the records below it: `InSleep s p chan lk rest` says that the call with
`rest` below it has released `lk` and has not returned.

- `InSleep.step`: its program counter only moves forward;
- `Woken.step`: once it has been woken, it is not asleep in that call again.
-/

namespace Xv6

open State
open Function (update update_of_ne update_self)

variable {np nc : Nat} {S : System np}

/-! ## The channel of a sleeping process -/

/-- The channel the thread has set `p->chan` to. -/
def sleepChan (st : List S.F) : Option Chan := st.findSome? Frame.sleepsOn

@[simp] theorem sleepChan_cons (f : S.F) (st : List S.F) : sleepChan (f :: st) = f.sleepsOn.or (sleepChan st) := by
  simp only [sleepChan, List.findSome?_cons]
  cases f.sleepsOn <;> rfl

/-- Points with the channel set hold the lock of their process. -/
theorem held_of_sleepsOn {f : S.F} {chan : Chan} (h : f.sleepsOn = some chan) :
    ∃ p lk pc, f = .sleep p chan lk pc ∧ Lock.proc p ∈ f.held := by
  cases f with
  | sleep p chan' lk pc => cases pc <;> simp_all [Frame.sleepsOn, Frame.held]
  | _ => cases h

/-- Of the callers of `sched`, exactly `sleep` has the channel set. -/
theorem afterSched_sleeping {g : S.F} (h : g.afterSched ≠ none) :
    g.afterSched = some .sleeping ↔ g.sleepsOn ≠ none := by
  cases g with
  | sleep p chan lk pc => cases pc <;> simp_all [Frame.afterSched, Frame.sleepsOn]
  | yield p pc | kexit p status pc => cases pc <;> simp [Frame.afterSched, Frame.sleepsOn]
  | _ => exact absurd rfl h

theorem sleepChan_none_of_heldS {st : List S.F} (h : heldS st = []) : sleepChan st = none := by
  refine List.findSome?_eq_none_iff.mpr fun f hf => ?_
  cases hs : f.sleepsOn with
  | none => rfl
  | some chan =>
    obtain ⟨p, _, _, _, hl⟩ := held_of_sleepsOn hs
    have := mem_heldS hf hl
    rw [h] at this; cases this

/-- What a process does in `sleep`, and the state it is in. -/
structure SleepOk (s : State S nc) : Prop where
  chan : ∀ p chan, sleepChan (s.stk (.proc p)) = some chan → (s.kern.procs p).chan = chan
  parked : ∀ p, (∀ c, s.cur c ≠ .proc p) → sleepChan (s.stk (.proc p)) ≠ none →
    (s.kern.procs p).state = .sleeping ∨ (s.kern.procs p).state = .runnable
  asleep : ∀ p, (∀ c, s.cur c ≠ .proc p) → (s.kern.procs p).state = .sleeping → sleepChan (s.stk (.proc p)) ≠ none

theorem sleepOk_boot : SleepOk (boot S nc) := by
  refine ⟨fun p chan h => ?_, fun p _ h => ?_, fun p _ h => ?_⟩
  · cases h
  · exact absurd rfl h
  · simp only [boot] at h
    split at h <;> cases h

namespace SleepOk

variable {s s' : State S nc} {c : Fin nc} {f k : S.F} {rest : List S.F} {p : Fin np}

/-- A step that leaves channels and states alone, keeps the threads on their CPUs and does not enter or leave the
sleeping part of `sleep`. -/
theorem quiet (h : SleepOk s) (hk : ∀ p, (s'.kern.procs p).chan = (s.kern.procs p).chan ∧
      (s'.kern.procs p).state = (s.kern.procs p).state) (hcur : s'.cur = s.cur)
    (hstk : ∀ p, sleepChan (s'.stk (.proc p)) = sleepChan (s.stk (.proc p))) : SleepOk s' := by
  refine ⟨fun p chan hp => ?_, fun p hp hc => ?_, fun p hp hc => ?_⟩
  · rw [(hk p).1]; exact h.chan p chan (hstk p ▸ hp)
  · rw [(hk p).2]; exact h.parked p (hcur ▸ hp) (hstk p ▸ hc)
  · rw [hstk]; exact h.asleep p (hcur ▸ hp) ((hk p).2 ▸ hc)

/-- Replacing the stack of the running thread by one with the same channel. -/
theorem stk_same {st : List S.F} (hs : s.stk (s.cur c) = f :: rest) (hst : sleepChan st = sleepChan (f :: rest)) :
    ∀ p, sleepChan (update s.stk (s.cur c) st (.proc p)) = sleepChan (s.stk (.proc p)) := by
  intro p
  by_cases hp : Tid.proc p = s.cur c
  · rw [hp, update_self, hst, hs]
  · rw [update_of_ne hp]

/-- Below a record that holds the process lock nothing has the channel set. -/
theorem sleepChan_rest (hb : Base s) (hs : s.stk (s.cur c) = f :: rest) (hc : s.cur c = .proc p)
    (hl : Lock.proc p ∈ f.held) : sleepChan rest = none := by
  refine List.findSome?_eq_none_iff.mpr fun f' hf' => ?_
  cases hx : f'.sleepsOn with
  | none => rfl
  | some chan =>
    obtain ⟨q, lk, pc, rfl, hq⟩ := held_of_sleepsOn hx
    have := (hb.stk_top hs).own _ (List.mem_cons_of_mem _ hf') q rfl
    rw [hc] at this
    cases this
    exact absurd hq ((hb.no_other hs hl).1 _ hf')

section

variable (h : SleepOk s) (hb : Base s) (hs : s.stk (s.cur c) = f :: rest)
include h hb hs

theorem upd_step {g : S.K → S.K} {k : S.K → S.F} (hi : instr S (s.cpus c).proc f = .upd g k) :
    SleepOk { s.setStk c (k s.kern :: rest) with kern := g s.kern } := by
  have hu := updOk_of_upd hi s.kern
  have hm := hb.meets_top hs
  have hsame : (k s.kern).sleepsOn = f.sleepsOn →
      ∀ p, sleepChan (update s.stk (s.cur c) (k s.kern :: rest) (.proc p)) = sleepChan (s.stk (.proc p)) := by
    intro hk
    exact stk_same hs (by rw [sleepChan_cons, sleepChan_cons, hk])
  have hother : ∀ p, s.cur c ≠ .proc p → update s.stk (s.cur c) (k s.kern :: rest) (.proc p) = s.stk (.proc p) :=
    fun p hp => update_of_ne hp.symm _ _
  -- a parked sleeper keeps its state or becomes runnable
  have hparked : ∀ p, (∀ c, s.cur c ≠ .proc p) → sleepChan (s.stk (.proc p)) ≠ none →
      ((g s.kern).procs p).state = .sleeping ∨ ((g s.kern).procs p).state = .runnable := by
    intro p hp hc
    have hold := h.parked p hp hc
    rcases hu.moved hm p with hq | ⟨_, hmv⟩
    · rw [hq]; exact hold
    · cases hmv with
      | own ho _ => exact absurd (hb.own_cur hs ho) (hp c)
      | wake _ hb => exact .inr hb
      | known he ha _ =>
        rcases hold with hx | hx
        · exact absurd hx (expects_cases he).1.2
        · exact absurd hx ha
  cases effect_of_upd hi hm fun p hp => hb.own_running hs hu.calm hp with
  | plain hf hq hh he hst hc =>
    by_cases ht : ∃ p chan lk, f = .sleep p chan lk .tidy
    · obtain ⟨p, chan, lk, rfl⟩ := ht
      have hcur := hb.own_cur hs rfl
      have hrest : sleepChan rest = none := sleepChan_rest hb hs hcur (by simp [Frame.held])
      have hnone : sleepChan (k s.kern :: rest) = none := by
        cases hi
        rw [sleepChan_cons, hrest]; rfl
      refine ⟨fun q chan' hq' => ?_, fun q hq' hx => ?_, fun q hq' hx => ?_⟩
      · by_cases hqp : s.cur c = .proc q
        · simp only [setStk_stk, ← hqp, update_self, hnone] at hq'
          cases hq'
        · simp only [setStk_stk, hother q hqp] at hq'
          rcases hc q with hc | ⟨_, _, hc⟩
          · exact hc.trans (h.chan q chan' hq')
          · cases hc; exact absurd hcur hqp
      · simp only [setStk_stk, hother q (hq' c)] at hx
        exact hparked q hq' hx
      · simp only [setStk_stk, hother q (hq' c)]
        rcases hst q with ⟨h1, _⟩ | ⟨_, _, h2⟩
        · exact h.asleep q hq' (h1 ▸ hx)
        · exact absurd hx h2
    · have hk : (k s.kern).sleepsOn = f.sleepsOn := by
        rcases hu.sleeps with hk | ⟨p, chan, lk, rfl | rfl⟩
        · exact hk
        · exact absurd ⟨rfl, rfl⟩ (hf (wqHash chan) p)
        · exact absurd ⟨p, chan, lk, rfl⟩ ht
      refine ⟨fun q chan' hq' => ?_, fun q hq' hx => ?_, fun q hq' hx => ?_⟩
      · simp only [setStk_stk, hsame hk] at hq'
        rcases hc q with hc | ⟨chan, lk, hc⟩
        · exact hc.trans (h.chan q chan' hq')
        · exact absurd ⟨q, chan, lk, hc⟩ ht
      · simp only [setStk_stk, hsame hk] at hx
        exact hparked q hq' hx
      · simp only [setStk_stk, hsame hk]
        rcases hst q with ⟨h1, _⟩ | ⟨_, _, h2⟩
        · exact h.asleep q hq' (h1 ▸ hx)
        · exact absurd hx h2
  | add p chan lk hf hk =>
    subst hf
    cases hi
    exact h.quiet (fun q => ⟨(Kernel.wqAddLocked_only _ _ _ _).chan q, (Kernel.wqAddLocked_only _ _ _ _).state q⟩) rfl (hsame rfl)
  | sleep p chan lk hf hk =>
    subst hf
    cases hi
    have hcur := hb.own_cur hs rfl
    have hne : ∀ q, q ≠ p → ((s.kern.setProc p fun q => { q with chan := chan, state := .sleeping }).procs q) = s.kern.procs q :=
      fun q hq => Kernel.setProc_ne _ _ hq
    refine ⟨fun q chan' hq' => ?_, fun q hq' hx => ?_, fun q hq' hx => ?_⟩
    · by_cases hqp : q = p
      · subst hqp
        simp only [setStk_stk, ← hcur, update_self, sleepChan_cons, Frame.sleepsOn] at hq'
        simpa using hq'
      · simp only [setStk_stk, hother q (by rw [hcur]; simpa using Ne.symm hqp)] at hq'
        simp only [hne q hqp]
        exact h.chan q chan' hq'
    · have hqp : q ≠ p := fun e => hq' c (e ▸ hcur)
      simp only [setStk_stk, hother q (hq' c)] at hx
      simp only [hne q hqp]
      exact h.parked q hq' hx
    · have hqp : q ≠ p := fun e => hq' c (e ▸ hcur)
      simp only [hne q hqp] at hx
      simp only [setStk_stk, hother q (hq' c)]
      exact h.asleep q hq' hx
  | wake one chan e q next hf hw hk =>
    subst hf
    have hks : (k s.kern).sleepsOn = none := by
      cases hi
      simp only [if_pos hw]
      rfl
    have hchan : ∀ r, ((g s.kern).procs r).chan = (s.kern.procs r).chan := by
      intro r
      rw [hk]
      by_cases hr : r = q
      · subst hr; simp
      · rw [Kernel.setProc_ne _ _ hr]
    refine ⟨fun r chan' hr => ?_, fun r hr hx => ?_, fun r hr hx => ?_⟩
    · simp only [setStk_stk, hsame hks] at hr
      exact (hchan r).trans (h.chan r chan' hr)
    · simp only [setStk_stk, hsame hks] at hx
      exact hparked r hr hx
    · simp only [setStk_stk, hsame hks]
      have hrq : r ≠ q := by
        rintro rfl
        simp [hk] at hx
      simp only [hk, Kernel.setProc_ne _ _ hrq] at hx
      exact h.asleep r hr hx
  | remove one chan e q next hf hk =>
    subst hf
    cases hi
    exact h.quiet (fun r => ⟨(Kernel.wqRemoveLocked_only _ _ _).chan r, (Kernel.wqRemoveLocked_only _ _ _).state r⟩) rfl
      (hsame rfl)
  | free i hq hl he hk =>
    obtain ⟨st, he, hst⟩ := he
    have hnot := hb.known_parked hs hu.calm he hl
    have hstate := hm i st he
    have hnone : sleepChan (s.stk (.proc i)) = none := by
      by_contra hx
      rcases h.parked i hnot hx with hy | hy
      · exact (expects_cases he).1.2 (hstate.symm.trans hy)
      · exact hst (hstate.symm.trans hy)
    have hks : (k s.kern).sleepsOn = f.sleepsOn := by
      rcases hu.sleeps with hk | ⟨p, chan, lk, rfl | rfl⟩
      · exact hk
      · cases hq
      · cases hq
    have hne : ∀ q, q ≠ i → (g s.kern).procs q = s.kern.procs q := fun q hq => by rw [hk, Kernel.setProc_ne _ _ hq]
    refine ⟨fun q chan' hq' => ?_, fun q hq' hx => ?_, fun q hq' hx => ?_⟩
    · simp only [setStk_stk, hsame hks] at hq'
      have hqi : q ≠ i := by
        rintro rfl
        rw [hnone] at hq'; cases hq'
      simp only [hne q hqi]
      exact h.chan q chan' hq'
    · simp only [setStk_stk, hsame hks] at hx
      exact hparked q hq' hx
    · simp only [setStk_stk, hsame hks]
      have hqi : q ≠ i := by
        rintro rfl
        rw [hk, Kernel.setProc_same] at hx; cases hx
      simp only [hne q hqi] at hx
      exact h.asleep q hq' hx

theorem sched_step
    (hi : instr S (s.cpus c).proc f = .sched p) (hn : (s.cpus c).noff = 1) (hp : (s.cpus c).panicked = none) :
    SleepOk { s.setStk c (.sched p (.back (s.cpus c).intena) :: rest) with cur := update s.cur c (.cpu c) } := by
  obtain rfl : f = .sched p .enter := textOk_of hi
  obtain ⟨g, rest, rfl, hg, ha, hrest⟩ := hb.sched_caller hs hn hp
  have hcur := hb.own_cur hs rfl
  have hsame : ∀ q, sleepChan (update s.stk (s.cur c) (.sched p (.back (s.cpus c).intena) :: g :: rest)
      (.proc q)) = sleepChan (s.stk (.proc q)) := stk_same hs rfl
  have hrun := hb.run c p hcur
  rw [← hcur, hs] at hrun
  have hpk : ∀ q, q ≠ p → (∀ c', update s.cur c (.cpu c) c' ≠ .proc q) → ∀ c', s.cur c' ≠ .proc q := by
    intro q hqp hq c' hc'
    by_cases hcc : c' = c
    · rw [hcc, hcur] at hc'
      exact hqp (Tid.proc.inj hc').symm
    · exact hq c' (by rwa [update_of_ne hcc])
  have hg' : (s.kern.procs p).state = .sleeping ↔ g.sleepsOn ≠ none := by
    rw [← afterSched_sleeping ha, show (s.kern.procs p).state = g.afterSched.getD .running from hrun]
    cases hx : g.afterSched with
    | none => exact absurd hx ha
    | some st => simp
  have hstk : sleepChan (s.stk (.proc p)) = g.sleepsOn := by
    rw [← hcur, hs, sleepChan_cons, sleepChan_cons, sleepChan_none_of_heldS hrest]
    cases g.sleepsOn <;> rfl
  refine ⟨fun q chan hq => ?_, fun q hq hx => ?_, fun q hq hx => ?_⟩
  · simp only [setStk_stk, hsame] at hq
    exact h.chan q chan hq
  · simp only [setStk_stk, hsame] at hx
    by_cases hqp : q = p
    · subst hqp
      rw [hstk] at hx
      exact .inl (hg'.mpr hx)
    · exact h.parked q (hpk q hqp hq) hx
  · simp only [setStk_stk, hsame]
    by_cases hqp : q = p
    · subst hqp
      rw [hstk]
      exact hg'.mp hx
    · exact h.asleep q (hpk q hqp hq) hx

theorem dispatch_step (hi : instr S (s.cpus c).proc f = .dispatch p k) :
    SleepOk { (s.setCpu c fun x => { x with proc := some p }).setStk c (k :: rest) with
      kern := s.kern.setProc p fun q => { q with state := .running }
      cur := update s.cur c (.proc p) } := by
  obtain ⟨rfl, rfl⟩ : f = .scheduler (.run p) ∧ k = .scheduler (.back p) := textOk_of hi
  obtain ⟨hc, _, _, _⟩ := hb.dispatch_parked hs
  have hsame : ∀ q, sleepChan (update s.stk (s.cur c) (.scheduler (.back p) :: rest) (.proc q)) =
      sleepChan (s.stk (.proc q)) := stk_same hs rfl
  have hne : ∀ q, (∀ c', update s.cur c (.proc p) c' ≠ .proc q) → q ≠ p ∧ ∀ c', s.cur c' ≠ .proc q := by
    intro q hq
    refine ⟨fun e => hq c (by rw [e, update_self]), fun c' hc' => ?_⟩
    by_cases hcc : c' = c
    · rw [hcc, hc] at hc'; cases hc'
    · exact hq c' (by rwa [update_of_ne hcc])
  refine ⟨fun q chan hq => ?_, fun q hq hx => ?_, fun q hq hx => ?_⟩
  · simp only [setStk_stk, setCpu_stk, setCpu_cur, hsame] at hq
    have := h.chan q chan hq
    by_cases hqp : q = p
    · subst hqp; simpa using this
    · simpa [Kernel.setProc_ne _ _ hqp] using this
  · simp only [setStk_stk, setCpu_stk, setCpu_cur, hsame] at hx
    obtain ⟨hqp, hq⟩ := hne q hq
    simp only [Kernel.setProc_ne _ _ hqp]
    exact h.parked q hq hx
  · simp only [setStk_stk, setCpu_stk, setCpu_cur, hsame]
    obtain ⟨hqp, hq⟩ := hne q hq
    simp only [Kernel.setProc_ne _ _ hqp] at hx
    exact h.asleep q hq hx

theorem spawn_step {q : Fin np} (hi : instr S (s.cpus c).proc f = .spawn q k) :
    SleepOk (State.setStk { s with stk := update s.stk (.proc q) [.forkret q] } c (k :: rest)) := by
  obtain ⟨⟨p, pid, rfl⟩, _, _, _, hg⟩ : TextOk (s.cpus c).proc f (.spawn q k) := textOk_of hi
  have hused : (s.kern.procs q).state = .used := hb.meets_top hs q .used rfl
  have hnot : s.cur c ≠ .proc q := fun e => (hb.run_ne e).2 hused
  have hstk : ∀ r, r ≠ q → sleepChan (update (update s.stk (.proc q) [.forkret q]) (s.cur c) (k :: rest)
      (.proc r)) = sleepChan (s.stk (.proc r)) := by
    intro r hr
    by_cases hrc : Tid.proc r = s.cur c
    · rw [hrc, update_self, hs, sleepChan_cons, sleepChan_cons, hg.sleeps]
    · rw [update_of_ne hrc, update_of_ne (by simpa using hr)]
  have hstk' : sleepChan (update (update s.stk (.proc q) [.forkret q]) (s.cur c) (k :: rest) (.proc q)) = none := by
    rw [update_of_ne hnot.symm, update_self]; rfl
  refine ⟨fun r chan hr => ?_, fun r hr hx => ?_, fun r hr hx => ?_⟩
  · simp only [setStk_stk] at hr
    by_cases hrq : r = q
    · rw [hrq, hstk'] at hr; cases hr
    · exact h.chan r chan (hstk r hrq ▸ hr)
  · simp only [setStk_stk] at hx
    by_cases hrq : r = q
    · rw [hrq, hstk'] at hx
      exact absurd rfl hx
    · exact h.parked r hr (hstk r hrq ▸ hx)
  · simp only [setStk_stk]
    have hrq : r ≠ q := by
      rintro rfl
      exact absurd (hused.symm.trans hx) (by decide)
    rw [hstk r hrq]
    exact h.asleep r hr hx

end

/-- **Every step keeps it.** -/
theorem step {a : Act} (h : SleepOk s) (hb : Base s) (hst : step s c a = some s') : SleepOk s' := by
  obtain ⟨hp, hf⟩ := fires_of_step hst
  have same : ∀ {f : S.F} {rest st}, s.stk (s.cur c) = f :: rest → sleepChan st = sleepChan (f :: rest) →
      s'.kern = s.kern → s'.cur = s.cur → s'.stk = update s.stk (s.cur c) st → SleepOk s' := by
    intro f rest st hs hst hk hcur hstk
    refine h.quiet (fun p => by rw [hk]; exact ⟨rfl, rfl⟩) hcur fun p => ?_
    rw [hstk]
    exact stk_same hs hst p
  cases hf with
  | upd hs hi => exact h.upd_step hb hs hi
  | sched hs hi hl hn hr hsie => exact h.sched_step hb hs hi hn hp
  | dispatch hs hi => exact h.dispatch_step hb hs hi
  | spawn hs hi => exact h.spawn_step hb hs hi
  | panic hx hp' => exact h.quiet (fun _ => ⟨rfl, rfl⟩) rfl fun _ => rfl
  | @acquire f rest l k hs hi hl =>
    have hok : TextOk _ f (.acquire l k) := textOk_of hi
    exact same hs (by rw [sleepChan_cons, sleepChan_cons, hok.2.2.2.sleeps]) rfl rfl rfl
  | @release f rest l k hs hi hl =>
    have hok : TextOk _ f (.release l k) := textOk_of hi
    exact same hs (by rw [sleepChan_cons, sleepChan_cons, hok.2.2.2.sleeps]) rfl rfl rfl
  | @call f rest callee k hs hi =>
    have hok : TextOk _ f (.call callee k) := textOk_of hi
    exact same hs (by rw [sleepChan_cons, sleepChan_cons, sleepChan_cons, hok.calleeSleeps, hok.toGoes.sleeps]; rfl)
      rfl rfl rfl
  | @ret f g rest v hs hi =>
    obtain ⟨_, _, _, _, hn⟩ : TextOk _ f (.ret v) := textOk_of hi
    obtain ⟨_, _, _, _, _, _, _, _, r9⟩ := resume_ok g v
    exact same hs (by rw [sleepChan_cons, sleepChan_cons, sleepChan_cons, hn, r9]; rfl) rfl rfl rfl
  | @choose f rest k n hs hi =>
    have hok : TextOk _ f (.choose k) := textOk_of hi
    exact same hs (by rw [sleepChan_cons, sleepChan_cons, (hok n).2.2.2.sleeps]) rfl rfl rfl
  | @cpu f rest g k hs hi =>
    have hok : TextOk _ f (.cpu g k) := textOk_of hi
    exact same hs (by rw [sleepChan_cons, sleepChan_cons, hok.2.2.2.1.sleeps]) rfl rfl rfl
  | @intrOn f rest k hs hi hn =>
    have hok : TextOk _ f (.intrOn k) := textOk_of hi
    exact same hs (by rw [sleepChan_cons, sleepChan_cons, hok.2.2.2.sleeps]) rfl rfl rfl
  | @sret f rest hs hi hn =>
    have hok : TextOk _ f .sret := textOk_of hi
    exact same hs (by rw [sleepChan_cons, hok.2.2.2]; rfl) rfl rfl rfl
  | @intr f rest irq hs hi =>
    exact same hs (show sleepChan (.kerneltrap (.devintr irq) :: f :: rest) = _ from rfl) rfl rfl rfl

end SleepOk

theorem Reachable.sleep {s : State S nc} (h : Reachable s) : SleepOk s :=
  Reachable.induct sleepOk_boot (fun _ _ hr hs ⟨_, _, hst⟩ => hs.step hr.base hst) h

/-- A SLEEPING process is in `sleep` on its channel: about to call `sched`, or in it. -/
theorem sleeping_shape {s : State S nc} (hb : Base s) (hk : SleepOk s) {p : Fin np}
    (hp : (s.kern.procs p).state = .sleeping) :
    ∃ lk rest, s.stk (.proc p) = .sleep p (s.kern.procs p).chan lk .unlockBucket :: rest ∨
      s.stk (.proc p) = .sleep p (s.kern.procs p).chan lk .callSched :: rest ∨
      ∃ pc, s.stk (.proc p) = .sched p pc :: .sleep p (s.kern.procs p).chan lk .tidy :: rest := by
  have hst := hb.stk (.proc p)
  -- the record of `sleep` belongs to the process, and to its channel once it is found
  have hown : ∀ q chan lk pc, .sleep q chan lk pc ∈ s.stk (.proc p) → q = p := fun q chan lk pc hm =>
    (Tid.proc.inj (hst.own _ hm q rfl)).symm
  have hafter : ∀ g : S.F, g.afterSched = some .sleeping → ∃ q chan lk, g = .sleep q chan lk .tidy := by
    intro g hg
    cases g with
    | sleep q chan lk pc => cases pc <;> first | exact ⟨q, chan, lk, rfl⟩ | cases hg
    | yield q pc => cases pc <;> cases hg
    | kexit q status pc => cases pc <;> cases hg
    | _ => cases hg
  by_cases hc : ∃ c, s.cur c = .proc p
  · obtain ⟨c, hc⟩ := hc
    have hr : restState (s.stk (.proc p)) = some .sleeping := by
      have hrun := hb.run c p hc
      rw [hp] at hrun
      cases hx : restState (s.stk (.proc p)) with
      | none => rw [hx] at hrun; cases hrun
      | some st => rw [hx] at hrun; exact congrArg some hrun.symm
    cases hs : s.stk (.proc p) with
    | nil => rw [hs] at hr; cases hr
    | cons f rest =>
      rw [hs] at hr hst hown
      by_cases he : f.isEnter = true
      · obtain ⟨q, rfl⟩ : ∃ q, f = .sched q .enter := by
          cases f with
          | sched q pc => cases pc <;> first | exact ⟨q, rfl⟩ | cases he
          | _ => cases he
        obtain rfl := Tid.proc.inj (hst.own _ List.mem_cons_self q rfl)
        obtain ⟨g, rest', rfl, _, _⟩ := hst.enter p rest rfl
        obtain ⟨q, chan, lk, rfl⟩ := hafter g hr
        obtain rfl := hown q chan lk .tidy (by simp)
        rw [hk.chan q chan (by rw [hs]; rfl)]
        exact ⟨lk, rest', .inr (.inr ⟨.enter, rfl⟩)⟩
      · rw [restState_top (by simpa using he)] at hr
        cases f with
        | sleep q chan lk pc =>
          obtain rfl := hown q chan lk pc (by simp)
          cases pc with
          | unlockBucket =>
            rw [hk.chan q chan (by rw [hs]; rfl)]
            exact ⟨lk, rest, .inl rfl⟩
          | callSched =>
            rw [hk.chan q chan (by rw [hs]; rfl)]
            exact ⟨lk, rest, .inr (.inl rfl)⟩
          | _ => cases hr
        | yield q pc | kexit q status pc => cases pc <;> cases hr
        | _ => cases hr
  · have hnot : ∀ c, s.cur c ≠ .proc p := fun c hx => hc ⟨c, hx⟩
    have hne := hk.asleep p hnot hp
    rcases hb.parked p hnot with hs | ⟨b, g, rest, hs, _, ha, hrest⟩
    · rw [hs] at hne
      exact absurd rfl hne
    · have hg : g.sleepsOn ≠ none := by
        rw [hs, sleepChan_cons, sleepChan_cons, sleepChan_none_of_heldS hrest] at hne
        intro hx
        rw [hx] at hne
        exact hne rfl
      obtain ⟨q, chan, lk, rfl⟩ := hafter g ((afterSched_sleeping ha).mpr hg)
      obtain rfl := hown q chan lk .tidy (by rw [hs]; simp)
      rw [hk.chan q chan (by rw [hs]; rfl)]
      exact ⟨lk, rest, .inr (.inr ⟨.back b, hs⟩)⟩

/-! ## Who falls asleep -/

/-- A process that is SLEEPING after a step was so before it, on the same channel, or has just put itself to sleep. -/
theorem Base.asleep_step {s s' : State S nc} {c : Fin nc} {p : Fin np} (hb : Base s) (hf : Fires s c s')
    (hp : (s'.kern.procs p).state = .sleeping) :
    (s.kern.procs p).state = .sleeping ∧ (s'.kern.procs p).chan = (s.kern.procs p).chan ∨
      ∃ lk rest, s.stk (s.cur c) = .sleep p (s'.kern.procs p).chan lk .setSleeping :: rest := by
  -- a store that puts nobody to sleep
  have hset : ∀ q h, ((h (s.kern.procs q)).state ≠ .sleeping) → ((s.kern.setProc q h).procs p).state = .sleeping →
      (s.kern.procs p).state = .sleeping ∧ ((s.kern.setProc q h).procs p).chan = (s.kern.procs p).chan := by
    intro q h hn hx
    by_cases hq : p = q
    · subst hq
      rw [Kernel.setProc_same] at hx
      exact absurd hx hn
    · rw [Kernel.setProc_ne _ _ hq] at hx ⊢
      exact ⟨hx, rfl⟩
  -- a store to the entries alone
  have hentries : ∀ κ' : S.K, Kernel.OnlyEntries s.kern κ' → (κ'.procs p).state = .sleeping →
      (s.kern.procs p).state = .sleeping ∧ (κ'.procs p).chan = (s.kern.procs p).chan :=
    fun κ' ho hx => ⟨ho.state p ▸ hx, ho.chan p⟩
  cases hf with
  | @upd f rest g k hs hi =>
    have hu := updOk_of_upd hi s.kern
    dsimp only
    cases effect_of_upd hi (hb.meets_top hs) fun p hp => hb.own_running hs hu.calm hp with
    | plain hf hq hh he hst hc =>
      rcases hst p with ⟨h1, h2⟩ | ⟨_, _, h3⟩
      · exact .inl ⟨h1 ▸ hp, h2⟩
      · exact absurd hp h3
    | add q chan lk hf hk => exact .inl (hentries _ (hk ▸ Kernel.wqAddLocked_only _ _ _ _) hp)
    | sleep q chan lk hf hk =>
      by_cases hq : p = q
      · subst hq
        refine .inr ⟨lk, rest, ?_⟩
        rw [hs, hf, hk, Kernel.setProc_same]
      · rw [hk, Kernel.setProc_ne _ _ hq] at hp ⊢
        exact .inl ⟨hp, rfl⟩
    | wake one chan e q next hf hs' hk =>
      rw [hk] at hp ⊢
      exact .inl (hset q _ (by simp) hp)
    | remove one chan e q next hf hk => exact .inl (hentries _ (hk ▸ Kernel.wqRemoveLocked_only _ _ _) hp)
    | free i hq hl he hk =>
      rw [hk] at hp ⊢
      exact .inl (hset i _ (by simp [freeproc]) hp)
  | @dispatch f rest q k hs hi => exact .inl (hset q (fun r => { r with state := .running }) (by simp) hp)
  | _ => exact .inl ⟨hp, rfl⟩

/-! ## Following a call -/

section Follow

variable {s s' : State S nc} {c : Fin nc} {p : Fin np} {chan : Chan} {lk : LockName} {pc pc' : SleepPc}
  {top top' rest : List S.F}

/-- A record is found on a stack by what lies below it. -/
theorem record_unique {f g : S.F} (h : top ++ f :: rest = top' ++ g :: rest) : top = top' ∧ f = g := by
  have h1 : (top ++ [f]) ++ rest = (top' ++ [g]) ++ rest := by simpa using h
  have h2 := List.append_inj' (List.append_cancel_right h1) rfl
  exact ⟨h2.1, List.singleton_inj.mp h2.2⟩

/-- A step leaves a record that is not on top of a running thread where it is; a return hands it its value. -/
theorem Fires.below {t : Tid np nc} {g : S.F} (hf : Fires s c s') (hs : s.stk t = top ++ g :: rest)
    (ht : t ≠ s.cur c ∨ top ≠ []) :
    (∃ q, t = .proc q ∧ s'.stk t = [.forkret q]) ∨
      ∃ top' g', s'.stk t = top' ++ g' :: rest ∧ (g' = g ∨ ∃ v, g' = resume S g v) := by
  by_cases htc : t = s.cur c
  · subst htc
    obtain ⟨f, top, rfl⟩ := List.exists_cons_of_ne_nil (ht.resolve_left (not_not.mpr rfl))
    have key : ∀ {f'} {rest'}, s.stk (s.cur c) = f' :: rest' → rest' = top ++ g :: rest :=
      fun h => (List.cons.inj (h.symm.trans hs)).2
    -- what lies below the top record stays, whatever is put in its place
    have done : ∀ (stk : Tid np nc → List S.F) pre, ∃ top' g',
        update stk (s.cur c) (pre ++ (top ++ g :: rest)) (s.cur c) = top' ++ g' :: rest ∧
          (g' = g ∨ ∃ v, g' = resume S g v) :=
      fun stk pre => ⟨pre ++ top, g, by rw [update_self, List.append_assoc], .inl rfl⟩
    right
    cases hf with
    | @ret f' g' rest' v hs' hi =>
      have hk := key hs'
      cases top with
      | nil =>
        obtain ⟨rfl, rfl⟩ := List.cons.inj hk
        exact ⟨[], _, update_self _ _ _, .inr ⟨v, rfl⟩⟩
      | cons x top =>
        obtain ⟨rfl, rfl⟩ := List.cons.inj hk
        exact ⟨resume S g' v :: top, g, update_self _ _ _, .inl rfl⟩
    | panic hx hp => exact ⟨_, g, hs, .inl rfl⟩
    | call hs' hi | intr irq hs' hi => obtain rfl := key hs'; exact done _ [_, _]
    | sret hs' hi hn => obtain rfl := key hs'; exact done _ []
    | acquire hs' | release hs' | upd hs' | choose n hs' | sched hs' | dispatch hs' | spawn hs' | cpu hs' | intrOn hs' =>
      obtain rfl := key hs'
      exact done _ [_]
  · have hsame : ∀ st, update s.stk (s.cur c) st t = top ++ g :: rest := fun st => (update_of_ne htc _ _).trans hs
    cases hf with
    | @spawn f rest' q k hs' hi =>
      by_cases hq : t = .proc q
      · subst hq
        left
        refine ⟨q, rfl, ?_⟩
        simp only [setStk_stk, update_of_ne htc, update_self]
      · right
        refine ⟨top, g, ?_, .inl rfl⟩
        simp only [setStk_stk, update_of_ne htc, update_of_ne hq, hs]
    | panic hx hp => exact .inr ⟨top, g, hs, .inl rfl⟩
    | _ => exact .inr ⟨top, g, hsame _, .inl rfl⟩

/-- The points of `sleep` in the order of the text. -/
def SleepPc.next : SleepPc → Option SleepPc
  | .lockBucket => some .lockProc
  | .lockProc => some .unlockCond
  | .unlockCond => some .enqueue
  | .enqueue => some .setSleeping
  | .setSleeping => some .unlockBucket
  | .unlockBucket => some .callSched
  | .callSched => some .tidy
  | .tidy => some .unlockProc
  | .unlockProc => some .lockCond
  | .lockCond => none

/-- The call of `sleep(chan, lk)` by `p` with the records `rest` below it has not returned, and is at `pc`. -/
def SleepAt (s : State S nc) (p : Fin np) (chan : Chan) (lk : LockName) (rest : List S.F) (pc : SleepPc) : Prop :=
  ∃ top, s.stk (.proc p) = top ++ .sleep p chan lk pc :: rest

theorem SleepAt.unique (h : SleepAt s p chan lk rest pc) (h' : SleepAt s p chan lk rest pc') : pc = pc' := by
  obtain ⟨top, h⟩ := h
  obtain ⟨top', h'⟩ := h'
  have := (record_unique (h.symm.trans h')).2
  cases this
  rfl

/-- **A call of `sleep` only moves forward**, and it moves by its own steps. -/
theorem SleepAt.step (hf : Fires s c s') (h : SleepAt s p chan lk rest pc) (h' : SleepAt s' p chan lk rest pc') :
    pc' = pc ∨ s.stk (s.cur c) = .sleep p chan lk pc :: rest ∧ s.cur c = .proc p ∧ pc.next = some pc' := by
  obtain ⟨top, h⟩ := h
  obtain ⟨top', h'⟩ := h'
  by_cases ht : Tid.proc p ≠ s.cur c ∨ top ≠ []
  · left
    rcases hf.below h ht with ⟨q, hq, hst⟩ | ⟨top₁, g, hst, hg⟩
    · rw [h'] at hst
      cases top' with
      | nil => cases hst
      | cons x xs => simp at hst
    · have hg' : g = .sleep p chan lk pc := by
        rcases hg with rfl | ⟨v, rfl⟩ <;> rfl
      have := (record_unique (h'.symm.trans hst)).2
      rw [hg'] at this
      cases this
      rfl
  · rw [not_or, not_not, not_not] at ht
    obtain ⟨hc, rfl⟩ := ht
    rw [hc, List.nil_append] at h
    -- what the step leaves on the stack, if it leaves a record of this call
    have hnext : ∀ pre {stk : Tid np nc → List S.F} {k : S.F},
        update stk (s.cur c) (pre ++ k :: rest) (.proc p) = top' ++ .sleep p chan lk pc' :: rest →
        k = .sleep p chan lk pc' := by
      intro pre stk k hx
      rw [hc, update_self] at hx
      exact (record_unique hx).2
    have key : ∀ {f' : S.F} {rest'}, s.stk (s.cur c) = f' :: rest' → f' = .sleep p chan lk pc ∧ rest' = rest :=
      fun hx => List.cons.inj (hx.symm.trans h)
    have hfwd : ∀ {q}, (Frame.sleep p chan lk q : S.F) = .sleep p chan lk pc' → pc.next = some q →
        pc' = pc ∨ s.stk (s.cur c) = .sleep p chan lk pc :: rest ∧ s.cur c = .proc p ∧ pc.next = some pc' := by
      intro q hq hn
      cases hq
      exact .inr ⟨h, hc.symm, hn⟩
    cases hf with
    | panic hx hp => exact .inl (by cases (record_unique (show [] ++ _ :: rest = _ from h.symm.trans (hc ▸ h'))).2; rfl)
    | intr irq hs' hi =>
      obtain ⟨rfl, rfl⟩ := key hs'
      exact .inl (by cases hnext [_] h'; rfl)
    | acquire hs' hi hl =>
      obtain ⟨rfl, rfl⟩ := key hs'
      have hk := hnext [] h'
      cases pc <;> cases hi <;> first | exact hfwd hk rfl | cases hk
    | release hs' hi hl | upd hs' hi =>
      obtain ⟨rfl, rfl⟩ := key hs'
      have hk := hnext [] h'
      cases pc <;> cases hi <;> exact hfwd hk rfl
    | call hs' hi =>
      obtain ⟨rfl, rfl⟩ := key hs'
      have hk := hnext [_] h'
      cases pc <;> cases hi <;> exact hfwd hk rfl
    | ret hs' hi | choose n hs' hi | sched hs' hi | dispatch hs' hi | spawn hs' hi | cpu hs' hi | intrOn hs' hi
    | sret hs' hi =>
      obtain ⟨rfl, rfl⟩ := key hs'
      cases pc <;> cases hi

/-- A process lists no lock twice, whether it is on a CPU or not. -/
theorem Base.nodup_proc (hb : Base s) (p : Fin np) : (heldS (s.stk (.proc p))).Nodup := by
  by_cases hc : ∃ c, s.cur c = .proc p
  · obtain ⟨c, hc⟩ := hc
    exact hc ▸ hb.nodup c
  · rw [(hb.parked p fun c hx => hc ⟨c, hx⟩).heldS_eq]
    exact List.nodup_singleton _

/-- A process off the CPUs holds nothing but its own lock. -/
theorem Base.current_of_bucket (hb : Base s) {i : Fin NWQUEUE} (hl : Lock.bucket i ∈ heldS (s.stk (.proc p))) :
    ∃ c, s.cur c = .proc p := by
  by_contra hc
  rw [(hb.parked p fun c hx => hc ⟨c, hx⟩).heldS_eq] at hl
  simp at hl

/-- One record of a stack lists a lock, at most. -/
theorem eq_of_held {st top : List S.F} {f g : S.F} {l : Lock np} (hn : (heldS st).Nodup) (hst : st = top ++ f :: rest)
    (hf : l ∈ f.held) (hg : g ∈ st) (hl : l ∈ g.held) : g = f := by
  subst hst
  have he : heldS (top ++ f :: rest) = heldS top ++ (f.held ++ heldS rest) := by
    rw [heldS, List.flatMap_append, ← heldS, ← heldS, heldS_cons]
  rw [he] at hn
  rcases List.mem_append.mp hg with hg | hg
  · exact absurd (List.mem_append_left _ hf) (List.disjoint_of_nodup_append hn (mem_heldS hg hl))
  · rcases List.mem_cons.mp hg with rfl | hg
    · rfl
    · exact absurd (mem_heldS hg hl) (List.disjoint_of_nodup_append (List.Nodup.of_append_right hn) hf)

/-- A call of `sleep` that holds a lock, and is not inside `sched`, is what its process is running. -/
theorem SleepAt.running (hb : Base s) (h : SleepAt s p chan lk rest pc)
    (hl : (Frame.sleep p chan lk pc : S.F).held ≠ []) (ht : pc ≠ .tidy) :
    ∃ c, s.cur c = .proc p ∧ s.stk (s.cur c) = .sleep p chan lk pc :: rest := by
  obtain ⟨top, hst⟩ := h
  have htop : top = [] := by
    cases top with
    | nil => rfl
    | cons x top =>
      have hx := ((hb.stk (.proc p)).tail (.sleep p chan lk pc) (by rw [hst]; simp)).2
      rcases hx with hx | hx
      · exact absurd hx hl
      · cases pc <;> first | exact absurd rfl ht | cases hx
  subst htop
  by_cases hc : ∃ c, s.cur c = .proc p
  · obtain ⟨c, hc⟩ := hc
    exact ⟨c, hc, by rw [hc]; exact hst⟩
  · rcases hb.parked p fun c hx => hc ⟨c, hx⟩ with hx | ⟨b, g, rest', hx, _⟩ <;> (rw [hst] at hx; cases hx)

/-- From the store of SLEEPING to `sched` the process is SLEEPING: nobody else has its lock. -/
theorem SleepAt.sleeping (hb : Base s) (h : SleepAt s p chan lk rest pc) (hpc : pc = .unlockBucket ∨ pc = .callSched) :
    (s.kern.procs p).state = .sleeping := by
  obtain ⟨c, hc, hs⟩ := h.running hb (by rcases hpc with rfl | rfl <;> simp [Frame.held])
    (by rcases hpc with rfl | rfl <;> simp)
  rw [hb.run c p hc, ← hc, hs, restState_top rfl]
  rcases hpc with rfl | rfl <;> rfl

/-- A process that is SLEEPING while this call holds its lock is SLEEPING on the channel of this call. -/
theorem SleepAt.chan_of_sleeping (hb : Base s) (hk : SleepOk s) (h : SleepAt s p chan lk rest pc)
    (hx : (s.kern.procs p).state = .sleeping) (hl : Lock.proc p ∈ (Frame.sleep p chan lk pc : S.F).held) :
    (s.kern.procs p).chan = chan := by
  obtain ⟨top, hst⟩ := h
  obtain ⟨lk', rest', hsh⟩ := sleeping_shape hb hk hx
  have huniq : ∀ pc', Frame.sleep p (s.kern.procs p).chan lk' pc' ∈ s.stk (.proc p) →
      Lock.proc p ∈ (Frame.sleep p (s.kern.procs p).chan lk' pc' : S.F).held → (s.kern.procs p).chan = chan := by
    intro pc' hm hl'
    exact (Frame.sleep.inj (eq_of_held (hb.nodup_proc p) hst hl hm hl')).2.1
  rcases hsh with hsh | hsh | ⟨pc', hsh⟩
  · exact huniq .unlockBucket (by rw [hsh]; simp) (by simp [Frame.held])
  · exact huniq .callSched (by rw [hsh]; simp) (by simp [Frame.held])
  · exact huniq .tidy (by rw [hsh]; simp) (by simp [Frame.held])

/-- Process `p` is SLEEPING in this call of `sleep`. -/
def AsleepIn (s : State S nc) (p : Fin np) (chan : Chan) (lk : LockName) (rest : List S.F) : Prop :=
  (s.kern.procs p).state = .sleeping ∧
    (s.stk (.proc p) = .sleep p chan lk .unlockBucket :: rest ∨ s.stk (.proc p) = .sleep p chan lk .callSched :: rest ∨
      ∃ pc, s.stk (.proc p) = .sched p pc :: .sleep p chan lk .tidy :: rest)

/-- This call of `sleep` has been woken: it is past `sched`, or in it without being SLEEPING. -/
def Woken (s : State S nc) (p : Fin np) (chan : Chan) (lk : LockName) (rest : List S.F) : Prop :=
  SleepAt s p chan lk rest .tidy ∧ (s.kern.procs p).state ≠ .sleeping ∨ SleepAt s p chan lk rest .unlockProc ∨
    SleepAt s p chan lk rest .lockCond

theorem Woken.not_asleep (h : Woken s p chan lk rest) : ¬ AsleepIn s p chan lk rest := by
  rintro ⟨hp, ha⟩
  have hne : ∀ pc, SleepAt s p chan lk rest pc → pc ≠ .unlockProc ∧ pc ≠ .lockCond →
      (pc = .tidy → (s.kern.procs p).state = .sleeping) → False := by
    intro pc hpc hn ht
    rcases h with ⟨hw, hs⟩ | hw | hw
    · exact hs (ht (hpc.unique hw))
    · exact hn.1 (hpc.unique hw)
    · exact hn.2 (hpc.unique hw)
  rcases ha with ha | ha | ⟨pc, ha⟩
  · exact hne .unlockBucket ⟨[], ha⟩ (by simp) (by simp)
  · exact hne .callSched ⟨[], ha⟩ (by simp) (by simp)
  · exact hne .tidy ⟨[_], ha⟩ (by simp) fun _ => hp

/-- **A woken call is not put to sleep again.** -/
theorem Woken.step (hb : Base s) (hf : Fires s c s') (h : Woken s p chan lk rest)
    (h' : SleepAt s' p chan lk rest pc') : Woken s' p chan lk rest := by
  have hlate : ∀ pc, SleepAt s p chan lk rest pc → pc = .unlockProc ∨ pc = .lockCond → Woken s' p chan lk rest := by
    intro pc hpc hl
    rcases hpc.step hf h' with rfl | ⟨_, _, hn⟩
    · rcases hl with rfl | rfl
      · exact .inr (.inl h')
      · exact .inr (.inr h')
    · rcases hl with rfl | rfl <;> cases hn
      exact .inr (.inr h')
  rcases h with ⟨hw, hs⟩ | hw | hw
  · rcases hw.step hf h' with rfl | ⟨_, _, hn⟩
    · refine .inl ⟨h', fun hx => ?_⟩
      rcases hb.asleep_step hf hx with ⟨hy, _⟩ | ⟨lk', rest', htop⟩
      · exact hs hy
      · -- the process would hold its own lock twice
        obtain ⟨top, hst⟩ := hw
        have hc := hb.own_cur htop rfl
        rw [← hc, htop] at hst
        cases top with
        | nil => cases hst
        | cons x top =>
          obtain ⟨-, rfl⟩ := List.cons.inj hst
          exact (hb.no_other htop (l := .proc p) (by simp [Frame.held])).1 (.sleep p chan lk .tidy) (by simp)
            (by simp [Frame.held])
    · cases hn
      exact .inr (.inl h')
  · exact hlate _ hw (.inl rfl)
  · exact hlate _ hw (.inr rfl)

end Follow

end Xv6
