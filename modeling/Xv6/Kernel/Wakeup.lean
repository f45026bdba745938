import Mathlib.Tactic.IntervalCases
import Xv6.Kernel.Sleep

/-!
# No wakeup is lost

When `wakeup(chan)` is about to release its bucket, no process is SLEEPING on `chan` (`wakeup_done`); the same holds for
`wakeup_one(chan)` if at most one process was (`WakingOne.step`). A process inside `sleep(chan, lk)` that has released
`lk` keeps the bucket locked until it is SLEEPING, so by then it has been woken (`woken_of_done`).

- `locked_wakeup_not_lost`: a wakeup made under `lk` after the sleeper released it ends the sleep.
-/

namespace Xv6

open State
open Function (update_self)

variable {np nc : Nat} {S : System np}

/-! ## Executions -/

/-- An execution from the boot state; between two states a step is taken or nothing happens. -/
structure Exec (σ : Nat → State S nc) : Prop where
  start : σ 0 = boot S nc
  next : ∀ n, σ (n + 1) = σ n ∨ Step (σ n) (σ (n + 1))

theorem Exec.reachable {σ : Nat → State S nc} (h : Exec σ) (n : Nat) : Reachable (σ n) := by
  induction n with
  | zero => rw [h.start]; exact Relation.ReflTransGen.refl
  | succ n ih =>
    rcases h.next n with he | hs
    · rw [he]; exact ih
    · exact ih.step hs

/-- The execution that takes the given steps, as long as it can, and then stops. -/
def execOf (S : System np) (nc : Nat) (as : List (Fin nc × Act)) : Nat → State S nc
  | 0 => boot S nc
  | n + 1 =>
    match as[n]? with
    | none => execOf S nc as n
    | some (c, a) => (step (execOf S nc as n) c a).getD (execOf S nc as n)

theorem exec_execOf (S : System np) (as : List (Fin nc × Act)) : Exec (execOf S nc as) := by
  refine ⟨rfl, fun n => ?_⟩
  cases h : as[n]? with
  | none => exact .inl (by simp only [execOf, h])
  | some x =>
    cases hs : step (execOf S nc as n) x.1 x.2 with
    | none => exact .inl (by simp only [execOf, h, hs, Option.getD_none])
    | some s' => exact .inr ⟨x.1, x.2, by simp only [execOf, h, hs, Option.getD_some]⟩

/-- Nothing happens after the last step. -/
theorem execOf_stop (S : System np) (as : List (Fin nc × Act)) (n : Nat) :
    execOf S nc as (as.length + n) = execOf S nc as as.length := by
  induction n with
  | zero => rfl
  | succ n ih =>
    have h : as[as.length + n]? = none := List.getElem?_eq_none (by omega)
    rw [← Nat.add_assoc, execOf, h, ih]

/-- What holds up to the last step holds throughout. -/
theorem execOf_forall {S : System np} {as : List (Fin nc × Act)} {P : State S nc → Prop}
    (h : ∀ n ≤ as.length, P (execOf S nc as n)) (n : Nat) : P (execOf S nc as n) := by
  by_cases hn : n ≤ as.length
  · exact h n hn
  · obtain ⟨m, rfl⟩ := Nat.exists_eq_add_of_lt (Nat.lt_of_not_le hn)
    rw [Nat.add_assoc, execOf_stop]
    exact h _ le_rfl

/-! ## The end of a walk -/

section Done

variable {s s' : State S nc} {c : Fin nc} {p : Fin np} {chan : Chan} {lk : LockName} {rest restW : List S.F}

/-- At most `p` is SLEEPING on the channel. -/
def OnlyAsleep (s : State S nc) (chan : Chan) (p : Fin np) : Prop :=
  ∀ q, (s.kern.procs q).state = .sleeping → (s.kern.procs q).chan = chan → q = p

/-- Nobody is SLEEPING on the channel. -/
def NoneAsleep (s : State S nc) (chan : Chan) : Prop :=
  ∀ q, (s.kern.procs q).state = .sleeping → (s.kern.procs q).chan ≠ chan

/-- A walk that reached the end of the bucket leaves nobody asleep on its channel. -/
theorem noneAsleep_of_end (h : Reachable s) {one : Bool}
    (hs : s.stk (s.cur c) = .wake one chan (.unlockBucket none) :: restW) : NoneAsleep s chan := by
  obtain ⟨Q, hQ⟩ := h.queue
  intro q hq hc
  obtain ⟨hm, he⟩ := hQ.asleep q hq
  rw [hc] at hm he
  exact hQ.top c _ _ hs q hm he

/-- **`wakeup(chan)` ends with nobody asleep on `chan`.** -/
theorem wakeup_done (h : Reachable s) {e : Option (Fin np)}
    (hs : s.stk (s.cur c) = .wake false chan (.unlockBucket e) :: restW) : NoneAsleep s chan := by
  cases e with
  | none => exact noneAsleep_of_end h hs
  | some e =>
    obtain ⟨Q, hQ⟩ := h.queue
    exact absurd (hQ.top c _ _ hs) (by simp [TopOk])

/-- A process past `release(lk)` in `sleep(chan, lk)` has been woken if the bucket is locked by someone else and nobody
is SLEEPING on the channel. -/
theorem woken_of_done (h : Reachable s) {pc : SleepPc} {f : S.F} (hs : s.stk (s.cur c) = f :: restW)
    (hf : Lock.bucket (wqHash chan) ∈ f.held) (hw : f.own = none) (hn : NoneAsleep s chan)
    (hp : SleepAt s p chan lk rest pc) (hpc : pc ≠ .lockBucket ∧ pc ≠ .lockProc ∧ pc ≠ .unlockCond) :
    Woken s p chan lk rest := by
  have hb := h.base
  have hk := h.sleep
  obtain ⟨top, hst⟩ := id hp
  have hmem : .sleep p chan lk pc ∈ s.stk (.proc p) := by rw [hst]; simp
  -- the bucket cannot be locked by the sleeper
  have hbucket : Lock.bucket (wqHash chan) ∉ (Frame.sleep p chan lk pc : S.F).held := by
    intro hl
    obtain ⟨c', hc'⟩ := hb.current_of_bucket (mem_heldS hmem hl)
    have h1 : s.locks (.bucket (wqHash chan)) = some c' := hb.holder (by rw [hc']; exact mem_heldS hmem hl)
    have h2 : s.locks (.bucket (wqHash chan)) = some c := hb.holder (by rw [hs]; exact mem_heldS List.mem_cons_self hf)
    obtain rfl : c' = c := Option.some.inj (h1.symm.trans h2)
    have := eq_of_held (hb.nodup_proc p) hst hl (by rw [← hc', hs]; exact List.mem_cons_self) hf
    rw [this] at hw
    cases hw
  cases pc with
  | lockBucket => exact absurd rfl hpc.1
  | lockProc => exact absurd rfl hpc.2.1
  | unlockCond => exact absurd rfl hpc.2.2
  | enqueue | setSleeping | unlockBucket => exact absurd (by simp [Frame.held]) hbucket
  | callSched =>
    have hx := hp.sleeping hb (.inr rfl)
    exact absurd (hp.chan_of_sleeping hb hk hx (by simp [Frame.held])) (hn p hx)
  | tidy => exact .inl ⟨hp, fun hx => hn p hx (hp.chan_of_sleeping hb hk hx (by simp [Frame.held]))⟩
  | unlockProc => exact .inr (.inl hp)
  | lockCond => exact .inr (.inr hp)

/-! ## `wakeup_one` with one sleeper -/

/-- `wakeup_one` has the bucket locked. -/
def WakePc.locked : WakePc np → Bool
  | .lockBucket => false
  | _ => true

/-- `wakeup_one` has found a sleeper. -/
def WakePc.woke : WakePc np → Bool
  | .unlink _ _ _ | .unlockWoken _ _ _ | .unlockBucket (some _) => true
  | _ => false

/-- CPU `c` is in `wakeup_one(chan)` with the bucket locked, `p` was the only sleeper, and nobody is asleep once it has
woken one. -/
structure WakingOne (s : State S nc) (c : Fin nc) (chan : Chan) (p : Fin np) (restW : List S.F) (pc : WakePc np) :
    Prop where
  stk : s.stk (s.cur c) = .wake true chan pc :: restW
  locked : pc.locked = true
  only : OnlyAsleep s chan p
  woke : pc.woke = true → NoneAsleep s chan

theorem WakePc.held_of_locked {one : Bool} {pc : WakePc np} (hl : pc.locked = true) :
    Lock.bucket (wqHash chan) ∈ (Frame.wake one chan pc : S.F).held := by
  cases pc <;> simp_all [WakePc.locked, Frame.held]

/-- A thread that walks a bucket is on a CPU. -/
theorem Base.current_of_wake (hb : Base s) {t : Tid np nc} {one : Bool} {pc : WakePc np}
    (hs : s.stk t = .wake one chan pc :: restW) (hl : pc.locked = true) : ∃ c, s.cur c = t := by
  cases t with
  | proc q => exact hb.current_of_bucket (by rw [hs]; exact mem_heldS List.mem_cons_self (WakePc.held_of_locked hl))
  | cpu c =>
    refine ⟨c, ?_⟩
    cases hc : s.cur c with
    | proc q => rw [hb.back c q hc] at hs; cases hs
    | cpu c' => rw [hb.cpu c c' hc]

/-- While the bucket of a channel is locked, nobody falls asleep on it but the holder. -/
theorem asleep_of_locked (hb : Base s) {c' : Fin nc} (hf : Fires s c' s') {pc : WakePc np} {one : Bool}
    (hs : s.stk (s.cur c) = .wake one chan pc :: restW) (hl : pc.locked = true) {q : Fin np}
    (hq : (s'.kern.procs q).state = .sleeping) (hc : (s'.kern.procs q).chan = chan) :
    (s.kern.procs q).state = .sleeping ∧ (s.kern.procs q).chan = chan := by
  rcases hb.asleep_step hf hq with ⟨h1, h2⟩ | ⟨lk, rest, htop⟩
  · exact ⟨h1, h2 ▸ hc⟩
  · rw [hc] at htop
    obtain rfl := hb.held_unique htop hs (by simp [Frame.held]) (WakePc.held_of_locked hl)
    rw [hs] at htop
    cases htop

/-- **One step of any CPU during `wakeup_one`.** -/
theorem WakingOne.step (hb : Base s) {pc : WakePc np} (h : WakingOne s c chan p restW pc) {c' : Fin nc} {a : Act}
    (hst : Xv6.step s c' a = some s') :
    (s'.cur c = s.cur c ∧ ∃ pc', WakingOne s' c chan p restW pc') ∨ s'.stk (s.cur c) = .ret 0 :: restW := by
  obtain ⟨hp, hf⟩ := fires_of_step hst
  have hasleep : ∀ q, (s'.kern.procs q).state = .sleeping → (s'.kern.procs q).chan = chan → _ :=
    fun q => asleep_of_locked hb hf h.stk h.locked
  -- the walk goes on at `pc'`, and no new sleeper appears
  have go : ∀ pc', s'.cur c = s.cur c → s'.stk (s.cur c) = .wake true chan pc' :: restW → pc'.locked = true →
      (pc'.woke = true → pc.woke = true) →
      (s'.cur c = s.cur c ∧ ∃ pc', WakingOne s' c chan p restW pc') ∨ s'.stk (s.cur c) = .ret 0 :: restW := by
    intro pc' hcur hstk hl hw
    refine .inl ⟨hcur, pc', hcur ▸ hstk, hl, fun q h1 h2 => ?_, fun hx q h1 h2 => ?_⟩
    · exact h.only q (hasleep q h1 h2).1 (hasleep q h1 h2).2
    · exact h.woke (hw hx) q (hasleep q h1 h2).1 (hasleep q h1 h2).2
  by_cases hc : c' = c
  · subst hc
    have key : ∀ {f' : S.F} {rest'}, s.stk (s.cur c') = f' :: rest' → f' = .wake true chan pc ∧ rest' = restW :=
      fun hx => List.cons.inj (hx.symm.trans h.stk)
    cases hf with
    | panic hx hp => exact go pc rfl h.stk h.locked id
    | intr irq hs hi =>
      have hh := hb.heldS_of_sie hp hi
      rw [h.stk] at hh
      have hl := h.locked
      cases pc <;> simp_all [WakePc.locked, Frame.held]
    | @upd f rest g k hs hi =>
      obtain ⟨rfl, rfl⟩ := key hs
      have hgo : ∀ pc', k s.kern = .wake true chan pc' → pc'.locked = true → (pc'.woke = true → pc.woke = true) → _ :=
        fun pc' hk => go pc' rfl (by simp only [setStk_stk, update_self, hk])
      cases pc with
      | first | unlink e q next => cases hi; exact hgo _ rfl rfl (by simp [WakePc.woke])
      | walk e =>
        cases e with
        | none => cases hi; exact hgo _ rfl rfl (by simp [WakePc.woke])
        | some e =>
          cases hi
          by_cases he : (s.kern.procs e).wqEntry.chan = chan
          · exact hgo _ (if_pos he) rfl (by simp [WakePc.woke])
          · exact hgo _ (if_neg he) rfl (by simp [WakePc.woke])
      | test e q next =>
        cases hi
        by_cases hq : (s.kern.procs q).state = .sleeping ∧ (s.kern.procs q).chan = chan
        · -- the one sleeper is made runnable here
          obtain rfl := h.only q hq.1 hq.2
          refine .inl ⟨rfl, .unlink e q next, ?_, rfl, fun r h1 h2 => ?_, fun _ r h1 h2 => ?_⟩
          · simp only [setStk_stk, setStk_cur, update_self, if_pos hq]
          · exact h.only r (hasleep r h1 h2).1 (hasleep r h1 h2).2
          · obtain rfl := h.only r (hasleep r h1 h2).1 (hasleep r h1 h2).2
            simp only [if_pos hq, Kernel.setProc_same] at h1
            cases h1
        · exact hgo _ (if_neg hq) rfl (by simp [WakePc.woke])
      | _ => cases hi
    | acquire hs hi hl =>
      obtain ⟨rfl, rfl⟩ := key hs
      cases pc with
      | lockBucket => cases h.locked
      | lockProc e q next =>
        cases hi
        exact go (.test e q next) rfl (update_self _ _ _) rfl (by simp [WakePc.woke])
      | walk e => cases e <;> cases hi
      | _ => cases hi
    | release hs hi hl =>
      obtain ⟨rfl, rfl⟩ := key hs
      cases pc with
      | unlockWoken e q next =>
        cases hi
        exact go (.unlockBucket (some e)) rfl (update_self _ _ _) rfl (by simp [WakePc.woke])
      | unlockMiss e q next =>
        cases hi
        exact go (.walk next) rfl (update_self _ _ _) rfl (by simp [WakePc.woke])
      | unlockBucket e => cases hi; exact .inr (update_self _ _ _)
      | walk e => cases e <;> cases hi
      | _ => cases hi
    | call hs hi | ret hs hi | choose n hs hi | sched hs hi | dispatch hs hi | spawn hs hi | cpu hs hi | intrOn hs hi
    | sret hs hi =>
      obtain ⟨rfl, rfl⟩ := key hs
      cases pc with
      | walk e => cases e <;> cases hi
      | _ => cases hi
  · obtain ⟨h1, h2⟩ := hb.other_cpu hf (Ne.symm hc)
    exact go pc h1 (h2.trans h.stk) h.locked id

end Done

/-! ## The theorem -/

/-- In the execution `σ`, process `p` releases `lk` inside `sleep(chan, lk)` at time `i`; thread `t` acquires `lk` at
time `j`, calls `wakeup(chan)` or, with `one`, `wakeup_one(chan)` at time `k`, and finishes it at time `m`. The two
calls are the ones with the records `rest` and `restW` below them. -/
structure LockedWakeup (σ : Nat → State S nc) (one : Bool) (p : Fin np) (t : Tid np nc) (chan : Chan) (lk : LockName)
    (rest restW : List S.F) (i j k m : Nat) : Prop where
  exec : Exec σ
  released : (σ i).stk (.proc p) = .sleep p chan lk .unlockCond :: rest ∧
    (σ (i + 1)).stk (.proc p) = .sleep p chan lk .enqueue :: rest
  acquired : i < j ∧ ∃ c, (σ j).cur c = t ∧ (σ j).locks (.named lk) = none ∧ (σ (j + 1)).locks (.named lk) = some c
  called : j < k ∧ (σ k).stk t = .wake one chan .lockBucket :: restW
  inside : ∀ n, k ≤ n → n ≤ m → ∃ top pc, (σ n).stk t = top ++ .wake one chan pc :: restW
  finished : k < m ∧ ∃ e, (σ m).stk t = .wake one chan (.unlockBucket e) :: restW ∧ (σ (m + 1)).stk t = .ret 0 :: restW

section Theorem

variable {σ : Nat → State S nc} {one : Bool} {p : Fin np} {t : Tid np nc} {chan : Chan} {lk : LockName}
  {rest restW : List S.F} {i j k m : Nat}

/-- From its release of `lk` on, a call of `sleep` stays past that point. -/
theorem Exec.past_release (hσ : Exec σ) (hi : (σ (i + 1)).stk (.proc p) = .sleep p chan lk .enqueue :: rest) {n : Nat}
    (hn : i < n) (hin : ∀ l, i < l → l ≤ n → ∃ pc, SleepAt (σ l) p chan lk rest pc) :
    ∃ pc, SleepAt (σ n) p chan lk rest pc ∧ pc ≠ .lockBucket ∧ pc ≠ .lockProc ∧ pc ≠ .unlockCond := by
  induction n, hn using Nat.le_induction with
  | base => exact ⟨.enqueue, ⟨[], hi⟩, by simp⟩
  | succ n hn ih =>
    obtain ⟨pc, hpc, hne⟩ := ih fun l h1 h2 => hin l h1 (by omega)
    obtain ⟨pc', hpc'⟩ := hin (n + 1) (by omega) le_rfl
    refine ⟨pc', hpc', ?_⟩
    rcases hσ.next n with he | ⟨c, a, hst⟩
    · rw [he] at hpc'
      exact hpc'.unique hpc ▸ hne
    · rcases hpc.step (fires_of_step hst).2 hpc' with rfl | ⟨_, _, hnx⟩
      · exact hne
      · cases pc <;> cases hnx <;> simp_all

/-- A woken call stays woken until it returns. -/
theorem Exec.woken (hσ : Exec σ) (hw : Woken (σ m) p chan lk rest) {n : Nat} (hn : m ≤ n)
    (hin : ∀ l, m ≤ l → l ≤ n → ∃ pc, SleepAt (σ l) p chan lk rest pc) : Woken (σ n) p chan lk rest := by
  induction n, hn using Nat.le_induction with
  | base => exact hw
  | succ n hn ih =>
    have ihn := ih fun l h1 h2 => hin l h1 (by omega)
    obtain ⟨pc', hpc'⟩ := hin (n + 1) (by omega) le_rfl
    rcases hσ.next n with he | ⟨c, a, hst⟩
    · rw [he]; exact ihn
    · exact ihn.step (hσ.reachable n).base (fires_of_step hst).2 hpc'

/-- What thread `t` is doing during its `wakeup_one`: waiting for the bucket, or walking it. -/
def WakeOneAt (s : State S nc) (t : Tid np nc) (chan : Chan) (p : Fin np) (restW : List S.F) : Prop :=
  (∃ top, s.stk t = top ++ .wake true chan .lockBucket :: restW) ∨ ∃ c pc, s.cur c = t ∧ WakingOne s c chan p restW pc

/-- One step during a `wakeup_one`, if `p` is the only sleeper when it looks at the bucket. -/
theorem WakeOneAt.step {s s' : State S nc} (hb : Base s) (hst : Step s s') (h : WakeOneAt s t chan p restW)
    (hin : ∃ top pc, s'.stk t = top ++ .wake true chan pc :: restW)
    (honly : s'.stk t = .wake true chan .first :: restW → OnlyAsleep s' chan p) : WakeOneAt s' t chan p restW := by
  obtain ⟨c', a, hst⟩ := hst
  have hf := (fires_of_step hst).2
  obtain ⟨top', pc', hin⟩ := hin
  rcases h with ⟨top, hs⟩ | ⟨c, pc, hc, hw⟩
  · by_cases ht : t ≠ s.cur c' ∨ top ≠ []
    · rcases hf.below hs ht with ⟨q, _, hst⟩ | ⟨top₁, g, hst, hg⟩
      · rw [hin] at hst
        cases top' <;> simp at hst
      · have hg' : g = .wake true chan .lockBucket := by
          rcases hg with rfl | ⟨v, rfl⟩ <;> rfl
        exact .inl ⟨top₁, hg' ▸ hst⟩
    · rw [not_or, not_not, not_not] at ht
      obtain ⟨rfl, rfl⟩ := ht
      have key : ∀ {f' : S.F} {rest'}, s.stk (s.cur c') = f' :: rest' →
          f' = .wake true chan .lockBucket ∧ rest' = restW := fun hx => List.cons.inj (hx.symm.trans hs)
      cases hf with
      | panic hx hp => exact .inl ⟨[], hs⟩
      | intr irq hs' hi =>
        obtain ⟨rfl, rfl⟩ := key hs'
        exact .inl ⟨[_], update_self _ _ _⟩
      | acquire hs' hi hl =>
        obtain ⟨rfl, rfl⟩ := key hs'
        cases hi
        exact .inr ⟨c', .first, rfl, update_self _ _ _, rfl, honly (update_self _ _ _), by simp [WakePc.woke]⟩
      | release hs' hi | upd hs' hi | call hs' hi | ret hs' hi | choose n hs' hi | sched hs' hi | dispatch hs' hi
      | spawn hs' hi | cpu hs' hi | intrOn hs' hi | sret hs' hi =>
        obtain ⟨rfl, rfl⟩ := key hs'
        cases hi
  · rcases hw.step hb hst with ⟨hcur, pc', hw'⟩ | hret
    · exact .inr ⟨c, pc', hcur.trans hc, hw'⟩
    · rw [hc, hin] at hret
      have := (record_unique (show _ = [] ++ _ :: restW from hret)).2
      cases this

/-- When the wakeup is about to release the bucket, nobody is asleep on the channel. -/
theorem LockedWakeup.noneAsleep (h : LockedWakeup σ one p t chan lk rest restW i j k m)
    (honly : one = true → ∀ a, k ≤ a → a ≤ m → (σ a).stk t = .wake true chan .first :: restW → OnlyAsleep (σ a) chan p) :
    NoneAsleep (σ m) chan := by
  obtain ⟨hkm, e, hm, -⟩ := h.finished
  have hreach := h.exec.reachable m
  obtain ⟨c, hc⟩ := hreach.base.current_of_wake hm rfl
  cases one with
  | false => exact wakeup_done hreach (hc ▸ hm)
  | true =>
    have hrun : ∀ n, k ≤ n → n ≤ m → WakeOneAt (σ n) t chan p restW := by
      intro n hn
      induction n, hn using Nat.le_induction with
      | base => exact fun _ => .inl ⟨[], h.called.2⟩
      | succ n hn ih =>
        intro hnm
        rcases h.exec.next n with he | hst
        · rw [he]; exact ih (by omega)
        · exact (ih (by omega)).step (h.exec.reachable n).base hst (h.inside _ (by omega) hnm)
            (honly rfl _ (by omega) hnm)
    rcases hrun m hkm.le le_rfl with ⟨top, hx⟩ | ⟨c', pc, hc', hw⟩
    · have := (record_unique (hx.symm.trans (show _ = [] ++ _ :: restW from hm))).2
      cases this
    · have hpc : WakePc.unlockBucket e = pc := by
        have := hw.stk
        rw [hc', hm] at this
        cases this
        rfl
      subst hpc
      cases e with
      | none => exact noneAsleep_of_end hreach (hc' ▸ hm)
      | some e => exact hw.woke rfl

/-- **No wakeup is lost.** Once a `wakeup(chan)` made under `lk` after the sleeper released it has finished, the sleeper
is not SLEEPING in that call of `sleep`, then or later; for `wakeup_one(chan)` this holds if nobody else is asleep on
the channel when it looks at the bucket. -/
theorem locked_wakeup_not_lost (h : LockedWakeup σ one p t chan lk rest restW i j k m)
    (honly : one = true → ∀ a, k ≤ a → a ≤ m → (σ a).stk t = .wake true chan .first :: restW → OnlyAsleep (σ a) chan p)
    (n : Nat) (hn : m < n) (hin : ∀ l, i < l → l ≤ n → ∃ pc, SleepAt (σ l) p chan lk rest pc) :
    ¬ AsleepIn (σ n) p chan lk rest := by
  have him : i < m := by have := h.acquired.1; have := h.called.1; have := h.finished.1; omega
  have hreach := h.exec.reachable m
  obtain ⟨pc, hpc, hne⟩ := h.exec.past_release h.released.2 him fun l h1 h2 => hin l h1 (by omega)
  obtain ⟨-, e, hm, -⟩ := h.finished
  obtain ⟨c, hc⟩ := hreach.base.current_of_wake hm rfl
  have hw : Woken (σ m) p chan lk rest :=
    woken_of_done hreach (hc ▸ hm) (WakePc.held_of_locked rfl) rfl (h.noneAsleep honly) hpc hne
  exact (h.exec.woken hw hn.le fun l h1 h2 => hin l (by omega) h2).not_asleep

end Theorem

/-- Process `0` creates process `1` and goes to sleep on channel `24`; process `1` wakes it. -/
def wakePair : System 2 :=
  tableSystem
    [.self fun me => if me = some 0 then 2 else 4, .kfork 3, .acquire (.pipe 0) 6, .acquire (.pipe 0) 5,
      .wakeup 24#64 7, .sleep 24#64 (.pipe 0) 7, .release (.pipe 0) 0] 0 fun _ => false

/-- A run of the pair on one CPU. -/
def wakePairRun : Nat → State wakePair 1 := execOf wakePair 1 (List.replicate 61 (0, .run 1))

set_option maxRecDepth 4000 in
/-- The sleeper is asleep at time `52`, when the waker looks at the bucket, and awake at time `60`, when the wakeup has
finished. -/
theorem locked_wakeup_not_lost_pair :
    LockedWakeup wakePairRun false 0 (.proc 1) 24#64 (.pipe 0) [.client (7 : Nat)] [.client (7 : Nat)] 36 49 51 59 ∧
      AsleepIn (wakePairRun 52) 0 24#64 (.pipe 0) [.client (7 : Nat)] ∧
      ¬ AsleepIn (wakePairRun 60) 0 24#64 (.pipe 0) [.client (7 : Nat)] := by
  have hw : LockedWakeup wakePairRun false 0 (.proc 1) 24#64 (.pipe 0) [.client (7 : Nat)] [.client (7 : Nat)]
      36 49 51 59 := by
    refine ⟨exec_execOf _ _, ⟨rfl, rfl⟩, ⟨by decide, 0, rfl, rfl, rfl⟩, ⟨by decide, rfl⟩, fun n h1 h2 => ?_,
      by decide, none, rfl, rfl⟩
    interval_cases n <;> exact ⟨[], _, rfl⟩
  refine ⟨hw, ⟨rfl, .inr (.inr ⟨_, rfl⟩)⟩, locked_wakeup_not_lost hw (by simp) 60 (by decide) fun l h1 h2 => ?_⟩
  by_cases hl : l ≤ 40
  · interval_cases l <;> exact ⟨_, [], rfl⟩
  · interval_cases l <;> exact ⟨.tidy, [_], rfl⟩

end Xv6
