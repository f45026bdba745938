import Xv6.Kernel.Wakeup

/-!
# The unlocked check for sleepers

`wq_has_sleeper(chan)` reads the head of the bucket without its lock. `sleep` releases `lk` before it enqueues itself,
so a caller that holds `lk` can look at the bucket in between.

- `fast_path_iff`: what the check returns while a process is in `sleep(chan, lk)` past its release of `lk`;
- `fast_path_misses_sleeper`: a run in which the check returns zero and the process then goes to sleep.
-/

namespace Xv6

open State Lib

variable {np nc : Nat} {S : System np} {s : State S nc} {c : Fin nc} {p : Fin np} {chan : Chan} {lk : LockName}
  {pc : SleepPc} {rest : List S.F}
variable {Q : Fin NWQUEUE → List (Fin np)}

/-- The check returns nonzero exactly if the bucket has an entry. -/
theorem QueueOk.hasSleeper_iff (h : QueueOk s Q) : s.kern.wqHasSleeper chan = true ↔ ∃ q, q ∈ Q (wqHash chan) := by
  rw [Kernel.wqHasSleeper, (h.chain _).head_eq]
  cases Q (wqHash chan) with
  | nil => simp
  | cons q l => simpa using ⟨q, .inl rfl⟩

/-- A call of `sleep` that has enqueued itself and has not been woken is in its bucket. -/
theorem SleepAt.queued (hb : Base s) (hk : SleepOk s) (hQ : QueueOk s Q)
    (hp : SleepAt s p chan lk rest pc) (hpast : pc ≠ .lockBucket ∧ pc ≠ .lockProc ∧ pc ≠ .unlockCond)
    (hw : ¬ Woken s p chan lk rest) (he : pc ≠ .enqueue) : p ∈ Q (wqHash chan) := by
  have hasleep : (s.kern.procs p).state = .sleeping → Lock.proc p ∈ (Frame.sleep p chan lk pc : S.F).held →
      p ∈ Q (wqHash chan) := by
    intro hx hl
    have := (hQ.asleep p hx).1
    rwa [hp.chan_of_sleeping hb hk hx hl] at this
  cases pc with
  | lockBucket => exact absurd rfl hpast.1
  | lockProc => exact absurd rfl hpast.2.1
  | unlockCond => exact absurd rfl hpast.2.2
  | enqueue => exact absurd rfl he
  | setSleeping =>
    obtain ⟨c, -, hs⟩ := hp.running hb (by simp [Frame.held]) (by simp)
    exact (hQ.top c _ _ hs).1
  | unlockBucket => exact hasleep (hp.sleeping hb (.inl rfl)) (by simp [Frame.held])
  | callSched => exact hasleep (hp.sleeping hb (.inr rfl)) (by simp [Frame.held])
  | tidy =>
    refine hasleep ?_ (by simp [Frame.held])
    by_contra hx
    exact hw (.inl ⟨hp, hx⟩)
  | unlockProc => exact absurd (.inr (.inl hp)) hw
  | lockCond => exact absurd (.inr (.inr hp)) hw

/-- While a call of `sleep` is about to enqueue itself, what is in its bucket is asleep. -/
theorem SleepAt.bucket_asleep (hb : Base s) (hQ : QueueOk s Q)
    (hp : SleepAt s p chan lk rest .enqueue) {q : Fin np} (hq : q ∈ Q (wqHash chan)) :
    (s.kern.procs q).state = .sleeping ∧ wqHash (s.kern.procs q).chan = wqHash chan := by
  rcases hQ.member _ q hq with ⟨h1, h2⟩ | ⟨c', f, rest', hs', ht⟩
  · exact ⟨h1, h2 ▸ (hQ.entry _ q hq).2⟩
  · -- nobody else can be changing the bucket: the call has it locked
    obtain ⟨c, -, hs⟩ := hp.running hb (by simp [Frame.held]) (by simp)
    obtain rfl := hb.held_unique hs hs' (by simp [Frame.held]) (transit_held ht (hQ.top c' f rest' hs')).1
    rw [hs] at hs'
    rw [← (List.cons.inj hs').1] at ht
    exact ht.elim

/-- **The unlocked check.** Process `p` is inside `sleep(chan, lk)`, has released `lk` there and has not been made
RUNNABLE. Whoever evaluates `wq_has_sleeper(chan)` then, in particular a CPU that has acquired `lk` in the meantime,
gets nonzero exactly if `p` is past its `wq_add_locked`, or some process is asleep on a channel of the same bucket. -/
theorem fast_path_iff (h : Reachable s) (hp : SleepAt s p chan lk rest pc)
    (hpast : pc ≠ .lockBucket ∧ pc ≠ .lockProc ∧ pc ≠ .unlockCond) (hw : ¬ Woken s p chan lk rest) :
    s.kern.wqHasSleeper chan = true ↔
      pc ≠ .enqueue ∨ ∃ r, (s.kern.procs r).state = .sleeping ∧ wqHash (s.kern.procs r).chan = wqHash chan := by
  obtain ⟨Q, hQ⟩ := h.queue
  rw [hQ.hasSleeper_iff]
  constructor
  · rintro ⟨q, hq⟩
    by_cases he : pc = .enqueue
    · subst he
      exact .inr ⟨q, hp.bucket_asleep h.base hQ hq⟩
    · exact .inl he
  · rintro (he | ⟨r, hr, hc⟩)
    · exact ⟨p, hp.queued h.base h.sleep hQ hpast hw he⟩
    · exact ⟨r, hc ▸ (hQ.asleep r hr).1⟩

/-- A reader and a writer of one pipe: process `0` creates process `1` and goes to sleep on channel `24` with the pipe
lock held; process `1` takes the lock, wakes the sleepers it sees and releases the lock. -/
def pipePair : System 2 :=
  tableSystem
    [.self fun me => if me = some 0 then 2 else 4, .kfork 3, .acquire (.pipe 0) 6, .acquire (.pipe 0) 5,
      .wqHasSleeper 24#64 fun b => if b then 8 else 7, .sleep 24#64 (.pipe 0) 7, .release (.pipe 0) 0,
      .wakeupOne 24#64 7] 0 fun _ => false

/-- The reader runs up to the release of the pipe lock in `sleep`, and the writer takes the lock. -/
def missRun : List (Fin 2 × Act) :=
  List.replicate 34 (0, .run 1) ++ List.replicate 11 (1, .run 1) ++ List.replicate 3 (0, .run 1) ++ [(1, .run 1)]

set_option maxRecDepth 4000 in
/-- One step later the reader is enqueued, and the check would see it. -/
theorem fast_path_iff_pair :
    let s := after pipePair 2 (missRun ++ [(0, .run 1)])
    s.kern.wqHasSleeper 24#64 = true ↔ SleepPc.setSleeping ≠ .enqueue ∨
        ∃ r, (s.kern.procs r).state = .sleeping ∧ wqHash (s.kern.procs r).chan = wqHash 24#64 := by
  intro s
  have hp : SleepAt s 0 24#64 (.pipe 0) [.client (7 : Nat)] .setSleeping := ⟨[], rfl⟩
  refine fast_path_iff (reachable_after pipePair _) hp (by simp) ?_
  rintro (⟨h, _⟩ | h | h) <;> cases hp.unique h

set_option maxRecDepth 4000 in
/-- **The check misses a sleeper.** The reader has released the pipe lock in `sleep`, the writer holds the lock and
evaluates `wq_has_sleeper`, and gets zero. If it goes on from there, it releases the lock without waking anybody, and
the reader goes to sleep. -/
theorem fast_path_misses_sleeper :
    let s := after pipePair 2 missRun
    Reachable s ∧ SleepAt s 0 24#64 (.pipe 0) [.client (7 : Nat)] .enqueue ∧
      s.stk (s.cur 1) = [.client (5 : Nat)] ∧ (pipePair.code (5 : Nat) matches .wqHasSleeper 24#64 _) ∧
      s.locks (.named (.pipe 0)) = some 1 ∧ s.kern.wqHasSleeper 24#64 = false ∧
      ∃ s', run s [(1, .run 1), (1, .run 1), (0, .run 1), (0, .run 1), (0, .run 1), (0, .run 1), (0, .run 1)] = some s' ∧
        s'.locks (.named (.pipe 0)) = none ∧ AsleepIn s' 0 24#64 (.pipe 0) [.client (7 : Nat)] :=
  ⟨reachable_after _ _, ⟨[], rfl⟩, rfl, rfl, rfl, rfl, _, rfl, rfl, rfl, .inr (.inr ⟨_, rfl⟩)⟩

end Xv6
