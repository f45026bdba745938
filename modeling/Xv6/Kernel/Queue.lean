import Xv6.Kernel.Threads

/-!
# The wait queues in every reachable state

`QueueOk s Q` says that the buckets are the lists `Q`, and that a process is in its bucket exactly while it is asleep,
apart from two moments: between the enqueue and the store of SLEEPING in `sleep`, and between the store of RUNNABLE and
the unlink in `wakeup`. It carries what a walk of a bucket knows (`TopOk`): the entries before the cursor do not
belong to the channel, and the cursor is on the list.

- `effect_of_upd`: what an access of the program text does to the queues;
- `QueueOk.step`: every step keeps the invariant, with the same lists or with one entry pushed or taken out;
- `wait_queue_representation`: the queues in a reachable state.
-/

namespace Xv6

open Lib State
open Function (update update_of_ne update_self)

variable {np nc : Nat} {S : System np}

/-! ## What a program point knows about the queues -/

/-- The entry `e` of process `q` is on the list of its bucket, with `next` after it, and the entries before it are of
other channels. -/
def At (κ : S.K) (Q : Fin NWQUEUE → List (Fin np)) (chan : Chan) (e q : Fin np) (next : Option (Fin np)) : Prop :=
  q = e ∧ (κ.procs e).wqEntry.chan = chan ∧
    ∃ pre suf, Q (wqHash chan) = pre ++ e :: suf ∧ next = suf.head? ∧ ∀ p ∈ pre, (κ.procs p).wqEntry.chan ≠ chan

/-- The cursor is on the list of its bucket, and the entries before it are of other channels. -/
def Cursor (κ : S.K) (Q : Fin NWQUEUE → List (Fin np)) (chan : Chan) (e : Option (Fin np)) : Prop :=
  ∃ pre suf, Q (wqHash chan) = pre ++ suf ∧ e = suf.head? ∧ ∀ p ∈ pre, (κ.procs p).wqEntry.chan ≠ chan

/-- What the top activation record of a running thread knows. -/
def TopOk (κ : S.K) (Q : Fin NWQUEUE → List (Fin np)) : S.F → Prop
  | .sleep p chan _ pc =>
    match pc with
    | .setSleeping => p ∈ Q (wqHash chan) ∧ (κ.procs p).wqEntry.chan = chan
    | _ => True
  | .wake one chan pc =>
    match pc with
    | .lockBucket | .first => True
    | .walk e => Cursor κ Q chan e
    | .lockProc e q next | .test e q next => At κ Q chan e q next
    | .unlink e q next => At κ Q chan e q next ∧ (κ.procs e).state = .runnable
    | .unlockWoken e q next => q = e ∧ Cursor κ Q chan next
    -- an entry of the channel in the bucket belongs to a process asleep on the channel
    | .unlockMiss _ _ _ => False
    | .unlockBucket none => ∀ p ∈ Q (wqHash chan), (κ.procs p).wqEntry.chan ≠ chan
    | .unlockBucket (some _) => one = true
  | _ => True

/-- Process `p` is in bucket `i` although it is not asleep: it is about to be, or it has just been woken. -/
def Transit (i : Fin NWQUEUE) (p : Fin np) : S.F → Prop
  | .sleep p' chan _ .setSleeping => p' = p ∧ wqHash chan = i
  | .wake _ chan (.unlink e _ _) => e = p ∧ wqHash chan = i
  | _ => False

/-- The wait-queue invariant, with the lists of the buckets. -/
structure QueueOk (s : State S nc) (Q : Fin NWQUEUE → List (Fin np)) : Prop where
  chain : ∀ i, Chain s.kern.nextOf (s.kern.head i) (Q i)
  entry : ∀ i p, p ∈ Q i → (s.kern.procs p).wqEntry.queued = true ∧ wqHash (s.kern.procs p).wqEntry.chan = i
  backptr : ∀ p, (s.kern.procs p).wqEntry.proc = p
  unqueued : ∀ p, (∀ i, p ∉ Q i) → (s.kern.procs p).wqEntry.queued = false
  asleep : ∀ p, (s.kern.procs p).state = .sleeping →
    p ∈ Q (wqHash (s.kern.procs p).chan) ∧ (s.kern.procs p).wqEntry.chan = (s.kern.procs p).chan
  member : ∀ i p, p ∈ Q i →
    (s.kern.procs p).state = .sleeping ∧ (s.kern.procs p).chan = (s.kern.procs p).wqEntry.chan ∨
      ∃ c f rest, s.stk (s.cur c) = f :: rest ∧ Transit i p f
  top : ∀ c f rest, s.stk (s.cur c) = f :: rest → TopOk s.kern Q f

section Points

variable {κ κ' : S.K} {Q Q' : Fin NWQUEUE → List (Fin np)} {f : S.F} {i : Fin NWQUEUE} {p : Fin np}

theorem transit_calm (h : Transit i p f) : f.calm = true := by
  cases f with
  | sleep p' chan lk pc | wake one chan pc => cases pc <;> first | rfl | exact h.elim
  | _ => exact h.elim

theorem not_transit_of_not_inQueue (h : f.inQueue = false) : ∀ i p, ¬ Transit i p f := by
  intro i p ht
  cases f <;> first | exact ht | cases h

/-- A process in transit is locked, and so is its bucket. -/
theorem transit_held (h : Transit i p f) (ht : TopOk κ Q f) : Lock.bucket i ∈ f.held ∧ Lock.proc p ∈ f.held := by
  cases f with
  | sleep p' chan lk pc =>
    cases pc <;> first | exact h.elim | (obtain ⟨rfl, rfl⟩ := h; simp [Frame.held])
  | wake one chan pc =>
    cases pc with
    | unlink e q next =>
      obtain ⟨rfl, rfl⟩ := h
      obtain ⟨⟨rfl, _⟩, _⟩ := ht
      simp [Frame.held]
    | _ => exact h.elim
  | _ => exact h.elim

/-- Points outside the critical sections, and points calls come back to, know nothing. -/
theorem topOk_of_quiet (h : f.held = [] ∨ f.returns = true) : TopOk κ Q f := by
  cases f with
  | sleep p chan lk pc | wake one chan pc => cases pc <;> simp_all [TopOk, Frame.held, Frame.returns]
  | _ => trivial

/-- What a point knows does not depend on links, on other buckets or on processes that are not listed. -/
theorem TopOk.congr (h : TopOk κ Q f) (hQ : ∀ i, Lock.bucket i ∈ f.held → Q' i = Q i)
    (he : ∀ i, Lock.bucket i ∈ f.held → ∀ p ∈ Q i, (κ'.procs p).wqEntry.chan = (κ.procs p).wqEntry.chan)
    (hs : ∀ p, Lock.proc p ∈ f.held → (κ'.procs p).state = (κ.procs p).state) : TopOk κ' Q' f := by
  have hcur : ∀ chan e, Lock.bucket (wqHash chan) ∈ f.held → Cursor κ Q chan e → Cursor κ' Q' chan e := by
    rintro chan e hl ⟨pre, suf, hq, hn, hp⟩
    refine ⟨pre, suf, by rw [hQ _ hl, hq], hn, fun p hm => ?_⟩
    rw [he _ hl p (by rw [hq]; exact List.mem_append_left _ hm)]
    exact hp p hm
  have hat : ∀ chan e q next, Lock.bucket (wqHash chan) ∈ f.held → At κ Q chan e q next → At κ' Q' chan e q next := by
    rintro chan e q next hl ⟨hqe, hc, pre, suf, hq, hn, hp⟩
    refine ⟨hqe, ?_, pre, suf, by rw [hQ _ hl, hq], hn, fun p hm => ?_⟩
    · rw [he _ hl e (by rw [hq]; simp)]; exact hc
    · rw [he _ hl p (by rw [hq]; exact List.mem_append_left _ hm)]
      exact hp p hm
  cases f with
  | sleep p chan lk pc =>
    cases pc with
    | setSleeping =>
      have hl : Lock.bucket (wqHash chan) ∈ (Frame.sleep p chan lk .setSleeping : S.F).held := by simp [Frame.held]
      exact ⟨by rw [hQ _ hl]; exact h.1, (he _ hl p h.1).trans h.2⟩
    | _ => trivial
  | wake one chan pc =>
    cases pc with
    | lockBucket | first => trivial
    | walk e => exact hcur _ _ (by simp [Frame.held]) h
    | lockProc e q next | test e q next => exact hat _ _ _ _ (by simp [Frame.held]) h
    | unlink e q next =>
      refine ⟨hat _ _ _ _ (by simp [Frame.held]) h.1, ?_⟩
      rw [hs e (by simp [Frame.held, h.1.1])]
      exact h.2
    | unlockWoken e q next => exact ⟨h.1, hcur _ _ (by simp [Frame.held]) h.2⟩
    | unlockMiss e q next => exact h
    | unlockBucket e =>
      cases e with
      | none =>
        have hl : Lock.bucket (wqHash chan) ∈ (Frame.wake one chan (.unlockBucket none) : S.F).held := by
          simp [Frame.held]
        intro p hp
        rw [hQ _ hl] at hp
        rw [he _ hl p hp]
        exact h p hp
      | some e => exact h
  | _ => trivial

end Points

/-! ## What an access does to the queues -/

/-- A point outside the queue functions, or one of them that does not change a queue or a sleeper. -/
def Idle (f : S.F) (κ κ' : S.K) : Prop :=
  f.inQueue = false ∨ (∃ p chan lk, f = .sleep p chan lk .tidy) ∨
    κ' = κ ∧ ∃ one chan pc, f = .wake one chan pc ∧
      ∀ e q next, pc = .test e q next → ¬ ((κ.procs q).state = .sleeping ∧ (κ.procs q).chan = chan)

/-- The effect of an access at `f` on the queues and on who sleeps. -/
inductive Effect (f : S.F) (κ κ' : S.K) : Prop
  /-- Neither queues nor sleepers change. -/
  | plain (hf : ∀ i p, ¬ Transit i p f) (hq : Idle f κ κ') (hh : κ'.head = κ.head)
      (he : ∀ q, (κ'.procs q).wqEntry = (κ.procs q).wqEntry)
      (hs : ∀ q, (κ'.procs q).state = (κ.procs q).state ∧ (κ'.procs q).chan = (κ.procs q).chan ∨
        Lock.proc q ∈ f.held ∧ (κ.procs q).state ≠ .sleeping ∧ (κ'.procs q).state ≠ .sleeping)
      (hc : ∀ q, (κ'.procs q).chan = (κ.procs q).chan ∨ ∃ chan lk, f = .sleep q chan lk .tidy)
  | add (p : Fin np) (chan : Chan) (lk : LockName) (hf : f = .sleep p chan lk .enqueue)
      (hk : κ' = κ.wqAddLocked (wqHash chan) chan p)
  | sleep (p : Fin np) (chan : Chan) (lk : LockName) (hf : f = .sleep p chan lk .setSleeping)
      (hk : κ' = κ.setProc p fun q => { q with chan := chan, state := .sleeping })
  | wake (one : Bool) (chan : Chan) (e q : Fin np) (next : Option (Fin np)) (hf : f = .wake one chan (.test e q next))
      (hs : (κ.procs q).state = .sleeping ∧ (κ.procs q).chan = chan)
      (hk : κ' = κ.setProc q fun r => { r with state := .runnable })
  | remove (one : Bool) (chan : Chan) (e q : Fin np) (next : Option (Fin np))
      (hf : f = .wake one chan (.unlink e q next)) (hk : κ' = κ.wqRemoveLocked (wqHash chan) e)
  /-- The slot of a process that was created or exited, but never sleeps in that state, is freed. -/
  | free (i : Fin np) (hq : f.inQueue = false) (hl : Lock.proc i ∈ f.held) (he : ∃ st, f.expects = some (i, st) ∧ st ≠ .runnable)
      (hk : κ' = κ.setProc i freeproc)

section Effects

variable {κ : S.K} {f : S.F} {me : Option (Fin np)} {g : S.K → S.K} {k : S.K → S.F}

/-- An access that changes nothing. -/
theorem Effect.same {κ' : S.K} (hf : ∀ i p, ¬ Transit i p f) (hq : Idle f κ κ') (hh : κ'.head = κ.head) (hp : κ'.procs = κ.procs) :
    Effect f κ κ' :=
  .plain hf hq hh (fun q => by rw [hp]) (fun q => .inl ⟨by rw [hp], by rw [hp]⟩) fun q => .inl (by rw [hp])

/-- An access outside the queue functions that leaves the processes alone. -/
theorem Effect.outside {κ' : S.K} (hq : f.inQueue = false) (hh : κ'.head = κ.head) (hp : κ'.procs = κ.procs) : Effect f κ κ' :=
  .same (not_transit_of_not_inQueue hq) (.inl hq) hh hp

/-- A store to one locked process that leaves its entry alone and does not concern sleeping. -/
theorem Effect.store {p : Fin np} {h : Proc np → Proc np} (hf : ∀ i p, ¬ Transit i p f)
    (hq : Idle f κ (κ.setProc p h))
    (he : (h (κ.procs p)).wqEntry = (κ.procs p).wqEntry)
    (hs : (h (κ.procs p)).state = (κ.procs p).state ∧ (h (κ.procs p)).chan = (κ.procs p).chan ∨
      Lock.proc p ∈ f.held ∧ (κ.procs p).state ≠ .sleeping ∧ (h (κ.procs p)).state ≠ .sleeping)
    (hc : (h (κ.procs p)).chan = (κ.procs p).chan ∨ ∃ chan lk, f = .sleep p chan lk .tidy) :
    Effect f κ (κ.setProc p h) := by
  refine .plain hf hq rfl (fun q => ?_) (fun q => ?_) fun q => ?_
  · by_cases hq : q = p
    · subst hq; rw [Kernel.setProc_same, he]
    · rw [Kernel.setProc_ne _ _ hq]
  · by_cases hq : q = p
    · subst hq; rw [Kernel.setProc_same]; exact hs
    · rw [Kernel.setProc_ne _ _ hq]; exact .inl ⟨rfl, rfl⟩
  · by_cases hq : q = p
    · subst hq; rw [Kernel.setProc_same]; exact hc
    · rw [Kernel.setProc_ne _ _ hq]; exact .inl rfl

/-- **Every access of the program text has one of these effects.** -/
theorem effect_of_upd (hi : instr S me f = .upd g k) (hm : Meets κ f)
    (ho : ∀ p, f.own = some p → (κ.procs p).state = .running) : Effect f κ (g κ) := by
  have hst := stores_of_upd hi κ
  generalize g κ = κ' at hst ⊢
  cases hst with
  | data hq hp hh _ => exact .outside hq hh hp
  | nextpid p i => exact .outside rfl rfl rfl
  | enqueue p chan lk => exact .add p chan lk rfl rfl
  | sleep p chan lk => exact .sleep p chan lk rfl rfl
  | tidy p chan lk =>
    refine .store (fun _ _ => id) (.inr (.inl ⟨p, chan, lk, rfl⟩)) rfl (.inr ?_) (.inr ⟨chan, lk, rfl⟩)
    have hr := ho p rfl
    simp [Frame.held, hr]
  | first one chan | walk one chan e =>
    exact .same (fun _ _ => id) (.inr (.inr ⟨rfl, one, chan, _, rfl, nofun⟩)) rfl rfl
  | miss one chan e q next h =>
    refine .same (fun _ _ => id) (.inr (.inr ⟨rfl, one, chan, _, rfl, fun e' q' next' he => ?_⟩)) rfl rfl
    cases he
    exact h
  | wake one chan e q next h => exact .wake one chan e q next rfl h rfl
  | unlink one chan e q next => exact .remove one chan e q next rfl rfl
  | kill i | setkilled q | adopt p i pid | reparent p i status h =>
    exact .store (fun _ _ => id) (.inl rfl) rfl (.inl ⟨rfl, rfl⟩) (.inl rfl)
  | create p i pid =>
    have := hm i .unused rfl
    exact .store (fun _ _ => id) (.inl rfl) rfl (.inr ⟨by simp [Frame.held], by simp [this], by simp⟩) (.inl rfl)
  | ready p i pid =>
    have := hm i .used rfl
    exact .store (fun _ _ => id) (.inl rfl) rfl (.inr ⟨by simp [Frame.held], by simp [this], by simp⟩) (.inl rfl)
  | drop p i | reap p i pid => exact .free i rfl (by simp [Frame.held]) ⟨_, rfl, by decide⟩ rfl
  | exit p status | yield p =>
    have := ho p rfl
    exact .store (fun _ _ => id) (.inl rfl) rfl (.inr ⟨by simp [Frame.held], by simp [this], by simp⟩) (.inl rfl)

end Effects

/-! ## The invariant is kept -/

namespace QueueOk

variable {s s' : State S nc} {Q Q' : Fin NWQUEUE → List (Fin np)} {c : Fin nc} {f k : S.F} {rest : List S.F}
  {p : Fin np} {i j : Fin NWQUEUE}

/-- No process is in two buckets. -/
theorem disj (h : QueueOk s Q) (hi : p ∈ Q i) (hj : p ∈ Q j) : i = j :=
  (h.entry i p hi).2.symm.trans (h.entry j p hj).2

section

variable (h : QueueOk s Q) (hb : Base s)
include h hb

/-- A queued process is asleep, about to be, or just woken. -/
theorem mem_state (hp : p ∈ Q i) :
    (s.kern.procs p).state = .sleeping ∨
      (s.kern.procs p).state = .running ∧
        (∃ c chan lk rest, s.cur c = .proc p ∧ s.stk (s.cur c) = .sleep p chan lk .setSleeping :: rest) ∨
      (s.kern.procs p).state = .runnable := by
  rcases h.member i p hp with ⟨hs, _⟩ | ⟨c, f, rest, hs, ht⟩
  · exact .inl hs
  · have hc := transit_calm ht
    have htop := h.top c f rest hs
    cases f with
    | sleep p' chan lk pc =>
      cases pc with
      | setSleeping =>
        obtain ⟨rfl, _⟩ := ht
        exact .inr (.inl ⟨hb.own_running hs hc rfl, c, chan, lk, rest, hb.own_cur hs rfl, hs⟩)
      | _ => exact ht.elim
    | wake one chan pc =>
      cases pc with
      | unlink e q next =>
        obtain ⟨rfl, _⟩ := ht
        exact .inr (.inr htop.2)
      | _ => exact ht.elim
    | _ => exact ht.elim

/-- A process that is running anything but the second half of its enqueue is in no queue. -/
theorem not_mem_of_own (hs : s.stk (s.cur c) = f :: rest) (hf : f.calm = true)
    (hp : f.own = some p) (ht : ∀ i p, ¬ Transit i p f) : p ∉ Q i := by
  intro hm
  have hr := hb.own_running hs hf hp
  rcases h.mem_state hb hm with hx | ⟨_, c', chan, lk, rest', hc', hs'⟩ | hx
  · rw [hr] at hx; cases hx
  · have : c' = c := hb.inj _ _ (hc'.trans (hb.own_cur hs hp).symm)
    subst this
    rw [hs] at hs'
    obtain ⟨rfl, _⟩ := List.cons.inj hs'
    exact ht (wqHash chan) p ⟨rfl, rfl⟩
  · rw [hr] at hx; cases hx

omit h hb in
/-- Who is in transit is so at the top of the CPU `c`, or of another. -/
theorem member_cases (h : QueueOk s Q) (hs : s.stk (s.cur c) = f :: rest) (hp : p ∈ Q i) :
    (s.kern.procs p).state = .sleeping ∧ (s.kern.procs p).chan = (s.kern.procs p).wqEntry.chan ∨ Transit i p f ∨
      ∃ c' ≠ c, ∃ f rest, s.stk (s.cur c') = f :: rest ∧ Transit i p f := by
  rcases h.member i p hp with hm | ⟨c', f', rest', hs', ht⟩
  · exact .inl hm
  · by_cases hc' : c' = c
    · subst hc'
      rw [hs] at hs'
      obtain ⟨rfl, _⟩ := List.cons.inj hs'
      exact .inr (.inl ht)
    · exact .inr (.inr ⟨c', hc', f', rest', hs', ht⟩)

/-- The invariant after a step of CPU `c`, by its parts. -/
theorem after (hf : Fires s c s')
    (chain : ∀ i, Chain s'.kern.nextOf (s'.kern.head i) (Q' i))
    (entry : ∀ i p, p ∈ Q' i → (s'.kern.procs p).wqEntry.queued = true ∧ wqHash (s'.kern.procs p).wqEntry.chan = i)
    (backptr : ∀ p, (s'.kern.procs p).wqEntry.proc = p)
    (unqueued : ∀ p, (∀ i, p ∉ Q' i) → (s'.kern.procs p).wqEntry.queued = false)
    (asleep : ∀ p, (s'.kern.procs p).state = .sleeping →
      p ∈ Q' (wqHash (s'.kern.procs p).chan) ∧ (s'.kern.procs p).wqEntry.chan = (s'.kern.procs p).chan)
    (member : ∀ i p, p ∈ Q' i →
      (s'.kern.procs p).state = .sleeping ∧ (s'.kern.procs p).chan = (s'.kern.procs p).wqEntry.chan ∨
        (∃ f rest, s'.stk (s'.cur c) = f :: rest ∧ Transit i p f) ∨
        ∃ c' ≠ c, ∃ f rest, s.stk (s.cur c') = f :: rest ∧ Transit i p f)
    (top : ∀ f rest, s'.stk (s'.cur c) = f :: rest → TopOk s'.kern Q' f)
    (others : ∀ c' ≠ c, ∀ f rest, s.stk (s.cur c') = f :: rest → TopOk s.kern Q f → TopOk s'.kern Q' f) :
    QueueOk s' Q' := by
  refine ⟨chain, entry, backptr, unqueued, asleep, fun i p hp => ?_, fun c' f rest hs => ?_⟩
  · rcases member i p hp with hm | ⟨f, rest, hs, ht⟩ | ⟨c', hc', f, rest, hs, ht⟩
    · exact .inl hm
    · exact .inr ⟨c, f, rest, hs, ht⟩
    · obtain ⟨h1, h2⟩ := hb.other_cpu hf hc'
      exact .inr ⟨c', f, rest, by rw [h1, h2, hs], ht⟩
  · by_cases hc' : c' = c
    · subst hc'; exact top f rest hs
    · obtain ⟨h1, h2⟩ := hb.other_cpu hf hc'
      rw [h1, h2] at hs
      exact others c' hc' f rest hs (h.top c' f rest hs)

/-- A step that leaves queues and sleepers alone. -/
theorem after_plain (hx : Fires s c s') (hs : s.stk (s.cur c) = f :: rest)
    (hf : ∀ i p, ¬ Transit i p f) (hh : s'.kern.head = s.kern.head)
    (he : ∀ q, (s'.kern.procs q).wqEntry = (s.kern.procs q).wqEntry)
    (hst : ∀ q, (s'.kern.procs q).state = (s.kern.procs q).state ∧ (s'.kern.procs q).chan = (s.kern.procs q).chan ∨
      Lock.proc q ∈ f.held ∧ (s.kern.procs q).state ≠ .sleeping ∧ (s'.kern.procs q).state ≠ .sleeping)
    (top : ∀ f rest, s'.stk (s'.cur c) = f :: rest → TopOk s'.kern Q f) : QueueOk s' Q := by
  have hn : s'.kern.nextOf = s.kern.nextOf := by
    funext q
    simp only [Kernel.nextOf, he]
  refine h.after hb hx (fun i => ?_) (fun i p hp => ?_) (fun p => ?_) (fun p hp => ?_) (fun p hp => ?_)
    (fun i p hp => ?_) top (fun c' hc' f' rest' hs' ht => ?_)
  · rw [hn, hh]; exact h.chain i
  · rw [he]; exact h.entry i p hp
  · rw [he]; exact h.backptr p
  · rw [he]; exact h.unqueued p hp
  · rcases hst p with ⟨h1, h2⟩ | ⟨_, _, h2⟩
    · rw [h1] at hp
      rw [h2, he]
      exact h.asleep p hp
    · exact absurd hp h2
  · rcases h.member_cases hs hp with ⟨hm, hc⟩ | ht | ho
    · rcases hst p with ⟨h1, h2⟩ | ⟨_, h1, _⟩
      · rw [h1, h2, he]; exact .inl ⟨hm, hc⟩
      · exact absurd hm h1
    · exact absurd ht (hf i p)
    · exact .inr (.inr ho)
  · refine ht.congr (fun _ _ => rfl) (fun _ _ q _ => by rw [he]) fun q hq => ?_
    rcases hst q with ⟨h1, _⟩ | ⟨hl, _⟩
    · exact h1
    · exact absurd (hb.held_unique hs hs' hl hq) hc'

/-- A store to a locked process, which leaves its entry alone or is not in a queue. -/
theorem after_store {g : Proc np → Proc np} (hx : Fires s c s')
    (hs : s.stk (s.cur c) = f :: rest) (hl : Lock.proc p ∈ f.held) (hk : s'.kern = s.kern.setProc p g)
    (he : (g (s.kern.procs p)).wqEntry = (s.kern.procs p).wqEntry ∨
      (∀ i, p ∉ Q i) ∧ (g (s.kern.procs p)).wqEntry.proc = p ∧ (g (s.kern.procs p)).wqEntry.queued = false)
    (ha : (g (s.kern.procs p)).state = .sleeping →
      p ∈ Q (wqHash (g (s.kern.procs p)).chan) ∧ (g (s.kern.procs p)).wqEntry.chan = (g (s.kern.procs p)).chan)
    (hm : ∀ i, p ∈ Q i → (g (s.kern.procs p)).state = .sleeping ∧
      (g (s.kern.procs p)).chan = (g (s.kern.procs p)).wqEntry.chan ∨ Transit i p k)
    (hf : ∀ i q, q ≠ p → ¬ Transit i q f) (hstk : s'.stk (s'.cur c) = k :: rest) (top : TopOk s'.kern Q k) :
    QueueOk s' Q := by
  have hne : ∀ q, q ≠ p → s'.kern.procs q = s.kern.procs q := fun q hq => by rw [hk, Kernel.setProc_ne _ _ hq]
  have hself : s'.kern.procs p = g (s.kern.procs p) := by rw [hk, Kernel.setProc_same]
  have hin : ∀ i q, q ∈ Q i → (s'.kern.procs q).wqEntry = (s.kern.procs q).wqEntry := by
    intro i q hq
    by_cases hqp : q = p
    · subst hqp
      rw [hself]
      exact he.resolve_right fun hno => hno.1 i hq
    · rw [hne q hqp]
  refine h.after hb hx (fun i => ?_) (fun i q hq => ?_) (fun q => ?_) (fun q hq => ?_) (fun q hq => ?_)
    (fun i q hq => ?_) (fun f' rest' hf' => ?_) (fun c' hc' f' rest' hs' ht => ?_)
  · rw [show s'.kern.head = s.kern.head by rw [hk]; rfl]
    exact (h.chain i).congr fun q hq => by simp only [Kernel.nextOf, hin i q hq]
  · rw [hin i q hq]; exact h.entry i q hq
  · by_cases hqp : q = p
    · subst hqp
      rw [hself]
      exact he.elim (fun he => by rw [he]; exact h.backptr q) fun hno => hno.2.1
    · rw [hne q hqp]; exact h.backptr q
  · by_cases hqp : q = p
    · subst hqp
      rw [hself]
      exact he.elim (fun he => by rw [he]; exact h.unqueued q hq) fun hno => hno.2.2
    · rw [hne q hqp]; exact h.unqueued q hq
  · by_cases hqp : q = p
    · subst hqp
      rw [hself] at hq ⊢
      exact ha hq
    · rw [hne q hqp] at hq ⊢
      exact h.asleep q hq
  · by_cases hqp : q = p
    · subst hqp
      rw [hself]
      exact (hm i hq).imp_right fun ht => .inl ⟨k, rest, hstk, ht⟩
    · rw [hne q hqp]
      exact (h.member_cases hs hq).imp_right fun ht => .inr (ht.resolve_left (hf i q hqp))
  · rw [hstk] at hf'
    obtain ⟨rfl, _⟩ := List.cons.inj hf'
    exact top
  · refine ht.congr (fun _ _ => rfl) (fun i _ q hq => by rw [hin i q hq]) fun q hq => ?_
    rw [hne q]
    rintro rfl
    exact hc' (hb.held_unique hs hs' hl hq)

end

/-! ### The accesses that change queues or sleepers -/

section Accesses

variable {chan : Chan} {lk : LockName} {one : Bool} {e q : Fin np} {next : Option (Fin np)}

variable (h : QueueOk s Q) (hb : Base s) (hx : Fires s c s')
include h hb hx

/-- `wq_add_locked` pushes the process in front of its bucket. -/
theorem after_add
    (hs : s.stk (s.cur c) = .sleep p chan lk .enqueue :: rest)
    (hstk : s'.stk (s'.cur c) = .sleep p chan lk .setSleeping :: rest)
    (hk : s'.kern = s.kern.wqAddLocked (wqHash chan) chan p) :
    QueueOk s' (update Q (wqHash chan) (p :: Q (wqHash chan))) := by
  have hnot : ∀ i, p ∉ Q i := fun i => h.not_mem_of_own hb hs rfl rfl fun _ _ => id
  have hentry : ∀ q, q ≠ p → (s'.kern.procs q).wqEntry = (s.kern.procs q).wqEntry := by
    intro q hq
    rw [hk, Kernel.wqAddLocked, Kernel.setHead_procs, Kernel.setEntry_entry, if_neg hq]
  have hself : (s'.kern.procs p).wqEntry = { proc := p, chan := chan, next := s.kern.head (wqHash chan), queued := true } := by
    rw [hk, Kernel.wqAddLocked, Kernel.setHead_procs, Kernel.setEntry_entry, if_pos rfl]
  have honly := Kernel.wqAddLocked_only s.kern (wqHash chan) chan p
  rw [← hk] at honly
  have hmem : ∀ i q, q ∈ update Q (wqHash chan) (p :: Q (wqHash chan)) i ↔ (q = p ∧ i = wqHash chan) ∨ q ∈ Q i := by
    intro i q
    by_cases hi : i = wqHash chan
    · subst hi; simp
    · simp [hi]
  refine h.after hb hx (fun i => ?_) (fun i q hq => ?_) (fun q => ?_) (fun q hq => ?_) (fun q hq => ?_)
    (fun i q hq => ?_) (fun f rest hf => ?_) (fun c' hc' f' rest' hs' ht => ?_)
  · by_cases hi : i = wqHash chan
    · subst hi
      rw [update_self, hk]
      exact Kernel.wqAddLocked_chain (h.chain _) (hnot _)
    · rw [update_of_ne hi]
      have hhead : s'.kern.head i = s.kern.head i := by rw [hk]; exact Kernel.setHead_ne _ _ hi
      rw [hhead]
      refine (h.chain i).congr fun q hq => ?_
      simp only [Kernel.nextOf, hentry q (fun e => hnot i (e ▸ hq))]
  · rcases (hmem i q).mp hq with ⟨rfl, rfl⟩ | hq
    · rw [hself]; exact ⟨rfl, rfl⟩
    · rw [hentry q (fun e => hnot i (e ▸ hq))]; exact h.entry i q hq
  · by_cases hq : q = p
    · rw [hq, hself]
    · rw [hentry q hq]; exact h.backptr q
  · have hqp : q ≠ p := fun e => hq (wqHash chan) ((hmem _ q).mpr (.inl ⟨e, rfl⟩))
    rw [hentry q hqp]
    exact h.unqueued q fun i hi => hq i ((hmem i q).mpr (.inr hi))
  · rw [honly.state] at hq
    obtain ⟨h1, h2⟩ := h.asleep q hq
    rw [honly.chan, hentry q (fun e => hnot _ (e ▸ h1))]
    exact ⟨(hmem _ q).mpr (.inr h1), h2⟩
  · rcases (hmem i q).mp hq with ⟨rfl, rfl⟩ | hq
    · exact .inr (.inl ⟨_, rest, hstk, rfl, rfl⟩)
    · rw [honly.state, honly.chan, hentry q (fun e => hnot i (e ▸ hq))]
      exact (h.member_cases hs hq).imp_right fun ht => .inr (ht.resolve_left id)
  · rw [hstk] at hf
    obtain ⟨rfl, _⟩ := List.cons.inj hf
    exact ⟨(hmem _ p).mpr (.inl ⟨rfl, rfl⟩), by rw [hself]⟩
  · refine ht.congr (fun i hi => ?_) (fun i _ q hq => by rw [hentry q (fun e => hnot i (e ▸ hq))])
      fun q _ => honly.state q
    refine update_of_ne (fun e => hc' ?_) _ _
    subst e
    exact hb.held_unique hs hs' (by simp [Frame.held]) hi

/-- A process that has enqueued itself falls asleep. -/
theorem after_sleep
    (hs : s.stk (s.cur c) = .sleep p chan lk .setSleeping :: rest)
    (hstk : s'.stk (s'.cur c) = .sleep p chan lk .unlockBucket :: rest)
    (hk : s'.kern = s.kern.setProc p fun q => { q with chan := chan, state := .sleeping }) : QueueOk s' Q := by
  obtain ⟨hp, hc⟩ := h.top c _ rest hs
  refine h.after_store hb hx hs (by simp [Frame.held]) hk (.inl rfl) (fun _ => ⟨hp, hc⟩) (fun _ _ => .inl ⟨rfl, hc.symm⟩)
    (fun _ q hq ht => hq ht.1.symm) hstk trivial

/-- A waker makes a sleeper of its channel runnable. -/
theorem after_wake
    (hs : s.stk (s.cur c) = .wake one chan (.test e q next) :: rest)
    (hstk : s'.stk (s'.cur c) = .wake one chan (.unlink e q next) :: rest)
    (hk : s'.kern = s.kern.setProc q fun r => { r with state := .runnable }) : QueueOk s' Q := by
  obtain ⟨rfl, hc, pre, suf, hQ, hnx, hpre⟩ : At s.kern Q chan e q next := h.top c _ rest hs
  have he : ∀ r, (s'.kern.procs r).wqEntry = (s.kern.procs r).wqEntry := by
    intro r
    rw [hk]
    by_cases hr : r = q
    · rw [hr, Kernel.setProc_same]
    · rw [Kernel.setProc_ne _ _ hr]
  have hm : ∀ i, q ∈ Q i → Transit i q (.wake one chan (.unlink q q next) : S.F) := fun i hm =>
    ⟨rfl, h.disj (by rw [hQ]; simp) hm⟩
  refine h.after_store hb hx hs (by simp [Frame.held]) hk (.inl rfl) (fun hsl => by cases hsl) (fun i hi => .inr (hm i hi))
    (fun _ _ _ => id) hstk ⟨⟨rfl, ?_, pre, suf, hQ, hnx, fun r hr => ?_⟩, ?_⟩
  · rw [he]; exact hc
  · rw [he]; exact hpre r hr
  · rw [hk, Kernel.setProc_same]

/-- `wq_remove_locked` takes the woken entry out of its bucket. -/
theorem after_remove
    (hs : s.stk (s.cur c) = .wake one chan (.unlink e q next) :: rest)
    (hstk : s'.stk (s'.cur c) = .wake one chan (.unlockWoken e q next) :: rest)
    (hk : s'.kern = s.kern.wqRemoveLocked (wqHash chan) e) :
    QueueOk s' (update Q (wqHash chan) ((Q (wqHash chan)).erase e)) := by
  obtain ⟨⟨rfl, hc, pre, suf, hQ, hnx, hpre⟩, hrun⟩ : At s.kern Q chan e q next ∧ _ := h.top c _ rest hs
  have hchain : Chain s.kern.nextOf (s.kern.head (wqHash chan)) (pre ++ q :: suf) := hQ ▸ h.chain _
  have hnd := hchain.nodup
  have herase : (Q (wqHash chan)).erase q = pre ++ suf := by
    rw [hQ, List.erase_append_right _ fun hm => ?_, List.erase_cons_head]
    exact (List.nodup_append.mp hnd).2.2 _ hm q List.mem_cons_self rfl
  have hmem : ∀ i r, r ∈ update Q (wqHash chan) ((Q (wqHash chan)).erase q) i ↔ r ≠ q ∧ r ∈ Q i := by
    intro i r
    by_cases hi : i = wqHash chan
    · subst hi
      rw [update_self, (hQ ▸ hnd : (Q (wqHash chan)).Nodup).mem_erase_iff]
    · rw [update_of_ne hi]
      refine ⟨fun hr => ⟨?_, hr⟩, And.right⟩
      rintro rfl
      exact hi (h.disj hr (by rw [hQ]; simp))
  have hself : (s'.kern.procs q).wqEntry = { (s.kern.procs q).wqEntry with next := none, chan := 0, queued := false } := by
    rw [hk]; exact Kernel.wqRemoveLocked_entry_self hchain
  have hent : ∀ r, r ≠ q → ∃ v, (s'.kern.procs r).wqEntry = { (s.kern.procs r).wqEntry with next := v } := by
    intro r hr
    rw [hk]; exact Kernel.wqRemoveLocked_entry_ne hchain hr
  have hchan : ∀ r, r ≠ q → (s'.kern.procs r).wqEntry.chan = (s.kern.procs r).wqEntry.chan := by
    intro r hr
    obtain ⟨v, hv⟩ := hent r hr
    rw [hv]
  have honly := Kernel.wqRemoveLocked_only s.kern (wqHash chan) q
  rw [← hk] at honly
  refine h.after hb hx (fun i => ?_) (fun i r hr => ?_) (fun r => ?_) (fun r hr => ?_) (fun r hr => ?_)
    (fun i r hr => ?_) (fun f rest hf => ?_) (fun c' hc' f' rest' hs' ht => ?_)
  · by_cases hi : i = wqHash chan
    · subst hi
      rw [update_self, herase, hk]
      exact Kernel.wqRemoveLocked_chain hchain
    · rw [update_of_ne hi]
      have hhead : s'.kern.head i = s.kern.head i := by rw [hk]; exact Kernel.wqRemoveLocked_head hchain hi
      rw [hhead]
      refine (h.chain i).congr fun r hr => ?_
      have hr' : r ∉ pre ++ q :: suf := fun hm => hi (h.disj hr (hQ ▸ hm))
      simp only [Kernel.nextOf, hk, Kernel.wqRemoveLocked_other hchain hr']
  · obtain ⟨hrq, hr⟩ := (hmem i r).mp hr
    obtain ⟨v, hv⟩ := hent r hrq
    rw [hv]; exact h.entry i r hr
  · by_cases hrq : r = q
    · rw [hrq, hself]; exact h.backptr q
    · obtain ⟨v, hv⟩ := hent r hrq
      rw [hv]; exact h.backptr r
  · by_cases hrq : r = q
    · rw [hrq, hself]
    · obtain ⟨v, hv⟩ := hent r hrq
      rw [hv]
      exact h.unqueued r fun i hi => hr i ((hmem i r).mpr ⟨hrq, hi⟩)
  · rw [honly.state] at hr
    have hrq : r ≠ q := by
      rintro rfl
      rw [hrun] at hr; cases hr
    obtain ⟨h1, h2⟩ := h.asleep r hr
    rw [honly.chan, hchan r hrq]
    exact ⟨(hmem _ r).mpr ⟨hrq, h1⟩, h2⟩
  · obtain ⟨hrq, hr⟩ := (hmem i r).mp hr
    rw [honly.state, honly.chan, hchan r hrq]
    exact (h.member_cases hs hr).imp_right fun ht => .inr (ht.resolve_left fun ht => hrq ht.1.symm)
  · rw [hstk] at hf
    obtain ⟨rfl, _⟩ := List.cons.inj hf
    refine ⟨rfl, pre, suf, by rw [update_self, herase], hnx, fun r hr => ?_⟩
    rw [hchan r]
    · exact hpre r hr
    · rintro rfl
      exact (List.nodup_append.mp hnd).2.2 _ hr r List.mem_cons_self rfl
  · have hb' : ∀ i, Lock.bucket i ∈ f'.held → i ≠ wqHash chan := by
      rintro i hi rfl
      exact hc' (hb.held_unique hs hs' (by simp [Frame.held]) hi)
    refine ht.congr (fun i hi => update_of_ne (hb' i hi) _ _) (fun i hi r hr => hchan r ?_)
      fun r _ => honly.state r
    rintro rfl
    exact hb' i hi (h.disj hr (by rw [hQ]; simp))

/-- A slot whose process does not sleep is freed. -/
theorem after_free (hs : s.stk (s.cur c) = f :: rest)
    (hl : Lock.proc p ∈ f.held) (hst : ∃ st, f.expects = some (p, st) ∧ st ≠ .runnable) (hf : ∀ i p, ¬ Transit i p f)
    (hk : s'.kern = s.kern.setProc p freeproc) (hstk : s'.stk (s'.cur c) = k :: rest) (top : TopOk s'.kern Q k) :
    QueueOk s' Q := by
  obtain ⟨st, he, hst⟩ := hst
  have hstate := hb.meets_top hs p st he
  obtain ⟨⟨hst1, hst2⟩, _⟩ := expects_cases he
  have hnot : ∀ i, p ∉ Q i := by
    intro i hm
    rcases h.mem_state hb hm with hx | ⟨hx, _⟩ | hx
    · exact hst2 (hstate.symm.trans hx)
    · exact hst1 (hstate.symm.trans hx)
    · exact hst (hstate.symm.trans hx)
  exact h.after_store hb hx hs hl hk (.inr ⟨hnot, h.backptr p, rfl⟩) (fun hsl => by cases hsl) (fun i hm => absurd hm (hnot i))
    (fun i q _ => hf i q) hstk top

end Accesses

/-! ### Steps -/

/-- Only accesses happen while a process is in transit. -/
theorem not_transit {me : Option (Fin np)} {ins : S.I} (hi : instr S me f = ins) (hne : ∀ g k, ins ≠ .upd g k) :
    ∀ i p, ¬ Transit i p f := by
  intro i p ht
  cases f with
  | sleep p' chan lk pc | wake one chan pc => cases pc <;> first | exact ht.elim | exact hne _ _ hi.symm
  | _ => exact ht.elim

theorem topOk_of_not_inQueue {κ : S.K} (h : k.inQueue = false) : TopOk κ Q k := by
  cases k <;> first | trivial | cases h

/-- The queue functions consist of lock operations, accesses and calls. -/
theorem topOk_goes {κ : S.K} {me : Option (Fin np)} {ins : S.I} (hg : Goes f k) (hi : instr S me f = ins)
    (hu : (∀ g k, ins ≠ .upd g k) ∧ (∀ l k, ins ≠ .acquire l k) ∧ ∀ l k, ins ≠ .release l k)
    (hc : ∀ g k, ins ≠ .call g k) : TopOk κ Q k := by
  rcases hg.queue with hq | hq
  · exfalso
    cases f with
    | sleep p chan lk pc =>
      cases pc <;> first | exact hu.1 _ _ hi.symm | exact hu.2.1 _ _ hi.symm | exact hu.2.2 _ _ hi.symm | exact hc _ _ hi.symm
    | wake one chan pc =>
      cases pc with
      | walk e => cases e <;> exact hu.1 _ _ hi.symm
      | _ => first | exact hu.1 _ _ hi.symm | exact hu.2.1 _ _ hi.symm | exact hu.2.2 _ _ hi.symm
    | _ => cases hq
  · exact topOk_of_not_inQueue hq

theorem topOk_acquire {κ : S.K} {me : Option (Fin np)} {l : Lock np} (hi : instr S me f = .acquire l k)
    (ht : TopOk κ Q f) : TopOk κ Q k := by
  obtain ⟨_, _, _, hg⟩ : TextOk me f (.acquire l k) := textOk_of hi
  rcases hg.queue with hq | hq
  · cases f with
    | sleep p chan lk pc => cases pc <;> cases hi <;> trivial
    | wake one chan pc =>
      cases pc with
      | walk e => cases e <;> cases hi
      | lockBucket => cases hi; trivial
      | lockProc e q next => cases hi; exact ht
      | _ => cases hi
    | _ => cases hq
  · exact topOk_of_not_inQueue hq

theorem topOk_release {κ : S.K} {me : Option (Fin np)} {l : Lock np} (hi : instr S me f = .release l k)
    (ht : TopOk κ Q f) : TopOk κ Q k := by
  obtain ⟨_, _, _, hg⟩ : TextOk me f (.release l k) := textOk_of hi
  rcases hg.queue with hq | hq
  · cases f with
    | sleep p chan lk pc => cases pc <;> cases hi <;> trivial
    | wake one chan pc =>
      cases pc with
      | walk e => cases e <;> cases hi
      | unlockWoken e q next =>
        cases one <;> cases hi
        · exact ht.2
        · exact rfl
      | unlockMiss e q next => exact ht.elim
      | unlockBucket e => cases hi; trivial
      | _ => cases hi
    | _ => cases hq
  · exact topOk_of_not_inQueue hq

variable (h : QueueOk s Q) (hb : Base s)
include h hb

/-- A step that does not access the shared data. -/
theorem after_quiet (hx : Fires s c s') (hs : s.stk (s.cur c) = f :: rest)
    (ht : ∀ i p, ¬ Transit i p f) (hk : s'.kern = s.kern)
    (top : ∀ f rest, s'.stk (s'.cur c) = f :: rest → TopOk s.kern Q f) : QueueOk s' Q := by
  refine h.after_plain hb hx hs ht (by rw [hk]) (fun q => by rw [hk])
    (fun q => .inl ⟨by rw [hk], by rw [hk]⟩) fun f rest hs' => ?_
  rw [hk]; exact top f rest hs'

/-- The same, for a step that replaces the top of the stack. -/
theorem after_goto {ins : S.I} {r : List S.F} (hx : Fires s c s')
    (hs : s.stk (s.cur c) = f :: rest) (hi : instr S (s.cpus c).proc f = ins) (hne : ∀ g k, ins ≠ .upd g k)
    (hk : s'.kern = s.kern) (hstk : s'.stk (s'.cur c) = k :: r) (top : TopOk s.kern Q k) : QueueOk s' Q := by
  refine h.after_quiet hb hx hs (not_transit hi hne) hk fun f' rest' hs' => ?_
  rw [hstk] at hs'
  obtain ⟨rfl, _⟩ := List.cons.inj hs'
  exact top

/-- The walk of `wakeup` and `wakeup_one` outside its stores. -/
theorem topOk_walk {one : Bool} {chan : Chan} {pc : WakePc np} {g : S.K → S.K}
    {k : S.K → S.F} {me : Option (Fin np)} (hs : s.stk (s.cur c) = .wake one chan pc :: rest)
    (hi : instr S me (.wake one chan pc) = .upd g k) (ht : ∀ i p, ¬ Transit i p (.wake one chan pc : S.F))
    (hw : ∀ e q next, pc = .test e q next → ¬ ((s.kern.procs q).state = .sleeping ∧ (s.kern.procs q).chan = chan)) :
    TopOk s.kern Q (k s.kern) := by
  have htop := h.top c _ rest hs
  cases pc with
  | first =>
    cases hi
    exact ⟨[], Q (wqHash chan), rfl, (h.chain _).head_eq, fun p hp => by cases hp⟩
  | walk e =>
    obtain ⟨pre, suf, hQ, he, hpre⟩ := htop
    cases e with
    | none =>
      cases hi
      have hsuf : suf = [] := List.head?_eq_none_iff.mp he.symm
      intro p hp
      rw [hQ, hsuf, List.append_nil] at hp
      exact hpre p hp
    | some e =>
      cases hi
      obtain ⟨suf, rfl⟩ : ∃ t, suf = e :: t := by
        cases suf with
        | nil => cases he
        | cons a t => exact ⟨t, by rw [Option.some.inj he]⟩
      have hnext : (s.kern.procs e).wqEntry.next = suf.head? := (hQ ▸ h.chain (wqHash chan)).next_eq
      by_cases hc : (s.kern.procs e).wqEntry.chan = chan
      · simp only [if_pos hc]
        exact ⟨h.backptr e, hc, pre, suf, hQ, hnext, hpre⟩
      · simp only [if_neg hc]
        refine ⟨pre ++ [e], suf, by rw [hQ, List.append_assoc]; rfl, hnext, fun p hp => ?_⟩
        rcases List.mem_append.mp hp with hp | hp
        · exact hpre p hp
        · rw [List.mem_singleton.mp hp]; exact hc
  | test e q next =>
    exfalso
    obtain ⟨rfl, hc, pre, suf, hQ, _, _⟩ := htop
    have hmem : q ∈ Q (wqHash chan) := by rw [hQ]; simp
    rcases h.member_cases hs hmem with ⟨h1, h2⟩ | ht' | ⟨c', hc', f', rest', hs', ht'⟩
    · exact hw q q next rfl ⟨h1, h2.trans hc⟩
    · exact ht'
    · -- the bucket lock excludes that another CPU has the process in transit
      exact hc' (hb.held_unique hs hs' (by simp [Frame.held]) (transit_held ht' (h.top c' f' rest' hs')).1)
  | unlink e q next => exact absurd ⟨rfl, rfl⟩ (ht (wqHash chan) e)
  | _ => cases hi

theorem upd_step {g : S.K → S.K} {k : S.K → S.F}
    (hs : s.stk (s.cur c) = f :: rest) (hi : instr S (s.cpus c).proc f = .upd g k) :
    ∃ Q', QueueOk { s.setStk c (k s.kern :: rest) with kern := g s.kern } Q' := by
  have hx := Fires.upd hs hi
  have hstk : ∀ st, update s.stk (s.cur c) st (s.cur c) = st := fun st => update_self _ _ _
  have hu := updOk_of_upd hi s.kern
  have heff := effect_of_upd hi (hb.meets_top hs) fun p hp => hb.own_running hs hu.calm hp
  cases heff with
  | plain hf hq hh he hst _ =>
    refine ⟨Q, h.after_plain hb hx hs hf hh he hst fun f' rest' hs' => ?_⟩
    obtain ⟨rfl, rfl⟩ := List.cons.inj ((hstk _).symm.trans hs')
    rcases hq with hq | ⟨p, chan, lk, rfl⟩ | ⟨hk, one, chan, pc, rfl, hw⟩
    · rcases hu.queue with hq' | hq'
      · rw [hq] at hq'; cases hq'
      · exact topOk_of_not_inQueue hq'
    · cases hi; trivial
    · show TopOk (g s.kern) Q _
      rw [hk]
      exact h.topOk_walk hb hs hi hf hw
  | add p chan lk hf hk =>
    subst hf
    cases hi
    exact ⟨_, h.after_add hb hx hs (hstk _) hk⟩
  | sleep p chan lk hf hk =>
    subst hf
    cases hi
    exact ⟨_, h.after_sleep hb hx hs (hstk _) hk⟩
  | wake one chan e q next hf hw hk =>
    subst hf
    cases hi
    refine ⟨_, h.after_wake hb hx hs ?_ hk⟩
    simp only [if_pos hw]
    exact hstk _
  | remove one chan e q next hf hk =>
    subst hf
    cases hi
    exact ⟨_, h.after_remove hb hx hs (hstk _) hk⟩
  | free i hq hl he hk =>
    refine ⟨Q, h.after_free hb hx hs hl he (not_transit_of_not_inQueue hq) hk (hstk _) ?_⟩
    rcases hu.queue with hq' | hq'
    · rw [hq] at hq'; cases hq'
    · exact topOk_of_not_inQueue hq'

theorem dispatch_step (hs : s.stk (s.cur c) = f :: rest)
    (hi : instr S (s.cpus c).proc f = .dispatch p k) :
    QueueOk { (s.setCpu c fun x => { x with proc := some p }).setStk c (k :: rest) with
      kern := s.kern.setProc p fun q => { q with state := .running }
      cur := update s.cur c (.proc p) } Q := by
  obtain ⟨rfl, rfl⟩ : f = .scheduler (.run p) ∧ k = .scheduler (.back p) := textOk_of hi
  have hrunnable : (s.kern.procs p).state = .runnable := hb.meets_top hs p .runnable rfl
  refine h.after_plain hb (.dispatch hs hi) hs (fun _ _ => id) rfl (fun q => ?_)
    (fun q => ?_) fun f' rest' hs' => ?_
  · by_cases hq : q = p
    · subst hq; simp
    · simp [Kernel.setProc_ne _ _ hq]
  · by_cases hq : q = p
    · subst hq
      exact .inr ⟨by simp [Frame.held], by simp [hrunnable], by simp⟩
    · exact .inl (by simp [Kernel.setProc_ne _ _ hq])
  · -- the process goes on inside `swtch`, or starts
    obtain ⟨hc, _, _, hnot⟩ := hb.dispatch_parked hs
    have hstk : s.stk (.proc p) = f' :: rest' := by
      have hne : Tid.proc p ≠ s.cur c := by rw [hc]; simp
      simpa [update_of_ne hne] using hs'
    have hpk := hb.parked p hnot
    rw [hstk] at hpk
    rcases hpk with he | ⟨b, g, rest, he, _⟩ <;> (rw [(List.cons.inj he).1]; trivial)

/-- **Every step keeps the wait-queue invariant.** -/
theorem step {a : Act} (hst : step s c a = some s') : ∃ Q', QueueOk s' Q' := by
  obtain ⟨hp, hf⟩ := fires_of_step hst
  have hstk : ∀ (t : Tid np nc → List S.F) st, update t (s.cur c) st (s.cur c) = st :=
    fun t st => update_self _ _ _
  cases hf with
  | upd hs hi => exact h.upd_step hb hs hi
  | dispatch hs hi => exact ⟨Q, h.dispatch_step hb hs hi⟩
  | panic hx hp' => exact ⟨Q, h.chain, h.entry, h.backptr, h.unqueued, h.asleep, h.member, h.top⟩
  | acquire hs hi hl =>
    exact ⟨Q, h.after_goto hb (.acquire hs hi hl) hs hi (by simp) rfl (hstk _ _) (topOk_acquire hi (h.top c _ _ hs))⟩
  | release hs hi hl =>
    exact ⟨Q, h.after_goto hb (.release hs hi hl) hs hi (by simp) rfl (hstk _ _) (topOk_release hi (h.top c _ _ hs))⟩
  | call hs hi =>
    have hok : TextOk _ _ (.call _ _) := textOk_of hi
    exact ⟨Q, h.after_goto hb (.call hs hi) hs hi (by simp) rfl (hstk _ _) (topOk_of_quiet (.inl hok.calleeHeld))⟩
  | @ret f g rest v hs hi =>
    obtain ⟨r1, _, _, _, _, _, _, r8, _⟩ := resume_ok g v
    have hg := ((hb.stk_top hs).tail g List.mem_cons_self).2
    exact ⟨Q, h.after_goto hb (.ret hs hi) hs hi (by simp) rfl (hstk _ _) (topOk_of_quiet (by rw [r1, r8]; exact hg))⟩
  | @choose f rest k n hs hi =>
    have hok : TextOk _ f (.choose k) := textOk_of hi
    exact ⟨Q, h.after_goto hb (.choose n hs hi) hs hi (by simp) rfl (hstk _ _) (topOk_goes (hok n).2.2.2 hi (by simp) (by simp))⟩
  | @sched f rest p hs hi hl hn hr hsie =>
    obtain rfl : f = .sched p .enter := textOk_of hi
    have hc := hb.own_cur hs (p := p) rfl
    have hne : Tid.cpu c ≠ s.cur c := by rw [hc]; simp
    refine ⟨Q, h.after_goto hb (.sched hs hi hl hn hr hsie) hs hi (by simp) rfl (k := .scheduler (.back p)) (r := []) ?_ trivial⟩
    simp only [update_self, setStk_stk, update_of_ne hne, hb.back c p hc]
  | @spawn f rest q k hs hi =>
    have hok : TextOk _ f (.spawn q k) := textOk_of hi
    exact ⟨Q, h.after_goto hb (.spawn hs hi) hs hi (by simp) rfl (hstk _ _) (topOk_goes hok.2.2.2.2 hi (by simp) (by simp))⟩
  | @cpu f rest g k hs hi =>
    have hok : TextOk _ f (.cpu g k) := textOk_of hi
    exact ⟨Q, h.after_goto hb (.cpu hs hi) hs hi (by simp) rfl (hstk _ _) (topOk_goes hok.2.2.2.1 hi (by simp) (by simp))⟩
  | @intrOn f rest k hs hi hn =>
    have hok : TextOk _ f (.intrOn k) := textOk_of hi
    exact ⟨Q, h.after_goto hb (.intrOn hs hi hn) hs hi (by simp) rfl (hstk _ _) (topOk_goes hok.2.2.2 hi (by simp) (by simp))⟩
  | @sret f rest hs hi hn =>
    refine ⟨Q, h.after_quiet hb (.sret hs hi hn) hs (not_transit hi (by simp)) rfl fun f' rest' hs' => ?_⟩
    obtain rfl : rest = f' :: rest' := (hstk _ _).symm.trans hs'
    exact topOk_of_quiet ((hb.stk_top hs).tail f' List.mem_cons_self).2
  | @intr f rest irq hs hi =>
    have hh := hb.heldS_of_sie hp hi
    have hnt : ∀ i p, ¬ Transit i p f := by
      intro i p ht
      have hl := (transit_held ht (h.top c f rest hs)).1
      rw [hs] at hh
      have : _ ∈ heldS (f :: rest) := mem_heldS List.mem_cons_self hl
      rw [hh] at this; cases this
    refine ⟨Q, h.after_quiet hb (.intr irq hs hi) hs hnt rfl fun f' rest' hs' => ?_⟩
    rw [← (List.cons.inj ((hstk _ _).symm.trans hs')).1]
    trivial

end QueueOk

theorem queueOk_boot : QueueOk (boot S nc) fun _ => [] := by
  have hstate : ∀ p, ((boot S nc).kern.procs p).state ≠ .sleeping ∧ ((boot S nc).kern.procs p).wqEntry.proc = p ∧
      ((boot S nc).kern.procs p).wqEntry.queued = false := by
    intro p
    simp only [boot]
    split <;> simp [Proc.fresh]
  refine ⟨fun i => .nil, fun i p hp => ?_, fun p => (hstate p).2.1, fun p _ => (hstate p).2.2,
    fun p hp => absurd hp (hstate p).1, fun i p hp => ?_, fun c f rest hs => ?_⟩
  · cases hp
  · cases hp
  · simp only [boot, List.cons.injEq] at hs
    rw [← hs.1]
    trivial

/-- **The wait-queue invariant holds in every reachable state.** -/
theorem Reachable.queue {s : State S nc} (h : Reachable s) : ∃ Q, QueueOk s Q :=
  Reachable.induct (P := fun s => ∃ Q, QueueOk s Q) ⟨_, queueOk_boot⟩
    (fun _ _ hr ⟨_, hq⟩ ⟨_, _, hs⟩ => hq.step hr.base hs) h

/-! ## The representation of the wait queues -/

/-- **The wait queues.** In a reachable state, a bucket whose lock is free is a null-terminated list without repetitions
that shares no entry with another bucket. It contains the entry of a process exactly if the process is SLEEPING on the
channel stored in the entry and that channel belongs to the bucket, and then, and only then, `queued` is set. -/
theorem wait_queue_representation {s : State S nc} (h : Reachable s) (i : Fin NWQUEUE)
    (hi : s.locks (.bucket i) = none) :
    ∃ l, Chain s.kern.nextOf (s.kern.head i) l ∧ l.Nodup ∧
      (∀ j l', j ≠ i → Chain s.kern.nextOf (s.kern.head j) l' → ∀ p ∈ l, p ∉ l') ∧
      ∀ p, let q := s.kern.procs p
        (p ∈ l ↔ q.state = .sleeping ∧ q.chan = q.wqEntry.chan ∧ wqHash q.chan = i) ∧
        (p ∈ l ↔ q.wqEntry.queued = true ∧ wqHash q.wqEntry.chan = i) := by
  obtain ⟨Q, hQ⟩ := h.queue
  refine ⟨Q i, hQ.chain i, (hQ.chain i).nodup, fun j l' hj hl' p hp hp' => ?_, fun p => ⟨⟨fun hp => ?_, fun hp => ?_⟩, ?_⟩⟩
  · rw [hl'.unique (hQ.chain j)] at hp'
    exact hj (hQ.disj hp' hp)
  · rcases hQ.member i p hp with ⟨h1, h2⟩ | ⟨c, f, rest, hs, ht⟩
    · exact ⟨h1, h2, by rw [h2]; exact (hQ.entry i p hp).2⟩
    · have hl := h.base.holder (by
        rw [hs]; exact mem_heldS List.mem_cons_self (transit_held ht (hQ.top c f rest hs)).1)
      rw [hi] at hl; cases hl
  · obtain ⟨h1, h2⟩ := hQ.asleep p hp.1
    rwa [hp.2.2] at h1
  · refine ⟨hQ.entry i p, fun ⟨hq, hh⟩ => ?_⟩
    by_contra hn
    have hu := hQ.unqueued p fun j hj => ?_
    · rw [hq] at hu; cases hu
    · rw [← (hQ.entry j p hj).2, hh] at hj
      exact hn hj

/-- One process that goes to sleep on channel `24`. -/
def napper : System 1 := tableSystem [.acquire .ticksLock 2, .sleep 24#64 .ticksLock 3] 0 fun _ => false

/-- The napper asleep: its bucket is free and holds exactly its entry. -/
theorem wait_queue_representation_napper :
    let s := after napper 1 (List.replicate 15 (0, .run 0))
    s.locks (.bucket 3) = none ∧ s.kern.head 3 = some 0 ∧
      ∃ l, Chain s.kern.nextOf (s.kern.head 3) l ∧ l.Nodup ∧
        (∀ j l', j ≠ 3 → Chain s.kern.nextOf (s.kern.head j) l' → ∀ p ∈ l, p ∉ l') ∧
        ∀ p, let q := s.kern.procs p
          (p ∈ l ↔ q.state = .sleeping ∧ q.chan = q.wqEntry.chan ∧ wqHash q.chan = 3) ∧
          (p ∈ l ↔ q.wqEntry.queued = true ∧ wqHash q.wqEntry.chan = 3) :=
  ⟨rfl, rfl, wait_queue_representation (reachable_after napper _) 3 rfl⟩

end Xv6
