import Xv6.Kernel.FastPath

/-!
# The hashed wakeup and the scan of the process table

`Kernel.wakeup` and `Kernel.wakeupOne` are the loops of `wakeup` and `wakeup_one` run without interruption while the
bucket is locked: they follow the `next` pointers and unlink entries as they go. `Kernel.scanWakeup` is the loop over
all slots of the process table that they replace.

- `wakeLoop_wakes`, `wakeLoop_one`: a walk of a well-formed bucket, by induction over the entries ahead of the cursor;
- `wakeup_refines_scan`: in a reachable state both wake what the scan wakes, and touch nothing else;
- `wake_runs`: the program text of `wakeup` and `wakeup_one` on one CPU computes these functions.
-/

namespace Xv6

open Lib State
open Function (update update_eq_self update_idem update_self)

variable {np : Nat} {D : Type}

namespace Kernel

/-- Process `p` is asleep on the channel. -/
def asleepOn (κ : Kernel np D) (chan : Chan) (p : Fin np) : Bool :=
  (κ.procs p).state = .sleeping ∧ (κ.procs p).chan = chan

@[simp] theorem asleepOn_iff {κ : Kernel np D} {chan : Chan} {p : Fin np} :
    κ.asleepOn chan p = true ↔ (κ.procs p).state = .sleeping ∧ (κ.procs p).chan = chan := by simp [asleepOn]

/-- `p->state = RUNNABLE`. -/
def setRunnable (κ : Kernel np D) (p : Fin np) : Kernel np D := κ.setProc p fun q => { q with state := .runnable }

/-- The loop of `wakeup` and, with `one`, of `wakeup_one` from the entry `e` on, with a bound on the number of turns. -/
def wakeLoop (one : Bool) (chan : Chan) : Nat → Option (Fin np) → Kernel np D → Option (Kernel np D)
  | _, none, κ => some κ
  | 0, some _, _ => none
  | n + 1, some e, κ =>
    let entry := (κ.procs e).wqEntry
    if entry.chan = chan ∧ κ.asleepOn chan entry.proc then
      let κ := (κ.setRunnable entry.proc).wqRemoveLocked (wqHash chan) e
      if one then some κ else wakeLoop one chan n entry.next κ
    else wakeLoop one chan n entry.next κ

/-- `wakeup(chan)`, without interruption. A bucket has at most `np` entries. -/
def wakeup (κ : Kernel np D) (chan : Chan) : Option (Kernel np D) := wakeLoop false chan np (κ.head (wqHash chan)) κ

/-- `wakeup_one(chan)`, without interruption. -/
def wakeupOne (κ : Kernel np D) (chan : Chan) : Option (Kernel np D) := wakeLoop true chan np (κ.head (wqHash chan)) κ

/-- The scan of the process table: every slot that is SLEEPING on the channel is made RUNNABLE. -/
def scanWakeup (κ : Kernel np D) (chan : Chan) : Kernel np D :=
  (List.finRange np).foldl (fun κ p => if κ.asleepOn chan p then κ.setRunnable p else κ) κ

/-! ## What a wakeup does -/

/-- `κ'` is `κ` with the processes of bucket `i`, whose list is `l`, that satisfy `W` made RUNNABLE and taken out of
the list. The links of the entries that stay are the only other thing that changes. -/
structure Wakes (i : Fin NWQUEUE) (l : List (Fin np)) (W : Fin np → Bool) (κ κ' : Kernel np D) : Prop where
  mem : ∀ p, W p → p ∈ l
  woken : ∀ p, W p = true → κ'.procs p = { κ.procs p with
    state := .runnable, wqEntry := { (κ.procs p).wqEntry with next := none, chan := 0, queued := false } }
  kept : ∀ p, W p = false →
    κ'.procs p = { κ.procs p with wqEntry := { (κ.procs p).wqEntry with next := κ'.nextOf p } }
  outside : ∀ p, p ∉ l → κ'.procs p = κ.procs p
  chain : Chain κ'.nextOf (κ'.head i) (l.filter fun p => !W p)
  head : ∀ j, j ≠ i → κ'.head j = κ.head j
  nextpid : κ'.nextpid = κ.nextpid
  data : κ'.data = κ.data

section Walk

variable {κ κ₁ κ₂ : Kernel np D} {i : Fin NWQUEUE} {l pre suf : List (Fin np)} {W W₁ W₂ : Fin np → Bool} {chan : Chan}
  {e p : Fin np}

theorem Wakes.refl (hc : Chain κ.nextOf (κ.head i) l) : Wakes i l (fun _ => false) κ κ where
  mem _ h := by cases h
  woken _ h := by cases h
  kept _ _ := rfl
  outside _ _ := rfl
  chain := by simpa using hc
  head _ _ := rfl
  nextpid := rfl
  data := rfl

/-- Wakeups one after the other. -/
theorem Wakes.trans (h₁ : Wakes i l W₁ κ κ₁) (h₂ : Wakes i (l.filter fun p => !W₁ p) W₂ κ₁ κ₂) :
    Wakes i l (fun p => W₁ p || W₂ p) κ κ₂ where
  mem p h := by
    rcases Bool.or_eq_true _ _ |>.mp h with h | h
    · exact h₁.mem p h
    · exact (List.mem_filter.mp (h₂.mem p h)).1
  woken p h := by
    rcases Bool.or_eq_true _ _ |>.mp h with h | h
    · -- the second wakeup does not know the process any more
      have hout : p ∉ l.filter fun p => !W₁ p := by simp [h]
      rw [h₂.outside p hout, h₁.woken p h]
    · have hn : W₁ p = false := by simpa using (List.mem_filter.mp (h₂.mem p h)).2
      rw [h₂.woken p h, h₁.kept p hn]
  kept p h := by
    obtain ⟨hn₁, hn₂⟩ := Bool.or_eq_false_iff.mp h
    rw [h₂.kept p hn₂, h₁.kept p hn₁]
  outside p h := (h₂.outside p fun hx => h (List.mem_filter.mp hx).1).trans (h₁.outside p h)
  chain := by
    have := h₂.chain
    rw [List.filter_filter] at this
    convert this using 2
    funext p
    cases W₁ p <;> cases W₂ p <;> rfl
  head j hj := (h₂.head j hj).trans (h₁.head j hj)
  nextpid := h₂.nextpid.trans h₁.nextpid
  data := h₂.data.trans h₁.data

theorem nextOf_setRunnable : (κ.setRunnable e).nextOf = κ.nextOf := by
  funext q
  by_cases hq : q = e
  · subst hq; simp [nextOf, setRunnable]
  · simp [nextOf, setRunnable, setProc_ne _ _ hq]

theorem filter_ne (hd : (pre ++ e :: suf).Nodup) :
    (pre ++ e :: suf).filter (fun p => !decide (p = e)) = pre ++ suf := by
  simp only [List.nodup_append, List.nodup_cons, List.mem_cons] at hd
  obtain ⟨_, ⟨hes, _⟩, hdis⟩ := hd
  rw [List.filter_append, List.filter_cons_of_neg (by simp), List.filter_eq_self.mpr, List.filter_eq_self.mpr]
  · intro a ha
    simpa using fun hx : a = e => hes (hx ▸ ha)
  · intro a ha
    simpa using hdis a ha e (.inl rfl)

/-- Waking the process of one entry. -/
theorem Wakes.one (hc : Chain κ.nextOf (κ.head i) (pre ++ e :: suf)) :
    Wakes i (pre ++ e :: suf) (fun p => p = e) κ ((κ.setRunnable e).wqRemoveLocked i e) := by
  have hc' : Chain (κ.setRunnable e).nextOf ((κ.setRunnable e).head i) (pre ++ e :: suf) := by
    rw [nextOf_setRunnable]; exact hc
  have honly := wqRemoveLocked_only (κ.setRunnable e) i e
  have hne : ∀ {p}, p ≠ e → (κ.setRunnable e).procs p = κ.procs p := fun hp => setProc_ne _ _ hp
  refine ⟨fun p hp => ?_, fun p hp => ?_, fun p hp => ?_, fun p hp => ?_, ?_, fun j hj => ?_, ?_, ?_⟩
  · rw [of_decide_eq_true hp]; simp
  · obtain rfl : p = e := of_decide_eq_true hp
    rw [honly p, wqRemoveLocked_entry_self hc']
    simp [setRunnable]
  · have hp : p ≠ e := of_decide_eq_false hp
    obtain ⟨v, hv⟩ := wqRemoveLocked_entry_ne hc' hp
    rw [honly p, nextOf, hv, hne hp]
  · have hpe : p ≠ e := fun hx => hp (by simp [hx])
    rw [honly p, wqRemoveLocked_other hc' hp, hne hpe]
  · rw [filter_ne hc.nodup]
    exact wqRemoveLocked_chain hc'
  · rw [wqRemoveLocked_head hc' hj]; rfl
  · rcases wqRemoveLocked_eq hc' with ⟨_, h⟩ | ⟨_, b, _, h⟩ <;> (rw [h]; rfl)
  · rcases wqRemoveLocked_eq hc' with ⟨_, h⟩ | ⟨_, b, _, h⟩ <;> (rw [h]; rfl)

/-! ## The walk -/

/-- The bucket of the channel has `pre` behind the cursor and `suf` ahead of it, and the entries ahead that carry the
channel are those of the processes asleep on it. -/
structure Walk (κ : Kernel np D) (chan : Chan) (pre suf : List (Fin np)) : Prop where
  chain : Chain κ.nextOf (κ.head (wqHash chan)) (pre ++ suf)
  proc : ∀ p ∈ suf, (κ.procs p).wqEntry.proc = p
  asleep : ∀ p ∈ suf, (κ.procs p).wqEntry.chan = chan ↔ κ.asleepOn chan p = true

section

variable (h : Walk κ chan pre (e :: suf))
include h

theorem Walk.next : (κ.procs e).wqEntry.next = suf.head? := h.chain.next_eq

/-- The walk passes an entry. -/
theorem Walk.pass : Walk κ chan (pre ++ [e]) suf where
  chain := by simpa using h.chain
  proc p hp := h.proc p (List.mem_cons_of_mem _ hp)
  asleep p hp := h.asleep p (List.mem_cons_of_mem _ hp)

/-- What is left of the bucket when the process at the cursor is woken. -/
theorem Walk.kept (hp : p ∈ suf) : p ≠ e ∧ ((κ.setRunnable e).wqRemoveLocked (wqHash chan) e).procs p = { κ.procs p with
      wqEntry := { (κ.procs p).wqEntry with
        next := ((κ.setRunnable e).wqRemoveLocked (wqHash chan) e).nextOf p } } := by
  have hne : p ≠ e := by
    rintro rfl
    have hd := h.chain.nodup
    simp only [List.nodup_append, List.nodup_cons] at hd
    exact hd.2.1.1 hp
  exact ⟨hne, (Wakes.one h.chain).kept p (decide_eq_false hne)⟩

/-- The walk wakes a process. -/
theorem Walk.wake : Walk ((κ.setRunnable e).wqRemoveLocked (wqHash chan) e) chan pre suf := by
  refine ⟨wqRemoveLocked_chain (by rw [nextOf_setRunnable]; exact h.chain), fun p hp => ?_, fun p hp => ?_⟩
  · rw [(h.kept hp).2]; exact h.proc p (List.mem_cons_of_mem _ hp)
  · rw [asleepOn_iff, (h.kept hp).2]
    exact (h.asleep p (List.mem_cons_of_mem _ hp)).trans asleepOn_iff

/-- One turn of the loop. -/
theorem Walk.loop (one : Bool) (n : Nat) : wakeLoop one chan (n + 1) (some e) κ =
      if κ.asleepOn chan e then
        if one then some ((κ.setRunnable e).wqRemoveLocked (wqHash chan) e)
        else wakeLoop one chan n suf.head? ((κ.setRunnable e).wqRemoveLocked (wqHash chan) e)
      else wakeLoop one chan n suf.head? κ := by
  simp only [wakeLoop, h.next, h.proc e List.mem_cons_self, h.asleep e List.mem_cons_self, and_self]

end

/-- **`wakeup` from the cursor on** wakes the processes ahead that are asleep on the channel. -/
theorem wakeLoop_wakes (h : Walk κ chan pre suf) {n : Nat} (hn : suf.length ≤ n) :
    ∃ κ', wakeLoop false chan n suf.head? κ = some κ' ∧
      Wakes (wqHash chan) (pre ++ suf) (fun p => p ∈ suf ∧ κ.asleepOn chan p) κ κ' := by
  induction suf generalizing κ pre n with
  | nil => exact ⟨κ, by cases n <;> rfl, by simpa using Wakes.refl (h.chain)⟩
  | cons e suf ih =>
    obtain ⟨n, rfl⟩ : ∃ m, n = m + 1 := ⟨n - 1, by simp at hn; omega⟩
    have hn : suf.length ≤ n := by simpa using hn
    rw [List.head?_cons, h.loop]
    by_cases ha : κ.asleepOn chan e = true
    · obtain ⟨κ', hr, hw⟩ := ih h.wake hn
      refine ⟨κ', by simpa only [if_pos ha, Bool.false_eq_true, if_false] using hr, ?_⟩
      rw [← filter_ne h.chain.nodup] at hw
      convert (Wakes.one h.chain).trans hw using 1
      funext p
      by_cases hp : p = e
      · subst hp; simp [ha]
      · by_cases hs : p ∈ suf
        · simp [hp, hs, asleepOn, (h.kept hs).2]
        · simp [hp, hs]
    · obtain ⟨κ', hr, hw⟩ := ih h.pass hn
      refine ⟨κ', by simpa only [if_neg ha] using hr, ?_⟩
      rw [List.append_assoc, List.singleton_append] at hw
      convert hw using 1
      funext p
      by_cases hp : p = e
      · subst hp; simp [ha]
      · simp [hp]

/-- **`wakeup_one` from the cursor on** wakes the first process ahead that is asleep on the channel, if any. -/
theorem wakeLoop_one (h : Walk κ chan pre suf) {n : Nat} (hn : suf.length ≤ n) :
    ∃ κ', wakeLoop true chan n suf.head? κ = some κ' ∧
      ((∃ p ∈ suf, κ.asleepOn chan p ∧ Wakes (wqHash chan) (pre ++ suf) (fun q => q = p) κ κ') ∨
        (∀ p ∈ suf, κ.asleepOn chan p = false) ∧ κ' = κ) := by
  induction suf generalizing pre n with
  | nil => exact ⟨κ, by cases n <;> rfl, .inr ⟨by simp, rfl⟩⟩
  | cons e suf ih =>
    obtain ⟨n, rfl⟩ : ∃ m, n = m + 1 := ⟨n - 1, by simp at hn; omega⟩
    have hn : suf.length ≤ n := by simpa using hn
    rw [List.head?_cons, h.loop]
    by_cases ha : κ.asleepOn chan e = true
    · exact ⟨_, by simp [ha], .inl ⟨e, List.mem_cons_self, ha, Wakes.one h.chain⟩⟩
    · obtain ⟨κ', hr, hw⟩ := ih h.pass hn
      refine ⟨κ', by simpa only [if_neg ha] using hr, ?_⟩
      rw [List.append_assoc, List.singleton_append] at hw
      rcases hw with ⟨p, hp, hx, hw⟩ | ⟨hx, hw⟩
      · exact .inl ⟨p, List.mem_cons_of_mem _ hp, hx, hw⟩
      · exact .inr ⟨by simpa [ha] using hx, hw⟩

end Walk

/-! ## The scan -/

/-- The scan makes exactly the processes asleep on the channel RUNNABLE. -/
theorem scanWakeup_procs (κ : Kernel np D) (chan : Chan) (p : Fin np) : (κ.scanWakeup chan).procs p =
      if κ.asleepOn chan p then { κ.procs p with state := .runnable } else κ.procs p := by
  -- the slots before `p` do not concern it, its own turn does, and afterwards it is not asleep any more
  have key : ∀ (l : List (Fin np)) (κ : Kernel np D), l.Nodup →
      (l.foldl (fun κ p => if κ.asleepOn chan p then κ.setRunnable p else κ) κ).procs p =
        if p ∈ l ∧ κ.asleepOn chan p = true then { κ.procs p with state := .runnable } else κ.procs p := by
    intro l
    induction l with
    | nil => simp
    | cons q l ih =>
      intro κ hl
      obtain ⟨hq, hl⟩ := List.nodup_cons.mp hl
      rw [List.foldl_cons, ih _ hl]
      by_cases hp : p = q
      · subst hp
        by_cases ha : κ.asleepOn chan p = true <;> simp [hq, ha, setRunnable]
      · have he : (if κ.asleepOn chan q then κ.setRunnable q else κ).procs p = κ.procs p := by
          split
          · exact setProc_ne _ _ hp
          · rfl
        have ha : (if κ.asleepOn chan q then κ.setRunnable q else κ).asleepOn chan p = κ.asleepOn chan p := by
          rw [asleepOn, he, asleepOn]
        simp only [ha, he, List.mem_cons, hp, false_or]
  rw [scanWakeup, key _ _ (List.nodup_finRange np)]
  simp

end Kernel

/-! ## In a reachable state -/

section Reachable

variable {nc : Nat} {S : System np} {s : State S nc} {chan : Chan}

/-- A free bucket can be walked. -/
theorem Reachable.walk (h : Reachable s) (hfree : s.locks (.bucket (wqHash chan)) = none) :
    ∃ l, s.kern.Walk chan [] l ∧ l.length ≤ np ∧ ∀ p, s.kern.asleepOn chan p = true → p ∈ l := by
  obtain ⟨Q, hQ⟩ := h.queue
  refine ⟨Q (wqHash chan), ⟨hQ.chain _, fun p _ => hQ.backptr p, fun p hp => ?_⟩, ?_, fun p hp => ?_⟩
  · rcases hQ.member _ p hp with ⟨h1, h2⟩ | ⟨c, f, rest, hs, ht⟩
    · rw [Kernel.asleepOn_iff, h2]
      exact ⟨fun he => ⟨h1, he⟩, And.right⟩
    · have hl := h.base.holder (by
        rw [hs]; exact mem_heldS List.mem_cons_self (transit_held ht (hQ.top c f rest hs)).1)
      rw [hfree] at hl; cases hl
  · simpa using (hQ.chain (wqHash chan)).nodup.length_le_card
  · obtain ⟨h1, h2⟩ := Kernel.asleepOn_iff.mp hp
    exact h2 ▸ (hQ.asleep p h1).1

/-- **The hashed wakeup is the scan.** In a reachable state with the bucket of the channel free, `wakeup(chan)` makes
exactly the processes asleep on the channel RUNNABLE and takes their entries out of the bucket, so that process states
come out as after a scan of the whole table; `wakeup_one(chan)` does this for one of them, and changes nothing if there
is none. -/
theorem wakeup_refines_scan (h : Reachable s) (chan : Chan) (hfree : s.locks (.bucket (wqHash chan)) = none) :
    ∃ l, Chain s.kern.nextOf (s.kern.head (wqHash chan)) l ∧
      (∃ κ, s.kern.wakeup chan = some κ ∧ Kernel.Wakes (wqHash chan) l (s.kern.asleepOn chan) s.kern κ ∧
        ∀ p, κ.procs p = { (s.kern.scanWakeup chan).procs p with wqEntry := (κ.procs p).wqEntry }) ∧
      ∃ κ, s.kern.wakeupOne chan = some κ ∧
        ((∃ p, s.kern.asleepOn chan p = true ∧ Kernel.Wakes (wqHash chan) l (fun q => q = p) s.kern κ) ∨
          (∀ p, s.kern.asleepOn chan p = false) ∧ κ = s.kern) := by
  obtain ⟨l, hw, hlen, hmem⟩ := h.walk hfree
  refine ⟨l, hw.chain, ?_, ?_⟩
  · obtain ⟨κ, hr, hk⟩ := Kernel.wakeLoop_wakes hw hlen
    have hW : (fun p => decide (p ∈ l ∧ s.kern.asleepOn chan p = true)) = s.kern.asleepOn chan := by
      funext p
      by_cases hp : s.kern.asleepOn chan p = true
      · simp [hp, hmem p hp]
      · simp [hp]
    rw [hW] at hk
    refine ⟨κ, by rw [Kernel.wakeup, hw.chain.head_eq]; exact hr, hk, fun p => ?_⟩
    rw [Kernel.scanWakeup_procs]
    cases hp : s.kern.asleepOn chan p with
    | false => rw [hk.kept p hp]; rfl
    | true => rw [hk.woken p hp]; rfl
  · obtain ⟨κ, hr, hk⟩ := Kernel.wakeLoop_one hw hlen
    refine ⟨κ, by rw [Kernel.wakeupOne, hw.chain.head_eq]; exact hr, ?_⟩
    rcases hk with ⟨p, -, hp, hk⟩ | ⟨hn, hk⟩
    · exact .inl ⟨p, hp, hk⟩
    · refine .inr ⟨fun p => ?_, hk⟩
      cases hp : s.kern.asleepOn chan p with
      | false => rfl
      | true => exact hp.symm.trans (hn p (hmem p hp))

/-- The napper is asleep, and both functions wake it. -/
theorem wakeup_refines_scan_napper :
    let κ := (after napper 1 (List.replicate 15 (0, .run 0))).kern
    κ.asleepOn 24#64 0 = true ∧ ∃ l, Chain κ.nextOf (κ.head (wqHash 24#64)) l ∧
      (∃ κ', κ.wakeup 24#64 = some κ' ∧ Kernel.Wakes (wqHash 24#64) l (κ.asleepOn 24#64) κ κ' ∧
        ∀ p, κ'.procs p = { (κ.scanWakeup 24#64).procs p with wqEntry := (κ'.procs p).wqEntry }) ∧
      ∃ κ', κ.wakeupOne 24#64 = some κ' ∧
        ((∃ p, κ.asleepOn 24#64 p = true ∧ Kernel.Wakes (wqHash 24#64) l (fun q => q = p) κ κ') ∨
          (∀ p, κ.asleepOn 24#64 p = false) ∧ κ' = κ) :=
  ⟨rfl, wakeup_refines_scan (reachable_after napper _) 24#64 rfl⟩

/-! ## The program text computes these functions -/

variable {c : Fin nc} {f k : S.F} {rest : List S.F}

/-- What a run of one CPU alone changes: the stack of its thread, the locks and the data. -/
structure Conf (S : System np) (nc : Nat) where
  st : List S.F
  locks : Lock np → Option (Fin nc)
  kern : S.K

/-- The state is `s₀` with the thread of CPU `c`, the locks and the data as given. -/
structure Here (c : Fin nc) (s₀ : State S nc) (x : Conf S nc) (s : State S nc) : Prop where
  reachable : Reachable s
  ok : (s.cpus c).panicked = none
  cur : s.cur = s₀.cur
  stk : s.stk = Function.update s₀.stk (s₀.cur c) x.st
  locks : s.locks = x.locks
  kern : s.kern = x.kern

/-- By steps of its own, CPU `c` gets from `x` to `y`. -/
def Solo (c : Fin nc) (s₀ : State S nc) (x y : Conf S nc) : Prop :=
  ∀ s, Here c s₀ x s → ∃ n s', run s (List.replicate n (c, .run 0)) = some s' ∧ Here c s₀ y s'

theorem run_append (as bs : List (Fin nc × Act)) : run s (as ++ bs) = (run s as).bind fun s' => run s' bs := by
  induction as generalizing s with
  | nil => rfl
  | cons x as ih =>
    simp only [List.cons_append, run]
    cases step s x.1 x.2 with
    | none => rfl
    | some s₁ => exact ih

namespace Solo

variable {s₀ : State S nc} {x y z : Conf S nc} {L : Lock np → Option (Fin nc)} {κ : S.K} {l : Lock np}

theorem trans (h : Solo c s₀ x y) (h' : Solo c s₀ y z) : Solo c s₀ x z := by
  intro s hs
  obtain ⟨n, s₁, h1, h2⟩ := h s hs
  obtain ⟨m, s₂, h3, h4⟩ := h' s₁ h2
  exact ⟨n + m, s₂, by rw [List.replicate_add, run_append, h1]; exact h3, h4⟩

/-- One step. -/
theorem single (h : ∀ s, Here c s₀ x s → ∃ s', step s c (.run 0) = some s' ∧ (Reachable s' → Here c s₀ y s')) :
    Solo c s₀ x y := by
  intro s hs
  obtain ⟨s', h1, h2⟩ := h s hs
  exact ⟨1, s', by simp [run, h1], h2 (hs.reachable.step ⟨_, _, h1⟩)⟩

theorem top (hs : Here c s₀ ⟨f :: rest, L, κ⟩ s) : s.stk (s.cur c) = f :: rest := by
  rw [hs.stk, hs.cur, update_self]

theorem setStk_eq (hs : Here c s₀ x s) (st : List S.F) : (s.setStk c st).stk = update s₀.stk (s₀.cur c) st := by
  rw [setStk_stk, hs.stk, hs.cur, update_idem]

theorem upd {g : S.K → S.K} {k : S.K → S.F} (hi : ∀ me, instr S me f = .upd g k) :
    Solo c s₀ ⟨f :: rest, L, κ⟩ ⟨k κ :: rest, L, g κ⟩ := by
  refine single fun s hs => ⟨{ s.setStk c (k s.kern :: rest) with kern := g s.kern }, ?_, fun hr => ?_⟩
  · simp [step, hs.ok, top hs, hi, exec]
  · exact ⟨hr, hs.ok, hs.cur, (setStk_eq hs _).trans (by rw [show s.kern = κ from hs.kern]), hs.locks,
      congrArg g hs.kern⟩

theorem acquire (hi : ∀ me, instr S me f = .acquire l k) (hl : L l = none) :
    Solo c s₀ ⟨f :: rest, L, κ⟩ ⟨k :: rest, update L l (some c), κ⟩ := by
  refine single fun s hs => ⟨{ (s.setCpu c Cpu.pushOff).setStk c (k :: rest) with
    locks := update s.locks l (some c) }, ?_, fun hr => ?_⟩
  · have hl' : s.locks l = none := hs.locks ▸ hl
    simp [step, hs.ok, top hs, hi, exec, State.acquire, hl']
  · exact ⟨hr, by simpa [Cpu.pushOff] using hs.ok, hs.cur, setStk_eq hs _,
      congrArg (update · l (some c)) hs.locks, hs.kern⟩

theorem release (hi : ∀ me, instr S me f = .release l k) (hl : L l = some c) :
    Solo c s₀ ⟨f :: rest, L, κ⟩ ⟨k :: rest, update L l none, κ⟩ := by
  refine single fun s hs => ⟨{ (s.setCpu c Cpu.popOff).setStk c (k :: rest) with
    locks := update s.locks l none }, ?_, fun hr => ?_⟩
  · have hl' : s.locks l = some c := hs.locks ▸ hl
    simp [step, hs.ok, top hs, hi, exec, State.release, hl']
  · refine ⟨hr, ?_, hs.cur, setStk_eq hs _, congrArg (update · l none) hs.locks, hs.kern⟩
    -- `pop_off` panics only without a lock
    obtain ⟨⟨ls, hn, hm, hlen⟩, hsie⟩ := hs.reachable.base.counted c hs.ok
    have hpos : 0 < (s.cpus c).noff := hlen ▸ List.length_pos_of_mem ((hm l).mpr (hs.locks ▸ hl))
    simp [Cpu.popOff, hsie hpos, hs.ok, Nat.not_lt.mpr hpos]

section Walk

variable {one : Bool} {e : Fin np} {pre suf : List (Fin np)}

/-- The walk skips the entry of a process that is not asleep on the channel. -/
theorem skip (hw : κ.Walk chan pre (e :: suf)) (ha : ¬ κ.asleepOn chan e = true) :
    Solo c s₀ ⟨.wake one chan (.walk (some e)) :: rest, L, κ⟩ ⟨.wake one chan (.walk suf.head?) :: rest, L, κ⟩ := by
  have hc : (κ.procs e).wqEntry.chan ≠ chan := fun hx => ha ((hw.asleep e List.mem_cons_self).mp hx)
  have h : Solo c s₀ ⟨.wake one chan (.walk (some e)) :: rest, L, κ⟩ _ := upd fun _ => rfl
  simpa only [if_neg hc, hw.next, id] using h

/-- The walk wakes the process of an entry. -/
theorem wake (hw : κ.Walk chan pre (e :: suf)) (ha : κ.asleepOn chan e = true) (hl : L (.proc e) = none) :
    Solo c s₀ ⟨.wake one chan (.walk (some e)) :: rest, L, κ⟩
      ⟨(if one then .wake one chan (.unlockBucket (some e)) else .wake one chan (.walk suf.head?)) :: rest, L,
        (κ.setRunnable e).wqRemoveLocked (wqHash chan) e⟩ := by
  have hc : (κ.procs e).wqEntry.chan = chan := (hw.asleep e List.mem_cons_self).mpr ha
  have ha' := Kernel.asleepOn_iff.mp ha
  have h1 : Solo c s₀ ⟨.wake one chan (.walk (some e)) :: rest, L, κ⟩ _ := upd fun _ => rfl
  simp only [if_pos hc, hw.next, hw.proc e List.mem_cons_self, id] at h1
  have h2 : Solo c s₀ ⟨.wake one chan (.lockProc e e suf.head?) :: rest, L, κ⟩ _ := acquire (fun _ => rfl) hl
  have h3 : Solo c s₀ ⟨.wake one chan (.test e e suf.head?) :: rest, update L (.proc e) (some c), κ⟩ _ :=
    upd fun _ => rfl
  simp only [if_pos ha'] at h3
  have h4 : Solo c s₀ ⟨.wake one chan (.unlink e e suf.head?) :: rest, update L (.proc e) (some c),
      κ.setRunnable e⟩ _ := upd fun _ => rfl
  have h5 : Solo c s₀ ⟨.wake one chan (.unlockWoken e e suf.head?) :: rest, update L (.proc e) (some c),
      (κ.setRunnable e).wqRemoveLocked (wqHash chan) e⟩ _ := release (fun _ => rfl) (update_self _ _ _)
  have hL : update (update L (.proc e) (some c)) (.proc e) none = L := by
    rw [update_idem, ← hl, update_eq_self]
  rw [hL] at h5
  exact (((h1.trans h2).trans h3).trans h4).trans h5

/-- The walk ends. -/
theorem unlock (hl : L (.bucket (wqHash chan)) = some c) (e : Option (Fin np)) :
    Solo c s₀ ⟨.wake one chan (.unlockBucket e) :: rest, L, κ⟩
      ⟨.ret 0 :: rest, update L (.bucket (wqHash chan)) none, κ⟩ := release (fun _ => rfl) hl

/-- The text follows the loop, from the cursor to the end. -/
theorem walk (one : Bool) (s₀ : State S nc) (rest : List S.F) (hw : κ.Walk chan pre suf)
    (hl : L (.bucket (wqHash chan)) = some c)
    (hp : ∀ p ∈ suf, κ.asleepOn chan p = true → L (.proc p) = none) {n : Nat} (hn : suf.length ≤ n) :
    ∃ κ', Kernel.wakeLoop one chan n suf.head? κ = some κ' ∧ Solo c s₀ ⟨.wake one chan (.walk suf.head?) :: rest, L, κ⟩
        ⟨.ret 0 :: rest, update L (.bucket (wqHash chan)) none, κ'⟩ := by
  induction suf generalizing κ pre n with
  | nil =>
    have h1 : Solo c s₀ ⟨.wake one chan (.walk none) :: rest, L, κ⟩ _ := upd fun _ => rfl
    exact ⟨κ, by cases n <;> rfl, h1.trans (unlock hl none)⟩
  | cons e suf ih =>
    obtain ⟨n, rfl⟩ : ∃ m, n = m + 1 := ⟨n - 1, by simp at hn; omega⟩
    have hn : suf.length ≤ n := by simpa using hn
    rw [List.head?_cons, hw.loop]
    by_cases ha : κ.asleepOn chan e = true
    · have hwake : Solo c s₀ ⟨.wake one chan (.walk (some e)) :: rest, L, κ⟩ _ :=
        wake hw ha (hp e List.mem_cons_self ha)
      cases one with
      | true => exact ⟨_, by simp only [if_pos ha, if_true], hwake.trans (unlock hl _)⟩
      | false =>
        have hp' : ∀ p ∈ suf, ((κ.setRunnable e).wqRemoveLocked (wqHash chan) e).asleepOn chan p = true →
            L (.proc p) = none := by
          intro p hm hx
          rw [Kernel.asleepOn_iff, (hw.kept hm).2] at hx
          exact hp p (List.mem_cons_of_mem _ hm) (Kernel.asleepOn_iff.mpr hx)
        obtain ⟨κ', hr, hs⟩ := ih hw.wake hp' hn
        exact ⟨κ', by simpa only [if_pos ha, Bool.false_eq_true, if_false] using hr, hwake.trans hs⟩
    · obtain ⟨κ', hr, hs⟩ := ih hw.pass (fun p hp' => hp p (List.mem_cons_of_mem _ hp')) hn
      exact ⟨κ', by simpa only [if_neg ha] using hr, (skip hw ha).trans hs⟩

end Walk

end Solo

/-- **The program text of `wakeup` and `wakeup_one` computes these functions**: a CPU that calls one of them in a
reachable state and is not interfered with returns from it, with the data the function gives. -/
theorem wake_runs {one : Bool} (h : Reachable s) (hp : (s.cpus c).panicked = none)
    (hs : s.stk (s.cur c) = .wake one chan .lockBucket :: rest) (hfree : s.locks (.bucket (wqHash chan)) = none)
    (hprocs : ∀ p, s.kern.asleepOn chan p = true → s.locks (.proc p) = none) :
    ∃ κ n s', (if one then s.kern.wakeupOne chan else s.kern.wakeup chan) = some κ ∧
      run s (List.replicate n (c, .run 0)) = some s' ∧ s'.kern = κ ∧ s'.locks = s.locks ∧ s'.cur = s.cur ∧
      s'.stk = update s.stk (s.cur c) (.ret 0 :: rest) := by
  obtain ⟨l, hw, hlen, -⟩ := h.walk hfree
  have h1 : Solo c s ⟨.wake one chan .lockBucket :: rest, s.locks, s.kern⟩ _ := .acquire (fun _ => rfl) hfree
  have h2 : Solo c s ⟨.wake one chan .first :: rest, update s.locks (.bucket (wqHash chan)) (some c), s.kern⟩ _ :=
    .upd fun _ => rfl
  have hhead : s.kern.head (wqHash chan) = l.head? := hw.chain.head_eq
  rw [hhead] at h2
  obtain ⟨κ, hr, h3⟩ := Solo.walk one s rest hw (update_self _ _ _) (fun p _ hx => by simpa using hprocs p hx) hlen
  obtain ⟨n, s', hrun, hs'⟩ := ((h1.trans h2).trans h3) s ⟨h, hp, rfl, by simp [← hs], rfl, rfl⟩
  refine ⟨κ, n, s', ?_, hrun, hs'.kern, ?_, hs'.cur, hs'.stk⟩
  · cases one <;> (rw [← hr, ← hhead]; rfl)
  · have := hs'.locks
    rwa [update_idem, ← hfree, update_eq_self] at this

end Reachable

end Xv6
