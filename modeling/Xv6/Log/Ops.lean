import Xv6.Log.Crash
import Mathlib.Logic.Relation
import Mathlib.Algebra.Order.BigOperators.Group.List
import Mathlib.Tactic.IntervalCases

/-!
# Operations and group commit

`begin_op`, `log_write` and `end_op` of `log.c`, called by any processes `P`. What runs between an acquire and a release
of `log.lock` is one step, and so is the way up to the next `bwrite` in `commit`, which runs without the lock. A `panic`
stops the machine.

- `OpsInv`: `outstanding` counts the operations in progress, and there is none while `committing` is set;
- `OpsExec.logRun`: what the operations do to the log is a run of the log (`LogRun`);
- `op_commits_whole`: no commit starts during an operation, and all its blocks are in the header of the next one;
- `reservation_sufficient`: the log has room for the operations that `begin_op` lets in, as long as `log_write` is not
  called again for a logged block while the header is full.
-/

namespace Xv6

open Function (update update_apply update_of_ne update_self)

/-- `MAXOPBLOCKS`. -/
abbrev MAXOPBLOCKS : Nat := 10

/-- Where a process is: outside, in the loop of `begin_op` awake or asleep on `&log`, between `begin_op` and `end_op`,
or in `end_op` before its call of `commit` and inside it. -/
inductive OpPc
  | out
  | waiting
  | asleep
  | op
  | doCommit
  | inCommit
  deriving DecidableEq

/-- The process commits. -/
def OpPc.commits (pc : OpPc) : Prop := pc = .doCommit ∨ pc = .inCommit

/-- The panics of `log_write` and `end_op`. -/
inductive LogPanic
  | tooBig
  | outside
  | committing
  deriving DecidableEq

/-- The message of a panic. -/
def LogPanic.msg : LogPanic → String
  | .tooBig => "too big a transaction"
  | .outside => "log_write outside of trans"
  | .committing => "log.committing"

/-- `struct log` and the processes that use it. -/
structure OpsState (B P : Type) where
  log : LogState B
  outstanding : Int
  committing : Bool
  pc : P → OpPc
  panicked : Option LogPanic

/-- What happens next: a process runs through a critical section of `begin_op` or of `end_op`, calls `log_write` for a
block with new contents or goes on in `commit`, or a `kkill` wakes the processes asleep on `&log`. -/
inductive OpsAct (B P : Type)
  | beginOp (p : P)
  | logWrite (p : P) (b : Nat) (v : B)
  | endOp (p : P)
  | run (p : P)
  | wake

section Steps

variable {B P : Type} [DecidableEq P] (dev : LogDev B)

namespace OpsState

/-- The process gets to `pc`. -/
def goto (s : OpsState B P) (p : P) (pc : OpPc) : OpsState B P := { s with pc := Function.update s.pc p pc }

/-- `wakeup(&log)`. -/
def wakeup (s : OpsState B P) : OpsState B P :=
  { s with pc := fun p => if s.pc p = .asleep then .waiting else s.pc p }

/-- A turn of the loop of `begin_op`. -/
def beginOp (s : OpsState B P) (p : P) : OpsState B P :=
  if s.committing then s.goto p .asleep
  else if s.log.lh.length + (s.outstanding + 1) * MAXOPBLOCKS > LOGBLOCKS then s.goto p .asleep
  else { s.goto p .op with outstanding := s.outstanding + 1 }

/-- `log_write`. -/
def logWrite (s : OpsState B P) (b : Nat) (v : B) : OpsState B P :=
  if s.log.lh.length ≥ LOGBLOCKS then { s with panicked := some .tooBig }
  else if s.outstanding < 1 then { s with panicked := some .outside }
  else { s with log := s.log.logWrite b v }

/-- The first critical section of `end_op`. -/
def endOp (s : OpsState B P) (p : P) : OpsState B P :=
  let s := { s with outstanding := s.outstanding - 1 }
  if s.committing then { s with panicked := some .committing }
  else if s.outstanding = 0 then { s.goto p .doCommit with committing := true }
  else s.wakeup.goto p .out

/-- The last critical section of `end_op`. -/
def finish (s : OpsState B P) (p : P) : OpsState B P := { s.wakeup.goto p .out with committing := false }

end OpsState

/-- One step. -/
def opsStep (s : OpsState B P) (a : OpsAct B P) : Option (OpsState B P) :=
  if s.panicked.isSome then none
  else
    match a with
    | .beginOp p => if s.pc p = .out ∨ s.pc p = .waiting then some (s.beginOp p) else none
    | .logWrite p b v => if s.pc p = .op then some (s.logWrite b v) else none
    | .endOp p => if s.pc p = .op then some (s.endOp p) else none
    | .run p =>
      match s.pc p with
      | .doCommit => some { s.goto p .inCommit with log := s.log.commit }
      | .inCommit =>
        if s.log.pc = .idle then some (s.finish p) else (logStep dev s.log .run).map fun log => { s with log := log }
      | _ => none
    | .wake => some s.wakeup

/-- What a step does. -/
inductive OpsDoes (s : OpsState B P) : OpsAct B P → OpsState B P → Prop
  | beginOp {p : P} (hp : s.pc p = .out ∨ s.pc p = .waiting) : OpsDoes s (.beginOp p) (s.beginOp p)
  | logWrite {p : P} {b : Nat} {v : B} (hp : s.pc p = .op) : OpsDoes s (.logWrite p b v) (s.logWrite b v)
  | endOp {p : P} (hp : s.pc p = .op) : OpsDoes s (.endOp p) (s.endOp p)
  | commit {p : P} (hp : s.pc p = .doCommit) : OpsDoes s (.run p) { s.goto p .inCommit with log := s.log.commit }
  | finish {p : P} (hp : s.pc p = .inCommit) (hi : s.log.pc = .idle) : OpsDoes s (.run p) (s.finish p)
  | log {p : P} {log : LogState B} (hp : s.pc p = .inCommit) (hl : logStep dev s.log .run = some log) :
      OpsDoes s (.run p) { s with log := log }
  | wake : OpsDoes s .wake s.wakeup

theorem opsStep_does {dev : LogDev B} {s s' : OpsState B P} {a : OpsAct B P} (hs : opsStep dev s a = some s') :
    s.panicked = none ∧ OpsDoes dev s a s' := by
  unfold opsStep at hs
  split at hs
  · cases hs
  · next hlive =>
    refine ⟨by simpa using hlive, ?_⟩
    cases a with
    | beginOp p | logWrite p b v | endOp p =>
      dsimp only at hs
      split at hs <;> cases hs
      constructor
      assumption
    | run p =>
      dsimp only at hs
      split at hs
      · cases hs
        exact .commit ‹_›
      · split at hs
        · cases hs
          exact .finish ‹_› ‹_›
        · obtain ⟨log, hl, rfl⟩ := Option.map_eq_some_iff.mp hs
          exact .log ‹_› hl
      · cases hs
    | wake =>
      cases hs
      exact .wake

/-- The log of a disk, before the first operation. -/
def OpsState.init (d : Nat → B) : OpsState B P := ⟨⟨d, d, [], .idle⟩, 0, false, fun _ => .out, none⟩

end Steps

/-! ## The invariant -/

/-- `commit` is not part of a recovery. -/
def LogPc.recovers : LogPc → Prop
  | .readHead | .recover _ | .recoverHead => True
  | _ => False

/-- How the operations in progress and the commit exclude each other. -/
structure OpsInv {B P : Type} (s : OpsState B P) : Prop where
  ops : ∃ l : List P, l.Nodup ∧ (∀ p, p ∈ l ↔ s.pc p = .op) ∧ s.outstanding = l.length
  commit : ∀ p, (s.pc p).commits → s.committing = true ∧ ∀ q, (s.pc q).commits → q = p
  alone : s.committing = true → s.outstanding = 0
  idle : (∀ p, s.pc p ≠ .inCommit) → s.log.pc = .idle
  recovers : ¬ s.log.pc.recovers
  nodup : s.log.lh.Nodup

section Invariant

variable {B P : Type} {dev : LogDev B} {s s' : OpsState B P} {p q : P} {b : Nat} {v : B} {pc : OpPc}

theorem opsInv_init (d : Nat → B) : OpsInv (OpsState.init d : OpsState B P) where
  ops := ⟨[], List.nodup_nil, fun p => by simp [OpsState.init], rfl⟩
  commit p h := by rcases h with h | h <;> cases h
  alone := nofun
  idle _ := rfl
  recovers := id
  nodup := List.nodup_nil

/-- A step of `commit` leaves the header alone or empties it. -/
theorem logStep_run_lh {s s' : LogState B} (hr : ¬ s.pc.recovers) (h : logStep dev s .run = some s') :
    ¬ s'.pc.recovers ∧ (s'.lh = s.lh ∨ s'.lh = []) := by
  simp only [logStep] at h
  cases hpc : s.pc with
  | idle => rw [hpc] at h; cases h
  | writeLog tail =>
    rw [hpc] at h
    dsimp only at h
    split at h <;> (obtain rfl := Option.some.inj h; exact ⟨id, .inl rfl⟩)
  | writeHead | clearHead => rw [hpc] at h; cases h; exact ⟨id, .inl rfl⟩
  | install tail =>
    rw [hpc] at h
    obtain rfl := Option.some.inj h
    unfold LogState.installNext
    cases s.lh[tail]? with
    | none => exact ⟨id, .inr rfl⟩
    | some b => exact ⟨id, .inl rfl⟩
  | readHead | recover tail | recoverHead => rw [hpc] at hr; exact absurd trivial hr

theorem LogState.logWrite_nodup {s : LogState B} (h : s.lh.Nodup) : (s.logWrite b v).lh.Nodup := by
  unfold logWrite
  split
  · exact h
  · next hm => exact List.nodup_append.mpr ⟨h, List.nodup_singleton b, fun x hx y hy e => hm (by simp_all)⟩

/-- The points that `wakeup(&log)` neither reaches nor leaves. -/
theorem wakeup_pc (h1 : pc ≠ .asleep) (h2 : pc ≠ .waiting) : s.wakeup.pc q = pc ↔ s.pc q = pc := by
  show (if s.pc q = .asleep then OpPc.waiting else s.pc q) = pc ↔ _
  split
  · next ha => exact iff_of_false (Ne.symm h2) fun hq => h1 (hq.symm.trans ha)
  · exact Iff.rfl

theorem wakeup_commits : (s.wakeup.pc q).commits ↔ (s.pc q).commits := by
  unfold OpPc.commits
  rw [wakeup_pc (by decide) (by decide), wakeup_pc (by decide) (by decide)]

variable [DecidableEq P]

theorem goto_pc : (s.goto p pc).pc q = if q = p then pc else s.pc q := update_apply s.pc p pc q

namespace OpsInv

variable (h : OpsInv s)
include h

omit [DecidableEq P] in
/-- An operation is in progress: it is counted, and nobody commits. -/
theorem of_op (hp : s.pc p = .op) : 1 ≤ s.outstanding ∧ s.committing = false := by
  obtain ⟨l, -, hl, ho⟩ := h.ops
  have hpos : 0 < l.length := List.length_pos_of_mem ((hl p).mpr hp)
  refine ⟨by omega, ?_⟩
  cases hc : s.committing with
  | false => rfl
  | true => have := h.alone hc; omega

omit [DecidableEq P] in
/-- While nobody has set `committing`, nobody commits. -/
theorem not_commits (hc : s.committing = false) : ¬ (s.pc q).commits := fun hq => by
  rw [(h.commit q hq).1] at hc
  cases hc

omit [DecidableEq P] in
/-- `wakeup(&log)` changes nothing that matters to the invariant. -/
theorem wakeup : OpsInv s.wakeup := by
  obtain ⟨l, hn, hl, ho⟩ := h.ops
  refine ⟨⟨l, hn, fun q => ?_, ho⟩, fun q hq => ?_, h.alone, fun hi => h.idle fun q hq => ?_, h.recovers, h.nodup⟩
  · rw [hl q, wakeup_pc (by decide) (by decide)]
  · obtain ⟨h1, h2⟩ := h.commit q (wakeup_commits.mp hq)
    exact ⟨h1, fun r hr => h2 r (wakeup_commits.mp hr)⟩
  · exact hi q ((wakeup_pc (by decide) (by decide)).mpr hq)

/-- `begin_op`. -/
theorem beginOp (hp : s.pc p = .out ∨ s.pc p = .waiting) : OpsInv (s.beginOp p) := by
  obtain ⟨l, hn, hl, ho⟩ := h.ops
  have hop : s.pc p ≠ .op := by rcases hp with hp | hp <;> simp [hp]
  have hpl : p ∉ l := fun hm => hop ((hl p).mp hm)
  have hpc : s.pc p ≠ .inCommit := by rcases hp with hp | hp <;> simp [hp]
  -- the process gets to a point outside the commit, and to `op` if and only if the counter is incremented
  have key : ∀ pc (o : Int) (l' : List P), ¬ pc.commits → l'.Nodup →
      (∀ q, q ∈ l' ↔ (s.goto p pc).pc q = .op) → o = l'.length → (s.committing = true → o = 0) →
      OpsInv { s.goto p pc with outstanding := o } := by
    intro pc o l' hcom hn' hl' ho' ha
    have hcoms : ∀ q, ((s.goto p pc).pc q).commits → (s.pc q).commits := fun q hq => by
      rw [goto_pc] at hq
      split at hq
      · exact absurd hq hcom
      · exact hq
    refine ⟨⟨l', hn', hl', ho'⟩, fun q hq => ?_, ha, fun hi => h.idle fun q hq => ?_, h.recovers, h.nodup⟩
    · obtain ⟨h1, h2⟩ := h.commit q (hcoms q hq)
      exact ⟨h1, fun r hr => h2 r (hcoms r hr)⟩
    · have hne : q ≠ p := fun e => hpc (e ▸ hq)
      exact hi q (by rw [goto_pc, if_neg hne, hq])
  have hstay : OpsInv (s.goto p .asleep) := by
    refine key .asleep s.outstanding l (by simp [OpPc.commits]) hn (fun q => ?_) ho h.alone
    rw [hl q, goto_pc]
    split
    · next he => rw [he]; exact iff_of_false hop (by simp)
    · exact Iff.rfl
  unfold OpsState.beginOp
  split
  · exact hstay
  · next hc =>
    split
    · exact hstay
    · refine key .op _ (p :: l) (by simp [OpPc.commits]) (List.nodup_cons.mpr ⟨hpl, hn⟩) (fun q => ?_) ?_
        fun hc' => absurd hc' hc
      · rw [List.mem_cons, hl q, goto_pc]
        split
        · next he => simp [he]
        · next he => simp [he]
      · rw [ho, List.length_cons]
        push_cast
        rfl

/-- `log_write`. -/
theorem logWrite : OpsInv (s.logWrite b v) := by
  unfold OpsState.logWrite
  split
  · exact ⟨h.ops, h.commit, h.alone, h.idle, h.recovers, h.nodup⟩
  · split
    · exact ⟨h.ops, h.commit, h.alone, h.idle, h.recovers, h.nodup⟩
    · exact ⟨h.ops, h.commit, h.alone, h.idle, h.recovers, LogState.logWrite_nodup h.nodup⟩

/-- An operation ends. -/
theorem endOp (hp : s.pc p = .op) : OpsInv (s.endOp p) := by
  obtain ⟨l, hn, hl, ho⟩ := h.ops
  have hpl : p ∈ l := (hl p).mpr hp
  obtain ⟨-, hc⟩ := h.of_op hp
  have hlen : s.outstanding - 1 = (l.erase p).length := by
    have := List.length_pos_of_mem hpl
    rw [List.length_erase_of_mem hpl]
    omega
  have hops : ∀ pc, pc ≠ .op → ∀ q, q ∈ l.erase p ↔ (s.goto p pc).pc q = .op := fun pc hpc q => by
    rw [hn.mem_erase_iff, hl q, goto_pc]
    split
    · next he => simp [he, hpc]
    · next he => simp [he]
  unfold OpsState.endOp
  simp only [hc, Bool.false_eq_true, if_false]
  split
  · next h0 =>
    refine ⟨⟨l.erase p, hn.erase p, hops .doCommit (by simp), hlen⟩, fun q hq => ⟨rfl, fun r hr => ?_⟩, fun _ => h0,
      fun hi => h.idle fun q hq => ?_, h.recovers, h.nodup⟩
    · have hcom : ∀ q, ((s.goto p .doCommit).pc q).commits → q = p := fun q hq => by
        rw [goto_pc] at hq
        split at hq
        · assumption
        · exact absurd hq (h.not_commits hc)
      rw [hcom q hq, hcom r hr]
    · exact absurd (.inr hq) (h.not_commits hc)
  · have hcom : ∀ q, (((OpsState.wakeup { s with outstanding := s.outstanding - 1 }).goto p .out).pc q).commits →
        (s.pc q).commits := fun q hq => by
      rw [goto_pc] at hq
      split at hq
      · rcases hq with hq | hq <;> cases hq
      · exact wakeup_commits.mp hq
    refine ⟨⟨l.erase p, hn.erase p, fun q => ?_, hlen⟩, fun q hq => absurd (hcom q hq) (h.not_commits hc),
      fun hc' => ?_, fun _ => h.idle fun q hq => absurd (.inr hq) (h.not_commits hc), h.recovers, h.nodup⟩
    · rw [hops .out (by simp) q, goto_pc, goto_pc]
      split
      · exact Iff.rfl
      · exact (wakeup_pc (by decide) (by decide)).symm
    · exact absurd hc' (by simp [OpsState.goto, OpsState.wakeup, hc])

/-- The committing process calls `commit`. -/
theorem commit_call (hp : s.pc p = .doCommit) : OpsInv { s.goto p .inCommit with log := s.log.commit } := by
  obtain ⟨l, hn, hl, ho⟩ := h.ops
  obtain ⟨hc, hu⟩ := h.commit p (.inl hp)
  have hcom : ∀ q, ((s.goto p .inCommit).pc q).commits → q = p := fun q hq => by
    rw [goto_pc] at hq
    split at hq
    · assumption
    · exact hu q hq
  refine ⟨⟨l, hn, fun q => ?_, ho⟩, fun q hq => ⟨hc, fun r hr => ?_⟩, h.alone, fun hi => ?_, ?_, h.nodup⟩
  · show _ ↔ (s.goto p .inCommit).pc q = .op
    rw [hl q, goto_pc]
    split
    · next he => simp [he, hp]
    · exact Iff.rfl
  · rw [hcom q hq, hcom r hr]
  · refine absurd ?_ (hi p)
    show (s.goto p .inCommit).pc p = .inCommit
    rw [goto_pc, if_pos rfl]
  · show ¬ LogPc.recovers (if s.log.lh.length > 0 then .writeLog 0 else .idle)
    split <;> exact id

omit [DecidableEq P] in
/-- A step inside `commit`. -/
theorem commit_run (hp : s.pc p = .inCommit) {log : LogState B}
    (hs : logStep dev s.log .run = some log) : OpsInv { s with log := log } := by
  obtain ⟨h1, h2⟩ := logStep_run_lh h.recovers hs
  refine ⟨h.ops, h.commit, h.alone, fun hi => absurd hp (hi p), h1, ?_⟩
  rcases h2 with h2 | h2
  · exact h2 ▸ h.nodup
  · exact h2 ▸ List.nodup_nil

/-- `commit` has returned. -/
theorem finish (hp : s.pc p = .inCommit) (hidle : s.log.pc = .idle) : OpsInv (s.finish p) := by
  obtain ⟨l, hn, hl, ho⟩ := h.wakeup.ops
  obtain ⟨-, hu⟩ := h.commit p (.inr hp)
  refine ⟨⟨l, hn, fun q => ?_, ho⟩, fun q hq => ?_, nofun, fun _ => hidle, h.recovers, h.nodup⟩
  · show _ ↔ (s.wakeup.goto p .out).pc q = .op
    rw [hl q, goto_pc]
    split
    · next he => rw [he, wakeup_pc (by decide) (by decide)]; simp [hp]
    · exact Iff.rfl
  · have hq : ((s.wakeup.goto p .out).pc q).commits := hq
    rw [goto_pc] at hq
    split at hq
    · rcases hq with hq | hq <;> cases hq
    · next he => exact absurd (hu q (wakeup_commits.mp hq)) he

/-- **Every step keeps the invariant.** -/
theorem step {a : OpsAct B P} (hs : opsStep dev s a = some s') : OpsInv s' := by
  cases (opsStep_does hs).2 with
  | beginOp hp => exact h.beginOp hp
  | logWrite hp => exact h.logWrite
  | endOp hp => exact h.endOp hp
  | commit hp => exact h.commit_call hp
  | finish hp hi => exact h.finish hp hi
  | log hp hl => exact h.commit_run hp hl
  | wake => exact h.wakeup

end OpsInv

end Invariant

/-! ## Operations in an execution -/

/-- The step is a call of `commit`. -/
def StartsCommit {B P : Type} (s : OpsState B P) (a : OpsAct B P) : Prop := ∃ q, a = .run q ∧ s.pc q = .doCommit

section Executions

variable {B P : Type} [DecidableEq P] {dev : LogDev B} {s s' : OpsState B P} {p : P} {b : Nat} {v : B}

/-- While nobody is inside `commit`, the header only grows. -/
theorem lh_grows {a : OpsAct B P} (hs : opsStep dev s a = some s') (hq : ∀ q, s.pc q ≠ .inCommit)
    (hn : ¬ StartsCommit s a) : (∀ q, s'.pc q ≠ .inCommit) ∧ ∀ b ∈ s.log.lh, b ∈ s'.log.lh := by
  have hgoto : ∀ (t : OpsState B P) p pc, (∀ q, t.pc q ≠ .inCommit) → pc ≠ .inCommit →
      ∀ q, (t.goto p pc).pc q ≠ .inCommit := fun t p pc ht hpc q => by
    rw [goto_pc]
    split
    · exact hpc
    · exact ht q
  have hwake : ∀ q, s.wakeup.pc q ≠ .inCommit := fun q h => hq q ((wakeup_pc (by decide) (by decide)).mp h)
  cases (opsStep_does hs).2 with
  | @beginOp p hp =>
    unfold OpsState.beginOp
    split
    · exact ⟨hgoto s p _ hq (by decide), fun _ => id⟩
    · split
      · exact ⟨hgoto s p _ hq (by decide), fun _ => id⟩
      · exact ⟨hgoto s p _ hq (by decide), fun _ => id⟩
  | @logWrite p b v hp =>
    unfold OpsState.logWrite
    split
    · exact ⟨hq, fun _ => id⟩
    · split
      · exact ⟨hq, fun _ => id⟩
      · refine ⟨hq, fun b' hb' => ?_⟩
        show b' ∈ if b ∈ s.log.lh then s.log.lh else s.log.lh ++ [b]
        split
        · exact hb'
        · exact List.mem_append_left _ hb'
  | @endOp p hp =>
    unfold OpsState.endOp
    dsimp only
    split
    · exact ⟨hq, fun _ => id⟩
    · split
      · exact ⟨hgoto _ p _ hq (by decide), fun _ => id⟩
      · exact ⟨hgoto _ p _ hwake (by decide), fun _ => id⟩
  | commit hp => exact absurd ⟨_, rfl, hp⟩ hn
  | finish hp _ | log hp _ => exact absurd hp (hq _)
  | wake => exact ⟨hwake, fun _ => id⟩

/-- An execution: at every time a step is made, or nothing happens. -/
structure OpsExec (dev : LogDev B) (σ : Nat → OpsState B P) (act : Nat → Option (OpsAct B P)) : Prop where
  init : ∃ d, σ 0 = .init d
  step : ∀ n a, act n = some a → opsStep dev (σ n) a = some (σ (n + 1))
  stay : ∀ n, act n = none → σ (n + 1) = σ n

/-- The step at time `i` lets `p` through `begin_op`, and the step at time `k` is the `end_op` of this operation. -/
structure Operation (σ : Nat → OpsState B P) (act : Nat → Option (OpsAct B P)) (p : P) (i k : Nat) : Prop where
  lt : i < k
  begun : act i = some (.beginOp p)
  inside : ∀ n, i < n → n ≤ k → (σ n).pc p = .op
  ended : act k = some (.endOp p)

/-- At time `n`, `commit` is called. -/
def CommitAt (σ : Nat → OpsState B P) (act : Nat → Option (OpsAct B P)) (n : Nat) : Prop :=
  ∃ a, act n = some a ∧ StartsCommit (σ n) a

variable {σ : Nat → OpsState B P} {act : Nat → Option (OpsAct B P)}

theorem OpsExec.inv (h : OpsExec dev σ act) (n : Nat) : OpsInv (σ n) := by
  induction n with
  | zero =>
    obtain ⟨d, hd⟩ := h.init
    rw [hd]
    exact opsInv_init d
  | succ n ih =>
    cases ha : act n with
    | none => rw [h.stay n ha]; exact ih
    | some a => exact ih.step (h.step n a ha)

/-- A logged block stays in the header as long as no `commit` is called. -/
theorem OpsExec.stays_logged (h : OpsExec dev σ act) {n m : Nat} (hnm : n ≤ m) (hq : ∀ q, (σ n).pc q ≠ .inCommit)
    (hb : b ∈ (σ n).log.lh) (hc : ∀ t, n ≤ t → t < m → ¬ CommitAt σ act t) :
    (∀ q, (σ m).pc q ≠ .inCommit) ∧ b ∈ (σ m).log.lh := by
  induction hnm with
  | refl => exact ⟨hq, hb⟩
  | @step m hm ih =>
    obtain ⟨h1, h2⟩ := ih fun t h1 h2 => hc t h1 (by omega)
    cases ha : act m with
    | none => rw [h.stay m ha]; exact ⟨h1, h2⟩
    | some a =>
      obtain ⟨h3, h4⟩ := lh_grows (h.step m a ha) h1 fun hs => hc m hm (by omega) ⟨a, ha, hs⟩
      exact ⟨h3, h4 b h2⟩

/-- `log_write` of a process that goes on is recorded. -/
theorem logged_of_goes_on (hs : opsStep dev s (.logWrite p b v) = some s')
    (hg : s'.panicked = none) : b ∈ s'.log.lh := by
  cases (opsStep_does hs).2
  unfold OpsState.logWrite at hg ⊢
  split at hg
  · cases hg
  · split at hg
    · cases hg
    · next h1 h2 =>
      rw [if_neg h1, if_neg h2]
      show b ∈ if b ∈ s.log.lh then s.log.lh else s.log.lh ++ [b]
      split
      · assumption
      · exact List.mem_append_right _ (List.mem_singleton_self b)

/-- After a panic nothing happens. -/
theorem OpsExec.panicked_mono (h : OpsExec dev σ act) {n m : Nat} (hnm : n ≤ m) (hm : (σ m).panicked = none) :
    (σ n).panicked = none := by
  induction hnm with
  | refl => exact hm
  | @step m _ ih =>
    refine ih ?_
    cases ha : act m with
    | none => rw [← h.stay m ha]; exact hm
    | some a => exact (opsStep_does (h.step m a ha)).1

/-- **Operations commit as a whole.** While `committing` is set, no operation is in progress and `log_write` is not
called; during an operation no commit starts; and when the first commit after the operation starts, every block that
the operation logged is in the header, which lists no block twice. -/
theorem op_commits_whole (h : OpsExec dev σ act) : (∀ n, (σ n).committing = true →
      (σ n).outstanding = 0 ∧ (∀ p, (σ n).pc p ≠ .op) ∧ ∀ p b v, act n ≠ some (.logWrite p b v)) ∧
    ∀ p i k, Operation σ act p i k → (∀ n, i ≤ n → n ≤ k → ¬ CommitAt σ act n) ∧
      ∀ m, k < m → CommitAt σ act m → (∀ n, k < n → n < m → ¬ CommitAt σ act n) →
        (σ m).log.lh.Nodup ∧ ∀ n b v, i < n → n < k → act n = some (.logWrite p b v) → b ∈ (σ m).log.lh := by
  have hnop : ∀ n p, (σ n).committing = true → (σ n).pc p ≠ .op := fun n p hc hp => by
    rw [((h.inv n).of_op hp).2] at hc
    cases hc
  refine ⟨fun n hc => ⟨(h.inv n).alone hc, fun p => hnop n p hc, fun p b v ha => ?_⟩, fun p i k hop => ?_⟩
  · have hd := (opsStep_does (h.step n _ ha)).2
    generalize σ (n + 1) = s' at hd
    cases hd with
    | logWrite hp => exact hnop n p hc hp
  · have hin : ∀ n, i < n → n ≤ k → ∀ q, ¬ ((σ n).pc q).commits := fun n h1 h2 q =>
      (h.inv n).not_commits ((h.inv n).of_op (hop.inside n h1 h2)).2
    have hnone : ∀ n, i ≤ n → n ≤ k → ¬ CommitAt σ act n := by
      rintro n h1 h2 ⟨a, ha, q, rfl, hq⟩
      rcases Nat.eq_or_lt_of_le h1 with rfl | h1
      · rw [hop.begun] at ha
        cases ha
      · exact hin n h1 h2 q (.inl hq)
    refine ⟨hnone, fun m hkm _ hfirst => ⟨(h.inv m).nodup, fun n b v h1 h2 ha => ?_⟩⟩
    have hlive : (σ k).panicked = none := (opsStep_does (h.step k _ hop.ended)).1
    have hb : b ∈ (σ (n + 1)).log.lh := logged_of_goes_on (h.step n _ ha) (h.panicked_mono (by omega) hlive)
    refine (h.stays_logged (by omega) (fun q hq => hin (n + 1) (by omega) (by omega) q (.inr hq)) hb
      fun t h3 h4 => ?_).2
    rcases Nat.lt_or_ge k t with ht | ht
    · exact hfirst t ht h4
    · exact hnone t (by omega) ht

/-- A step of the operations is at most one step of the log. -/
theorem opsStep_log (hi : OpsInv s) {a : OpsAct B P} (hs : opsStep dev s a = some s')
    (hb : ∀ p b v, a = .logWrite p b v → dev.Home b) :
    s'.log = s.log ∨ (∃ b v, logStep dev s.log (.logWrite b v) = some s'.log) ∨
      logStep dev s.log .commit = some s'.log ∨ logStep dev s.log .run = some s'.log := by
  cases (opsStep_does hs).2 with
  | beginOp hp =>
    unfold OpsState.beginOp
    split
    · exact .inl rfl
    · split <;> exact .inl rfl
  | @logWrite p b v hp =>
    unfold OpsState.logWrite
    split
    · exact .inl rfl
    · next hlt =>
      split
      · exact .inl rfl
      · have hidle := hi.idle fun q hq => hi.not_commits (hi.of_op hp).2 (.inr hq)
        exact .inr (.inl ⟨b, v, if_pos ⟨hidle, hb p b v rfl, Nat.lt_of_not_le hlt⟩⟩)
  | endOp hp =>
    unfold OpsState.endOp
    dsimp only
    split
    · exact .inl rfl
    · split <;> exact .inl rfl
  | @commit p hp =>
    have hidle := hi.idle fun q hq => by
      obtain rfl := (hi.commit p (.inl hp)).2 q (.inr hq)
      rw [hp] at hq
      cases hq
    exact .inr (.inr (.inl (if_pos hidle)))
  | log hp hl => exact .inr (.inr (.inr hl))
  | finish hp hidle | wake => exact .inl rfl

/-- **The operations drive the log as it expects**: what they do to it is a run of the log. -/
theorem OpsExec.logRun (h : OpsExec dev σ act) (h0 : dev.getHead ((σ 0).log.disk dev.start) = [])
    (hb : ∀ n p b v, act n = some (.logWrite p b v) → dev.Home b) (n : Nat) :
    ∃ base txs ret, LogRun dev (σ n).log base txs ret := by
  induction n with
  | zero =>
    obtain ⟨d, hd⟩ := h.init
    rw [hd] at h0 ⊢
    exact ⟨d, [], 0, .boot d h0⟩
  | succ n ih =>
    obtain ⟨base, txs, ret, hr⟩ := ih
    cases ha : act n with
    | none => rw [h.stay n ha]; exact ⟨base, txs, ret, hr⟩
    | some a =>
      rcases opsStep_log (h.inv n) (h.step n a ha) fun p b v e => hb n p b v (e ▸ ha) with
        he | ⟨b, v, hs⟩ | hs | hs
      · rw [he]; exact ⟨base, txs, ret, hr⟩
      · exact ⟨_, _, _, .logWrite b v hr hs⟩
      · exact ⟨_, _, _, .commit hr hs⟩
      · have hrec : (σ n).log.pc ≠ .recoverHead := fun e => (h.inv n).recovers (e ▸ trivial)
        exact ⟨_, _, _, .run hr hrec hs⟩

/-- The states along a list of steps; a step that cannot be made is left out. -/
def opsAt (dev : LogDev B) (d : Nat → B) (as : List (OpsAct B P)) : Nat → OpsState B P
  | 0 => .init d
  | n + 1 => (as[n]?.bind (opsStep dev (opsAt dev d as n))).getD (opsAt dev d as n)

/-- The steps made. -/
def actAt (dev : LogDev B) (d : Nat → B) (as : List (OpsAct B P)) (n : Nat) : Option (OpsAct B P) :=
  as[n]?.filter fun a => (opsStep dev (opsAt dev d as n) a).isSome

theorem opsExec_run (dev : LogDev B) (d : Nat → B) (as : List (OpsAct B P)) :
    OpsExec dev (opsAt dev d as) (actAt dev d as) where
  init := ⟨d, rfl⟩
  step n a ha := by
    obtain ⟨h1, h2⟩ := Option.filter_eq_some_iff.mp ha
    obtain ⟨s', hs'⟩ := Option.isSome_iff_exists.mp h2
    rw [hs', opsAt, h1, Option.bind_some, hs']
    rfl
  stay n ha := by
    rw [opsAt]
    cases h1 : as[n]? with
    | none => rfl
    | some a =>
      have h2 := Option.filter_eq_none_iff.mp ha a h1
      rw [Option.bind_some, Option.not_isSome_iff_eq_none.mp h2]
      rfl

end Executions

/-- Two operations of the processes `0` and `1` that share a commit, which process `1` starts. -/
def groupCommit : List (OpsAct (List Nat) (Fin 2)) :=
  [.beginOp 0, .beginOp 1, .logWrite 0 5 [1], .logWrite 1 6 [2], .endOp 0, .endOp 1, .run 1]

/-- The block of process `0` is in the header when the commit starts at time 6. -/
theorem op_commits_whole_group :
    OpsExec listDev (opsAt listDev (fun _ => []) groupCommit) (actAt listDev (fun _ => []) groupCommit) ∧
      Operation (opsAt listDev (fun _ => []) groupCommit) (actAt listDev (fun _ => []) groupCommit) 0 0 4 ∧
      5 ∈ (opsAt listDev (fun _ => []) groupCommit 6).log.lh := by
  have hx := opsExec_run listDev (fun _ => []) groupCommit
  have hop : Operation (opsAt listDev (fun _ => []) groupCommit) (actAt listDev (fun _ => []) groupCommit) 0 0 4 :=
    ⟨by decide, rfl, fun n h1 h2 => by interval_cases n <;> rfl, rfl⟩
  refine ⟨hx, hop, (((op_commits_whole hx).2 0 0 4 hop).2 6 (by decide) ⟨_, rfl, 1, rfl, rfl⟩ fun n h1 h2 => ?_).2
    2 5 [1] (by decide) (by decide) rfl⟩
  obtain rfl : n = 5 := by omega
  rintro ⟨a, ha, q, rfl, -⟩
  cases ha

/-! ## Reservations -/

section Reservations

variable {B P : Type} [DecidableEq P] {dev : LogDev B} {s s' : OpsState B P} {w : P → List Nat} {p : P} {b : Nat} {v : B}

/-- The distinct blocks that the processes have passed to `log_write` in their current operations, after a step. -/
def wroteAfter (w : P → List Nat) : OpsAct B P → P → List Nat
  | .beginOp p => Function.update w p []
  | .logWrite p b _ => Function.update w p ((w p).insert b)
  | _ => w

/-- The runs in which every operation passes at most `MAXOPBLOCKS` distinct blocks to `log_write`, and every step
satisfies a condition on the state before it. -/
inductive OpsRun (dev : LogDev B) (C : OpsState B P → OpsAct B P → Prop) : OpsState B P → (P → List Nat) → Prop
  | init (d : Nat → B) : OpsRun dev C (.init d) fun _ => []
  | step {s s' : OpsState B P} {w : P → List Nat} (a : OpsAct B P) (h : OpsRun dev C s w)
      (hw : ∀ p, (wroteAfter w a p).length ≤ MAXOPBLOCKS) (hc : C s a) (hs : opsStep dev s a = some s') :
      OpsRun dev C s' (wroteAfter w a)

/-- A block that is in the header is logged again only while the header is not full. -/
def NoRelogWhenFull (s : OpsState B P) (a : OpsAct B P) : Prop :=
  ∀ p b v, a = .logWrite p b v → b ∈ s.log.lh → s.log.lh.length < LOGBLOCKS

/-- The blocks that operations may still log. -/
def unused (w : P → List Nat) (l : List P) : Nat := (l.map fun p => MAXOPBLOCKS - (w p).length).sum

omit [DecidableEq P] in
theorem unused_cons (w : P → List Nat) (p : P) (l : List P) :
    unused w (p :: l) = MAXOPBLOCKS - (w p).length + unused w l := by simp [unused]

omit [DecidableEq P] in
theorem unused_le (w : P → List Nat) (l : List P) : unused w l ≤ l.length * MAXOPBLOCKS := by
  induction l with
  | nil => exact Nat.le_refl 0
  | cons p l ih =>
    rw [unused_cons, List.length_cons, Nat.succ_mul]
    omega

omit [DecidableEq P] in
theorem unused_perm {l l' : List P} (h : l.Perm l') : unused w l = unused w l' := (h.map _).sum_eq

omit [DecidableEq P] in
theorem unused_congr {w' : P → List Nat} {l : List P} (h : ∀ p ∈ l, w' p = w p) : unused w' l = unused w l := by
  unfold unused
  rw [List.map_congr_left fun p hp => by rw [h p hp]]

/-- The log has room for what the operations in progress may still log. -/
structure Reserved (s : OpsState B P) (w : P → List Nat) : Prop where
  room : ∀ l : List P, l.Nodup → (∀ p, p ∈ l ↔ s.pc p = .op) → s.log.lh.length + unused w l ≤ LOGBLOCKS
  logged : ∀ p, s.pc p = .op → ∀ b ∈ w p, b ∈ s.log.lh
  small : ∀ p, (w p).length ≤ MAXOPBLOCKS
  live : s.panicked = none

namespace Reserved

variable (h : Reserved s w) (hi : OpsInv s)
include h hi

/-- A process enters. -/
theorem beginOp (hp : s.pc p = .out ∨ s.pc p = .waiting) : Reserved (s.beginOp p) (update w p []) := by
  have hop : s.pc p ≠ .op := by rcases hp with hp | hp <;> simp [hp]
  have hsmall : ∀ q, (update w p [] q).length ≤ MAXOPBLOCKS := fun q => by
    rw [update_apply]
    split
    · exact Nat.zero_le _
    · exact h.small q
  have hw : ∀ q, q ≠ p → update w p [] q = w q := fun q hq => update_of_ne hq _ _
  have hstay : Reserved (s.goto p .asleep) (update w p []) := by
    have hpc : ∀ q, (s.goto p .asleep).pc q = .op → q ≠ p ∧ s.pc q = .op := fun q hq => by
      rw [goto_pc] at hq
      split at hq
      · cases hq
      · next he => exact ⟨he, hq⟩
    refine ⟨fun l hn hl => ?_, fun q hq b hb => ?_, hsmall, h.live⟩
    · rw [unused_congr fun q hq => hw q (hpc q ((hl q).mp hq)).1]
      refine h.room l hn fun q => ⟨fun hq => (hpc q ((hl q).mp hq)).2, fun hq => (hl q).mpr ?_⟩
      have hne : q ≠ p := fun e => hop (e ▸ hq)
      rw [goto_pc, if_neg hne, hq]
    · rw [hw q (hpc q hq).1] at hb
      exact h.logged q (hpc q hq).2 b hb
  unfold OpsState.beginOp
  split
  · exact hstay
  · split
    · exact hstay
    · next hadm =>
      refine ⟨fun l hn hl => ?_, fun q hq b hb => ?_, hsmall, h.live⟩
      · obtain ⟨l₀, hn₀, hl₀, ho⟩ := hi.ops
        have hp₀ : p ∉ l₀ := fun hm => hop ((hl₀ p).mp hm)
        have hperm : l.Perm (p :: l₀) := by
          refine (List.perm_ext_iff_of_nodup hn (List.nodup_cons.mpr ⟨hp₀, hn₀⟩)).mpr fun q => ?_
          rw [hl q, List.mem_cons, hl₀ q]
          show (s.goto p .op).pc q = .op ↔ _
          rw [goto_pc]
          split
          · next he => simp [he]
          · next he => simp [he]
        have hle := unused_le (update w p []) (p :: l₀)
        rw [unused_perm hperm]
        show s.log.lh.length + _ ≤ _
        simp only [List.length_cons, MAXOPBLOCKS, LOGBLOCKS] at hle hadm ⊢
        omega
      · have hq : (s.goto p .op).pc q = .op := hq
        rw [goto_pc] at hq
        by_cases he : q = p
        · rw [he, update_self] at hb
          cases hb
        · rw [if_neg he] at hq
          rw [hw q he] at hb
          exact h.logged q hq b hb

/-- A block is logged. -/
theorem logWrite (hp : s.pc p = .op)
    (hw : ((w p).insert b).length ≤ MAXOPBLOCKS) (hc : b ∈ s.log.lh → s.log.lh.length < LOGBLOCKS) :
    Reserved (s.logWrite b v) (update w p ((w p).insert b)) := by
  obtain ⟨l₀, hn₀, hl₀, ho⟩ := hi.ops
  obtain ⟨pre, suf, hl⟩ := List.append_of_mem ((hl₀ p).mpr hp)
  have hperm : l₀.Perm (p :: (pre ++ suf)) := hl ▸ List.perm_middle
  have hout : ∀ q ∈ pre ++ suf, q ≠ p := fun q hq e =>
    (List.nodup_cons.mp (hperm.nodup_iff.mp hn₀)).1 (e ▸ hq)
  have hroom := h.room l₀ hn₀ hl₀
  rw [unused_perm hperm, unused_cons] at hroom
  have hrest : unused (update w p ((w p).insert b)) (pre ++ suf) = unused w (pre ++ suf) :=
    unused_congr fun q hq => update_of_ne (hout q hq) _ _
  have hgrow : (w p).length ≤ ((w p).insert b).length := List.length_le_length_insert
  -- a block that is new in the header is new for the operation, which therefore has not used up its share
  have hnew : b ∉ s.log.lh → ((w p).insert b).length = (w p).length + 1 := fun hb =>
    List.length_insert_of_not_mem fun hm => hb (h.logged p hp b hm)
  have hfull : ¬ s.log.lh.length ≥ LOGBLOCKS := fun hge => by
    by_cases hb : b ∈ s.log.lh
    · exact absurd (hc hb) (by omega)
    · have := hnew hb
      omega
  have hout1 : ¬ s.outstanding < 1 := by have := (hi.of_op hp).1; omega
  unfold OpsState.logWrite
  rw [if_neg hfull, if_neg hout1]
  refine ⟨fun l hn hl' => ?_, fun q hq b' hb' => ?_, fun q => ?_, h.live⟩
  · have hperm' : l.Perm (p :: (pre ++ suf)) :=
      ((List.perm_ext_iff_of_nodup hn hn₀).mpr fun q => (hl' q).trans (hl₀ q).symm).trans hperm
    rw [unused_perm hperm', unused_cons, hrest, update_self]
    show List.length (if b ∈ s.log.lh then s.log.lh else s.log.lh ++ [b]) + _ ≤ _
    split
    · omega
    · next hb =>
      have := hnew hb
      rw [List.length_append, List.length_singleton]
      omega
  · show b' ∈ if b ∈ s.log.lh then s.log.lh else s.log.lh ++ [b]
    have hmem : b' = b ∨ b' ∈ s.log.lh := by
      by_cases he : q = p
      · rw [he, update_self, List.mem_insert_iff] at hb'
        exact hb'.imp_right (h.logged p hp b')
      · rw [update_of_ne he] at hb'
        exact .inr (h.logged q hq b' hb')
    rcases hmem with rfl | hm
    · split
      · assumption
      · exact List.mem_append_right _ (List.mem_singleton_self _)
    · split
      · exact hm
      · exact List.mem_append_left _ hm
  · rw [update_apply]
    split
    · exact hw
    · exact h.small q

/-- Operations only end, and the header does not grow. -/
theorem shrink (hop : ∀ q, s'.pc q = .op → s.pc q = .op)
    (hlh : s'.log.lh = s.log.lh ∨ s'.log.lh = [] ∧ ∀ q, s'.pc q ≠ .op) (hlive : s'.panicked = none) :
    Reserved s' w := by
  obtain ⟨l₀, hn₀, hl₀, -⟩ := hi.ops
  refine ⟨fun l hn hl => ?_, fun q hq b hb => ?_, h.small, hlive⟩
  · have hsub : l.Subperm l₀ := List.subperm_of_subset hn fun q hq => (hl₀ q).mpr (hop q ((hl q).mp hq))
    obtain ⟨l₁, hperm, hsl⟩ := hsub
    have hle : unused w l ≤ unused w l₀ := by
      rw [← unused_perm hperm]
      exact List.Sublist.sum_le_sum (hsl.map _) fun _ _ => Nat.zero_le _
    have := h.room l₀ hn₀ hl₀
    rcases hlh with hlh | ⟨hlh, -⟩
    · rw [hlh]; omega
    · rw [hlh, List.length_nil]; omega
  · rcases hlh with hlh | ⟨-, hno⟩
    · rw [hlh]; exact h.logged q (hop q hq) b hb
    · exact absurd hq (hno q)

/-- **Every step keeps the room**, unless it logs a block again while the header is full. -/
theorem step {a : OpsAct B P} (hs : opsStep dev s a = some s')
    (hw : ∀ p, (wroteAfter w a p).length ≤ MAXOPBLOCKS) (hc : NoRelogWhenFull s a) : Reserved s' (wroteAfter w a) := by
  have hwake : ∀ q, s.wakeup.pc q = .op → s.pc q = .op := fun q => (wakeup_pc (by decide) (by decide)).mp
  have hgoto : ∀ (t : OpsState B P) p pc, (∀ q, t.pc q = .op → s.pc q = .op) → pc ≠ .op →
      ∀ q, (t.goto p pc).pc q = .op → s.pc q = .op := fun t p pc ht hpc q hq => by
    rw [goto_pc] at hq
    split at hq
    · exact absurd hq hpc
    · exact ht q hq
  cases (opsStep_does hs).2 with
  | beginOp hp => exact h.beginOp hi hp
  | @logWrite p b v hp =>
    refine h.logWrite hi hp ?_ (hc p b v rfl)
    have := hw p
    rwa [wroteAfter, update_self] at this
  | @endOp p hp =>
    obtain ⟨-, hcom⟩ := hi.of_op hp
    unfold OpsState.endOp
    simp only [hcom, Bool.false_eq_true, if_false]
    split
    · exact h.shrink hi (hgoto _ p _ (fun _ => id) (by decide)) (.inl rfl) h.live
    · exact h.shrink hi (hgoto _ p _ hwake (by decide)) (.inl rfl) h.live
  | commit hp => exact h.shrink hi (hgoto _ _ _ (fun _ => id) (by decide)) (.inl rfl) h.live
  | finish hp hidle => exact h.shrink hi (hgoto _ _ _ hwake (by decide)) (.inl rfl) h.live
  | log hp hl =>
    refine h.shrink hi (fun _ => id) ((logStep_run_lh hi.recovers hl).2.imp_right fun hl => ⟨hl, fun q hq => ?_⟩) h.live
    exact hi.not_commits (hi.of_op hq).2 (.inr hp)
  | wake => exact h.shrink hi hwake (.inl rfl) h.live

end Reserved

theorem OpsRun.inv {C : OpsState B P → OpsAct B P → Prop} (h : OpsRun dev C s w) : OpsInv s := by
  induction h with
  | init d => exact opsInv_init d
  | step a _ _ _ hs ih => exact ih.step hs

/-- **The reservation is sufficient**, in every run in which `log_write` is not called for a logged block while the
header is full: the header never overflows and none of the panics is reached. -/
theorem reservation_sufficient (h : OpsRun dev NoRelogWhenFull s w) :
    s.log.lh.length ≤ LOGBLOCKS ∧ s.panicked = none := by
  have hr : Reserved s w := by
    induction h with
    | init d =>
      refine ⟨fun l _ hl => ?_, nofun, fun _ => Nat.zero_le _, rfl⟩
      cases l with
      | nil => exact Nat.zero_le _
      | cons p l => cases (hl p).mp List.mem_cons_self
    | step a h hw hc hs ih => exact ih.step h.inv hs hw hc
  obtain ⟨l, hn, hl, -⟩ := h.inv.ops
  have := hr.room l hn hl
  exact ⟨by omega, hr.live⟩

end Reservations

/-- One operation that logs a block. -/
theorem reservation_sufficient_one :
    ∃ (s : OpsState (List Nat) (Fin 1)) (w : Fin 1 → List Nat), OpsRun listDev NoRelogWhenFull s w ∧
      s.log.lh = [5] ∧ s.log.lh.length ≤ LOGBLOCKS ∧ s.panicked = none := by
  have h0 : OpsRun listDev NoRelogWhenFull (_ : OpsState (List Nat) (Fin 1)) _ := .init fun _ => []
  have h1 := OpsRun.step (.beginOp 0) h0 (by decide) nofun rfl
  have h2 := OpsRun.step (.logWrite 0 5 [1]) h1 (by decide) (fun _ _ _ _ _ => by decide) rfl
  exact ⟨_, _, h2, rfl, reservation_sufficient h2⟩

/-- The state after a list of steps, if each of them can be made and meets the bound on the blocks of an operation. -/
def opsRun {B : Type} {n : Nat} (dev : LogDev B) :
    OpsState B (Fin n) → (Fin n → List Nat) → List (OpsAct B (Fin n)) → Option (OpsState B (Fin n))
  | s, _, [] => some s
  | s, w, a :: as =>
    if ∀ p, (wroteAfter w a p).length ≤ MAXOPBLOCKS then
      (opsStep dev s a).bind fun s' => opsRun dev s' (wroteAfter w a) as
    else none

theorem opsRun_run {B : Type} {n : Nat} {dev : LogDev B} {s s' : OpsState B (Fin n)} {w : Fin n → List Nat}
    (as : List (OpsAct B (Fin n))) (h : OpsRun dev (fun _ _ => True) s w) (hr : opsRun dev s w as = some s') :
    ∃ w', OpsRun dev (fun _ _ => True) s' w' := by
  induction as generalizing s w with
  | nil => cases hr; exact ⟨w, h⟩
  | cons a as ih =>
    rw [opsRun, Option.ite_none_right_eq_some, Option.bind_eq_some_iff] at hr
    obtain ⟨hw, s₁, hs, hr⟩ := hr
    exact ih (.step a h hw trivial hs) hr

/-- Three operations log ten blocks each; then process `0` logs its block `100` once more. -/
def fullThenRelog : List (OpsAct (List Nat) (Fin 3)) :=
  [.beginOp 0, .beginOp 1, .beginOp 2] ++
    (List.finRange 3).flatMap (fun p => (List.range 10).map fun i => .logWrite p (100 * (p + 1) + i) []) ++
    [.logWrite 0 100 []]

/-- **The reservation is not sufficient.** No operation has passed more than ten blocks to `log_write`, and yet
`log_write` panics: it tests for a full header before it looks for the block there. -/
theorem relog_panics : ∃ (s : OpsState (List Nat) (Fin 3)) (w : Fin 3 → List Nat),
    OpsRun listDev (fun _ _ => True) s w ∧ s.panicked = some .tooBig ∧ LogPanic.tooBig.msg = "too big a transaction" := by
  have hr : ((opsRun listDev (.init fun _ => []) (fun _ => []) fullThenRelog).map (·.panicked)) = some (some .tooBig) := by
    decide +kernel
  obtain ⟨s, hs, hp⟩ := Option.map_eq_some_iff.mp hr
  obtain ⟨w, hw⟩ := opsRun_run fullThenRelog (.init _) hs
  exact ⟨s, w, hw, hp, rfl⟩

end Xv6
