import Xv6.Bio.Machine

/-!
# Coherence of the buffer cache

- `BioInv`: the invariant of the cache and the log together;
- `BioInv.step`: every step keeps it, and is a step of the operations (`opsStep`) or changes nothing there, so that what
  is known about operations and commits holds here;
- `cache_coherent`: the LRU list, the reference counts, and the contents that `bread` returns;
- `cache_not_dry`: `bget` finds a buffer as long as fewer than `NBUF` blocks are held or pinned;
- `readers_exhaust_cache`: it may not find one.
-/

namespace Xv6

open Function (update update_of_ne update_self)

variable {B P : Type} [DecidableEq P] {dev : LogDev B} {s s' : BioState B P} {p : P} {b : Nat} {v : B} {h : Hold P}
variable {pc pc₀ : CommitPc} {k : Hold P} {tail : Nat}

/-! ## The invariant -/

/-- The block whose buffer `commit` has changed and not yet written. -/
def CommitPc.target (dev : LogDev B) (lh : List Nat) : CommitPc → Option Nat
  | .logWrite tail => some (dev.start + tail + 1)
  | .headWrite _ => some dev.start
  | .instWrite tail => some (lh.getD tail 0)
  | _ => none

/-- A process has changed the buffer of the block to `v`. -/
def BioState.Changed (s : BioState B P) (b : Nat) (v : B) : Prop :=
  ∃ h ∈ s.holds, h.pc = .ready true ∧ h.blockno = b ∧ (s.cache.buf h.buf).data = v

/-- What holds at the points of `commit`. -/
def BioState.AtCpc (dev : LogDev B) (s : BioState B P) : Prop :=
  match s.cpc with
  | .logFrom tail | .logCopy tail | .logRelFrom tail | .logRelTo tail => tail < s.lh.length
  | .instDst tail | .instCopy tail | .instRelLog tail | .instRelDst tail => tail < s.lh.length
  | .logWrite tail => tail < s.lh.length ∧ s.Changed (dev.start + tail + 1) (s.last (s.lh.getD tail 0))
  | .headWrite _ => s.Changed dev.start (dev.setHead (s.last dev.start) s.lh)
  | .instWrite tail => tail < s.lh.length ∧ s.Changed (s.lh.getD tail 0) (s.last (dev.start + tail + 1))
  | .instUnpin tail => tail < s.lh.length ∧ s.disk (s.lh.getD tail 0) = s.last (s.lh.getD tail 0)
  | _ => True

/-- The invariant. -/
structure BioInv (dev : LogDev B) (s : BioState B P) : Prop where
  cache : CacheInv s.cache s.holds s.pinned s.last s.disk
  ops : OpsInv s.abs
  dirty : ∀ h ∈ s.holds, h.pc = .ready true →
    s.pc h.proc = .op ∨ s.pc h.proc = .inCommit ∧ s.cpc.target dev s.lh = some h.blockno
  atCpc : s.AtCpc dev

/-- The step is one of the operations, or none. -/
def Sim (dev : LogDev B) (s s' : BioState B P) : Prop := s'.abs = s.abs ∨ ∃ a, opsStep dev s.abs a = some s'.abs

/-- What is shown of every step. -/
abbrev Kept (dev : LogDev B) (s s' : BioState B P) : Prop := BioInv dev s' ∧ Sim dev s s'

theorem Sim.ops (h : Sim dev s s') (hi : OpsInv s.abs) : OpsInv s'.abs := by
  rcases h with h | ⟨a, h⟩
  · rw [h]; exact hi
  · exact hi.step h

theorem bioInv_init (data : B) (disk : Nat → B) : BioInv dev (BioState.init data disk : BioState B P) where
  cache := CacheInv.binit data disk
  ops := opsInv_init disk
  dirty := nofun
  atCpc := trivial

theorem mem_of_ready (hr : s.ready? p b = some h) : h ∈ s.holds ∧ h.proc = p ∧ h.blockno = b ∧ ∃ d, h.pc = .ready d := by
  have h1 := List.find?_some hr
  refine ⟨List.mem_of_find?_eq_some hr, ?_⟩
  simp only [Bool.and_eq_true, decide_eq_true_eq] at h1
  obtain ⟨⟨h2, h3⟩, h4⟩ := h1
  refine ⟨h2, h3, ?_⟩
  cases hp : h.pc with
  | ready d => exact ⟨d, rfl⟩
  | _ => rw [hp] at h4; cases h4

/-- The holds with one of them in front. -/
theorem BioInv.front (hi : BioInv dev s) (hm : h ∈ s.holds) :
    CacheInv s.cache (h :: s.holds.erase h) s.pinned s.last s.disk := hi.cache.perm (List.perm_cons_erase hm)

/-! ## Steps that do not concern the log -/

/-- The parts of a state that the log knows about. -/
def BioState.SameLog (s s' : BioState B P) : Prop :=
  s'.disk = s.disk ∧ s'.last = s.last ∧ s'.lh = s.lh ∧ s'.cpc = s.cpc ∧ s'.pc = s.pc ∧ s'.outstanding = s.outstanding ∧
    s'.committing = s.committing ∧ s'.panicked.bind BioPanic.log? = s.panicked.bind BioPanic.log?

/-- Buffers that are being changed are left alone. -/
def BioState.KeepsChanged (s s' : BioState B P) : Prop :=
  ∀ h ∈ s.holds, h.pc = .ready true → h ∈ s'.holds ∧ (s'.cache.buf h.buf).data = (s.cache.buf h.buf).data

omit [DecidableEq P] in
theorem BioState.SameLog.abs (h : s.SameLog s') : s'.abs = s.abs := by
  obtain ⟨h1, h2, h3, h4, h5, h6, h7, h8⟩ := h
  simp only [BioState.abs, h1, h2, h3, h4, h5, h6, h7, h8]

omit [DecidableEq P] in
theorem BioState.SameLog.pinned (h : s.SameLog s') : s'.pinned = s.pinned := by
  obtain ⟨-, -, h3, h4, -⟩ := h
  simp only [BioState.pinned, h3, h4]

omit [DecidableEq P] in
theorem BioState.KeepsChanged.changed (h : s.KeepsChanged s') (hc : s.Changed b v) : s'.Changed b v := by
  obtain ⟨k, hk, h1, h2, h3⟩ := hc
  obtain ⟨hk', hd⟩ := h k hk h1
  exact ⟨k, hk', h1, h2, hd.trans h3⟩

omit [DecidableEq P] in
theorem BioState.AtCpc.keep (hk : s.KeepsChanged s')
    (hlog : s'.disk = s.disk ∧ s'.last = s.last ∧ s'.lh = s.lh ∧ s'.cpc = s.cpc) (h : s.AtCpc dev) : s'.AtCpc dev := by
  obtain ⟨h1, h2, h3, h4⟩ := hlog
  unfold BioState.AtCpc at h ⊢
  rw [h4]
  rw [h1, h2, h3]
  cases hc : s.cpc <;> rw [hc] at h <;> first
    | exact h
    | exact ⟨h.1, hk.changed h.2⟩
    | exact hk.changed h

/-- A step that the log does not see keeps the invariant. -/
theorem BioInv.quiet (hi : BioInv dev s) (hlog : s.SameLog s') (hk : s.KeepsChanged s')
    (hcache : CacheInv s'.cache s'.holds s.pinned s.last s.disk)
    (hdirty : ∀ h ∈ s'.holds, h.pc = .ready true → h ∈ s.holds) : Kept dev s s' := by
  refine ⟨⟨?_, ?_, fun k hm hr => ?_, ?_⟩, .inl hlog.abs⟩
  · rw [hlog.1, hlog.2.1, hlog.pinned]
    exact hcache
  · rw [hlog.abs]
    exact hi.ops
  · obtain ⟨-, -, h3, h4, h5, -⟩ := hlog
    rw [h3, h4, h5]
    exact hi.dirty k (hdirty k hm hr) hr
  · obtain ⟨h1, h2, h3, h4, -⟩ := hlog
    exact hi.atCpc.keep hk ⟨h1, h2, h3, h4⟩

omit [DecidableEq P] in
theorem setBuf_data {c : Bcache B P} {i j : Fin NBUF} {x : Buf B} (hx : x.data = (c.buf i).data) :
    ((c.setBuf i x).buf j).data = (c.buf j).data := by
  rw [CacheInv.setBuf_buf]
  split
  · next e => rw [hx, e]
  · rfl

theorem Bcache.bget_data {c c' : Bcache B P} {d : Nat} {i : Fin NBUF} (h : c.bget d b = some (i, c')) (j : Fin NBUF) :
    (c'.buf j).data = (c.buf j).data := by
  unfold Bcache.bget at h
  split at h
  · cases h
    exact setBuf_data rfl
  · split at h
    · cases h
      exact setBuf_data rfl
    · cases h

/-- The other holds stay when one that is not being changed moves on or goes away. -/
theorem mem_erase_changed (hq : h.pc ≠ .ready true) (hk : k ∈ s.holds) (hr : k.pc = .ready true) :
    k ∈ s.holds.erase h := by
  have hne : k ≠ h := fun e => hq (e ▸ hr)
  exact (List.mem_erase_of_ne hne).mpr hk

theorem mem_move {q : HoldPc} (hq : h.pc ≠ .ready true) (hk : k ∈ s.holds) (hr : k.pc = .ready true) :
    k ∈ (s.move h q).holds := List.mem_cons_of_mem _ (mem_erase_changed hq hk hr)

theorem mem_of_move {q : HoldPc} (hq : q ≠ .ready true) (hk : k ∈ (s.move h q).holds)
    (hr : k.pc = .ready true) : k ∈ s.holds := by
  rcases List.mem_cons.mp hk with rfl | hk
  · exact absurd hr hq
  · exact List.mem_of_mem_erase hk

namespace BioInv

/-- `bget`. -/
theorem bget (hi : BioInv dev s) (hlive : s.panicked = none) : Kept dev s (s.bget p b) := by
  have hb := hi.cache.bget p b
  unfold BioState.bget
  cases hg : s.cache.bget ROOTDEV b with
  | none =>
    refine hi.quiet ⟨rfl, rfl, rfl, rfl, rfl, rfl, rfl, ?_⟩ (fun k hk _ => ⟨hk, rfl⟩) hi.cache fun k hk _ => hk
    rw [hlive]
    rfl
  | some ic =>
    rw [hg] at hb
    refine hi.quiet ⟨rfl, rfl, rfl, rfl, rfl, rfl, rfl, rfl⟩ (fun k hk _ => ⟨List.mem_cons_of_mem _ hk, ?_⟩) hb ?_
    · exact Bcache.bget_data hg k.buf
    · intro k hk hr
      rcases List.mem_cons.mp hk with rfl | hk
      · cases hr
      · exact hk

/-- A buffer gets on. -/
theorem go (hi : BioInv dev s) (hm : h ∈ s.holds) (hs : s.go h = some s') : Kept dev s s' := by
  obtain ⟨p, i, b, q⟩ := h
  have hf := hi.front hm
  cases q with
  | waiting =>
    simp only [BioState.go, Option.ite_none_right_eq_some, Option.some.injEq] at hs
    obtain ⟨hfree, rfl⟩ := hs
    refine hi.quiet ⟨rfl, rfl, rfl, rfl, rfl, rfl, rfl, rfl⟩ (fun k hk hr => ⟨mem_move ?_ hk hr, rfl⟩)
      (hf.acquire hfree) fun k hk hr => mem_of_move ?_ hk hr
    · simp
    · simp
  | locked =>
    simp only [BioState.go, Option.some.injEq] at hs
    subst hs
    refine hi.quiet ⟨rfl, rfl, rfl, rfl, rfl, rfl, rfl, rfl⟩ (fun k hk hr => ?_) hf.fill fun k hk hr => mem_of_move ?_ hk hr
    · have hm2 : k ∈ s.holds.erase ⟨p, i, b, .locked⟩ := mem_erase_changed (by simp) hk hr
      refine ⟨List.mem_cons_of_mem _ hm2, ?_⟩
      have hne : k.buf ≠ i := fun e => by
        have := (hf.only_lock rfl).2 k hm2 e
        rw [hr] at this
        cases this
      exact (CacheInv.setBuf_other hne).2
    · simp
  | ready d => cases hs
  | released =>
    simp only [BioState.go, Option.some.injEq] at hs
    subst hs
    refine hi.quiet ⟨rfl, rfl, rfl, rfl, rfl, rfl, rfl, rfl⟩ (fun k hk hr => ?_) hf.put
      fun k hk _ => List.mem_of_mem_erase hk
    refine ⟨mem_erase_changed (by simp) hk hr, ?_⟩
    unfold Bcache.put
    dsimp only
    split <;> exact setBuf_data rfl

/-- `brelse` of a buffer that has not been changed, or has been written or logged since. -/
theorem release (hi : BioInv dev s) (hm : h ∈ s.holds) (hc : h.pc = .ready false) : Kept dev s (s.release h) := by
  obtain ⟨p, i, b, q⟩ := h
  subst hc
  have hf := hi.front hm
  unfold BioState.release
  rw [if_pos (hf.only_lock rfl).1]
  refine hi.quiet ⟨rfl, rfl, rfl, rfl, rfl, rfl, rfl, rfl⟩ (fun k hk hr => ⟨mem_move ?_ hk hr, rfl⟩) hf.release
    fun k hk hr => mem_of_move ?_ hk hr
  · simp
  · simp

end BioInv

/-! ## Operations -/

omit [DecidableEq P] in
/-- Outside a commit there is nothing to say about its program counter. -/
theorem atCpc_of_idle (h : s.cpc = .idle ∨ s.cpc = .headRel true) : s.AtCpc dev := by
  unfold BioState.AtCpc
  rcases h with h | h <;> rw [h] <;> trivial

omit [DecidableEq P] in
theorem installed_of_idle (h : s.cpc = .idle ∨ s.cpc = .headRel true) : s.cpc.installed = 0 := by
  rcases h with h | h <;> rw [h] <;> rfl

/-- The log sees a change of the program counters only. -/
def BioState.SameData (s s' : BioState B P) : Prop :=
  s'.cache = s.cache ∧ s'.holds = s.holds ∧ s'.lh = s.lh ∧ s'.cpc = s.cpc ∧ s'.last = s.last ∧ s'.disk = s.disk

namespace BioInv

omit [DecidableEq P] in
/-- Nobody is inside `commit`. -/
theorem cpc_idle (hi : BioInv dev s) (hq : ∀ q, s.pc q ≠ .inCommit) : s.cpc = .idle ∨ s.cpc = .headRel true := by
  have h := hi.ops.idle hq
  change s.cpc.abs = .idle at h
  cases hc : s.cpc <;> rw [hc] at h
  case idle => exact .inl rfl
  case headRel fin =>
    cases fin with
    | true => exact .inr rfl
    | false => cases h
  case head fin => cases fin <;> cases h
  case headFill fin => cases fin <;> cases h
  case headWrite fin => cases fin <;> cases h
  all_goals cases h

omit [DecidableEq P] in
theorem cpc_of_op (hi : BioInv dev s) (hp : s.pc p = .op) : s.cpc = .idle ∨ s.cpc = .headRel true :=
  hi.cpc_idle fun _ hq => hi.ops.not_commits (hi.ops.of_op hp).2 (.inr hq)

omit [DecidableEq P] in
theorem abs_live (hlive : s.panicked = none) : ¬ s.abs.panicked.isSome = true := by
  simp [BioState.abs, hlive]

/-- A step of the operations that leaves buffers and contents alone. -/
theorem pc_step (hi : BioInv dev s) (hsim : Sim dev s s') (hs : s.SameData s')
    (hpc : ∀ h ∈ s.holds, h.pc = .ready true → s.pc h.proc = .op ∨ s.pc h.proc = .inCommit ∧
      s.cpc.target dev s.lh = some h.blockno → s'.pc h.proc = s.pc h.proc) : BioInv dev s' := by
  obtain ⟨h1, h2, h3, h4, h5, h6⟩ := hs
  refine ⟨?_, hsim.ops hi.ops, fun k hk hr => ?_, hi.atCpc.keep (fun k hk _ => ?_) ⟨h6, h5, h3, h4⟩⟩
  · unfold BioState.pinned
    rw [h1, h2, h3, h4, h5, h6]
    exact hi.cache
  · rw [h2] at hk
    have hd := hi.dirty k hk hr
    rw [hpc k hk hr hd, h3, h4]
    exact hd
  · rw [h1, h2]
    exact ⟨hk, rfl⟩

/-- `wakeup(&log)` leaves the processes that may change buffers where they are. -/
theorem wakeup_pc_eq {q : P} (h : s.pc q = .op ∨ s.pc q = .inCommit) : s.wakeup.pc q = s.pc q := by
  show (if s.pc q = .asleep then OpPc.waiting else s.pc q) = s.pc q
  rcases h with h | h <;> rw [h] <;> rfl

theorem wake (hi : BioInv dev s) (hlive : s.panicked = none) : Kept dev s s.wakeup := by
  have hsim : Sim dev s s.wakeup := by
    refine .inr ⟨.wake, ?_⟩
    rw [opsStep, if_neg (abs_live hlive)]
    rfl
  refine ⟨hi.pc_step hsim ⟨rfl, rfl, rfl, rfl, rfl, rfl⟩ fun k _ _ hd => wakeup_pc_eq (hd.imp_right And.left), hsim⟩

theorem beginOp (hi : BioInv dev s) (hlive : s.panicked = none) (hp : s.pc p = .out ∨ s.pc p = .waiting) :
    Kept dev s (s.beginOp p) := by
  have habs : (s.beginOp p).abs = s.abs.beginOp p := by
    unfold BioState.beginOp OpsState.beginOp
    rw [apply_ite BioState.abs, apply_ite BioState.abs]
    rfl
  have hsim : Sim dev s (s.beginOp p) := by
    refine .inr ⟨.beginOp p, ?_⟩
    have hp' : s.abs.pc p = .out ∨ s.abs.pc p = .waiting := hp
    rw [habs, opsStep, if_neg (abs_live hlive)]
    exact if_pos hp'
  refine ⟨hi.pc_step hsim ?_ fun k hk hr hd => ?_, hsim⟩
  · unfold BioState.beginOp
    split
    · exact ⟨rfl, rfl, rfl, rfl, rfl, rfl⟩
    · split <;> exact ⟨rfl, rfl, rfl, rfl, rfl, rfl⟩
  · have hne : k.proc ≠ p := fun e => by
      rw [e] at hd
      rcases hp with hp | hp <;> simp [hp] at hd
    unfold BioState.beginOp
    split
    · exact update_of_ne hne _ _
    · split <;> exact update_of_ne hne _ _

omit [DecidableEq P] in
/-- The process has no changed buffers. -/
theorem ne_of_not_dirty [DecidableEq P] (hd : s.dirty p = false) (hk : k ∈ s.holds)
    (hr : k.pc = .ready true) : k.proc ≠ p := fun e => by
  have := List.any_eq_false.mp hd k hk
  simp [e, hr] at this

theorem endOp (hi : BioInv dev s) (hlive : s.panicked = none) (hd : s.dirty p = false) (hp : s.pc p = .op) :
    Kept dev s (s.endOp p) := by
  have hsim : Sim dev s (s.endOp p) := by
    refine .inr ⟨.endOp p, ?_⟩
    have habs : (s.endOp p).abs = s.abs.endOp p := by
      unfold BioState.endOp OpsState.endOp
      rw [apply_ite BioState.abs, apply_ite BioState.abs]
      rfl
    have hp' : s.abs.pc p = .op := hp
    rw [habs, opsStep, if_neg (abs_live hlive)]
    exact if_pos hp'
  refine ⟨hi.pc_step hsim ?_ fun k hk hr hkd => ?_, hsim⟩
  · unfold BioState.endOp
    dsimp only
    split
    · exact ⟨rfl, rfl, rfl, rfl, rfl, rfl⟩
    · split <;> exact ⟨rfl, rfl, rfl, rfl, rfl, rfl⟩
  · have hne := ne_of_not_dirty hd hk hr
    unfold BioState.endOp
    dsimp only
    split
    · rfl
    · split
      · exact update_of_ne hne _ _
      · refine (update_of_ne hne _ _).trans ?_
        exact wakeup_pc_eq (hkd.imp_right And.left)

/-- A process in an operation changes a buffer. -/
theorem modify (hi : BioInv dev s) (hr : s.ready? p b = some h) (hp : s.pc p = .op) : Kept dev s (s.setData h v) := by
  obtain ⟨hm, rfl, rfl, d, hd⟩ := mem_of_ready hr
  obtain ⟨p, i, b, q⟩ := h
  subst hd
  refine ⟨⟨(hi.front hm).modify v, hi.ops, fun k hk hkr => ?_, atCpc_of_idle (hi.cpc_of_op hp)⟩, .inl rfl⟩
  rcases List.mem_cons.mp hk with rfl | hk
  · exact .inl hp
  · exact hi.dirty k (List.mem_of_mem_erase hk) hkr

/-- `log_write`. -/
theorem logWrite (hi : BioInv dev s) (hlive : s.panicked = none) (hr : s.ready? p b = some h) (hp : s.pc p = .op) :
    Kept dev s (s.logWrite h) := by
  obtain ⟨hm, rfl, rfl, d, hd⟩ := mem_of_ready hr
  obtain ⟨p, i, b, q⟩ := h
  subst hd
  have hidle := hi.cpc_of_op hp
  have hf := hi.front hm
  rw [BioState.pinned, installed_of_idle hidle] at hf
  have hsim : Sim dev s (s.logWrite ⟨p, i, b, .ready d⟩) := by
    refine .inr ⟨.logWrite p b (s.cache.buf i).data, ?_⟩
    have habs : (s.logWrite ⟨p, i, b, .ready d⟩).abs = s.abs.logWrite b (s.cache.buf i).data := by
      unfold BioState.logWrite OpsState.logWrite LogState.logWrite
      rw [apply_ite BioState.abs, apply_ite BioState.abs]
      by_cases hb : b ∈ s.lh
      · have hb' : b ∈ s.abs.log.lh := hb
        rw [if_pos hb, if_pos hb']
        rfl
      · have hb' : b ∉ s.abs.log.lh := hb
        rw [if_neg hb, if_neg hb']
        rfl
    have hp' : s.abs.pc p = .op := hp
    rw [habs, opsStep, if_neg (abs_live hlive)]
    exact if_pos hp'
  have hops := hsim.ops hi.ops
  refine ⟨?_, hsim⟩
  have hdirty : ∀ lh, ∀ k ∈ ⟨p, i, b, .ready false⟩ :: s.holds.erase ⟨p, i, b, .ready d⟩, k.pc = .ready true →
      s.pc k.proc = .op ∨ s.pc k.proc = .inCommit ∧ s.cpc.target dev lh = some k.blockno := fun lh k hk hkr => by
    rcases List.mem_cons.mp hk with rfl | hk
    · cases hkr
    · refine (hi.dirty k (List.mem_of_mem_erase hk) hkr).imp_right fun ⟨_, ht⟩ => ?_
      rcases hidle with h | h <;> rw [h] at ht <;> cases ht
  unfold BioState.logWrite at hops ⊢
  by_cases hfull : s.lh.length ≥ LOGBLOCKS
  · rw [if_pos hfull] at hops ⊢
    exact ⟨hi.cache, hops, hi.dirty, hi.atCpc⟩
  · rw [if_neg hfull] at hops ⊢
    by_cases hout : s.outstanding < 1
    · rw [if_pos hout] at hops ⊢
      exact ⟨hi.cache, hops, hi.dirty, hi.atCpc⟩
    · rw [if_neg hout] at hops ⊢
      by_cases hb : b ∈ s.lh
      · rw [if_pos hb] at hops ⊢
        refine ⟨?_, hops, hdirty s.lh, atCpc_of_idle hidle⟩
        show CacheInv _ _ (List.drop s.cpc.installed s.lh) _ _
        rw [installed_of_idle hidle]
        exact hf.relog hb
      · rw [if_neg hb] at hops ⊢
        refine ⟨?_, hops, hdirty _, atCpc_of_idle hidle⟩
        show CacheInv _ _ (List.drop s.cpc.installed (s.lh ++ [b])) _ _
        rw [installed_of_idle hidle]
        exact hf.log hb

end BioInv

/-! ## Commit -/

namespace BioInv

/-- `end_op` calls `commit`. -/
theorem commit_call (hi : BioInv dev s) (hlive : s.panicked = none) (hp : s.pc p = .doCommit) :
    Kept dev s { s.goto p .inCommit with cpc := if s.lh.length > 0 then .writeLog 0 else .idle } := by
  have hnone : ∀ q, s.pc q ≠ .inCommit := fun q hq => by
    obtain rfl := (hi.ops.commit p (.inl hp)).2 q (.inr hq)
    rw [hp] at hq
    cases hq
  have hidle := hi.cpc_idle hnone
  have habs : BioState.abs { s.goto p .inCommit with cpc := if s.lh.length > 0 then .writeLog 0 else .idle } =
      { s.abs.goto p .inCommit with log := s.abs.log.commit } := by
    simp only [BioState.abs, apply_ite CommitPc.abs]
    rfl
  have hsim : Sim dev s { s.goto p .inCommit with cpc := if s.lh.length > 0 then .writeLog 0 else .idle } := by
    refine .inr ⟨.run p, ?_⟩
    have hp' : s.abs.pc p = .doCommit := hp
    rw [opsStep, if_neg (abs_live hlive), habs]
    simp only [hp']
  refine ⟨⟨?_, hsim.ops hi.ops, fun k hk hr => ?_, ?_⟩, hsim⟩
  · have hcache := hi.cache
    rw [BioState.pinned, installed_of_idle hidle] at hcache
    have h0 : CommitPc.installed (if s.lh.length > 0 then .writeLog 0 else .idle) = 0 := by split <;> rfl
    show CacheInv _ _ (List.drop (CommitPc.installed (if s.lh.length > 0 then .writeLog 0 else .idle)) s.lh) _ _
    rw [h0]
    exact hcache
  · rcases hi.dirty k hk hr with hd | ⟨hd, -⟩
    · have hne : k.proc ≠ p := fun e => by rw [e, hp] at hd; cases hd
      exact .inl ((update_of_ne hne _ _).trans hd)
    · exact absurd hd (hnone k.proc)
  · by_cases hl : s.lh.length > 0
    · simp only [BioState.AtCpc, hl, if_true]
    · simp only [BioState.AtCpc, hl, if_false]

/-- `commit` has returned. -/
theorem finish (hi : BioInv dev s) (hlive : s.panicked = none) (hp : s.pc p = .inCommit) (hc : s.cpc = .idle) :
    Kept dev s (s.finish p) := by
  have hsim : Sim dev s (s.finish p) := by
    refine .inr ⟨.run p, ?_⟩
    have hp' : s.abs.pc p = .inCommit := hp
    have hc' : s.abs.log.pc = .idle := by
      show s.cpc.abs = .idle
      rw [hc]; rfl
    rw [opsStep, if_neg (abs_live hlive)]
    simp only [hp', hc']
    rfl
  refine ⟨hi.pc_step hsim ⟨rfl, rfl, rfl, rfl, rfl, rfl⟩ fun k hk hr hd => ?_, hsim⟩
  have hne : k.proc ≠ p := fun e => by
    rw [e, hp, hc] at hd
    rcases hd with hd | ⟨-, hd⟩ <;> cases hd
  exact (update_of_ne hne _ _).trans (wakeup_pc_eq (hd.imp_right And.left))

omit [DecidableEq P] in
/-- While a process is in `commit`, only its own buffer may be changed. -/
theorem dirty_target (hi : BioInv dev s) (hp : s.pc p = .inCommit) (hk : k ∈ s.holds)
    (hr : k.pc = .ready true) : s.pc k.proc = .inCommit ∧ s.cpc.target dev s.lh = some k.blockno := by
  refine (hi.dirty k hk hr).resolve_left fun hop => ?_
  exact hi.ops.not_commits (hi.ops.of_op hop).2 (.inr hp)

/-- The program counter moves on in code that only reads. -/
theorem advance (hi : BioInv dev s) (hp : s.pc p = .inCommit) (habs : pc.abs = s.cpc.abs)
    (hins : pc.installed = s.cpc.installed) (ht : s.cpc.target dev s.lh = none)
    (hat : BioState.AtCpc dev { s with cpc := pc }) :
    BioInv dev { s with cpc := pc } ∧ BioState.abs { s with cpc := pc } = s.abs := by
  have habs' : BioState.abs { s with cpc := pc } = s.abs := by simp only [BioState.abs, habs]
  refine ⟨⟨?_, ?_, fun k hk hr => ?_, hat⟩, habs'⟩
  · show CacheInv _ _ (List.drop pc.installed s.lh) _ _
    rw [hins]
    exact hi.cache
  · rw [habs']
    exact hi.ops
  · have := (hi.dirty_target hp hk hr).2
    rw [ht] at this
    cases this

/-- A step of the log that the committing process makes. -/
theorem sim_run (hlive : s.panicked = none) (hp : s.pc p = .inCommit) {log : LogState B}
    (hl : logStep dev s.abs.log .run = some log) (habs : s'.abs = { s.abs with log := log }) : Sim dev s s' := by
  refine .inr ⟨.run p, ?_⟩
  have hp' : s.abs.pc p = .inCommit := hp
  have hne : s.abs.log.pc ≠ .idle := fun e => by
    simp only [logStep, e] at hl
    cases hl
  rw [opsStep, if_neg (abs_live hlive)]
  simp only [hp', if_neg hne, hl, habs, Option.map_some]

omit [DecidableEq P] in
theorem sameLog_bget (hlive : s.panicked = none) : s.SameLog (s.bget p b) := by
  unfold BioState.bget
  cases s.cache.bget ROOTDEV b with
  | none =>
    refine ⟨rfl, rfl, rfl, rfl, rfl, rfl, rfl, ?_⟩
    rw [hlive]
    rfl
  | some ic => exact ⟨rfl, rfl, rfl, rfl, rfl, rfl, rfl, rfl⟩

theorem sameLog_release (hlive : s.panicked = none) : s.SameLog (s.release h) := by
  unfold BioState.release
  split
  · exact ⟨rfl, rfl, rfl, rfl, rfl, rfl, rfl, rfl⟩
  · refine ⟨rfl, rfl, rfl, rfl, rfl, rfl, rfl, ?_⟩
    rw [hlive]
    rfl

omit [DecidableEq P] in
theorem lt_length (hlt : tail < s.lh.length) (h : s'.lh = s.lh) : tail < s'.lh.length := h ▸ hlt

/-- A call of `commit` that the log does not see. -/
theorem quiet_call (ht : BioInv dev s') (hsame : s.SameLog s') (hp : s.pc p = .inCommit) (hc : s.cpc = pc₀)
    (habs : pc.abs = pc₀.abs) (hins : pc.installed = pc₀.installed) (htgt : pc₀.target dev s.lh = none)
    (hat : s'.lh = s.lh → BioState.AtCpc dev { s' with cpc := pc }) :
    Kept dev s { s' with cpc := pc } := by
  subst hc
  have hlog := hsame.abs
  obtain ⟨-, -, h3, h4, h5, -⟩ := hsame
  obtain ⟨h6, h7⟩ := ht.advance (h5 ▸ hp) (h4 ▸ habs) (h4 ▸ hins) (by rw [h3, h4]; exact htgt) (hat h3)
  exact ⟨h6, .inl (h7.trans hlog)⟩

variable (hi : BioInv dev s)
include hi

/-- `commit` changes a buffer. -/
theorem change_call (hp : s.pc p = .inCommit) (hr : s.ready? p b = some h) (hc : s.cpc = pc₀)
    (habs : pc.abs = pc₀.abs) (hins : pc.installed = pc₀.installed) (htgt : pc₀.target dev s.lh = none)
    (htgt' : pc.target dev s.lh = some b)
    (hat : BioState.Changed { s.setData h v with cpc := pc } b v → BioState.AtCpc dev { s.setData h v with cpc := pc }) :
    Kept dev s { s.setData h v with cpc := pc } := by
  obtain ⟨hm, rfl, rfl, d, hd⟩ := mem_of_ready hr
  obtain ⟨p, i, b, q⟩ := h
  subst hd hc
  have hf := (hi.front hm).modify v
  have hlog : BioState.abs { s.setData ⟨p, i, b, .ready d⟩ v with cpc := pc } = s.abs := by
    simp only [BioState.abs, habs]
    rfl
  refine ⟨⟨?_, ?_, fun k hk hkr => ?_, hat ?_⟩, .inl hlog⟩
  · show CacheInv _ _ (List.drop pc.installed s.lh) _ _
    rw [hins]
    exact hf
  · rw [hlog]
    exact hi.ops
  · rcases List.mem_cons.mp hk with rfl | hk
    · exact .inr ⟨hp, htgt'⟩
    · have := (hi.dirty_target hp (List.mem_of_mem_erase hk) hkr).2
      rw [htgt] at this
      cases this
  · refine ⟨⟨p, i, b, .ready true⟩, List.mem_cons_self, rfl, rfl, ?_⟩
    show ((s.cache.setBuf i { s.cache.buf i with data := v }).buf i).data = v
    rw [CacheInv.setBuf_buf, if_pos rfl]

/-- The changed buffer of a block is the one that its holder has. -/
theorem data_of_changed (hr : s.ready? p b = some h) (hc : s.Changed b v) : (s.cache.buf h.buf).data = v := by
  obtain ⟨hm, -, hb, d, hd⟩ := mem_of_ready hr
  obtain ⟨k, hk, -, hkb, hkv⟩ := hc
  obtain ⟨h1, h2⟩ := hi.cache.hold h hm
  obtain ⟨h3, h4⟩ := hi.cache.hold k hk
  have he := hi.cache.uniq h.buf k.buf (by rw [h1]; decide) (by rw [h1, h3]) (by rw [h2, h4, hb, hkb])
  rw [he]
  exact hkv

/-- `commit` writes a buffer to the disk, and this is the next write of the log. -/
theorem write_call (hlive : s.panicked = none) (hp : s.pc p = .inCommit)
    (hr : s.ready? p b = some h) (hpc : s.cpc = pc₀) (hins : pc.installed = pc₀.installed)
    (htgt : pc₀.target dev s.lh = some b) (hc : s.Changed b v)
    (hlog : logStep dev s.abs.log .run = some { s.abs.log.bwrite b v with pc := pc.abs })
    (hat : ∀ t : BioState B P, t.lh = s.lh → t.disk b = t.last b → BioState.AtCpc dev { t with cpc := pc }) :
    Kept dev s { s.bwrite h with cpc := pc } := by
  have hdata := hi.data_of_changed hr hc
  obtain ⟨hm, rfl, rfl, d, hd⟩ := mem_of_ready hr
  obtain ⟨p, i, b, q⟩ := h
  subst hd hpc
  have hf := hi.front hm
  have hown : s.cache.lock i = some p := (hf.only_lock rfl).1
  have hw : s.bwrite ⟨p, i, b, .ready d⟩ = { s.move ⟨p, i, b, .ready d⟩ (.ready false) with
      disk := update s.disk b v, last := update s.last b v } := by
    unfold BioState.bwrite
    rw [if_pos hown, hdata]
  have hsim : Sim dev s { s.bwrite ⟨p, i, b, .ready d⟩ with cpc := pc } := by
    rw [hw]
    exact sim_run hlive hp hlog rfl
  refine ⟨⟨?_, hsim.ops hi.ops, fun k hk hkr => ?_, hat _ ?_ ?_⟩, hsim⟩
  · rw [hw]
    show CacheInv _ _ (List.drop pc.installed s.lh) _ _
    rw [hins]
    have := hf.bwrite
    rw [hdata] at this
    exact this
  · -- a second changed buffer would be locked too
    rw [hw] at hk
    rcases List.mem_cons.mp hk with rfl | hk
    · cases hkr
    · have hk' := List.mem_of_mem_erase hk
      obtain ⟨-, ht⟩ := hi.dirty_target hp hk' hkr
      rw [htgt] at ht
      obtain ⟨h1, h2⟩ := hi.cache.hold _ hm
      obtain ⟨h3, h4⟩ := hi.cache.hold k hk'
      have he := hi.cache.uniq k.buf i (by rw [h3]; decide) (by rw [h3]; exact h1.symm)
        (by rw [h4, ← Option.some.inj ht]; exact h2.symm)
      have := (hf.only_lock rfl).2 k hk he
      rw [hkr] at this
      cases this
  · rw [hw]; rfl
  · rw [hw]
    show update s.disk b v b = update s.last b v b
    rw [update_self, update_self]

/-- `bunpin` of an installed block. -/
theorem unpin_call (hp : s.pc p = .inCommit) (hc : s.cpc = .instUnpin tail)
    (hr : s.ready? p (s.lh.getD tail 0) = some h) :
    Kept dev s { s with cache := s.cache.bunpin h.buf, cpc := .instRelLog tail } := by
  have hat := hi.atCpc
  simp only [BioState.AtCpc, hc] at hat
  obtain ⟨hlt, hdisk⟩ := hat
  obtain ⟨hm, -, hb, d, hd⟩ := mem_of_ready hr
  have hlog : BioState.abs { s with cache := s.cache.bunpin h.buf, cpc := .instRelLog tail } = s.abs := by
    simp only [BioState.abs, hc]
    rfl
  have hget : s.lh.getD tail 0 = s.lh[tail] := by simp [hlt]
  have hpins : s.pinned = s.lh.getD tail 0 :: s.lh.drop (tail + 1) := by
    rw [BioState.pinned, hc, hget]
    exact List.drop_eq_getElem_cons hlt
  have hcache := hi.cache
  rw [hpins] at hcache
  have hnew : s.lh.getD tail 0 ∉ s.lh.drop (tail + 1) := by
    have hn := (List.drop_sublist tail s.lh).nodup hi.ops.nodup
    rw [List.drop_eq_getElem_cons hlt] at hn
    rw [hget]
    exact (List.nodup_cons.mp hn).1
  refine ⟨⟨?_, ?_, fun k hk hkr => ?_, hlt⟩, .inl hlog⟩
  · have hh := hi.cache.hold h hm
    rw [hb] at hh
    exact hcache.unpin hnew hh hdisk
  · rw [hlog]
    exact hi.ops
  · have := (hi.dirty_target hp hk hkr).2
    rw [hc] at this
    cases this

/-- A loop of `commit` ends. -/
theorem exit_call (hp : s.pc p = .inCommit) {lh : List Nat} (hc : s.cpc = pc₀)
    (htgt : pc₀.target dev s.lh = none) (hpins : lh.drop pc.installed = s.pinned)
    (hsim : Sim dev s { s with lh := lh, cpc := pc }) (hat : BioState.AtCpc dev { s with lh := lh, cpc := pc }) :
    Kept dev s { s with lh := lh, cpc := pc } := by
  refine ⟨⟨?_, hsim.ops hi.ops, fun k hk hkr => ?_, hat⟩, hsim⟩
  · show CacheInv _ _ (List.drop pc.installed lh) _ _
    rw [hpins]
    exact hi.cache
  · have := (hi.dirty_target hp hk hkr).2
    rw [hc, htgt] at this
    cases this

/-- A buffer that `commit` has read and not changed. -/
theorem clean_of_target (hp : s.pc p = .inCommit) (hc : s.cpc = pc₀)
    (htgt : pc₀.target dev s.lh = none) (hr : s.ready? p b = some h) : h.pc = .ready false ∧ (s.cache.buf h.buf).data = s.last b := by
  obtain ⟨hm, -, hb, d, hd⟩ := mem_of_ready hr
  have hclean : h.pc = .ready false := by
    cases d with
    | false => exact hd
    | true =>
      have := (hi.dirty_target hp hm hd).2
      rw [hc, htgt] at this
      cases this
  refine ⟨hclean, ?_⟩
  obtain ⟨p', i, b', q⟩ := h
  subst hclean hb
  exact (hi.front hm).data_eq rfl (by simp) (hi.cache.ready _ hm false rfl)

/-- `brelse` in `commit`. -/
theorem release_call (hlive : s.panicked = none) (hp : s.pc p = .inCommit)
    (hr : s.ready? p b = some h) (hc : s.cpc = pc₀) (habs : pc.abs = pc₀.abs)
    (hins : pc.installed = pc₀.installed) (htgt : pc₀.target dev s.lh = none)
    (hat : (s.release h).lh = s.lh → BioState.AtCpc dev { s.release h with cpc := pc }) :
    Kept dev s { s.release h with cpc := pc } := by
  have hm := (mem_of_ready hr).1
  have hclean := (hi.clean_of_target hp hc htgt hr).1
  exact quiet_call (hi.release hm hclean).1 (sameLog_release hlive) hp hc habs hins htgt hat

/-- The code of `commit`. -/
theorem commit_step (hlive : s.panicked = none) (hp : s.pc p = .inCommit) (hne : s.cpc ≠ .idle)
    (hs : (s.exec dev p (commitCode dev s.lh s.cpc).1).map (fun t => { t with cpc := (commitCode dev s.lh s.cpc).2 }) =
      some s') : Kept dev s s' := by
  have hat := hi.atCpc
  have hpc : s.abs.log.pc = s.cpc.abs := rfl
  have hend {tail : Nat} (hge : ¬ tail < s.lh.length) : s.abs.log.lh[tail]? = none :=
    List.getElem?_eq_none_iff.mpr (Nat.le_of_not_lt hge)
  have hget {tail : Nat} (hlt : tail < s.lh.length) : s.abs.log.lh[tail]? = some (s.lh.getD tail 0) := by
    show s.lh[tail]? = _
    simp [hlt]
  cases hc : s.cpc <;> rw [hc] at hs hpc <;> simp only [BioState.AtCpc, hc] at hat <;>
    simp only [commitCode, BioState.exec, Option.map_eq_some_iff, Option.bind_eq_some_iff] at hs
  case idle => exact absurd hc hne
  case writeLog tail =>
    by_cases hlt : tail < s.lh.length
    · rw [if_pos hlt] at hs
      obtain ⟨_, ⟨⟩, rfl⟩ := hs
      exact quiet_call (hi.bget hlive).1 (sameLog_bget hlive) hp hc rfl rfl rfl fun h => lt_length hlt h
    · rw [if_neg hlt] at hs
      obtain ⟨_, ⟨⟩, rfl⟩ := hs
      refine hi.exit_call hp hc rfl (by rw [BioState.pinned, hc]; rfl) ?_ trivial
      have hl : logStep dev s.abs.log .run = some { s.abs.log with pc := .writeHead } := by
        simp only [logStep, hpc, hend hlt, CommitPc.abs]
      exact sim_run hlive hp hl rfl
  case install tail =>
    by_cases hlt : tail < s.lh.length
    · rw [if_pos hlt] at hs
      obtain ⟨_, ⟨⟩, rfl⟩ := hs
      exact quiet_call (hi.bget hlive).1 (sameLog_bget hlive) hp hc rfl rfl rfl fun h => lt_length hlt h
    · rw [if_neg hlt] at hs
      obtain ⟨_, ⟨⟩, rfl⟩ := hs
      have hpins : s.pinned = [] := by
        rw [BioState.pinned, hc]
        exact List.drop_eq_nil_of_le (Nat.le_of_not_lt hlt)
      refine hi.exit_call hp hc rfl (by rw [hpins]; rfl) ?_ trivial
      have hl : logStep dev s.abs.log .run = some { s.abs.log with lh := [], pc := .clearHead } := by
        simp only [logStep, hpc, LogState.installNext, hend hlt, CommitPc.abs]
      exact sim_run hlive hp hl rfl
  case logFrom tail | instDst tail =>
    obtain ⟨_, ⟨⟩, rfl⟩ := hs
    exact quiet_call (hi.bget hlive).1 (sameLog_bget hlive) hp hc rfl rfl rfl fun h => lt_length hat h
  case logCopy tail | instCopy tail =>
    obtain ⟨_, ⟨h1, hr1, h2, hr2, rfl⟩, rfl⟩ := hs
    rw [(hi.clean_of_target hp hc rfl hr2).2]
    exact hi.change_call hp hr1 hc rfl rfl rfl rfl fun h => ⟨hat, h⟩
  case logWrite tail =>
    obtain ⟨_, ⟨h1, hr1, rfl⟩, rfl⟩ := hs
    refine hi.write_call hlive hp hr1 hc rfl rfl hat.2 ?_ fun t ht _ => lt_length hat.1 ht
    simp only [logStep, hpc, CommitPc.abs, hget hat.1]
    rfl
  case instWrite tail =>
    obtain ⟨_, ⟨h1, hr1, rfl⟩, rfl⟩ := hs
    refine hi.write_call hlive hp hr1 hc rfl rfl hat.2 ?_ fun t ht hd => ⟨lt_length hat.1 ht, ?_⟩
    · simp only [logStep, hpc, CommitPc.abs, LogState.installNext, hget hat.1]
      rfl
    · show t.disk (t.lh.getD tail 0) = t.last (t.lh.getD tail 0)
      rw [ht]
      exact hd
  case instUnpin tail =>
    obtain ⟨_, ⟨h1, hr1, rfl⟩, rfl⟩ := hs
    exact hi.unpin_call hp hc hr1
  case logRelFrom tail | instRelLog tail =>
    obtain ⟨_, ⟨h1, hr1, rfl⟩, rfl⟩ := hs
    exact hi.release_call hlive hp hr1 hc rfl rfl rfl fun h => lt_length hat h
  case logRelTo tail | instRelDst tail =>
    obtain ⟨_, ⟨h1, hr1, rfl⟩, rfl⟩ := hs
    exact hi.release_call hlive hp hr1 hc rfl rfl rfl fun _ => trivial
  case head fin =>
    obtain ⟨_, ⟨⟩, rfl⟩ := hs
    exact quiet_call (hi.bget hlive).1 (sameLog_bget hlive) hp hc (by cases fin <;> rfl) rfl rfl fun _ => trivial
  case headFill fin =>
    obtain ⟨_, ⟨h1, hr1, rfl⟩, rfl⟩ := hs
    rw [(hi.clean_of_target hp hc rfl hr1).2]
    exact hi.change_call hp hr1 hc (by cases fin <;> rfl) rfl rfl rfl fun h => h
  case headWrite fin =>
    obtain ⟨_, ⟨h1, hr1, rfl⟩, rfl⟩ := hs
    refine hi.write_call hlive hp hr1 hc rfl rfl hat ?_ fun t _ _ => trivial
    cases fin <;> simp only [logStep, hpc] <;> rfl
  case headRel fin =>
    obtain ⟨_, ⟨h1, hr1, rfl⟩, rfl⟩ := hs
    cases fin <;> exact hi.release_call hlive hp hr1 hc rfl rfl rfl fun _ => trivial

/-- **Every step keeps the invariant, and is a step of the operations or none.** -/
theorem step {a : BioAct B P} (hs : bioStep dev s a = some s') : Kept dev s s' := by
  unfold bioStep at hs
  split at hs
  · cases hs
  · next hl =>
    have hlive : s.panicked = none := by simpa using hl
    cases a with
    | beginOp p =>
      simp only [Option.ite_none_right_eq_some, Option.some.injEq] at hs
      exact hs.2 ▸ hi.beginOp hlive hs.1.2
    | endOp p =>
      simp only [Option.ite_none_right_eq_some, Option.some.injEq] at hs
      exact hs.2 ▸ hi.endOp hlive hs.1.2.1 hs.1.2.2
    | wake => exact Option.some.inj hs ▸ hi.wake hlive
    | bread p b =>
      simp only [Option.ite_none_right_eq_some, Option.some.injEq] at hs
      exact hs.2 ▸ hi.bget hlive
    | go h =>
      simp only [Option.ite_none_right_eq_some] at hs
      exact hi.go hs.1 hs.2
    | modify p b v =>
      simp only [Option.ite_none_right_eq_some, Option.map_eq_some_iff] at hs
      obtain ⟨⟨-, hp⟩, h, hr, rfl⟩ := hs
      exact hi.modify hr hp
    | logWrite p b =>
      simp only [Option.ite_none_right_eq_some, Option.map_eq_some_iff] at hs
      obtain ⟨⟨-, hp⟩, h, hr, rfl⟩ := hs
      exact hi.logWrite hlive hr hp
    | brelse p b =>
      simp only [Option.ite_none_right_eq_some, Option.map_eq_some_iff, Option.filter_eq_some_iff,
        decide_eq_true_eq] at hs
      obtain ⟨-, h, ⟨hr, hc⟩, rfl⟩ := hs
      exact hi.release (mem_of_ready hr).1 hc
    | run p =>
      dsimp only at hs
      split at hs
      · cases hs
      · split at hs
        · next hp => exact Option.some.inj hs ▸ hi.commit_call hlive hp
        · next hp =>
          split at hs
          · next hc => exact Option.some.inj hs ▸ hi.finish hlive hp hc
          · next hne => exact hi.commit_step hlive hp hne hs
        · cases hs

end BioInv

/-! ## Reachable states -/

theorem BioReachable.inv {C : BioState B P → BioAct B P → Prop} (h : BioReachable dev C s) : BioInv dev s := by
  induction h with
  | init data disk => exact bioInv_init data disk
  | step a _ _ hs ih => exact (ih.step hs).1

/-- What the cache promises. -/
structure Coherent (s : BioState B P) : Prop where
  /-- The LRU list links all buffers, each once in both directions. -/
  ring : ∃ l, Lib.Ring s.cache.next s.cache.prev l ∧ ∀ i, i ∈ l
  uniq : ∀ i j, (s.cache.buf i).dev ≠ 0 → (s.cache.buf i).dev = (s.cache.buf j).dev →
    (s.cache.buf i).blockno = (s.cache.buf j).blockno → i = j
  /-- A buffer is counted once for everyone between `bget` and the decrement in `brelse`, and once for the log. -/
  refcnt : ∀ i, (s.cache.buf i).refcnt =
    (s.holds.filter (Hold.on i)).length + if s.cache.Has i s.pinned then 1 else 0
  /-- What `bread` returns. -/
  fresh : ∀ h ∈ s.holds, h.pc = .ready false →
    (s.cache.buf h.buf).blockno = h.blockno ∧ (s.cache.buf h.buf).data = s.last h.blockno
  /-- The buffers of logged blocks are not recycled. -/
  kept : ∀ b ∈ s.pinned, ∃ i, s.cache.Has i [b] ∧ (s.cache.buf i).valid = true ∧ 0 < (s.cache.buf i).refcnt

/-- **The buffer cache is coherent** in every reachable state. -/
theorem cache_coherent {C : BioState B P → BioAct B P → Prop} (h : BioReachable dev C s) : Coherent s := by
  have hi := h.inv
  refine ⟨hi.cache.ring, hi.cache.uniq, fun i => ?_, fun k hk hr => ?_, fun b hb => ?_⟩
  · rw [← List.countP_eq_length_filter]
    exact hi.cache.refcnt i
  · obtain ⟨p, i, b, q⟩ := k
    subst hr
    have hf := hi.front hk
    exact ⟨(hi.cache.hold _ hk).2, hf.data_eq rfl (by simp) (hi.cache.ready _ hk false rfl)⟩
  · obtain ⟨i, h1, h2, h3⟩ := hi.cache.pinned b hb
    refine ⟨i, ⟨h1, by simp [h2]⟩, h3, ?_⟩
    have hr := hi.cache.refcnt i
    rw [if_pos ⟨h1, h2.symm ▸ hb⟩] at hr
    omega

/-- A process reads block `7` of a disk. -/
theorem cache_coherent_read : ∃ s : BioState (List Nat) (Fin 1), BioReachable listDev (fun _ _ => True) s ∧
    Coherent s ∧ ∃ h ∈ s.holds, h.pc = .ready false ∧ h.blockno = 7 ∧ (s.cache.buf h.buf).data = [7] := by
  have h0 : BioReachable listDev (fun _ _ => True) (.init [] fun b => [b] : BioState (List Nat) (Fin 1)) := .init _ _
  have h1 := BioReachable.step (.bread 0 7) h0 trivial rfl
  have h2 := BioReachable.step (.go ⟨0, 0, 7, .waiting⟩) h1 trivial rfl
  have h3 := BioReachable.step (.go ⟨0, 0, 7, .locked⟩) h2 trivial rfl
  exact ⟨_, h3, cache_coherent h3, ⟨0, 0, 7, .ready false⟩, List.mem_cons_self, rfl, rfl, rfl⟩

/-! ## Running out of buffers -/

/-- The distinct blocks that are held by processes or pinned by the log. -/
def BioState.demand (s : BioState B P) : List Nat := (s.holds.map Hold.blockno ++ s.pinned).dedup

/-- The block for which the step calls `bget`. -/
def bgetOf (dev : LogDev B) (s : BioState B P) : BioAct B P → Option Nat
  | .bread _ b => some b
  | .run _ =>
    match (commitCode dev s.lh s.cpc).1 with
    | .bread b => some b
    | _ => none
  | _ => none

/-- `bget` is called for a block that is held or pinned, or while fewer than `NBUF` blocks are. -/
def HasRoom (dev : LogDev B) (s : BioState B P) (a : BioAct B P) : Prop :=
  ∀ b, bgetOf dev s a = some b → b ∈ s.demand ∨ s.demand.length < NBUF

/-- With room, `bget` finds a buffer. -/
theorem BioInv.bget_finds (hi : BioInv dev s) (p : P) (hr : b ∈ s.demand ∨ s.demand.length < NBUF) :
    s.cache.bget ROOTDEV b ≠ none := fun hn => by
  have hg := hi.cache.bget p b
  rw [hn] at hg
  obtain ⟨hmiss, hused⟩ := hg
  rcases hr with hr | hr
  · -- a block in demand is in the cache
    rcases List.mem_append.mp (List.mem_dedup.mp hr) with hm | hm
    · obtain ⟨k, hk, rfl⟩ := List.mem_map.mp hm
      exact hmiss k.buf (hi.cache.hold k hk)
    · obtain ⟨i, h1, h2, -⟩ := hi.cache.pinned b hm
      exact hmiss i ⟨h1, h2⟩
  · -- every buffer has a block in demand, and no two have the same
    have huse : ∀ i, (s.cache.buf i).dev = ROOTDEV ∧ (s.cache.buf i).blockno ∈ s.demand := fun i => by
      have hc := hi.cache.refcnt i
      by_cases hp : s.cache.Has i s.pinned
      · exact ⟨hp.1, List.mem_dedup.mpr (List.mem_append_right _ hp.2)⟩
      · rw [if_neg hp] at hc
        have hpos : 0 < s.holds.countP (Hold.on i) := by have := hused i; omega
        obtain ⟨k, hk, hki⟩ := List.countP_pos_iff.mp hpos
        obtain rfl : k.buf = i := of_decide_eq_true hki
        obtain ⟨h1, h2⟩ := hi.cache.hold k hk
        exact ⟨h1, List.mem_dedup.mpr (List.mem_append_left _ (h2 ▸ List.mem_map_of_mem hk))⟩
    have hnd : ((List.finRange NBUF).map fun i => (s.cache.buf i).blockno).Nodup := by
      refine (List.nodup_map_iff_inj_on (List.nodup_finRange NBUF)).mpr fun i _ j _ e => ?_
      exact hi.cache.uniq i j (by rw [(huse i).1]; decide) (by rw [(huse i).1, (huse j).1]) e
    have hsub : ((List.finRange NBUF).map fun i => (s.cache.buf i).blockno).Subperm s.demand :=
        List.subperm_of_subset hnd fun b hb => by
      obtain ⟨i, -, rfl⟩ := List.mem_map.mp hb
      exact (huse i).2
    have := hsub.length_le
    rw [List.length_map, List.length_finRange] at this
    omega

omit [DecidableEq P] in
theorem bget_panicked (hlive : s.panicked = none) (h : (s.bget p b).panicked = some .bget) :
    s.cache.bget ROOTDEV b = none := by
  unfold BioState.bget at h
  cases hg : s.cache.bget ROOTDEV b with
  | none => rfl
  | some ic =>
    rw [hg] at h
    rw [show s.panicked = some .bget from h] at hlive
    cases hlive

/-- Only `bget` panics with its message. -/
theorem panicked_by_bget (hlive : s.panicked = none) {a : BioAct B P} (hs : bioStep dev s a = some s')
    (hp : s'.panicked = some .bget) : ∃ (_ : P) (b : Nat), bgetOf dev s a = some b ∧ s.cache.bget ROOTDEV b = none := by
  have hno : s.panicked ≠ some .bget := by rw [hlive]; exact nofun
  unfold bioStep at hs
  rw [if_neg (by simp [hlive])] at hs
  cases a with
  | beginOp p =>
    simp only [Option.ite_none_right_eq_some, Option.some.injEq] at hs
    obtain ⟨-, rfl⟩ := hs
    unfold BioState.beginOp at hp
    split at hp
    · exact absurd hp hno
    · split at hp <;> exact absurd hp hno
  | endOp p =>
    simp only [Option.ite_none_right_eq_some, Option.some.injEq] at hs
    obtain ⟨-, rfl⟩ := hs
    unfold BioState.endOp at hp
    dsimp only at hp
    split at hp
    · cases hp
    · split at hp <;> exact absurd hp hno
  | wake =>
    obtain rfl := Option.some.inj hs
    exact absurd hp hno
  | bread p b =>
    simp only [Option.ite_none_right_eq_some, Option.some.injEq] at hs
    obtain ⟨-, rfl⟩ := hs
    exact ⟨p, b, rfl, bget_panicked hlive hp⟩
  | go h =>
    simp only [Option.ite_none_right_eq_some] at hs
    obtain ⟨-, hs⟩ := hs
    unfold BioState.go at hs
    split at hs
    · simp only [Option.ite_none_right_eq_some, Option.some.injEq] at hs
      obtain ⟨-, rfl⟩ := hs
      exact absurd hp hno
    · obtain rfl := Option.some.inj hs
      exact absurd hp hno
    · cases hs
    · obtain rfl := Option.some.inj hs
      exact absurd hp hno
  | modify p b v =>
    simp only [Option.ite_none_right_eq_some, Option.map_eq_some_iff] at hs
    obtain ⟨-, h, -, rfl⟩ := hs
    exact absurd hp hno
  | logWrite p b =>
    simp only [Option.ite_none_right_eq_some, Option.map_eq_some_iff] at hs
    obtain ⟨-, h, -, rfl⟩ := hs
    unfold BioState.logWrite at hp
    split at hp
    · cases hp
    · split at hp
      · cases hp
      · dsimp only at hp
        split at hp <;> exact absurd hp hno
  | brelse p b =>
    simp only [Option.ite_none_right_eq_some, Option.map_eq_some_iff] at hs
    obtain ⟨-, h, -, rfl⟩ := hs
    unfold BioState.release at hp
    split at hp
    · exact absurd hp hno
    · cases hp
  | run p =>
    dsimp only at hs
    split at hs
    · cases hs
    · split at hs
      · obtain rfl := Option.some.inj hs
        exact absurd hp hno
      · split at hs
        · obtain rfl := Option.some.inj hs
          exact absurd hp hno
        · simp only [bgetOf]
          generalize (commitCode dev s.lh s.cpc).1 = call at hs
          obtain ⟨t, ht, rfl⟩ := Option.map_eq_some_iff.mp hs
          cases call with
          | bread b =>
            obtain rfl := Option.some.inj ht
            exact ⟨p, b, rfl, bget_panicked hlive hp⟩
          | memmove dst src =>
            simp only [BioState.exec, Option.bind_eq_some_iff, Option.map_eq_some_iff] at ht
            obtain ⟨h1, -, h2, -, rfl⟩ := ht
            exact absurd hp hno
          | setHead | bunpin b =>
            obtain ⟨h1, -, rfl⟩ := Option.map_eq_some_iff.mp ht
            exact absurd hp hno
          | bwrite b =>
            obtain ⟨h1, -, rfl⟩ := Option.map_eq_some_iff.mp ht
            unfold BioState.bwrite at hp
            split at hp
            · exact absurd hp hno
            · cases hp
          | brelse b =>
            obtain ⟨h1, -, rfl⟩ := Option.map_eq_some_iff.mp ht
            unfold BioState.release at hp
            split at hp
            · exact absurd hp hno
            · cases hp
          | clear | skip =>
            obtain rfl := Option.some.inj ht
            exact absurd hp hno
      · cases hs

/-- **The cache does not run dry**, in every run in which `bget` is called for a block that is held or pinned, or while
fewer than `NBUF` blocks are held or pinned. -/
theorem cache_not_dry (h : BioReachable dev (HasRoom dev) s) : s.panicked ≠ some .bget := by
  cases h with
  | init data disk => exact nofun
  | @step s _ a h hc hs =>
    intro hp
    have hlive : s.panicked = none := by
      unfold bioStep at hs
      split at hs
      · cases hs
      · next hl => simpa using hl
    obtain ⟨p, b, hb, hn⟩ := panicked_by_bget hlive hs hp
    exact h.inv.bget_finds p (hc b hb) hn

/-- A process reads a block of an empty cache. -/
theorem cache_not_dry_read : ∃ s : BioState (List Nat) (Fin 1), BioReachable listDev (HasRoom listDev) s ∧
    s.holds = [⟨0, 0, 7, .waiting⟩] ∧ s.panicked ≠ some .bget := by
  have h0 : BioReachable listDev (HasRoom listDev) (.init [] fun b => [b] : BioState (List Nat) (Fin 1)) := .init _ _
  have h1 := BioReachable.step (.bread 0 7) h0 (fun _ _ => .inr (by decide)) rfl
  exact ⟨_, h1, rfl, cache_not_dry h1⟩

/-- `NPROC`. -/
abbrev NPROC : Nat := 64

/-- The state after a list of steps, if each of them can be made. -/
def bioRun (dev : LogDev B) : BioState B P → List (BioAct B P) → Option (BioState B P)
  | s, [] => some s
  | s, a :: as => (bioStep dev s a).bind fun s' => bioRun dev s' as

theorem bioRun_reachable (as : List (BioAct B P)) (h : BioReachable dev (fun _ _ => True) s)
    (hr : bioRun dev s as = some s') : BioReachable dev (fun _ _ => True) s' := by
  induction as generalizing s with
  | nil => cases hr; exact h
  | cons a as ih =>
    obtain ⟨s₁, hs, hr⟩ := Option.bind_eq_some_iff.mp hr
    exact ih (.step a h trivial hs) hr

/-- **The cache can run dry.** Of `NPROC` processes, 31 each start to read one block, and no two the same: the last
`bget` finds all buffers in use. -/
theorem readers_exhaust_cache : ∃ s : BioState (List Nat) (Fin NPROC), BioReachable listDev (fun _ _ => True) s ∧
    s.panicked = some .bget ∧ BioPanic.bget.msg = "bget: no buffers" := by
  have hr : ((bioRun listDev (.init [] fun b => [b] : BioState (List Nat) (Fin NPROC))
      ((List.finRange 31).map fun i => .bread (i.castLE (by decide)) (100 + i.val))).map (·.panicked)) =
      some (some .bget) := by decide +kernel
  obtain ⟨s, hs, hp⟩ := Option.map_eq_some_iff.mp hr
  exact ⟨s, bioRun_reachable _ (.init _ _) hs, hp, rfl⟩

end Xv6
