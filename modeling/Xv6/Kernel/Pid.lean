import Xv6.Kernel.Kill

/-!
# Process ids

`allocpid` hands out `nextpid` and adds one to it; it never looks at the process table, and `nextpid` is an `int`.

- `pids_identify`: in a run in which `nextpid` is positive whenever `allocpid` reads it, processes have distinct, positive
  pids;
- `pid_wraps`: a run with enough calls of `fork`, in which a process gets a negative pid.
-/

namespace Xv6

open State
open Function (update update_eq_self update_idem update_of_ne update_self)

variable {np nc : Nat} {S : System np}

/-! ## Pids on their way -/

/-- The pid that `kfork` has got and not yet given to the child. -/
def Frame.newPid {L : Type} : Frame np L → Option (Fin np × BitVec 32)
  | .kfork _ (.unlockPid i pid) => some (i, pid)
  | .kfork _ (.setUsed i pid) => some (i, pid)
  | _ => none

/-- The pid of the child of `kfork`. -/
def Frame.childPid {L : Type} : Frame np L → Option (BitVec 32)
  | .kfork _ pc =>
    match pc with
    | .unlockPid _ pid | .setUsed _ pid | .trapframe _ pid | .pagetable _ pid | .context _ pid | .uvmcopy _ pid
    | .dup _ pid | .unlockChild _ pid | .lockWait _ pid | .setParent _ pid | .unlockWait _ pid | .lockChild _ pid
    | .setRunnable _ pid | .unlockDone _ pid => some pid
    | _ => none
  | _ => none

theorem Frame.newPid_child {f : S.F} {i : Fin np} {pid : BitVec 32} (h : f.newPid = some (i, pid)) :
    f.childPid = some pid ∧ f.expects = some (i, .unused) ∧ Lock.proc i ∈ f.held := by
  cases f with
  | kfork p pc =>
    cases pc with
    | unlockPid j pid' | setUsed j pid' =>
      cases h
      exact ⟨rfl, rfl, List.mem_singleton_self _⟩
    | _ => cases h
  | _ => cases h

section Conts

variable {me : Option (Fin np)} {κ : S.K} {n : Nat} {f f' : S.F} {pid : BitVec 32} {i : Fin np}

/-- The pid of a child comes from `allocpid`. -/
theorem childPid_conts (hm : f' ∈ (instr S me f).conts κ n) (hp : f'.childPid = some pid) :
    f.childPid = some pid ∨ ∃ p i, f = .kfork p (.readPid i) ∧ pid = κ.nextpid := by
  cases f' with
  | kfork p pc' =>
    rcases conts_kfork hm with rfl | ⟨pc, rfl, hg⟩
    · cases hp
    · cases hg with
      | readPid i => exact .inr ⟨p, i, rfl, (Option.some.inj hp).symm⟩
      | _ => first | exact .inl hp | cases hp
  | _ => cases hp

theorem newPid_conts (hm : f' ∈ (instr S me f).conts κ n) (hp : f'.newPid = some (i, pid)) :
    f.newPid = some (i, pid) ∨ ∃ p, f = .kfork p (.readPid i) ∧ pid = κ.nextpid := by
  cases f' with
  | kfork p pc' =>
    rcases conts_kfork hm with rfl | ⟨pc, rfl, hg⟩
    · cases hp
    · cases hg with
      | readPid j =>
        cases hp
        exact .inr ⟨p, rfl, rfl⟩
      | unlockPid j pid' => exact .inl hp
      | _ => cases hp
  | _ => cases hp

end Conts

/-! ## The invariant -/

/-- Every pid that was handed out is positive, below `nextpid`, and has one owner. -/
structure Pids (s : State S nc) : Prop where
  next : 0 < s.kern.nextpid.toNat ∧ s.kern.nextpid.toNat ≤ 2 ^ 31
  used : ∀ q, (s.kern.procs q).state ≠ .unused →
    0 < (s.kern.procs q).pid.toNat ∧ (s.kern.procs q).pid.toNat < s.kern.nextpid.toNat
  distinct : ∀ q q', (s.kern.procs q).state ≠ .unused → (s.kern.procs q').state ≠ .unused →
    (s.kern.procs q).pid = (s.kern.procs q').pid → q = q'
  child : ∀ t, ∀ f ∈ s.stk t, ∀ pid, f.childPid = some pid → 0 < pid.toNat ∧ pid.toNat < s.kern.nextpid.toNat
  new : ∀ t, ∀ f ∈ s.stk t, ∀ i pid, f.newPid = some (i, pid) →
    ∀ q, (s.kern.procs q).state ≠ .unused → (s.kern.procs q).pid ≠ pid
  newOne : ∀ t t', ∀ f ∈ s.stk t, ∀ f' ∈ s.stk t', ∀ i i' pid, f.newPid = some (i, pid) → f'.newPid = some (i', pid) → i = i'

/-- `nextpid` is positive whenever `allocpid` reads it. -/
def PidsLeft (s : State S nc) : Prop :=
  ∀ c p i rest, s.stk (s.cur c) = .kfork p (.readPid i) :: rest → 0 < s.kern.nextpid.toInt

theorem pids_boot : Pids (boot S nc) := by
  have hstk : ∀ t, ∀ f ∈ (boot S nc).stk t, f.childPid = none ∧ f.newPid = none := by
    intro t f hf
    cases t <;> (simp only [boot, List.mem_singleton] at hf; subst hf; exact ⟨rfl, rfl⟩)
  have hused : ∀ q, ((boot S nc).kern.procs q).state ≠ .unused → q = S.initproc ∧ ((boot S nc).kern.procs q).pid = 1 := by
    intro q hq
    simp only [boot] at hq ⊢
    split at hq
    · next h => rw [if_pos h]; exact ⟨h, rfl⟩
    · exact absurd rfl hq
  refine ⟨by simp [boot], fun q hq => ?_, fun q q' hq hq' _ => ?_, fun t f hf pid hp => ?_, fun t f hf i pid hp => ?_,
    fun t t' f hf f' hf' i i' pid hp => ?_⟩
  · rw [(hused q hq).2]
    simp [boot]
  · rw [(hused q hq).1, (hused q' hq').1]
  · rw [(hstk t f hf).1] at hp
    cases hp
  · rw [(hstk t f hf).2] at hp
    cases hp
  · rw [(hstk t f hf).2] at hp
    cases hp

namespace Pids

variable {s s' : State S nc} {c : Fin nc} {f : S.F} {rest : List S.F}

/-- A step that hands out no pid and creates no process. -/
theorem quiet (h : Pids s) (hn : s'.kern.nextpid = s.kern.nextpid)
    (hq : ∀ q, (s'.kern.procs q).state ≠ .unused → (s.kern.procs q).state ≠ .unused ∧
      (s'.kern.procs q).pid = (s.kern.procs q).pid)
    (hc : ∀ t, ∀ f ∈ s'.stk t, ∀ pid, f.childPid = some pid → ∃ t', ∃ f' ∈ s.stk t', f'.childPid = some pid)
    (hnew : ∀ t, ∀ f ∈ s'.stk t, ∀ i pid, f.newPid = some (i, pid) → ∃ t', ∃ f' ∈ s.stk t', f'.newPid = some (i, pid)) :
    Pids s' := by
  refine ⟨by rw [hn]; exact h.next, fun q hu => ?_, fun q q' hu hu' he => ?_, fun t f hf pid hp => ?_,
    fun t f hf i pid hp q hu => ?_, fun t t' f hf f' hf' i i' pid hp hp' => ?_⟩
  · rw [(hq q hu).2, hn]
    exact h.used q (hq q hu).1
  · rw [(hq q hu).2, (hq q' hu').2] at he
    exact h.distinct q q' (hq q hu).1 (hq q' hu').1 he
  · obtain ⟨t', f', hf', hp'⟩ := hc t f hf pid hp
    rw [hn]
    exact h.child t' f' hf' pid hp'
  · obtain ⟨t', f', hf', hp'⟩ := hnew t f hf i pid hp
    rw [(hq q hu).2]
    exact h.new t' f' hf' i pid hp' q (hq q hu).1
  · obtain ⟨t₁, g, hg, h1⟩ := hnew t f hf i pid hp
    obtain ⟨t₂, g', hg', h2⟩ := hnew t' f' hf' i' pid hp'
    exact h.newOne t₁ t₂ g hg g' hg' i i' pid h1 h2

/-- `allocpid` hands out `nextpid`. -/
theorem readPid (h : Pids s) {p i : Fin np} (hleft : PidsLeft s) (hs : s.stk (s.cur c) = .kfork p (.readPid i) :: rest) :
    Pids { s.setStk c (.kfork p (.unlockPid i s.kern.nextpid) :: rest) with
      kern := { s.kern with nextpid := s.kern.nextpid + 1 } } := by
  have hpos : 0 < s.kern.nextpid.toInt := hleft c p i rest hs
  have hlt : s.kern.nextpid.toNat < 2 ^ 31 := by
    rw [BitVec.toInt_eq_toNat_cond] at hpos
    split at hpos <;> omega
  have hn : (s.kern.nextpid + 1).toNat = s.kern.nextpid.toNat + 1 := by
    rw [BitVec.toNat_add, Nat.mod_eq_of_lt]
    · rfl
    · show s.kern.nextpid.toNat + 1 < 2 ^ 32
      omega
  -- every other record was there before
  have hold : ∀ t, ∀ f ∈ update s.stk (s.cur c) (.kfork p (.unlockPid i s.kern.nextpid) :: rest) t,
      f = .kfork p (.unlockPid i s.kern.nextpid) ∨ f ∈ s.stk t := by
    intro t f hf
    by_cases ht : t = s.cur c
    · rw [ht, update_self] at hf
      rcases List.mem_cons.mp hf with hf | hf
      · exact .inl hf
      · rw [ht, hs]
        exact .inr (List.mem_cons_of_mem _ hf)
    · rw [update_of_ne ht] at hf
      exact .inr hf
  refine ⟨?_, fun q hu => ?_, h.distinct, fun t f hf pid hp => ?_, fun t f hf j pid hp q hu => ?_,
    fun t t' f hf f' hf' j j' pid hp hp' => ?_⟩
  · show 0 < (s.kern.nextpid + 1).toNat ∧ _
    rw [hn]
    omega
  · obtain ⟨h1, h2⟩ := h.used q hu
    refine ⟨h1, ?_⟩
    show (s.kern.procs q).pid.toNat < (s.kern.nextpid + 1).toNat
    omega
  · show _ ∧ _ < (s.kern.nextpid + 1).toNat
    rcases hold t f hf with rfl | hf
    · cases hp
      have := h.next
      omega
    · have := h.child t f hf pid hp
      omega
  · rcases hold t f hf with rfl | hf
    · cases hp
      intro he
      have := (h.used q hu).2
      rw [he] at this
      omega
    · exact h.new t f hf j pid hp q hu
  · have hbelow : ∀ t, ∀ f ∈ s.stk t, ∀ j, f.newPid ≠ some (j, s.kern.nextpid) := by
      intro t f hf j hp
      have := (h.child t f hf _ (Frame.newPid_child hp).1).2
      omega
    rcases hold t f hf with rfl | hf <;> rcases hold t' f' hf' with rfl | hf'
    · cases hp
      cases hp'
      rfl
    · cases hp
      exact absurd hp' (hbelow t' f' hf' j')
    · cases hp'
      exact absurd hp (hbelow t f hf j)
    · exact h.newOne t t' f hf f' hf' j j' pid hp hp'

/-- The child gets its pid. -/
theorem setUsed (h : Pids s) (hb : Base s) {p i : Fin np} {pid : BitVec 32}
    (hs : s.stk (s.cur c) = .kfork p (.setUsed i pid) :: rest) :
    Pids { s.setStk c (.kfork p (.trapframe i pid) :: rest) with
      kern := s.kern.setProc i fun q => { q with pid := pid, state := .used } } := by
  have htop : (.kfork p (.setUsed i pid) : S.F) ∈ s.stk (s.cur c) := by
    rw [hs]
    exact List.mem_cons_self
  have hpid := h.child _ _ htop pid rfl
  -- no other record has the pid that is stored now
  obtain ⟨hrest, hother⟩ := hb.no_other hs (List.mem_singleton_self _)
  have hold : ∀ t, ∀ f ∈ update s.stk (s.cur c) (.kfork p (.trapframe i pid) :: rest) t,
      f = .kfork p (.trapframe i pid) ∨ f ∈ s.stk t ∧ ∀ j, f.newPid ≠ some (j, pid) := by
    intro t f hf
    have hlock : ∀ j, f.newPid = some (j, pid) → f ∈ s.stk t → Lock.proc i ∈ f.held := by
      intro j hj hm
      obtain ⟨-, -, hl⟩ := Frame.newPid_child hj
      rwa [h.newOne t _ f hm _ htop j i pid hj rfl] at hl
    by_cases ht : t = s.cur c
    · rw [ht, update_self] at hf
      rcases List.mem_cons.mp hf with hf | hf
      · exact .inl hf
      · have hm : f ∈ s.stk t := by
          rw [ht, hs]
          exact List.mem_cons_of_mem _ hf
        exact .inr ⟨hm, fun j hj => hrest f hf (hlock j hj hm)⟩
    · rw [update_of_ne ht] at hf
      refine .inr ⟨hf, fun j hj => hother t ht f hf ?_ (hlock j hj hf)⟩
      rw [(Frame.newPid_child hj).2.1]
      exact Option.some_ne_none _
  have hself : (s.kern.setProc i fun q => { q with pid := pid, state := .used }).procs i =
      { s.kern.procs i with pid := pid, state := .used } := Kernel.setProc_same ..
  have hne : ∀ q, q ≠ i → (s.kern.setProc i fun q => { q with pid := pid, state := .used }).procs q = s.kern.procs q :=
    fun q hq => Kernel.setProc_ne _ _ hq
  have hnew := h.new _ _ htop i pid rfl
  refine ⟨h.next, fun q hu => ?_, fun q q' hu hu' he => ?_, fun t f hf pid' hp => ?_, fun t f hf j pid' hp q hu => ?_,
    fun t t' f hf f' hf' j j' pid' hp hp' => ?_⟩
  · dsimp only at hu ⊢
    by_cases hq : q = i
    · rw [hq, hself]
      exact hpid
    · rw [hne q hq] at hu ⊢
      exact h.used q hu
  · dsimp only at hu hu' he
    by_cases hq : q = i <;> by_cases hq' : q' = i
    · rw [hq, hq']
    · rw [hq, hself, hne q' hq'] at he
      rw [hne q' hq'] at hu'
      exact absurd he.symm (hnew q' hu')
    · rw [hq', hself, hne q hq] at he
      rw [hne q hq] at hu
      exact absurd he (hnew q hu)
    · rw [hne q hq] at hu he
      rw [hne q' hq'] at hu' he
      exact h.distinct q q' hu hu' he
  · rcases hold t f hf with rfl | ⟨hf, -⟩
    · cases hp
      exact hpid
    · exact h.child t f hf pid' hp
  · rcases hold t f hf with rfl | ⟨hf, hno⟩
    · cases hp
    · dsimp only at hu ⊢
      by_cases hq : q = i
      · rw [hq, hself]
        rintro rfl
        exact hno j hp
      · rw [hne q hq] at hu ⊢
        exact h.new t f hf j pid' hp q hu
  · rcases hold t f hf with rfl | ⟨hf, -⟩
    · cases hp
    · rcases hold t' f' hf' with rfl | ⟨hf', -⟩
      · cases hp'
      · exact h.newOne t t' f hf f' hf' j j' pid' hp hp'

/-- The pids that records carry come from older records or from `allocpid`. -/
theorem mem_childPid (hf : Fires s c s') {t : Tid np nc} {f' : S.F} (hm : f' ∈ s'.stk t) {pid : BitVec 32}
    (hp : f'.childPid = some pid) : (∃ t', ∃ f ∈ s.stk t', f.childPid = some pid) ∨
      ∃ p i rest, s.stk (s.cur c) = .kfork p (.readPid i) :: rest ∧ s'.kern.nextpid = s.kern.nextpid + 1 := by
  cases f' with
  | kfork q pc =>
    rcases hf.mem_fn hm nofun nofun with hx | ⟨g, rest, k, hs, hx, hk⟩
    · exact .inl ⟨t, _, hx, hp⟩
    · rcases childPid_conts hx hp with hg | ⟨p, i, rfl, -⟩
      · exact .inl ⟨s.cur c, g, by rw [hs]; exact List.mem_cons_self, hg⟩
      · exact .inr ⟨p, i, rest, hs, by rw [hk _ _ rfl]⟩
  | _ => cases hp

theorem mem_newPid (hf : Fires s c s') {t : Tid np nc} {f' : S.F} (hm : f' ∈ s'.stk t) {i : Fin np} {pid : BitVec 32}
    (hp : f'.newPid = some (i, pid)) : (∃ t', ∃ f ∈ s.stk t', f.newPid = some (i, pid)) ∨
      ∃ p i rest, s.stk (s.cur c) = .kfork p (.readPid i) :: rest ∧ s'.kern.nextpid = s.kern.nextpid + 1 := by
  cases f' with
  | kfork q pc =>
    rcases hf.mem_fn hm nofun nofun with hx | ⟨g, rest, k, hs, hx, hk⟩
    · exact .inl ⟨t, _, hx, hp⟩
    · rcases newPid_conts hx hp with hg | ⟨p, rfl, -⟩
      · exact .inl ⟨s.cur c, g, by rw [hs]; exact List.mem_cons_self, hg⟩
      · exact .inr ⟨p, i, rest, hs, by rw [hk _ _ rfl]⟩
  | _ => cases hp

/-- A step with which `nextpid` and the pids of all processes stay what they are. -/
theorem keep (h : Pids s) (hf : Fires s c s') (hn : s'.kern.nextpid = s.kern.nextpid)
    (hq : ∀ q, (s'.kern.procs q).state ≠ .unused → (s.kern.procs q).state ≠ .unused ∧
      (s'.kern.procs q).pid = (s.kern.procs q).pid) : Pids s' := by
  have hne : s.kern.nextpid ≠ s.kern.nextpid + 1 := by
    intro he
    have h1 := congrArg BitVec.toNat he
    rw [BitVec.toNat_add, show (1 : BitVec 32).toNat = 1 from rfl] at h1
    omega
  refine h.quiet hn hq (fun t f hm pid hp => ?_) fun t f hm i pid hp => ?_
  · rcases mem_childPid hf hm hp with hx | ⟨-, -, -, -, hx⟩
    · exact hx
    · exact absurd (hn.symm.trans hx) hne
  · rcases mem_newPid hf hm hp with hx | ⟨-, -, -, -, hx⟩
    · exact hx
    · exact absurd (hn.symm.trans hx) hne

/-- Every step keeps the invariant, if `nextpid` is positive when it is handed out. -/
theorem step (h : Pids s) (hb : Base s) (hleft : PidsLeft s) (hf : Fires s c s') : Pids s' := by
  have hsame : ∀ f, Access f s.kern s'.kern → (∀ p q pid, f ≠ .kfork p (.setUsed q pid)) → ∀ q,
      (s'.kern.procs q).state ≠ .unused → (s.kern.procs q).state ≠ .unused ∧
        (s'.kern.procs q).pid = (s.kern.procs q).pid := by
    intro f ha hnot q hu
    cases ha.slot q with
    | same hs hp hpar hx =>
      refine ⟨fun h0 => ?_, hp⟩
      rcases hs with hs | ⟨hs, -⟩
      · exact hu (hs.trans h0)
      · rw [h0] at hs
        cases hs
    | create p pid hf => exact absurd hf (hnot p q pid)
    | adopt p pid hf hb | reparent p status hf ha hb =>
      rw [hb] at hu ⊢
      exact ⟨hu, rfl⟩
    | ready p pid hf ha hb | exit status hf ha hb =>
      rw [hb, ha]
      exact ⟨by decide, rfl⟩
    | drop p hf ha hb | reap p pid hf ha hb => exact absurd (congrArg Proc.state hb) hu
  have hf' := hf
  cases hf with
  | @upd f rest g k hs hi =>
    have hu := updOk_of_upd hi s.kern
    have ha : Access f s.kern (g s.kern) :=
      .of_upd hi (hb.meets_top hs) fun p hp => hb.own_running hs hu.calm hp
    rcases ha.nextpid with hn | ⟨p, i, rfl, -⟩
    · by_cases hc : ∃ p q pid, f = .kfork p (.setUsed q pid)
      · obtain ⟨p, q, pid, rfl⟩ := hc
        cases hi
        exact h.setUsed hb hs
      · exact h.keep hf' hn (hsame f ha fun p q pid he => hc ⟨p, q, pid, he⟩)
    · cases hi
      exact h.readPid hleft hs
  | @dispatch f rest p k hs hi =>
    rcases access_step hb hf' with hk | ⟨f₁, rest₁, hs₁, -, ha⟩
    · exact h.keep hf' rfl fun q hu => by
        rw [hk] at hu ⊢
        exact ⟨hu, rfl⟩
    · refine h.keep hf' rfl (hsame f₁ ha ?_)
      rintro p' q pid rfl
      rw [hs] at hs₁
      cases hs₁
      cases hi
  | _ => exact h.keep hf' rfl fun q hu => ⟨hu, rfl⟩

end Pids

/-! ## Runs -/

/-- Pids identify processes. -/
structure PidsIdentify (s : State S nc) : Prop where
  positive : ∀ q, (s.kern.procs q).state ≠ .unused → 0 < (s.kern.procs q).pid.toInt
  distinct : ∀ q q', (s.kern.procs q).state ≠ .unused → (s.kern.procs q').state ≠ .unused →
    (s.kern.procs q).pid = (s.kern.procs q').pid → q = q'
  /-- The value that `kfork` is about to return. -/
  returned : ∀ t p i pid, .kfork p (.unlockDone i pid) ∈ s.stk t → 0 < pid.toInt

theorem toInt_pos {x : BitVec 32} (h0 : 0 < x.toNat) (h1 : x.toNat < 2 ^ 31) : 0 < x.toInt := by
  rw [BitVec.toInt_eq_toNat_cond]
  split <;> omega

/-- **Pids identify processes**, in an execution in which `nextpid` is positive whenever `allocpid` reads it. -/
theorem pids_identify {σ : Nat → State S nc} (hσ : Exec σ) (hk : ∀ n, PidsLeft (σ n)) (n : Nat) : PidsIdentify (σ n) := by
  have h : Pids (σ n) := by
    induction n with
    | zero =>
      rw [hσ.start]
      exact pids_boot
    | succ n ih =>
      rcases hσ.next n with he | ⟨c, a, hst⟩
      · rw [he]
        exact ih
      · exact ih.step (hσ.reachable n).base (hk n) (fires_of_step hst).2
  refine ⟨fun q hu => ?_, h.distinct, fun t p i pid hm => ?_⟩
  · obtain ⟨h1, h2⟩ := h.used q hu
    exact toInt_pos h1 (lt_of_lt_of_le h2 h.next.2)
  · obtain ⟨h1, h2⟩ := h.child t _ hm pid rfl
    exact toInt_pos h1 (lt_of_lt_of_le h2 h.next.2)

set_option maxRecDepth 4000 in
/-- Process `0` and the child it has made. -/
theorem pids_identify_child : PidsIdentify (killChildRun 38) ∧ ((killChildRun 38).kern.procs 1).state ≠ .unused ∧
      ((killChildRun 38).kern.procs 1).pid = 2 := by
  refine ⟨pids_identify (exec_execOf _ _) (execOf_forall fun n hn c p i rest _ => ?_) 38, by decide, rfl⟩
  have hn : n ≤ 38 := hn
  interval_cases n <;> decide

/-! ## A long run -/

namespace Solo

variable {c : Fin nc} {s₀ : State S nc} {f k : S.F} {rest : List S.F} {L : Lock np → Option (Fin nc)} {κ : S.K} {p : Fin np}

/-- A call by a process. -/
theorem call {callee : S.F} (hp : s₀.cur c = .proc p) (hi : instr S (some p) f = .call callee k) :
    Solo c s₀ ⟨f :: rest, L, κ⟩ ⟨callee :: k :: rest, L, κ⟩ := by
  refine single fun s hs => ⟨s.setStk c (callee :: k :: rest), ?_, fun hr => ?_⟩
  · have hme : (s.cpus c).proc = some p := hs.reachable.base.me c p (by rw [hs.cur, hp])
    simp [Xv6.step, hs.ok, top hs, hme, hi, exec]
  · exact ⟨hr, hs.ok, hs.cur, setStk_eq hs _, hs.locks, hs.kern⟩

/-- A call returns. -/
theorem ret {v : Int} {g : S.F} (hi : ∀ me, instr S me f = .ret v) :
    Solo c s₀ ⟨f :: g :: rest, L, κ⟩ ⟨resume S g v :: rest, L, κ⟩ := by
  refine single fun s hs => ⟨s.setStk c (resume S g v :: rest), ?_, fun hr => ?_⟩
  · simp [Xv6.step, hs.ok, top hs, hi, exec]
  · exact ⟨hr, hs.ok, hs.cur, setStk_eq hs _, hs.locks, hs.kern⟩

/-- Memory is exhausted. -/
theorem choose {k : Nat → S.F} (hi : ∀ me, instr S me f = .choose k) :
    Solo c s₀ ⟨f :: rest, L, κ⟩ ⟨k 0 :: rest, L, κ⟩ := by
  refine single fun s hs => ⟨s.setStk c (k 0 :: rest), ?_, fun hr => ?_⟩
  · simp [Xv6.step, hs.ok, top hs, hi, exec]
  · exact ⟨hr, hs.ok, hs.cur, setStk_eq hs _, hs.locks, hs.kern⟩

end Solo

/-- Process `0` calls `fork` for ever. -/
def forker : System 2 := tableSystem [.kfork 1] 0 fun _ => false

namespace Forker

/-- The process has just been started. -/
def started : State forker 1 := after forker 1 (List.replicate 7 (0, .run 0))

/-- The process is about to call `fork`. -/
def at1 (pid : BitVec 32) : Conf forker 1 := ⟨[.client (1 : Nat)], started.locks, { started.kern with nextpid := pid }⟩

/-- The child in slot `1` has got its pid. -/
def made (pid : BitVec 32) : Conf forker 1 :=
  ⟨[.kfork 0 (.trapframe 1 pid), .client (1 : Nat)], Function.update started.locks (.proc 1) (some 0),
    Kernel.setProc { started.kern with nextpid := pid + 1 } 1 fun q => { q with pid := pid, state := .used }⟩

theorem unlock {L : Lock 2 → Option (Fin 1)} {l : Lock 2} (hl : L l = none) :
    update (update L l (some 0)) l none = L := by
  rw [update_idem, ← hl, update_eq_self]

/-- A run from a point of `fork` on. -/
abbrev Forking (pc : KforkPc 2) (L : Lock 2 → Option (Fin 1)) (κ : forker.K) : Conf forker 1 → Prop :=
  Solo 0 started ⟨[.kfork 0 pc, .client (1 : Nat)], L, κ⟩

/-- `fork`, until the child has its pid. -/
theorem to_made (pid : BitVec 32) : Solo 0 started (at1 pid) (made pid) := by
  set L := started.locks with hL
  set κ : forker.K := { started.kern with nextpid := pid } with hκ
  have hl0 : L (.proc 0) = none := rfl
  have hl1 : L (.proc 1) = none := rfl
  have h1 : Solo 0 started ⟨[.client (1 : Nat)], L, κ⟩ ⟨[.kfork 0 (.scan 0), .client (1 : Nat)], L, κ⟩ :=
    .call rfl rfl
  have h2 : Forking (.scan 0) L κ _ := .acquire (fun _ => rfl) hl0
  have h3 : Forking (.test 0) (update L (.proc 0) (some 0)) κ _ := .upd fun _ => rfl
  have h4 : Forking (.unlockUsed 0) (update L (.proc 0) (some 0)) κ _ := .release (fun _ => rfl) (update_self ..)
  rw [unlock hl0] at h4
  have h5 : Forking (.scan 1) L κ _ := .acquire (fun _ => rfl) hl1
  set L' := update L (.proc 1) (some 0) with hL'
  have hl2 : L' (.named .pidLock) = none := rfl
  have h6 : Forking (.test 1) L' κ _ := .upd fun _ => rfl
  have h7 : Forking (.lockPid 1) L' κ _ := .acquire (fun _ => rfl) hl2
  have h8 : Forking (.readPid 1) (update L' (.named .pidLock) (some 0)) κ _ := .upd fun _ => rfl
  have h9 : Forking (.unlockPid 1 pid) (update L' (.named .pidLock) (some 0)) { started.kern with nextpid := pid + 1 } _ :=
    .release (fun _ => rfl) (update_self ..)
  rw [unlock hl2] at h9
  have h10 : Forking (.setUsed 1 pid) L' { started.kern with nextpid := pid + 1 } _ := .upd fun _ => rfl
  exact h1.trans <| h2.trans <| h3.trans <| h4.trans <| h5.trans <| h6.trans <| h7.trans <| h8.trans <| h9.trans h10

/-- There is no memory for the child, and `fork` fails. -/
theorem fails (pid : BitVec 32) : Solo 0 started (made pid) (at1 (pid + 1)) := by
  set L' := update started.locks (.proc 1) (some 0) with hL'
  set κ : forker.K := Kernel.setProc { started.kern with nextpid := pid + 1 } 1 fun q =>
    { q with pid := pid, state := .used } with hκ
  have h1 : Forking (.trapframe 1 pid) L' κ _ := .choose fun _ => rfl
  have h2 : Forking (.freeproc 1) L' κ _ := .upd fun _ => rfl
  have hfree : κ.setProc 1 freeproc = { started.kern with nextpid := pid + 1 } := by
    rw [hκ, Kernel.setProc, Kernel.setProc]
    dsimp only
    rw [update_idem, update_self]
    congr 1
    exact update_eq_self 1 started.kern.procs
  rw [hfree] at h2
  have h3 : Forking (.unlockFail 1) L' { started.kern with nextpid := pid + 1 } _ :=
    .release (fun _ => rfl) (update_self ..)
  rw [unlock (show started.locks (.proc 1) = none from rfl)] at h3
  have h4 : Solo 0 started ⟨[.ret (-1), .client (1 : Nat)], started.locks, { started.kern with nextpid := pid + 1 }⟩
      (at1 (pid + 1)) := .ret fun _ => rfl
  exact h1.trans <| h2.trans <| h3.trans h4

/-- Any number of calls. -/
theorem calls (m : Nat) : Solo 0 started (at1 2) (at1 (2 + BitVec.ofNat 32 m)) := by
  induction m with
  | zero => exact fun s hs => ⟨0, s, rfl, hs⟩
  | succ m ih =>
    have h := ih.trans ((to_made _).trans (fails _))
    rwa [BitVec.add_assoc, show BitVec.ofNat 32 m + 1 = BitVec.ofNat 32 (m + 1) from
      (BitVec.ofNat_add_ofNat m 1).symm ▸ rfl] at h

end Forker

/-- **Pids wrap around.** After more than two thousand million calls of `fork` that fail for want of memory, the next
process gets a negative pid. -/
theorem pid_wraps : ∃ s : State forker 1, Reachable s ∧ (s.kern.procs 1).state = .used ∧ (s.kern.procs 1).pid.toInt < 0 ∧
    ¬ PidsIdentify s := by
  have hstart : Here 0 Forker.started (Forker.at1 2) Forker.started :=
    ⟨reachable_after _ _, rfl, rfl, (Function.update_eq_self _ _).symm, rfl, rfl⟩
  obtain ⟨n, s, -, hs⟩ := (Forker.calls (2 ^ 31 - 2)).trans (Forker.to_made _) Forker.started hstart
  have hproc : s.kern.procs 1 = { Forker.started.kern.procs 1 with pid := 2 + BitVec.ofNat 32 (2 ^ 31 - 2), state := .used } := by
    rw [hs.kern]
    rfl
  have hneg : (s.kern.procs 1).pid.toInt < 0 := by
    rw [hproc]
    decide
  refine ⟨s, hs.reachable, by rw [hproc], hneg, fun h => ?_⟩
  have := h.positive 1 (by rw [hproc]; decide)
  omega

end Xv6
