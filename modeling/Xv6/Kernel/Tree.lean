import Xv6.Kernel.WaitLock

/-!
# The process tree: fork, exit and wait

- `Tree`: the parent of a process is alive; a process that has been started has a parent; what `kfork`, `kexit` and
  `kwait` know about parents at their program points;
- `Reachable.tree`: this holds in every reachable state;
- `exit_wait`: in every execution, what `kwait` reports is the exit of a child, once, and nothing else frees the slot of
  a process.
-/

namespace Xv6

open State

variable {np nc : Nat} {S : System np}
variable {q : Fin np} {t : Tid np nc} {rest : List S.F}

/-! ## What the points know -/

namespace Frame

variable {L : Type}

/-- The child of `kfork`, before it has a parent. -/
def bare : Frame np L → Option (Fin np)
  | .kfork _ pc =>
    match pc with
    | .lockPid i | .readPid i | .unlockPid i _ | .setUsed i _ | .trapframe i _ | .pagetable i _ | .context i _
    | .uvmcopy i _ | .dup i _ | .unlockChild i _ | .lockWait i _ | .setParent i _ | .freeproc i => some i
    | _ => none
  | _ => none

/-- The child of `kfork`, when it has got its parent. -/
def adopted : Frame np L → Option (Fin np)
  | .kfork _ pc =>
    match pc with
    | .unlockWait i _ | .lockChild i _ | .setRunnable i _ => some i
    | _ => none
  | _ => none

/-- The process that exits, and how many slots `reparent` has gone through. -/
def cleared : Frame np L → Option (Fin np × Nat)
  | .kexit p _ pc =>
    match pc with
    | .lockWait => some (p, 0)
    | .reparent i => some (p, i)
    | .callInit i => some (p, i + 1)
    | .callParent _ | .lockSelf | .setZombie => some (p, np)
    | _ => none
  | _ => none

/-- The process that waits, and the child it looks at. -/
def found : Frame np L → Option (Fin np × Fin np)
  | .kwait p pc =>
    match pc with
    | .lockChild i | .test i | .copyout i _ | .freeproc i _ => some (p, i)
    | _ => none
  | _ => none

/-- The child that `kwait` has found dead, and the pid it is going to return. -/
def foundPid : Frame np L → Option (Fin np × BitVec 32)
  | .kwait _ (.copyout i pid) | .kwait _ (.freeproc i pid) => some (i, pid)
  | _ => none

variable {f : Frame np L} {i p : Fin np} {m : Nat} {pid : BitVec 32}

theorem bare_eq (h : f.bare = some i) : ∃ p pc, f = .kfork p pc := by
  cases f with
  | kfork p pc => exact ⟨p, pc, rfl⟩
  | _ => cases h

theorem adopted_eq (h : f.adopted = some i) : ∃ p pc, f = .kfork p pc := by
  cases f with
  | kfork p pc => exact ⟨p, pc, rfl⟩
  | _ => cases h

theorem cleared_eq (h : f.cleared = some (p, m)) : ∃ status pc, f = .kexit p status pc := by
  cases f with
  | kexit p' status pc => cases pc <;> cases h <;> exact ⟨status, _, rfl⟩
  | _ => cases h

theorem found_eq (h : f.found = some (p, i)) : f.fn ≠ none ∧ ∀ p k, f ≠ .kwait p (.decide k) := by
  cases f with
  | kwait p' pc => exact ⟨nofun, by rintro _ _ ⟨⟩; cases h⟩
  | _ => cases h

theorem foundPid_eq (h : f.foundPid = some (i, pid)) : f.fn ≠ none ∧ ∀ p k, f ≠ .kwait p (.decide k) := by
  cases f with
  | kwait p' pc => exact ⟨nofun, by rintro _ _ ⟨⟩; cases h⟩
  | _ => cases h

theorem bare_child (h : f.bare = some i) : f.child = some i := by
  cases f with
  | kfork p pc => cases pc <;> first | exact h | cases h
  | _ => cases h

theorem adopted_expects (h : f.adopted = some i) : f.expects = some (i, .used) := by
  cases f with
  | kfork p pc => cases pc <;> cases h <;> rfl
  | _ => cases h

theorem cleared_waits (h : f.cleared = some (p, m)) (hm : 0 < m) : f.waits = true ∧ f.isStart = false := by
  cases f with
  | kexit p' status pc =>
    cases pc with
    | lockWait =>
      cases h
      exact absurd hm (Nat.lt_irrefl 0)
    | start | unlockWait | callSched | zombieExit => cases h
    | _ => exact ⟨rfl, rfl⟩
  | _ => cases h

theorem found_waits (h : f.found = some (p, i)) : f.waits = true ∧ f.isStart = false := by
  cases f with
  | kwait p' pc => cases pc <;> cases h <;> exact ⟨rfl, rfl⟩
  | _ => cases h

theorem foundPid_expects (h : f.foundPid = some (i, pid)) : f.expects = some (i, .zombie) := by
  cases f with
  | kwait p' pc => cases pc <;> cases h <;> rfl
  | _ => cases h

end Frame

/-! ## The invariant -/

/-- The process tree. -/
structure Tree (s : State S nc) : Prop where
  alive : ∀ q p, (s.kern.procs q).parent = some p → (s.kern.procs p).state.live = true
  init : (s.kern.procs S.initproc).state.live = true
  /-- A process that has been started has a parent. -/
  orphan : ∀ q, q ≠ S.initproc → (s.kern.procs q).state ≠ .unused → (s.kern.procs q).state ≠ .used →
    (s.kern.procs q).parent ≠ none
  empty : ∀ q, (s.kern.procs q).state = .unused → (s.kern.procs q).parent = none
  bare : ∀ t, ∀ f ∈ s.stk t, ∀ i, f.bare = some i → (s.kern.procs i).parent = none
  adopted : ∀ t, ∀ f ∈ s.stk t, ∀ i, f.adopted = some i → (s.kern.procs i).parent ≠ none
  /-- `reparent` has left no child of the exiting process behind. -/
  cleared : ∀ t, ∀ f ∈ s.stk t, ∀ p m, f.cleared = some (p, m) →
    p ≠ S.initproc ∧ ∀ j : Fin np, j.val < m → (s.kern.procs j).parent ≠ some p
  found : ∀ t, ∀ f ∈ s.stk t, ∀ p i, f.found = some (p, i) → (s.kern.procs i).parent = some p
  foundPid : ∀ t, ∀ f ∈ s.stk t, ∀ i pid, f.foundPid = some (i, pid) → (s.kern.procs i).pid = pid

theorem tree_boot : Tree (boot S nc) := by
  have hstk : ∀ t, ∀ f ∈ (boot S nc).stk t, f.bare = none ∧ f.adopted = none ∧ f.cleared = none ∧ f.found = none ∧
      f.foundPid = none := by
    intro t f hf
    cases t <;> (simp only [boot, List.mem_singleton] at hf; subst hf; exact ⟨rfl, rfl, rfl, rfl, rfl⟩)
  have hpar : ∀ q, ((boot S nc).kern.procs q).parent = none := by
    intro q
    simp only [boot]
    split <;> rfl
  refine ⟨fun q p h => ?_, by simp [boot, ProcState.live], fun q hq hs => ?_, fun q _ => hpar q, fun t f hf i h => ?_,
    fun t f hf i h => ?_, fun t f hf p m h => ?_, fun t f hf p i h => ?_, fun t f hf i pid h => ?_⟩
  · rw [hpar] at h
    cases h
  · refine absurd ?_ hs
    simp [boot, hq, Proc.fresh]
  · rw [(hstk t f hf).1] at h
    cases h
  · rw [(hstk t f hf).2.1] at h
    cases h
  · rw [(hstk t f hf).2.2.1] at h
    cases h
  · rw [(hstk t f hf).2.2.2.1] at h
    cases h
  · rw [(hstk t f hf).2.2.2.2] at h
    cases h

/-! ## The text -/

section Conts

variable {me : Option (Fin np)} {κ : S.K} {n : Nat} {f f' : S.F} {i p : Fin np} {pid : BitVec 32}

variable (hm : f' ∈ (instr S me f).conts κ n)
include hm

theorem bare_conts (hb : f'.bare = some i) : f.bare = some i ∨ (κ.procs i).state = .unused := by
  cases f' with
  | kfork p pc' =>
    rcases conts_kfork hm with rfl | ⟨pc, rfl, hg⟩
    · cases hb
    · cases hg with
      | unused j h =>
        cases hb
        exact .inr h
      | _ => first | exact .inl hb | cases hb
  | _ => cases hb

theorem adopted_conts (ha : f'.adopted = some i) : f.adopted = some i ∨ ∃ p pid, f = .kfork p (.setParent i pid) := by
  cases f' with
  | kfork p pc' =>
    rcases conts_kfork hm with rfl | ⟨pc, rfl, hg⟩
    · cases ha
    · cases hg with
      | setParent j pid =>
        cases ha
        exact .inr ⟨p, pid, rfl⟩
      | _ => first | exact .inl ha | cases ha
  | _ => cases ha

/-- `reparent` goes through the slots one by one. -/
theorem cleared_conts {m : Nat} (hc : f'.cleared = some (p, m)) :
    (p ≠ S.initproc ∧ m = 0) ∨ (∃ m₀, f.cleared = some (p, m₀) ∧ m ≤ m₀) ∨
      ∃ status, ∃ i : Fin np, f = .kexit p status (.reparent i) ∧ m = i + 1 := by
  cases f' with
  | kexit p' status pc' =>
    rcases conts_kexit hm with rfl | ⟨pc, rfl, hg⟩
    · cases hc
    · cases hg with
      | start h =>
        cases hc
        exact .inl ⟨h, rfl⟩
      | give i h hp | skip i h hp =>
        cases hc
        exact .inr (.inr ⟨status, ⟨i, h⟩, rfl, rfl⟩)
      | last i h chan =>
        cases hc
        exact .inr (.inl ⟨i, rfl, h⟩)
      | setZombie | unlockWait | callSched => cases hc
      | _ =>
        cases hc
        exact .inr (.inl ⟨_, rfl, le_rfl⟩)
  | _ => cases hc

theorem found_conts (hf : f'.found = some (p, i)) : (κ.procs i).parent = some p ∧ (∃ b, f = .kwait p (.scan i b)) ∨
      f.found = some (p, i) ∧ ∀ p pid, f ≠ .kwait p (.freeproc i pid) := by
  cases f' with
  | kwait p' pc' =>
    rcases conts_kwait hm with rfl | ⟨pc, rfl, hg⟩
    · cases hf
    · cases hg with
      | child j h b hp =>
        cases hf
        exact .inl ⟨hp, b, rfl⟩
      | lockChild j | zombie j h | copied j pid => exact .inr ⟨hf, nofun⟩
      | _ => cases hf
  | _ => cases hf

theorem foundPid_conts (hf : f'.foundPid = some (i, pid)) :
    (κ.procs i).pid = pid ∧ (κ.procs i).state = .zombie ∨ f.foundPid = some (i, pid) := by
  cases f' with
  | kwait p' pc' =>
    rcases conts_kwait hm with rfl | ⟨pc, rfl, hg⟩
    · cases hf
    · cases hg with
      | zombie j h =>
        cases hf
        exact .inl ⟨rfl, h⟩
      | copied j pid => exact .inr hf
      | _ => cases hf
  | _ => cases hf

end Conts

/-! ## Steps -/

section Step

variable {s s' : State S nc} {c : Fin nc}

/-- The ways in which the parent of a slot can change. -/
inductive ParentStep (s s' : State S nc) (c : Fin nc) (q : Fin np) : Prop
  | same (h : (s'.kern.procs q).parent = (s.kern.procs q).parent)
  | adopt (p : Fin np) (pid : BitVec 32) (rest : List S.F) (hs : s.stk (s.cur c) = .kfork p (.setParent q pid) :: rest)
      (h : (s'.kern.procs q).parent = some p)
  | give (p : Fin np) (status : BitVec 32) (rest : List S.F)
      (hs : s.stk (s.cur c) = .kexit p status (.reparent q) :: rest) (hp : (s.kern.procs q).parent = some p)
      (h : (s'.kern.procs q).parent = some S.initproc)
  | drop (p : Fin np) (rest : List S.F) (hs : s.stk (s.cur c) = .kfork p (.freeproc q) :: rest)
      (h : s'.kern.procs q = freeproc (s.kern.procs q))
  | reap (p : Fin np) (pid : BitVec 32) (rest : List S.F) (hs : s.stk (s.cur c) = .kwait p (.freeproc q pid) :: rest)
      (h : s'.kern.procs q = freeproc (s.kern.procs q))

theorem parent_step (hb : Base s) (hf : Fires s c s') (q : Fin np) : ParentStep s s' c q := by
  rcases access_step hb hf with hk | ⟨f, rest, hs, -, ha⟩
  · exact .same (by rw [hk])
  · cases ha.slot q with
    | same _ _ hp _ => exact .same hp
    | create p pid hf ha hb | ready p pid hf ha hb | exit status hf ha hb => exact .same (by rw [hb])
    | adopt p pid hf hb => exact .adopt p pid rest (hf ▸ hs) (by rw [hb])
    | reparent p status hf ha hb => exact .give p status rest (hf ▸ hs) ha (by rw [hb])
    | drop p hf ha hb => exact .drop p rest (hf ▸ hs) hb
    | reap p pid hf ha hb => exact .reap p pid rest (hf ▸ hs) hb

/-- Only one point executes with `wait_lock` held. -/
theorem WaitInv.only (h : WaitInv s) (hb : Base s) {k : S.F} (hs : s.stk (s.cur c) = k :: rest)
    (hk : k.waits = true) (hks : k.isStart = false) {f : S.F} (hf : f ∈ s.stk t) (hw : f.waits = true)
    (hws : f.isStart = false) : f = k := by
  obtain ⟨c₁, hc₁, hl₁, -⟩ := h.holder (by rw [hs]; exact List.mem_cons_self) hk hks
  obtain rfl := hb.inj _ _ hc₁
  obtain ⟨c₂, hc₂, hl₂, hst⟩ := h.holder hf hw hws
  rw [hl₁] at hl₂
  cases hl₂
  rw [← hc₂, hs] at hst
  rcases hst with ⟨rest', he⟩ | ⟨-, g, rest', he, hg⟩
  · exact (List.cons.inj he).1.symm
  · rw [← (List.cons.inj he).1] at hg
    exact absurd ((Frame.keepsWait_not_waits hg).symm.trans hk) Bool.false_ne_true

/-- A living process stays alive unless it exits. -/
theorem live_step (hb : Base s) (hf : Fires s c s') {p : Fin np} (hp : (s.kern.procs p).state.live = true) :
    (s'.kern.procs p).state.live = true ∨ ∃ status rest, s.stk (s.cur c) = .kexit p status .setZombie :: rest := by
  rcases access_step hb hf with hk | ⟨f, rest, hs, -, ha⟩
  · exact .inl (by rw [hk]; exact hp)
  · cases ha.slot p with
    | same h _ _ _ =>
      rcases h with h | ⟨-, h⟩
      · exact .inl (by rw [h]; exact hp)
      · exact .inl h
    | create p' pid hf ha hb | ready p' pid hf ha hb | drop p' hf ha hb | reap p' pid hf ha hb =>
      rw [ha] at hp
      cases hp
    | adopt p' pid hf hb | reparent p' status hf ha hb => exact .inl (by rw [hb]; exact hp)
    | exit status hf ha hb => exact .inr ⟨status, rest, hf ▸ hs⟩

/-- One turn of the loop of `reparent`. -/
theorem reparent_text {me : Option (Fin np)} (p : Fin np) (status : BitVec 32) (i : Fin np) :
    instr S me (.kexit p status (.reparent i)) = .upd
      (fun κ => if (κ.procs i).parent = some p then κ.setProc i fun q => { q with parent := some S.initproc } else κ)
      fun κ => if (κ.procs i).parent = some p then .kexit p status (.callInit i) else .kexit p status (.reparent (i + 1)) :=
  dif_pos i.isLt

namespace Tree

theorem top_mem {f : S.F} (hs : s.stk (s.cur c) = f :: rest) : f ∈ s.stk (s.cur c) := by
  rw [hs]
  exact List.mem_cons_self

variable (h : Tree s) (hb : Base s)
include h hb

/-- What `reparent` has given away. -/
theorem cleared_step (hb' : Base s') (hw' : WaitInv s') (hf : Fires s c s')
    {f' : S.F} (hm : f' ∈ s'.stk t) {p : Fin np} {m : Nat} (hc : f'.cleared = some (p, m)) :
    p ≠ S.initproc ∧ ∀ j : Fin np, j.val < m → (s'.kern.procs j).parent ≠ some p := by
  have keep : ∀ {j : Fin np}, p ≠ S.initproc → (s.kern.procs j).parent ≠ some p →
      (∀ pid rest, s.stk (s.cur c) = .kfork p (.setParent j pid) :: rest → s'.kern = s.kern) →
      (s'.kern.procs j).parent ≠ some p := by
    intro j hp hj hno
    cases parent_step hb hf j with
    | same h => rwa [h]
    | adopt p' pid rest hs h =>
      intro he
      rw [h] at he
      cases he
      rw [hno pid rest hs] at h
      exact hj h
    | give p' status rest hs _ h =>
      rw [h]
      exact fun he => hp (Option.some.inj he).symm
    | drop p' rest hs h | reap p' pid rest hs h =>
      rw [h]
      nofun
  obtain ⟨status, pc, rfl⟩ := Frame.cleared_eq hc
  rcases hf.mem_fn hm nofun nofun with hx | ⟨f, rest, n, hs, hx, hk⟩
  · obtain ⟨hp, hj⟩ := h.cleared t _ hx p m hc
    refine ⟨hp, fun j hjm => keep hp (hj j hjm) fun pid rest hs => ?_⟩
    -- `kfork` would be the only one in this region
    by_contra hne
    obtain ⟨-, hcur, hst⟩ := hf.of_upd hs rfl hne
    have hwt := Frame.cleared_waits hc (by omega)
    rw [← hcur] at hst
    cases hw'.only hb' hst rfl rfl hm hwt.1 hwt.2
  · rcases cleared_conts hx hc with ⟨hp, rfl⟩ | ⟨m₀, hf₀, hle⟩ | ⟨status', i, rfl, rfl⟩
    · exact ⟨hp, fun j hj => absurd hj (Nat.not_lt_zero _)⟩
    · obtain ⟨hp, hj⟩ := h.cleared _ f (top_mem hs) p m₀ hf₀
      refine ⟨hp, fun j hjm => keep hp (hj j (by omega)) fun pid rest' hs' => ?_⟩
      rw [hs] at hs'
      cases hs'
      cases hf₀
    · obtain ⟨hp, hj⟩ := h.cleared _ _ (top_mem hs) p i rfl
      refine ⟨hp, fun j hjm => ?_⟩
      by_cases hji : j = i
      · subst hji
        rw [hk _ _ (reparent_text p status' j)]
        by_cases hpar : (s.kern.procs j).parent = some p
        · rw [if_pos hpar, Kernel.setProc_same]
          exact fun he => hp (Option.some.inj he).symm
        · rwa [if_neg hpar]
      · have hne : j.val ≠ i.val := fun he => hji (Fin.ext he)
        refine keep hp (hj j (by omega)) fun pid rest' hs' => ?_
        rw [hs] at hs'
        cases hs'

theorem bare_step (hb' : Base s') (hf : Fires s c s') {f' : S.F}
    (hm : f' ∈ s'.stk t) {i : Fin np} (hi : f'.bare = some i) : (s'.kern.procs i).parent = none := by
  have hnone : (s.kern.procs i).parent = none := by
    obtain ⟨p, pc, rfl⟩ := Frame.bare_eq hi
    rcases hf.mem_fn hm nofun nofun with hx | ⟨f, rest, n, hs, hx, -⟩
    · exact h.bare t _ hx i hi
    · rcases bare_conts hx hi with hi' | hu
      · exact h.bare _ f (top_mem hs) i hi'
      · exact h.empty i hu
  cases parent_step hb hf i with
  | same h => rw [h, hnone]
  | adopt p pid rest hs h =>
    have hne : s'.kern ≠ s.kern := by
      intro he
      rw [he, hnone] at h
      cases h
    obtain ⟨-, hcur, hst⟩ := hf.of_upd hs rfl hne
    -- the child has its parent now, and nobody else builds it
    have hk : .kfork p (.unlockWait i pid) ∈ s'.stk (s.cur c) := by
      rw [hst]
      exact List.mem_cons_self
    cases hb'.child_eq hm hk (Frame.bare_child hi) rfl
    cases hi
  | give p status rest hs hp h =>
    rw [hnone] at hp
    cases hp
  | drop p rest hs h | reap p pid rest hs h => rw [h]; rfl

theorem adopted_step (hb' : Base s') (hf : Fires s c s') {f' : S.F}
    (hm : f' ∈ s'.stk t) {i : Fin np} (hi : f'.adopted = some i) : (s'.kern.procs i).parent ≠ none := by
  have hused : (s'.kern.procs i).state = .used := hb'.meets t f' hm i .used (Frame.adopted_expects hi)
  have keep : (s.kern.procs i).parent ≠ none → (s'.kern.procs i).parent ≠ none := by
    intro hp
    cases parent_step hb hf i with
    | same h => rwa [h]
    | adopt p pid rest hs h => rw [h]; nofun
    | give p status rest hs _ h => rw [h]; nofun
    | drop p rest hs h | reap p pid rest hs h =>
      rw [h] at hused
      cases hused
  obtain ⟨p, pc, rfl⟩ := Frame.adopted_eq hi
  rcases hf.mem_fn hm nofun nofun with hx | ⟨f, rest, n, hs, hx, hk⟩
  · exact keep (h.adopted t _ hx i hi)
  · rcases adopted_conts hx hi with hi' | ⟨p', pid, rfl⟩
    · exact keep (h.adopted _ f (top_mem hs) i hi')
    · rw [hk _ _ rfl, Kernel.setProc_same]
      nofun

/-- The parent of the child that `kwait` looks at. -/
theorem found_step (hb' : Base s') (hw' : WaitInv s') (hf : Fires s c s')
    {f' : S.F} (hm : f' ∈ s'.stk t) {p i : Fin np} (hi : f'.found = some (p, i)) :
    (s'.kern.procs i).parent = some p := by
  obtain ⟨hwt, hws⟩ := Frame.found_waits hi
  -- whoever changes a parent is the only one in this region, and is not at this point
  have only : ∀ {k : S.F} {rest : List S.F}, k.waits = true → k.isStart = false → k.found = none →
      s'.cur = s.cur → s'.stk (s.cur c) = k :: rest → False := by
    intro k rest hk hks hkf hcur hst
    rw [← hcur] at hst
    cases hw'.only hb' hst hk hks hm hwt hws
    rw [hkf] at hi
    cases hi
  have hpar : (s.kern.procs i).parent = some p := by
    obtain ⟨hfn, hd⟩ := Frame.found_eq hi
    rcases hf.mem_fn hm hfn hd with hx | ⟨f, rest, n, hs, hx, -⟩
    · exact h.found t f' hx p i hi
    · rcases found_conts hx hi with ⟨hp, -⟩ | ⟨hi', -⟩
      · exact hp
      · exact h.found _ f (top_mem hs) p i hi'
  by_cases hne : s'.kern = s.kern
  · rw [hne, hpar]
  · cases parent_step hb hf i with
    | same h => rw [h, hpar]
    | adopt p' pid rest hs h | reap p' pid rest hs _ =>
      obtain ⟨-, hcur, hst⟩ := hf.of_upd hs rfl hne
      exact (only rfl rfl rfl hcur hst).elim
    | give p' status rest hs hp _ =>
      obtain ⟨-, hcur, hst⟩ := hf.of_upd hs (reparent_text p' status i) hne
      rw [if_pos hp] at hst
      exact (only rfl rfl rfl hcur hst).elim
    | drop p' rest hs _ =>
      rw [h.bare _ _ (top_mem hs) i rfl] at hpar
      cases hpar

/-- The pid that `kwait` is going to return. -/
theorem foundPid_step (hb' : Base s') (hf : Fires s c s') {f' : S.F}
    (hm : f' ∈ s'.stk t) {i : Fin np} {pid : BitVec 32} (hi : f'.foundPid = some (i, pid)) :
    (s'.kern.procs i).pid = pid := by
  have hz : (s'.kern.procs i).state = .zombie := hb'.meets t f' hm i .zombie (Frame.foundPid_expects hi)
  have hpid : (s.kern.procs i).pid = pid := by
    obtain ⟨hfn, hd⟩ := Frame.foundPid_eq hi
    rcases hf.mem_fn hm hfn hd with hx | ⟨f, rest, n, hs, hx, -⟩
    · exact h.foundPid t f' hx i pid hi
    · rcases foundPid_conts hx hi with ⟨hp, -⟩ | hi'
      · exact hp
      · exact h.foundPid _ f (top_mem hs) i pid hi'
  rcases access_step hb hf with hk | ⟨f, rest, hs, -, ha⟩
  · rw [hk, hpid]
  · cases ha.slot i with
    | same _ hp _ _ => rw [hp, hpid]
    | create p' pid' hf ha hb | drop p' hf ha hb | reap p' pid' hf ha hb | ready p' pid' hf ha hb =>
      rw [hb] at hz
      cases hz
    | adopt p' pid' hf hb | reparent p' status hf ha hb | exit status hf ha hb =>
      rw [hb]
      exact hpid

theorem empty_step (hf : Fires s c s') (hq : (s'.kern.procs q).state = .unused) : (s'.kern.procs q).parent = none := by
  rcases access_step hb hf with hk | ⟨f, rest, hs, -, ha⟩
  · rw [hk] at hq ⊢
    exact h.empty q hq
  · cases ha.slot q with
    | same hst _ hp _ =>
      rcases hst with hst | ⟨-, hst⟩
      · rw [hp]
        exact h.empty q (hst.symm.trans hq)
      · rw [hq] at hst
        cases hst
    | adopt p pid hf hb' =>
      rw [hb', hb.meets_top hs q .used (by rw [hf]; rfl)] at hq
      cases hq
    | reparent p status hf ha hb' =>
      rw [hb'] at hq
      rw [h.empty q hq] at ha
      cases ha
    | drop p hf ha hb' | reap p pid hf ha hb' => rw [hb']; rfl
    | create p pid hf ha hb' | ready p pid hf ha hb' | exit status hf ha hb' =>
      rw [hb'] at hq
      cases hq

theorem alive_step (hf : Fires s c s') {p : Fin np}
    (hq : (s'.kern.procs q).parent = some p) : (s'.kern.procs p).state.live = true := by
  cases parent_step hb hf q with
  | same hsame =>
    rw [hsame] at hq
    rcases live_step hb hf (h.alive q p hq) with hl | ⟨status, rest, hs⟩
    · exact hl
    · exact absurd hq ((h.cleared _ _ (top_mem hs) p np rfl).2 q q.isLt)
  | adopt p' pid rest hs he =>
    rw [hq] at he
    cases he
    have hrun : (s.kern.procs p).state = .running := hb.own_running hs rfl rfl
    rcases live_step hb hf (by rw [hrun]; rfl) with hl | ⟨status, rest, hs'⟩
    · exact hl
    · rw [hs] at hs'
      cases hs'
  | give p' status rest hs _ he =>
    rw [hq] at he
    cases he
    rcases live_step hb hf h.init with hl | ⟨status, rest, hs'⟩
    · exact hl
    · rw [hs] at hs'
      cases hs'
  | drop p' rest hs he | reap p' pid rest hs he =>
    rw [he] at hq
    cases hq

theorem orphan_step (hf : Fires s c s') (hq : q ≠ S.initproc)
    (hu : (s'.kern.procs q).state ≠ .unused) (hus : (s'.kern.procs q).state ≠ .used) :
    (s'.kern.procs q).parent ≠ none := by
  rcases access_step hb hf with hk | ⟨f, rest, hs, -, ha⟩
  · rw [hk] at hu hus ⊢
    exact h.orphan q hq hu hus
  · cases ha.slot q with
    | same hst _ hp _ =>
      rw [hp]
      rcases hst with hst | ⟨hst, -⟩
      · rw [hst] at hu hus
        exact h.orphan q hq hu hus
      · exact h.orphan q hq (fun he => by rw [he] at hst; cases hst) fun he => by rw [he] at hst; cases hst
    | adopt p pid hf hb' | reparent p status hf ha hb' => rw [hb']; nofun
    | ready p pid hf ha hb' =>
      rw [hb']
      exact h.adopted _ f (top_mem hs) q (by rw [hf]; rfl)
    | exit status hf ha hb' =>
      rw [hb']
      exact h.orphan q hq (by rw [ha]; nofun) (by rw [ha]; nofun)
    | create p pid hf ha hb' => exact absurd (by rw [hb']) hus
    | drop p hf ha hb' | reap p pid hf ha hb' => exact absurd (by rw [hb']; rfl) hu

theorem step (hb' : Base s') (hw' : WaitInv s') (hf : Fires s c s') : Tree s' where
  alive _ _ hq := h.alive_step hb hf hq
  init := by
    rcases live_step hb hf h.init with hl | ⟨status, rest, hs⟩
    · exact hl
    · exact absurd rfl (h.cleared _ _ (top_mem hs) S.initproc np rfl).1
  orphan _ hq hu hus := h.orphan_step hb hf hq hu hus
  empty _ hq := h.empty_step hb hf hq
  bare _ _ hm _ hi := h.bare_step hb hb' hf hm hi
  adopted _ _ hm _ hi := h.adopted_step hb hb' hf hm hi
  cleared _ _ hm _ _ hc := h.cleared_step hb hb' hw' hf hm hc
  found _ _ hm _ _ hi := h.found_step hb hb' hw' hf hm hi
  foundPid _ _ hm _ _ hi := h.foundPid_step hb hb' hf hm hi

end Tree

end Step

/-- **The process tree, in every reachable state.** -/
theorem Reachable.tree {s : State S nc} (h : Reachable s) : Tree s :=
  Reachable.induct tree_boot (fun _ _ hr ht ⟨c, a, hs⟩ =>
    ht.step hr.base (hr.step ⟨c, a, hs⟩).base (hr.step ⟨c, a, hs⟩).waitInv (fires_of_step hs).2) h


/-! ## Executions -/

section Run

variable {σ : Nat → State S nc}

/-- The step after state `n` is the execution of `f` by some CPU. -/
def Runs (σ : Nat → State S nc) (n : Nat) (f : S.F) : Prop :=
  ∃ c k rest, (σ n).stk ((σ n).cur c) = f :: rest ∧ step (σ n) c (.run k) = some (σ (n + 1))

/-- `kexit(status)` by `q` makes it a zombie. -/
def Exits (σ : Nat → State S nc) (n : Nat) (q : Fin np) (status : BitVec 32) : Prop :=
  Runs σ n (.kexit q status .setZombie)

/-- `kwait` by `p` copies out the exit status of `q`, and the copy succeeds. -/
def Copies (σ : Nat → State S nc) (n : Nat) (p q : Fin np) (pid : BitVec 32) : Prop :=
  ∃ c k rest, (σ n).stk ((σ n).cur c) = .kwait p (.copyout q pid) :: rest ∧ k ≠ 0 ∧
    step (σ n) c (.run k) = some (σ (n + 1))

/-- `kwait` by `p` frees the slot `q`, and is going to return `pid`. -/
def Reaps (σ : Nat → State S nc) (n : Nat) (p q : Fin np) (pid : BitVec 32) : Prop :=
  Runs σ n (.kwait p (.freeproc q pid))

/-- The `kwait` that frees the slot `q` in step `n` reports the `kexit` of step `m`. -/
structure Reports (σ : Nat → State S nc) (m n : Nat) (p q : Fin np) (pid status : BitVec 32) : Prop where
  exits : Exits σ m q status
  reaps : Reaps σ n p q pid
  /-- The status was copied out before, by the same `kwait`. -/
  copies : ∃ l, m < l ∧ l < n ∧ Copies σ l p q pid
  /-- In between the slot is the zombie with this status and this pid. -/
  dead : ∀ k, m < k → k ≤ n → ((σ k).kern.procs q).state = .zombie ∧ ((σ k).kern.procs q).xstate = status ∧
    ((σ k).kern.procs q).pid = pid
  parent : ((σ n).kern.procs q).parent = some p

/-- The rules of exit and wait. -/
structure ExitWait (σ : Nat → State S nc) : Prop where
  /-- A process that has been started, other than `init`, has a parent that is neither UNUSED nor ZOMBIE. -/
  parent : ∀ n q, q ≠ S.initproc → ((σ n).kern.procs q).state ≠ .unused → ((σ n).kern.procs q).state ≠ .used →
    ∃ p, ((σ n).kern.procs q).parent = some p ∧ ((σ n).kern.procs p).state ≠ .unused ∧
      ((σ n).kern.procs p).state ≠ .zombie
  reported : ∀ n p q pid, Reaps σ n p q pid → ∃ m status, Reports σ m n p q pid status
  /-- A `kexit` is reported at most once. -/
  once : ∀ m n n' p p' q pid pid' status status', Reports σ m n p q pid status → Reports σ m n' p' q pid' status' → n = n'
  /-- A process that has been started is freed by `kwait` only. -/
  freed : ∀ n q, ((σ n).kern.procs q).state ≠ .unused → ((σ n).kern.procs q).state ≠ .used →
    ((σ (n + 1)).kern.procs q).state = .unused → ∃ p pid, Reaps σ n p q pid
  /-- A zombie stays as it is until then, also when the copy of its status fails. -/
  kept : ∀ n q, ((σ n).kern.procs q).state = .zombie →
    (∃ p pid, Reaps σ n p q pid) ∨ ((σ (n + 1)).kern.procs q).state = .zombie
  copyout : ∀ n p q pid, Runs σ n (.kwait p (.copyout q pid)) → (σ (n + 1)).kern = (σ n).kern
  /-- A slot that is freed has no children. -/
  childless : ∀ n q, ((σ n).kern.procs q).state ≠ .unused → ((σ (n + 1)).kern.procs q).state = .unused →
    ∀ j, ((σ n).kern.procs j).parent ≠ some q

theorem step_intr_kern {s s' : State S nc} {c : Fin nc} {irq : Nat} (h : step s c (.intr irq) = some s') :
    s'.kern = s.kern := by
  simp only [step] at h
  split at h
  · cases h
  · split at h
    · cases h
    · next hn => cases hn
    · split at h <;> cases h
      rfl

/-- The process table changes by the execution of a program point. -/
theorem Exec.access (hσ : Exec σ) (n : Nat) :
    (σ (n + 1)).kern = (σ n).kern ∨ ∃ f, Runs σ n f ∧ Access f (σ n).kern (σ (n + 1)).kern := by
  rcases hσ.next n with he | ⟨c, a, hst⟩
  · exact .inl (by rw [he])
  · cases a with
    | intr irq => exact .inl (step_intr_kern hst)
    | run k =>
      refine (access_step (hσ.reachable n).base (fires_of_step hst).2).imp id ?_
      rintro ⟨f, rest, hs, -, ha⟩
      exact ⟨f, ⟨c, k, rest, hs, hst⟩, ha⟩

/-- The effect of an access. -/
theorem Runs.upd {n : Nat} {f : S.F} {g : S.K → S.K} {k : S.K → S.F} (h : Runs σ n f)
    (hi : ∀ me, instr S me f = .upd g k) : (σ (n + 1)).kern = g (σ n).kern := by
  obtain ⟨c, _, rest, hs, hst⟩ := h
  have hp := (fires_of_step hst).1
  have he : { (σ n).setStk c (k (σ n).kern :: rest) with kern := g (σ n).kern } = σ (n + 1) := by
    simpa [step, hp, hs, hi, exec] using hst
  rw [← he]

/-- A zombie stays one until `kwait` frees it. -/
theorem Exec.kept (hσ : Exec σ) {n : Nat} (hz : ((σ n).kern.procs q).state = .zombie) :
    (∃ p pid, Reaps σ n p q pid) ∨ ((σ (n + 1)).kern.procs q).state = .zombie ∧
      ((σ (n + 1)).kern.procs q).xstate = ((σ n).kern.procs q).xstate ∧
      ((σ (n + 1)).kern.procs q).pid = ((σ n).kern.procs q).pid := by
  rcases hσ.access n with hk | ⟨f, hr, ha⟩
  · exact .inr (by rw [hk]; exact ⟨hz, rfl, rfl⟩)
  · cases ha.slot q with
    | same hs hp _ hx =>
      rcases hs with hs | ⟨hs, -⟩
      · exact .inr ⟨hs.trans hz, hx, hp⟩
      · rw [hz] at hs
        cases hs
    | create p pid hf ha hb | drop p hf ha hb | ready p pid hf ha hb | exit status hf ha hb =>
      rw [hz] at ha
      cases ha
    | adopt p pid hf hb | reparent p status hf ha hb => exact .inr (by rw [hb]; exact ⟨hz, rfl, rfl⟩)
    | reap p pid hf ha hb =>
      subst hf
      exact .inl ⟨p, pid, hr⟩

/-- The slot `q` has been the zombie of one `kexit` since step `m`. -/
structure DeadSince (σ : Nat → State S nc) (m n : Nat) (q : Fin np) : Prop where
  lt : m < n
  running : ((σ m).kern.procs q).state = .running
  exits : Exits σ m q ((σ n).kern.procs q).xstate
  dead : ∀ k, m < k → k ≤ n → ((σ k).kern.procs q).state = .zombie ∧
    ((σ k).kern.procs q).xstate = ((σ n).kern.procs q).xstate ∧ ((σ k).kern.procs q).pid = ((σ n).kern.procs q).pid

theorem DeadSince.next {m n : Nat} (h : DeadSince σ m n q) (hz : ((σ (n + 1)).kern.procs q).state = .zombie)
    (hx : ((σ (n + 1)).kern.procs q).xstate = ((σ n).kern.procs q).xstate)
    (hp : ((σ (n + 1)).kern.procs q).pid = ((σ n).kern.procs q).pid) : DeadSince σ m (n + 1) q := by
  refine ⟨Nat.lt_succ_of_lt h.lt, h.running, hx ▸ h.exits, fun k h1 h2 => ?_⟩
  rcases Nat.lt_or_ge n k with hk | hk
  · obtain rfl : k = n + 1 := by omega
    exact ⟨hz, rfl, rfl⟩
  · rw [hx, hp]
    exact h.dead k h1 hk

/-- A zombie has exited, and is as its `kexit` left it. -/
theorem Exec.zombie_exited (hσ : Exec σ) (n : Nat) (hz : ((σ n).kern.procs q).state = .zombie) :
    ∃ m, DeadSince σ m n q := by
  induction n with
  | zero =>
    rw [hσ.start] at hz
    simp only [boot] at hz
    split at hz <;> cases hz
  | succ n ih =>
    rcases hσ.access n with hk | ⟨f, hr, ha⟩
    · obtain ⟨m, hm⟩ := ih (by rwa [hk] at hz)
      exact ⟨m, hm.next hz (by rw [hk]) (by rw [hk])⟩
    · cases ha.slot q with
      | same hs hp _ hx =>
        rcases hs with hs | ⟨-, hs⟩
        · obtain ⟨m, hm⟩ := ih (hs.symm.trans hz)
          exact ⟨m, hm.next hz hx hp⟩
        · rw [hz] at hs
          cases hs
      | create p pid hf ha hb | drop p hf ha hb | ready p pid hf ha hb | reap p pid hf ha hb =>
        rw [hb] at hz
        cases hz
      | adopt p pid hf hb | reparent p status hf ha hb =>
        obtain ⟨m, hm⟩ := ih (by rwa [hb] at hz)
        exact ⟨m, hm.next hz (by rw [hb]) (by rw [hb])⟩
      | exit status hf hrun hb =>
        subst hf
        refine ⟨n, by omega, hrun, ?_, fun k h1 h2 => ?_⟩
        · rw [hb]
          exact hr
        · obtain rfl : k = n + 1 := by omega
          exact ⟨hz, rfl, rfl⟩

/-- A successful copy leads to the point that frees the slot. -/
theorem copies_of_step (hσ : Exec σ) {n : Nat} {c : Fin nc} {a : Act} {p : Fin np}
    {pid : BitVec 32} (hst : step (σ n) c a = some (σ (n + 1)))
    (hs : (σ n).stk ((σ n).cur c) = .kwait p (.copyout q pid) :: rest)
    (hm : .kwait p (.freeproc q pid) ∈ (σ (n + 1)).stk t) : Copies σ n p q pid := by
  have hb := (hσ.reachable n).base
  have hp := (fires_of_step hst).1
  cases a with
  | intr irq =>
    -- the lock of the child is held, so that there are no interrupts
    have hsie : ((σ n).cpus c).sie = true := by
      by_contra hx
      simp [step, hp, hs, hx] at hst
    have hh := hb.heldS_of_sie hp hsie
    rw [hs] at hh
    cases hh
  | run k =>
    refine ⟨c, k, rest, hs, fun hk => ?_, hst⟩
    subst hk
    have he : (σ n).setStk c (.kwait p (.unlockFound q (-1)) :: rest) = σ (n + 1) := by
      simpa [step, hp, hs, instr, kwaitText, exec] using hst
    have htop : (σ (n + 1)).stk ((σ (n + 1)).cur c) = .kwait p (.unlockFound q (-1)) :: rest := by
      rw [← he]
      exact Function.update_self ..
    cases (hσ.reachable (n + 1)).waitInv.only (hσ.reachable (n + 1)).base htop rfl rfl hm rfl rfl

/-- `p` has copied out the status of the zombie `q` in step `l`, and the zombie is still there. -/
structure CopiedSince (σ : Nat → State S nc) (l n : Nat) (p q : Fin np) (pid : BitVec 32) : Prop where
  lt : l < n
  copies : Copies σ l p q pid
  dead : ∀ k, l ≤ k → k ≤ n → ((σ k).kern.procs q).state = .zombie

theorem CopiedSince.next {l n : Nat} {p : Fin np} {pid : BitVec 32} (h : CopiedSince σ l n p q pid)
    (hz : ((σ (n + 1)).kern.procs q).state = .zombie) : CopiedSince σ l (n + 1) p q pid := by
  refine ⟨Nat.lt_succ_of_lt h.lt, h.copies, fun k h1 h2 => ?_⟩
  rcases Nat.lt_or_ge n k with hk | hk
  · obtain rfl : k = n + 1 := by omega
    exact hz
  · exact h.dead k h1 hk

/-- The point that frees the slot of a zombie comes after a successful copy of its status. -/
theorem Exec.copied (hσ : Exec σ) (n : Nat) {p : Fin np} {pid : BitVec 32}
    (hm : .kwait p (.freeproc q pid) ∈ (σ n).stk t) : ∃ l, CopiedSince σ l n p q pid := by
  induction n generalizing t with
  | zero =>
    rw [hσ.start] at hm
    cases t <;> cases List.mem_singleton.mp hm
  | succ n ih =>
    have hz := (hσ.reachable (n + 1)).base.meets t _ hm q .zombie rfl
    rcases hσ.next n with he | ⟨c, a, hst⟩
    · obtain ⟨l, hl⟩ := ih (he ▸ hm)
      exact ⟨l, hl.next hz⟩
    · rcases (fires_of_step hst).2.mem_fn hm nofun nofun with hx | ⟨f, rest, m, hs, hx, -⟩
      · obtain ⟨l, hl⟩ := ih hx
        exact ⟨l, hl.next hz⟩
      · rcases conts_kwait hx with he | ⟨pc, rfl, hg⟩
        · cases he
        · cases hg
          refine ⟨n, by omega, copies_of_step hσ hst hs hm, fun k h1 h2 => ?_⟩
          obtain rfl | rfl : k = n ∨ k = n + 1 := by omega
          · exact (hσ.reachable k).base.meets _ _ (Tree.top_mem hs) q .zombie rfl
          · exact hz

/-- What `kwait` reports. -/
theorem Exec.reported (hσ : Exec σ) {n : Nat} {p : Fin np} {pid : BitVec 32} (hr : Reaps σ n p q pid) :
    ∃ m status, Reports σ m n p q pid status := by
  obtain ⟨c, k, rest, hs, hst⟩ := hr
  have hm := Tree.top_mem hs
  have ht := (hσ.reachable n).tree
  obtain ⟨m, hd⟩ := hσ.zombie_exited n ((hσ.reachable n).base.meets _ _ hm q .zombie rfl)
  obtain ⟨l, hl⟩ := hσ.copied n hm
  refine ⟨m, _, hd.exits, ⟨c, k, rest, hs, hst⟩, ⟨l, ?_, hl.lt, hl.copies⟩, fun k h1 h2 => ?_, ht.found _ _ hm p q rfl⟩
  · -- at `m` the process is still running
    by_contra hlm
    have hrun := hd.running
    rw [hl.dead m (by omega) hd.lt.le] at hrun
    cases hrun
  · rw [← ht.foundPid _ _ hm q pid rfl]
    exact hd.dead k h1 h2

theorem Reaps.unused {n : Nat} {p : Fin np} {pid : BitVec 32} (h : Reaps σ n p q pid) :
    ((σ (n + 1)).kern.procs q).state = .unused := by
  rw [Runs.upd h fun _ => rfl, Kernel.setProc_same]
  rfl

theorem Reports.le {m n n' : Nat} {p p' : Fin np} {pid pid' status status' : BitVec 32}
    (h : Reports σ m n p q pid status) (h' : Reports σ m n' p' q pid' status') : n' ≤ n := by
  by_contra hlt
  obtain ⟨l, hml, hln, -⟩ := h.copies
  have hz := (h'.dead (n + 1) (by omega) (by omega)).1
  rw [h.reaps.unused] at hz
  cases hz

/-- How the slot of a process becomes free. -/
theorem Exec.freed (hσ : Exec σ) {n : Nat} (hu : ((σ n).kern.procs q).state ≠ .unused)
    (hn : ((σ (n + 1)).kern.procs q).state = .unused) :
    (∃ p pid, Reaps σ n p q pid) ∧ ((σ n).kern.procs q).state = .zombie ∨ ((σ n).kern.procs q).state = .used := by
  rcases hσ.access n with hk | ⟨f, hr, ha⟩
  · rw [hk] at hn
    exact absurd hn hu
  · cases ha.slot q with
    | same hs _ _ _ =>
      rcases hs with hs | ⟨-, hs⟩
      · exact absurd (hs.symm.trans hn) hu
      · rw [hn] at hs
        cases hs
    | create p pid hf ha hb | ready p pid hf ha hb | exit status hf ha hb =>
      rw [hb] at hn
      cases hn
    | adopt p pid hf hb | reparent p status hf ha hb =>
      rw [hb] at hn
      exact absurd hn hu
    | drop p hf ha hb => exact .inr ha
    | reap p pid hf hz hb =>
      subst hf
      exact .inl ⟨⟨p, pid, hr⟩, hz⟩

/-- **The exit and wait protocol**, in every execution. -/
theorem exit_wait (hσ : Exec σ) : ExitWait σ where
  parent n q hq hu hus := by
    have ht := (hσ.reachable n).tree
    obtain ⟨p, hp⟩ := Option.ne_none_iff_exists'.mp (ht.orphan q hq hu hus)
    have hl := ht.alive q p hp
    exact ⟨p, hp, fun he => (by rw [he] at hl; cases hl), fun he => (by rw [he] at hl; cases hl)⟩
  reported _ _ _ _ hr := hσ.reported hr
  once _ _ _ _ _ _ _ _ _ _ h h' := le_antisymm (h'.le h) (h.le h')
  freed n q hu hus hn := by
    rcases hσ.freed hu hn with ⟨hr, -⟩ | hx
    · exact hr
    · exact absurd hx hus
  kept _ _ hz := (hσ.kept hz).imp id And.left
  copyout n p q pid hr := by
    obtain ⟨c, k, rest, hs, hst⟩ := hr
    have hp := (fires_of_step hst).1
    have he : (σ n).setStk c ((if k = 0 then .kwait p (.unlockFound q (-1)) else .kwait p (.freeproc q pid)) :: rest) =
        σ (n + 1) := by
      simpa [step, hp, hs, instr, kwaitText, exec] using hst
    rw [← he]
    rfl
  childless n q hu hn j hj := by
    have hl := (hσ.reachable n).tree.alive j q hj
    rcases hσ.freed hu hn with ⟨-, hx⟩ | hx <;> (rw [hx] at hl; cases hl)

end Run

/-- Process `0` creates a child and waits for it; the child exits. -/
def parentChild : System 2 :=
  tableSystem [.self fun me => if me = some 0 then 2 else 4, .kfork 3, .kwait 1, .kexit 7] 0 fun _ => false

def parentChildRun : Nat → State parentChild 1 := execOf parentChild 1 (List.replicate 107 (0, .run 1))

/-- A step of such an execution. -/
theorem execOf_step {as : List (Fin nc × Act)} {n : Nat} {c : Fin nc} {a : Act} (ha : as[n]? = some (c, a))
    (h : (step (execOf S nc as n) c a).isSome = true) :
    step (execOf S nc as n) c a = some (execOf S nc as (n + 1)) := by
  obtain ⟨s', hs⟩ := Option.isSome_iff_exists.mp h
  rw [hs, execOf, ha]
  dsimp only
  rw [hs, Option.getD_some]

/-- Is the process about to free the slot of a child? -/
def reaping (p q : Fin np) (pid : BitVec 32) : List S.F → Bool
  | .kwait p' (.freeproc q' pid') :: _ => p' = p ∧ q' = q ∧ pid' = pid
  | _ => false

/-- In that run the child is reaped. -/
theorem exit_wait_child : ExitWait parentChildRun ∧ Reaps parentChildRun 106 0 1 2 := by
  have htop : ∃ rest, (parentChildRun 106).stk ((parentChildRun 106).cur 0) = .kwait 0 (.freeproc 1 2) :: rest := by
    have h : reaping 0 1 2 ((parentChildRun 106).stk ((parentChildRun 106).cur 0)) = true := by decide +kernel
    generalize (parentChildRun 106).stk ((parentChildRun 106).cur 0) = st at h
    unfold reaping at h
    split at h
    · obtain ⟨rfl, rfl, rfl⟩ := of_decide_eq_true h
      exact ⟨_, rfl⟩
    · cases h
  obtain ⟨rest, hs⟩ := htop
  exact ⟨exit_wait (exec_execOf _ _), 0, 1, rest, hs, execOf_step rfl (by decide +kernel)⟩

end Xv6
