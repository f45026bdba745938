import Xv6.Virtio.Requests

/-!
# The bookkeeping of the disk driver

`Inv` says who holds `vdisk_lock`, that the processes inside `virtio_disk_rw` have different buffers, and that the requests
have `Chains` of their own and are in `Flight` once. `Inv.step` keeps it, whatever the processes, the interrupt handler
and the device do next, and `disk_bookkeeping` reads off what it means for a reachable state.
-/

namespace Xv6.Virtio

open Lib (slot window)
open Function (update update_apply update_eq_self_iff update_of_ne update_self)

variable {P B : Type}
variable {r : Req B} {a : Act P B}

/-- What holds in every state. -/
structure Inv (s : State P B) : Prop where
  calm : s.panicked = none
  lock : ∀ p v, s.view p = some v → v.holds = true → s.lock = some (.proc p)
  bufs : ∀ p q v v', s.view p = some v → s.view q = some v' → v.buf = v'.buf → p = q
  chains : Chains s.disk s.req
  flight : Flight s.disk s.bdisk s.req s.taken s.pending

section Inv

variable {s s' : State P B} {p : P}

/-- The request of a process is for its buffer, and the process holds the lock until the request is posted. -/
theorem req_some (h : s.req p = some r) :
    ∃ v, s.view p = some v ∧ v.req = some r ∧ r.b = v.buf ∧ (r.posted = false → v.holds = true) := by
  obtain ⟨v, hv, hr⟩ := Option.bind_eq_some_iff.mp h
  refine ⟨v, hv, hr, ?_⟩
  obtain ⟨x, -, rfl⟩ := Option.map_eq_some_iff.mp hv
  cases x <;> cases hr <;> simp [Phase.view]

theorem Inv.buf_inj {q : P} {r' : Req B} (h : Inv s) (hp : s.req p = some r) (hq : s.req q = some r') (hb : r.b = r'.b) :
    p = q := by
  obtain ⟨v, hv, -, hr, -⟩ := req_some hp
  obtain ⟨v', hv', -, hr', -⟩ := req_some hq
  exact h.bufs p q v v' hv hv' (hr.symm.trans (hb.trans hr'))

/-- A request that is not posted is that of the process with the lock. -/
theorem Inv.posted (h : Inv s) (hl : s.lock ≠ some (.proc p)) (hp : s.req p = some r) : r.posted = true := by
  obtain ⟨v, hv, -, -, hr⟩ := req_some hp
  cases hf : r.posted with
  | true => rfl
  | false => exact absurd (h.lock p v hv (hr hf)) hl

/-- A step that changes nothing that a process knows of itself. -/
theorem Inv.keep (h : Inv s) (hv : s'.view = s.view) (hq : s'.panicked = none)
    (hl : ∀ p v, s.view p = some v → v.holds = true → s'.lock = some (.proc p)) (hc : Chains s'.disk s.req)
    (hf : Flight s'.disk s'.bdisk s.req s'.taken s'.pending) : Inv s' := by
  have hr : s'.req = s.req := by
    funext p
    rw [State.req, hv, State.req]
  refine ⟨hq, ?_, ?_, by rw [hr]; exact hc, by rw [hr]; exact hf⟩
  · rw [hv]
    exact hl
  · rw [hv]
    exact h.bufs

variable [DecidableEq P] {x : Option (View B)}

/-- A step of process `p` that finds the lock free or its own. -/
theorem Inv.of_update (h : Inv s) (hv : s'.view = update s.view p x) (hq : s'.panicked = none)
    (hl : ∀ q v, q ≠ p → s.view q = some v → v.holds = true → s'.lock = some (.proc q))
    (hlock : ∀ v, x = some v → v.holds = true → s'.lock = some (.proc p))
    (hbuf : ∀ v, x = some v → ∀ q v', q ≠ p → s.view q = some v' → v'.buf ≠ v.buf)
    (hc : Chains s'.disk (update s.req p (x.bind View.req)))
    (hf : Flight s'.disk s'.bdisk (update s.req p (x.bind View.req)) s'.taken s'.pending) : Inv s' := by
  have hr : s'.req = update s.req p (x.bind View.req) := by
    funext q
    rw [State.req, hv]
    by_cases hqp : q = p
    · rw [hqp, update_self, update_self]
    · rw [update_of_ne hqp, update_of_ne hqp]
      rfl
  refine ⟨hq, fun q v hvq hh => ?_, fun q q' v v' hvq hvq' hb => ?_, by rw [hr]; exact hc, by rw [hr]; exact hf⟩
  · by_cases hqp : q = p
    · rw [hv, hqp, update_self] at hvq
      rw [hqp]
      exact hlock v hvq hh
    · rw [hv, update_of_ne hqp] at hvq
      exact hl q v hqp hvq hh
  · rw [hv] at hvq hvq'
    by_cases hqp : q = p <;> by_cases hqp' : q' = p
    · rw [hqp, hqp']
    · rw [hqp, update_self] at hvq
      rw [update_of_ne hqp'] at hvq'
      exact absurd hb.symm (hbuf v hvq q' v' hqp' hvq')
    · rw [hqp', update_self] at hvq'
      rw [update_of_ne hqp] at hvq
      exact absurd hb (hbuf v' hvq' q v hqp hvq)
    · rw [update_of_ne hqp] at hvq
      rw [update_of_ne hqp'] at hvq'
      exact h.bufs q q' v v' hvq hvq' hb

/-- A process whose buffer stays the same, while the lock is free or its own. -/
theorem Inv.advance {v w : View B} (h : Inv s) (hp : s.view p = some v)
    (hv : s'.view = update s.view p (some w)) (hbuf : w.buf = v.buf) (hq : s'.panicked = none)
    (hl : s.lock = none ∨ s.lock = some (.proc p)) (hlock : w.holds = true → s'.lock = some (.proc p))
    (hc : Chains s'.disk (update s.req p w.req))
    (hf : Flight s'.disk s'.bdisk (update s.req p w.req) s'.taken s'.pending) : Inv s' := by
  refine h.of_update hv hq (fun q v' hqp hv' hh => ?_) (fun v' hw hh => ?_) (fun v' hw q w' hqp hw' hb => hqp ?_) hc hf
  · rcases hl with hl | hl <;> rw [h.lock q v' hv' hh] at hl <;> cases hl
    exact absurd rfl hqp
  · cases hw
    exact hlock hh
  · cases hw
    exact h.bufs q p w' v hw' hp (hb.trans hbuf)

/-- A process whose request stays the same, too. -/
theorem Inv.move {v w : View B} (h : Inv s) (hp : s.view p = some v)
    (hv : s'.view = update s.view p (some w)) (hbuf : w.buf = v.buf) (hreq : w.req = v.req)
    (hq : s'.panicked = none) (hl : s.lock = none ∨ s.lock = some (.proc p))
    (hlock : w.holds = true → s'.lock = some (.proc p)) (hc : Chains s'.disk s.req)
    (hf : Flight s'.disk s'.bdisk s.req s'.taken s'.pending) : Inv s' := by
  have hr : update s.req p w.req = s.req := by
    rw [hreq, update_eq_self_iff, State.req, hp]
    rfl
  refine h.advance hp hv hbuf hq hl hlock ?_ ?_
  · rw [hr]
    exact hc
  · rw [hr]
    exact hf

end Inv

/-! ## What the steps keep -/

section Steps

variable [DecidableEq P] [DecidableEq B] {s s' : State P B} {p : P} {b : B} {i j k : Fin NUM}

theorem view_setPhase (s : State P B) (p : P) (y : Option (Phase B)) :
    (s.setPhase p y).view = update s.view p (y.map Phase.view) := by
  funext q
  show (update s.phase p y q).map Phase.view = _
  by_cases hqp : q = p
  · rw [hqp, update_self, update_self]
  · rw [update_of_ne hqp, update_of_ne hqp]
    rfl

/-- To be woken makes no difference. -/
theorem view_wake {f : Phase B → Phase B} (hf : ∀ x, (f x).view = x.view) (h : s'.phase = fun q => (s.phase q).map f) :
    s'.view = s.view := by
  funext q
  rw [State.view, h, State.view, Option.map_map]
  exact congrArg (fun g => (s.phase q).map g) (funext hf)

/-- `vdisk_lock` is taken, for the first time or again. -/
theorem Inv.acquire {x y : Phase B} (h : Inv s) (hp : s.phase p = some x) (hl : s.lock = none)
    (hbuf : y.view.buf = x.view.buf) (hreq : y.view.req = x.view.req) :
    Inv { s.setPhase p (some y) with lock := some (.proc p) } := by
  have hv : s.view p = some x.view := by rw [State.view, hp]; rfl
  exact h.move hv (view_setPhase s p (some y)) hbuf hreq h.calm (.inl hl) (fun _ => rfl) h.chains h.flight

/-- What changes when `alloc3_desc` fails matters to nobody. -/
theorem Same.chains {d d' : Disk B} {req : P → Option (Req B)} (h : Same d d') (hc : Chains d req) : Chains d' req := by
  have he := h.rest
  exact hc.congr h.desc (by rw [he]) (fun x _ => by rw [he])

theorem Same.flight {d d' : Disk B} {bdisk : B → Bool} {req : P → Option (Req B)} {taken : BitVec 16}
    {pending : List (Fin NUM)} (h : Same d d') (hf : Flight d bdisk req taken pending) :
    Flight d' bdisk req taken pending := by
  have he := h.rest
  refine hf.perm (by rw [he]; rfl) (fun i hi => ?_) (by rw [he]; exact ⟨rfl, rfl⟩)
  rw [he] at hi ⊢
  exact hf.status i hi

section

variable (h : Inv s)
include h

theorem Inv.alloc {write : Bool} (hp : s.phase p = some (.alloc b write)) : Inv (s.alloc p b write) := by
  have hv : s.view p = some ⟨b, none, true⟩ := by rw [State.view, hp]; rfl
  have hr : s.req p = none := by rw [State.req, hv]; rfl
  have hl := h.lock p _ hv rfl
  rw [State.alloc]
  rcases alloc3Desc_cases s.disk with ⟨d, hd, hsame⟩ | ⟨i, j, k, hd, hij, hjk, hik, hi, hj, hk⟩
  · -- the descriptors that were taken are given back
    rw [hd]
    have hvw : (State.wakeFree { s with disk := d }).view = s.view := view_wake Phase.view_wakeFree rfl
    have hv' := view_setPhase (State.wakeFree { s with disk := d }) p (some (.asleepFree b write))
    rw [hvw] at hv'
    refine h.move hv hv' rfl rfl h.calm (.inr hl) (fun hh => ?_) (hsame.chains h.chains) (hsame.flight h.flight)
    cases hh
  · rw [hd]
    have hposted : ∀ q r, s.req q = some r → r.posted = true := by
      intro q r hq
      refine h.posted ?_ hq
      rw [hl]
      rintro ⟨⟩
      rw [hr] at hq
      cases hq
    have hb : ∀ q r, s.req q = some r → r.b ≠ b := by
      intro q r hq he
      obtain ⟨v, hvq, -, hrb, -⟩ := req_some hq
      obtain rfl := h.bufs q p v _ hvq hv (hrb.symm.trans he)
      rw [hr] at hq
      cases hq
    refine h.advance hv (view_setPhase s p (some (.post b i j k))) rfl h.calm (.inr hl) (fun _ => hl) ?_ ?_
    · exact h.chains.format hr hij hjk hik hi hj hk
    · exact h.flight.format h.chains hr hb hposted hi

theorem Inv.post (hp : s.phase p = some (.post b i j k)) :
    Inv ({ s with disk := { s.disk with availIdx := s.disk.availIdx + 1 } }.setPhase p (some (.check b i j k))) := by
  have hv : s.view p = some ⟨b, some ⟨b, i, j, k, false⟩, true⟩ := by rw [State.view, hp]; rfl
  have hr : s.req p = some ⟨b, i, j, k, false⟩ := by rw [State.req, hv]; rfl
  have hl := h.lock p _ hv rfl
  refine h.advance hv (view_setPhase s p (some (.check b i j k))) rfl h.calm (.inr hl) (fun _ => hl) ?_ ?_
  · exact (h.chains.post hr).congr (fun _ _ => rfl) rfl (fun _ _ => rfl)
  · refine h.flight.post h.chains hr fun q r hq hn => ?_
    obtain ⟨v, hvq, -, -, hh⟩ := req_some hq
    have hlq := h.lock q v hvq (hh hn)
    rw [hl] at hlq
    cases hlq
    rfl

theorem Inv.check (hp : s.phase p = some (.check b i j k)) : Inv (s.check p b i j k) := by
  have hv : s.view p = some ⟨b, some ⟨b, i, j, k, true⟩, true⟩ := by rw [State.view, hp]; rfl
  have hr : s.req p = some ⟨b, i, j, k, true⟩ := by rw [State.req, hv]; rfl
  have hl := h.lock p _ hv rfl
  rw [State.check]
  cases hb : s.bdisk b with
  | true =>
    refine h.move hv (view_setPhase s p (some (.asleepBuf b i j k))) rfl rfl h.calm (.inr hl) (fun hh => ?_) h.chains
      h.flight
    cases hh
  | false =>
    dsimp only
    have hchain := h.chains.chain p _ hr
    rw [freeChain_ok hchain]
    have hvw : s.wakeFree.view = s.view := view_wake Phase.view_wakeFree rfl
    have hv' := view_setPhase s.wakeFree p (some (.leave b))
    rw [hvw] at hv'
    have hother : ∀ {x}, ¬Req.Uses ⟨b, i, j, k, true⟩ x → ∀ {α : Type} (f : Fin NUM → α) (t u v),
        update (update (update f i t) j u) k v x = f x := by
      intro x hx α f t u v
      obtain ⟨h1, h2, h3⟩ : x ≠ i ∧ x ≠ j ∧ x ≠ k := by simpa only [Req.Uses, not_or] using hx
      rw [update_of_ne h3, update_of_ne h2, update_of_ne h1]
    refine h.advance hv hv' rfl h.calm (.inr hl) (fun _ => hl) ?_ ?_
    · refine h.chains.finish hr (fun x hx => hother hx ..) (fun x hx => hother hx ..) (fun x hx => ?_) (fun x hx => ?_)
      · show update (update (update s.disk.free i true) j true) k true x = true
        simp only [update_apply]
        rcases hx with rfl | rfl | rfl <;> simp
      · exact update_of_ne (fun he => hx (.inl he)) _ _
    · refine h.flight.finish hr hb (fun q r hq => ?_) (fun _ => rfl) rfl (fun x => ?_)
      · by_cases hqp : q = p
        · rw [hqp, hr] at hq
          cases hq
          rfl
        · refine h.posted ?_ hq
          rw [hl]
          rintro ⟨⟩
          exact hqp rfl
      · show (update s.disk.info i _ x).status = _
        by_cases hxi : x = i
        · rw [hxi, update_self]
        · rw [update_of_ne hxi]

theorem Inv.leave (hp : s.phase p = some (.leave b)) : Inv { s.setPhase p none with lock := none } := by
  have hv : s.view p = some ⟨b, none, true⟩ := by rw [State.view, hp]; rfl
  have hr : update s.req p none = s.req := by
    rw [update_eq_self_iff, State.req, hv]
    rfl
  have hl := h.lock p _ hv rfl
  refine h.of_update (view_setPhase s p none) h.calm (fun q v hqp hvq hh => ?_) nofun nofun ?_ ?_
  · have hlq := h.lock q v hvq hh
    rw [hl] at hlq
    cases hlq
    exact absurd rfl hqp
  · show Chains s.disk (update s.req p none)
    rw [hr]
    exact h.chains
  · show Flight s.disk s.bdisk (update s.req p none) s.taken s.pending
    rw [hr]
    exact h.flight

/-- A step of a process inside `virtio_disk_rw`. -/
theorem Inv.run {x : Phase B} (hp : s.phase p = some x) (hs : x.step s p = some s') : Inv s' := by
  cases x with
  | enter b write | woken b i j k =>
    rw [Phase.step] at hs
    split at hs
    · cases hs
    · next hl =>
      cases hs
      exact h.acquire hp (Option.not_isSome_iff_eq_none.mp hl) rfl rfl
  | alloc b write =>
    cases hs
    exact h.alloc hp
  | asleepFree b write => cases hs
  | post b i j k =>
    cases hs
    exact h.post hp
  | check b i j k =>
    cases hs
    exact h.check hp
  | asleepBuf b i j k => cases hs
  | leave b =>
    cases hs
    exact h.leave hp

/-- A process begins. -/
theorem Inv.call {write : Bool} (hp : s.phase p = none) (hb : ∀ q x, s.phase q = some x → x.buf ≠ b) :
    Inv (s.setPhase p (some (.enter b write))) := by
  have hr : update s.req p none = s.req := by
    rw [update_eq_self_iff, State.req, State.view, hp]
    rfl
  refine h.of_update (view_setPhase s p (some (.enter b write))) h.calm (fun q v _ hvq hh => h.lock q v hvq hh)
    (fun v hv hh => ?_) (fun v hv q v' _ hvq => ?_) ?_ ?_
  · cases hv
    cases hh
  · cases hv
    obtain ⟨x, hx, rfl⟩ := Option.map_eq_some_iff.mp hvq
    have hbx := hb q x hx
    cases x <;> exact hbx
  · show Chains s.disk (update s.req p none)
    rw [hr]
    exact h.chains
  · show Flight s.disk s.bdisk (update s.req p none) s.taken s.pending
    rw [hr]
    exact h.flight

/-- The head that the interrupt handler looks at next is that of a request. -/
theorem Inv.next (hne : s.disk.seen ≠ s.disk.usedIdx) :
    ∃ p r, s.req p = some r ∧ s.bdisk r.b = true ∧ s.disk.usedRing (slot NUM s.disk.seen) = r.i.val ∧
      (s.disk.info r.i).status = 0 ∧ (s.disk.info r.i).b = some r.b := by
  have hu : s.disk.usedRing (slot NUM s.disk.seen) ∈ usedHeads s.disk := by
    rw [usedHeads, ring_pop hne]
    exact List.mem_cons_self
  obtain ⟨p, r, hr, -, hb, hi⟩ := (h.flight.mem _).mp (List.mem_append.mpr (.inr hu))
  exact ⟨p, r, hr, hb, hi, h.flight.status r.i (hi ▸ hu), (h.chains.chain p r hr).info⟩

omit h in
/-- What one turn of the interrupt handler does. -/
theorem intr_eq (hne : s.disk.seen ≠ s.disk.usedIdx) (hi : s.disk.usedRing (slot NUM s.disk.seen) = r.i.val)
    (hs : (s.disk.info r.i).status = 0) (hb : (s.disk.info r.i).b = some r.b) :
    s.intr = State.wakeBuf
      { s with bdisk := update s.bdisk r.b false, disk := { s.disk with seen := s.disk.seen + 1 } } r.b := by
  have hlt : s.disk.usedRing (slot NUM s.disk.seen) < NUM := hi ▸ r.i.isLt
  have hf : ⟨s.disk.usedRing (slot NUM s.disk.seen), hlt⟩ = r.i := Fin.ext hi
  rw [State.intr, if_pos hne]
  rw [dif_pos hlt, hf, if_neg (not_not_intro hs), hb]

theorem Inv.intr (hl : s.lock = some .intr) : Inv s.intr := by
  have hl' : ∀ q, s.lock ≠ some (.proc q) := by
    rw [hl]
    nofun
  by_cases hne : s.disk.seen ≠ s.disk.usedIdx
  · obtain ⟨p, r, hr, hb, hi, hst, hinfo⟩ := h.next hne
    rw [intr_eq hne hi hst hinfo]
    refine h.keep (view_wake (Phase.view_wakeBuf r.b) rfl) h.calm h.lock ?_ ?_
    · exact h.chains.congr (fun _ _ => rfl) rfl (fun _ _ => rfl)
    · exact h.flight.seen h.chains (fun q r' hq he => h.buf_inj hq hr he) (fun q r' hq => h.posted (hl' q) hq) hne hr hi
  · rw [State.intr, if_neg hne]
    exact h.keep rfl h.calm (fun p v hv hh => absurd (h.lock p v hv hh) (hl' p)) h.chains h.flight

theorem Inv.complete {n : Nat} {i : Fin NUM} (hn : s.pending[n]? = some i) :
    Inv { s with disk := s.disk.complete i, pending := s.pending.eraseIdx n } := by
  have hmem : i.val ∈ heads s.disk s.taken s.pending :=
    List.mem_append.mpr (.inl (List.mem_append.mpr (.inr (List.mem_map_of_mem (List.mem_of_getElem? hn)))))
  obtain ⟨p, r, hr, -, -, hi⟩ := (h.flight.mem _).mp hmem
  obtain rfl : i = r.i := Fin.ext hi
  have hchain := h.chains.chain p r hr
  refine h.keep rfl h.calm h.lock ?_ (h.flight.complete h.chains hchain hn)
  rw [complete_eq hchain]
  refine h.chains.congr (fun _ _ => rfl) rfl (fun x _ => ?_)
  show (update s.disk.info r.i _ x).b = _
  by_cases hx : x = r.i
  · rw [hx, update_self]
  · rw [update_of_ne hx]

end

/-- What a step can do. -/
inductive Steps (s : State P B) : Act P B → State P B → Prop
  | call {p : P} {b : B} {write : Bool} (hp : s.phase p = none) :
    Steps s (.call p b write) (s.setPhase p (some (.enter b write)))
  | run {p : P} {x : Phase B} {s' : State P B} (hp : s.phase p = some x) (hs : x.step s p = some s') : Steps s (.run p) s'
  | acquire (hl : s.lock = none) : Steps s .intr { s with lock := some .intr }
  | intr (hl : s.lock = some .intr) : Steps s .intr s.intr
  | take {i : Fin NUM} (hne : s.taken ≠ s.disk.availIdx) (hi : s.disk.availRing (slot NUM s.taken) = i.val) :
    Steps s .take { s with taken := s.taken + 1, pending := s.pending ++ [i] }
  | complete {n : Nat} {i : Fin NUM} (hn : s.pending[n]? = some i) :
    Steps s (.complete n) { s with disk := s.disk.complete i, pending := s.pending.eraseIdx n }
  | wake (p : P) : Steps s (.wake p)
    { s with phase := Function.update s.phase p ((s.phase p).map fun x => (x.wakeBuf x.buf).wakeFree) }

theorem step_cases (hs : step s a = some s') : Steps s a s' := by
  unfold Virtio.step at hs
  split at hs
  · cases hs
  cases a with
  | call p b write =>
    dsimp only at hs
    split at hs
    · cases hs
    · next hp =>
      cases hs
      exact .call (Option.not_isSome_iff_eq_none.mp hp)
  | run p =>
    obtain ⟨x, hx, hs⟩ := Option.bind_eq_some_iff.mp hs
    exact .run hx hs
  | intr =>
    dsimp only at hs
    split at hs
    · next hl =>
      cases hs
      exact .acquire hl
    · next hl =>
      cases hs
      exact .intr hl
    · cases hs
  | take =>
    dsimp only at hs
    split at hs
    · cases hs
    · next hne =>
      split at hs
      · cases hs
        exact .take hne rfl
      · cases hs
  | complete n =>
    obtain ⟨i, hi, rfl⟩ := Option.map_eq_some_iff.mp hs
    exact .complete hi
  | wake p =>
    cases hs
    exact .wake p

theorem view_wake_one (s : State P B) (p : P) :
    State.view { s with phase := update s.phase p ((s.phase p).map fun x => (x.wakeBuf x.buf).wakeFree) } = s.view := by
  refine (view_setPhase s p _).trans ?_
  rw [update_eq_self_iff, State.view, Option.map_map]
  refine congrArg (fun g => (s.phase p).map g) (funext fun x => ?_)
  rw [Function.comp_apply, Phase.view_wakeFree, Phase.view_wakeBuf]

theorem Inv.step (h : Inv s) (ha : a.Locked s) (hs : step s a = some s') : Inv s' := by
  cases step_cases hs with
  | call hp => exact h.call hp ha
  | run hp hs => exact h.run hp hs
  | acquire hl =>
    refine h.keep rfl h.calm (fun p v hv hh => ?_) h.chains h.flight
    have hlp := h.lock p v hv hh
    rw [hl] at hlp
    cases hlp
  | intr hl => exact h.intr hl
  | take hne hi => exact h.keep rfl h.calm h.lock h.chains (h.flight.take hne hi)
  | complete hn => exact h.complete hn
  | wake p => exact h.keep (view_wake_one s p) h.calm h.lock h.chains h.flight

theorem Inv.init : Inv (State.init : State P B) where
  calm := rfl
  lock _ _ hv := nomatch hv
  bufs _ _ _ _ hv := nomatch hv
  chains := by
    refine ⟨fun _ _ hr => ?_, fun _ _ _ _ _ hr => ?_, fun _ hx => ?_⟩
    · cases hr
    · cases hr
    · cases hx
  flight := by
    have hh : heads (State.init : State P B).disk 0 [] = [] := by simp [heads, availHeads, usedHeads, State.init]
    have hu : usedHeads (State.init : State P B).disk = [] := (List.append_eq_nil_iff.mp hh).2
    refine ⟨hh ▸ List.nodup_nil, fun h => ⟨fun hm => ?_, ?_⟩, fun i hi => ?_, fun _ _ hr => ?_⟩
    · exact absurd (hh ▸ hm) List.not_mem_nil
    · rintro ⟨_, _, hr, _⟩
      cases hr
    · exact absurd (hu ▸ hi) List.not_mem_nil
    · cases hr

theorem Reachable.inv (h : Reachable s) : Inv s := Lib.Runs.invariant h Inv.init Inv.step

/-! ## A request stays until it is completed -/

/-- A process changes nothing that another process knows of itself. -/
theorem step_view {q : P} {x : Phase B} (hs : x.step s q = some s') (hpq : p ≠ q) : s'.view p = s.view p := by
  have hset : ∀ (t : State P B) y, (t.setPhase q y).view p = t.view p := by
    intro t y
    rw [view_setPhase, update_of_ne hpq]
  have hwake : ∀ t : State P B, t.wakeFree.view = t.view := fun t => view_wake Phase.view_wakeFree rfl
  cases x with
  | enter b write | woken b i j k =>
    rw [Phase.step] at hs
    split at hs <;> cases hs
    exact hset s _
  | alloc b write =>
    cases hs
    rw [State.alloc]
    rcases alloc3Desc_cases s.disk with ⟨d, hd, -⟩ | ⟨i, j, k, hd, -⟩
    · rw [hd]
      exact (hset _ _).trans (congrFun (hwake _) p)
    · rw [hd]
      exact hset _ _
  | asleepFree b write => cases hs
  | post b i j k =>
    cases hs
    exact hset _ _
  | check b i j k =>
    cases hs
    rw [State.check]
    split
    · exact hset s _
    · dsimp only
      split
      · rfl
      · exact (hset _ _).trans (congrFun (hwake _) p)
  | asleepBuf b i j k => cases hs
  | leave b =>
    cases hs
    exact hset s _

/-- A process gives no buffer back. -/
theorem step_bdisk {x : Phase B} (hs : x.step s p = some s') (hb : s.bdisk b = true) : s'.bdisk b = true := by
  cases x with
  | alloc b' write =>
    cases hs
    rw [State.alloc]
    rcases alloc3Desc_cases s.disk with ⟨d, hd, -⟩ | ⟨i, j, k, hd, -⟩
    · rw [hd]
      exact hb
    · rw [hd]
      show update s.bdisk b' true b = true
      rw [update_apply]
      split
      · rfl
      · exact hb
  | check b' i j k =>
    cases hs
    rw [State.check]
    split
    · exact hb
    · dsimp only
      split <;> exact hb
  | enter b' write | woken b' i j k =>
    rw [Phase.step] at hs
    split at hs <;> cases hs
    exact hb
  | asleepFree b' write | asleepBuf b' i j k => cases hs
  | post b' i j k | leave b' =>
    cases hs
    exact hb

/-- A process waits for its own request while the disk has its buffer. -/
theorem step_req {x : Phase B} (hp : s.phase p = some x) (hs : x.step s p = some s') (hr : s.req p = some r)
    (hposted : r.posted = true) (hb : s.bdisk r.b = true) : s'.req p = some r := by
  have hr' : x.view.req = some r := by
    rw [State.req, State.view, hp] at hr
    exact hr
  have hset : ∀ y : Phase B, y.view.req = some r → (s.setPhase p (some y)).req p = some r := by
    intro y hy
    rw [State.req, view_setPhase, update_self]
    exact hy
  cases x with
  | check b i j k =>
    cases hr'
    cases hs
    rw [State.check, if_pos hb]
    exact hset (.asleepBuf b i j k) rfl
  | woken b i j k =>
    cases hr'
    rw [Phase.step] at hs
    split at hs <;> cases hs
    exact hset (.check b i j k) rfl
  | post b i j k =>
    cases hr'
    cases hposted
  | asleepBuf b i j k => cases hs
  | _ => cases hr'

/-- A posted request stays while the disk has its buffer, and only its own completion gives the buffer back. -/
theorem Inv.kept (h : Inv s) (hs : Virtio.step s a = some s') (hr : s.req p = some r)
    (hposted : r.posted = true) (hb : s.bdisk r.b = true) :
    s'.req p = some r ∧ (s'.bdisk r.b = true ∨ a = .intr ∧ s.lock = some .intr ∧ s.disk.seen ≠ s.disk.usedIdx ∧
      s.disk.usedRing (slot NUM s.disk.seen) = r.i.val) := by
  have hreq : ∀ {t : State P B}, t.view p = s.view p → t.req p = some r := by
    intro t hv
    rw [State.req, hv]
    exact hr
  cases step_cases hs with
  | @call q b write hq =>
    refine ⟨hreq ?_, .inl hb⟩
    rw [view_setPhase, update_of_ne]
    rintro rfl
    rw [State.req, State.view, hq] at hr
    cases hr
  | @run q x _ hq hs =>
    refine ⟨?_, .inl (step_bdisk hs hb)⟩
    by_cases hpq : p = q
    · subst hpq
      exact step_req hq hs hr hposted hb
    · exact hreq (step_view hs hpq)
  | acquire hl | take hne hi | complete hn => exact ⟨hr, .inl hb⟩
  | intr hl =>
    by_cases hne : s.disk.seen ≠ s.disk.usedIdx
    · obtain ⟨q, r', hr', -, hi, hst, hinfo⟩ := h.next hne
      rw [intr_eq hne hi hst hinfo]
      refine ⟨hreq (congrFun (view_wake (Phase.view_wakeBuf r'.b) rfl) p), ?_⟩
      by_cases hbb : r.b = r'.b
      · obtain rfl := h.buf_inj hr hr' hbb
        rw [hr] at hr'
        cases hr'
        exact .inr ⟨rfl, hl, hne, hi⟩
      · refine .inl ?_
        show update s.bdisk r'.b false r.b = true
        rw [update_of_ne hbb]
        exact hb
    · rw [State.intr, if_neg hne]
      exact ⟨hr, .inl hb⟩
  | wake q => exact ⟨hreq (congrFun (view_wake_one s q) p), .inl hb⟩

end Steps

/-! ## What the driver promises -/

section Bookkept

variable [DecidableEq P] [DecidableEq B]

/-- The descriptors, the rings and the buffers are in order. -/
structure Bookkept (s : State P B) : Prop where
  calm : s.panicked = none
  /-- The descriptors of a request are three, no two requests share one, and none of them is free. -/
  triple : ∀ p r, s.req p = some r → r.i ≠ r.j ∧ r.j ≠ r.k ∧ r.i ≠ r.k
  disjoint : ∀ p q r r' x, s.req p = some r → s.req q = some r' → r.Uses x → r'.Uses x → p = q
  taken : ∀ p r x, s.req p = some r → r.Uses x → s.disk.free x = false
  /-- Without requests every descriptor is free. -/
  idle : (∀ p, s.req p = none) → ∀ x, s.disk.free x = true
  /-- The heads in the avail ring, in the device and in the used ring are those of the posted requests whose buffers
  belong to the disk. -/
  once : (heads s.disk s.taken s.pending).Nodup
  flight : ∀ h, h ∈ heads s.disk s.taken s.pending ↔
    ∃ p r, s.req p = some r ∧ r.posted = true ∧ s.bdisk r.b = true ∧ h = r.i.val
  /-- The next completion is that of a request, and the interrupt handler gives back its buffer and no other. -/
  completion : s.disk.seen ≠ s.disk.usedIdx → ∃ p r, s.req p = some r ∧ s.bdisk r.b = true ∧
    s.disk.usedRing (slot NUM s.disk.seen) = r.i.val ∧ s.intr.bdisk = Function.update s.bdisk r.b false
  /-- A posted request stays the same until then. -/
  kept : ∀ a s' p r, step s a = some s' → s.req p = some r → r.posted = true → s.bdisk r.b = true →
    s'.req p = some r ∧ (s'.bdisk r.b = true ∨ a = .intr ∧ s.lock = some .intr ∧ s.disk.seen ≠ s.disk.usedIdx ∧
      s.disk.usedRing (slot NUM s.disk.seen) = r.i.val)
  /-- The next slot of each ring is not one that was not looked at yet. -/
  avail : ∀ n < (s.disk.availIdx - s.taken).toNat, slot NUM (s.taken + BitVec.ofNat 16 n) ≠ slot NUM s.disk.availIdx
  used : ∀ n < (s.disk.usedIdx - s.disk.seen).toNat,
    slot NUM (s.disk.seen + BitVec.ofNat 16 n) ≠ slot NUM s.disk.usedIdx

/-- **The bookkeeping of the disk.** It is in order in every state that processes, interrupts and a device that completes
every chain once, in any order, can reach. -/
theorem disk_bookkeeping {s : State P B} (hs : Reachable s) : Bookkept s := by
  have h := hs.inv
  refine ⟨h.calm, fun p r hr => ?_, h.chains.disj, fun p r x hr => (h.chains.chain p r hr).used x, fun hn x => ?_,
    h.flight.nodup, h.flight.mem, fun hne => ?_, fun a s' p r ha => h.kept ha, ?_, ?_⟩
  · have hc := h.chains.chain p r hr
    exact ⟨hc.ij, hc.jk, hc.ik⟩
  · cases hx : s.disk.free x with
    | true => rfl
    | false =>
      obtain ⟨p, r, hr, -⟩ := h.chains.owned x hx
      rw [hn p] at hr
      cases hr
  · obtain ⟨p, r, hr, hb, hi, hst, hinfo⟩ := h.next hne
    refine ⟨p, r, hr, hb, hi, ?_⟩
    rw [intr_eq hne hi hst hinfo]
    rfl
  · exact fun n hn => ring_ne hn (avail_lt h.chains h.flight)
  · exact fun n hn => ring_ne hn (used_lt h.chains h.flight)

/-- One request, when the device has completed it. -/
theorem disk_bookkeeping_one : ∃ s : State Unit Unit, s.disk.seen ≠ s.disk.usedIdx ∧ Reachable s ∧ Bookkept s := by
  let acts : List (Act Unit Unit) := [.run (), .run (), .run (), .run (), .take, .complete 0, .intr]
  have hcall : Reachable (State.init.setPhase () (some (.enter () true)) : State Unit Unit) := by
    refine .tail .refl ⟨.call () () true, ?_, rfl⟩
    intro _ _ h
    cases h
  have hr : Reachable ((acts.foldlM step (State.init.setPhase () (some (.enter () true)))).get (by decide)) :=
    hcall.trans (Lib.Runs.of_foldlM (by simp [acts, Act.Locked]) (Option.some_get _).symm)
  exact ⟨_, by decide, hr, disk_bookkeeping hr⟩

end Bookkept

end Xv6.Virtio
