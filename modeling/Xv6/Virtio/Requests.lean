import Mathlib.Data.Finset.Card
import Mathlib.Data.Fintype.Basic
import Mathlib.Data.List.Perm.Basic
import Xv6.Virtio.Model

/-!
# Requests to the disk

- `Chains`: every process with a request has three descriptors of its own, chained to one another;
- `Flight`: the heads in the avail ring, in the device and in the used ring are those of the requests that have been
  posted and whose buffers belong to the disk, each once.

For each thing that the driver and the device do to a request there is a lemma that it keeps the two.
-/

namespace Xv6.Virtio

open Lib (slot window)
open Function (update update_eq_self update_idem update_of_ne update_self)

variable {P B : Type}
variable {b a : BitVec 16} {free : Fin NUM → Bool} {ring : Fin NUM → Nat}

theorem num_dvd : NUM ∣ 2 ^ 16 := by decide

/-- A request: its buffer, its descriptors, and whether the device has been told about it. -/
structure Req (B : Type) where
  b : B
  i : Fin NUM
  j : Fin NUM
  k : Fin NUM
  posted : Bool

/-- The descriptors of a request. -/
def Req.Uses (r : Req B) (x : Fin NUM) : Prop := x = r.i ∨ x = r.j ∨ x = r.k

/-- What the invariant needs to know of a process inside `virtio_disk_rw`: its buffer, its request, and whether it holds
`vdisk_lock`. -/
structure View (B : Type) where
  buf : B
  req : Option (Req B)
  holds : Bool

def Phase.view : Phase B → View B
  | .enter b _ | .asleepFree b _ => ⟨b, none, false⟩
  | .alloc b _ | .leave b => ⟨b, none, true⟩
  | .post b i j k => ⟨b, some ⟨b, i, j, k, false⟩, true⟩
  | .check b i j k => ⟨b, some ⟨b, i, j, k, true⟩, true⟩
  | .asleepBuf b i j k | .woken b i j k => ⟨b, some ⟨b, i, j, k, true⟩, false⟩

def State.view (s : State P B) (p : P) : Option (View B) := (s.phase p).map Phase.view

/-- The request of a process. -/
def State.req (s : State P B) (p : P) : Option (Req B) := (s.view p).bind View.req

theorem Phase.view_wakeFree (x : Phase B) : x.wakeFree.view = x.view := by cases x <;> rfl

theorem Phase.view_wakeBuf [DecidableEq B] (b : B) (x : Phase B) : (x.wakeBuf b).view = x.view := by
  cases x with
  | asleepBuf b' i j k =>
    rw [wakeBuf]
    split <;> rfl
  | _ => rfl

/-! ## Chains of descriptors -/

/-- The descriptors of a request, as the driver has written them. -/
structure Chain (d : Disk B) (r : Req B) : Prop where
  ij : r.i ≠ r.j
  jk : r.j ≠ r.k
  ik : r.i ≠ r.k
  head : d.desc r.i = ⟨.op r.i, VRING_DESC_F_NEXT, r.j⟩
  data : (d.desc r.j).flags &&& VRING_DESC_F_NEXT ≠ 0 ∧ (d.desc r.j).next = r.k
  last : d.desc r.k = ⟨.status r.i, VRING_DESC_F_WRITE, 0⟩
  info : (d.info r.i).b = some r.b
  used : ∀ x, r.Uses x → d.free x = false

/-- The requests have different descriptors, and no other descriptor is in use. -/
structure Chains (d : Disk B) (req : P → Option (Req B)) : Prop where
  chain : ∀ p r, req p = some r → Chain d r
  disj : ∀ p q r r' x, req p = some r → req q = some r' → r.Uses x → r'.Uses x → p = q
  owned : ∀ x, d.free x = false → ∃ p r, req p = some r ∧ r.Uses x

section Chains

variable {d d' : Disk B} {r : Req B} {req : P → Option (Req B)}

theorem Chain.congr (h : Chain d r) (hd : ∀ x, r.Uses x → d'.desc x = d.desc x) (hf : ∀ x, r.Uses x → d'.free x = d.free x)
    (hi : (d'.info r.i).b = (d.info r.i).b) : Chain d' r where
  ij := h.ij
  jk := h.jk
  ik := h.ik
  head := (hd _ (.inl rfl)).trans h.head
  data := by rw [hd _ (.inr (.inl rfl))]; exact h.data
  last := (hd _ (.inr (.inr rfl))).trans h.last
  info := hi.trans h.info
  used x hx := (hf x hx).trans (h.used x hx)

/-- A change that leaves the descriptors in use and the requests alone. -/
theorem Chains.congr (h : Chains d req) (hd : ∀ x, d.free x = false → d'.desc x = d.desc x) (hf : d'.free = d.free)
    (hi : ∀ x, d.free x = false → (d'.info x).b = (d.info x).b) : Chains d' req where
  chain p r hr := by
    have hc := h.chain p r hr
    exact hc.congr (fun x hx => hd x (hc.used x hx)) (fun x _ => by rw [hf]) (hi _ (hc.used _ (.inl rfl)))
  disj := h.disj
  owned x hx := h.owned x (by rw [← hf]; exact hx)

end Chains

/-! ## Allocation -/

section Alloc

variable {d d' : Disk B} {i j k : Fin NUM}

theorem allocDesc_some (h : d.allocDesc = some (i, d')) :
    d.free i = true ∧ d' = { d with free := update d.free i false } := by
  unfold Disk.allocDesc at h
  split at h
  · cases h
  · next hf =>
    cases h
    exact ⟨List.find?_some hf, rfl⟩

theorem freeDesc_ok {desc : Fin NUM → Desc B} (h : free i = false) :
    Disk.freeDesc { d with desc := desc, free := free } i =
      .ok { d with desc := update desc i ⟨.null, 0, 0⟩, free := update free i true } := by
  simp [Disk.freeDesc, h]

/-- The descriptors in use are untouched. -/
structure Same (d d' : Disk B) : Prop where
  desc : ∀ x, d.free x = false → d'.desc x = d.desc x
  rest : d' = { d with desc := d'.desc }

/-- A descriptor is given back right after it was taken. -/
theorem Same.undo {desc : Fin NUM → Desc B} (hi : d.free i = true) (h : ∀ x, d.free x = false → desc x = d.desc x) :
    Same d { d with desc := update desc i ⟨.null, 0, 0⟩ } := by
  refine ⟨fun x hx => ?_, rfl⟩
  have hne : x ≠ i := by
    rintro rfl
    rw [hi] at hx
    cases hx
  exact (update_of_ne hne _ _).trans (h x hx)

theorem update_back {f : Fin NUM → Bool} (hi : f i = true) : update (update f i false) i true = f := by
  rw [update_idem, ← hi, update_eq_self]

theorem update_back₂ {f : Fin NUM → Bool} (hi : f i = true) (hj : f j = true) :
    update (update (update (update f i false) j false) i true) j true = f := by
  funext x
  by_cases hxj : x = j
  · rw [hxj, update_self, hj]
  rw [update_of_ne hxj]
  by_cases hxi : x = i
  · rw [hxi, update_self, hi]
  · rw [update_of_ne hxi, update_of_ne hxj, update_of_ne hxi]

/-- `alloc3_desc` takes three free descriptors, or nothing has changed that anybody looks at. -/
theorem alloc3Desc_cases (d : Disk B) :
    (∃ d', d.alloc3Desc = .ok (none, d') ∧ Same d d') ∨
      ∃ i j k, d.alloc3Desc = .ok (some (i, j, k), { d with
          free := update (update (update d.free i false) j false) k false }) ∧
        i ≠ j ∧ j ≠ k ∧ i ≠ k ∧ d.free i = true ∧ d.free j = true ∧ d.free k = true := by
  -- a descriptor that is free after `i` was taken was free before, and is another one
  have hother : ∀ {f : Fin NUM → Bool} {i j : Fin NUM}, update f i false j = true → j ≠ i ∧ f j = true := by
    intro f i j h
    by_cases hji : j = i
    · rw [hji, update_self] at h
      cases h
    · rw [update_of_ne hji] at h
      exact ⟨hji, h⟩
  unfold Disk.alloc3Desc
  cases h1 : d.allocDesc with
  | none => exact .inl ⟨d, rfl, fun _ _ => rfl, rfl⟩
  | some x =>
    obtain ⟨i, d1⟩ := x
    obtain ⟨hi, rfl⟩ := allocDesc_some h1
    dsimp only
    cases h2 : Disk.allocDesc { d with free := update d.free i false } with
    | none =>
      refine .inl ⟨_, ?_, Same.undo hi fun _ _ => rfl⟩
      show (do return (none, ← Disk.freeDesc { d with free := update d.free i false } i)) = _
      rw [freeDesc_ok (update_self i false d.free), update_back hi]
      rfl
    | some x =>
      obtain ⟨j, d2⟩ := x
      obtain ⟨hj, rfl⟩ := allocDesc_some h2
      obtain ⟨hji, hj⟩ := hother hj
      dsimp only
      cases h3 : Disk.allocDesc { d with free := update (update d.free i false) j false } with
      | none =>
        have hij : update (update d.free i false) j false i = false := by
          rw [update_of_ne hji.symm, update_self]
        refine .inl ⟨_, ?_, Same.undo hj (Same.undo hi fun _ _ => rfl).desc⟩
        have hjj : update (update (update d.free i false) j false) i true j = false := by
          rw [update_of_ne hji, update_self]
        show (do return (none, ← (← Disk.freeDesc
          { d with free := update (update d.free i false) j false } i).freeDesc j)) = _
        rw [freeDesc_ok hij]
        show (do return (none, ← Disk.freeDesc { d with desc := _, free := _ } j)) = _
        rw [freeDesc_ok hjj, update_back₂ hi hj]
        rfl
      | some x =>
        obtain ⟨k, d3⟩ := x
        obtain ⟨hk, rfl⟩ := allocDesc_some h3
        obtain ⟨hkj, hk⟩ := hother hk
        obtain ⟨hki, hk⟩ := hother hk
        exact .inr ⟨i, j, k, rfl, hji.symm, hkj.symm, hki.symm, hi, hj, hk⟩

/-- One turn of `free_chain`. -/
theorem freeChain_succ (d : Disk B) (desc : Fin NUM → Desc B) (n : Nat) (h : free i = false) :
    Disk.freeChain (n + 1) { d with desc := desc, free := free } i =
      if (desc i).flags &&& VRING_DESC_F_NEXT ≠ 0 then
        Disk.freeChain n
          { d with desc := update desc i ⟨.null, 0, 0⟩, free := update free i true } (desc i).next
      else .ok { d with desc := update desc i ⟨.null, 0, 0⟩, free := update free i true } := by
  rw [Disk.freeChain, freeDesc_ok h]
  simp only [Fin.is_lt, dite_true, Fin.eta]
  rfl

/-- The chain of a request is given back. -/
theorem freeChain_ok {r : Req B} (h : Chain d r) (info : Fin NUM → Info B) :
    Disk.freeChain (NUM + 1) { d with info := info } r.i = .ok { d with
      info := info
      desc := update (update (update d.desc r.i ⟨.null, 0, 0⟩) r.j ⟨.null, 0, 0⟩)
        r.k ⟨.null, 0, 0⟩
      free := update (update (update d.free r.i true) r.j true) r.k true } := by
  have hi : d.free r.i = false := h.used r.i (.inl rfl)
  have hj : update d.free r.i true r.j = false := by
    rw [update_of_ne h.ij.symm]
    exact h.used r.j (.inr (.inl rfl))
  have hk : update (update d.free r.i true) r.j true r.k = false := by
    rw [update_of_ne h.jk.symm, update_of_ne h.ik.symm]
    exact h.used r.k (.inr (.inr rfl))
  have hdj : update d.desc r.i ⟨.null, 0, 0⟩ r.j = d.desc r.j := update_of_ne h.ij.symm _ _
  have hdk : update (update d.desc r.i ⟨.null, 0, 0⟩) r.j ⟨.null, 0, 0⟩ r.k = d.desc r.k := by
    rw [update_of_ne h.jk.symm, update_of_ne h.ik.symm]
  have hnext : VRING_DESC_F_NEXT &&& VRING_DESC_F_NEXT ≠ 0 := by decide
  have hlast : ¬VRING_DESC_F_WRITE &&& VRING_DESC_F_NEXT ≠ 0 := by decide
  have h1 := freeChain_succ { d with info := info } d.desc 8 hi
  rw [h.head, if_pos hnext, freeChain_succ _ _ 7 hj, hdj, if_pos h.data.1, h.data.2, freeChain_succ _ _ 6 hk, hdk, h.last,
    if_neg hlast] at h1
  exact h1

end Alloc

/-! ## Requests in flight -/

/-- The heads that the device has not looked at. -/
def availHeads (d : Disk B) (taken : BitVec 16) : List Nat := window d.availRing taken (d.availIdx - taken).toNat

/-- The heads that the driver has not looked at. -/
def usedHeads (d : Disk B) : List Nat := window d.usedRing d.seen (d.usedIdx - d.seen).toNat

/-- The heads in flight. -/
def heads (d : Disk B) (taken : BitVec 16) (pending : List (Fin NUM)) : List Nat :=
  availHeads d taken ++ pending.map Fin.val ++ usedHeads d

/-- The heads in flight are those of the requests that were posted and whose buffer belongs to the disk. -/
structure Flight (d : Disk B) (bdisk : B → Bool) (req : P → Option (Req B)) (taken : BitVec 16)
    (pending : List (Fin NUM)) : Prop where
  nodup : (heads d taken pending).Nodup
  mem : ∀ h, h ∈ heads d taken pending ↔
    ∃ p r, req p = some r ∧ r.posted = true ∧ bdisk r.b = true ∧ h = r.i.val
  status : ∀ i : Fin NUM, i.val ∈ usedHeads d → (d.info i).status = 0
  /-- A request that was not posted is in the next slot of the avail ring. -/
  ready : ∀ p r, req p = some r → r.posted = false →
    bdisk r.b = true ∧ d.availRing (slot NUM d.availIdx) = r.i.val

section Flight

variable {d : Disk B} {bdisk : B → Bool} {req : P → Option (Req B)} {taken : BitVec 16} {pending : List (Fin NUM)}

section

variable (hc : Chains d req) (hf : Flight d bdisk req taken pending)
include hc hf

/-- Not every descriptor is a head in flight. -/
theorem heads_lt : (heads d taken pending).length < NUM := by
  cases hh : heads d taken pending with
  | nil => exact Nat.succ_pos 7
  | cons x xs =>
    obtain ⟨p, r, hr, -, -, -⟩ := (hf.mem x).mp (hh ▸ List.mem_cons_self)
    -- the second descriptor of this request is none
    have hj : r.j.val ∉ heads d taken pending := by
      intro hj
      obtain ⟨q, r', hr', -, -, he⟩ := (hf.mem _).mp hj
      have he : r.j = r'.i := Fin.ext he
      obtain rfl := hc.disj p q r r' r.j hr hr' (.inr (.inl rfl)) (.inl he)
      rw [hr] at hr'
      cases hr'
      exact (hc.chain p r hr).ij he.symm
    rw [← hh, ← List.toFinset_card_of_nodup hf.nodup]
    have hsub : (heads d taken pending).toFinset ⊆ (Finset.range NUM).erase r.j.val := by
      intro y hy
      have hy := List.mem_toFinset.mp hy
      refine Finset.mem_erase.mpr ⟨fun he => hj (he ▸ hy), ?_⟩
      obtain ⟨q, r', -, -, -, rfl⟩ := (hf.mem y).mp hy
      exact Finset.mem_range.mpr r'.i.isLt
    have hcard := Finset.card_le_card hsub
    rw [Finset.card_erase_of_mem (Finset.mem_range.mpr r.j.isLt), Finset.card_range] at hcard
    exact Nat.lt_of_le_of_lt hcard (by decide)

theorem avail_lt : (d.availIdx - taken).toNat < NUM := by
  have hlen := heads_lt hc hf
  rw [heads, List.length_append, List.length_append, availHeads, Lib.length_window] at hlen
  omega

theorem used_lt : (d.usedIdx - d.seen).toNat < NUM := by
  have hlen := heads_lt hc hf
  rw [heads, List.length_append, usedHeads, Lib.length_window] at hlen
  omega

end

/-- The heads move on. -/
theorem Flight.perm {d' : Disk B} {taken' : BitVec 16} {pending' : List (Fin NUM)} (hf : Flight d bdisk req taken pending)
    (hp : (heads d' taken' pending').Perm (heads d taken pending))
    (hs : ∀ i : Fin NUM, i.val ∈ usedHeads d' → (d'.info i).status = 0)
    (hr : d'.availRing = d.availRing ∧ d'.availIdx = d.availIdx) : Flight d' bdisk req taken' pending' where
  nodup := hp.nodup_iff.mpr hf.nodup
  mem h := hp.mem_iff.trans (hf.mem h)
  status := hs
  ready p r h1 h2 := by
    rw [hr.1, hr.2]
    exact hf.ready p r h1 h2

/-! The positions of the rings are counters of 16 bits. -/

theorem pos_toNat (h : a ≠ b) : (b - a).toNat = (b - (a + 1)).toNat + 1 := by bv_omega

theorem succ_toNat (h : (b - a).toNat < NUM) : (b + 1 - a).toNat = (b - a).toNat + 1 := by
  unfold NUM at h
  bv_omega

theorem add_toNat (a b : BitVec 16) : a + BitVec.ofNat 16 (b - a).toNat = b := by bv_omega

/-- An element is put at the end of a ring. -/
theorem ring_push (x : Nat) (h : (b - a).toNat < NUM) :
    window (update ring (slot NUM b) x) a (b + 1 - a).toNat = window ring a (b - a).toNat ++ [x] := by
  rw [succ_toNat h]
  have hw : window (update ring (slot NUM (a + BitVec.ofNat 16 (b - a).toNat)) x) a ((b - a).toNat + 1) =
      window ring a (b - a).toNat ++ [x] := Lib.window_push num_dvd x h
  rwa [add_toNat] at hw

/-- An element is written after the end of a ring. -/
theorem ring_write (x : Nat) (h : (b - a).toNat < NUM) :
    window (update ring (slot NUM b) x) a (b - a).toNat = window ring a (b - a).toNat := by
  have hw : window (update ring (slot NUM (a + BitVec.ofNat 16 (b - a).toNat)) x) a (b - a).toNat =
      window ring a (b - a).toNat := Lib.window_update num_dvd x (Nat.le_refl _) h
  rwa [add_toNat] at hw

/-- The slot after the end of a ring is none of the ring's. -/
theorem ring_ne {n : Nat} (hn : n < (b - a).toNat) (h : (b - a).toNat < NUM) :
    slot NUM (a + BitVec.ofNat 16 n) ≠ slot NUM b := by
  have hne : slot NUM (a + BitVec.ofNat 16 n) ≠ slot NUM (a + BitVec.ofNat 16 (b - a).toNat) :=
    Lib.slot_ne num_dvd hn (by omega)
  rwa [add_toNat] at hne

/-- An element is taken out of a ring. -/
theorem ring_pop (h : a ≠ b) :
    window ring a (b - a).toNat = ring (slot NUM a) :: window ring (a + 1) (b - (a + 1)).toNat := by
  rw [pos_toNat h, Lib.window_cons]

/-- The device takes a head. -/
theorem Flight.take {i : Fin NUM} (hf : Flight d bdisk req taken pending) (hne : taken ≠ d.availIdx)
    (hi : d.availRing (slot NUM taken) = i.val) : Flight d bdisk req (taken + 1) (pending ++ [i]) := by
  refine hf.perm ?_ hf.status ⟨rfl, rfl⟩
  have ha : availHeads d taken = i.val :: availHeads d (taken + 1) := by
    rw [availHeads, ring_pop hne, hi]
    rfl
  rw [heads, heads, ha, List.map_append, ← List.append_assoc]
  exact List.Perm.append_right _ List.perm_append_comm

/-- The device completes a chain: the status goes to the head's element of `disk.info`. -/
theorem complete_eq {r : Req B} (h : Chain d r) : d.complete r.i = { d with
    info := update d.info r.i { d.info r.i with status := 0 }
    usedRing := update d.usedRing (slot NUM d.usedIdx) r.i, usedIdx := d.usedIdx + 1 } := by
  have hj : d.follow (d.desc r.i) = d.desc r.j := by
    rw [h.head]
    exact dif_pos r.j.isLt
  have hk : d.follow (d.desc r.j) = d.desc r.k := by
    rw [Disk.follow, h.data.2]
    exact dif_pos r.k.isLt
  rw [Disk.complete, hj, hk, h.last]

theorem Flight.complete {n : Nat} {r : Req B} (hc : Chains d req) (hf : Flight d bdisk req taken pending)
    (hr : Chain d r) (hn : pending[n]? = some r.i) : Flight (d.complete r.i) bdisk req taken (pending.eraseIdx n) := by
  obtain ⟨hlt, hi⟩ := List.getElem?_eq_some_iff.mp hn
  -- the slot that the device writes is the one after the heads that the driver has not looked at
  have hu : usedHeads (d.complete r.i) = usedHeads d ++ [r.i.val] := by
    exact ring_push r.i.val (used_lt hc hf)
  have ha : availHeads (d.complete r.i) taken = availHeads d taken := by rw [complete_eq hr]; rfl
  refine hf.perm ?_ ?_ (by rw [complete_eq hr]; exact ⟨rfl, rfl⟩)
  · have hp : (r.i.val :: (pending.eraseIdx n).map Fin.val).Perm (pending.map Fin.val) := by
      have h := (List.getElem_cons_eraseIdx_perm hlt).map Fin.val
      rwa [hi] at h
    rw [heads, hu, ha, heads, List.append_assoc, List.append_assoc]
    refine List.Perm.append_left _ ?_
    rw [← List.append_assoc]
    exact List.perm_append_comm.trans (hp.append_right (usedHeads d))
  · intro i h
    rw [complete_eq hr]
    show ((update d.info r.i _) i).status = 0
    by_cases hri : i = r.i
    · rw [hri, update_self]
    · rw [update_of_ne hri]
      rw [hu] at h
      rcases List.mem_append.mp h with h | h
      · exact hf.status i h
      · exact absurd (Fin.ext (List.mem_singleton.mp h)) hri

/-- The driver looks at a completed chain. -/
theorem Flight.seen {p : P} {r : Req B} [DecidableEq B] (hc : Chains d req) (hf : Flight d bdisk req taken pending)
    (hb : ∀ q r', req q = some r' → r'.b = r.b → q = p) (hposted : ∀ q r', req q = some r' → r'.posted = true)
    (hne : d.seen ≠ d.usedIdx) (hr : req p = some r) (hi : d.usedRing (slot NUM d.seen) = r.i.val) :
    Flight { d with seen := d.seen + 1 } (update bdisk r.b false) req taken pending := by
  have hu : usedHeads d = r.i.val :: usedHeads { d with seen := d.seen + 1 } := by
    rw [usedHeads, ring_pop hne, hi]
    rfl
  have hp : (heads d taken pending).Perm (r.i.val :: heads { d with seen := d.seen + 1 } taken pending) := by
    rw [heads, hu]
    exact List.perm_middle
  obtain ⟨hni, hnd⟩ := List.nodup_cons.mp (hp.nodup_iff.mp hf.nodup)
  refine ⟨hnd, fun h => ⟨fun hh => ?_, ?_⟩, fun i hi => hf.status i ?_, fun q r' hq hn => ?_⟩
  · obtain ⟨q, r', hq, h1, h2, rfl⟩ := (hf.mem h).mp (hp.mem_iff.mpr (List.mem_cons_of_mem _ hh))
    refine ⟨q, r', hq, h1, ?_, rfl⟩
    rw [update_of_ne ?_]
    · exact h2
    · intro he
      obtain rfl := hb q r' hq he
      rw [hr] at hq
      cases hq
      exact hni hh
  · rintro ⟨q, r', hq, h1, h2, rfl⟩
    have hne : r'.b ≠ r.b := by
      intro he
      rw [he, update_self] at h2
      cases h2
    rw [update_of_ne hne] at h2
    refine (List.mem_cons.mp (hp.mem_iff.mp ((hf.mem _).mpr ⟨q, r', hq, h1, h2, rfl⟩))).resolve_left fun he => hne ?_
    obtain rfl := hc.disj q p r' r r'.i hq hr (.inl rfl) (.inl (Fin.ext he))
    rw [hr] at hq
    cases hq
    rfl
  · rw [hu]
    exact List.mem_cons_of_mem _ hi
  · rw [hposted q r' hq] at hn
    cases hn

section Requests

variable [DecidableEq P] {p : P} {Q : Req B → Prop}

/-- The requests, when that of one process has changed. -/
theorem exists_update {x : Option (Req B)} : (∃ q r, update req p x q = some r ∧ Q r) ↔
    (∃ r, x = some r ∧ Q r) ∨ ∃ q r, q ≠ p ∧ req q = some r ∧ Q r := by
  constructor
  · rintro ⟨q, r, hq, h⟩
    by_cases hqp : q = p
    · rw [hqp, update_self] at hq
      exact .inl ⟨r, hq, h⟩
    · rw [update_of_ne hqp] at hq
      exact .inr ⟨q, r, hqp, hq, h⟩
  · rintro (⟨r, hx, h⟩ | ⟨q, r, hqp, hq, h⟩)
    · exact ⟨p, r, by rw [update_self, hx], h⟩
    · exact ⟨q, r, by rw [update_of_ne hqp, hq], h⟩

theorem exists_split (p : P) : (∃ q r, req q = some r ∧ Q r) ↔
    (∃ r, req p = some r ∧ Q r) ∨ ∃ q r, q ≠ p ∧ req q = some r ∧ Q r := by
  have h : (∃ q r, update req p (req p) q = some r ∧ Q r) ↔ _ := exists_update
  rwa [update_eq_self] at h

/-- A request is written. -/
theorem Flight.format [DecidableEq B] {b : B} {write : Bool} {i j k : Fin NUM} (hc : Chains d req)
    (hf : Flight d bdisk req taken pending) (hp : req p = none) (hb : ∀ q r, req q = some r → r.b ≠ b)
    (hposted : ∀ q r, req q = some r → r.posted = true) (hi : d.free i = true) :
    Flight ({ d with free := free }.format b write i j k) (update bdisk b true)
      (update req p (some ⟨b, i, j, k, false⟩)) taken pending := by
  have hlt := avail_lt hc hf
  have hh : heads ({ d with free := free }.format b write i j k) taken pending = heads d taken pending := by
    have ha : availHeads ({ d with free := free }.format b write i j k) taken = availHeads d taken :=
      ring_write i.val hlt
    rw [heads, ha]
    rfl
  have hni : i.val ∉ heads d taken pending := by
    intro h
    obtain ⟨q, r, hq, -, -, he⟩ := (hf.mem _).mp h
    have hu := (hc.chain q r hq).used i (.inl (Fin.ext he))
    rw [hi] at hu
    cases hu
  refine ⟨by rw [hh]; exact hf.nodup, fun h => ?_, fun x hx => ?_, fun q r hq hn => ?_⟩
  · rw [hh, hf.mem, exists_update, exists_split p]
    constructor
    · rintro (⟨r, hr, -⟩ | ⟨q, r, hqp, hq, h1, h2, h3⟩)
      · rw [hp] at hr
        cases hr
      · exact .inr ⟨q, r, hqp, hq, h1, by rw [update_of_ne (hb q r hq)]; exact h2, h3⟩
    · rintro (⟨r, hr, h1, -⟩ | ⟨q, r, hqp, hq, h1, h2, h3⟩)
      · cases hr
        cases h1
      · rw [update_of_ne (hb q r hq)] at h2
        exact .inr ⟨q, r, hqp, hq, h1, h2, h3⟩
  · have hx : x.val ∈ usedHeads d := hx
    have hxi : x ≠ i := by
      rintro rfl
      exact hni (List.mem_append.mpr (.inr hx))
    show (update d.info i _ x).status = 0
    rw [update_of_ne hxi]
    exact hf.status x hx
  · by_cases hqp : q = p
    · rw [hqp, update_self] at hq
      cases hq
      exact ⟨update_self .., update_self ..⟩
    · rw [update_of_ne hqp] at hq
      rw [hposted q r hq] at hn
      cases hn

/-- A request is posted. -/
theorem Flight.post {b : B} {i j k : Fin NUM} (hc : Chains d req) (hf : Flight d bdisk req taken pending)
    (hp : req p = some ⟨b, i, j, k, false⟩) (hposted : ∀ q r, req q = some r → r.posted = false → q = p) :
    Flight { d with availIdx := d.availIdx + 1 } bdisk (update req p (some ⟨b, i, j, k, true⟩)) taken pending := by
  obtain ⟨hb, hi⟩ := hf.ready p _ hp rfl
  have ha : availHeads { d with availIdx := d.availIdx + 1 } taken = availHeads d taken ++ [i.val] := by
    have h : window (update d.availRing (slot NUM d.availIdx) (d.availRing (slot NUM d.availIdx))) taken _ = _ :=
      ring_push _ (avail_lt hc hf)
    rw [update_eq_self, hi] at h
    exact h
  have hh : (heads { d with availIdx := d.availIdx + 1 } taken pending).Perm (i.val :: heads d taken pending) := by
    rw [heads, ha, List.append_assoc, List.append_assoc, heads]
    exact List.perm_middle.trans (by rw [List.append_assoc]; rfl)
  have hni : i.val ∉ heads d taken pending := by
    intro h
    obtain ⟨q, r, hq, h1, -, he⟩ := (hf.mem _).mp h
    obtain rfl := hc.disj q p r _ i hq hp (.inl (Fin.ext he)) (.inl rfl)
    rw [hp] at hq
    cases hq
    cases h1
  refine ⟨hh.nodup_iff.mpr (List.nodup_cons.mpr ⟨hni, hf.nodup⟩), fun h => ?_, hf.status, fun q r hq hn => ?_⟩
  · rw [hh.mem_iff, List.mem_cons, hf.mem, exists_update, exists_split p]
    constructor
    · rintro (rfl | ⟨r, hr, h1, -⟩ | h)
      · exact .inl ⟨_, rfl, rfl, hb, rfl⟩
      · rw [hp] at hr
        cases hr
        cases h1
      · exact .inr h
    · rintro (⟨r, hr, -, -, h⟩ | h)
      · cases hr
        exact .inl h
      · exact .inr (.inr h)
  · by_cases hqp : q = p
    · rw [hqp, update_self] at hq
      cases hq
      cases hn
    · rw [update_of_ne hqp] at hq
      exact absurd (hposted q r hq hn) hqp

/-- A request whose buffer the disk has given back is finished. -/
theorem Flight.finish {d' : Disk B} {r : Req B} (hf : Flight d bdisk req taken pending) (hp : req p = some r)
    (hb : bdisk r.b = false) (hposted : ∀ q r, req q = some r → r.posted = true)
    (hh : ∀ taken, heads d' taken pending = heads d taken pending) (hu : usedHeads d' = usedHeads d)
    (hs : ∀ x, (d'.info x).status = (d.info x).status) :
    Flight d' bdisk (update req p none) taken pending := by
  refine ⟨by rw [hh]; exact hf.nodup, fun h => ?_, fun x hx => ?_, fun q r hq hn => ?_⟩
  · rw [hh, hf.mem, exists_update, exists_split p]
    constructor
    · rintro (⟨r', hr, -, h2, -⟩ | h)
      · rw [hp] at hr
        cases hr
        rw [hb] at h2
        cases h2
      · exact .inr h
    · rintro (⟨r', hr, -⟩ | h)
      · cases hr
      · exact .inr h
  · rw [hu] at hx
    rw [hs, hf.status x hx]
  · by_cases hqp : q = p
    · rw [hqp, update_self] at hq
      cases hq
    · rw [update_of_ne hqp] at hq
      rw [hposted q r hq] at hn
      cases hn

end Requests

end Flight

/-! ## The descriptors of a new and of a finished request -/

section Descriptors

variable [DecidableEq P] {d : Disk B} {req : P → Option (Req B)} {p : P}

theorem Chains.format {b : B} {write : Bool} {i j k : Fin NUM} (hc : Chains d req) (hp : req p = none) (hij : i ≠ j)
    (hjk : j ≠ k) (hik : i ≠ k) (hi : d.free i = true) (hj : d.free j = true) (hk : d.free k = true) :
    Chains ({ d with
        free := update (update (update d.free i false) j false) k false }.format b write i j k)
      (update req p (some ⟨b, i, j, k, false⟩)) := by
  -- a descriptor that another request uses is none of the three
  have hother : ∀ {q r x}, req q = some r → r.Uses x → x ≠ i ∧ x ≠ j ∧ x ≠ k := by
    intro q r x hq hx
    have hu := (hc.chain q r hq).used x hx
    refine ⟨?_, ?_, ?_⟩ <;> rintro rfl <;> simp_all
  have hdesc : ∀ {x}, x ≠ i ∧ x ≠ j ∧ x ≠ k → ∀ {α : Type} (f : Fin NUM → α) (u v w),
      update (update (update f i u) j v) k w x = f x := by
    rintro x ⟨h1, h2, h3⟩ α f u v w
    rw [update_of_ne h3, update_of_ne h2, update_of_ne h1]
  refine ⟨fun q r hq => ?_, fun q q' r r' x hq hq' hx hx' => ?_, fun x hx => ?_⟩
  · by_cases hqp : q = p
    · rw [hqp, update_self] at hq
      cases hq
      exact {
        ij := hij, jk := hjk, ik := hik
        head := by simp [Disk.format, hij, hik]
        data := by
          rw [Disk.format]
          simp only [update_of_ne hjk, update_self, and_true]
          cases write <;> decide
        last := update_self ..
        info := by simp [Disk.format]
        used := by rintro x (rfl | rfl | rfl) <;> simp [Disk.format, hij, hjk, hik] }
    · rw [update_of_ne hqp] at hq
      refine (hc.chain q r hq).congr (fun x hx => hdesc (hother hq hx) ..) (fun x hx => hdesc (hother hq hx) ..) ?_
      show (update d.info i _ r.i).b = _
      rw [update_of_ne (hother hq (.inl rfl)).1]
  · by_cases hqp : q = p <;> by_cases hqp' : q' = p
    · rw [hqp, hqp']
    · rw [hqp, update_self] at hq
      rw [update_of_ne hqp'] at hq'
      cases hq
      obtain ⟨h1, h2, h3⟩ := hother hq' hx'
      rcases hx with hx | hx | hx <;> contradiction
    · rw [hqp', update_self] at hq'
      rw [update_of_ne hqp] at hq
      cases hq'
      obtain ⟨h1, h2, h3⟩ := hother hq hx
      rcases hx' with hx' | hx' | hx' <;> contradiction
    · rw [update_of_ne hqp] at hq
      rw [update_of_ne hqp'] at hq'
      exact hc.disj q q' r r' x hq hq' hx hx'
  · by_cases hxu : x = i ∨ x = j ∨ x = k
    · exact ⟨p, _, update_self .., hxu⟩
    · have hx : update (update (update d.free i false) j false) k false x = false := hx
      rw [hdesc (by simpa only [not_or] using hxu)] at hx
      obtain ⟨q, r, hq, hr⟩ := hc.owned x hx
      refine exists_update.mpr (.inr ⟨q, r, ?_, hq, hr⟩)
      rintro rfl
      rw [hp] at hq
      cases hq

/-- Whether a request was posted makes no difference to its descriptors. -/
theorem Chains.post {b : B} {i j k : Fin NUM} {f g : Bool} (hc : Chains d req) (hp : req p = some ⟨b, i, j, k, f⟩) :
    Chains d (update req p (some ⟨b, i, j, k, g⟩)) := by
  -- the request of every process is the old one, but for the flag
  have hold : ∀ q r, update req p (some ⟨b, i, j, k, g⟩) q = some r →
      ∃ r', req q = some r' ∧ r' = { r with posted := r'.posted } := by
    intro q r hq
    by_cases hqp : q = p
    · rw [hqp, update_self] at hq
      cases hq
      exact ⟨_, hqp ▸ hp, rfl⟩
    · rw [update_of_ne hqp] at hq
      exact ⟨r, hq, rfl⟩
  refine ⟨fun q r hq => ?_, fun q q' r r' x hq hq' hx hx' => ?_, fun x hx => ?_⟩
  · obtain ⟨r', hr', he⟩ := hold q r hq
    have h := hc.chain q r' hr'
    rw [he] at h
    exact ⟨h.ij, h.jk, h.ik, h.head, h.data, h.last, h.info, h.used⟩
  · obtain ⟨r₁, h₁, he₁⟩ := hold q r hq
    obtain ⟨r₂, h₂, he₂⟩ := hold q' r' hq'
    exact hc.disj q q' r₁ r₂ x h₁ h₂ (by rw [he₁]; exact hx) (by rw [he₂]; exact hx')
  · obtain ⟨q, r, hq, hr⟩ := hc.owned x hx
    by_cases hqp : q = p
    · rw [hqp, hp] at hq
      cases hq
      exact ⟨p, _, update_self .., hr⟩
    · exact ⟨q, r, by rw [update_of_ne hqp, hq], hr⟩

theorem Chains.finish {d' : Disk B} {r : Req B} (hc : Chains d req) (hp : req p = some r)
    (hdesc : ∀ x, ¬r.Uses x → d'.desc x = d.desc x) (hfree : ∀ x, ¬r.Uses x → d'.free x = d.free x)
    (hused : ∀ x, r.Uses x → d'.free x = true) (hinfo : ∀ x, ¬r.Uses x → d'.info x = d.info x) :
    Chains d' (update req p none) := by
  have hold : ∀ {q r'}, update req p none q = some r' → q ≠ p ∧ req q = some r' := by
    intro q r' hq
    by_cases hqp : q = p
    · rw [hqp, update_self] at hq
      cases hq
    · rw [update_of_ne hqp] at hq
      exact ⟨hqp, hq⟩
  refine ⟨fun q r' hq => ?_, fun q q' r₁ r₂ x hq hq' hx hx' => ?_, fun x hx => ?_⟩
  · obtain ⟨hqp, hq⟩ := hold hq
    have hn : ∀ x, r'.Uses x → ¬r.Uses x := fun x hx hr => hqp (hc.disj q p r' r x hq hp hx hr)
    refine (hc.chain q r' hq).congr (fun x hx => hdesc x (hn x hx)) (fun x hx => hfree x (hn x hx)) ?_
    rw [hinfo r'.i (hn _ (.inl rfl))]
  · exact hc.disj q q' r₁ r₂ x (hold hq).2 (hold hq').2 hx hx'
  · have hxr : ¬r.Uses x := by
      intro hr
      rw [hused x hr] at hx
      cases hx
    rw [hfree x hxr] at hx
    obtain ⟨q, r', hq, hr⟩ := hc.owned x hx
    refine ⟨q, r', ?_, hr⟩
    rw [update_of_ne ?_, hq]
    rintro rfl
    rw [hp] at hq
    cases hq
    exact hxr hr

end Descriptors

end Xv6.Virtio
