import Xv6.Lib.Ring
import Mathlib.Data.Fintype.Card
import Xv6.Lib.Index

/-!
# The buffer cache

`bio.c`: the buffers with their fields and links, and what `bget`, `brelse`, `bpin` and `bunpin` do to them between an
acquire and a release of `bcache.lock`. A buffer is named by its index, and the links of the LRU list lead to a buffer
or to `bcache.head`, which is `none`.

A `Hold` is a buffer on its way through a process, from the `bget` that counts it to the decrement in `brelse`.
`CacheInv` is the invariant of the cache together with these holds, the blocks pinned by the log, and the contents that
were last given to every block; there is one lemma for each operation.
-/

namespace Xv6

open Lib (Ring Seg findFrom findFrom_eq)
open Function (update update_apply update_of_ne update_self)

/-- `NBUF`. -/
abbrev NBUF : Nat := 30

/-- `ROOTDEV`, the device that `fs.c` and `log.c` work on. -/
abbrev ROOTDEV : Nat := 1

/-- `struct buf`, without its lock and links. -/
structure Buf (B : Type) where
  valid : Bool
  dev : Nat
  blockno : Nat
  refcnt : Nat
  data : B

/-- `bcache`: the buffers, the links of the LRU list, and the processes that hold the sleep locks. -/
structure Bcache (B P : Type) where
  buf : Fin NBUF → Buf B
  next : Option (Fin NBUF) → Option (Fin NBUF)
  prev : Option (Fin NBUF) → Option (Fin NBUF)
  lock : Fin NBUF → Option P

namespace Bcache

variable {B P : Type}

/-- A buffer is assigned to. -/
def setBuf (c : Bcache B P) (i : Fin NBUF) (x : Buf B) : Bcache B P := { c with buf := Function.update c.buf i x }

/-- The lock of a buffer is taken or released. -/
def setLock (c : Bcache B P) (i : Fin NBUF) (o : Option P) : Bcache B P :=
  { c with lock := Function.update c.lock i o }

/-- `binit()`: the buffers are put behind the head one after the other. -/
def binit (data : B) : Bcache B P :=
  let links := (List.finRange NBUF).foldl (fun m i => Lib.insertFront m.1 m.2 i) (fun _ => none, fun _ => none)
  ⟨fun _ => ⟨false, 0, 0, 0, data⟩, links.1, links.2, fun _ => none⟩

/-- The first loop of `bget`. -/
def lookup (c : Bcache B P) (dev blockno : Nat) : Option (Fin NBUF) :=
  findFrom c.next (fun i => (c.buf i).dev = dev ∧ (c.buf i).blockno = blockno) (NBUF + 1) none

/-- The second loop of `bget`. -/
def unused (c : Bcache B P) : Option (Fin NBUF) :=
  findFrom c.prev (fun i => (c.buf i).refcnt = 0) (NBUF + 1) none

/-- `bget` up to its release of `bcache.lock`; there may be no buffer. -/
def bget (c : Bcache B P) (dev blockno : Nat) : Option (Fin NBUF × Bcache B P) :=
  match c.lookup dev blockno with
  | some i => some (i, c.setBuf i { c.buf i with refcnt := (c.buf i).refcnt + 1 })
  | none =>
    match c.unused with
    | some i => some (i, c.setBuf i { c.buf i with dev := dev, blockno := blockno, valid := false, refcnt := 1 })
    | none => none

/-- `brelse` after the sleep lock is released. -/
def put (c : Bcache B P) (i : Fin NBUF) : Bcache B P :=
  let c := c.setBuf i { c.buf i with refcnt := (c.buf i).refcnt - 1 }
  if (c.buf i).refcnt = 0 then
    let links := Lib.unlink c.next c.prev i
    let links := Lib.insertFront links.1 links.2 i
    { c with next := links.1, prev := links.2 }
  else c

/-- `bpin`. -/
def bpin (c : Bcache B P) (i : Fin NBUF) : Bcache B P :=
  c.setBuf i { c.buf i with refcnt := (c.buf i).refcnt + 1 }

/-- `bunpin`. -/
def bunpin (c : Bcache B P) (i : Fin NBUF) : Bcache B P :=
  c.setBuf i { c.buf i with refcnt := (c.buf i).refcnt - 1 }

/-- The buffer holds one of the blocks. -/
def Has (c : Bcache B P) (i : Fin NBUF) (bs : List Nat) : Prop := (c.buf i).dev = ROOTDEV ∧ (c.buf i).blockno ∈ bs

instance (c : Bcache B P) (i : Fin NBUF) (bs : List Nat) : Decidable (c.Has i bs) := inferInstanceAs (Decidable (_ ∧ _))

end Bcache

/-- Where a buffer is on its way through a process: counted by `bget` and waiting for its lock, locked, returned by
`bread` (and changed since, or not), or unlocked by `brelse` and still counted. -/
inductive HoldPc
  | waiting
  | locked
  | ready (dirty : Bool)
  | released
  deriving DecidableEq

/-- The process holds the lock of the buffer. -/
def HoldPc.locks : HoldPc → Bool
  | .locked | .ready _ => true
  | _ => false

/-- A buffer that a process got for a block. -/
structure Hold (P : Type) where
  proc : P
  buf : Fin NBUF
  blockno : Nat
  pc : HoldPc
  deriving DecidableEq

/-- The holds that are on a buffer, and those with its lock. -/
def Hold.on {P : Type} (i : Fin NBUF) (h : Hold P) : Bool := h.buf = i

/-- The hold has the lock of the buffer. -/
def Hold.locksOn {P : Type} (i : Fin NBUF) (h : Hold P) : Bool := h.buf = i && h.pc.locks

/-- The invariant of the cache: the holds of all processes, the blocks that the log has pinned, the contents last given
to every block, and the disk. -/
structure CacheInv {B P : Type} (c : Bcache B P) (holds : List (Hold P)) (pins : List Nat) (last disk : Nat → B) :
    Prop where
  ring : ∃ l, Ring c.next c.prev l ∧ ∀ i, i ∈ l
  dev : ∀ i, (c.buf i).dev = 0 ∨ (c.buf i).dev = ROOTDEV
  uniq : ∀ i j, (c.buf i).dev ≠ 0 → (c.buf i).dev = (c.buf j).dev → (c.buf i).blockno = (c.buf j).blockno → i = j
  refcnt : ∀ i, (c.buf i).refcnt = holds.countP (Hold.on i) + if c.Has i pins then 1 else 0
  hold : ∀ h ∈ holds, (c.buf h.buf).dev = ROOTDEV ∧ (c.buf h.buf).blockno = h.blockno
  owner : ∀ h ∈ holds, h.pc.locks = true → c.lock h.buf = some h.proc
  locked : ∀ i, holds.countP (Hold.locksOn i) = if (c.lock i).isSome then 1 else 0
  ready : ∀ h ∈ holds, ∀ d, h.pc = .ready d → (c.buf h.buf).valid = true
  fresh : ∀ i, (c.buf i).valid = true → (c.buf i).dev = ROOTDEV →
    (∃ h ∈ holds, h.buf = i ∧ h.pc = .ready true) ∨ (c.buf i).data = last (c.buf i).blockno
  pinned : ∀ b ∈ pins, ∃ i, (c.buf i).dev = ROOTDEV ∧ (c.buf i).blockno = b ∧ (c.buf i).valid = true
  disk : ∀ b, b ∉ pins → disk b = last b

namespace CacheInv

variable {B P : Type} {c c' : Bcache B P} {holds holds' rest : List (Hold P)} {pins : List Nat} {last disk : Nat → B}
  {i j : Fin NBUF} {b : Nat} {p : P} {d : Bool}

theorem setBuf_buf (c : Bcache B P) (i j : Fin NBUF) (x : Buf B) :
    (c.setBuf i x).buf j = if j = i then x else c.buf j := update_apply c.buf i x j

section

variable (h : CacheInv c holds pins last disk)
include h

/-- The order of the holds does not matter. -/
theorem perm (hp : holds.Perm holds') : CacheInv c holds' pins last disk where
  ring := h.ring
  dev := h.dev
  uniq := h.uniq
  refcnt i := by rw [← hp.countP_eq]; exact h.refcnt i
  hold k hk := h.hold k (hp.mem_iff.mpr hk)
  owner k hk := h.owner k (hp.mem_iff.mpr hk)
  locked i := by rw [← hp.countP_eq]; exact h.locked i
  ready k hk := h.ready k (hp.mem_iff.mpr hk)
  fresh i h1 h2 := (h.fresh i h1 h2).imp_left fun ⟨k, hk, hk'⟩ => ⟨k, hp.mem_iff.mp hk, hk'⟩
  pinned := h.pinned
  disk := h.disk

/-- The list has all buffers, in both directions. -/
theorem lookup_eq (f : Fin NBUF → Bool) : (∀ i, findFrom c.next f (NBUF + 1) none = some i → f i = true) ∧
    (∀ i, findFrom c.prev f (NBUF + 1) none = some i → f i = true) ∧
    (findFrom c.next f (NBUF + 1) none = none → ∀ i, f i = false) ∧
    (findFrom c.prev f (NBUF + 1) none = none → ∀ i, f i = false) := by
  obtain ⟨l, hl, hall⟩ := h.ring
  have hlen : l.length < NBUF + 1 := by
    have := hl.nodup.length_le_card
    simp only [Fintype.card_fin] at this
    omega
  rw [findFrom_eq f hl.fwd hlen, findFrom_eq f hl.bwd (by rwa [List.length_reverse])]
  refine ⟨fun i hi => List.find?_some hi, fun i hi => List.find?_some hi, fun hn i => ?_, fun hn i => ?_⟩
  · simpa using List.find?_eq_none.mp hn i (hall i)
  · simpa using List.find?_eq_none.mp hn i (List.mem_reverse.mpr (hall i))

omit h in
/-- A buffer that is assigned to without a change of its block. -/
theorem setBuf_id {x : Buf B} (h1 : x.dev = (c.buf i).dev) (h2 : x.blockno = (c.buf i).blockno) (j : Fin NBUF) :
    ((c.setBuf i x).buf j).dev = (c.buf j).dev ∧ ((c.setBuf i x).buf j).blockno = (c.buf j).blockno := by
  rw [setBuf_buf]
  split
  · next e => rw [e]; exact ⟨h1, h2⟩
  · exact ⟨rfl, rfl⟩

/-- The part of the invariant that stays when no buffer changes its block. -/
theorem of_same_id
    (hid : ∀ j, (c'.buf j).dev = (c.buf j).dev ∧ (c'.buf j).blockno = (c.buf j).blockno) {pins' : List Nat}
    {last' disk' : Nat → B} (ring : ∃ l, Ring c'.next c'.prev l ∧ ∀ i, i ∈ l)
    (refcnt : ∀ i, (c'.buf i).refcnt = holds'.countP (Hold.on i) + if c.Has i pins' then 1 else 0)
    (hold : ∀ h ∈ holds', (c.buf h.buf).dev = ROOTDEV ∧ (c.buf h.buf).blockno = h.blockno)
    (owner : ∀ h ∈ holds', h.pc.locks = true → c'.lock h.buf = some h.proc)
    (locked : ∀ i, holds'.countP (Hold.locksOn i) = if (c'.lock i).isSome then 1 else 0)
    (ready : ∀ h ∈ holds', ∀ d, h.pc = .ready d → (c'.buf h.buf).valid = true)
    (fresh : ∀ i, (c'.buf i).valid = true → (c.buf i).dev = ROOTDEV →
      (∃ h ∈ holds', h.buf = i ∧ h.pc = .ready true) ∨ (c'.buf i).data = last' (c.buf i).blockno)
    (pinned : ∀ b ∈ pins', ∃ i, (c.buf i).dev = ROOTDEV ∧ (c.buf i).blockno = b ∧ (c'.buf i).valid = true)
    (disk : ∀ b, b ∉ pins' → disk' b = last' b) : CacheInv c' holds' pins' last' disk' where
  ring := ring
  dev i := by rw [(hid i).1]; exact h.dev i
  uniq i j := by rw [(hid i).1, (hid j).1, (hid i).2, (hid j).2]; exact h.uniq i j
  refcnt i := by simp only [Bcache.Has, (hid i).1, (hid i).2]; exact refcnt i
  hold k hk := by rw [(hid k.buf).1, (hid k.buf).2]; exact hold k hk
  owner := owner
  locked := locked
  ready := ready
  fresh i := by rw [(hid i).1, (hid i).2]; exact fresh i
  pinned b hb := by
    obtain ⟨i, h1, h2, h3⟩ := pinned b hb
    exact ⟨i, (hid i).1.trans h1, (hid i).2.trans h2, h3⟩
  disk := disk

/-- `bget` finds the block. -/
theorem hit (hi : (c.buf i).dev = ROOTDEV ∧ (c.buf i).blockno = b) :
    CacheInv (c.bpin i) (⟨p, i, b, .waiting⟩ :: holds) pins last disk := by
  have hv : ∀ j, ((c.bpin i).buf j).valid = (c.buf j).valid ∧ ((c.bpin i).buf j).data = (c.buf j).data := fun j => by
    unfold Bcache.bpin
    rw [setBuf_buf]
    split
    · next e => rw [e]; exact ⟨rfl, rfl⟩
    · exact ⟨rfl, rfl⟩
  have hid : ∀ j, ((c.bpin i).buf j).dev = (c.buf j).dev ∧ ((c.bpin i).buf j).blockno = (c.buf j).blockno := by
    exact setBuf_id rfl rfl
  refine h.of_same_id hid h.ring (fun j => ?_) (fun k hk => ?_) (fun k hk hl => ?_) (fun j => ?_)
    (fun k hk d hd => ?_) (fun j h1 h2 => ?_) (fun b hb => ?_) h.disk
  · unfold Bcache.bpin
    rw [setBuf_buf, List.countP_cons]
    have := h.refcnt j
    by_cases he : j = i
    · subst he
      simp only [if_true, show Hold.on j ⟨p, j, b, .waiting⟩ = true from decide_eq_true rfl]
      omega
    · have he' : i ≠ j := fun e => he e.symm
      simpa [Hold.on, he, he'] using this
  · rcases List.mem_cons.mp hk with rfl | hk
    · exact hi
    · exact h.hold k hk
  · rcases List.mem_cons.mp hk with rfl | hk
    · cases hl
    · exact h.owner k hk hl
  · have hl := h.locked j
    show _ = if (c.lock j).isSome then 1 else 0
    simpa [Hold.locksOn, HoldPc.locks] using hl
  · rw [(hv _).1]
    rcases List.mem_cons.mp hk with rfl | hk
    · cases hd
    · exact h.ready k hk d hd
  · rw [(hv j).1] at h1
    rw [(hv j).2]
    exact (h.fresh j h1 h2).imp_left fun ⟨k, hk, hk'⟩ => ⟨k, List.mem_cons_of_mem _ hk, hk'⟩
  · obtain ⟨j, h1, h2, h3⟩ := h.pinned b hb
    exact ⟨j, h1, h2, (hv j).1.trans h3⟩

/-- A buffer that is not counted is on nobody's way, is not locked, and has no pinned block. -/
theorem free_of_refcnt (hi : (c.buf i).refcnt = 0) : (∀ k ∈ holds, k.buf ≠ i) ∧ c.lock i = none ∧ ¬ c.Has i pins := by
  have hr := h.refcnt i
  have hon : ∀ k ∈ holds, k.buf ≠ i := fun k hk e => by
    have : 0 < holds.countP (Hold.on i) := List.countP_pos_iff.mpr ⟨k, hk, by simp [Hold.on, e]⟩
    omega
  refine ⟨hon, ?_, fun hh => ?_⟩
  · have hl := h.locked i
    have : holds.countP (Hold.locksOn i) = 0 := List.countP_eq_zero.mpr fun k hk => by simp [Hold.locksOn, hon k hk]
    cases ho : c.lock i with
    | none => rfl
    | some p => simp [ho, this] at hl
  · rw [if_pos hh] at hr
    omega

/-- `bget` recycles a buffer. -/
theorem recycle (hi : (c.buf i).refcnt = 0) (hmiss : ∀ j, ¬ ((c.buf j).dev = ROOTDEV ∧ (c.buf j).blockno = b)) :
    CacheInv (c.setBuf i { c.buf i with dev := ROOTDEV, blockno := b, valid := false, refcnt := 1 })
      (⟨p, i, b, .waiting⟩ :: holds) pins last disk := by
  obtain ⟨hon, hlock, hpin⟩ := h.free_of_refcnt hi
  -- a pinned block is in the cache, so the new block is not pinned
  have hb : b ∉ pins := fun hb => by
    obtain ⟨j, h1, h2, -⟩ := h.pinned b hb
    exact hmiss j ⟨h1, h2⟩
  constructor
  · exact h.ring
  · intro j
    rw [setBuf_buf]
    split
    · exact .inr rfl
    · exact h.dev j
  · intro j k
    simp only [setBuf_buf]
    split
    · next ej =>
      split
      · next ek => exact fun _ _ _ => ej.trans ek.symm
      · exact fun _ h1 h2 => absurd ⟨h1.symm, h2.symm⟩ (hmiss k)
    · split
      · exact fun _ h1 h2 => absurd ⟨h1, h2⟩ (hmiss j)
      · exact h.uniq j k
  · intro j
    have hr := h.refcnt j
    by_cases he : j = i
    · subst he
      have h0 : holds.countP (Hold.on j) = 0 := List.countP_eq_zero.mpr fun k hk => by simp [Hold.on, hon k hk]
      simp [Bcache.Has, setBuf_buf, hb, h0, Hold.on]
    · have he' : i ≠ j := fun e => he e.symm
      have hhas : (c.setBuf i { c.buf i with dev := ROOTDEV, blockno := b, valid := false, refcnt := 1 }).Has j pins ↔
          c.Has j pins := by simp [Bcache.Has, setBuf_buf, he]
      simp only [hhas, setBuf_buf, if_neg he]
      simpa [Hold.on, he'] using hr
  · intro k hk
    rcases List.mem_cons.mp hk with rfl | hk
    · simp [setBuf_buf]
    · rw [setBuf_buf, if_neg (hon k hk)]
      exact h.hold k hk
  · intro k hk hl
    rcases List.mem_cons.mp hk with rfl | hk
    · cases hl
    · exact h.owner k hk hl
  · intro j
    have hl := h.locked j
    show _ = if (c.lock j).isSome then 1 else 0
    simpa [Hold.locksOn, HoldPc.locks] using hl
  · intro k hk d hd
    rcases List.mem_cons.mp hk with rfl | hk
    · cases hd
    · rw [setBuf_buf, if_neg (hon k hk)]
      exact h.ready k hk d hd
  · intro j
    rw [setBuf_buf]
    split
    · exact nofun
    · exact fun h1 h2 => (h.fresh j h1 h2).imp_left fun ⟨k, hk, hk'⟩ => ⟨k, List.mem_cons_of_mem _ hk, hk'⟩
  · intro b' hb'
    obtain ⟨j, h1, h2, h3⟩ := h.pinned b' hb'
    have hj : j ≠ i := fun e => hpin (e ▸ ⟨h1, h2.symm ▸ hb'⟩)
    exact ⟨j, by rw [setBuf_buf, if_neg hj]; exact ⟨h1, h2, h3⟩⟩
  · exact h.disk

/-- **`bget`**: a buffer is counted for the process, or all buffers are in use. -/
theorem bget (p : P) (b : Nat) :
    match c.bget ROOTDEV b with
    | some (i, c') => CacheInv c' (⟨p, i, b, .waiting⟩ :: holds) pins last disk
    | none => (∀ i, ¬ ((c.buf i).dev = ROOTDEV ∧ (c.buf i).blockno = b)) ∧ ∀ i, (c.buf i).refcnt ≠ 0 := by
  unfold Bcache.bget
  cases hl : c.lookup ROOTDEV b with
  | some i =>
    have hi := (h.lookup_eq _).1 i hl
    exact h.hit (by simpa using hi)
  | none =>
    have hmiss := (h.lookup_eq _).2.2.1 hl
    cases hu : c.unused with
    | some i =>
      have hi := (h.lookup_eq _).2.1 i hu
      exact h.recycle (by simpa using hi) fun j => by simpa using hmiss j
    | none =>
      have hall := (h.lookup_eq _).2.2.2 hu
      exact ⟨fun j => by simpa using hmiss j, fun j => by simpa using hall j⟩

end

/-! ### A hold moves on -/

section Moves

variable {q q' : HoldPc}

section

variable (h : CacheInv c (⟨p, i, b, q⟩ :: rest) pins last disk) (hq : q.locks = true)
include h hq

/-- The holder of a lock is the only one. -/
theorem only_lock : c.lock i = some p ∧ ∀ k ∈ rest, k.buf = i → k.pc.locks = false := by
  have hown : c.lock i = some p := h.owner ⟨p, i, b, q⟩ List.mem_cons_self hq
  refine ⟨hown, fun k hk hi => ?_⟩
  have hl := h.locked i
  rw [List.countP_cons] at hl
  have hself : Hold.locksOn i ⟨p, i, b, q⟩ = true := by simp [Hold.locksOn, hq]
  simp only [hown, Option.isSome_some, hself] at hl
  have h0 := List.countP_eq_zero.mp (show rest.countP (Hold.locksOn i) = 0 by omega) k hk
  simpa [Hold.locksOn, hi] using h0

/-- A buffer that its process has not changed has the contents last given to its block. -/
theorem data_eq (hd : q ≠ .ready true) (hv : (c.buf i).valid = true) : (c.buf i).data = last b := by
  obtain ⟨h1, h2⟩ := h.hold _ List.mem_cons_self
  rcases h.fresh i hv h1 with ⟨k, hk, hi, hk'⟩ | hf
  · rcases List.mem_cons.mp hk with rfl | hk
    · exact absurd hk' hd
    · have := (h.only_lock hq).2 k hk hi
      rw [hk'] at this
      cases this
  · rw [hf, h2]

/-- The process of a locked buffer changes it, or what is recorded about its block. -/
theorem move_locked (hq' : q'.locks = true)
    (hid : ∀ j, (c'.buf j).dev = (c.buf j).dev ∧ (c'.buf j).blockno = (c.buf j).blockno)
    (hlinks : c'.next = c.next ∧ c'.prev = c.prev ∧ c'.lock = c.lock) {pins' : List Nat} {last' disk' : Nat → B}
    (href : ∀ j, (c'.buf j).refcnt + (if c.Has j pins then 1 else 0) =
      (c.buf j).refcnt + if c.Has j pins' then 1 else 0)
    (hother : ∀ j, j ≠ i → (c'.buf j).valid = (c.buf j).valid ∧ (c'.buf j).data = (c.buf j).data)
    (hvalid : (c'.buf i).valid = true) (hfresh : q' = .ready true ∨ (c'.buf i).data = last' b)
    (hlast : ∀ b', b' ≠ b → last' b' = last b') (hpins : ∀ b' ∈ pins', b' ∈ pins ∨ b' = b)
    (hdisk : ∀ b', b' ∉ pins' → disk' b' = last' b') : CacheInv c' (⟨p, i, b, q'⟩ :: rest) pins' last' disk' := by
  obtain ⟨hn, hp, hl⟩ := hlinks
  obtain ⟨hdev, hblk⟩ := h.hold _ List.mem_cons_self
  refine h.of_same_id hid ?_ (fun j => ?_) (fun k hk => ?_) (fun k hk hkl => ?_) (fun j => ?_) (fun k hk d hd => ?_)
    (fun j h1 h2 => ?_) (fun b' hb' => ?_) hdisk
  · rw [hn, hp]
    exact h.ring
  · have h1 := h.refcnt j
    have h2 := href j
    rw [List.countP_cons] at h1 ⊢
    have hon : Hold.on j ⟨p, i, b, q'⟩ = Hold.on j ⟨p, i, b, q⟩ := rfl
    rw [hon]
    omega
  · rcases List.mem_cons.mp hk with rfl | hk
    · exact ⟨hdev, hblk⟩
    · exact h.hold k (List.mem_cons_of_mem _ hk)
  · rw [hl]
    rcases List.mem_cons.mp hk with rfl | hk
    · exact (h.only_lock hq).1
    · exact h.owner k (List.mem_cons_of_mem _ hk) hkl
  · rw [hl, ← h.locked j, List.countP_cons, List.countP_cons]
    simp only [Hold.locksOn, hq, hq']
  · by_cases he : k.buf = i
    · rw [he]
      exact hvalid
    · rw [(hother _ he).1]
      rcases List.mem_cons.mp hk with rfl | hk
      · exact absurd rfl he
      · exact h.ready k (List.mem_cons_of_mem _ hk) d hd
  · by_cases he : j = i
    · subst he
      rw [hblk]
      exact hfresh.imp_left fun e => ⟨_, List.mem_cons_self, rfl, e⟩
    · rw [(hother j he).1] at h1
      have hb : (c.buf j).blockno ≠ b := fun e => he (h.uniq j i (by rw [h2]; decide) (by rw [h2, hdev]) (by rw [e, hblk]))
      rw [(hother j he).2, hlast _ hb]
      refine (h.fresh j h1 h2).imp_left fun ⟨k, hk, hk'⟩ => ?_
      rcases List.mem_cons.mp hk with rfl | hk
      · exact absurd hk'.1.symm he
      · exact ⟨k, List.mem_cons_of_mem _ hk, hk'⟩
  · rcases hpins b' hb' with hb' | rfl
    · obtain ⟨j, h1, h2, h3⟩ := h.pinned b' hb'
      refine ⟨j, h1, h2, ?_⟩
      by_cases he : j = i
      · rw [he]; exact hvalid
      · rw [(hother j he).1]; exact h3
    · exact ⟨i, hdev, hblk, hvalid⟩

end

theorem setBuf_other {x : Buf B} (hj : j ≠ i) :
    ((c.setBuf i x).buf j).valid = (c.buf j).valid ∧ ((c.setBuf i x).buf j).data = (c.buf j).data := by
  rw [setBuf_buf, if_neg hj]
  exact ⟨rfl, rfl⟩

theorem setBuf_refcnt {x : Buf B} (hx : x.refcnt = (c.buf i).refcnt) (j : Fin NBUF) :
    ((c.setBuf i x).buf j).refcnt = (c.buf j).refcnt := by
  rw [setBuf_buf]
  split
  · next e => rw [e]; exact hx
  · rfl

/-- `bread` has the lock and reads the block if the buffer is not valid. -/
theorem fill (h : CacheInv c (⟨p, i, b, .locked⟩ :: rest) pins last disk) :
    CacheInv (c.setBuf i { c.buf i with data := if (c.buf i).valid then (c.buf i).data else disk b, valid := true })
      (⟨p, i, b, .ready false⟩ :: rest) pins last disk := by
  obtain ⟨hdev, hblk⟩ := h.hold _ List.mem_cons_self
  apply h.move_locked
  · rfl
  · rfl
  · exact setBuf_id rfl rfl
  · exact ⟨rfl, rfl, rfl⟩
  · exact fun j => congrArg (· + _) (setBuf_refcnt (by rfl) j)
  · exact fun j hj => setBuf_other hj
  · rw [setBuf_buf, if_pos rfl]
  · right
    rw [setBuf_buf, if_pos rfl]
    split
    · next hv => exact h.data_eq rfl (by decide) hv
    · -- a pinned block would be in this buffer, and valid
      next hv =>
      refine h.disk b fun hb => hv ?_
      obtain ⟨j, h1, h2, h3⟩ := h.pinned b hb
      obtain rfl := h.uniq j i (by rw [h1]; decide) (by rw [h1, hdev]) (by rw [h2, hblk])
      exact h3
  · exact fun _ _ => rfl
  · exact fun _ => .inl
  · exact h.disk

section

variable (h : CacheInv c (⟨p, i, b, .ready d⟩ :: rest) pins last disk)
include h

/-- The process changes the data. -/
theorem modify (v : B) :
    CacheInv (c.setBuf i { c.buf i with data := v }) (⟨p, i, b, .ready true⟩ :: rest) pins last disk := by
  apply h.move_locked
  · rfl
  · rfl
  · exact setBuf_id rfl rfl
  · exact ⟨rfl, rfl, rfl⟩
  · exact fun j => congrArg (· + _) (setBuf_refcnt (by rfl) j)
  · exact fun j hj => setBuf_other hj
  · rw [setBuf_buf, if_pos rfl]
    exact h.ready _ List.mem_cons_self d rfl
  · exact .inl rfl
  · exact fun _ _ => rfl
  · exact fun _ => .inl
  · exact h.disk

/-- `bwrite`. -/
theorem bwrite : CacheInv c (⟨p, i, b, .ready false⟩ :: rest) pins (update last b (c.buf i).data)
      (update disk b (c.buf i).data) := by
  apply h.move_locked
  · rfl
  · rfl
  · exact fun _ => ⟨rfl, rfl⟩
  · exact ⟨rfl, rfl, rfl⟩
  · exact fun _ => rfl
  · exact fun _ _ => ⟨rfl, rfl⟩
  · exact h.ready _ List.mem_cons_self d rfl
  · rw [update_self]
    exact .inr rfl
  · exact fun b' hb' => update_of_ne hb' _ _
  · exact fun _ => .inl
  · intro b' hb'
    by_cases he : b' = b
    · rw [he, update_self, update_self]
    · rw [update_of_ne he, update_of_ne he]
      exact h.disk b' hb'

/-- `log_write` of a block that the log has already. -/
theorem relog (hb : b ∈ pins) :
    CacheInv c (⟨p, i, b, .ready false⟩ :: rest) pins (update last b (c.buf i).data) disk := by
  apply h.move_locked
  · rfl
  · rfl
  · exact fun _ => ⟨rfl, rfl⟩
  · exact ⟨rfl, rfl, rfl⟩
  · exact fun _ => rfl
  · exact fun _ _ => ⟨rfl, rfl⟩
  · exact h.ready _ List.mem_cons_self d rfl
  · rw [update_self]
    exact .inr rfl
  · exact fun b' hb' => update_of_ne hb' _ _
  · exact fun _ => .inl
  · intro b' hb'
    have hne : b' ≠ b := fun e => hb' (e ▸ hb)
    rw [update_of_ne hne]
    exact h.disk b' hb'

/-- `log_write` of a new block pins its buffer. -/
theorem log (hb : b ∉ pins) :
    CacheInv (c.bpin i) (⟨p, i, b, .ready false⟩ :: rest) (pins ++ [b]) (update last b (c.buf i).data) disk := by
  obtain ⟨hdev, hblk⟩ := h.hold _ List.mem_cons_self
  dsimp only at hdev hblk
  unfold Bcache.bpin
  apply h.move_locked
  · rfl
  · rfl
  · exact setBuf_id rfl rfl
  · exact ⟨rfl, rfl, rfl⟩
  · intro j
    rw [setBuf_buf]
    by_cases he : j = i
    · subst he
      have h1 : ¬ c.Has j pins := fun hh => hb (hblk ▸ hh.2)
      have h2 : c.Has j (pins ++ [b]) := ⟨hdev, by rw [hblk]; simp⟩
      rw [if_pos rfl, if_neg h1, if_pos h2]
    · have hiff : c.Has j (pins ++ [b]) ↔ c.Has j pins := by
        constructor
        · rintro ⟨h1, h2⟩
          rcases List.mem_append.mp h2 with h2 | h2
          · exact ⟨h1, h2⟩
          · exact absurd (h.uniq j i (by rw [h1]; decide) (by rw [h1, hdev]) (by rw [List.mem_singleton.mp h2, hblk])) he
        · exact fun ⟨h1, h2⟩ => ⟨h1, List.mem_append_left _ h2⟩
      rw [if_neg he, if_congr hiff rfl rfl]
  · exact fun j hj => setBuf_other hj
  · rw [setBuf_buf, if_pos rfl]
    exact h.ready _ List.mem_cons_self d rfl
  · rw [setBuf_buf, if_pos rfl, update_self]
    exact .inr rfl
  · exact fun b' hb' => update_of_ne hb' _ _
  · exact fun b' hb' => by simpa using hb'
  · intro b' hb'
    have hne : b' ≠ b := fun e => hb' (by simp [e])
    rw [update_of_ne hne]
    exact h.disk b' fun hm => hb' (List.mem_append_left _ hm)

end

theorem setLock_lock (c : Bcache B P) (i j : Fin NBUF) (o : Option P) :
    (c.setLock i o).lock j = if j = i then o else c.lock j := update_apply c.lock i o j

/-- A lock is taken or released; nothing else changes. -/
theorem move_lock (h : CacheInv c (⟨p, i, b, q⟩ :: rest) pins last disk) {o : Option P}
    (hrest : ∀ k ∈ rest, k.buf = i → k.pc.locks = false) (ho : o = if q'.locks = true then some p else none)
    (hready : ∀ d, q' ≠ .ready d) (hd : q ≠ .ready true) :
    CacheInv (c.setLock i o) (⟨p, i, b, q'⟩ :: rest) pins last disk := by
  have h0 : rest.countP (Hold.locksOn i) = 0 := List.countP_eq_zero.mpr fun k hk => by
    by_cases he : k.buf = i
    · simp [Hold.locksOn, hrest k hk he]
    · simp [Hold.locksOn, he]
  apply h.of_same_id
  · exact fun _ => ⟨rfl, rfl⟩
  · exact h.ring
  · intro j
    exact h.refcnt j
  · intro k hk
    rcases List.mem_cons.mp hk with rfl | hk
    · exact h.hold ⟨p, i, b, q⟩ List.mem_cons_self
    · exact h.hold k (List.mem_cons_of_mem _ hk)
  · intro k hk hl
    rw [setLock_lock]
    rcases List.mem_cons.mp hk with rfl | hk
    · rw [if_pos rfl, ho, if_pos hl]
    · have hne : k.buf ≠ i := fun e => by rw [hrest k hk e] at hl; cases hl
      rw [if_neg hne]
      exact h.owner k (List.mem_cons_of_mem _ hk) hl
  · intro j
    rw [setLock_lock, List.countP_cons]
    by_cases he : j = i
    · subst he
      rw [h0, ho]
      cases hq : q'.locks <;> simp [Hold.locksOn, hq]
    · have he' : i ≠ j := fun e => he e.symm
      have hl := h.locked j
      rw [if_neg he, ← hl]
      simp [Hold.locksOn, he']
  · intro k hk d hd
    rcases List.mem_cons.mp hk with rfl | hk
    · exact absurd hd (hready d)
    · exact h.ready k (List.mem_cons_of_mem _ hk) d hd
  · intro j h1 h2
    refine (h.fresh j h1 h2).imp_left fun ⟨k, hk, hk'⟩ => ?_
    rcases List.mem_cons.mp hk with rfl | hk
    · exact absurd hk'.2 hd
    · exact ⟨k, List.mem_cons_of_mem _ hk, hk'⟩
  · exact h.pinned
  · exact h.disk

/-- `acquiresleep` gets the lock. -/
theorem acquire (h : CacheInv c (⟨p, i, b, .waiting⟩ :: rest) pins last disk) (hfree : c.lock i = none) :
    CacheInv (c.setLock i (some p)) (⟨p, i, b, .locked⟩ :: rest) pins last disk := by
  refine h.move_lock (fun k hk hi => ?_) rfl (by simp) (by simp)
  cases hl : k.pc.locks with
  | false => rfl
  | true =>
    have := h.owner k (List.mem_cons_of_mem _ hk) hl
    rw [hi, hfree] at this
    cases this

/-- `releasesleep`. -/
theorem release (h : CacheInv c (⟨p, i, b, .ready false⟩ :: rest) pins last disk) :
    CacheInv (c.setLock i none) (⟨p, i, b, .released⟩ :: rest) pins last disk :=
  h.move_lock (h.only_lock rfl).2 rfl (by simp) (by simp)

/-- The end of `brelse`. -/
theorem put (h : CacheInv c (⟨p, i, b, .released⟩ :: rest) pins last disk) : CacheInv (c.put i) rest pins last disk := by
  have hbuf : ∀ j, (c.put i).buf j = if j = i then { c.buf i with refcnt := (c.buf i).refcnt - 1 } else c.buf j :=
    fun j => by
      unfold Bcache.put
      dsimp only
      rw [← setBuf_buf]
      split <;> rfl
  have hlock : (c.put i).lock = c.lock := by
    unfold Bcache.put
    dsimp only
    split <;> rfl
  have hsame : ∀ j, ((c.put i).buf j).valid = (c.buf j).valid ∧ ((c.put i).buf j).data = (c.buf j).data := fun j => by
    rw [hbuf]
    split
    · next e => rw [e]; exact ⟨rfl, rfl⟩
    · exact ⟨rfl, rfl⟩
  apply h.of_same_id
  · intro j
    rw [hbuf]
    split
    · next e => rw [e]; exact ⟨rfl, rfl⟩
    · exact ⟨rfl, rfl⟩
  · obtain ⟨l, hl, hall⟩ := h.ring
    unfold Bcache.put
    dsimp only
    split
    · -- the buffer goes to the front of the list
      obtain ⟨l1, l2, rfl⟩ := List.append_of_mem (hall i)
      have hout : i ∉ l1 ++ l2 := by
        have := (List.perm_middle.nodup_iff).mp hl.nodup
        exact (List.nodup_cons.mp this).1
      refine ⟨i :: (l1 ++ l2), hl.unlink.insertFront hout, fun j => ?_⟩
      exact List.perm_middle.mem_iff.mp (hall j)
    · exact ⟨l, hl, hall⟩
  · intro j
    have hr := h.refcnt j
    rw [List.countP_cons] at hr
    rw [hbuf]
    by_cases he : j = i
    · subst he
      have hon : Hold.on j ⟨p, j, b, .released⟩ = true := decide_eq_true rfl
      rw [if_pos hon] at hr
      rw [if_pos rfl]
      dsimp only
      omega
    · have hon : Hold.on j ⟨p, i, b, .released⟩ = false := decide_eq_false fun e => he e.symm
      rw [hon] at hr
      rw [if_neg he, hr]
      simp
  · exact fun k hk => h.hold k (List.mem_cons_of_mem _ hk)
  · rw [hlock]
    exact fun k hk => h.owner k (List.mem_cons_of_mem _ hk)
  · intro j
    have hl := h.locked j
    rw [hlock, ← hl]
    simp [Hold.locksOn, HoldPc.locks]
  · intro k hk d hd
    rw [(hsame _).1]
    exact h.ready k (List.mem_cons_of_mem _ hk) d hd
  · intro j h1 h2
    rw [(hsame j).1] at h1
    rw [(hsame j).2]
    refine (h.fresh j h1 h2).imp_left fun ⟨k, hk, hk'⟩ => ?_
    rcases List.mem_cons.mp hk with rfl | hk
    · exact absurd hk'.2 (by simp)
    · exact ⟨k, hk, hk'⟩
  · intro b hb
    obtain ⟨j, h1, h2, h3⟩ := h.pinned b hb
    exact ⟨j, h1, h2, (hsame j).1.trans h3⟩
  · exact h.disk

/-- `bunpin` of a block that is on disk. -/
theorem unpin (h : CacheInv c holds (b :: pins) last disk) (hb : b ∉ pins)
    (hi : (c.buf i).dev = ROOTDEV ∧ (c.buf i).blockno = b) (hd : disk b = last b) :
    CacheInv (c.bunpin i) holds pins last disk := by
  have hsame : ∀ j, ((c.bunpin i).buf j).valid = (c.buf j).valid ∧ ((c.bunpin i).buf j).data = (c.buf j).data :=
    fun j => by
      unfold Bcache.bunpin
      rw [setBuf_buf]
      split
      · next e => rw [e]; exact ⟨rfl, rfl⟩
      · exact ⟨rfl, rfl⟩
  apply h.of_same_id
  · unfold Bcache.bunpin
    exact setBuf_id rfl rfl
  · exact h.ring
  · intro j
    have hr := h.refcnt j
    unfold Bcache.bunpin
    rw [setBuf_buf]
    by_cases he : j = i
    · subst he
      have h1 : ¬ c.Has j pins := fun hh => hb (hi.2 ▸ hh.2)
      have h2 : c.Has j (b :: pins) := ⟨hi.1, by rw [hi.2]; exact List.mem_cons_self⟩
      rw [if_pos h2] at hr
      rw [if_pos rfl, if_neg h1]
      dsimp only
      omega
    · have hiff : c.Has j (b :: pins) ↔ c.Has j pins := by
        constructor
        · rintro ⟨h1, h2⟩
          rcases List.mem_cons.mp h2 with h2 | h2
          · exact absurd (h.uniq j i (by rw [h1]; decide) (by rw [h1, hi.1]) (by rw [h2, hi.2])) he
          · exact ⟨h1, h2⟩
        · exact fun ⟨h1, h2⟩ => ⟨h1, List.mem_cons_of_mem _ h2⟩
      rw [if_neg he, hr, if_congr hiff rfl rfl]
  · exact h.hold
  · exact h.owner
  · exact h.locked
  · intro k hk d hd
    rw [(hsame _).1]
    exact h.ready k hk d hd
  · intro j h1 h2
    rw [(hsame j).1] at h1
    rw [(hsame j).2]
    exact h.fresh j h1 h2
  · intro b' hb'
    obtain ⟨j, h1, h2, h3⟩ := h.pinned b' (List.mem_cons_of_mem _ hb')
    exact ⟨j, h1, h2, (hsame j).1.trans h3⟩
  · intro b' hb'
    by_cases he : b' = b
    · rw [he]; exact hd
    · exact h.disk b' fun hm => (List.mem_cons.mp hm).elim he hb'

end Moves

/-- The links that `binit` makes. -/
theorem binit_ring (data : B) : ∃ l, Ring (Bcache.binit data : Bcache B P).next (Bcache.binit data : Bcache B P).prev l ∧
    ∀ i, i ∈ l := by
  have key : ∀ (is l : List (Fin NBUF)) m, Ring m.1 m.2 l → (is.reverse ++ l).Nodup →
      Ring (is.foldl (fun m i => Lib.insertFront m.1 m.2 i) m).1 (is.foldl (fun m i => Lib.insertFront m.1 m.2 i) m).2
        (is.reverse ++ l) := by
    intro is
    induction is with
    | nil => exact fun l m h _ => h
    | cons i is ih =>
      intro l m h hn
      rw [List.reverse_cons, List.append_assoc] at hn ⊢
      have hi : i ∉ l := (List.nodup_cons.mp (List.nodup_append.mp hn).2.1).1
      exact ih (i :: l) _ (h.insertFront hi) hn
  refine ⟨_, key (List.finRange NBUF) [] _ ⟨rfl, rfl, List.nodup_nil⟩ ?_, fun i => ?_⟩
  · rw [List.append_nil]
    exact List.nodup_reverse.mpr (List.nodup_finRange NBUF)
  · rw [List.append_nil]
    exact List.mem_reverse.mpr (List.mem_finRange i)

/-- The empty cache. -/
theorem binit (data : B) (disk : Nat → B) : CacheInv (Bcache.binit data : Bcache B P) [] [] disk disk where
  ring := binit_ring data
  dev _ := .inl rfl
  uniq _ _ h := absurd rfl h
  refcnt i := by
    rw [if_neg fun h => by cases h.2]
    rfl
  hold := nofun
  owner := nofun
  locked _ := rfl
  ready := nofun
  fresh _ h := by cases h
  pinned := nofun
  disk _ _ := rfl

end CacheInv

end Xv6
