import Xv6.Disk.Shared

/-!
# Processes that share an open file do not overwrite each other

In every state that is reached (`Orderly`), each chunk starts where the one before it ends, the file holds the bytes of
all chunks, the offset has moved by their lengths, and the chunks that one process has written are its data, in order and
without a gap.

Three invariants carry this: one process at a time holds the lock, and only it knows or owes the offset (`Turns`); the
processes in a transaction are counted, so that `writei` is inside one (`Counted`); the chunks are in the file and in order
(`Stays`, `InOrder`).
-/

namespace Xv6.Disk.Shared

open Lib
open Function (update update_of_ne update_self)

variable {sb : Superblock} {ip : Fin NINODE} {P : Type} [DecidableEq P]

/-! ## What a process has -/

/-- The process holds the lock of the inode. -/
def Holds : Option (Job × Stage) → Prop
  | some (_, .locked) | some (_, .called _) | some (_, .moved _) | some (_, .added _ _) | some (_, .stored _) => True
  | _ => False

/-- The process is in a transaction. -/
def InTx : Option (Job × Stage) → Prop
  | some (.write _ _ _, .head) => False
  | some (.write _ _ _, _) => True
  | _ => False

/-- What the process has moved but not yet added to the offset. -/
def debt : Option (Job × Stage) → Nat
  | some (_, .moved r) | some (_, .added r _) => r.toNat
  | _ => 0

/-- The bytes that the call of the process has written. -/
def got : Option (Job × Stage) → List (Option Byte)
  | some (.write src _ i, .moved r) | some (.write src _ i, .added r _) | some (.write src _ i, .stored r)
  | some (.write src _ i, .unlocked r) => src.bytes 0 (i + r.toNat)
  | some (.write src _ i, _) => src.bytes 0 i
  | _ => []

/-- The process has read the value of the offset. -/
def Knows (off : BitVec 32) : Option (Job × Stage) → Prop
  | some (_, .called o) => o = off
  | some (_, .added r o) => o = off ∧ r > 0
  | _ => True

def total (cs : List (Chunk P)) : Nat := (cs.map (·.bytes.length)).sum

/-- Each chunk starts where the one before it ends. -/
def Consecutive : Nat → List (Chunk P) → Prop
  | _, [] => True
  | o, c :: cs => c.start = o ∧ Consecutive (o + c.bytes.length) cs

/-- The bytes that `p` has written, chunk by chunk. -/
def written (p : P) (cs : List (Chunk P)) : List (Option Byte) :=
  (cs.filter fun c => c.write && c.proc == p).flatMap (·.bytes)

section Chunks

variable {o : Nat} {c : Chunk P} {cs : List (Chunk P)} {p : P}

omit [DecidableEq P] in
theorem total_append : total (cs ++ [c]) = total cs + c.bytes.length := by
  unfold total
  rw [List.map_append, List.sum_append]
  rfl

omit [DecidableEq P] in
theorem Consecutive.append (h : Consecutive o cs) (hc : c.start = o + total cs) : Consecutive o (cs ++ [c]) := by
  induction cs generalizing o with
  | nil => exact ⟨hc, trivial⟩
  | cons d cs ih =>
    refine ⟨h.1, ih h.2 ?_⟩
    rw [hc]
    show o + (d.bytes.length + total cs) = _
    omega

omit [DecidableEq P] in
theorem Consecutive.range (h : Consecutive o cs) (hc : c ∈ cs) : o ≤ c.start ∧ c.start + c.bytes.length ≤ o + total cs := by
  induction cs generalizing o with
  | nil => cases hc
  | cons d cs ih =>
    have htot : total (d :: cs) = d.bytes.length + total cs := rfl
    have hd := h.1
    rcases List.mem_cons.mp hc with rfl | hc
    · omega
    · have := ih h.2 hc
      omega

omit [DecidableEq P] in
/-- The last chunk ends at the end. -/
theorem Consecutive.last (h : Consecutive o cs) : cs = [] ∨ ∃ c ∈ cs, c.start + c.bytes.length = o + total cs := by
  induction cs generalizing o with
  | nil => exact .inl rfl
  | cons d cs ih =>
    have htot : total (d :: cs) = d.bytes.length + total cs := rfl
    have hd := h.1
    rcases ih h.2 with rfl | ⟨c, hc, hend⟩
    · exact .inr ⟨d, List.mem_cons_self, by rw [hd]; rfl⟩
    · exact .inr ⟨c, List.mem_cons_of_mem d hc, by omega⟩

omit [DecidableEq P] in
theorem Consecutive.disjoint (h : Consecutive o cs) : cs.Pairwise fun c d => c.start + c.bytes.length ≤ d.start := by
  induction cs generalizing o with
  | nil => exact .nil
  | cons d cs ih =>
    refine .cons (fun c hc => ?_) (ih h.2)
    rw [h.1]
    exact (h.2.range hc).1

theorem written_append : written p (cs ++ [c]) = written p cs ++ if c.write ∧ c.proc = p then c.bytes else [] := by
  unfold written
  rw [List.filter_append, List.flatMap_append]
  congr 1
  by_cases hw : c.write = true ∧ c.proc = p
  · rw [if_pos hw, List.filter_cons_of_pos (by simp [hw])]
    simp
  · rw [if_neg hw, List.filter_cons_of_neg (by simpa using hw)]
    rfl

end Chunks

/-! ## Who moves the offset -/

section Turns

variable {o₀ : Nat} {s t : Shared P} {p : P} {x : Option (Job × Stage)}

/-- One process at a time holds the lock, and between it and the others the offset is where the chunks end. -/
structure Turns (ip : Fin NINODE) (o₀ : Nat) (s : Shared P) : Prop where
  locked : ∀ p, Holds (s.call p) → (s.fs.itable ip).locked = true
  one : ∀ p q, Holds (s.call p) → Holds (s.call q) → p = q
  knows : ∀ p, Knows s.off (s.call p)
  moving : ∀ p, Holds (s.call p) → s.off.toNat + debt (s.call p) = o₀ + total s.chunks
  rest : (∀ p, ¬ Holds (s.call p)) → s.off.toNat = o₀ + total s.chunks

theorem knows_of_not_holds {off : BitVec 32} (h : ¬ Holds x) : Knows off x := by
  unfold Knows
  split
  · exact absurd trivial h
  · exact absurd trivial h
  · trivial

namespace Turns

variable (h : Turns ip o₀ s)
include h

/-- A process does something without the lock. -/
theorem outside (hp : ¬ Holds (s.call p)) (hx : ¬ Holds x) (hcall : t.call = update s.call p x)
    (hl : (t.fs.itable ip).locked = (s.fs.itable ip).locked) (hoff : t.off = s.off) (hch : t.chunks = s.chunks) :
    Turns ip o₀ t := by
  have hholds : ∀ q, Holds (t.call q) → Holds (s.call q) ∧ t.call q = s.call q := by
    intro q hq
    rw [hcall] at hq ⊢
    by_cases he : q = p
    · rw [he, update_self] at hq
      exact absurd hq hx
    · rw [update_of_ne he] at hq ⊢
      exact ⟨hq, rfl⟩
  refine ⟨fun q hq => ?_, fun q q' hq hq' => h.one q q' (hholds q hq).1 (hholds q' hq').1, fun q => ?_, fun q hq => ?_,
    fun hn => ?_⟩
  · rw [hl]
    exact h.locked q (hholds q hq).1
  · by_cases hq : Holds (t.call q)
    · rw [(hholds q hq).2, hoff]
      exact h.knows q
    · exact knows_of_not_holds hq
  · rw [(hholds q hq).2, hoff, hch]
    exact h.moving q (hholds q hq).1
  · rw [hoff, hch]
    refine h.rest fun q hq => hn q ?_
    have he : q ≠ p := by
      rintro rfl
      exact hp hq
    rw [hcall, update_of_ne he]
    exact hq

/-- A process gets the lock. -/
theorem acquire (hfree : (s.fs.itable ip).locked = false)
    (hcall : t.call = update s.call p x) (hd : debt x = 0) (hk : Knows s.off x)
    (hl : (t.fs.itable ip).locked = true) (hoff : t.off = s.off) (hch : t.chunks = s.chunks) : Turns ip o₀ t := by
  have hnone : ∀ q, ¬ Holds (s.call q) := fun q hq => by
    have := h.locked q hq
    rw [hfree] at this
    cases this
  have hholds : ∀ q, Holds (t.call q) → q = p := by
    intro q hq
    by_contra he
    rw [hcall, update_of_ne he] at hq
    exact hnone q hq
  have hp : t.call p = x := by rw [hcall, update_self]
  refine ⟨fun _ _ => hl, fun q q' hq hq' => (hholds q hq).trans (hholds q' hq').symm, fun q => ?_, fun q hq => ?_, fun _ => ?_⟩
  · by_cases hq : Holds (t.call q)
    · rw [hholds q hq, hp, hoff]
      exact hk
    · exact knows_of_not_holds hq
  · rw [hholds q hq, hp, hd, hoff, hch]
    exact h.rest hnone
  · rw [hoff, hch]
    exact h.rest hnone

/-- The process that holds the lock does something. -/
theorem inside (hp : Holds (s.call p)) (hcall : t.call = update s.call p x) (hx : Holds x)
    (hl : (t.fs.itable ip).locked = (s.fs.itable ip).locked) (hk : Knows t.off x)
    (hoff : t.off.toNat + debt x = o₀ + total t.chunks) : Turns ip o₀ t := by
  have hself : t.call p = x := by rw [hcall, update_self]
  have hholds : ∀ q, Holds (t.call q) → q = p := by
    intro q hq
    by_contra he
    rw [hcall, update_of_ne he] at hq
    exact he (h.one q p hq hp)
  refine ⟨fun q _ => hl.trans (h.locked p hp), fun q q' hq hq' => (hholds q hq).trans (hholds q' hq').symm, fun q => ?_,
    fun q hq => ?_, fun hn => absurd (hself ▸ hx) (hn p)⟩
  · by_cases hq : Holds (t.call q)
    · rw [hholds q hq, hself]
      exact hk
    · exact knows_of_not_holds hq
  · rw [hholds q hq, hself]
    exact hoff

/-- A process releases the lock. -/
theorem release (hp : Holds (s.call p)) (hd : debt (s.call p) = 0) (hx : ¬ Holds x)
    (hcall : t.call = update s.call p x) (hoff : t.off = s.off) (hch : t.chunks = s.chunks) : Turns ip o₀ t := by
  have hnone : ∀ q, ¬ Holds (t.call q) := by
    intro q hq
    rw [hcall] at hq
    by_cases he : q = p
    · rw [he, update_self] at hq
      exact hx hq
    · rw [update_of_ne he] at hq
      exact he (h.one q p hq hp)
  refine ⟨fun q hq => absurd hq (hnone q), fun q _ hq => absurd hq (hnone q), fun q => knows_of_not_holds (hnone q),
    fun q hq => absurd hq (hnone q), fun _ => ?_⟩
  have hm := h.moving p hp
  rw [hd] at hm
  rw [hoff, hch]
  exact hm

end Turns

end Turns

/-! ## Who is in a transaction -/

section Transactions

variable {s t : Shared P} {p : P} {x : Option (Job × Stage)}

/-- The processes in a transaction are among those that `log.outstanding` counts. -/
def Counted (s : Shared P) : Prop := ∃ T : Finset P, (∀ p, p ∈ T ↔ InTx (s.call p)) ∧ T.card ≤ s.fs.outstanding

theorem Counted.pos (h : Counted s) (hp : InTx (s.call p)) : 1 ≤ s.fs.outstanding := by
  obtain ⟨T, hT, hle⟩ := h
  have := Finset.card_pos.mpr ⟨p, (hT p).mpr hp⟩
  omega

variable (h : Counted s) (hcall : t.call = update s.call p x)
include h hcall

theorem Counted.same (hx : InTx x ↔ InTx (s.call p)) (hout : t.fs.outstanding = s.fs.outstanding) : Counted t := by
  obtain ⟨T, hT, hle⟩ := h
  refine ⟨T, fun q => ?_, by omega⟩
  rw [hT, hcall]
  by_cases he : q = p
  · rw [he, update_self, hx]
  · rw [update_of_ne he]

theorem Counted.begin (hx : InTx x) (hout : t.fs.outstanding = s.fs.outstanding + 1) : Counted t := by
  obtain ⟨T, hT, hle⟩ := h
  refine ⟨insert p T, fun q => ?_, ?_⟩
  · rw [Finset.mem_insert, hT, hcall]
    by_cases he : q = p
    · rw [he, update_self]
      exact iff_of_true (.inl rfl) hx
    · rw [update_of_ne he]
      exact or_iff_right he
  · have := Finset.card_insert_le p T
    omega

theorem Counted.leave (hp : InTx (s.call p)) (hx : ¬ InTx x)
    (hout : t.fs.outstanding = s.fs.outstanding - 1) : Counted t := by
  obtain ⟨T, hT, hle⟩ := h
  refine ⟨T.erase p, fun q => ?_, ?_⟩
  · rw [Finset.mem_erase, hT, hcall]
    by_cases he : q = p
    · rw [he, update_self]
      exact iff_of_false (fun h => h.1 rfl) hx
    · rw [update_of_ne he]
      exact and_iff_right he
  · rw [Finset.card_erase_of_mem ((hT p).mpr hp)]
    omega

end Transactions

/-! ## What the chunks say -/

section Data

variable {s t : Shared P} {p : P} {x : Option (Job × Stage)}

/-- The file holds the bytes of every chunk. -/
def Stays (ip : Fin NINODE) (s : Shared P) : Prop :=
  ∀ c ∈ s.chunks, c.start + c.bytes.length ≤ s.fs.size ip ∧
    ∀ j, j < c.bytes.length → c.bytes[j]? = some (some (s.fs.byte ip (c.start + j)))

/-- The chunks of a process are the bytes of its calls, one after the other. -/
def InOrder (s : Shared P) : Prop :=
  ∀ p, written p s.chunks = (s.returned p).flatMap (fun x => x.src.bytes 0 x.count) ++ got (s.call p)

omit [DecidableEq P] in
theorem Stays.grown {k : Nat} (h : Stays ip s) (hg : Grown ip k s.fs t.fs) (hch : t.chunks = s.chunks)
    (hk : ∀ c ∈ s.chunks, c.start + c.bytes.length ≤ k) : Stays ip t := by
  intro c hc
  rw [hch] at hc
  obtain ⟨h1, h2⟩ := h c hc
  have hle := hk c hc
  have hsize := hg.size
  refine ⟨by omega, fun j hj => ?_⟩
  rw [h2 j hj, hg.byte (c.start + j) (by omega) (by omega)]

theorem InOrder.same (h : InOrder s) (hcall : t.call = update s.call p x) (hch : t.chunks = s.chunks)
    (hret : t.returned = s.returned) (hx : got x = got (s.call p)) : InOrder t := by
  intro q
  rw [hch, hret, h q, hcall]
  by_cases he : q = p
  · rw [he, update_self, hx]
  · rw [update_of_ne he]

/-- A call returns. -/
theorem InOrder.finish {y : Returned} (h : InOrder s) (hcall : t.call = update s.call p none) (hch : t.chunks = s.chunks)
    (hret : t.returned = update s.returned p (s.returned p ++ [y]))
    (hx : y.src.bytes 0 y.count = got (s.call p)) : InOrder t := by
  intro q
  rw [hch, hret, h q, hcall]
  by_cases he : q = p
  · rw [he, update_self, update_self, List.flatMap_append, List.append_assoc]
    congr 1
    simp [got, hx]
  · rw [update_of_ne he, update_of_ne he]

/-- Bytes are moved. -/
theorem InOrder.gain {r : Int} {c : Chunk P} {fs : State} (h : InOrder s) (hproc : c.proc = p)
    (hx : got x = got (s.call p) ++ if r > 0 ∧ c.write then c.bytes else []) :
    InOrder ((Shared.gain { s with fs := fs } r c).go p x) := by
  intro q
  have hchunks : written q (Shared.gain { s with fs := fs } r c).chunks =
      written q s.chunks ++ if r > 0 ∧ c.write ∧ c.proc = q then c.bytes else [] := by
    unfold Shared.gain
    by_cases hr : r > 0
    · rw [if_pos hr]
      show written q (s.chunks ++ [c]) = _
      rw [written_append]
      simp only [hr, true_and]
    · rw [if_neg hr, if_neg fun h => hr h.1, List.append_nil]
  have hret : (Shared.gain { s with fs := fs } r c).returned = s.returned ∧
      (Shared.gain { s with fs := fs } r c).call = s.call := by
    unfold Shared.gain
    split
    · exact ⟨rfl, rfl⟩
    · exact ⟨rfl, rfl⟩
  show written q (Shared.gain { s with fs := fs } r c).chunks =
    ((Shared.gain { s with fs := fs } r c).returned q).flatMap _ ++
      got (update (Shared.gain { s with fs := fs } r c).call p x q)
  rw [hchunks, hret.1, hret.2, h q, List.append_assoc]
  congr 1
  by_cases he : q = p
  · rw [he, update_self, hx]
    simp only [hproc, and_true]
  · rw [update_of_ne he, if_neg fun h => he (h.2.2.symm.trans hproc), List.append_nil]

theorem bytes_add (src : Source) (i k : Nat) : src.bytes 0 (i + k) = src.bytes 0 i ++ src.bytes i k := by
  unfold Source.bytes
  rw [List.range_add, List.map_append, List.map_map]
  refine congrArg _ (List.map_congr_left fun j _ => ?_)
  show src.byte (0 + (i + j)) = _
  rw [Nat.zero_add]

end Data

/-! ## Runs -/

section Runs

variable {o₀ : Nat} {s t : Shared P} {p : P} {x : Option (Job × Stage)}

structure Inv (sb : Superblock) (ip : Fin NINODE) (o₀ : Nat) (s : Shared P) : Prop where
  start : o₀ < 2 ^ 32
  fine : Fine sb ip s.fs
  turns : Turns ip o₀ s
  counted : Counted s
  consecutive : Consecutive o₀ s.chunks
  stays : Stays ip s
  order : InOrder s
  answers : ∀ p, ∀ y ∈ s.returned p, y.ret = -1 ∨ y.ret = y.n.toInt ∧ (y.count : Int) = y.n.toInt

namespace Inv

variable (h : Inv sb ip o₀ s)
include h

/-- A step that moves no bytes. -/
theorem still (hcall : t.call = update s.call p x) (hch : t.chunks = s.chunks)
    (hret : t.returned = s.returned) (hgot : got x = got (s.call p)) (hfine : Fine sb ip t.fs)
    (hg : Grown ip (s.fs.size ip) s.fs t.fs) (hturns : Turns ip o₀ t) (hcounted : Counted t) : Inv sb ip o₀ t where
  start := h.start
  fine := hfine
  turns := hturns
  counted := hcounted
  consecutive := by
    rw [hch]
    exact h.consecutive
  stays := h.stays.grown hg hch fun c hc => (h.stays c hc).1
  order := h.order.same hcall hch hret hgot
  answers := by
    rw [hret]
    exact h.answers

/-- A process without the lock goes on, and nothing else changes. -/
theorem outside (hp : ¬ Holds (s.call p)) (hx : ¬ Holds x) (hgot : got x = got (s.call p))
    (htx : InTx x ↔ InTx (s.call p)) : Inv sb ip o₀ (s.go p x) :=
  h.still rfl rfl rfl hgot h.fine ⟨Nat.le_refl _, fun _ _ _ => rfl⟩ (h.turns.outside hp hx rfl rfl rfl rfl)
    (h.counted.same rfl htx rfl)

/-- The process that holds the lock goes on, and nothing else changes. -/
theorem inside (hp : Holds (s.call p)) (hx : Holds x) (hgot : got x = got (s.call p))
    (htx : InTx x ↔ InTx (s.call p)) (hk : Knows s.off x) (hd : debt x = debt (s.call p)) : Inv sb ip o₀ (s.go p x) := by
  refine h.still rfl rfl rfl hgot h.fine ⟨Nat.le_refl _, fun _ _ _ => rfl⟩ (h.turns.inside hp rfl hx rfl hk ?_)
    (h.counted.same rfl htx rfl)
  rw [hd]
  exact h.turns.moving p hp

/-- A call of `filewrite` returns. -/
theorem finish {y : Returned} {fs : State} (hgot : y.src.bytes 0 y.count = got (s.call p))
    (hy : y.ret = -1 ∨ y.ret = y.n.toInt ∧ (y.count : Int) = y.n.toInt) (hfine : Fine sb ip fs)
    (hg : Grown ip (s.fs.size ip) s.fs fs) (hturns : Turns ip o₀ (Shared.finish { s with fs := fs } p y))
    (hcounted : Counted (Shared.finish { s with fs := fs } p y)) : Inv sb ip o₀ (Shared.finish { s with fs := fs } p y) where
  start := h.start
  fine := hfine
  turns := hturns
  counted := hcounted
  consecutive := h.consecutive
  stays := Stays.grown h.stays hg rfl fun c hc => (h.stays c hc).1
  order := InOrder.finish h.order rfl rfl rfl hgot
  answers q z hz := by
    have hz' : z ∈ update s.returned p (s.returned p ++ [y]) q := hz
    by_cases he : q = p
    · rw [he, update_self] at hz'
      rcases List.mem_append.mp hz' with hz' | hz'
      · exact h.answers p z hz'
      · rw [List.mem_singleton.mp hz']
        exact hy
    · rw [update_of_ne he] at hz'
      exact h.answers q z hz'

/-- `readi` or `writei` returns `r`; `c` is what it has moved. -/
theorem move {job : Job} {off : BitVec 32} {r : Int} {fs : State} {c : Chunk P}
    (hp : s.call p = some (job, .called off)) (hproc : c.proc = p) (hfine : Fine sb ip fs) (hg : Grown ip off.toNat s.fs fs)
    (hout : fs.outstanding = s.fs.outstanding) (hl : (fs.itable ip).locked = (s.fs.itable ip).locked)
    (hc : r ≤ 0 ∨ c.start = off.toNat ∧ c.bytes.length = r.toNat ∧ c.start + c.bytes.length ≤ fs.size ip ∧
      ∀ j, j < c.bytes.length → c.bytes[j]? = some (some (fs.byte ip (c.start + j))))
    (hgot : got (some (job, .moved r)) = got (s.call p) ++ if r > 0 ∧ c.write then c.bytes else []) :
    Inv sb ip o₀ ((Shared.gain { s with fs := fs } r c).go p (some (job, .moved r))) := by
  have hholds : Holds (s.call p) := by
    rw [hp]
    trivial
  have hoff : off = s.off := by
    have hk := h.turns.knows p
    rw [hp] at hk
    exact hk
  have hend : s.off.toNat = o₀ + total s.chunks := by
    have hm := h.turns.moving p hholds
    rw [hp] at hm
    exact hm
  have htx : InTx (some (job, .moved r)) ↔ InTx (s.call p) := by
    rw [hp]
    cases job with
    | write src n i => exact Iff.rfl
    | read dst n => exact Iff.rfl
  have hbelow : ∀ d ∈ s.chunks, d.start + d.bytes.length ≤ off.toNat := fun d hd => by
    have := (h.consecutive.range hd).2
    rw [hoff]
    omega
  have horder : InOrder ((Shared.gain { s with fs := fs } r c).go p (some (job, .moved r))) := h.order.gain hproc hgot
  by_cases hr : r > 0
  · obtain ⟨hstart, hlen, hsize, hbytes⟩ := hc.resolve_left (by omega)
    unfold gain at horder ⊢
    rw [if_pos hr] at horder ⊢
    refine ⟨h.start, hfine, h.turns.inside hholds rfl trivial hl trivial ?_, h.counted.same rfl htx hout,
      h.consecutive.append (by rw [hstart, hoff, hend]), fun d hd => ?_, horder, h.answers⟩
    · show s.off.toNat + r.toNat = o₀ + total (s.chunks ++ [c])
      rw [total_append, hlen]
      omega
    · rcases List.mem_append.mp hd with hd | hd
      · exact Stays.grown (t := { s with fs := fs }) h.stays hg rfl hbelow d hd
      · rw [List.mem_singleton.mp hd]
        exact ⟨hsize, hbytes⟩
  · unfold gain at horder ⊢
    rw [if_neg hr] at horder ⊢
    refine ⟨h.start, hfine, h.turns.inside hholds rfl trivial hl trivial ?_, h.counted.same rfl htx hout, h.consecutive,
      Stays.grown h.stays hg rfl hbelow, horder, h.answers⟩
    show s.off.toNat + r.toNat = o₀ + total s.chunks
    omega

/-- The offset does not wrap around: the last chunk ends in the file. -/
theorem bound : o₀ + total s.chunks < 2 ^ 32 := by
  rcases h.consecutive.last with hnil | ⟨c, hc, hend⟩
  · rw [hnil]
    exact h.start
  · have hle := (h.stays c hc).1
    have hlt : s.fs.size ip < 2 ^ 32 := ((s.fs.itable ip).size).isLt
    omega

/-- **Every step keeps the invariant.** -/
theorem step (hsb : sb.Ok) (hs : Step sb ip s t) : Inv sb ip o₀ t := by
  have hsame : Grown ip (s.fs.size ip) s.fs s.fs := ⟨Nat.le_refl _, fun _ _ _ => rfl⟩
  cases hs with
  | @callWrite p src n hp | @callRead p dst n hp | @retRead p dst n r hp =>
    exact h.outside (by rw [hp]; exact id) id (by rw [hp]; rfl) (by rw [hp]; exact Iff.rfl)
  | @begin p src n i fs hp hi he =>
    have hb : Ensures beginOp s.fs _ fun _ => True := beginOp_spec fun _ => trivial
    obtain rfl := hb.result he
    refine h.still rfl rfl rfl (by rw [hp]; rfl) ?_ ⟨Nat.le_refl _, fun _ _ _ => rfl⟩ ?_ ?_
    · exact ⟨⟨h.fine.loaded.acc, h.fine.loaded.live⟩, h.fine.sync, h.fine.noHoles, h.fine.home, h.fine.len, h.fine.valid, h.fine.ref⟩
    · exact h.turns.outside (by rw [hp]; exact id) id rfl rfl rfl rfl
    · exact h.counted.begin rfl trivial rfl
  | @ret p src n i hp hi =>
    refine h.finish (by rw [hp]; rfl) ?_ h.fine hsame ?_ ?_
    · by_cases hn : i = n.toInt
      · exact .inr ⟨if_pos hn, hn⟩
      · exact .inl (if_neg hn)
    · exact h.turns.outside (by rw [hp]; exact id) id rfl rfl rfl rfl
    · exact h.counted.same rfl (by rw [hp]; exact Iff.rfl) rfl
  | @lockWrite p src n i fs hp he | @lockRead p dst n fs hp he =>
    obtain ⟨hfree, rfl⟩ := (ilock_fine h.fine).result he
    refine h.still rfl rfl rfl (by rw [hp]; rfl) (h.fine.setLocked true) (grown_setLocked _ true) ?_ ?_
    · exact h.turns.acquire hfree rfl rfl trivial (locked_setLocked s.fs true) rfl rfl
    · exact h.counted.same rfl (by rw [hp]; exact Iff.rfl) rfl
  | @call p job hp =>
    refine h.inside (by rw [hp]; trivial) trivial ?_ ?_ rfl (by rw [hp]; rfl)
    · rw [hp]
      cases job <;> rfl
    · rw [hp]
      cases job <;> exact Iff.rfl
  | @write p src n i off r fs hp he =>
    have hpos := h.counted.pos (by rw [hp]; trivial)
    obtain ⟨hfine, hg, hout, hl, hr⟩ := (writei_fine h.fine hsb hpos).result he
    refine h.move hp rfl hfine hg hout hl (hr.imp id ?_) ?_
    · rintro ⟨tot, rfl, hsize, hbytes⟩
      have hlen : (src.bytes i (tot : Int).toNat).length = tot := by simp [Source.bytes]
      refine ⟨rfl, by rw [hlen]; rfl, by rw [hlen]; exact hsize, fun j hj => ?_⟩
      rw [hlen] at hj
      have hb := hbytes j hj
      rw [Source.byte_advance] at hb
      show (src.bytes i tot)[j]? = _
      rw [← hb]
      simp [Source.bytes, hj]
    · rw [hp]
      show src.bytes 0 (i + r.toNat) = src.bytes 0 i ++ _
      rw [bytes_add]
      by_cases hpos : r > 0
      · rw [if_pos ⟨hpos, rfl⟩]
      · rw [if_neg fun h => hpos h.1, Int.toNat_of_nonpos (by omega)]
        rfl
  | @read p dst n off r out fs hp he =>
    obtain ⟨rfl, hr⟩ := (readi_fine (E := fun _ => True) h.fine).result he
    refine h.move hp rfl h.fine ⟨Nat.le_refl _, fun _ _ _ => rfl⟩ rfl rfl (hr.imp id ?_) ?_
    · rintro ⟨hr, hsize, hbytes⟩
      have hr' : r = out.length := hr
      have hlen : (out.map some).length = out.length := List.length_map ..
      refine ⟨rfl, by rw [hlen, hr']; rfl, by rw [hlen]; exact hsize, fun j hj => ?_⟩
      rw [hlen] at hj
      rw [List.getElem?_map, hbytes j hj]
      rfl
    · rw [hp, if_neg fun h => Bool.false_ne_true h.2]
      rfl
  | @load p job r hp hr =>
    refine h.inside (by rw [hp]; trivial) trivial ?_ ?_ ⟨rfl, hr⟩ (by rw [hp]; rfl)
    · rw [hp]
      cases job <;> rfl
    · rw [hp]
      cases job <;> exact Iff.rfl
  | @skip p job r hp hr =>
    refine h.inside (by rw [hp]; trivial) trivial ?_ ?_ trivial ?_
    · rw [hp]
      cases job <;> rfl
    · rw [hp]
      cases job <;> exact Iff.rfl
    · -- a call that fails owes nothing
      rw [hp]
      exact (Int.toNat_of_nonpos (by omega)).symm
  | @store p job r off hp =>
    have hholds : Holds (s.call p) := by rw [hp]; trivial
    have hm := h.turns.moving p hholds
    have hk := h.turns.knows p
    rw [hp] at hm hk
    have hm' : s.off.toNat + r.toNat = o₀ + total s.chunks := hm
    obtain ⟨rfl, hr⟩ : off = s.off ∧ r > 0 := hk
    refine h.still rfl rfl rfl (by rw [hp]; cases job <;> rfl) h.fine hsame ?_ ?_
    · refine h.turns.inside hholds rfl trivial rfl trivial ?_
      show (s.off + BitVec.ofInt 32 r).toNat + 0 = o₀ + total s.chunks
      obtain ⟨k, rfl⟩ : ∃ k : Nat, r = k := ⟨r.toNat, by omega⟩
      have hb := h.bound
      rw [BitVec.ofInt_natCast, BitVec.toNat_add, BitVec.toNat_ofNat]
      omega
    · exact h.counted.same rfl (by rw [hp]; cases job <;> exact Iff.rfl) rfl
  | @unlock p job r fs hp he =>
    have hholds : Holds (s.call p) := by rw [hp]; trivial
    obtain rfl := (iunlock_fine (E := fun _ => True) h.fine (h.turns.locked p hholds)).result he
    refine h.still rfl rfl rfl (by rw [hp]; cases job <;> rfl) (h.fine.setLocked false) (grown_setLocked _ false) ?_ ?_
    · exact h.turns.release hholds (by rw [hp]; rfl) id rfl rfl rfl
    · exact h.counted.same rfl (by rw [hp]; cases job <;> exact Iff.rfl) rfl
  | @turn p src n i r fs hp hr he =>
    obtain ⟨hfine, hg, htab, hout⟩ := (endOp_fine (E := fun _ => True) h.fine hsb).result he
    refine h.still rfl rfl rfl ?_ hfine hg ?_ ?_
    · rw [hp, hr]
      rfl
    · exact h.turns.outside (by rw [hp]; exact id) id rfl (congrArg (fun i => (i ip).locked) htab) rfl rfl
    · exact h.counted.leave rfl (by rw [hp]; trivial) id hout
  | @fail p src n i r fs hp hr he =>
    obtain ⟨hfine, hg, htab, hout⟩ := (endOp_fine (E := fun _ => True) h.fine hsb).result he
    refine h.finish (by rw [hp]; rfl) (.inl rfl) hfine hg ?_ ?_
    · exact h.turns.outside (by rw [hp]; exact id) id rfl (congrArg (fun i => (i ip).locked) htab) rfl rfl
    · exact h.counted.leave rfl (by rw [hp]; trivial) id hout

end Inv

/-- The file is open and nobody has used it. -/
structure Start (sb : Superblock) (ip : Fin NINODE) (s : Shared P) : Prop where
  fine : Fine sb ip s.fs
  idle : ∀ p, s.call p = none
  chunks : s.chunks = []
  returned : ∀ p, s.returned p = []

theorem Start.inv (h : Start sb ip s) : Inv sb ip s.off.toNat s := by
  have hnone : ∀ p, ¬ Holds (s.call p) := fun p => by
    rw [h.idle p]
    exact id
  refine ⟨s.off.isLt, h.fine, ⟨fun p hp => absurd hp (hnone p), fun p _ hp => absurd hp (hnone p),
    fun p => knows_of_not_holds (hnone p), fun p hp => absurd hp (hnone p), fun _ => ?_⟩, ⟨∅, fun p => ?_, Nat.zero_le _⟩,
    ?_, fun c hc => ?_, fun p => ?_, fun p y hy => ?_⟩
  · rw [h.chunks]
    rfl
  · rw [h.idle p]
    exact iff_of_false (Finset.notMem_empty p) id
  · rw [h.chunks]
    trivial
  · rw [h.chunks] at hc
    cases hc
  · rw [h.chunks, h.returned, h.idle]
    rfl
  · rw [h.returned] at hy
    cases hy

/-- What holds when the offset was `o₀` at the start. -/
structure Orderly (ip : Fin NINODE) (o₀ : Nat) (s : Shared P) : Prop where
  consecutive : Consecutive o₀ s.chunks
  disjoint : s.chunks.Pairwise fun c d => c.start + c.bytes.length ≤ d.start
  /-- The offset has moved by the lengths of the chunks, but for what the process in its critical section has not added. -/
  rest : (∀ p, ¬ Holds (s.call p)) → s.off.toNat = o₀ + total s.chunks
  moving : ∀ p, Holds (s.call p) → s.off.toNat + debt (s.call p) = o₀ + total s.chunks
  stays : Stays ip s
  order : InOrder s
  /-- A call that does not return -1 has written all its bytes. -/
  answers : ∀ p, ∀ y ∈ s.returned p, y.ret = -1 ∨ y.ret = y.n.toInt ∧ (y.count : Int) = y.n.toInt

/-- **Processes that share an open file do not overwrite each other.** -/
theorem shared_orderly {s₀ : Shared P} (hsb : sb.Ok) (h₀ : Start sb ip s₀)
    (h : Relation.ReflTransGen (Step sb ip) s₀ s) : Orderly ip s₀.off.toNat s := by
  have hinv : Inv sb ip s₀.off.toNat s := by
    induction h with
    | refl => exact h₀.inv
    | tail _ hs ih => exact ih.step hsb hs
  exact ⟨hinv.consecutive, hinv.consecutive.disjoint, hinv.turns.rest, hinv.turns.moving, hinv.stays, hinv.order, hinv.answers⟩

end Runs

/-! ## An example -/

/-- A file of ten bytes, open and at its start. -/
def small : Shared (Fin 2) := ⟨smallOpen 10, 0, fun _ => none, [], fun _ => []⟩

theorem start_small : Start Small.sb 0 small := by
  have hcopy : dino Small.sb (smallFile 10).mem ((smallFile 10).itable 0).inum = ((smallFile 10).itable 0).toDinode :=
    Small.dino_blocks _
  have hsync := synced_of_eq hcopy
  have hl : Loaded Small.sb (smallFile 10) 0 := by
    exact ⟨by rw [hsync]; exact Small.acc_blocks (by decide), by rw [hsync]; exact live_smallFile 10⟩
  have hfine : Fine Small.sb 0 (smallFile 10) :=
    ⟨hl, hsync, noHoles_smallFile (by decide), fun _ hb => (List.not_mem_nil hb).elim, Nat.zero_le _, rfl, Nat.le_refl 1⟩
  exact ⟨hfine.setLocked false, fun _ => rfl, rfl, fun _ => rfl⟩

/-- A process reads four bytes. -/
theorem shared_orderly_small : ∃ s, Relation.ReflTransGen (Step Small.sb 0) small s ∧
    s.chunks = [⟨0, false, 0, [some 0, some 0, some 0, some 0]⟩] ∧ Orderly 0 0 s := by
  have hrun : Relation.ReflTransGen (Step Small.sb 0) small _ :=
    .tail (.tail (.tail (.single (.callRead (p := 0) smallDest 4 rfl)) (.lockRead (p := 0) rfl rfl)) (.call (p := 0) rfl))
      (.read (p := 0) rfl rfl)
  exact ⟨_, hrun, rfl, shared_orderly Small.sb_ok start_small hrun⟩

end Xv6.Disk.Shared
