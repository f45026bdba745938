/-!
# Little-endian numbers in memory

A region of memory is a function from offsets to bytes; how long it is is left to its users. `splice` is `memmove`, and
`get16`, `get32`, `get64` and `put16`, `put32`, `put64` read and write numbers of two, four and eight bytes.
-/

namespace Xv6.Lib

abbrev Byte := BitVec 8

abbrev Bytes := Nat → Byte

variable {b b' : Bytes} {o o' n j : Nat}

/-- `memmove(b + o, src, n)`. -/
def splice (b : Bytes) (o n : Nat) (src : Bytes) : Bytes := fun j => if o ≤ j ∧ j < o + n then src (j - o) else b j

theorem splice_inside {src : Bytes} (h1 : o ≤ j) (h2 : j < o + n) : splice b o n src j = src (j - o) := if_pos ⟨h1, h2⟩

theorem splice_outside {src : Bytes} (h : j < o ∨ o + n ≤ j) : splice b o n src j = b j := if_neg (by omega)

/-- The bytes of two regions agree from offset `o` on. -/
def Agree (b b' : Bytes) (o n : Nat) : Prop := ∀ j, o ≤ j → j < o + n → b j = b' j

theorem Agree.sub (h : Agree b b' o n) {m : Nat} (h1 : o ≤ o') (h2 : o' + m ≤ o + n) : Agree b b' o' m :=
  fun j hj1 hj2 => h j (by omega) (by omega)

theorem agree_splice {m : Nat} (src : Bytes) (h : o' + m ≤ o ∨ o + n ≤ o') : Agree (splice b o n src) b o' m :=
  fun _ hj1 hj2 => splice_outside (by omega)

/-! ## Numbers -/

def get16 (b : Bytes) (o : Nat) : BitVec 16 := b (o + 1) ++ b o

def get32 (b : Bytes) (o : Nat) : BitVec 32 := b (o + 3) ++ b (o + 2) ++ b (o + 1) ++ b o

/-- The bytes of a number. -/
def bytesOf {w : Nat} (v : BitVec w) : Bytes := fun j => v.extractLsb' (8 * j) 8

def put16 (b : Bytes) (o : Nat) (v : BitVec 16) : Bytes := splice b o 2 (bytesOf v)

def put32 (b : Bytes) (o : Nat) (v : BitVec 32) : Bytes := splice b o 4 (bytesOf v)

def get64 (b : Bytes) (o : Nat) : BitVec 64 := get32 b (o + 4) ++ get32 b o

def put64 (b : Bytes) (o : Nat) (v : BitVec 64) : Bytes := splice b o 8 (bytesOf v)

theorem get16_congr (h : Agree b b' o 2) : get16 b o = get16 b' o := by
  unfold get16
  rw [h o (by omega) (by omega), h (o + 1) (by omega) (by omega)]

theorem get32_congr (h : Agree b b' o 4) : get32 b o = get32 b' o := by
  unfold get32
  rw [h o (by omega) (by omega), h (o + 1) (by omega) (by omega), h (o + 2) (by omega) (by omega),
    h (o + 3) (by omega) (by omega)]

theorem get32_zero (o : Nat) : get32 (fun _ => 0) o = 0 := by
  show (0 ++ 0 ++ 0 ++ 0 : BitVec (8 + 8 + 8 + 8)) = 0
  decide

theorem get16_bytesOf {v : BitVec 16} (h : ∀ j, j < 2 → b (o + j) = bytesOf v j) : get16 b o = v := by
  unfold get16
  rw [h 1 (by omega), show b o = bytesOf v 0 from h 0 (by omega)]
  unfold bytesOf
  ext i hi
  simp only [BitVec.getElem_append, BitVec.getElem_extractLsb']
  rw [← BitVec.getLsbD_eq_getElem hi]
  split
  · rw [Nat.mul_zero, Nat.zero_add]
  · rw [show 8 * 1 + (i - 8) = i by omega]

theorem get32_bytesOf {v : BitVec 32} (h : ∀ j, j < 4 → b (o + j) = bytesOf v j) : get32 b o = v := by
  unfold get32
  rw [h 1 (by omega), h 2 (by omega), h 3 (by omega), show b o = bytesOf v 0 from h 0 (by omega)]
  unfold bytesOf
  ext i hi
  simp only [BitVec.getElem_append, BitVec.getElem_extractLsb']
  rw [← BitVec.getLsbD_eq_getElem hi]
  split
  · rw [Nat.mul_zero, Nat.zero_add]
  · split
    · rw [show 8 * 1 + (i - 8) = i by omega]
    · split
      · rw [show 8 * 2 + (i - 8 - 8) = i by omega]
      · rw [show 8 * 3 + (i - 8 - 8 - 8) = i by omega]

@[simp] theorem get32_put32 (b : Bytes) (o : Nat) (v : BitVec 32) : get32 (put32 b o v) o = v :=
  get32_bytesOf fun j hj => by
    unfold put32
    rw [splice_inside (by omega) (by omega)]
    congr 1
    omega

theorem get64_congr (h : Agree b b' o 8) : get64 b o = get64 b' o := by
  unfold get64
  rw [get32_congr (h.sub (Nat.le_refl o) (by omega)), get32_congr (h.sub (Nat.le_add_right o 4) (by omega))]

@[simp] theorem get64_put64 (b : Bytes) (o : Nat) (v : BitVec 64) : get64 (put64 b o v) o = v := by
  -- the half of the number that begins with byte `k`
  have hhalf : ∀ k, k = 0 ∨ k = 4 → get32 (put64 b o v) (o + k) = v.extractLsb' (8 * k) 32 := by
    intro k hk
    refine get32_bytesOf fun j hj => ?_
    rw [put64, splice_inside (by omega) (by omega), show o + k + j - o = k + j by omega]
    ext i hi
    simp only [bytesOf, BitVec.getElem_extractLsb', BitVec.getLsbD_extractLsb']
    rw [decide_eq_true (show 8 * j + i < 32 by omega), Bool.true_and, show 8 * (k + j) + i = 8 * k + (8 * j + i) by omega]
  have h0 := hhalf 0 (.inl rfl)
  rw [get64, hhalf 4 (.inr rfl), show get32 (put64 b o v) o = v.extractLsb' 0 32 from h0]
  ext i hi
  simp only [BitVec.getElem_append, BitVec.getElem_extractLsb']
  rw [← BitVec.getLsbD_eq_getElem hi]
  split
  · rw [Nat.zero_add]
  · rw [show 8 * 4 + (i - 32) = i by omega]
end Xv6.Lib
