import Mathlib.Data.Nat.Digits.Defs
import Mathlib.Logic.Function.Basic

/-!
# Routines that the kernel and the user library both have

`memmove` (`kernel/string.c`, `user/ulib.c`) decides the direction of its loop by different tests, and `printint`
(`kernel/printf.c`, `user/printf.c`) keeps its sign in different variables.

- `memmove_simultaneous`: both move all bytes at once, whatever the overlap;
- `printint_exact`: both print the numeral of their argument and stay inside their buffer.
-/

namespace Xv6.Routines

open Function (update update_self update_of_ne)

/-! ## `memmove` -/

abbrev Addr := BitVec 64
abbrev Mem := Addr → UInt8

/-- `while(n-- > 0) *d++ = *s++;` -/
def copyUp : Nat → Addr → Addr → Mem → Mem
  | 0, _, _, m => m
  | n + 1, d, s, m => copyUp n (d + 1) (s + 1) (update m d (m s))

/-- `while(n-- > 0) *--d = *--s;` -/
def copyDown : Nat → Addr → Addr → Mem → Mem
  | 0, _, _, m => m
  | n + 1, d, s, m => copyDown n (d - 1) (s - 1) (update m (d - 1) (m (s - 1)))

/-- `memmove(dst, src, uint n)` of the kernel: the memory afterwards, and what it returns. -/
def Kernel.memmove (dst src : Addr) (n : BitVec 32) (m : Mem) : Mem × Addr :=
  let k := n.setWidth 64
  if n = 0 then (m, dst)
  else if src < dst ∧ src + k > dst then (copyDown n.toNat (dst + k) (src + k) m, dst)
  else (copyUp n.toNat dst src m, dst)

/-- `memmove(vdst, vsrc, int n)` of the user library. -/
def User.memmove (dst src : Addr) (n : BitVec 32) (m : Mem) : Mem × Addr :=
  let k := n.signExtend 64
  if src > dst then (copyUp n.toInt.toNat dst src m, dst)
  else (copyDown n.toInt.toNat (dst + k) (src + k) m, dst)

/-- The address `i` bytes further. -/
def off (a : Addr) (i : Nat) : Addr := a + BitVec.ofNat 64 i

/-- All `n` bytes moved at once, and no other byte changed. -/
structure Moved (m m' : Mem) (dst src : Addr) (n : Nat) : Prop where
  copied : ∀ i < n, m' (off dst i) = m (off src i)
  frame : ∀ a, (∀ i < n, a ≠ off dst i) → m' a = m a

section Moves

variable {m m' m'' : Mem} {dst src d s : Addr} {n : Nat}

theorem Moved.unique (h : Moved m m' dst src n) (h' : Moved m m'' dst src n) : m' = m'' := by
  funext a
  by_cases ha : ∀ i < n, a ≠ off dst i
  · rw [h.frame a ha, h'.frame a ha]
  · push Not at ha
    obtain ⟨i, hi, rfl⟩ := ha
    rw [h.copied i hi, h'.copied i hi]

theorem off_succ (a : Addr) (i : Nat) : off (a + 1) i = off a (i + 1) := by
  simp only [off]
  bv_omega

theorem off_zero (a : Addr) : off a 0 = a := by simp [off]

/-- Upwards, no byte may be written before it is read. -/
theorem copyUp_moved (hdd : ∀ i j, i < j → j < n → off d i ≠ off d j) (hds : ∀ i j, i < j → j < n → off d i ≠ off s j) :
    Moved m (copyUp n d s m) d s n := by
  induction n generalizing d s m with
  | zero => exact ⟨nofun, fun _ _ => rfl⟩
  | succ n ih =>
    have h : Moved (update m d (m s)) (copyUp n (d + 1) (s + 1) (update m d (m s))) (d + 1) (s + 1) n := by
      apply ih
      · intro i j hij hj
        rw [off_succ, off_succ]
        exact hdd _ _ (by omega) (by omega)
      · intro i j hij hj
        rw [off_succ, off_succ]
        exact hds _ _ (by omega) (by omega)
    constructor
    · intro i hi
      cases i with
      | zero =>
        rw [copyUp, h.frame _ fun j hj => ?_, off_zero, off_zero, update_self]
        rw [off_succ]
        exact hdd 0 (j + 1) (by omega) (by omega)
      | succ i =>
        rw [copyUp, ← off_succ, h.copied i (by omega), off_succ, update_of_ne]
        rw [← off_zero d]
        exact (hds 0 (i + 1) (by omega) hi).symm
    · intro a ha
      rw [copyUp, h.frame a fun i hi => off_succ d i ▸ ha (i + 1) (by omega), update_of_ne]
      simpa [off_zero] using ha 0 (by omega)

/-- Downwards, from the ends of the ranges. -/
theorem copyDown_moved (hdd : ∀ i j, i < j → j < n → off d i ≠ off d j)
    (hds : ∀ i j, i < j → j < n → off d j ≠ off s i) : Moved m (copyDown n (off d n) (off s n) m) d s n := by
  induction n generalizing m with
  | zero => exact ⟨nofun, fun _ _ => rfl⟩
  | succ n ih =>
    have hpred : ∀ a, off a (n + 1) - 1 = off a n := by
      intro a
      simp only [off]
      bv_omega
    rw [copyDown, hpred, hpred]
    have h := ih (m := update m (off d n) (m (off s n))) (fun i j hij hj => hdd i j hij (by omega))
      fun i j hij hj => hds i j hij (by omega)
    constructor
    · intro i hi
      rcases Nat.lt_succ_iff_lt_or_eq.mp hi with hlt | rfl
      · rw [h.copied i hlt, update_of_ne (hds i n hlt (by omega)).symm]
      · rw [h.frame _ fun j hj => (hdd j i hj hi).symm, update_self]
    · intro a ha
      rw [h.frame a fun i hi => ha i (by omega), update_of_ne (ha n (by omega))]

/-- The addresses of a range do not wrap around. -/
theorem toNat_off {a : Addr} {i : Nat} (h : a.toNat + n ≤ 2 ^ 64) (hi : i < n) : (off a i).toNat = a.toNat + i := by
  simp only [off, BitVec.toNat_add, BitVec.toNat_ofNat]
  omega

theorem off_inj (h : d.toNat + n ≤ 2 ^ 64) : ∀ i j, i < j → j < n → off d i ≠ off d j := by
  intro i j hij hj he
  have := congrArg BitVec.toNat he
  rw [toNat_off h (by omega), toNat_off h hj] at this
  omega

/-- Upwards is right if the source is above the destination, or ends before it. -/
theorem copyUp_ok (hd : dst.toNat + n ≤ 2 ^ 64) (hs : src.toNat + n ≤ 2 ^ 64)
    (h : dst.toNat ≤ src.toNat ∨ src.toNat + n ≤ dst.toNat) : Moved m (copyUp n dst src m) dst src n := by
  refine copyUp_moved (off_inj hd) fun i j hij hj he => ?_
  have := congrArg BitVec.toNat he
  rw [toNat_off hd (by omega), toNat_off hs hj] at this
  omega

/-- Downwards is right if the source is not above the destination. -/
theorem copyDown_ok (hd : dst.toNat + n ≤ 2 ^ 64) (hs : src.toNat + n ≤ 2 ^ 64) (h : src.toNat ≤ dst.toNat) :
    Moved m (copyDown n (off dst n) (off src n) m) dst src n := by
  refine copyDown_moved (off_inj hd) fun i j hij hj he => ?_
  have := congrArg BitVec.toNat he
  rw [toNat_off hd hj, toNat_off hs (by omega)] at this
  omega

end Moves

/-- **`memmove` is a simultaneous copy**, in the kernel and in the user library, so that both do the same. -/
theorem memmove_simultaneous (m : Mem) (dst src : Addr) (n : BitVec 32) (hd : dst.toNat + n.toNat ≤ 2 ^ 64)
    (hs : src.toNat + n.toNat ≤ 2 ^ 64) :
    Moved m (Kernel.memmove dst src n m).1 dst src n.toNat ∧
      (0 ≤ n.toInt → Moved m (User.memmove dst src n m).1 dst src n.toNat ∧
        User.memmove dst src n m = Kernel.memmove dst src n m) := by
  have hadd : ∀ a : Addr, a + n.setWidth 64 = off a n.toNat := by
    intro a
    rw [off, ← BitVec.toNat_setWidth_of_le (by decide : 32 ≤ 64), BitVec.ofNat_toNat, BitVec.setWidth_eq]
  have hkernel : Moved m (Kernel.memmove dst src n m).1 dst src n.toNat := by
    unfold Kernel.memmove
    dsimp only
    rw [hadd, hadd]
    split
    · next h0 => exact h0 ▸ ⟨nofun, fun _ _ => rfl⟩
    · split
      · next hlt => exact copyDown_ok hd hs (Nat.le_of_lt (BitVec.lt_def.mp hlt.1))
      · next h0 hlt =>
        refine copyUp_ok hd hs ?_
        by_contra hne
        have hpos : 0 < n.toNat := Nat.pos_of_ne_zero fun he => h0 (BitVec.eq_of_toNat_eq he)
        refine hlt ⟨BitVec.lt_def.mpr (by omega), BitVec.lt_def.mpr ?_⟩
        simp only [off, BitVec.toNat_add, BitVec.toNat_ofNat]
        omega
  refine ⟨hkernel, fun h0 => ?_⟩
  have hn : n.toInt.toNat = n.toNat ∧ n.signExtend 64 = n.setWidth 64 := by
    have hmsb : n.msb = false := by simpa [BitVec.msb_eq_toInt] using h0
    refine ⟨?_, BitVec.signExtend_eq_setWidth_of_msb_false hmsb⟩
    rw [BitVec.toInt_eq_toNat_of_msb hmsb, Int.toNat_natCast]
  have huser : Moved m (User.memmove dst src n m).1 dst src n.toNat := by
    unfold User.memmove
    dsimp only
    rw [hn.1, hn.2, hadd, hadd]
    split
    · next hlt => exact copyUp_ok hd hs (.inl (Nat.le_of_lt (BitVec.lt_def.mp hlt)))
    · next hlt => exact copyDown_ok hd hs (Nat.not_lt.mp fun h => hlt (BitVec.lt_def.mpr h))
  refine ⟨huser, Prod.ext (huser.unique hkernel) ?_⟩
  unfold User.memmove Kernel.memmove
  dsimp only
  split <;> split <;> (try split) <;> rfl

/-- The ranges overlap. -/
theorem memmove_simultaneous_overlap : ∃ m : Mem, Moved m (Kernel.memmove 1 0 2 m).1 1 0 2 ∧
    User.memmove 1 0 2 m = Kernel.memmove 1 0 2 m ∧ (Kernel.memmove 1 0 2 m).1 2 = 1 := by
  have h := memmove_simultaneous (fun a => UInt8.ofNat a.toNat) 1 0 2 (by decide) (by decide)
  exact ⟨_, h.1, (h.2 (by decide)).2, by decide⟩

/-! ## `printint` -/

/-- The numeral of a number, with the most significant digit first. -/
structure Numeral (b n : Nat) (ds : List Nat) : Prop where
  ne_nil : ds ≠ []
  digit : ∀ d ∈ ds, d < b
  lead : ds.head? = some 0 → ds = [0]
  value : Nat.ofDigits b ds.reverse = n

/-- `do { buf[i++] = digits[x % base]; } while((x /= base) != 0);`, with room for so many characters in `buf`. There is
no result if the loop writes outside. -/
def putDigits (digits : Nat → Char) (base : BitVec 64) : Nat → BitVec 64 → List Char → Option (List Char)
  | 0, _, _ => none
  | room + 1, x, buf =>
    let buf := buf ++ [digits (x % base).toNat]
    let x := x / base
    if x ≠ 0 then putDigits digits base room x buf else some buf

/-- The rest of `printint`: the digits and the sign go to `char buf[20]`, and from there to the output. -/
def putInt (digits : Nat → Char) (base : BitVec 32) (x : BitVec 64) (neg : Bool) : Option (List Char) := do
  let buf ← putDigits digits (base.signExtend 64) 20 x []
  if neg then
    if buf.length < 20 then some (buf ++ ['-']).reverse else none
  else
    some buf.reverse

def Kernel.digits (d : Nat) : Char := "0123456789abcdef".toList.getD d '\x00'
def User.digits (d : Nat) : Char := "0123456789ABCDEF".toList.getD d '\x00'

/-- `printint(xx, base, sign)` of the kernel: the characters it prints. -/
def Kernel.printint (xx : BitVec 64) (base : BitVec 32) (sign : Bool) : Option (List Char) :=
  let sign := sign && xx.slt 0
  putInt Kernel.digits base (if sign then -xx else xx) sign

/-- `printint(fd, xx, base, sgn)` of the user library. -/
def User.printint (xx : BitVec 64) (base : BitVec 32) (sgn : Bool) : Option (List Char) :=
  let (neg, x) := if sgn && xx.slt 0 then (true, -xx) else (false, xx)
  putInt User.digits base x neg

/-- The loop ends with the digits of `x`, the least significant one first. -/
theorem putDigits_spec {b : BitVec 64} (hb : 2 ≤ b.toNat) {r : Nat} {x : BitVec 64} (hx : x.toNat < b.toNat ^ (r + 1)) :
    ∃ ds, ds.length ≤ r + 1 ∧ Numeral b.toNat x.toNat ds ∧ ∀ (digits : Nat → Char) (k : Nat) (buf : List Char),
      putDigits digits b (r + 1 + k) x buf = some (buf ++ (ds.map digits).reverse) := by
  have hlt : (x % b).toNat < b.toNat := by
    rw [BitVec.toNat_umod]
    exact Nat.mod_lt _ (by omega)
  have hstep : ∀ (digits : Nat → Char) (k : Nat) (buf : List Char), putDigits digits b (r + 1 + k) x buf =
      if x / b ≠ 0 then putDigits digits b (r + k) (x / b) (buf ++ [digits (x % b).toNat])
      else some (buf ++ [digits (x % b).toNat]) := by
    intro digits k buf
    rw [Nat.add_right_comm, putDigits]
  by_cases h0 : x / b = 0
  · refine ⟨[(x % b).toNat], by simp, ⟨by simp, by simpa using hlt, by simp, ?_⟩, fun digits k buf => ?_⟩
    · have hq : x.toNat / b.toNat = 0 := by rw [← BitVec.toNat_udiv, h0]; rfl
      have := Nat.mod_add_div x.toNat b.toNat
      rw [hq] at this
      simpa using this
    · rw [hstep, if_neg (not_not_intro h0)]
      rfl
  · have hq : 0 < (x / b).toNat := Nat.pos_of_ne_zero fun he => h0 (BitVec.eq_of_toNat_eq he)
    cases r with
    | zero =>
      rw [BitVec.toNat_udiv, Nat.div_eq_of_lt (by simpa using hx)] at hq
      exact absurd hq (Nat.lt_irrefl 0)
    | succ r =>
      obtain ⟨ds, hlen, hn, hds⟩ := putDigits_spec hb (r := r) (x := x / b) (by
        rw [BitVec.toNat_udiv]
        exact Nat.div_lt_of_lt_mul (by rwa [← Nat.pow_succ']))
      refine ⟨ds ++ [(x % b).toNat], by simp [hlen], ⟨by simp, ?_, fun hh => ?_, ?_⟩, fun digits k buf => ?_⟩
      · intro d hd
        rcases List.mem_append.mp hd with hd | hd
        · exact hn.digit d hd
        · rw [List.mem_singleton.mp hd]
          exact hlt
      · -- the leading digit is that of the quotient, which is not zero
        obtain ⟨d, ds', rfl⟩ := List.exists_cons_of_ne_nil hn.ne_nil
        rw [← hn.value, hn.lead hh] at hq
        simp at hq
      · rw [List.reverse_append, List.reverse_singleton, List.singleton_append, Nat.ofDigits_cons, hn.value,
          BitVec.toNat_umod, BitVec.toNat_udiv]
        exact Nat.mod_add_div _ _
      · rw [hstep, if_pos h0, hds]
        simp

/-- The number that is to be printed. -/
def value (xx : BitVec 64) (sign : Bool) : Int := if sign then xx.toInt else xx.toNat

/-- Its sign. -/
def minus (v : Int) : List Char := if v < 0 then ['-'] else []

section Sign

variable (xx : BitVec 64) (sign : Bool)

theorem neg_eq : (sign && xx.slt 0) = decide (value xx sign < 0) := by
  cases sign <;> simp [value, BitVec.slt_eq_decide]

theorem toNat_abs : (if sign && xx.slt 0 then -xx else xx).toNat = (value xx sign).natAbs := by
  rw [neg_eq]
  cases sign with
  | false =>
    rw [if_neg (by simp [value])]
    rfl
  | true =>
    simp only [value, if_true, decide_eq_true_eq, BitVec.toInt_eq_toNat_cond, apply_ite BitVec.toNat, BitVec.toNat_neg]
    split <;> split <;> omega

/-- A negative number has at most 19 digits, so that there is room for its sign. -/
theorem exists_room : ∃ r, (minus (value xx sign)).length + (r + 1) ≤ 20 ∧ (value xx sign).natAbs < 10 ^ (r + 1) := by
  have h1 := xx.isLt
  have h2 := BitVec.le_toInt xx
  have h3 := BitVec.toInt_lt (x := xx)
  by_cases hv : value xx sign < 0
  · refine ⟨18, by simp [minus, hv], ?_⟩
    cases sign <;> simp only [value, Bool.false_eq_true, if_true, if_false] at hv ⊢ <;> omega
  · refine ⟨19, by simp [minus, hv], ?_⟩
    cases sign <;> simp only [value, Bool.false_eq_true, if_true, if_false] at hv ⊢ <;> omega

end Sign

/-- **`printint` prints the numeral** of its argument, signed or not, and stays inside its 20 characters. Kernel and user
library differ in the letters only. -/
theorem printint_exact (xx : BitVec 64) (base : BitVec 32) (sign : Bool) (hb : base = 10 ∨ base = 16) :
    ∃ ds, Numeral base.toNat (value xx sign).natAbs ds ∧ (minus (value xx sign)).length + ds.length ≤ 20 ∧
      Kernel.printint xx base sign = some (minus (value xx sign) ++ ds.map Kernel.digits) ∧
      User.printint xx base sign = some (minus (value xx sign) ++ ds.map User.digits) := by
  obtain ⟨hb2, hbn, hb10⟩ : 2 ≤ (base.signExtend 64).toNat ∧ (base.signExtend 64).toNat = base.toNat ∧
      10 ≤ base.toNat := by
    rcases hb with rfl | rfl <;> decide
  obtain ⟨r, hr, hlt⟩ := exists_room xx sign
  obtain ⟨ds, hlen, hn, hds⟩ := putDigits_spec hb2 (r := r) (x := if sign && xx.slt 0 then -xx else xx) (by
    rw [toNat_abs, hbn]
    exact Nat.lt_of_lt_of_le hlt (Nat.pow_le_pow_left hb10 _))
  rw [toNat_abs, hbn] at hn
  have hput : ∀ digits : Nat → Char, putInt digits base (if sign && xx.slt 0 then -xx else xx) (sign && xx.slt 0) =
      some (minus (value xx sign) ++ ds.map digits) := by
    intro digits
    have h20 : 20 = r + 1 + (19 - r) := by omega
    rw [putInt, h20, hds, neg_eq]
    by_cases hv : value xx sign < 0
    · have hroom : ds.length < 20 := by
        have : (minus (value xx sign)).length = 1 := by simp [minus, hv]
        omega
      simp [hv, minus, hroom, ← h20]
    · simp [hv, minus]
  refine ⟨ds, hn, by omega, hput _, ?_⟩
  rw [← hput User.digits, User.printint]
  cases sign && xx.slt 0 <;> rfl

/-- The most negative number fills the buffer. -/
theorem printint_exact_min : ∃ ds, Numeral 10 (2 ^ 63) ds ∧ 1 + ds.length ≤ 20 ∧
    Kernel.printint (BitVec.intMin 64) 10 true = some ('-' :: ds.map Kernel.digits) ∧
    User.printint (BitVec.intMin 64) 10 true = some ('-' :: ds.map User.digits) :=
  printint_exact (BitVec.intMin 64) 10 true (.inl rfl)

example : Kernel.printint (BitVec.intMin 64) 10 true = some "-9223372036854775808".toList := by decide

end Xv6.Routines
