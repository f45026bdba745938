import Mathlib.Algebra.GroupWithZero.Nat
import Mathlib.Data.List.Infix
import Mathlib.Logic.Function.Basic

/-!
# Ring buffers with free-running counters

An array of `N` cells is used as a ring. A position is a counter of `w` bits that is only ever incremented and wraps
around at `2 ^ w`, a multiple of `N`; its cell is the counter modulo `N`. `window data r n` are the contents of the `n`
cells from the position `r` on, in order.
-/

namespace Xv6.Lib

variable {α : Type} {w N : Nat} [NeZero N] {data : Fin N → α} {r : BitVec w} {m n k : Nat}

/-- The cell of a position. -/
def slot (N : Nat) [NeZero N] (r : BitVec w) : Fin N := ⟨r.toNat % N, Nat.mod_lt _ (Nat.pos_of_ne_zero (NeZero.ne N))⟩

/-- The contents of `n` cells. -/
def window (data : Fin N → α) (r : BitVec w) (n : Nat) : List α :=
  (List.range n).map fun k => data (slot N (r + BitVec.ofNat w k))

@[simp] theorem window_zero : window data r 0 = [] := rfl

@[simp] theorem length_window : (window data r n).length = n := by simp [window]

theorem window_succ : window data r (n + 1) = window data r n ++ [data (slot N (r + BitVec.ofNat w n))] := by
  simp [window, List.range_succ]

theorem add_ofNat (r : BitVec w) (m k : Nat) : r + BitVec.ofNat w (m + k) = r + BitVec.ofNat w m + BitVec.ofNat w k := by
  rw [BitVec.ofNat_add, BitVec.add_assoc]

theorem window_add : window data r (m + n) = window data r m ++ window data (r + BitVec.ofNat w m) n := by
  rw [window, window, window, List.range_add, List.map_append, List.map_map]
  congr 1
  refine List.map_congr_left fun k _ => ?_
  rw [← add_ofNat]
  rfl

theorem window_cons : window data r (n + 1) = data (slot N r) :: window data (r + 1) n := by
  rw [Nat.add_comm, window_add]
  simp [window]

theorem slot_add (hN : N ∣ 2 ^ w) (r : BitVec w) (k : Nat) :
    (slot N (r + BitVec.ofNat w k)).val = (r.toNat + k) % N := by
  simp only [slot, BitVec.toNat_add, BitVec.toNat_ofNat]
  rw [Nat.mod_mod_of_dvd _ hN, Nat.add_mod, Nat.mod_mod_of_dvd _ hN, ← Nat.add_mod]

/-- Positions less than `N` apart have different cells. -/
theorem slot_ne (hN : N ∣ 2 ^ w) (hm : m < n) (hn : n - m < N) :
    slot N (r + BitVec.ofNat w m) ≠ slot N (r + BitVec.ofNat w n) := by
  intro h
  have h := congrArg Fin.val h
  rw [slot_add hN, slot_add hN] at h
  have hd : N ∣ (r.toNat + n) - (r.toNat + m) := Nat.dvd_of_mod_eq_zero (Nat.sub_mod_eq_zero_of_mod_eq h.symm)
  exact absurd (Nat.le_of_dvd (by omega) hd) (by omega)

/-- A store to the cell after the window. -/
theorem window_update (hN : N ∣ 2 ^ w) (x : α) (hn : n ≤ k) (hk : k < N) :
    window (Function.update data (slot N (r + BitVec.ofNat w k)) x) r n = window data r n := by
  refine List.map_congr_left fun j hj => ?_
  have hj : j < n := List.mem_range.mp hj
  exact Function.update_of_ne (slot_ne hN (by omega) (by omega)) _ _

/-- A store to the cell after the window makes the window longer. -/
theorem window_push (hN : N ∣ 2 ^ w) (x : α) (hn : n < N) :
    window (Function.update data (slot N (r + BitVec.ofNat w n)) x) r (n + 1) = window data r n ++ [x] := by
  rw [window_succ, window_update hN x (Nat.le_refl n) hn, Function.update_self]

end Xv6.Lib
