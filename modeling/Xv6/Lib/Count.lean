import Mathlib.Algebra.BigOperators.Ring.Finset
import Mathlib.Algebra.Order.BigOperators.Group.Finset

/-!
# Counting

Sums in which one term changes, and the number of places at which a function has a value.
-/

namespace Xv6.Lib

variable {ι α : Type}

/-- One term of a sum changes. -/
theorem sum_change [DecidableEq ι] (u : Finset ι) (F F' : ι → Nat) (i : ι) (hi : i ∈ u) (h : ∀ j, j ≠ i → F' j = F j) :
    ∑ j ∈ u, F' j + F i = ∑ j ∈ u, F j + F' i := by
  have he : ∑ j ∈ u.erase i, F' j = ∑ j ∈ u.erase i, F j :=
    Finset.sum_congr rfl fun j hj => h j (Finset.ne_of_mem_erase hj)
  rw [← Finset.add_sum_erase u F hi, ← Finset.add_sum_erase u F' hi, he]
  omega

variable [Fintype ι] [DecidableEq α]

/-- The number of places at which a function has the value `a`. -/
def places (f : ι → α) (a : α) : Nat := ∑ i, if f i = a then 1 else 0

theorem places_update [DecidableEq ι] (f : ι → α) (i : ι) (b a : α) :
    places (Function.update f i b) a + (if f i = a then 1 else 0) = places f a + if b = a then 1 else 0 := by
  have h := sum_change Finset.univ (fun j => if f j = a then 1 else 0)
    (fun j => if Function.update f i b j = a then 1 else 0) i (Finset.mem_univ i) fun j hj => by
      rw [Function.update_of_ne hj]
  simp only [Function.update_self] at h
  exact h

theorem places_pos {f : ι → α} {a : α} (i : ι) (h : f i = a) : 0 < places f a := by
  refine Finset.sum_pos_iff.mpr ⟨i, Finset.mem_univ i, ?_⟩
  rw [if_pos h]
  exact Nat.one_pos

theorem exists_of_places_pos {f : ι → α} {a : α} (h : 0 < places f a) : ∃ i, f i = a := by
  obtain ⟨i, -, hi⟩ := Finset.sum_pos_iff.mp h
  refine ⟨i, ?_⟩
  by_contra hn
  rw [if_neg hn] at hi
  exact lt_irrefl 0 hi

theorem places_eq_zero {f : ι → α} {a : α} (h : ∀ i, f i ≠ a) : places f a = 0 :=
  Finset.sum_eq_zero fun i _ => if_neg (h i)

theorem places_eq_card (f : ι → α) (a : α) : places f a = (Finset.univ.filter fun i => f i = a).card :=
  (Finset.card_filter _ _).symm

end Xv6.Lib
