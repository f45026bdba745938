import Mathlib.Logic.Function.Basic

/-!
# Who owns a block

Slots `ι` hold the numbers of blocks, and 0 if they hold none. `Owned` says that no block is in two slots and that a block
is in use exactly if it lies below the first block that can be owned or is in a slot.
-/

namespace Xv6.Lib

variable {ι : Type} {addr addr' : ι → Nat} {used used' : Nat → Prop} {lo hi : Nat}

structure Owned (addr : ι → Nat) (used : Nat → Prop) (lo hi : Nat) : Prop where
  range : ∀ i, addr i ≠ 0 → lo ≤ addr i ∧ addr i < hi
  inj : ∀ i j, addr i ≠ 0 → addr i = addr j → i = j
  used_iff : ∀ b, b < hi → (used b ↔ b < lo ∨ ∃ i, addr i ≠ 0 ∧ addr i = b)

namespace Owned

variable (h : Owned addr used lo hi)
include h

theorem congr (ha : ∀ i, addr' i = addr i) (hu : ∀ b, b < hi → (used' b ↔ used b)) : Owned addr' used' lo hi := by
  obtain rfl : addr' = addr := funext ha
  exact ⟨h.range, h.inj, fun b hb => (hu b hb).trans (h.used_iff b hb)⟩

/-- A block in a slot is in use. -/
theorem is_used {i : ι} (hi : addr i ≠ 0) : used (addr i) := (h.used_iff _ (h.range i hi).2).mpr (.inr ⟨i, hi, rfl⟩)

theorem not_mem {a : Nat} (ha : ¬ used a) (i : ι) : addr i ≠ 0 → addr i ≠ a := by
  intro hi he
  exact ha (he ▸ h.is_used hi)

omit h in
/-- A free block is put into an empty slot. -/
theorem assign [DecidableEq ι] (h : Owned addr used lo hi) {i : ι} {a : Nat} (hempty : addr i = 0) (h0 : a ≠ 0) (ha : ¬ used a)
    (hlt : a < hi) (haddr : ∀ j, addr' j = if j = i then a else addr j)
    (hused : ∀ b, b < hi → (used' b ↔ used b ∨ b = a)) : Owned addr' used' lo hi := by
  have hlo : lo ≤ a := by
    by_contra hlo
    exact ha ((h.used_iff a hlt).mpr (.inl (by omega)))
  refine ⟨fun j hj => ?_, fun j k hj hjk => ?_, fun b hb => ?_⟩
  · rw [haddr] at hj ⊢
    split at hj
    · next hji => rw [if_pos hji]; exact ⟨hlo, hlt⟩
    · next hji => rw [if_neg hji]; exact h.range j hj
  · rw [haddr, haddr] at hjk
    rw [haddr] at hj
    split at hj
    · next hji =>
      rw [if_pos hji] at hjk
      split at hjk
      · next hki => rw [hji, hki]
      · exact absurd hjk.symm (h.not_mem ha k fun h0 => hj (hjk.trans h0))
    · next hji =>
      rw [if_neg hji] at hjk
      split at hjk
      · exact absurd hjk (h.not_mem ha j hj)
      · exact h.inj j k hj hjk
  · rw [hused b hb, h.used_iff b hb]
    constructor
    · rintro ((hb | ⟨j, hj, rfl⟩) | rfl)
      · exact .inl hb
      · have hji : j ≠ i := fun he => hj (he ▸ hempty)
        have hsame : addr' j = addr j := by rw [haddr, if_neg hji]
        exact .inr ⟨j, hsame ▸ hj, hsame⟩
      · have hself : addr' i = b := by rw [haddr, if_pos rfl]
        exact .inr ⟨i, hself ▸ h0, hself⟩
    · rintro (hb | ⟨j, hj, hjb⟩)
      · exact .inl (.inl hb)
      · rw [haddr] at hj hjb
        split at hj
        · next hji =>
          rw [if_pos hji] at hjb
          exact .inr hjb.symm
        · next hji =>
          rw [if_neg hji] at hjb
          exact .inl (.inr ⟨j, hj, hjb⟩)

/-- The slots in `S` are emptied, and their blocks freed. -/
theorem release {S : ι → Prop} (hin : ∀ i, S i → addr' i = 0) (hout : ∀ i, ¬ S i → addr' i = addr i)
    (hused : ∀ b, b < hi → (used' b ↔ used b ∧ ¬ ∃ i, S i ∧ addr i ≠ 0 ∧ addr i = b)) : Owned addr' used' lo hi := by
  have hS : ∀ i, addr' i ≠ 0 → ¬ S i := fun i hi hs => hi (hin i hs)
  refine ⟨fun i hi => ?_, fun i j hi hij => ?_, fun b hb => ?_⟩
  · have hsame := hout i (hS i hi)
    rw [hsame] at hi ⊢
    exact h.range i hi
  · have hj : addr' j ≠ 0 := hij ▸ hi
    rw [hout i (hS i hi), hout j (hS j hj)] at hij
    rw [hout i (hS i hi)] at hi
    exact h.inj i j hi hij
  · rw [hused b hb, h.used_iff b hb]
    constructor
    · rintro ⟨hb | ⟨i, hi, hib⟩, hno⟩
      · exact .inl hb
      · have hs : ¬ S i := fun hs => hno ⟨i, hs, hi, hib⟩
        exact .inr ⟨i, by rw [hout i hs]; exact hi, by rw [hout i hs]; exact hib⟩
    · rintro (hlo | ⟨i, hi, hib⟩)
      · refine ⟨.inl hlo, ?_⟩
        rintro ⟨i, -, hi, rfl⟩
        have := (h.range i hi).1
        omega
      · have hs := hS i hi
        rw [hout i hs] at hi hib
        refine ⟨.inr ⟨i, hi, hib⟩, ?_⟩
        rintro ⟨j, hj, hj0, hjb⟩
        rw [h.inj i j hi (hib.trans hjb.symm)] at hs
        exact hs hj

end Owned

end Xv6.Lib
