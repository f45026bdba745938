import Mathlib.Logic.Relation

/-!
# Runs of a machine

A machine has states `S` and actions `A`; `step s a` is the state after an action, or `none` if the action is not possible.
`Steps` is one step by an action that a side condition `G` allows, and `Runs` any number of them.
-/

namespace Xv6.Lib

variable {S A : Type} {step : S → A → Option S} {G : S → A → Prop} {s s' : S}

/-- One step. -/
def Steps (step : S → A → Option S) (G : S → A → Prop) (s s' : S) : Prop := ∃ a, G s a ∧ step s a = some s'

/-- Any number of steps. -/
abbrev Runs (step : S → A → Option S) (G : S → A → Prop) : S → S → Prop := Relation.ReflTransGen (Steps step G)

/-- A list of actions that are always allowed. -/
theorem Runs.of_foldlM {acts : List A} (hg : ∀ a ∈ acts, ∀ t, G t a) (h : acts.foldlM step s = some s') :
    Runs step G s s' := by
  induction acts generalizing s with
  | nil =>
    cases h
    exact .refl
  | cons a acts ih =>
    obtain ⟨t, ht, h⟩ := Option.bind_eq_some_iff.mp h
    exact .head ⟨a, hg a List.mem_cons_self s, ht⟩ (ih (fun b hb => hg b (List.mem_cons_of_mem a hb)) h)

/-- A list of actions that are allowed where they are taken. -/
theorem Runs.of_guarded [∀ s a, Decidable (G s a)] {acts : List A}
    (h : acts.foldlM (fun s a => if G s a then step s a else none) s = some s') : Runs step G s s' := by
  induction acts generalizing s with
  | nil =>
    cases h
    exact .refl
  | cons a acts ih =>
    obtain ⟨t, ht, h⟩ := Option.bind_eq_some_iff.mp h
    dsimp only at ht
    split at ht
    · next hg => exact .head ⟨a, hg, ht⟩ (ih h)
    · cases ht

/-- What holds at the start of a run and is kept by every step holds at its end. -/
theorem Runs.invariant {I : S → Prop} (h : Runs step G s s') (h0 : I s)
    (hs : ∀ {t t' a}, I t → G t a → step t a = some t' → I t') : I s' := by
  induction h with
  | refl => exact h0
  | tail _ ht ih =>
    obtain ⟨a, ha, ht⟩ := ht
    exact hs ih ha ht

end Xv6.Lib
