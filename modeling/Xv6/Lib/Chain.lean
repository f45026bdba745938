import Mathlib.Data.List.Nodup
import Mathlib.Logic.Function.Basic

/-!
# Null-terminated chains in a pointer heap

A heap of list cells is a function `next : α → Option α`. `Chain next h l` says that following `next` from the
pointer `h` visits exactly the cells of `l`, in order, and then reaches the null pointer.

- a chain is determined by its first pointer (`Chain.unique`) and visits no cell twice (`Chain.nodup`);
- stores to cells outside the chain do not change it (`Chain.congr`, `Chain.update`);
- pushing a cell (`Chain.push`) and unlinking a cell through its predecessor (`Chain.unlink`).
-/

namespace Xv6.Lib

variable {α : Type} {next : α → Option α}
variable {h : Option α} {l suf pre : List α} {a : α}

/-- Following `next` from the pointer visits the cells of the list and ends at the null pointer. -/
inductive Chain (next : α → Option α) : Option α → List α → Prop
  | nil : Chain next none []
  | cons {a : α} {l : List α} : Chain next (next a) l → Chain next (some a) (a :: l)

namespace Chain

theorem none_iff : Chain next none l ↔ l = [] := by
  constructor
  · intro h; cases h; rfl
  · rintro rfl; exact .nil

theorem some_iff : Chain next (some a) l ↔ ∃ t, l = a :: t ∧ Chain next (next a) t := by
  constructor
  · intro h
    cases h with
    | cons ht => exact ⟨_, rfl, ht⟩
  · rintro ⟨t, rfl, ht⟩; exact .cons ht

/-- The first pointer of a chain is the head of its list. -/
theorem head_eq (hc : Chain next h l) : h = l.head? := by
  cases hc <;> rfl

/-- A pointer starts at most one chain. -/
theorem unique {l' : List α} (hl : Chain next h l) (hl' : Chain next h l') : l = l' := by
  induction hl generalizing l' with
  | nil => exact (none_iff.mp hl').symm
  | cons _ ih =>
    obtain ⟨t, rfl, ht⟩ := some_iff.mp hl'
    rw [ih ht]

/-- The part of a chain from a visited cell on is a chain from that cell. -/
theorem suffix (hc : Chain next h (pre ++ suf)) : Chain next suf.head? suf := by
  induction pre generalizing h with
  | nil =>
    have hs : Chain next h suf := hc
    rw [← head_eq hs]; exact hs
  | cons b pre ih =>
    cases hc with
    | cons ht => exact ih ht

/-- The successor of a visited cell is the head of the rest. -/
theorem next_eq (hc : Chain next h (pre ++ a :: suf)) : next a = suf.head? := by
  cases suffix hc with
  | cons ht => exact head_eq ht

/-- A chain visits no cell twice. -/
theorem nodup (hc : Chain next h l) : l.Nodup := by
  induction hc with
  | nil => exact List.nodup_nil
  | @cons a t ht ih =>
    refine List.nodup_cons.mpr ⟨fun hmem => ?_, ih⟩
    -- a second visit of `a` would start a strictly shorter chain with the same first pointer
    obtain ⟨pre, suf, rfl⟩ := List.append_of_mem hmem
    have h1 : Chain next (next a) suf := by
      cases suffix ht with
      | cons hs => exact hs
    have := congrArg List.length (unique ht h1)
    simp at this
    omega

/-- A chain depends only on the cells it visits. -/
theorem congr {next' : α → Option α} (hc : Chain next h l) (he : ∀ a ∈ l, next' a = next a) : Chain next' h l := by
  induction hc with
  | nil => exact .nil
  | @cons a t _ ih =>
    refine .cons ?_
    rw [he a List.mem_cons_self]
    exact ih fun b hb => he b (List.mem_cons_of_mem _ hb)

variable [DecidableEq α]

/-- A store to a cell outside the chain. -/
theorem update (v : Option α) (hc : Chain next h l) (ha : a ∉ l) : Chain (Function.update next a v) h l :=
  hc.congr fun b hb => Function.update_of_ne (fun e : b = a => ha (e ▸ hb)) _ _

/-- Pushing a cell in front. -/
theorem push (hc : Chain next h l) (ha : a ∉ l) : Chain (Function.update next a h) (some a) (a :: l) := by
  refine .cons ?_
  rw [Function.update_self]
  exact hc.update h ha

/-- Dropping the first cell. -/
theorem pop (hc : Chain next (some a) (a :: l)) (v : Option α) : Chain (Function.update next a v) (next a) l := by
  have hn := hc.nodup
  cases hc with
  | cons ht => exact ht.update v (List.nodup_cons.mp hn).1

/-- Unlinking `e` through its predecessor `b`: `b` takes over the successor of `e`, and `e` is cleared. -/
theorem unlink {b e : α} (v : Option α) (hc : Chain next h (pre ++ b :: e :: suf)) :
    Chain (Function.update (Function.update next b (next e)) e v) h (pre ++ b :: suf) := by
  have hn := hc.nodup
  induction pre generalizing h with
  | nil =>
    simp only [List.nil_append, List.nodup_cons, List.mem_cons, not_or] at hc hn ⊢
    obtain ⟨⟨hbe, hbs⟩, hes, _⟩ := hn
    cases hc with
    | cons hb =>
      obtain ⟨t, ht, hs⟩ := some_iff.mp (head_eq hb ▸ hb)
      simp only [List.cons.injEq, true_and] at ht
      subst ht
      refine .cons ?_
      rw [Function.update_of_ne hbe, Function.update_self]
      exact (hs.update _ hbs).update v hes
  | cons c pre ih =>
    simp only [List.cons_append, List.nodup_cons, List.mem_append, List.mem_cons, not_or] at hc hn ⊢
    obtain ⟨⟨_, hcb, hce, _⟩, hn'⟩ := hn
    cases hc with
    | cons ht =>
      refine .cons ?_
      rw [Function.update_of_ne hce, Function.update_of_ne hcb]
      exact ih ht hn'

end Chain

end Xv6.Lib
