import Mathlib.Data.List.Nodup
import Mathlib.Logic.Function.Basic

/-!
# Lists of writes

`writes l d` is the memory `d` after the writes of `l`, one after the other.

- `writes_append`, `writes_of_not_mem`: composition, and the addresses that are not written;
- `writes_of_mem`: with distinct addresses every write is found afterwards, whatever the memory was before.
-/

namespace Xv6.Lib

variable {α β : Type} [DecidableEq α]

/-- The memory after a list of writes. -/
def writes (l : List (α × β)) (d : α → β) : α → β := l.foldl (fun d w => Function.update d w.1 w.2) d

theorem writes_append (l l' : List (α × β)) (d : α → β) : writes (l ++ l') d = writes l' (writes l d) := by
  simp [writes]

/-- An address that is not written keeps its value. -/
theorem writes_of_not_mem {l : List (α × β)} {a : α} (h : a ∉ l.map Prod.fst) (d : α → β) : writes l d a = d a := by
  induction l generalizing d with
  | nil => rfl
  | cons w l ih =>
    simp only [List.map_cons, List.mem_cons, not_or] at h
    exact (ih h.2 _).trans (Function.update_of_ne h.1 _ _)

/-- If no address is written twice, every write is found afterwards. -/
theorem writes_of_mem {l : List (α × β)} (hn : (l.map Prod.fst).Nodup) {w : α × β} (h : w ∈ l) (d : α → β) :
    writes l d w.1 = w.2 := by
  induction l generalizing d with
  | nil => cases h
  | cons x l ih =>
    obtain ⟨hx, hl⟩ := List.nodup_cons.mp hn
    rcases List.mem_cons.mp h with rfl | h
    · exact (writes_of_not_mem hx _).trans (Function.update_self _ _ _)
    · exact ih hl h _

end Xv6.Lib
