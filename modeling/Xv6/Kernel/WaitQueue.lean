import Mathlib.Data.Fintype.Card
import Xv6.Kernel.Types

/-!
# The wait-queue operations of `waitqueue.c`

`wq_add_locked`, `wq_remove_locked` and `wq_has_sleeper` on the pointer heap of embedded entries. Their effect on a
well-formed bucket: the new entry is pushed in front (`wqAddLocked_chain`), and removal takes the entry out of the
list it is in (`wqRemoveLocked_chain`) while the other lists keep their cells (`wqRemoveLocked_other`).
-/

namespace Xv6

open Lib

variable {np : Nat} {D : Type}

namespace Kernel

/-- A store to the entry embedded in process `e`. -/
def setEntry (κ : Kernel np D) (e : Fin np) (g : WqEntry np → WqEntry np) : Kernel np D :=
  κ.setProc e fun p => { p with wqEntry := g p.wqEntry }

/-- Clear the link fields of an entry, as `wq_remove_locked` does with the entry it took out. -/
def clearEntry (κ : Kernel np D) (e : Fin np) : Kernel np D :=
  κ.setEntry e fun w => { w with next := none, chan := 0, queued := false }

/-- The store `e->next = v`. -/
def setNext (κ : Kernel np D) (e : Fin np) (v : Option (Fin np)) : Kernel np D :=
  κ.setEntry e fun w => { w with next := v }

/-- `wq_add_locked(b, chan, p)` with `b` the bucket `i`. -/
def wqAddLocked (κ : Kernel np D) (i : Fin NWQUEUE) (chan : Chan) (p : Fin np) : Kernel np D :=
  (κ.setEntry p fun _ => { proc := p, chan := chan, next := κ.head i, queued := true }).setHead i (some p)

/-- The loop `while(e && e->next)` of `wq_remove_locked`, with a bound on the number of iterations: it looks for the
predecessor of `entry` from `e` on and unlinks `entry` there. -/
def removeAfter (entry : Fin np) : Nat → Option (Fin np) → Kernel np D → Kernel np D
  | 0, _, κ => κ
  | _ + 1, none, κ => κ
  | n + 1, some e, κ =>
    match κ.nextOf e with
    | none => κ
    | some e' =>
      if e' = entry then (κ.setNext e (κ.nextOf entry)).clearEntry entry
      else removeAfter entry n (some e') κ

/-- `wq_remove_locked(b, entry)` with `b` the bucket `i`. A list has at most `np` entries, so `np` iterations of its
loop are enough. -/
def wqRemoveLocked (κ : Kernel np D) (i : Fin NWQUEUE) (entry : Fin np) : Kernel np D :=
  if κ.head i = some entry then (κ.setHead i (κ.nextOf entry)).clearEntry entry
  else removeAfter entry np (κ.head i) κ

/-- `wq_has_sleeper(chan)`. -/
def wqHasSleeper (κ : Kernel np D) (chan : Chan) : Bool := (κ.head (wqHash chan)).isSome

/-! ## What the operations leave alone -/

/-- Only embedded entries (and heads) differ. -/
def OnlyEntries (κ κ' : Kernel np D) : Prop :=
  ∀ q, κ'.procs q = { κ.procs q with wqEntry := (κ'.procs q).wqEntry }

namespace OnlyEntries

variable {κ κ' κ'' : Kernel np D}

theorem refl (κ : Kernel np D) : OnlyEntries κ κ := fun _ => rfl

theorem trans (h : OnlyEntries κ κ') (h' : OnlyEntries κ' κ'') : OnlyEntries κ κ'' := by
  intro q
  rw [h' q, h q]

variable (h : OnlyEntries κ κ') (q : Fin np)
include h q

theorem state : (κ'.procs q).state = (κ.procs q).state := by rw [h q]
theorem chan : (κ'.procs q).chan = (κ.procs q).chan := by rw [h q]
theorem killed : (κ'.procs q).killed = (κ.procs q).killed := by rw [h q]
theorem pid : (κ'.procs q).pid = (κ.procs q).pid := by rw [h q]
theorem parent : (κ'.procs q).parent = (κ.procs q).parent := by rw [h q]

end OnlyEntries

section Frame

variable (κ : Kernel np D) (i : Fin NWQUEUE) (chan : Chan) (e p : Fin np)

theorem setEntry_only (g : WqEntry np → WqEntry np) : OnlyEntries κ (κ.setEntry e g) := by
  intro q
  by_cases h : q = e
  · subst h; simp [setEntry]
  · simp [setEntry, setProc_ne _ _ h]

theorem setHead_only (h : Option (Fin np)) : OnlyEntries κ (κ.setHead i h) := fun _ => rfl

theorem wqAddLocked_only : OnlyEntries κ (κ.wqAddLocked i chan p) := (setEntry_only κ p _).trans (setHead_only _ i _)

theorem removeAfter_only (n : Nat) (h : Option (Fin np)) : OnlyEntries κ (removeAfter e n h κ) := by
  induction n generalizing h with
  | zero => exact .refl κ
  | succ n ih =>
    cases h with
    | none => exact .refl κ
    | some a =>
      simp only [removeAfter]
      split
      · exact .refl κ
      · split
        · exact (setEntry_only κ a _).trans (setEntry_only _ e _)
        · exact ih _

theorem wqRemoveLocked_only : OnlyEntries κ (κ.wqRemoveLocked i e) := by
  simp only [wqRemoveLocked]
  split
  · exact setEntry_only _ e _
  · exact removeAfter_only κ e np _

@[simp] theorem wqAddLocked_state (q : Fin np) : ((κ.wqAddLocked i chan p).procs q).state = (κ.procs q).state :=
  (wqAddLocked_only κ i chan p).state q

@[simp] theorem wqRemoveLocked_state (q : Fin np) : ((κ.wqRemoveLocked i e).procs q).state = (κ.procs q).state :=
  (wqRemoveLocked_only κ i e).state q

end Frame

/-! ## Their effect on a well-formed bucket -/

section Effect

variable {κ : Kernel np D} {i : Fin NWQUEUE} {e : Fin np} {pre suf : List (Fin np)}

theorem setEntry_entry (g : WqEntry np → WqEntry np) (q : Fin np) :
    ((κ.setEntry e g).procs q).wqEntry = if q = e then g (κ.procs e).wqEntry else (κ.procs q).wqEntry := by
  simp only [setEntry, setProc_procs, apply_ite Proc.wqEntry]

theorem nextOf_setEntry (g : WqEntry np → WqEntry np) :
    (κ.setEntry e g).nextOf = Function.update κ.nextOf e (g (κ.procs e).wqEntry).next := by
  funext q
  simp only [nextOf, setEntry_entry, Function.update_apply]
  split <;> rfl

theorem nextOf_setHead (h : Option (Fin np)) : (κ.setHead i h).nextOf = κ.nextOf := rfl

/-- The new entry stands in front of the bucket. -/
theorem wqAddLocked_chain {chan : Chan} {p : Fin np} {l : List (Fin np)} (hc : Chain κ.nextOf (κ.head i) l)
    (hp : p ∉ l) : Chain (κ.wqAddLocked i chan p).nextOf ((κ.wqAddLocked i chan p).head i) (p :: l) := by
  have hn : (κ.wqAddLocked i chan p).nextOf = Function.update κ.nextOf p (κ.head i) := by
    rw [wqAddLocked, nextOf_setHead, nextOf_setEntry]
  rw [hn, wqAddLocked, setHead_same]
  exact hc.push hp

/-- The search loop finds the predecessor `b` of the entry. -/
theorem removeAfter_eq {b : Fin np} {n : Nat} {h : Option (Fin np)}
    (hc : Chain κ.nextOf h (pre ++ b :: e :: suf)) (hn : pre.length < n) :
    removeAfter e n h κ = (κ.setNext b (κ.nextOf e)).clearEntry e := by
  induction pre generalizing n h with
  | nil =>
    obtain ⟨n, rfl⟩ : ∃ m, n = m + 1 := ⟨n - 1, by simp at hn; omega⟩
    obtain rfl := hc.head_eq
    have hb : κ.nextOf b = some e := hc.next_eq
    simp [removeAfter, hb]
  | cons a pre ih =>
    obtain ⟨n, rfl⟩ : ∃ m, n = m + 1 := ⟨n - 1, by simp at hn; omega⟩
    have hd := hc.nodup
    cases hc with
    | cons ht =>
      cases hx : κ.nextOf a with
      | none =>
        rw [hx] at ht
        simp [Chain.none_iff] at ht
      | some a' =>
        have ha : a' ≠ e := by
          rintro rfl
          have hh := hx ▸ ht.head_eq
          cases pre with
          | nil => simp_all
          | cons c pre => simp_all
        rw [hx] at ht
        simp only [List.cons_append, List.head?_cons, removeAfter, hx, ha, if_false]
        exact ih ht (by simpa using hn)

variable (hc : Chain κ.nextOf (κ.head i) (pre ++ e :: suf))
include hc

/-- Removal, by the position of the entry: it is the head of its bucket, or has a predecessor. -/
theorem wqRemoveLocked_eq : pre = [] ∧ κ.wqRemoveLocked i e = (κ.setHead i (κ.nextOf e)).clearEntry e ∨
      ∃ pre' b, pre = pre' ++ [b] ∧ κ.wqRemoveLocked i e = (κ.setNext b (κ.nextOf e)).clearEntry e := by
  have hd := hc.nodup
  rcases List.eq_nil_or_concat pre with rfl | ⟨pre', b, rfl⟩
  · left
    have hh : κ.head i = some e := hc.head_eq
    simp [wqRemoveLocked, hh]
  · right
    refine ⟨pre', b, by simp, ?_⟩
    have hne : κ.head i ≠ some e := by
      have hh := hc.head_eq
      cases pre' <;> simp_all
    rw [wqRemoveLocked, if_neg hne]
    have hc' : Chain κ.nextOf (κ.head i) (pre' ++ b :: e :: suf) := by simpa using hc
    have hlen := List.Nodup.length_le_card hc'.nodup
    simp at hlen
    exact removeAfter_eq hc' (by omega)

/-- Removal takes the entry out of its list. -/
theorem wqRemoveLocked_chain : Chain (κ.wqRemoveLocked i e).nextOf ((κ.wqRemoveLocked i e).head i) (pre ++ suf) := by
  rcases wqRemoveLocked_eq hc with ⟨rfl, h⟩ | ⟨pre', b, rfl, h⟩
  · have hn : (κ.wqRemoveLocked i e).nextOf = Function.update κ.nextOf e none := by
      rw [h, clearEntry, nextOf_setEntry]; rfl
    have hh : κ.head i = some e := hc.head_eq
    rw [hn, h]
    simp only [clearEntry, setEntry, setProc_head, setHead_same, List.nil_append]
    exact (hh ▸ hc).pop none
  · have hn : (κ.wqRemoveLocked i e).nextOf = Function.update (Function.update κ.nextOf b (κ.nextOf e)) e none := by
      rw [h, clearEntry, nextOf_setEntry, setNext, nextOf_setEntry]
    rw [hn, h]
    simp only [clearEntry, setNext, setEntry, setProc_head, List.append_assoc, List.singleton_append]
    exact Chain.unlink none (by simpa using hc)

theorem wqRemoveLocked_head {j : Fin NWQUEUE} (hj : j ≠ i) : (κ.wqRemoveLocked i e).head j = κ.head j := by
  rcases wqRemoveLocked_eq hc with ⟨_, h⟩ | ⟨_, b, _, h⟩ <;> rw [h]
  · exact setHead_ne _ _ hj
  · rfl

/-- The entry taken out is cleared. -/
theorem wqRemoveLocked_entry_self : ((κ.wqRemoveLocked i e).procs e).wqEntry =
      { (κ.procs e).wqEntry with next := none, chan := 0, queued := false } := by
  rcases wqRemoveLocked_eq hc with ⟨_, h⟩ | ⟨_, b, _, h⟩
  · rw [h, clearEntry, setEntry_entry, if_pos rfl, setHead_procs]
  · rw [h, clearEntry, setEntry_entry, if_pos rfl, setNext, setEntry_entry]
    split
    · next he => subst he; rfl
    · rfl

/-- Of the other entries of the bucket only links change. -/
theorem wqRemoveLocked_entry_ne {q : Fin np} (hq : q ≠ e) :
    ∃ v, ((κ.wqRemoveLocked i e).procs q).wqEntry = { (κ.procs q).wqEntry with next := v } := by
  rcases wqRemoveLocked_eq hc with ⟨_, h⟩ | ⟨_, b, _, h⟩
  · exact ⟨_, by rw [h, clearEntry, setEntry_entry, if_neg hq, setHead_procs]⟩
  · rw [h, clearEntry, setEntry_entry, if_neg hq, setNext, setEntry_entry]
    split
    · next hb => subst hb; exact ⟨_, rfl⟩
    · exact ⟨_, rfl⟩

/-- Entries outside the bucket keep everything. -/
theorem wqRemoveLocked_other {q : Fin np}
    (hq : q ∉ pre ++ e :: suf) : ((κ.wqRemoveLocked i e).procs q).wqEntry = (κ.procs q).wqEntry := by
  simp only [List.mem_append, List.mem_cons, not_or] at hq
  rcases wqRemoveLocked_eq hc with ⟨_, h⟩ | ⟨_, b, rfl, h⟩
  · rw [h, clearEntry, setEntry_entry, if_neg hq.2.1, setHead_procs]
  · rw [h, clearEntry, setEntry_entry, if_neg hq.2.1, setNext, setEntry_entry, if_neg]
    rintro rfl
    simp at hq

end Effect

end Kernel

end Xv6
