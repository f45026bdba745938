/-!
# Functions with a state that may fail

`Ensures m s Q E`: the function `m`, started in the state `s`, returns a value and leaves a state of which `Q` holds, or it
fails with an error of which `E` holds. There is one rule for each way to put functions together; the rules for loops carry
an invariant of the state and of the elements that are left.
-/

namespace Xv6.Lib

variable {σ ε α β : Type} {m : StateT σ (Except ε) α} {f : α → StateT σ (Except ε) β} {s : σ} {Q Q' : α → σ → Prop}
  {R : β → σ → Prop} {E E' : ε → Prop}

def Ensures (m : StateT σ (Except ε) α) (s : σ) (Q : α → σ → Prop) (E : ε → Prop) : Prop :=
  match m s with
  | .ok (a, s') => Q a s'
  | .error e => E e

namespace Ensures

theorem of_ok {a : α} {s' : σ} (he : m s = .ok (a, s')) (h : Q a s') : Ensures m s Q E := by
  unfold Ensures
  rw [he]
  exact h

theorem of_error {e : ε} (he : m s = .error e) (h : E e) : Ensures m s Q E := by
  unfold Ensures
  rw [he]
  exact h

section

variable (h : Ensures m s Q E)
include h

/-- Either the function returns, or it fails. -/
theorem cases : (∃ a s', m s = .ok (a, s') ∧ Q a s') ∨ ∃ e, m s = .error e ∧ E e := by
  unfold Ensures at h
  split at h
  · next a s' he => exact .inl ⟨a, s', he, h⟩
  · next e he => exact .inr ⟨e, he, h⟩

omit h in
/-- A function that does not fail returns. -/
theorem returns (h : Ensures m s Q fun _ => False) : ∃ a s', m s = .ok (a, s') ∧ Q a s' := by
  rcases h.cases with h | ⟨e, -, h⟩
  · exact h
  · exact h.elim

/-- What is known of a function holds of what it has returned. -/
theorem result {a : α} {s' : σ} (he : m s = .ok (a, s')) : Q a s' := by
  unfold Ensures at h
  rw [he] at h
  exact h

theorem mono (hQ : ∀ a s', Q a s' → Q' a s') : Ensures m s Q' E := by
  rcases h.cases with ⟨a, s', he, h⟩ | ⟨e, he, h⟩
  · exact of_ok he (hQ a s' h)
  · exact of_error he h

theorem mono_error (hE : ∀ e, E e → E' e) : Ensures m s Q E' := by
  rcases h.cases with ⟨a, s', he, h⟩ | ⟨e, he, h⟩
  · exact of_ok he h
  · exact of_error he (hE e h)

/-- Two things that are known of a function. -/
theorem both (h' : Ensures m s Q' E') : Ensures m s (fun a s' => Q a s' ∧ Q' a s') fun e => E e ∧ E' e := by
  unfold Ensures at h h' ⊢
  split
  · next a s' he =>
    rw [he] at h h'
    exact ⟨h, h'⟩
  · next e he =>
    rw [he] at h h'
    exact ⟨h, h'⟩

theorem bind (hf : ∀ a s', Q a s' → Ensures (f a) s' R E) : Ensures (m >>= f) s R E := by
  have heq : (m >>= f) s = m s >>= fun p => f p.1 p.2 := rfl
  rcases h.cases with ⟨a, s', he, h⟩ | ⟨e, he, h⟩
  · rcases (hf a s' h).cases with ⟨b, t, hb, h⟩ | ⟨e, hb, h⟩
    · exact of_ok (by rw [heq, he]; exact hb) h
    · exact of_error (by rw [heq, he]; exact hb) h
  · exact of_error (by rw [heq, he]; rfl) h

end

theorem pure {a : α} (h : Q a s) : Ensures (Pure.pure a : StateT σ (Except ε) α) s Q E := h

theorem throw {e : ε} (h : E e) : Ensures (MonadExcept.throw e : StateT σ (Except ε) α) s Q E := h

theorem get_bind {f : σ → StateT σ (Except ε) α} (h : Ensures (f s) s Q E) : Ensures (get >>= f) s Q E := h

theorem modify_bind {f : PUnit → StateT σ (Except ε) α} {g : σ → σ} (h : Ensures (f ⟨⟩) (g s) Q E) :
    Ensures (modify g >>= f) s Q E := h

/-! ## Loops -/

/-- A loop over a list; `I` is the invariant, with what is left of the list. -/
theorem forM {f : α → StateT σ (Except ε) PUnit} {l : List α} {I : List α → σ → Prop} (h0 : I l s)
    (hf : ∀ a l s, I (a :: l) s → Ensures (f a) s (fun _ s' => I l s') E) : Ensures (l.forM f) s (fun _ s' => I [] s') E := by
  induction l generalizing s with
  | nil => exact h0
  | cons a l ih => exact (hf a l s h0).bind fun _ s' h => ih h

/-- A loop that ends with the first result. -/
theorem findSomeM? {f : α → StateT σ (Except ε) (Option β)} {l : List α} {I : List α → σ → Prop} (h0 : I l s)
    (hf : ∀ a l s, I (a :: l) s → Ensures (f a) s (fun r s' => r.elim (I l s') (R · s')) E) :
    Ensures (l.findSomeM? f) s (fun r s' => r.elim (I [] s') (R · s')) E := by
  induction l generalizing s with
  | nil => exact h0
  | cons a l ih =>
    refine (hf a l s h0).bind fun r s' h => ?_
    cases r with
    | none => exact ih h
    | some b => exact h

end Ensures

end Xv6.Lib
