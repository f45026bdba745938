import Mathlib.Logic.Relation
import Mathlib.Logic.Function.Basic

/-!
# Threads that share a state

A `Prog` is a sequential program over commands, each of which gives back a response. Any number of threads run such
programs in any interleaving; a command is one atomic step on the shared state, which may have to wait, and may halt
the machine.

A `Logic` proves an invariant of the shared state. Every thread has a ghost value, which says what the thread owns and
knows; the invariant relates the state to the ghost values of all threads. For every command there is a precondition on
the ghost value of the thread that executes it (`pre`), under which the step keeps the invariant. `wp` is the weakest
precondition of a program that these induce.

- `Logic.wp_bind`, `Logic.wp_mono`: how proofs about programs compose;
- `Logic.invariant`: the invariant holds in every reachable configuration;
- `Machine.Ends`, `Machine.wlp`: a program that runs alone, and what holds of all its ends.
-/

namespace Xv6.Lib

open Function (update update_idem update_of_ne update_self)

/-- Programs over the commands `C` with responses `R` that return an `α`. -/
inductive Prog (C : Type) (R : C → Type) (α : Type)
  | ret (a : α)
  | cmd (c : C) (k : R c → Prog C R α)

namespace Prog

variable {C : Type} {R : C → Type} {α β : Type}
variable {f : Prog C R α} {x : Prog C R Unit × S}

/-- Go on with another program. -/
def bind : Prog C R α → (α → Prog C R β) → Prog C R β
  | ret a, f => f a
  | cmd c k, f => cmd c fun r => bind (k r) f

instance : Monad (Prog C R) where
  pure := ret
  bind := bind

/-- A single command. -/
def call (c : C) : Prog C R (R c) := cmd c ret

end Prog

/-- A state that threads `P` share: what a command does, given a choice of the environment, and when the machine is
halted. A command that cannot be executed now has no result. -/
structure Machine (P C : Type) (R : C → Type) (S : Type) where
  exec : P → (c : C) → Nat → S → Option (R c × S)
  halted : S → Bool

namespace Machine

variable {P C S : Type} {R : C → Type} [DecidableEq P] (M : Machine P C R S)

/-- The shared state and what remains of the programs of the threads. -/
structure Conf (P C : Type) (R : C → Type) (S : Type) where
  state : S
  prog : P → Prog C R Unit

/-- One step: a thread executes a command, or one that has nothing to do starts a new program. The steps may be
restricted by a condition on the state, the thread and the command. -/
inductive Step (start : S → P → Prog C R Unit → Prop) (cond : S → P → C → Prop) : Conf P C R S → Conf P C R S → Prop
  | run {s s' : S} {prog : P → Prog C R Unit} (p : P) (c : C) (k : R c → Prog C R Unit) (ch : Nat) (r : R c)
      (hp : prog p = .cmd c k) (hl : M.halted s = false) (hc : cond s p c) (hs : M.exec p c ch s = some (r, s')) :
      Step start cond ⟨s, prog⟩ ⟨s', Function.update prog p (k r)⟩
  | start {s : S} {prog : P → Prog C R Unit} (p : P) (f : Prog C R Unit) (hp : prog p = .ret ()) (hl : M.halted s = false)
      (hf : start s p f) : Step start cond ⟨s, prog⟩ ⟨s, Function.update prog p f⟩

/-- The configurations that can be reached from a state in which no thread has anything to do. -/
def Reachable (start : S → P → Prog C R Unit → Prop) (cond : S → P → C → Prop) (s₀ : S) (x : Conf P C R S) : Prop :=
  Relation.ReflTransGen (Step M start cond) ⟨s₀, fun _ => .ret ()⟩ x

/-- A program that runs without interference, with the given choices and by steps that meet a condition, to its end or
until the machine is halted: what remains of it, and the state. -/
def run {α : Type} (check : S → P → C → Bool) (p : P) : Prog C R α → List Nat → S → Option (Prog C R α × S)
  | .ret a, _, s => some (.ret a, s)
  | .cmd c k, chs, s =>
    if M.halted s then some (.cmd c k, s)
    else if check s p c then (M.exec p c (chs.headD 0) s).bind fun rs => run check p (k rs.1) chs.tail rs.2
    else none

/-- The first `k` steps of a program that runs without interference. -/
def runFor {α : Type} (p : P) : Nat → Prog C R α → List Nat → S → Option (Prog C R α × S)
  | k + 1, .cmd c f, chs, s =>
    if M.halted s then none
    else (M.exec p c (chs.headD 0) s).bind fun rs => runFor p k (f rs.1) chs.tail rs.2
  | _, f, _, s => some (f, s)

variable {M} {start : S → P → Prog C R Unit → Prop} {cond : S → P → C → Prop} {check : S → P → C → Bool} {s₀ s s' : S}
  {prog : P → Prog C R Unit} {p : P}

/-- The condition on the steps may be weakened. -/
theorem Reachable.mono {cond' : S → P → C → Prop} (hc : ∀ s p c, cond s p c → cond' s p c) {x : Conf P C R S}
    (h : M.Reachable start cond s₀ x) : M.Reachable start cond' s₀ x := by
  induction h with
  | refl => exact .refl
  | tail _ hs ih =>
    refine ih.tail ?_
    cases hs with
    | run p c k ch r hp hl h hs => exact .run p c k ch r hp hl (hc _ _ _ h) hs
    | start p f hp hl hf => exact .start p f hp hl hf

theorem Reachable.run (hcheck : ∀ s p c, check s p c = true → cond s p c) (f : Prog C R Unit)
    (chs : List Nat) (h : M.Reachable start cond s₀ ⟨s, update prog p f⟩)
    (hr : M.run check p f chs s = some x) :
    M.Reachable start cond s₀ ⟨x.2, update prog p x.1⟩ := by
  induction f generalizing chs s with
  | ret a => cases hr; exact h
  | cmd c k ih =>
    rw [Machine.run] at hr
    split at hr
    · cases hr; exact h
    · next hl =>
      split at hr
      · next hc =>
        obtain ⟨⟨r, s₁⟩, hs, hr⟩ := Option.bind_eq_some_iff.mp hr
        refine ih r chs.tail ?_ hr
        have hstep : Step M start cond ⟨s, update prog p (.cmd c k)⟩ ⟨s₁, update (update prog p (.cmd c k)) p (k r)⟩ :=
          .run p c k (chs.headD 0) r (update_self p (.cmd c k) prog) (by simpa using hl) (hcheck s p c hc) hs
        rw [update_idem] at hstep
        exact h.tail hstep
      · cases hr

theorem Reachable.runFor (hcond : ∀ s p c, cond s p c) {k : Nat} {f : Prog C R Unit}
    {chs : List Nat} (h : M.Reachable start cond s₀ ⟨s, update prog p f⟩)
    (hr : M.runFor p k f chs s = some x) : M.Reachable start cond s₀ ⟨x.2, update prog p x.1⟩ := by
  induction k generalizing f chs s with
  | zero =>
    cases hr
    exact h
  | succ k ih =>
    cases f with
    | ret a =>
      cases hr
      exact h
    | cmd c j =>
      rw [Machine.runFor] at hr
      split at hr
      · cases hr
      · next hl =>
        obtain ⟨⟨r, s₁⟩, hs, hr⟩ := Option.bind_eq_some_iff.mp hr
        refine ih ?_ hr
        have hstep : Step M start cond ⟨s, update prog p (.cmd c j)⟩ ⟨s₁, update (update prog p (.cmd c j)) p (j r)⟩ :=
          .run p c j (chs.headD 0) r (update_self p (.cmd c j) prog) (by simpa using hl) (hcond s p c) hs
        rw [update_idem] at hstep
        exact h.tail hstep

/-- What has not run to its end has halted the machine. -/
theorem run_halted {f : Prog C R Unit} {chs : List Nat} (hr : M.run check p f chs s = some x)
    (hl : M.halted x.2 = false) : x.1 = .ret () := by
  induction f generalizing chs s with
  | ret a => cases hr; rfl
  | cmd c k ih =>
    rw [Machine.run] at hr
    split at hr
    · next hh =>
      cases hr
      rw [hh] at hl
      cases hl
    · split at hr
      · obtain ⟨⟨r, s₁⟩, hs, hr⟩ := Option.bind_eq_some_iff.mp hr
        exact ih r hr
      · cases hr

/-! ## Programs that run without interference -/

section Sequential

variable {α β : Type}

/-- The program runs from a state to its end, by choices that are allowed, and the machine is never halted: what it
returns, and the state. -/
inductive Ends (M : Machine P C R S) (ok : C → Nat → Prop) (p : P) : Prog C R α → S → α → S → Prop
  | ret (a : α) (s : S) : Ends M ok p (.ret a) s a s
  | cmd {c : C} {k : R c → Prog C R α} {s s₁ s' : S} {a : α} (ch : Nat) (r : R c) (hok : ok c ch)
      (hs : M.exec p c ch s = some (r, s₁)) (hl : M.halted s₁ = false) (h : Ends M ok p (k r) s₁ a s') :
      Ends M ok p (.cmd c k) s a s'

/-- What holds of every end of a program. -/
def wlp (M : Machine P C R S) (ok : C → Nat → Prop) (p : P) : Prog C R α → S → (α → S → Prop) → Prop
  | .ret a, s, Q => Q a s
  | .cmd c k, s, Q => ∀ ch r s', ok c ch → M.exec p c ch s = some (r, s') → M.halted s' = false → wlp M ok p (k r) s' Q

variable {ok : C → Nat → Prop}

end Sequential

end Machine

/-- A proof method for invariants: ghost values, the invariant, the ghost values of threads that have nothing to do,
and the preconditions of the commands. -/
structure Logic {P C S : Type} {R : C → Type} [DecidableEq P] (M : Machine P C R S) (cond : S → P → C → Prop)
    (G : Type) where
  inv : S → (P → G) → Prop
  idle : G → Prop
  pre : P → (c : C) → G → (R c → G → Prop) → Prop
  mono : ∀ p c g (Q Q' : R c → G → Prop), (∀ r g', Q r g' → Q' r g') → pre p c g Q → pre p c g Q'
  sound : ∀ s (g : P → G) p c Q ch r s', inv s g → pre p c (g p) Q → M.halted s = false → cond s p c →
    M.exec p c ch s = some (r, s') → ∃ g', inv s' (Function.update g p g') ∧ (M.halted s' = false → Q r g')

namespace Logic

variable {P C S G : Type} {R : C → Type} [DecidableEq P] {M : Machine P C R S} {cond : S → P → C → Prop}
  (Λ : Logic M cond G) {p : P} {α β : Type}

/-- The weakest precondition of a program. -/
def wp (p : P) : Prog C R α → G → (α → G → Prop) → Prop
  | .ret a, g, Q => Q a g
  | .cmd c k, g, Q => Λ.pre p c g fun r g' => wp p (k r) g' Q

theorem wp_mono {x : Prog C R α} {g : G} {Q Q' : α → G → Prop} (hQ : ∀ a g', Q a g' → Q' a g') (h : Λ.wp p x g Q) :
    Λ.wp p x g Q' := by
  induction x generalizing g with
  | ret a => exact hQ a g h
  | cmd c k ih => exact Λ.mono p c g _ _ (fun r g' h' => ih r h') h

theorem wp_bind {x : Prog C R α} {f : α → Prog C R β} {g : G} {Q : β → G → Prop} :
    Λ.wp p (x >>= f) g Q ↔ Λ.wp p x g fun a g' => Λ.wp p (f a) g' Q := by
  induction x generalizing g with
  | ret a => exact Iff.rfl
  | cmd c k ih =>
    constructor
    · exact Λ.mono p c g _ _ fun r g' h' => (ih r).mp h'
    · exact Λ.mono p c g _ _ fun r g' h' => (ih r).mpr h'

/-- The invariant and the programs that are still to be run. -/
def Good (x : Machine.Conf P C R S) : Prop :=
  ∃ g : P → G, Λ.inv x.state g ∧ (M.halted x.state = false → ∀ p, Λ.wp p (x.prog p) (g p) fun _ g' => Λ.idle g')

variable {start : S → P → Prog C R Unit → Prop}

/-- Every program that a thread may start meets its precondition, with a ghost value that suits the start. -/
def Starts (start : S → P → Prog C R Unit → Prop) : Prop :=
  ∀ s g p f, Λ.inv s g → Λ.idle (g p) → start s p f →
    ∃ g', Λ.inv s (Function.update g p g') ∧ Λ.wp p f g' fun _ g'' => Λ.idle g''

theorem Good.step (hstart : Λ.Starts start)
    {x y : Machine.Conf P C R S} (h : Λ.Good x) (hs : Machine.Step M start cond x y) : Λ.Good y := by
  obtain ⟨g, hi, hwp⟩ := h
  cases hs with
  | @run s s' prog p c k ch r hp hl hc hs =>
    have hw : Λ.wp p (prog p) (g p) _ := hwp hl p
    rw [hp] at hw
    obtain ⟨g', hi', hq⟩ := Λ.sound s g p c _ ch r s' hi hw hl hc hs
    refine ⟨update g p g', hi', fun hl' q => ?_⟩
    show Λ.wp q (update prog p (k r) q) _ _
    by_cases he : q = p
    · subst he
      rw [update_self, update_self]
      exact hq hl'
    · rw [update_of_ne he, update_of_ne he]
      exact hwp hl q
  | @start s prog p f hp hl hf =>
    have hw : Λ.wp p (prog p) (g p) _ := hwp hl p
    rw [hp] at hw
    obtain ⟨g', hi', hw'⟩ := hstart s g p f hi hw hf
    refine ⟨update g p g', hi', fun _ q => ?_⟩
    show Λ.wp q (update prog p f q) _ _
    by_cases he : q = p
    · subst he
      rw [update_self, update_self]
      exact hw'
    · rw [update_of_ne he, update_of_ne he]
      exact hwp hl q

/-- **The invariant holds in every reachable configuration**, if it holds at the beginning and every program that a
thread may start meets its precondition. -/
theorem invariant (hstart : Λ.Starts start) {s₀ : S} {g₀ : P → G} (h0 : Λ.inv s₀ g₀) (hg : ∀ p, Λ.idle (g₀ p))
    {x : Machine.Conf P C R S} (hx : M.Reachable start cond s₀ x) : Λ.Good x := by
  induction hx with
  | refl => exact ⟨g₀, h0, fun _ p => hg p⟩
  | tail _ hs ih => exact ih.step Λ hstart hs

end Logic

end Xv6.Lib
