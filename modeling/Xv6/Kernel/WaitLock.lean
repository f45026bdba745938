import Xv6.Kernel.Life

/-!
# Who holds `wait_lock`

The locks with a name are taken by the surrounding code too, so the base invariant says nothing about them. For
`wait_lock` the stacks tell who holds it: the thread that is executing `reparent`, the end of `kexit`, the scan of
`kwait` or the store to `np->parent` in `kfork`, or a function one of them has called and that keeps the lock.

- `Waits`, `Loose`: the stacks of a thread that holds the lock for one of these functions, and of one that does not;
- `Reachable.waitInv`: every stack is of one of these shapes, and in the first case its CPU holds the lock.
-/

namespace Xv6

open State
open Function (update update_of_ne update_self)

variable {np nc : Nat} {S : System np}

/-! ## Points -/

namespace Frame

variable {L : Type}

/-- The points of `kfork`, `kexit` and `kwait` that execute with `wait_lock` held. -/
def waits : Frame np L → Bool
  | .kfork _ pc => match pc with | .setParent _ _ | .unlockWait _ _ => true | _ => false
  | .kexit _ _ pc =>
    match pc with
    | .reparent _ | .callInit _ | .callParent _ | .lockSelf | .setZombie | .unlockWait => true
    | _ => false
  | .kwait _ pc => match pc with | .lockWait => false | _ => true
  | _ => false

/-- `kwait` where its `sleep` returns to: the process does not hold the lock while it sleeps. -/
def isStart : Frame np L → Bool
  | .kwait _ .start => true
  | _ => false

def isSleep : Frame np L → Bool
  | .sleep _ _ _ _ => true
  | _ => false

/-- What these functions call, as long as it keeps the lock. -/
def keepsWait : Frame np L → Bool
  | .wake _ _ _ | .ret _ | .killed _ _ => true
  | .sleep _ _ .waitLock pc => match pc with | .lockBucket | .lockProc | .unlockCond => true | _ => false
  | _ => false

/-- `sleep(chan, &wait_lock)` after it has released the lock. -/
def sleepsOut : Frame np L → Bool
  | .sleep _ _ .waitLock pc => match pc with | .lockBucket | .lockProc | .unlockCond => false | _ => true
  | _ => false

end Frame

/-! ## Stacks -/

/-- No function on the stack relies on holding the lock: the only such point is `kwait` asleep. `b` says that the record
above is `sleep` after the release. -/
def Loose : Bool → List S.F → Prop
  | _, [] => True
  | b, f :: rest => (f.waits = true → b = true ∧ f.isStart = true) ∧ Loose f.sleepsOut rest

namespace Loose

variable {b : Bool} {f : S.F} {st rest : List S.F}

theorem mono (h : Loose false st) : Loose b st := by
  cases st with
  | nil => trivial
  | cons f rest => exact ⟨fun hf => absurd (h.1 hf).1 Bool.false_ne_true, h.2⟩

theorem cons (hf : f.waits = false) (h : Loose f.sleepsOut rest) : Loose b (f :: rest) :=
  ⟨fun hx => absurd (hf.symm.trans hx) Bool.false_ne_true, h⟩

/-- A record is put on top. -/
theorem push (hf : f.waits = false) (h : Loose false rest) : Loose b (f :: rest) := .cons hf h.mono

theorem head (h : Loose false (f :: rest)) : f.waits = false :=
  Bool.eq_false_iff.mpr fun hf => Bool.false_ne_true (h.1 hf).1

theorem mem (h : Loose b st) (hf : f ∈ st) (hw : f.waits = true) : f.isStart = true := by
  induction st generalizing b with
  | nil => cases hf
  | cons g rest ih =>
    rcases List.mem_cons.mp hf with rfl | hf
    · exact (h.1 hw).2
    · exact ih h.2 hf

end Loose

/-- The stacks of a thread that holds the lock for one of the functions. -/
inductive Waits (st : List S.F) : Prop
  | top {f : S.F} {rest : List S.F} (hst : st = f :: rest) (hf : f.waits = true) (hr : Loose false rest)
  | under {g f : S.F} {rest : List S.F} (hst : st = g :: f :: rest) (hg : g.keepsWait = true) (hf : f.waits = true)
      (hret : f.returns = true) (hs : g.isSleep = true → f.isStart = true) (hr : Loose false rest)

/-- Every stack is of one of these shapes. -/
def WaitInv (s : State S nc) : Prop :=
  ∀ t, Loose false (s.stk t) ∨ ∃ c, s.cur c = t ∧ s.locks (.named .waitLock) = some c ∧ Waits (s.stk t)

theorem Frame.keepsWait_not_waits {f : S.F} (h : f.keepsWait = true) : f.waits = false := by
  cases f with
  | wake | ret | killed | sleep => rfl
  | _ => cases h

/-- The thread at a point that executes with the lock held is on a CPU that holds it; the point is on top of the stack,
or waits for a callee that keeps the lock. -/
theorem WaitInv.holder {s : State S nc} (h : WaitInv s) {t : Tid np nc} {f : S.F} (hf : f ∈ s.stk t)
    (hw : f.waits = true) (hs : f.isStart = false) :
    ∃ c, s.cur c = t ∧ s.locks (.named .waitLock) = some c ∧
      ((∃ rest, s.stk t = f :: rest) ∨ f.returns = true ∧ ∃ g rest, s.stk t = g :: f :: rest ∧ g.keepsWait = true) := by
  have loose : ∀ {rest : List S.F}, Loose false rest → f ∉ rest := fun hr hm =>
    absurd (hs.symm.trans (hr.mem hm hw)) Bool.false_ne_true
  rcases h t with hl | ⟨c, hc, hlk, hst⟩
  · exact absurd hf (loose hl)
  · refine ⟨c, hc, hlk, ?_⟩
    cases hst with
    | @top f' rest hst hf' hr =>
      rw [hst] at hf
      rcases List.mem_cons.mp hf with rfl | hf
      · exact .inl ⟨rest, hst⟩
      · exact absurd hf (loose hr)
    | @under g f' rest hst hg hf' hret hs' hr =>
      rw [hst] at hf
      rcases List.mem_cons.mp hf with rfl | hf
      · exact absurd ((Frame.keepsWait_not_waits hg).symm.trans hw) Bool.false_ne_true
      · rcases List.mem_cons.mp hf with rfl | hf
        · exact .inr ⟨hret, g, rest, hst, hg⟩
        · exact absurd hf (loose hr)

/-! ## The text -/

section Text

variable {me : Option (Fin np)} {f : S.F}

/-- A point that executes with the lock held comes from one, or from `acquire(&wait_lock)`. -/
theorem waits_conts {κ : S.K} {n : Nat} {f' : S.F} (hm : f' ∈ (instr S me f).conts κ n) (hw : f'.waits = true)
    (hf : f.waits = false) : instr S me f = .acquire (.named .waitLock) f' ∧ f.sleepsOut = false := by
  cases f' with
  | kfork p pc' =>
    rcases conts_kfork hm with rfl | ⟨pc, rfl, hg⟩
    · cases hw
    · cases hg with
      | lockWait i pid => exact ⟨rfl, rfl⟩
      | _ => first | (cases hw; done) | (cases hf; done)
  | kexit p status pc' =>
    rcases conts_kexit hm with rfl | ⟨pc, rfl, hg⟩
    · cases hw
    · cases hg with
      | lockWait => exact ⟨rfl, rfl⟩
      | _ => first | (cases hw; done) | (cases hf; done)
  | kwait p pc' =>
    rcases conts_kwait hm with rfl | ⟨pc, rfl, hg⟩
    · cases hw
    · cases hg with
      | lockWait => exact ⟨rfl, rfl⟩
      | _ => cases hf
  | _ => cases hw

/-- `sleep(chan, &wait_lock)` stays there until it reacquires the lock. -/
theorem sleepsOut_text (me : Option (Fin np)) (hf : f.sleepsOut = true) :
    instr S me f = .acquire (.named .waitLock) (.ret 0) ∨ (∃ l k, instr S me f = .release l k ∧ k.sleepsOut = true) ∨
      (∃ g k, instr S me f = .upd g k ∧ ∀ κ, (k κ).sleepsOut = true) ∨
      ∃ p k, instr S me f = .call (.sched p .enter) k ∧ k.sleepsOut = true := by
  cases f with
  | sleep p chan lk pc =>
    cases lk with
    | waitLock =>
      cases pc with
      | lockBucket | lockProc | unlockCond => cases hf
      | lockCond => exact .inl rfl
      | unlockBucket | unlockProc => exact .inr (.inl ⟨_, _, rfl, rfl⟩)
      | callSched => exact .inr (.inr (.inr ⟨_, _, rfl, rfl⟩))
      | enqueue | setSleeping | tidy => exact .inr (.inr (.inl ⟨_, _, rfl, fun _ => rfl⟩))
    | _ => cases hf
  | _ => cases hf

/-- What the functions do while they hold the lock. -/
def WaitText : S.I → Prop
  | .acquire l k => l ≠ .named .waitLock ∧ k.waits = true
  | .release l k => l = .named .waitLock ∧ k.waits = false ∨ l ≠ .named .waitLock ∧ k.waits = true
  | .upd _ k => ∀ κ, (k κ).waits = true
  | .call callee k =>
    callee.keepsWait = true ∧ k.waits = true ∧ k.returns = true ∧ (callee.isSleep = true → k.isStart = true)
  | .choose k => ∀ n, (k n).waits = true
  | _ => False

theorem waitText (me : Option (Fin np)) (hf : f.waits = true) : WaitText (instr S me f) := by
  cases f with
  | kfork p pc =>
    cases pc with
    | setParent i pid => exact fun _ => rfl
    | unlockWait i pid => exact .inl ⟨rfl, rfl⟩
    | _ => cases hf
  | kexit p status pc =>
    cases pc with
    | reparent i =>
      simp only [instr, kexitText]
      split
      · intro κ
        dsimp only
        split <;> rfl
      · exact fun _ => rfl
    | callInit i | callParent chan => exact ⟨rfl, rfl, rfl, fun h => by cases h⟩
    | lockSelf => exact ⟨fun h => (by cases h), rfl⟩
    | setZombie => exact fun _ => rfl
    | unlockWait => exact .inl ⟨rfl, rfl⟩
    | _ => cases hf
  | kwait p pc =>
    cases pc with
    | lockWait => cases hf
    | start => exact fun _ => rfl
    | scan i havekids =>
      simp only [instr, kwaitText]
      split
      · intro κ
        dsimp only
        split <;> rfl
      · exact fun _ => rfl
    | lockChild i => exact ⟨fun h => (by cases h), rfl⟩
    | freeproc i pid => exact fun _ => rfl
    | test i | copyout i pid | decide i =>
      intro κ
      dsimp only
      split <;> rfl
    | unlockFound i v | unlockMiss i => exact .inr ⟨fun h => (by cases h), rfl⟩
    | check havekids =>
      cases havekids with
      | true => exact ⟨rfl, rfl, rfl, fun h => by cases h⟩
      | false => exact fun _ => rfl
    | callSleep => exact ⟨rfl, rfl, rfl, fun _ => rfl⟩
    | unlockWait v => exact .inl ⟨rfl, rfl⟩
  | _ => cases hf

/-- What a callee does that keeps the lock. -/
def KeepText (f : S.F) : S.I → Prop
  | .acquire l k => l ≠ .named .waitLock ∧ k.keepsWait = true ∧ (k.isSleep = true → f.isSleep = true)
  | .release l k =>
    l = .named .waitLock ∧ f.isSleep = true ∧ k.sleepsOut = true ∨
      l ≠ .named .waitLock ∧ k.keepsWait = true ∧ (k.isSleep = true → f.isSleep = true)
  | .upd _ k => ∀ κ, (k κ).keepsWait = true ∧ ((k κ).isSleep = true → f.isSleep = true)
  | .ret _ => True
  | _ => False

theorem keepText (me : Option (Fin np)) (hf : f.keepsWait = true) : KeepText f (instr S me f) := by
  cases f with
  | ret v => trivial
  | wake one chan pc =>
    cases pc with
    | lockBucket | lockProc e q next => exact ⟨nofun, rfl, nofun⟩
    | first | unlink e q next => exact fun _ => ⟨rfl, nofun⟩
    | walk e =>
      cases e with
      | none => exact fun _ => ⟨rfl, nofun⟩
      | some e =>
        intro κ
        dsimp only
        split <;> exact ⟨rfl, nofun⟩
    | test e q next =>
      intro κ
      dsimp only
      split <;> exact ⟨rfl, nofun⟩
    | unlockWoken e q next =>
      refine .inr ⟨nofun, ?_⟩
      split <;> exact ⟨rfl, nofun⟩
    | unlockMiss e q next | unlockBucket e => exact .inr ⟨nofun, rfl, nofun⟩
  | killed q pc =>
    cases pc with
    | lock => exact ⟨nofun, rfl, nofun⟩
    | read => exact fun _ => ⟨rfl, nofun⟩
    | unlock k => exact .inr ⟨nofun, rfl, nofun⟩
  | sleep p chan lk pc =>
    cases lk with
    | waitLock =>
      cases pc with
      | lockBucket | lockProc => exact ⟨nofun, rfl, fun _ => rfl⟩
      | unlockCond => exact .inl ⟨rfl, rfl, rfl⟩
      | _ => cases hf
    | _ => cases hf
  | _ => cases hf

end Text

/-! ## Steps -/

section Stacks

variable {me : Option (Fin np)} {f g k : S.F} {rest : List S.F} {κ : S.K} {n : Nat}

theorem Frame.sleepsOut_not_waits (h : f.sleepsOut = true) : f.waits = false := by
  cases f with
  | sleep => rfl
  | _ => cases h

theorem Frame.isStart_returns (h : f.isStart = true) : f.returns = true ∧ f.sleepsOut = false := by
  cases f with
  | kwait p pc =>
    cases pc with
    | start => exact ⟨rfl, rfl⟩
    | _ => cases h
  | _ => cases h

theorem resume_wait (g : S.F) (v : Int) :
    (resume S g v).waits = g.waits ∧ (resume S g v).isStart = g.isStart ∧ (resume S g v).sleepsOut = g.sleepsOut := by
  cases g with
  | kwait p pc => cases pc <;> exact ⟨rfl, rfl, rfl⟩
  | _ => exact ⟨rfl, rfl, rfl⟩

section

variable (h : Loose false (f :: rest))
include h

theorem Loose.goes (hw : k.waits = false) (hs : f.sleepsOut = true → k.sleepsOut = true) : Loose false (k :: rest) := by
  refine .cons hw ?_
  cases hf : f.sleepsOut with
  | true => rw [hs hf, ← hf]; exact h.2
  | false =>
    have hr : Loose f.sleepsOut rest := h.2
    rw [hf] at hr
    exact hr.mono

/-- A function that does not take the lock goes on. -/
theorem Loose.cont (hk : (instr S me f).conts κ n = [k])
    (hna : instr S me f ≠ .acquire (.named .waitLock) k) : Loose false (k :: rest) := by
  have hm : k ∈ (instr S me f).conts κ n := by rw [hk]; exact List.mem_singleton_self k
  refine h.goes (Bool.eq_false_iff.mpr fun hw => hna (waits_conts hm hw h.head).1) fun hf => ?_
  rcases sleepsOut_text me hf with hi | ⟨l, k', hi, hs⟩ | ⟨g, k', hi, hs⟩ | ⟨p, k', hi, hs⟩
  · rw [hi] at hk hna
    cases hk
    exact absurd rfl hna
  · rw [hi] at hk
    cases hk
    exact hs
  · rw [hi] at hk
    cases hk
    exact hs κ
  · rw [hi] at hk
    cases hk

/-- A function that takes the lock, or takes it again after it has slept. -/
theorem Loose.acquire (hi : instr S me f = .acquire (.named .waitLock) k) :
    Loose false (k :: rest) ∨ Waits (k :: rest) := by
  have hr : Loose f.sleepsOut rest := h.2
  cases hf : f.sleepsOut with
  | false =>
    rw [hf] at hr
    cases hw : k.waits with
    | true => exact .inr (.top rfl hw hr)
    | false => exact .inl (.push hw hr)
  | true =>
    rcases sleepsOut_text me hf with hi' | ⟨_, _, hi', _⟩ | ⟨_, _, hi', _⟩ | ⟨_, _, hi', _⟩ <;>
      rw [hi] at hi' <;> cases hi'
    cases rest with
    | nil => exact .inl (.push rfl trivial)
    | cons g rest =>
      cases hw : g.waits with
      | true =>
        have hg := (hr.1 hw).2
        have hr' : Loose g.sleepsOut rest := hr.2
        rw [(Frame.isStart_returns hg).2] at hr'
        exact .inr (.under rfl rfl hw (Frame.isStart_returns hg).1 nofun hr')
      | false => exact .inl (.push rfl (.cons hw hr.2))

end

theorem Loose.call {callee : S.F} (κ : S.K) (h : Loose false (f :: rest)) (hi : instr S me f = .call callee k) :
    Loose false (callee :: k :: rest) := by
  have hw : ∀ f' ∈ (instr S me f).conts κ 0, f'.waits = false := fun f' hm =>
    Bool.eq_false_iff.mpr fun hw => by
      have := (waits_conts hm hw h.head).1
      rw [hi] at this
      cases this
  rw [hi] at hw
  refine .push (hw callee List.mem_cons_self) (h.goes (hw k (List.mem_cons_of_mem _ (List.mem_singleton_self k))) fun hf => ?_)
  rcases sleepsOut_text me hf with hi' | ⟨_, _, hi', _⟩ | ⟨_, _, hi', _⟩ | ⟨p, k', hi', hs⟩ <;>
    rw [hi] at hi' <;> cases hi'
  exact hs

/-- The top record is left. -/
theorem Loose.pop {i : S.I} (κ : S.K) (h : Loose false (f :: rest)) (hi : instr S me f = i) (hn : i.conts κ 0 = []) :
    Loose false rest := by
  have hr : Loose f.sleepsOut rest := h.2
  cases hf : f.sleepsOut with
  | false => rwa [hf] at hr
  | true =>
    rcases sleepsOut_text me hf with hi' | ⟨_, _, hi', _⟩ | ⟨_, _, hi', _⟩ | ⟨_, _, hi', _⟩ <;>
      rw [← hi, hi'] at hn <;> cases hn

theorem Loose.resume {v : Int} (h : Loose false (g :: rest)) : Loose false (resume S g v :: rest) := by
  obtain ⟨h1, h2, h3⟩ := resume_wait g v
  exact ⟨by rw [h1, h2]; exact h.1, by rw [h3]; exact h.2⟩

/-- A function that holds the lock goes on, and holds it still. -/
theorem Waits.cont (h : Waits (f :: rest)) (hk : (instr S me f).conts κ n = [k])
    (hnr : instr S me f ≠ .release (.named .waitLock) k) : Waits (k :: rest) := by
  cases h with
  | top hst hf hr =>
    cases hst
    have ht := waitText me hf
    generalize instr S me f = i at hk hnr ht
    cases i with
    | acquire l k' => cases hk; exact .top rfl ht.2 hr
    | release l k' =>
      cases hk
      rcases ht with ⟨rfl, -⟩ | ⟨-, hw⟩
      · exact absurd rfl hnr
      · exact .top rfl hw hr
    | upd g k' => cases hk; exact .top rfl (ht κ) hr
    | choose k' => cases hk; exact .top rfl (ht n) hr
    | call => cases hk
    | _ => exact ht.elim
  | under hst hg hf hret hs hr =>
    cases hst
    have ht := keepText me hg
    generalize instr S me f = i at hk hnr ht
    cases i with
    | acquire l k' => cases hk; exact .under rfl ht.2.1 hf hret (fun hx => hs (ht.2.2 hx)) hr
    | release l k' =>
      cases hk
      rcases ht with ⟨rfl, -⟩ | ⟨-, hw, hx⟩
      · exact absurd rfl hnr
      · exact .under rfl hw hf hret (fun h => hs (hx h)) hr
    | upd g k' => cases hk; exact .under rfl (ht κ).1 hf hret (fun hx => hs ((ht κ).2 hx)) hr
    | ret v => cases hk
    | _ => exact ht.elim

/-- It releases the lock. -/
theorem Waits.release (h : Waits (f :: rest)) (hi : instr S me f = .release (.named .waitLock) k) :
    Loose false (k :: rest) := by
  cases h with
  | top hst hf hr =>
    cases hst
    have ht := waitText me hf
    rw [hi] at ht
    rcases ht with ⟨-, hw⟩ | ⟨hne, -⟩
    · exact .push hw hr
    · exact absurd rfl hne
  | @under g f₁ rest₁ hst hg hf hret hs hr =>
    cases hst
    have ht := keepText me hg
    rw [hi] at ht
    rcases ht with ⟨-, hsl, hout⟩ | ⟨hne, -⟩
    · refine .cons (Frame.sleepsOut_not_waits hout) ⟨fun _ => ⟨hout, hs hsl⟩, ?_⟩
      rw [(Frame.isStart_returns (hs hsl)).2]
      exact hr
    · exact absurd rfl hne

theorem Waits.call {callee : S.F} (h : Waits (f :: rest)) (hi : instr S me f = .call callee k) :
    Waits (callee :: k :: rest) := by
  cases h with
  | top hst hf hr =>
    cases hst
    have ht := waitText me hf
    rw [hi] at ht
    exact .under rfl ht.1 ht.2.1 ht.2.2.1 ht.2.2.2 hr
  | under hst hg hf hret hs hr =>
    cases hst
    have ht := keepText me hg
    rw [hi] at ht
    exact ht.elim

theorem Waits.ret {v : Int} (h : Waits (f :: g :: rest)) (hi : instr S me f = .ret v) :
    Waits (resume S g v :: rest) := by
  cases h with
  | top hst hf hr =>
    cases hst
    have ht := waitText me hf
    rw [hi] at ht
    exact ht.elim
  | under hst hg hf hret hs hr =>
    cases hst
    exact .top rfl ((resume_wait _ _).1.trans hf) hr

/-- The instructions that are not executed with the lock held. -/
theorem Waits.text (me : Option (Fin np)) (h : Waits (f :: rest)) : WaitText (instr S me f) ∨ KeepText f (instr S me f) := by
  cases h with
  | top hst hf hr => cases hst; exact .inl (waitText me hf)
  | under hst hg hf hret hs hr => cases hst; exact .inr (keepText me hg)

end Stacks

namespace WaitInv

variable {s s' : State S nc} {c : Fin nc}

theorem boot : WaitInv (boot S nc) := fun t => .inl <| by
  cases t <;> exact .push rfl trivial

/-- The stacks of the other threads. -/
theorem stk_other (hf : Fires s c s') {t : Tid np nc} (ht : t ≠ s.cur c) :
    s'.stk t = s.stk t ∨ ∃ q, s'.stk t = [.forkret q] := by
  cases hf with
  | @spawn f rest q k hs hi =>
    have h1 : (State.setStk { s with stk := update s.stk (.proc q) [.forkret q] } c (k :: rest)).stk t =
        update s.stk (.proc q) [.forkret q] t := update_of_ne ht _ _
    by_cases hq : t = .proc q
    · subst hq
      exact .inr ⟨q, h1.trans (update_self ..)⟩
    · exact .inl (h1.trans (update_of_ne hq _ _))
  | panic => exact .inl rfl
  | _ => exact .inl (update_of_ne ht _ _)

/-- A lock that another CPU holds stays where it is. -/
theorem lock_other (hf : Fires s c s') {l : Lock np} {c' : Fin nc} (hc : c' ≠ c) (hl : s.locks l = some c') :
    s'.locks l = some c' := by
  cases hf with
  | @acquire f rest l' k hs hi hl' =>
    exact (update_of_ne (by rintro rfl; rw [hl] at hl'; cases hl') _ _).trans hl
  | @release f rest l' k hs hi hl' =>
    exact (update_of_ne (by rintro rfl; rw [hl] at hl'; cases hl'; exact hc rfl) _ _).trans hl
  | _ => exact hl

/-- The thread that takes the step. -/
theorem own_step (h : WaitInv s) (hb : Base s) (hp : (s.cpus c).panicked = none) (hf : Fires s c s') :
    Loose false (s'.stk (s.cur c)) ∨
      s'.cur c = s.cur c ∧ s'.locks (.named .waitLock) = some c ∧ Waits (s'.stk (s.cur c)) := by
  have hc : Loose false (s.stk (s.cur c)) ∨ s.locks (.named .waitLock) = some c ∧ Waits (s.stk (s.cur c)) := by
    rcases h (s.cur c) with hl | ⟨c', hc', hl, hw⟩
    · exact .inl hl
    · obtain rfl := hb.inj _ _ hc'
      exact .inr ⟨hl, hw⟩
  -- the stack of the thread afterwards
  have top : ∀ (stk : Tid np nc → List S.F) st, update stk (s.cur c) st (s.cur c) = st := fun _ _ => update_self ..
  cases hf with
  | panic hx => exact hc.imp id fun h => ⟨rfl, h⟩
  | @acquire f rest l k hs hi hl =>
    simp only [setStk_stk, setCpu_cur, setCpu_stk, top]
    rw [hs] at hc
    by_cases hlw : l = .named .waitLock
    · subst hlw
      rcases hc with hc | ⟨hx, -⟩
      · exact (hc.acquire hi).imp id fun h => ⟨rfl, update_self .., h⟩
      · rw [hl] at hx
        cases hx
    · have hk : (instr S (s.cpus c).proc f).conts s.kern 0 = [k] := by rw [hi]; rfl
      rcases hc with hc | ⟨hx, hc⟩
      · exact .inl (hc.cont hk (by rw [hi]; rintro ⟨⟩; exact hlw rfl))
      · exact .inr ⟨rfl, (update_of_ne (Ne.symm hlw) _ _).trans hx, hc.cont hk (by rw [hi]; nofun)⟩
  | @release f rest l k hs hi hl =>
    simp only [setStk_stk, setCpu_cur, setCpu_stk, top]
    rw [hs] at hc
    have hk : (instr S (s.cpus c).proc f).conts s.kern 0 = [k] := by rw [hi]; rfl
    rcases hc with hc | ⟨hx, hc⟩
    · exact .inl (hc.cont hk (by rw [hi]; nofun))
    · by_cases hlw : l = .named .waitLock
      · subst hlw
        exact .inl (hc.release hi)
      · exact .inr ⟨rfl, (update_of_ne (Ne.symm hlw) _ _).trans hx, hc.cont hk (by rw [hi]; rintro ⟨⟩; exact hlw rfl)⟩
  | @upd f rest g k hs hi =>
    simp only [setStk_stk, top]
    rw [hs] at hc
    have hk : (instr S (s.cpus c).proc f).conts s.kern 0 = [k s.kern] := by rw [hi]; rfl
    exact hc.imp (fun hc => hc.cont hk (by rw [hi]; nofun)) fun hc => ⟨rfl, hc.1, hc.2.cont hk (by rw [hi]; nofun)⟩
  | @choose f rest k n hs hi =>
    simp only [setStk_stk, top]
    rw [hs] at hc
    have hk : (instr S (s.cpus c).proc f).conts s.kern n = [k n] := by rw [hi]; rfl
    exact hc.imp (fun hc => hc.cont hk (by rw [hi]; nofun)) fun hc => ⟨rfl, hc.1, hc.2.cont hk (by rw [hi]; nofun)⟩
  | @call f rest callee k hs hi =>
    simp only [setStk_stk, top]
    rw [hs] at hc
    exact hc.imp (fun hc => hc.call s.kern hi) fun hc => ⟨rfl, hc.1, hc.2.call hi⟩
  | @ret f g rest v hs hi =>
    simp only [setStk_stk, top]
    rw [hs] at hc
    refine hc.imp (fun hc => ?_) fun hc => ⟨rfl, hc.1, hc.2.ret hi⟩
    exact (hc.pop s.kern hi rfl).resume
  | @intr f rest irq hs hsie =>
    simp only [setStk_stk, setCpu_cur, setCpu_stk, top]
    rw [hs] at hc
    rcases hc with hc | ⟨hx, -⟩
    · exact .inl (.push rfl hc)
    · obtain ⟨⟨hl, _, hm, hlen⟩, hint⟩ := hb.counted c hp
      have hpos : 0 < (s.cpus c).noff := hlen ▸ List.length_pos_of_mem ((hm _).mpr hx)
      rw [hint hpos] at hsie
      cases hsie
  | @sched f rest p hs hi =>
    simp only [setStk_stk, top]
    rw [hs] at hc
    rcases hc with hc | ⟨-, hc⟩
    · exact .inl (.push rfl (hc.pop s.kern hi rfl))
    · have := hc.text (s.cpus c).proc
      rw [hi] at this
      exact this.elim False.elim False.elim
  | @sret f rest hs hi =>
    simp only [setStk_stk, setCpu_cur, setCpu_stk, top]
    rw [hs] at hc
    rcases hc with hc | ⟨-, hc⟩
    · exact .inl (hc.pop s.kern hi rfl)
    · have := hc.text (s.cpus c).proc
      rw [hi] at this
      exact this.elim False.elim False.elim
  | @dispatch f rest p k hs hi | @spawn f rest q k hs hi | @cpu f rest g k hs hi | @intrOn f rest k hs hi =>
    simp only [setStk_stk, setCpu_cur, setCpu_stk, top]
    rw [hs] at hc
    have hk : (instr S (s.cpus c).proc f).conts s.kern 0 = [k] := by rw [hi]; rfl
    rcases hc with hc | ⟨-, hc⟩
    · exact .inl (hc.cont hk (by rw [hi]; nofun))
    · have := hc.text (s.cpus c).proc
      rw [hi] at this
      exact this.elim False.elim False.elim

theorem step (h : WaitInv s) (hb : Base s) (hp : (s.cpus c).panicked = none) (hf : Fires s c s') : WaitInv s' := by
  intro t
  by_cases ht : t = s.cur c
  · subst ht
    exact (h.own_step hb hp hf).imp id fun h => ⟨c, h⟩
  · rcases stk_other hf ht with he | ⟨q, he⟩
    · rw [he]
      refine (h t).imp id fun ⟨c', hc', hl, hw⟩ => ?_
      have hne : c' ≠ c := by
        rintro rfl
        exact ht hc'.symm
      exact ⟨c', (hb.other_cpu hf hne).1.trans hc', lock_other hf hne hl, hw⟩
    · rw [he]
      exact .inl (.push rfl trivial)

end WaitInv

/-- **Only the thread that executes the functions of the process tree holds `wait_lock` for them.** -/
theorem Reachable.waitInv {s : State S nc} (h : Reachable s) : WaitInv s :=
  Reachable.induct WaitInv.boot (fun _ _ hr hw ⟨_, _, hs⟩ =>
    hw.step hr.base (fires_of_step hs).1 (fires_of_step hs).2) h

end Xv6
