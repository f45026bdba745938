import Mathlib.Data.BitVec
import Mathlib.Logic.Function.Basic
import Xv6.Lib.Index
import Xv6.Lib.Runs

/-!
# Sleep-locks

`acquiresleep`, `releasesleep` and `holdingsleep` of `sleeplock.c` on one lock, for any processes `P`, one step for each
access to the lock's fields and for each operation on the spinlock `lk->lk` inside it. A process that waits sleeps on the
address of the lock with the spinlock released; `wakeup(lk)` wakes all of them, and any of them may be woken at any time
for another reason: by `kkill`, or by a wakeup of a channel in the same bucket.

`owns` is not in the source: it says who holds the sleep-lock, from the step that sets `lk->locked` to the step that clears
it. `sleeplock_exclusive` is what the fields of the lock say about it.
-/

namespace Xv6.Sleeplock

open Function (update update_eq_self update_of_ne update_self)

variable {P : Type}

/-- Where a process is. -/
inductive Pc
  | out
  /-- `acquiresleep`: before `acquire(&lk->lk)`, before the test of `lk->locked`, inside `sleep` before `release(lk)`,
  asleep, and before `acquire(lk)` at the end of `sleep`. -/
  | enter | test | unlock | asleep | relock
  | setLocked | setPid | leave
  /-- `releasesleep`. -/
  | relEnter | clearLocked | clearPid | wakeup | relLeave
  /-- `holdingsleep`, at the end with its result. -/
  | holdEnter | read
  | holdLeave (r : BitVec 32)
  | ret (r : BitVec 32)
  deriving DecidableEq

/-- Does a process at this point hold `lk->lk`? -/
def Pc.inside : Pc → Bool
  | .test | .unlock | .setLocked | .setPid | .leave | .clearLocked | .clearPid | .wakeup | .relLeave | .read
  | .holdLeave _ => true
  | _ => false

/-- `struct sleeplock`, the processes and their claims. -/
structure State (P : Type) where
  /-- Who holds `lk->lk`. -/
  lk : Option P
  locked : BitVec 32
  pid : BitVec 32
  pc : P → Pc
  owns : P → Bool

inductive Act (P : Type)
  | acquiresleep (p : P)
  | releasesleep (p : P)
  | holdingsleep (p : P)
  | run (p : P)
  /-- A process that sleeps is woken by somebody else. -/
  | wake (p : P)

/-- What `wakeup(lk)` does to a process. -/
def Pc.wake : Pc → Pc
  | .asleep => .relock
  | pc => pc

section Step

variable [DecidableEq P] (pid : P → BitVec 32)

def State.goto (s : State P) (p : P) (pc : Pc) : State P := { s with pc := Function.update s.pc p pc }

/-- `acquire(&lk->lk)`. -/
def State.acquire (s : State P) (p : P) (pc : Pc) : Option (State P) :=
  if s.lk.isSome then none else some { s.goto p pc with lk := some p }

/-- `release(&lk->lk)`. -/
def State.release (s : State P) (p : P) (pc : Pc) : State P := { s.goto p pc with lk := none }

/-- `lk->locked && (lk->pid == myproc()->pid)`. -/
def State.holding (s : State P) (p : P) : BitVec 32 := if s.locked ≠ 0 ∧ s.pid = pid p then 1 else 0

/-- The next instruction of a process at a program point; a process with nothing to do, asleep, or spinning does not run. -/
def Pc.step (s : State P) (p : P) : Pc → Option (State P)
  | .out | .asleep => none
  | .enter | .relock => s.acquire p .test
  | .test => some (s.goto p (if s.locked ≠ 0 then .unlock else .setLocked))
  | .unlock => some (s.release p .asleep)
  | .setLocked => some { s.goto p .setPid with locked := 1, owns := Function.update s.owns p true }
  | .setPid => some { s.goto p .leave with pid := pid p }
  | .leave | .relLeave => some (s.release p .out)
  | .relEnter => s.acquire p .clearLocked
  | .clearLocked => some { s.goto p .clearPid with locked := 0, owns := Function.update s.owns p false }
  | .clearPid => some { s.goto p .wakeup with pid := 0 }
  | .wakeup => some { s with pc := Function.update (fun q => (s.pc q).wake) p .relLeave }
  | .holdEnter => s.acquire p .read
  | .read => some (s.goto p (.holdLeave (s.holding pid p)))
  | .holdLeave r => some (s.release p (.ret r))
  | .ret _ => some (s.goto p .out)

/-- A process calls a function when it is in none. -/
def State.call (s : State P) (p : P) (pc : Pc) : Option (State P) := if s.pc p = .out then some (s.goto p pc) else none

def step (s : State P) : Act P → Option (State P)
  | .acquiresleep p => s.call p .enter
  | .releasesleep p => s.call p .relEnter
  | .holdingsleep p => s.call p .holdEnter
  | .run p => (s.pc p).step pid s p
  | .wake p => some (s.goto p (s.pc p).wake)

/-- The state after `initsleeplock`. -/
def State.init : State P := ⟨none, 0, 0, fun _ => .out, fun _ => false⟩

/-- A process releases only what it holds. -/
def Act.Owned (s : State P) : Act P → Prop
  | .releasesleep p => s.owns p = true
  | _ => True

def Reachable (s : State P) : Prop := Lib.Runs (step pid) (fun s a => a.Owned s) State.init s

end Step

/-! ## The invariant -/

/-- What is known of the sleep-lock at a program point of `p`. -/
def Pc.Ok (s : State P) (p : P) : Pc → Prop
  | .setLocked | .clearPid => ∀ q, s.owns q = false
  | .setPid | .leave | .relEnter | .clearLocked => s.owns p = true
  | .holdLeave r | .ret r => r ≠ 0 ↔ s.owns p = true
  | _ => True

structure Inv (pid : P → BitVec 32) (s : State P) : Prop where
  lock : ∀ p, (s.pc p).inside = true ↔ s.lk = some p
  one : ∀ p q, s.owns p = true → s.owns q = true → p = q
  locked : s.locked = 1 ∧ (∃ p, s.owns p = true) ∨ s.locked = 0 ∧ ∀ p, s.owns p = false
  pid : ∀ p, s.owns p = true → s.pc p = .setPid ∨ s.pid = pid p
  ok : ∀ p, (s.pc p).Ok s p

section Inv

variable [DecidableEq P] {pid : P → BitVec 32} {s s' : State P} {p : P} {pc : Pc}

/-! ### Who holds the spinlock -/

section

variable (h : ∀ q, (s.pc q).inside = true ↔ s.lk = some q)
include h

theorem lock_goto (hin : pc.inside = (s.pc p).inside) (q : P) : (update s.pc p pc q).inside = true ↔ s.lk = some q := by
  by_cases hq : q = p
  · rw [hq, update_self, hin]
    exact h p
  · rw [update_of_ne hq]
    exact h q

theorem lock_acquire (hl : s.lk = none) (hin : pc.inside = true) (q : P) :
    (update s.pc p pc q).inside = true ↔ some p = some q := by
  by_cases hq : q = p
  · rw [hq, update_self, hin]
    exact ⟨fun _ => rfl, fun _ => rfl⟩
  · rw [update_of_ne hq, h q, hl]
    constructor
    · intro he
      cases he
    · intro he
      cases he
      exact absurd rfl hq

theorem lock_release (hp : (s.pc p).inside = true)
    (hin : pc.inside = false) (q : P) : (update s.pc p pc q).inside = true ↔ none = some q := by
  have hl := (h p).mp hp
  by_cases hq : q = p
  · rw [hq, update_self, hin]
    constructor <;> intro he <;> cases he
  · rw [update_of_ne hq, h q, hl]
    constructor
    · intro he
      cases he
      exact absurd rfl hq
    · intro he
      cases he

end

/-! ### Steps that leave the fields of the lock alone -/

/-- What is known at a program point depends on the owner only. -/
theorem Pc.Ok.congr (h : pc.Ok s p) (ho : s'.owns = s.owns) : pc.Ok s' p := by
  cases pc <;> simp only [Pc.Ok] at h ⊢ <;> rw [ho] <;> exact h

section

variable (h : Inv pid s)
include h

theorem Inv.move (hpc : s'.pc = update s.pc p pc) (hn : s.pc p ≠ .setPid)
    (ho : s'.owns = s.owns) (hl : s'.locked = s.locked) (hp : s'.pid = s.pid)
    (hlk : ∀ q, (update s.pc p pc q).inside = true ↔ s'.lk = some q) (hok : pc.Ok s p) : Inv pid s' := by
  refine ⟨?_, ?_, ?_, fun q hq => ?_, fun q => ?_⟩
  · rw [hpc]
    exact hlk
  · rw [ho]
    exact h.one
  · rw [hl, ho]
    exact h.locked
  · rw [hp, hpc]
    rw [ho] at hq
    by_cases hqp : q = p
    · rw [hqp] at hq ⊢
      exact .inr ((h.pid p hq).resolve_left hn)
    · rw [update_of_ne hqp]
      exact h.pid q hq
  · rw [hpc]
    by_cases hqp : q = p
    · rw [hqp, update_self]
      exact hok.congr ho
    · rw [update_of_ne hqp]
      exact (h.ok q).congr ho

theorem Inv.goto (hn : s.pc p ≠ .setPid) (hin : pc.inside = (s.pc p).inside) (hok : pc.Ok s p) :
    Inv pid (s.goto p pc) :=
  h.move rfl hn rfl rfl rfl (lock_goto h.lock hin) hok

theorem Inv.acquire (hs : s.acquire p pc = some s') (hn : s.pc p ≠ .setPid) (hin : pc.inside = true)
    (hok : pc.Ok s p) : Inv pid s' := by
  unfold State.acquire at hs
  split at hs
  · cases hs
  · next hl =>
    cases hs
    exact h.move rfl hn rfl rfl rfl (lock_acquire h.lock (Option.not_isSome_iff_eq_none.mp hl) hin) hok

theorem Inv.release (hn : s.pc p ≠ .setPid) (hp : (s.pc p).inside = true) (hin : pc.inside = false)
    (hok : pc.Ok s p) : Inv pid (s.release p pc) :=
  h.move rfl hn rfl rfl rfl (lock_release h.lock hp hin) hok

theorem Inv.call (hs : s.call p pc = some s') (hin : pc.inside = false) (hok : pc.Ok s p) : Inv pid s' := by
  unfold State.call at hs
  split at hs
  · next hp =>
    cases hs
    refine h.goto ?_ ?_ hok
    · rw [hp]
      nofun
    · rw [hp, hin]
      rfl
  · cases hs

theorem Inv.wakeup : Inv pid { s with pc := fun q => (s.pc q).wake } := by
  refine ⟨fun q => ?_, h.one, h.locked, fun q hq => ?_, fun q => ?_⟩
  · have hq := h.lock q
    cases hpc : s.pc q <;> simp only [hpc, Pc.wake] at hq ⊢ <;> exact hq
  · have hq := h.pid q hq
    cases hpc : s.pc q <;> simp only [hpc, Pc.wake] at hq ⊢ <;> simpa using hq
  · have hq := h.ok q
    cases hpc : s.pc q <;> simp only [hpc, Pc.wake] at hq ⊢ <;> exact hq

end

/-! ### Steps that change them -/

/-- What is known at a point outside the spinlock is about the process itself. -/
theorem Pc.Ok.outside (h : pc.Ok s p) (hin : pc.inside = false) (ho : s'.owns p = s.owns p) : pc.Ok s' p := by
  cases pc with
  | relEnter => exact ho.trans h
  | ret r =>
    show r ≠ 0 ↔ s'.owns p = true
    rw [ho]
    exact h
  | out | enter | asleep | relock | holdEnter => trivial
  | _ => cases hin

section

variable (h : Inv pid s)
include h

/-- A process with the spinlock writes to the lock. -/
theorem Inv.write (hp : (s.pc p).inside = true) (hpc : s'.pc = update s.pc p pc)
    (hin : pc.inside = true) (hlk : s'.lk = s.lk) (ho : ∀ q, q ≠ p → s'.owns q = s.owns q) (hok : pc.Ok s' p)
    (hone : ∀ p q, s'.owns p = true → s'.owns q = true → p = q)
    (hlocked : s'.locked = 1 ∧ (∃ p, s'.owns p = true) ∨ s'.locked = 0 ∧ ∀ p, s'.owns p = false)
    (hpid : ∀ p, s'.owns p = true → s'.pc p = .setPid ∨ s'.pid = pid p) : Inv pid s' := by
  refine ⟨fun q => ?_, hone, hlocked, hpid, fun q => ?_⟩
  · rw [hpc, hlk]
    exact lock_goto h.lock (hin.trans hp.symm) q
  · rw [hpc]
    by_cases hq : q = p
    · rw [hq, update_self]
      exact hok
    · rw [update_of_ne hq]
      refine (h.ok q).outside ?_ (ho q hq)
      -- the spinlock is that of `p`
      cases hqin : (s.pc q).inside with
      | false => rfl
      | true =>
        have he := ((h.lock p).mp hp).symm.trans ((h.lock q).mp hqin)
        cases he
        exact absurd rfl hq

theorem Inv.setLocked (hp : s.pc p = .setLocked) :
    Inv pid { s.goto p .setPid with locked := 1, owns := update s.owns p true } := by
  have hnone : ∀ q, s.owns q = false := by
    have hok := h.ok p
    rw [hp] at hok
    exact hok
  have howns : ∀ q, update s.owns p true q = true → q = p := by
    intro q hq
    by_contra hne
    rw [update_of_ne hne, hnone q] at hq
    cases hq
  refine h.write (by rw [hp]; rfl) rfl rfl rfl (fun q hq => update_of_ne hq _ _) ?_ ?_ ?_ ?_
  · exact update_self ..
  · intro q q' hq hq'
    rw [howns q hq, howns q' hq']
  · exact .inl ⟨rfl, p, update_self ..⟩
  · intro q hq
    rw [howns q hq]
    exact .inl (update_self ..)

theorem Inv.setPid (hp : s.pc p = .setPid) : Inv pid { s.goto p .leave with pid := pid p } := by
  have hown : s.owns p = true := by
    have hok := h.ok p
    rw [hp] at hok
    exact hok
  refine h.write (by rw [hp]; rfl) rfl rfl rfl (fun q _ => rfl) hown h.one h.locked ?_
  intro q hq
  rw [h.one q p hq hown]
  exact .inr rfl

theorem Inv.clearLocked (hp : s.pc p = .clearLocked) :
    Inv pid { s.goto p .clearPid with locked := 0, owns := update s.owns p false } := by
  have hown : s.owns p = true := by
    have hok := h.ok p
    rw [hp] at hok
    exact hok
  have hnone : ∀ q, update s.owns p false q = false := by
    intro q
    by_cases hq : q = p
    · rw [hq, update_self]
    · rw [update_of_ne hq]
      cases ho : s.owns q with
      | false => rfl
      | true => exact absurd (h.one q p ho hown) hq
  refine h.write (by rw [hp]; rfl) rfl rfl rfl (fun q hq => update_of_ne hq _ _) hnone ?_ (.inr ⟨rfl, hnone⟩) ?_
  · intro q _ hq
    exact absurd ((hnone q).symm.trans hq) (by decide)
  · intro q hq
    exact absurd ((hnone q).symm.trans hq) (by decide)

theorem Inv.clearPid (hp : s.pc p = .clearPid) : Inv pid { s.goto p .wakeup with pid := 0 } := by
  have hnone : ∀ q, s.owns q = false := by
    have hok := h.ok p
    rw [hp] at hok
    exact hok
  refine h.write (by rw [hp]; rfl) rfl rfl rfl (fun q _ => rfl) trivial h.one h.locked ?_
  intro q hq
  exact absurd ((hnone q).symm.trans hq) (by decide)

/-- What `holdingsleep` reads. -/
theorem Inv.holding (hpid : Function.Injective pid) (hp : s.pc p = .read) : s.holding pid p ≠ 0 ↔ s.owns p = true := by
  have hiff : s.holding pid p ≠ 0 ↔ s.locked ≠ 0 ∧ s.pid = pid p := by
    unfold State.holding
    split
    · next hc => exact ⟨fun _ => hc, fun _ => by decide⟩
    · next hc => exact ⟨fun h0 => absurd rfl h0, fun h0 => absurd h0 hc⟩
  rw [hiff]
  rcases h.locked with ⟨hl, q, hq⟩ | ⟨hl, hnone⟩
  · -- the owner has written its pid, because the spinlock is that of `p`
    have hqpid : s.pid = pid q := by
      refine (h.pid q hq).resolve_left fun hset => ?_
      have h1 := (h.lock p).mp (by rw [hp]; rfl)
      have h2 := (h.lock q).mp (by rw [hset]; rfl)
      rw [h1] at h2
      cases h2
      rw [hp] at hset
      cases hset
    rw [hl, hqpid]
    constructor
    · rintro ⟨-, he⟩
      rw [← hpid he]
      exact hq
    · intro ho
      rw [h.one p q ho hq]
      exact ⟨by decide, rfl⟩
  · rw [hl, hnone p]
    constructor
    · rintro ⟨h0, -⟩
      exact absurd rfl h0
    · intro h0
      cases h0

end

/-! ### Every step -/

theorem Inv.run (h : Inv pid s) (hpid : Function.Injective pid) (hs : (s.pc p).step pid s p = some s') : Inv pid s' := by
  have hok := h.ok p
  have hin : ∀ {pc}, s.pc p = pc → (s.pc p).inside = pc.inside := fun he => by rw [he]
  cases hp : s.pc p with
  | out | asleep =>
    rw [hp] at hs
    cases hs
  | enter | relock | holdEnter =>
    rw [hp] at hs
    refine h.acquire hs ?_ rfl trivial
    rw [hp]
    nofun
  | test =>
    rw [hp] at hs
    cases hs
    refine h.goto (by rw [hp]; nofun) ?_ ?_
    · rw [hp]
      split <;> rfl
    · split
      · trivial
      · next hl =>
        rcases h.locked with ⟨h1, -⟩ | ⟨-, hnone⟩
        · rw [h1] at hl
          exact absurd (by decide) hl
        · exact hnone
  | unlock | leave | relLeave =>
    rw [hp] at hs
    cases hs
    exact h.release (by rw [hp]; nofun) (hin hp) rfl trivial
  | setLocked =>
    rw [hp] at hs
    cases hs
    exact h.setLocked hp
  | setPid =>
    rw [hp] at hs
    cases hs
    exact h.setPid hp
  | relEnter =>
    rw [hp] at hs hok
    refine h.acquire hs ?_ rfl hok
    rw [hp]
    nofun
  | clearLocked =>
    rw [hp] at hs
    cases hs
    exact h.clearLocked hp
  | clearPid =>
    rw [hp] at hs
    cases hs
    exact h.clearPid hp
  | wakeup =>
    rw [hp] at hs
    cases hs
    refine h.wakeup.goto ?_ ?_ trivial
    · show (s.pc p).wake ≠ .setPid
      rw [hp]
      nofun
    · show _ = ((s.pc p).wake).inside
      rw [hp]
      rfl
  | read =>
    rw [hp] at hs
    cases hs
    refine h.goto (by rw [hp]; nofun) ?_ (h.holding hpid hp)
    rw [hp]
    rfl
  | holdLeave r =>
    rw [hp] at hs hok
    cases hs
    exact h.release (by rw [hp]; nofun) (hin hp) rfl hok
  | ret r =>
    rw [hp] at hs
    cases hs
    refine h.goto (by rw [hp]; nofun) ?_ trivial
    rw [hp]
    rfl

theorem Inv.step {a : Act P} (h : Inv pid s) (hpid : Function.Injective pid) (ha : a.Owned s)
    (hs : step pid s a = some s') : Inv pid s' := by
  cases a with
  | acquiresleep p | holdingsleep p => exact h.call hs rfl trivial
  | releasesleep p => exact h.call hs rfl ha
  | run p => exact h.run hpid hs
  | wake p =>
    cases hs
    by_cases hp : s.pc p = .asleep
    · rw [hp]
      refine h.goto (by rw [hp]; nofun) ?_ trivial
      rw [hp]
      rfl
    · have hw : (s.pc p).wake = s.pc p := by
        cases hpc : s.pc p <;> first | rfl | exact absurd hpc hp
      rw [State.goto, hw, update_eq_self]
      exact h

theorem Inv.init : Inv pid (State.init : State P) where
  lock p := by
    constructor <;> intro h <;> cases h
  one _ _ h := nomatch h
  locked := .inr ⟨rfl, fun _ => rfl⟩
  pid _ h := nomatch h
  ok _ := trivial

theorem Reachable.inv (hpid : Function.Injective pid) (h : Reachable pid s) : Inv pid s :=
  Lib.Runs.invariant h Inv.init fun hi ha hs => hi.step hpid ha hs

end Inv

/-! ## Mutual exclusion -/

section Exclusive

variable [DecidableEq P]

/-- The fields of the lock say who holds it. -/
structure Exclusive (pid : P → BitVec 32) (s : State P) : Prop where
  one : ∀ p q, s.owns p = true → s.owns q = true → p = q
  locked : s.locked = 1 ↔ ∃ p, s.owns p = true
  /-- What `holdingsleep` is about to compute, and what it returns. -/
  holding : ∀ p, s.pc p = .read → (s.holding pid p ≠ 0 ↔ s.owns p = true)
  returns : ∀ p r, s.pc p = .ret r → (r ≠ 0 ↔ s.owns p = true)

/-- **Sleep-locks exclude one another.** However processes with different pids run, as long as each releases only what it
holds, one of them at most holds the lock, `lk->locked` is 1 exactly then, and `holdingsleep` returns nonzero to that
process alone. -/
theorem sleeplock_exclusive {pid : P → BitVec 32} {s : State P} (hpid : Function.Injective pid) (hs : Reachable pid s) :
    Exclusive pid s := by
  have h := hs.inv hpid
  refine ⟨h.one, ⟨fun hl => ?_, ?_⟩, fun p hp => h.holding hpid hp, fun p r hp => ?_⟩
  · rcases h.locked with ⟨-, ho⟩ | ⟨h0, -⟩
    · exact ho
    · rw [h0] at hl
      cases hl
  · rintro ⟨p, hp⟩
    rcases h.locked with ⟨h1, -⟩ | ⟨-, hnone⟩
    · exact h1
    · rw [hnone p] at hp
      cases hp
  · have hok := h.ok p
    rw [hp] at hok
    exact hok

/-- One process takes the lock, and both ask whether they hold it. -/
theorem sleeplock_exclusive_two : ∃ s : State Bool, s.pc true = .ret 1 ∧ s.pc false = .ret 0 ∧
    Exclusive (fun b => if b then 1 else 2) s := by
  let pid : Bool → BitVec 32 := fun b => if b then 1 else 2
  let acts : List (Act Bool) := .acquiresleep true :: List.replicate 5 (.run true) ++
    .holdingsleep true :: List.replicate 3 (.run true) ++ .holdingsleep false :: List.replicate 3 (.run false)
  have hr : Reachable pid ((acts.foldlM (step pid) State.init).get (by decide)) :=
    Lib.Runs.of_foldlM (by simp [acts, Act.Owned]) (Option.some_get _).symm
  exact ⟨_, by decide, by decide, sleeplock_exclusive (by decide) hr⟩

end Exclusive

end Xv6.Sleeplock
