import Mathlib.Data.Set.Card
import Xv6.Spin.Model

/-!
# What `noff` counts

`Ok x p H k` says that the code `k` of thread `x` is put together from the functions of the kernel: `p` is whether a
`push_off` is pending when it starts, and `H` are locks that are held then. `Inv` adds the CPUs: the code that a CPU runs
starts with locks it holds, and `noff` is the number of those plus what is pending. `Inv.step` keeps it over every step.
-/

namespace Xv6.Spin

open Function (update update_of_ne update_self)

variable {C T L : Type}

/-- Does a thread with this code have a `push_off` that neither became a lock nor was undone? -/
def pending : List (Instr T L) → Nat
  | .check _ :: _ | .take _ :: _ | .popOff :: _ => 1
  | _ => 0

/-- The code comes to `sched` before it releases the lock of `t`. -/
def ToSched (t : T) : List (Instr T L) → Prop
  | .sched :: _ => True
  | .drop l :: k => l ≠ .proc t ∧ ToSched t k
  | .pushOff :: k | .popOff :: k | .check _ :: k | .take _ :: k => ToSched t k
  | _ => False

/-- The code fits the state it starts in. -/
def Ok (x : Tid C T) : Bool → Set (Lock T L) → List (Instr T L) → Prop
  | p, _, [] => p = false
  | p, H, .pushOff :: k => p = false ∧ Ok x true H k
  | p, H, .popOff :: k => p = true ∧ Ok x false H k
  | p, H, .check _ :: k => p = true ∧ Ok x true H k
  | p, H, .take l :: k => p = true ∧ Ok x false (insert l H) k
  | p, H, .drop l :: k => p = false ∧ Ok x true (H \ {l}) k
  | p, H, .setState st :: k => p = false ∧ st ≠ .running ∧ Ok x false H k ∧ ∃ t, x = .proc t ∧ .proc t ∈ H ∧ ToSched t k
  | p, _, .sched :: k => p = false ∧ ∃ t, x = .proc t ∧ Ok x false {.proc t} k
  | p, H, .restore _ :: k => p = false ∧ Ok x false H k
  | p, H, .test t :: k => p = false ∧ .proc t ∈ H ∧ (∃ c, x = .sched c) ∧ Ok x false ∅ k
  | p, _, .panic msg :: _ => p = false ∧ msg ≠ "pop_off - interruptible" ∧ msg ≠ "pop_off"

/-- The locks that a thread gets back when it is resumed. -/
def own : Tid C T → Set (Lock T L)
  | .sched _ => ∅
  | .proc t => {.proc t}

section Code

variable {x : Tid C T} {p : Bool} {H : Set (Lock T L)} {k : List (Instr T L)} {t : T} {l : Lock T L}

theorem Ok.pending (h : Ok x p H k) : pending k = if p then 1 else 0 := by
  match k, h with
  | [], h | .pushOff :: _, ⟨h, _⟩ | .drop _ :: _, ⟨h, _⟩ | .setState _ :: _, ⟨h, _⟩ | .sched :: _, ⟨h, _⟩
  | .restore _ :: _, ⟨h, _⟩ | .test _ :: _, ⟨h, _⟩ | .panic _ :: _, ⟨h, _⟩ => rw [show p = false from h]; rfl
  | .popOff :: _, ⟨h, _⟩ | .check _ :: _, ⟨h, _⟩ | .take _ :: _, ⟨h, _⟩ => rw [show p = true from h]; rfl

/-! ### The functions of the kernel -/

theorem ok_acquire (H : Set (Lock T L)) (l : Lock T L) : Ok x false H (acquire l) := by simp [acquire, Ok]

theorem ok_release (H : Set (Lock T L)) (l : Lock T L) : Ok x false H (release l) := by simp [release, Ok]

theorem ok_myproc (H : Set (Lock T L)) : Ok x false H (myproc : List (Instr T L)) := by simp [myproc, Ok]

theorem ok_sched (H : Set (Lock T L)) : Ok (.proc t : Tid C T) false H (sched : List (Instr T L)) := by
  simp [sched, myproc, Ok]

theorem ok_forkret (t : T) : Ok (.proc t : Tid C T) false {.proc t} (forkret t : List (Instr T L)) := by
  simp [forkret, myproc, release, Ok]

theorem ok_pick (c : C) (t : T) (H : Set (Lock T L)) : Ok (.sched c) false H (pick t : List (Instr T L)) := by
  simp [pick, acquire, release, Ok]

theorem ok_yield (H : Set (Lock T L)) : Ok (.proc t : Tid C T) false H (yield t : List (Instr T L)) := by
  simp [yield, sched, myproc, acquire, release, Ok, ToSched]

theorem ok_exit (H : Set (Lock T L)) (w : L) : Ok (.proc t : Tid C T) false H (exit t w) := by
  simp [exit, sched, myproc, acquire, release, Ok, ToSched]

theorem ok_sleep (H : Set (Lock T L)) (lk b : L) : Ok (.proc t : Tid C T) false H (sleep t lk b) := by
  simp [sleep, sched, myproc, acquire, release, Ok, ToSched]

end Code

/-! ## The invariant -/

/-- The locks of a CPU. -/
def State.held (s : State C T L) (c : C) : Set (Lock T L) := {l | s.lock l = some c}

/-- The `push_off`s of CPU `c` that are pending. -/
def State.pending (s : State C T L) (c : C) : Nat :=
  match s.stack (s.cur c) with
  | [] => 0
  | k :: _ => Spin.pending k

/-- Process `t` runs on CPU `c` and holds no lock. -/
def State.Free (s : State C T L) (t : T) (c : C) : Prop := s.cur c = .proc t ∧ s.held c = ∅ ∧ s.pending c = 0

/-- A thread: what it runs, with the functions that interrupts have interrupted. -/
structure Thread (s : State C T L) (x : Tid C T) (p : Bool) (H : Set (Lock T L)) (k : List (Instr T L))
    (rest : List (List (Instr T L))) : Prop where
  stack : s.stack x = k :: rest
  ok : Ok x p H k
  rest : ∀ k ∈ rest, Ok x false ∅ k

/-- A CPU counts its locks and what is pending. -/
structure Counted (s : State C T L) (c : C) (p : Bool) : Prop where
  fin : (s.held c).Finite
  noff : (s.cpu c).noff = (s.held c).ncard + if p then 1 else 0
  off : 0 < (s.cpu c).noff → (s.cpu c).sie = false
  calm : (s.cpu c).panicked ≠ some "pop_off - interruptible" ∧ (s.cpu c).panicked ≠ some "pop_off"

structure Inv (s : State C T L) : Prop where
  cpu : ∀ c, ∃ p H k rest, Thread s (s.cur c) p H k rest ∧ H ⊆ s.held c ∧ Counted s c p
  /-- A thread that no CPU runs goes on with its own lock. -/
  asleep : ∀ x, (∀ c, s.cur c ≠ x) → ∃ k rest, Thread s x false (own x) k rest
  sched : ∀ c c', s.cur c = .sched c' → c' = c
  one : ∀ c c' t, s.cur c = .proc t → s.cur c' = .proc t → c = c'
  /-- A process that runs and is in another state is on its way to `sched` with its lock held. -/
  leaving : ∀ c t, s.cur c = .proc t → s.state t ≠ .running →
    s.lock (.proc t) = some c ∧ ∃ k rest, s.stack (.proc t) = k :: rest ∧ ToSched t k

section Steps

variable {s s' : State C T L} {c : C} {x : Tid C T} {p : Bool} {H : Set (Lock T L)} {k : List (Instr T L)}
  {rest : List (List (Instr T L))}

theorem Thread.congr (h : Thread s x p H k rest) (hs : s'.stack x = s.stack x) : Thread s' x p H k rest :=
  ⟨hs.trans h.stack, h.ok, h.rest⟩

theorem Counted.congr (h : Counted s c p) (hc : s'.cpu c = s.cpu c) (hl : s'.held c = s.held c) : Counted s' c p :=
  ⟨hl ▸ h.fin, by rw [hc, hl]; exact h.noff, by rw [hc]; exact h.off, by rw [hc]; exact h.calm⟩

/-- No two CPUs run one thread. -/
theorem Inv.cur_ne (h : Inv s) {c' : C} (hc' : c' ≠ c) : s.cur c' ≠ s.cur c := by
  intro he
  cases hx : s.cur c with
  | sched c₁ =>
    have h1 := h.sched c c₁ hx
    have h2 := h.sched c' c₁ (he.trans hx)
    exact hc' (h2.symm.trans h1)
  | proc t => exact hc' (h.one c' c t (he.trans hx) hx)

/-- A step of CPU `c` that does not switch: the other CPUs and threads are left alone. -/
theorem Inv.local (h : Inv s) (hcur : s'.cur = s.cur)
    (hstate : ∀ c' t, c' ≠ c → s.cur c' = .proc t → s'.state t = s.state t)
    (hcpu : ∀ c', c' ≠ c → s'.cpu c' = s.cpu c') (hheld : ∀ c', c' ≠ c → s'.held c' = s.held c')
    (hstack : ∀ x, x ≠ s.cur c → s'.stack x = s.stack x) (ht : Thread s' (s.cur c) p H k rest) (hH : H ⊆ s'.held c)
    (hcount : Counted s' c p)
    (hleave : ∀ t, s.cur c = .proc t → s'.state t ≠ .running → s'.lock (.proc t) = some c ∧ ToSched t k) : Inv s' := by
  refine ⟨fun c' => ?_, fun y hy => ?_, ?_, ?_, fun c' t hc' hr => ?_⟩
  · by_cases hc' : c' = c
    · rw [hcur, hc']
      exact ⟨p, H, k, rest, ht, hH, hcount⟩
    · obtain ⟨p', H', k', rest', ht', hH', hc⟩ := h.cpu c'
      rw [hcur]
      exact ⟨p', H', k', rest', ht'.congr (hstack _ (h.cur_ne hc')), (hheld c' hc').symm ▸ hH',
        hc.congr (hcpu c' hc') (hheld c' hc')⟩
  · rw [hcur] at hy
    obtain ⟨k', rest', ht'⟩ := h.asleep y hy
    exact ⟨k', rest', ht'.congr (hstack y (hy c).symm)⟩
  · rw [hcur]
    exact h.sched
  · rw [hcur]
    exact h.one
  · rw [hcur] at hc'
    by_cases hcc : c' = c
    · rw [hcc] at hc' ⊢
      obtain ⟨h1, h2⟩ := hleave t hc' hr
      exact ⟨h1, k, rest, hc' ▸ ht.stack, h2⟩
    · rw [hstate c' t hcc hc'] at hr
      obtain ⟨h1, k', rest', h2, h3⟩ := h.leaving c' t hc' hr
      refine ⟨?_, k', rest', ?_, h3⟩
      · have hl : Lock.proc t ∈ s'.held c' := (hheld c' hcc).symm ▸ h1
        exact hl
      · rw [hstack _ (hc' ▸ h.cur_ne hcc)]
        exact h2

/-- A CPU that counts nothing holds no lock, and nothing is pending. -/
theorem Counted.zero (h : Counted s c p) (h0 : (s.cpu c).noff = 0) : s.held c = ∅ ∧ p = false := by
  have hn := h.noff
  refine ⟨(Set.ncard_eq_zero h.fin).mp (by omega), ?_⟩
  cases p
  · rfl
  · rw [if_pos rfl] at hn
    omega

theorem Inv.noff (h : Inv s) (c : C) : (s.cpu c).noff = (s.held c).ncard + s.pending c := by
  obtain ⟨p, H, k, rest, ht, -, hcount⟩ := h.cpu c
  rw [hcount.noff, State.pending, ht.stack]
  exact congrArg _ ht.ok.pending.symm

theorem Inv.free_iff {t : T} (h : Inv s) (c : C) : s.Free t c ↔ s.cur c = .proc t ∧ (s.cpu c).noff = 0 := by
  obtain ⟨p, H, k, rest, -, -, hcount⟩ := h.cpu c
  refine and_congr_right fun _ => ⟨fun ⟨h1, h2⟩ => ?_, fun h0 => ⟨(hcount.zero h0).1, ?_⟩⟩
  · rw [h.noff, h1, h2, Set.ncard_empty]
  · have hn := h.noff c
    omega

/-- What a CPU runs, with the locks that it holds then and what it counts. -/
structure On (s : State C T L) (c : C) (p : Bool) (H : Set (Lock T L)) (k : List (Instr T L))
    (rest : List (List (Instr T L))) : Prop extends Thread s (s.cur c) p H k rest where
  held : H ⊆ s.held c
  count : Counted s c p

theorem Inv.on (h : Inv s) (c : C) : ∃ p H k rest, On s c p H k rest := by
  obtain ⟨p, H, k, rest, ht, hH, hcount⟩ := h.cpu c
  exact ⟨p, H, k, rest, ht, hH, hcount⟩

variable [DecidableEq C] [DecidableEq T] [DecidableEq L] {i : Instr T L} {q : Bool} {H' : Set (Lock T L)}

theorem Inv.toSched {t : T} (h : Inv s) (ht : On s c p H k rest) (hc : s.cur c = .proc t)
    (hr : s.state t ≠ .running) : s.lock (.proc t) = some c ∧ ToSched t k := by
  obtain ⟨h1, k', rest', h2, h3⟩ := h.leaving c t hc hr
  rw [← hc, ht.stack] at h2
  cases h2
  exact ⟨h1, h3⟩

/-- A step of CPU `c` that takes its thread to the next instruction. -/
theorem Inv.advance (h : Inv s) (ht : On s c p H (i :: k) rest) (hcur : s'.cur = s.cur)
    (hstate : s'.state = s.state) (hstk : s'.stack = update s.stack (s.cur c) (k :: rest))
    (hcpu : ∀ c', c' ≠ c → s'.cpu c' = s.cpu c') (hheld : ∀ c', c' ≠ c → s'.held c' = s.held c')
    (hok : Ok (s.cur c) q H' k) (hH : H' ⊆ s'.held c) (hcount : Counted s' c q)
    (hto : ∀ t, s.lock (.proc t) = some c → ToSched t (i :: k) → s'.lock (.proc t) = some c ∧ ToSched t k) : Inv s' := by
  refine h.local hcur (fun _ _ _ _ => by rw [hstate]) hcpu hheld (fun x hx => ?_) ⟨?_, hok, ht.rest⟩ hH hcount fun t hc hr => ?_
  · rw [hstk, update_of_ne hx]
  · rw [hstk, update_self]
  · rw [hstate] at hr
    obtain ⟨h1, h2⟩ := h.toSched ht hc hr
    exact hto t h1 h2

/-! ### The locks of a CPU -/

theorem held_take {f : Lock T L → Option C} {l : Lock T L} (hl : f l = none) (c' : C) :
    {x | update f l (some c) x = some c'} = if c' = c then insert l {x | f x = some c'} else {x | f x = some c'} := by
  ext x
  by_cases hx : x = l
  · rw [Set.mem_setOf_eq, hx, update_self]
    split
    · next hc =>
      rw [hc]
      exact ⟨fun _ => Set.mem_insert _ _, fun _ => rfl⟩
    · next hc =>
      rw [Set.mem_setOf_eq, hl]
      constructor
      · intro he
        cases he
        exact absurd rfl hc
      · intro he
        cases he
  · rw [Set.mem_setOf_eq, update_of_ne hx]
    split
    · rw [Set.mem_insert_iff]
      exact ⟨.inr, fun he => he.resolve_left hx⟩
    · rfl

theorem held_drop {f : Lock T L → Option C} {l : Lock T L} (hl : f l = some c) (c' : C) :
    {x | update f l none x = some c'} = if c' = c then {x | f x = some c'} \ {l} else {x | f x = some c'} := by
  ext x
  by_cases hx : x = l
  · rw [Set.mem_setOf_eq, hx, update_self]
    split
    · constructor
      · intro he
        cases he
      · intro he
        exact absurd rfl he.2
    · next hc =>
      rw [Set.mem_setOf_eq, hl]
      constructor
      · intro he
        cases he
      · intro he
        cases he
        exact absurd rfl hc
  · rw [Set.mem_setOf_eq, update_of_ne hx]
    split
    · exact ⟨fun he => ⟨he, hx⟩, And.left⟩
    · rfl

/-! ### Instructions -/

theorem setCpu_ne (s : State C T L) (g : Cpu → Cpu) (c' : C) (hc : c' ≠ c) : (s.setCpu c g).cpu c' = s.cpu c' :=
  update_of_ne hc _ _

theorem setCpu_self (s : State C T L) (c : C) (g : Cpu → Cpu) : (s.setCpu c g).cpu c = g (s.cpu c) := update_self ..

theorem Inv.pushOff (h : Inv s) (ht : On s c p H (.pushOff :: k) rest) : Inv ((s.setCpu c Cpu.pushOff).setStack c (k :: rest)) := by
  obtain ⟨rfl, hok⟩ := ht.ok
  have hcpu : ((s.setCpu c Cpu.pushOff).setStack c (k :: rest)).cpu c = (s.cpu c).pushOff := setCpu_self s c _
  refine h.advance ht rfl rfl rfl (setCpu_ne s _) (fun _ _ => rfl) hok ht.held ⟨ht.count.fin, ?_, ?_, ?_⟩ fun t h1 h2 => ⟨h1, h2⟩
  · rw [hcpu]
    show (s.cpu c).noff + 1 = _
    rw [ht.count.noff]
    rfl
  · rw [hcpu]
    exact fun _ => rfl
  · rw [hcpu]
    exact ht.count.calm

/-- `pop_off` where it is used. -/
theorem Counted.popOff (h : Counted s c true) : (s.cpu c).popOff =
    { s.cpu c with noff := (s.cpu c).noff - 1, sie := (s.cpu c).noff - 1 = 0 && (s.cpu c).intena } := by
  have hpos : 0 < (s.cpu c).noff := by
    rw [h.noff]
    exact Nat.succ_pos _
  rw [Cpu.popOff, h.off hpos, if_neg (by decide), if_neg (by omega)]

theorem Inv.popOff (h : Inv s) (ht : On s c p H (.popOff :: k) rest) : Inv ((s.setCpu c Cpu.popOff).setStack c (k :: rest)) := by
  obtain ⟨rfl, hok⟩ := ht.ok
  have hcpu : ((s.setCpu c Cpu.popOff).setStack c (k :: rest)).cpu c = (s.cpu c).popOff := setCpu_self s c _
  rw [ht.count.popOff] at hcpu
  refine h.advance ht rfl rfl rfl (setCpu_ne s _) (fun _ _ => rfl) hok ht.held ⟨ht.count.fin, ?_, ?_, ?_⟩ fun t h1 h2 => ⟨h1, h2⟩
  · rw [hcpu]
    show (s.cpu c).noff - 1 = _
    rw [ht.count.noff]
    rfl
  · rw [hcpu]
    intro hpos
    have hne : (s.cpu c).noff - 1 ≠ 0 := Nat.pos_iff_ne_zero.mp hpos
    simp [hne]
  · rw [hcpu]
    exact ht.count.calm

theorem Inv.panic (h : Inv s) (ht : On s c p H k rest)
    {msg : String} (h1 : msg ≠ "pop_off - interruptible") (h2 : msg ≠ "pop_off") : Inv (s.panic c msg) := by
  refine h.local rfl (fun _ _ _ _ => rfl) (setCpu_ne s _) (fun _ _ => rfl) (fun _ _ => rfl) (ht.congr rfl) ht.held
    ⟨ht.count.fin, ?_, ?_, ?_⟩ fun t hc hr => h.toSched ht hc hr
  · rw [State.panic, setCpu_self]
    exact ht.count.noff
  · rw [State.panic, setCpu_self]
    exact ht.count.off
  · rw [State.panic, setCpu_self]
    exact ⟨fun he => h1 (Option.some.inj he), fun he => h2 (Option.some.inj he)⟩

theorem Inv.check {l : Lock T L} (h : Inv s) (ht : On s c p H (.check l :: k) rest) : Inv (s.setStack c (k :: rest)) := by
  obtain ⟨rfl, hok⟩ := ht.ok
  exact h.advance ht rfl rfl rfl (fun _ _ => rfl) (fun _ _ => rfl) hok ht.held (ht.count.congr rfl rfl) fun t h1 h2 => ⟨h1, h2⟩

theorem Inv.take {l : Lock T L} (h : Inv s) (ht : On s c p H (.take l :: k) rest) (hl : s.lock l = none) :
    Inv { s.setStack c (k :: rest) with lock := update s.lock l (some c) } := by
  obtain ⟨rfl, hok⟩ := ht.ok
  have hheld : ∀ c', State.held { s.setStack c (k :: rest) with lock := update s.lock l (some c) } c' =
      if c' = c then insert l (s.held c') else s.held c' := held_take hl
  have hc := (hheld c).trans (if_pos rfl)
  have hnot : l ∉ s.held c := by
    intro hmem
    rw [State.held, Set.mem_setOf_eq, hl] at hmem
    cases hmem
  refine h.advance ht rfl rfl rfl (fun _ _ => rfl) (fun c' hc' => (hheld c').trans (if_neg hc')) hok ?_
    ⟨?_, ?_, ht.count.off, ht.count.calm⟩ fun t h1 h2 => ⟨?_, h2⟩
  · rw [hc]
    exact Set.insert_subset_insert ht.held
  · rw [hc]
    exact ht.count.fin.insert l
  · rw [hc, Set.ncard_insert_of_notMem hnot ht.count.fin]
    exact ht.count.noff
  · have hmem : Lock.proc t ∈ insert l (s.held c) := Set.mem_insert_of_mem _ h1
    rw [← hc] at hmem
    exact hmem

theorem Inv.drop {l : Lock T L} (h : Inv s) (ht : On s c p H (.drop l :: k) rest) (hl : s.lock l = some c) :
    Inv { s.setStack c (k :: rest) with lock := update s.lock l none } := by
  obtain ⟨rfl, hok⟩ := ht.ok
  have hheld : ∀ c', State.held { s.setStack c (k :: rest) with lock := update s.lock l none } c' =
      if c' = c then s.held c' \ {l} else s.held c' := held_drop hl
  have hc := (hheld c).trans (if_pos rfl)
  refine h.advance ht rfl rfl rfl (fun _ _ => rfl) (fun c' hc' => (hheld c').trans (if_neg hc')) hok ?_
    ⟨?_, ?_, ht.count.off, ht.count.calm⟩ fun t h1 h2 => ⟨?_, h2.2⟩
  · rw [hc]
    exact Set.diff_subset_diff_left ht.held
  · rw [hc]
    exact ht.count.fin.diff
  · rw [hc]
    have hn := Set.ncard_diff_singleton_add_one (show l ∈ s.held c from hl) ht.count.fin
    show (s.cpu c).noff = _
    rw [ht.count.noff, ← hn]
    rfl
  · have hmem : Lock.proc t ∈ s.held c \ {l} := ⟨h1, fun he => h2.1 he.symm⟩
    rw [← hc] at hmem
    exact hmem

theorem Inv.restore {b : Bool} (h : Inv s) (ht : On s c p H (.restore b :: k) rest) : Inv ((s.setCpu c fun x => { x with intena := b }).setStack c (k :: rest)) := by
  obtain ⟨rfl, hok⟩ := ht.ok
  have hcpu : ((s.setCpu c fun x => { x with intena := b }).setStack c (k :: rest)).cpu c = { s.cpu c with intena := b } :=
    setCpu_self s c fun x => { x with intena := b }
  refine h.advance ht rfl rfl rfl (setCpu_ne s fun x => { x with intena := b }) (fun _ _ => rfl) hok ht.held
    ⟨ht.count.fin, ?_, ?_, ?_⟩ fun t _ h2 => h2.elim
  · rw [hcpu]
    exact ht.count.noff
  · rw [hcpu]
    exact ht.count.off
  · rw [hcpu]
    exact ht.count.calm

theorem Inv.setState {t : T} {st : PState} (h : Inv s) (ht : On s c p H (.setState st :: k) rest) (hc : s.cur c = .proc t) :
    Inv ((s.setState t st).setStack c (k :: rest)) := by
  obtain ⟨rfl, -, hok, t', ht', hmem, hto⟩ := ht.ok
  obtain rfl : t = t' := Tid.proc.inj (hc.symm.trans ht')
  refine h.local rfl (fun c' t' hc' hcur => ?_) (fun _ _ => rfl) (fun _ _ => rfl) (fun x hx => update_of_ne hx _ _)
    ⟨update_self .., hok, ht.rest⟩ ht.held (ht.count.congr rfl rfl) fun t' ht' _ => ?_
  · have hne : t' ≠ t := by
      rintro rfl
      exact h.cur_ne hc' (hcur.trans hc.symm)
    exact update_of_ne hne _ _
  · obtain rfl : t = t' := Tid.proc.inj (hc.symm.trans ht')
    exact ⟨ht.held hmem, hto⟩

/-! ### Switches -/

/-- CPU `c` goes over from its thread to `y`. -/
theorem Inv.switch {y : Tid C T} (h : Inv s) (hcur : s'.cur = update s.cur c y) (hy : ∀ c', s.cur c' ≠ y)
    (hsched : ∀ c', y = .sched c' → c' = c) (hcpu : s'.cpu = s.cpu) (hlock : s'.lock = s.lock)
    (hstack : ∀ z, z ≠ s.cur c → s'.stack z = s.stack z) (ht : Thread s' (s.cur c) false (own (s.cur c)) k rest)
    (hown : own y ⊆ s.held c) (hcount : Counted s c false)
    (hstate : ∀ c' t, c' ≠ c → s.cur c' = .proc t → s'.state t = s.state t)
    (hrun : ∀ t, y = .proc t → s'.state t = .running) : Inv s' := by
  have hself : s'.cur c = y := by rw [hcur, update_self]
  have hne : ∀ {c'}, c' ≠ c → s'.cur c' = s.cur c' := fun hc' => by rw [hcur, update_of_ne hc']
  have hheld : ∀ c', s'.held c' = s.held c' := fun c' => by rw [State.held, hlock]; rfl
  refine ⟨fun c' => ?_, fun z hz => ?_, fun c' c₁ hc => ?_, fun c₁ c₂ t h1 h2 => ?_, fun c' t hc' hr => ?_⟩
  · by_cases hc' : c' = c
    · obtain ⟨k', rest', ht'⟩ := h.asleep y hy
      rw [hc', hself]
      exact ⟨false, own y, k', rest', ht'.congr (hstack y (hy c).symm), (hheld c).symm ▸ hown,
        hcount.congr (congrFun hcpu c) (hheld c)⟩
    · obtain ⟨p', H', k', rest', ht', hH', hc⟩ := h.cpu c'
      rw [hne hc']
      exact ⟨p', H', k', rest', ht'.congr (hstack _ (h.cur_ne hc')), (hheld c').symm ▸ hH',
        hc.congr (congrFun hcpu c') (hheld c')⟩
  · by_cases hzc : z = s.cur c
    · rw [hzc]
      exact ⟨k, rest, ht⟩
    · have hz' : ∀ c', s.cur c' ≠ z := by
        intro c' he
        by_cases hc' : c' = c
        · rw [hc'] at he
          exact hzc he.symm
        · exact hz c' ((hne hc').trans he)
      obtain ⟨k', rest', ht'⟩ := h.asleep z hz'
      exact ⟨k', rest', ht'.congr (hstack z hzc)⟩
  · by_cases hc' : c' = c
    · rw [hc', hself] at hc
      rw [hc']
      exact hsched c₁ hc
    · rw [hne hc'] at hc
      exact h.sched c' c₁ hc
  · by_cases hc₁ : c₁ = c
    · by_cases hc₂ : c₂ = c
      · rw [hc₁, hc₂]
      · rw [hne hc₂] at h2
        rw [hc₁, hself] at h1
        exact absurd (h2.trans h1.symm) (hy c₂)
    · rw [hne hc₁] at h1
      by_cases hc₂ : c₂ = c
      · rw [hc₂, hself] at h2
        exact absurd (h1.trans h2.symm) (hy c₁)
      · rw [hne hc₂] at h2
        exact h.one c₁ c₂ t h1 h2
  · by_cases hcc : c' = c
    · rw [hcc, hself] at hc'
      exact absurd (hrun t hc') hr
    · rw [hne hcc] at hc'
      rw [hstate c' t hcc hc'] at hr
      obtain ⟨h1, k', rest', h2, h3⟩ := h.leaving c' t hc' hr
      refine ⟨by rw [hlock]; exact h1, k', rest', ?_, h3⟩
      rw [hstack _ (hc' ▸ h.cur_ne hcc)]
      exact h2

theorem Inv.dispatch {t : T} (h : Inv s) (ht : On s c p H (.test t :: k) rest) (hr : s.state t = .runnable) :
    Inv { (s.setState t .running).setStack c (k :: rest) with cur := update s.cur c (.proc t) } := by
  obtain ⟨rfl, hmem, ⟨c₁, hc₁⟩, hok⟩ := ht.ok
  -- a CPU that ran the process would hold its lock
  have hfree : ∀ c', s.cur c' ≠ .proc t := by
    intro c' hc'
    have h1 := (h.leaving c' t hc' (by rw [hr]; decide)).1
    have h2 : s.lock (.proc t) = some c := ht.held hmem
    rw [h1] at h2
    obtain rfl : c' = c := Option.some.inj h2
    rw [hc₁] at hc'
    cases hc'
  refine h.switch rfl hfree (fun _ he => nomatch he) rfl rfl (fun z hz => update_of_ne hz _ _)
    ⟨update_self .., ?_, ht.rest⟩ ?_ ht.count (fun c' t' _ hcur => ?_) fun t' he => ?_
  · rw [hc₁] at hok ⊢
    exact hok
  · rintro l rfl
    exact ht.held hmem
  · have hne : t' ≠ t := fun he => hfree c' (he ▸ hcur)
    exact update_of_ne hne _ _
  · cases he
    exact update_self ..

theorem Inv.swtch {t : T} (h : Inv s) (ht : On s c p H (.sched :: k) rest)
    (hc : s.cur c = .proc t) (b : Bool) :
    Inv { s.setStack c ((.restore b :: k) :: rest) with cur := update s.cur c (.sched c) } := by
  obtain ⟨rfl, t', ht', hok⟩ := ht.ok
  refine h.switch rfl (fun c' hc' => ?_) (fun c' he => (Tid.sched.inj he).symm) rfl rfl
    (fun z hz => update_of_ne hz _ _) ⟨update_self .., ⟨rfl, ?_⟩, ht.rest⟩ (Set.empty_subset _) ht.count
    (fun _ _ _ _ => rfl) fun _ he => nomatch he
  · obtain rfl := h.sched c' c hc'
    rw [hc] at hc'
    cases hc'
  · rw [ht'] at hok ⊢
    exact hok

/-! ### Calls -/

/-- A function starts. -/
theorem Inv.enter (h : Inv s) (ht : On s c p H [] rest) (hok : Ok (s.cur c) false ∅ k) : Inv (s.setStack c (k :: rest)) := by
  obtain rfl : p = false := ht.ok
  refine h.local rfl (fun _ _ _ _ => rfl) (fun _ _ => rfl) (fun _ _ => rfl) (fun z hz => update_of_ne hz _ _)
    ⟨update_self .., hok, ht.rest⟩ (Set.empty_subset _) (ht.count.congr rfl rfl) fun t hc hr => ?_
  exact (h.toSched ht hc hr).2.elim

theorem Inv.setOther {t : T} (st : PState) (h : Inv s) (ht : On s c p H k rest) (hl : s.lock (.proc t) = some c) (hc : s.cur c ≠ .proc t) (hr : s.state t ≠ .running) :
    Inv (s.setState t st) := by
  refine h.local rfl (fun c' t' hc' hcur => ?_) (fun _ _ => rfl) (fun _ _ => rfl) (fun _ _ => rfl) (ht.congr rfl) ht.held
    (ht.count.congr rfl rfl) fun t' hcur hr' => ?_
  · have hne : t' ≠ t := by
      rintro rfl
      have h1 := (h.leaving c' t' hcur hr).1
      rw [hl] at h1
      exact hc' (Option.some.inj h1).symm
    exact update_of_ne hne _ _
  · have hne : t' ≠ t := fun he => hc (he ▸ hcur)
    have hst : (s.setState t st).state t' = s.state t' := update_of_ne hne _ _
    rw [hst] at hr'
    exact h.toSched ht hcur hr'

theorem Inv.spawn {t : T} (h : Inv s) (hl : s.lock (.proc t) = some c) (hc : s.cur c ≠ .proc t)
    (hr : s.state t ≠ .running) : Inv { s with stack := update s.stack (.proc t) [forkret t] } := by
  have hfree : ∀ c', s.cur c' ≠ .proc t := by
    intro c' hc'
    have h1 := (h.leaving c' t hc' hr).1
    rw [hl] at h1
    exact hc (Option.some.inj h1 ▸ hc')
  refine ⟨fun c' => ?_, fun z hz => ?_, h.sched, h.one, fun c' t' hc' hr' => ?_⟩
  · obtain ⟨p', H', k', rest', ht', hH', hcount⟩ := h.cpu c'
    exact ⟨p', H', k', rest', ht'.congr (update_of_ne (hfree c') _ _), hH', hcount.congr rfl rfl⟩
  · by_cases hzt : z = .proc t
    · rw [hzt]
      exact ⟨forkret t, [], update_self .., ok_forkret t, fun _ hk => nomatch hk⟩
    · obtain ⟨k', rest', ht'⟩ := h.asleep z hz
      exact ⟨k', rest', ht'.congr (update_of_ne hzt _ _)⟩
  · obtain ⟨h1, k', rest', h2, h3⟩ := h.leaving c' t' hc' hr'
    refine ⟨h1, k', rest', ?_, h3⟩
    show update s.stack _ _ _ = _
    rw [update_of_ne (hc' ▸ hfree c'), h2]

/-- The interrupt-enable bit changes; it is not set while `noff` is positive. -/
theorem Inv.setSie {b : Bool} (h : Inv s) (hb : 0 < (s.cpu c).noff → b = false) :
    Inv (s.setCpu c fun x => { x with sie := b }) := by
  obtain ⟨p, H, k, rest, ht⟩ := h.on c
  have hcpu : (s.setCpu c fun x => { x with sie := b }).cpu c = { s.cpu c with sie := b } :=
    setCpu_self s c fun x => { x with sie := b }
  refine h.local rfl (fun _ _ _ _ => rfl) (setCpu_ne s _) (fun _ _ => rfl) (fun _ _ => rfl) (ht.congr rfl) ht.held
    ⟨ht.count.fin, ?_, ?_, ?_⟩ fun t hc hr => h.toSched ht hc hr
  · rw [hcpu]
    exact ht.count.noff
  · rw [hcpu]
    exact hb
  · rw [hcpu]
    exact ht.count.calm

theorem Inv.sret (h : Inv s) (ht : On s c p H [] (k :: rest)) :
    Inv (s.setStack c (k :: rest)) := by
  obtain rfl : p = false := ht.ok
  refine h.local rfl (fun _ _ _ _ => rfl) (fun _ _ => rfl) (fun _ _ => rfl) (fun z hz => update_of_ne hz _ _)
    ⟨update_self .., ht.rest k List.mem_cons_self, fun k' hk' => ht.rest k' (List.mem_cons_of_mem _ hk')⟩
    (Set.empty_subset _) (ht.count.congr rfl rfl) fun t hc hr => ?_
  exact (h.toSched ht hc hr).2.elim

theorem Inv.intr (h : Inv s) (ht : On s c p H k rest)
    (hsie : (s.cpu c).sie = true) : Inv (s.setStack c ([] :: k :: rest)) := by
  have h0 : (s.cpu c).noff = 0 := by
    by_contra hne
    rw [ht.count.off (Nat.pos_of_ne_zero hne)] at hsie
    cases hsie
  obtain ⟨hnone, rfl⟩ := ht.count.zero h0
  obtain rfl : H = ∅ := Set.subset_eq_empty ht.held hnone
  refine h.local rfl (fun _ _ _ _ => rfl) (fun _ _ => rfl) (fun _ _ => rfl) (fun z hz => update_of_ne hz _ _)
    ⟨update_self .., rfl, fun k' hk' => ?_⟩ (Set.empty_subset _) (ht.count.congr rfl rfl) fun t hc hr => ?_
  · rcases List.mem_cons.mp hk' with rfl | hk'
    · exact ht.ok
    · exact ht.rest k' hk'
  · have hmem : Lock.proc t ∈ s.held c := (h.toSched ht hc hr).1
    rw [hnone] at hmem
    exact hmem.elim

/-! ## Runs -/

theorem Inv.exec (h : Inv s) (ht : On s c p H (i :: k) rest)
    (he : s.exec c k rest i = some s') : Inv s' := by
  cases i with
  | pushOff =>
    cases he
    exact h.pushOff ht
  | popOff =>
    cases he
    exact h.popOff ht
  | check l =>
    obtain rfl := Option.some.inj he
    split
    · exact h.panic ht (by decide) (by decide)
    · exact h.check ht
  | take l =>
    rw [State.exec] at he
    split at he
    · next hl =>
      cases he
      exact h.take ht hl
    · cases he
  | drop l =>
    obtain rfl := Option.some.inj he
    split
    · next hl => exact h.drop ht hl
    · exact h.panic ht (by decide) (by decide)
  | setState st =>
    obtain ⟨-, -, -, t, hc, -⟩ := ht.ok
    rw [State.exec, hc] at he
    cases he
    exact h.setState ht hc
  | sched =>
    obtain ⟨-, t, hc, -⟩ := ht.ok
    rw [State.exec, hc] at he
    obtain rfl := Option.some.inj he
    rw [State.sched]
    split_ifs
    iterate 4 exact h.panic ht (by decide) (by decide)
    exact h.swtch ht hc _
  | restore b =>
    cases he
    exact h.restore ht
  | test t =>
    rw [State.exec] at he
    split at he
    · next hr =>
      cases he
      exact h.dispatch ht hr
    · cases he
      obtain ⟨rfl, -, -, hok⟩ := ht.ok
      exact h.advance ht rfl rfl rfl (fun _ _ => rfl) (fun _ _ => rfl) hok (Set.empty_subset _) (ht.count.congr rfl rfl)
        fun t _ h2 => h2.elim
  | panic msg =>
    cases he
    obtain ⟨-, h1, h2⟩ := ht.ok
    exact h.panic ht h1 h2

theorem Inv.callProc {t : T} {op : Op T L} (h : Inv s) (ht : On s c p H [] rest)
    (hc : s.cur c = .proc t) (he : s.callProc c t rest op = some s') : Inv s' := by
  cases op with
  | yield =>
    cases he
    exact h.enter ht (hc ▸ ok_yield ∅)
  | sleep lk b =>
    cases he
    exact h.enter ht (hc ▸ ok_sleep ∅ lk b)
  | sched =>
    cases he
    exact h.enter ht (hc ▸ ok_sched ∅)
  | exit w =>
    cases he
    exact h.enter ht (hc ▸ ok_exit ∅ w)
  | _ => cases he

theorem Inv.call {op : Op T L} (h : Inv s) (ht : On s c p H [] rest) (he : s.call c rest op = some s') : Inv s' := by
  cases op with
  | acquire l =>
    cases he
    exact h.enter ht (ok_acquire ∅ l)
  | release l =>
    cases he
    exact h.enter ht (ok_release ∅ l)
  | myproc =>
    cases he
    exact h.enter ht (ok_myproc ∅)
  | setState t st =>
    rw [State.call] at he
    split at he
    · next hg =>
      cases he
      exact h.setOther st ht hg.1 hg.2.1 hg.2.2.1
    · cases he
  | spawn t =>
    rw [State.call] at he
    split at he
    · next hg =>
      cases he
      exact h.spawn hg.1 hg.2.1 hg.2.2
    · cases he
  | pick t =>
    rw [State.call] at he
    split at he
    · next hg =>
      cases he
      exact h.enter ht (hg.1 ▸ ok_pick c t ∅)
    · cases he
  | intrOn =>
    rw [State.call] at he
    split at he
    · next h0 =>
      cases he
      exact h.setSie fun hpos => by omega
    · cases he
  | intrOff =>
    cases he
    exact h.setSie fun _ => rfl
  | sret =>
    cases rest with
    | nil => cases he
    | cons k rest =>
      rw [State.call] at he
      split at he
      · next h0 =>
        cases he
        exact (h.sret ht).setSie fun (hpos : 0 < (s.cpu c).noff) => by omega
      · cases he
  | yield | sleep lk b | sched | exit w =>
    cases hc : s.cur c with
    | sched c₁ =>
      simp only [State.call, hc] at he
      cases he
    | proc t =>
      simp only [State.call, hc] at he
      exact h.callProc ht hc he

/-- A step runs an instruction, calls a function or takes an interrupt. -/
theorem step_inv {a : Act T L} (h : step s (c, a) = some s') :
    (∃ i k rest, s.stack (s.cur c) = (i :: k) :: rest ∧ s.exec c k rest i = some s') ∨
      (∃ op rest, s.stack (s.cur c) = [] :: rest ∧ a = .call op ∧ s.call c rest op = some s') ∨
      ∃ k rest, s.stack (s.cur c) = k :: rest ∧ (s.cpu c).sie = true ∧
        s' = (s.setCpu c fun x => { x with sie := false }).setStack c ([] :: k :: rest) := by
  rw [step] at h
  split at h
  · cases h
  cases hstack : s.stack (s.cur c) with
  | nil =>
    rw [hstack] at h
    cases h
  | cons k rest =>
    rw [hstack] at h
    cases a with
    | run =>
      cases k with
      | nil => cases h
      | cons i k => exact .inl ⟨i, k, rest, rfl, h⟩
    | call op =>
      cases k with
      | nil => exact .inr (.inl ⟨op, rest, rfl, rfl, h⟩)
      | cons i k => cases h
    | intr =>
      have h' : (if (s.cpu c).sie then some ((s.setCpu c fun x => { x with sie := false }).setStack c ([] :: k :: rest))
          else none) = some s' := by
        cases k <;> exact h
      split at h'
      · next hsie =>
        cases h'
        exact .inr (.inr ⟨k, rest, rfl, hsie, rfl⟩)
      · cases h'

/-- **Every step keeps the invariant.** -/
theorem Inv.step {a : C × Act T L} (h : Inv s) (he : Spin.step s a = some s') : Inv s' := by
  obtain ⟨c, a⟩ := a
  obtain ⟨p, H, k, rest, ht⟩ := h.on c
  have hstack := ht.stack
  rcases step_inv he with ⟨i, k', rest', hs, hx⟩ | ⟨op, rest', hs, rfl, hx⟩ | ⟨k', rest', hs, hsie, rfl⟩
  · rw [hs] at hstack
    cases hstack
    exact h.exec ht hx
  · rw [hs] at hstack
    cases hstack
    exact h.call ht hx
  · rw [hs] at hstack
    cases hstack
    exact (h.intr ht hsie).setSie fun _ => rfl

theorem Inv.boot (init : T) : Inv (State.boot init : State C T L) := by
  refine ⟨fun c => ?_, fun x hx => ?_, fun c c' hc => ?_, fun c c' t hc => ?_, fun c t hc => ?_⟩
  · have hnone : (State.boot init : State C T L).held c = ∅ := Set.eq_empty_of_forall_notMem fun l hl => nomatch hl
    refine ⟨false, ∅, [], [], ⟨rfl, rfl, fun _ hk => nomatch hk⟩, Set.empty_subset _, ?_, ?_, ?_, ?_⟩
    · rw [hnone]
      exact Set.finite_empty
    · rw [hnone, Set.ncard_empty]
      rfl
    · exact fun _ => rfl
    · exact ⟨nofun, nofun⟩
  · cases x with
    | sched c => exact absurd rfl (hx c)
    | proc t => exact ⟨forkret t, [], rfl, ok_forkret t, fun _ hk => nomatch hk⟩
  · exact (Tid.sched.inj hc).symm
  · cases hc
  · cases hc

/-- **The invariant holds in every reachable state.** -/
theorem Reachable.inv (h : Reachable s) : Inv s := by
  obtain ⟨init, hruns⟩ := h
  exact hruns.invariant (Inv.boot init) fun hi _ he => hi.step he

end Steps

end Xv6.Spin
