import Mathlib.Data.Fintype.BigOperators
import Mathlib.Data.Fintype.Prod
import Xv6.Ftable.Steps

/-!
# The calls on files and pipes

Every call hands its references and its ends of pipes around, and drops each of them once on every path (`Call.spec`).
Hence, in every run,

- the counts of the file table are exact whenever no call that changes them is in progress (`file_references_exact`);
- a pipe is freed once, when nobody can use it (`pipe_freed_unused`).
-/

namespace Xv6.Ftable

open Lib (Prog Machine Logic)
open Fs (NFILE NOFILE)

variable {P : Type} [DecidableEq P] [Fintype P] {s s' : State P} {p np initproc : P} {x y : Own P} {f : Fin NFILE}
  {fd : Fin NOFILE} {n : Nat} {w : Bool} {α : Type}
variable {Q : Unit → Own P → Prop} {hold : Multiset (Fin NFILE)} {fresh : Finset (Fin NFILE)} {turns : Nat}
  {count : Int}

/-! ## The logic -/

/-- The proof method for references and ends of pipes. -/
def logic (P : Type) [DecidableEq P] [Fintype P] : Logic (machine P) (fun _ _ _ => True) (Own P) where
  inv := Inv
  idle := Own.Idle
  pre _ c x Q := x.up = true ∧ x.pre c ∧ ∀ r, x.learns c r → Q r (x.after c r)
  mono := by
    rintro p c x Q Q' hQ ⟨hu, hpre, h⟩
    exact ⟨hu, hpre, fun r hr => hQ r _ (h r hr)⟩
  sound := by
    rintro s g p c Q ch r s' h ⟨hu, hpre, hQ⟩ - - hs
    obtain ⟨hi, hl⟩ := h.sound hu hpre hs
    refine ⟨_, hi, fun hh => hQ r (hl ?_)⟩
    exact Option.not_isSome_iff_eq_none.mp (Bool.eq_false_iff.mp hh)

/-- The weakest precondition of a program. -/
abbrev fwp (p : P) (f : FProg P α) (x : Own P) (Q : α → Own P → Prop) : Prop := (logic P).wp p f x Q

theorem fwp_bind {β : Type} {f : FProg P α} {k : α → FProg P β} {Q : β → Own P → Prop}
    (h : fwp p f x fun a y => fwp p (k a) y Q) : fwp p (f >>= k) x Q :=
  (logic P).wp_bind.mpr h

theorem fwp_mono {f : FProg P α} {Q Q' : α → Own P → Prop} (hQ : ∀ a y, Q a y → Q' a y) (h : fwp p f x Q) : fwp p f x Q' :=
  (logic P).wp_mono hQ h

/-- One step, and what comes after it. -/
theorem fwp_step {c : Cmd P} {k : c.R → FProg P α} {Q : α → Own P → Prop} (hu : x.up = true) (hpre : x.pre c)
    (h : ∀ r, x.learns c r → fwp p (k r) (x.after c r) Q) : fwp p (step c >>= k) x Q :=
  ⟨hu, hpre, h⟩

/-! ## Files and pipes -/

/-- A process in a call that has references to the files `hold`, of which it has yet to set the types of `fresh`. -/
structure Own.Has (x : Own P) (hold : Multiset (Fin NFILE)) (fresh : Finset (Fin NFILE)) : Prop where
  up : x.up = true
  hold : x.hold = hold
  fresh : x.fresh = fresh
  ends : x.ends = 0
  dead : x.dead = none
  inside : x.inside = none
  child : x.child = none

omit [Fintype P] [DecidableEq P] in
theorem Own.Has.idle (h : x.Has 0 ∅) : x.Idle := ⟨⟨h.hold, h.fresh, h.ends, h.dead, h.child⟩, h.inside⟩

theorem pipeclose_spec (hu : x.up = true) (hm : (n, w) ∈ x.ends) (hd : x.dead = none)
    (hQ : Q () { x with ends := x.ends.erase (n, w) }) : fwp p (pipeclose n w) x Q := by
  have hback : { x with ends := x.ends.erase (n, w), dead := none } = { x with ends := x.ends.erase (n, w) } :=
    Own.ext rfl rfl rfl rfl hd.symm rfl rfl rfl rfl
  refine fwp_step hu ⟨hm, hd⟩ fun both _ => ?_
  cases both with
  | false => exact hQ
  | true =>
    refine ⟨hu, rfl, fun _ _ => ?_⟩
    rw [← hback] at hQ
    exact hQ

theorem filecloseEnd_spec {last : Option File} {e : Multiset (Nat × Bool)} (hu : x.up = true)
    (he : x.ends = Own.endOf last + e) (hd : x.dead = none) (hQ : Q () { x with ends := e }) :
    fwp p (filecloseEnd last) x Q := by
  have hkeep : x.ends = e → Q () x := by
    intro h
    have : x = { x with ends := e } := Own.ext rfl rfl rfl h rfl rfl rfl rfl rfl
    rw [this]
    exact hQ
  cases last with
  | none => exact hkeep (he.trans (zero_add e))
  | some ff =>
    rw [Own.endOf] at he
    unfold filecloseEnd
    by_cases ht : ff.type = .pipe
    · rw [if_pos ht, Multiset.singleton_add] at he
      dsimp only
      rw [if_pos ht]
      refine pipeclose_spec hu (by rw [he]; exact Multiset.mem_cons_self _ _) hd ?_
      rw [he, Multiset.erase_cons_head]
      exact hQ
    · rw [if_neg ht] at he
      dsimp only
      rw [if_neg ht]
      exact hkeep (he.trans (zero_add e))

/-- `fileclose` gives up one reference. -/
theorem fileclose_spec (h : x.Has (f ::ₘ hold) fresh) (hQ : ∀ y : Own P, y.Has hold (fresh.erase f) → Q () y) :
    fwp p (fileclose f) x Q := by
  refine fwp_step h.up ⟨?_, h.inside⟩ fun last _ => ?_
  · rw [h.hold]
    exact Multiset.mem_cons_self f hold
  · refine filecloseEnd_spec h.up ?_ h.dead (hQ _ ⟨h.up, ?_, ?_, rfl, h.dead, h.inside, h.child⟩)
    · show Own.endOf last + x.ends = _
      rw [h.ends]
    · show x.hold.erase f = hold
      rw [h.hold, Multiset.erase_cons_head]
    · show x.fresh.erase f = _
      rw [h.fresh]

theorem filealloc_spec {Q : α → Own P → Prop} {k : Option (Fin NFILE) → FProg P α}
    (h : x.Has hold fresh) (hnone : fwp p (k none) x Q)
    (hsome : ∀ f, f ∉ fresh → ∀ y : Own P, y.Has (f ::ₘ hold) (insert f fresh) → fwp p (k (some f)) y Q) :
    fwp p (step .filealloc >>= k) x Q := by
  refine fwp_step h.up trivial fun found hl => ?_
  cases found with
  | none => exact hnone
  | some f =>
    refine hsome f ?_ _ ⟨h.up, ?_, ?_, h.ends, h.dead, h.inside, h.child⟩
    · rw [← h.fresh]
      exact hl
    · show f ::ₘ x.hold = _
      rw [h.hold]
    · show insert f x.fresh = _
      rw [h.fresh]

theorem fdalloc_spec {Q : α → Own P → Prop} {k : Option (Fin NOFILE) → FProg P α}
    (h : x.Has (f ::ₘ hold) fresh) (hnone : fwp p (k none) x Q)
    (hsome : ∀ fd, x.known fd = none → ∀ y : Own P, y.Has hold fresh → y.known = Function.update x.known fd (some f) →
      fwp p (k (some fd)) y Q) : fwp p (step (.fdalloc f) >>= k) x Q := by
  refine fwp_step h.up ?_ fun found hl => ?_
  · show f ∈ x.hold
    rw [h.hold]
    exact Multiset.mem_cons_self f hold
  · cases found with
    | none => exact hnone
    | some fd =>
      refine hsome fd hl _ ⟨h.up, ?_, h.fresh, h.ends, h.dead, h.inside, h.child⟩ rfl
      show x.hold.erase f = hold
      rw [h.hold, Multiset.erase_cons_head]

theorem clearFd_spec {Q : α → Own P → Prop} {k : Unit → FProg P α} (h : x.Has hold fresh) (hfd : x.known fd = some f)
    (hQ : ∀ y : Own P, y.Has (f ::ₘ hold) fresh → y.known = Function.update x.known fd none → fwp p (k ()) y Q) :
    fwp p (step (.clearFd fd) >>= k) x Q := by
  refine fwp_step h.up ⟨by rw [hfd]; rfl, h.inside⟩ fun _ _ => ?_
  refine hQ _ ⟨h.up, ?_, h.fresh, h.ends, h.dead, h.inside, h.child⟩ rfl
  show x.hold + (x.known fd).elim 0 (fun f => {f}) = f ::ₘ hold
  rw [h.hold, hfd, Option.elim_some, add_comm, Multiset.singleton_add]

/-! ## Opening -/

omit [Fintype P] [DecidableEq P] in
theorem erase_both (f0 f1 : Fin NFILE) : ((insert f1 (insert f0 (∅ : Finset (Fin NFILE)))).erase f0).erase f1 = ∅ := by
  ext f
  simp only [Finset.mem_erase, Finset.mem_insert, Finset.notMem_empty, or_false, iff_false]
  rintro ⟨h1, h0, h | h⟩
  · exact h1 h
  · exact h0 h

theorem pipealloc_spec {Q : Option (Fin NFILE × Fin NFILE) → Own P → Prop} (h : x.Has 0 ∅)
    (hnone : ∀ y : Own P, y.Has 0 ∅ → Q none y)
    (hsome : ∀ f0 f1, ∀ y : Own P, y.Has {f0, f1} ∅ → Q (some (f0, f1)) y) : fwp p pipealloc x Q := by
  unfold pipealloc
  refine filealloc_spec h (hnone x h) fun f0 _ y h1 => ?_
  refine filealloc_spec h1 (fwp_bind (fileclose_spec h1 fun z h2 => hnone z ?_)) fun f1 hne y' h2 => ?_
  · rwa [Finset.erase_insert (Finset.notMem_empty f0)] at h2
  · have hf : f1 ≠ f0 := fun he => hne (by rw [he]; exact Finset.mem_insert_self f0 ∅)
    refine fwp_step h2.up trivial fun page _ => ?_
    cases page with
    | none =>
      rw [Multiset.cons_swap] at h2
      refine fwp_bind (fileclose_spec h2 fun z h3 => fwp_bind (fileclose_spec h3 fun z' h4 => hnone z' ?_))
      rwa [erase_both] at h4
    | some n =>
      refine fwp_step h2.up ⟨?_, nofun, fun _ => ⟨rfl, rfl, ?_⟩⟩ fun _ _ => ?_
      · show f0 ∈ y'.fresh
        rw [h2.fresh]
        exact Finset.mem_insert_of_mem (Finset.mem_insert_self f0 ∅)
      · exact Multiset.mem_cons_self _ _
      · refine fwp_step h2.up ⟨?_, nofun, fun _ => ⟨rfl, rfl, ?_⟩⟩ fun _ _ => ?_
        · show f1 ∈ y'.fresh.erase f0
          rw [h2.fresh]
          exact Finset.mem_erase.mpr ⟨hf, Finset.mem_insert_self f1 _⟩
        · show (n, true) ∈ ((n, false) ::ₘ (n, true) ::ₘ y'.ends).erase (n, false)
          rw [Multiset.erase_cons_head]
          exact Multiset.mem_cons_self _ _
        · refine hsome f0 f1 _ ⟨h2.up, ?_, ?_, ?_, h2.dead, h2.inside, h2.child⟩
          · show y'.hold = {f0, f1}
            rw [h2.hold, Multiset.cons_swap]
            rfl
          · show (y'.fresh.erase f0).erase f1 = ∅
            rw [h2.fresh, erase_both]
          · show (((n, false) ::ₘ (n, true) ::ₘ y'.ends).erase (n, false)).erase (n, true) = 0
            rw [Multiset.erase_cons_head, Multiset.erase_cons_head, h2.ends]

/-- Both files of `sys_pipe` are closed. -/
theorem fileclose_both {Q : α → Own P → Prop} {k : FProg P α} {rf wf : Fin NFILE} (h : x.Has {rf, wf} ∅)
    (hQ : ∀ y : Own P, y.Has 0 ∅ → fwp p k y Q) :
    fwp p (fileclose rf >>= fun _ => fileclose wf >>= fun _ => k) x Q := by
  refine fwp_bind (fileclose_spec h fun y h1 => fwp_bind (fileclose_spec h1 fun z h2 => hQ z ?_))
  rwa [Finset.erase_empty, Finset.erase_empty] at h2

theorem sysPipe_spec (h : x.Has 0 ∅) : fwp p sysPipe x fun _ y => y.Idle := by
  refine fwp_bind (pipealloc_spec h (fun y hy => hy.idle) fun rf wf y h1 => ?_)
  refine fdalloc_spec h1 (fileclose_both h1 fun z hz => hz.idle) fun fd0 _ y1 h2 hk => ?_
  have h0 : y1.known fd0 = some rf := by rw [hk, Function.update_self]
  refine fdalloc_spec h2 (clearFd_spec h2 h0 fun z h3 _ => fileclose_both h3 fun z' hz => hz.idle)
    fun fd1 hnew y2 h3 hk2 => ?_
  have hne : fd0 ≠ fd1 := by
    rintro rfl
    rw [h0] at hnew
    cases hnew
  -- a failed `copyout` of either descriptor ends in the same way
  have hundo : fwp p (do
      step (.clearFd fd0)
      step (.clearFd fd1)
      fileclose rf
      fileclose wf
      return false) y2 fun _ y => y.Idle := by
    refine clearFd_spec h3 (f := rf) ?_ fun z h4 hk3 => clearFd_spec h4 (f := wf) ?_ fun z' h5 _ => ?_
    · rw [hk2, Function.update_of_ne hne, h0]
    · rw [hk3, Function.update_of_ne hne.symm, hk2, Function.update_self]
    · rw [Multiset.cons_swap] at h5
      exact fileclose_both h5 fun z hz => hz.idle
  refine fwp_step h3.up trivial fun ok _ => ?_
  cases ok with
  | false => exact ⟨h3.up, trivial, fun _ _ => hundo⟩
  | true =>
    refine fwp_step h3.up trivial fun ok _ => ?_
    cases ok with
    | false => exact hundo
    | true => exact h3.idle

theorem sysOpen_spec {device r w : Bool} (h : x.Has 0 ∅) : fwp p (sysOpen device r w) x fun _ y => y.Idle := by
  refine filealloc_spec h h.idle fun f _ y h1 => ?_
  refine fdalloc_spec h1 (fwp_bind (fileclose_spec h1 fun z h2 => ?_)) fun fd _ y1 h2 _ => ?_
  · rw [Finset.erase_insert (Finset.notMem_empty f)] at h2
    exact h2.idle
  · have htype : (if device then FileType.device else .inode) ≠ .none ∧
        (if device then FileType.device else .inode) ≠ .pipe := by
      cases device <;> exact ⟨nofun, nofun⟩
    refine fwp_step h2.up ⟨?_, htype.1, fun ht => absurd ht htype.2⟩ fun _ _ => ?_
    · show f ∈ y1.fresh
      rw [h2.fresh]
      exact Finset.mem_insert_self f ∅
    · refine ⟨⟨h2.hold, ?_, ?_, h2.dead, h2.child⟩, h2.inside⟩
      · show y1.fresh.erase f = ∅
        rw [h2.fresh, Finset.erase_insert (Finset.notMem_empty f)]
      · show (if _ then _ else y1.ends) = 0
        rw [if_neg htype.2, h2.ends]

/-! ## Closing, reading and writing -/

theorem sysClose_spec (h : x.Has 0 ∅)
    (hQ : ∀ y : Own P, y.Has 0 ∅ → y.closed = insert fd x.closed → Q () y) : fwp p (sysClose fd) x Q := by
  refine fwp_step h.up ⟨h.fresh, h.inside⟩ fun last _ => ?_
  refine filecloseEnd_spec h.up ?_ h.dead (hQ _ ⟨h.up, h.hold, h.fresh, rfl, h.dead, h.inside, h.child⟩ rfl)
  show Own.endOf last + x.ends = _
  rw [h.ends]

theorem piperead_spec (hu : x.up = true) (h : x.Clear) (hin : x.inside = some (n, false)) :
    fwp p (piperead n count turns) x fun _ y => y.Idle := by
  induction turns with
  | zero => exact ⟨hu, h, fun _ hl => hl.elim⟩
  | succ turns ih =>
    refine fwp_step hu ⟨h, hin⟩ fun ret _ => ?_
    cases ret with
    | none => exact ih
    | some v => exact ⟨⟨h.hold, h.fresh, h.ends, h.dead, h.child⟩, rfl⟩

theorem pipewrite_spec {i : Nat} (hu : x.up = true) (h : x.Clear) (hin : x.inside = some (n, true)) :
    fwp p (pipewrite n count turns i) x fun _ y => y.Idle := by
  induction turns generalizing i with
  | zero => exact ⟨hu, h, fun _ hl => hl.elim⟩
  | succ turns ih =>
    refine fwp_step hu ⟨h, hin⟩ fun ret _ => ?_
    cases ret with
    | inl v => exact ⟨⟨h.hold, h.fresh, h.ends, h.dead, h.child⟩, rfl⟩
    | inr i => exact ih

theorem sysRead_spec (h : x.Has 0 ∅) : fwp p (sysRead fd count turns) x fun _ y => y.Idle := by
  refine fwp_step h.up h.idle fun found _ => ?_
  cases found with
  | none => exact h.idle
  | some pi => exact piperead_spec h.up ⟨h.hold, h.fresh, h.ends, h.dead, h.child⟩ rfl

theorem sysWrite_spec (h : x.Has 0 ∅) : fwp p (sysWrite fd count turns) x fun _ y => y.Idle := by
  refine fwp_step h.up h.idle fun found _ => ?_
  cases found with
  | none => exact h.idle
  | some pi => exact pipewrite_spec h.up ⟨h.hold, h.fresh, h.ends, h.dead, h.child⟩ rfl

/-! ## Processes -/

/-- The child gets the descriptors one by one. -/
theorem dupFiles_spec {l : List (Fin NOFILE)} (hu : x.up = true) (hfresh : x.fresh = ∅)
    (hl : l.Nodup) (hc : x.child = some (np, l)) (hQ : Q () { x with child := some (np, []) }) :
    fwp p (dupFiles np l) x Q := by
  induction l generalizing x with
  | nil =>
    rw [← hc] at hQ
    exact hQ
  | cons i rest ih =>
    obtain ⟨hi, hrest⟩ := List.nodup_cons.mp hl
    refine fwp_step hu ⟨hfresh, rest, hc, hi⟩ fun _ _ => ?_
    refine ih hu hfresh hrest ?_ hQ
    show x.child.map _ = _
    rw [hc]
    rfl

theorem kfork_spec (h : x.Has 0 ∅) : fwp p (kfork np) x fun _ y => y.Idle := by
  refine fwp_step h.up h.child fun found _ => ?_
  cases found with
  | false => exact h.idle
  | true =>
    refine fwp_step h.up rfl fun copied _ => ?_
    cases copied with
    | false => exact ⟨⟨h.hold, h.fresh, h.ends, h.dead, rfl⟩, h.inside⟩
    | true =>
      refine fwp_bind (dupFiles_spec h.up h.fresh (List.nodup_finRange NOFILE) rfl ?_)
      exact fwp_step h.up rfl fun _ _ => ⟨⟨h.hold, h.fresh, h.ends, h.dead, rfl⟩, h.inside⟩

/-- What is closed remains closed. -/
theorem closeFiles_spec {l : List (Fin NOFILE)} (h : x.Has 0 ∅)
    (hQ : ∀ y : Own P, y.Has 0 ∅ → (∀ fd, fd ∈ x.closed ∨ fd ∈ l → fd ∈ y.closed) → Q () y) :
    fwp p (closeFiles l) x Q := by
  induction l generalizing x with
  | nil => exact hQ x h fun fd hfd => hfd.resolve_right List.not_mem_nil
  | cons fd rest ih =>
    refine fwp_bind (sysClose_spec h fun y hy hc => ih hy fun z hz hcz => hQ z hz fun fd' hfd' => hcz fd' ?_)
    rw [hc, Finset.mem_insert]
    rcases hfd' with h1 | h1
    · exact Or.inl (Or.inr h1)
    · rcases List.mem_cons.mp h1 with h2 | h2
      · exact Or.inl (Or.inl h2)
      · exact Or.inr h2

theorem kexit_spec {init : Bool} (h : x.Has 0 ∅) : fwp p (kexit init) x fun _ y => y.Idle := by
  cases init with
  | true => exact ⟨h.up, rfl, fun _ hl => hl.elim⟩
  | false =>
    refine fwp_bind (closeFiles_spec h fun y hy hc => ?_)
    refine ⟨hy.up, ⟨hy.idle, fun fd => hc fd (Or.inr (List.mem_finRange fd))⟩, fun _ _ => ?_⟩
    exact ⟨⟨rfl, rfl, rfl, rfl, rfl⟩, rfl⟩

/-- **Every call drops what it takes**, on every path. -/
theorem Call.spec (c : Call P) {init : Bool} (h : x.Has 0 ∅) : fwp p (c.prog init) x fun _ y => y.Idle := by
  have hend : ∀ {β : Type} {f : FProg P β}, fwp p f x (fun _ y => y.Idle) → fwp p (do let _ ← f) x fun _ y => y.Idle :=
    fun hf => fwp_bind (fwp_mono (fun _ _ hy => hy) hf)
  cases c with
  | «open» device r w => exact hend (sysOpen_spec h)
  | dup fd =>
    exact ⟨h.up, h.fresh, fun _ _ => ⟨⟨h.hold, h.fresh, h.ends, h.dead, h.child⟩, h.inside⟩⟩
  | close fd => exact sysClose_spec h fun y hy _ => hy.idle
  | pipe => exact hend (sysPipe_spec h)
  | read fd count turns => exact sysRead_spec h
  | write fd count turns => exact sysWrite_spec h
  | kill q => exact ⟨h.up, h.idle, fun _ _ => h.idle⟩
  | fork np => exact hend (kfork_spec h)
  | exit => exact kexit_spec h

/-! ## Runs -/

/-- At the beginning nobody has anything. -/
theorem Inv.init (initproc : P) : Inv (State.init initproc) fun _ => Own.empty where
  counted := by
    have hw : ∀ q f, weight (State.init initproc) (Own.empty : Own P) q f = 0 := fun q f =>
      (Nat.add_eq_zero_iff).mpr ⟨rfl, Lib.places_eq_zero fun _ => nofun⟩
    refine ⟨fun f => ?_, fun _ _ => rfl, fun q f hf => absurd hf (Finset.notMem_empty f), fun f hr => ?_⟩
    · exact (Finset.sum_eq_zero fun q _ => hw q f).symm
    · exact absurd hr (lt_irrefl 0)
  ended := by
    refine ⟨fun n w => ?_, nofun, nofun, nofun⟩
    have h1 : endFiles (State.init initproc) n w = 0 := Lib.places_eq_zero fun f => by
      show File.isEnd ⟨0, .none, false, false, 0⟩ n w ≠ true
      rw [Ended.isEnd_of_none rfl]
      exact Bool.false_ne_true
    have h2 : ∑ _q : P, (Own.empty : Own P).ends.count (n, w) = 0 := Finset.sum_eq_zero fun _ _ => Multiset.count_zero (n, w)
    rw [h1, h2]
    rfl
  placed := ⟨fun _ => rfl, nofun, nofun⟩
  family := by
    refine ⟨fun _ _ => rfl, fun _ _ _ => rfl, nofun, nofun, nofun, fun q fd hfd => ?_⟩
    exact absurd hfd (Finset.notMem_empty fd)
  quiet := nofun

/-- Every call meets its precondition. -/
theorem logic_starts (initproc : P) : (logic P).Starts (Calls initproc) := by
  rintro s g p f h hidle ⟨hrun, c, rfl⟩
  have hidle : (g p).Idle := hidle
  refine ⟨{ g p with known := fun _ => none, closed := ∅, up := true }, ?_, ?_⟩
  · show Inv _ _
    exact Inv.keep h rfl ⟨rfl, rfl, rfl, rfl, rfl⟩ (h.family.begin hrun)
  · exact c.spec ⟨rfl, hidle.hold, hidle.fresh, hidle.ends, hidle.dead, hidle.inside, hidle.child⟩

/-- The invariant of all runs. -/
theorem Reachable.good {x : Machine.Conf P (Cmd P) Cmd.R (State P)} (h : Reachable initproc x) : (logic P).Good x :=
  (logic P).invariant (logic_starts initproc) (Inv.init initproc) (fun _ => ⟨⟨rfl, rfl, rfl, rfl, rfl⟩, rfl⟩) h

/-- `fileclose`, `filedup`, `fileread` and `filewrite` never panic. -/
theorem Reachable.panic {x : Machine.Conf P (Cmd P) Cmd.R (State P)} (h : Reachable initproc x) {e : Panic}
    (he : x.state.panicked = some e) : e = .initExiting := by
  obtain ⟨g, hi, -⟩ := h.good
  exact Inv.quiet hi e he

/-- Calls that are made one after the other, each with the choices of its steps, and that all return: the state. -/
def runCalls (initproc : P) : List (P × Call P × List Nat) → State P → Option (State P)
  | [], s => some s
  | (p, c, chs) :: rest, s =>
    if s.proc p = .runnable ∧ s.panicked = none then
      match (machine P).run (fun _ _ _ => true) p (c.prog (decide (p = initproc))) chs s with
      | some (.ret _, s') => runCalls initproc rest s'
      | _ => none
    else none

omit [Fintype P] in
/-- A process begins a call. -/
theorem Reachable.call {prog : P → FProg P Unit} (h : Reachable initproc ⟨s, prog⟩) (hp : prog p = .ret ())
    (hr : s.proc p = .runnable ∧ s.panicked = none) (c : Call P) :
    Reachable initproc ⟨s, Function.update prog p (c.prog (decide (p = initproc)))⟩ := by
  refine h.tail (.start p _ hp ?_ ⟨hr.1, c, rfl⟩)
  rw [show (machine P).halted s = s.panicked.isSome from rfl, hr.2]
  rfl

omit [Fintype P] in
theorem runCalls_reachable {l : List (P × Call P × List Nat)} (h : Reachable initproc ⟨s, fun _ => .ret ()⟩)
    (hl : runCalls initproc l s = some s') : Reachable initproc ⟨s', fun _ => .ret ()⟩ := by
  induction l generalizing s with
  | nil =>
    cases hl
    exact h
  | cons y rest ih =>
    obtain ⟨p, c, chs⟩ := y
    rw [runCalls] at hl
    split at hl
    · next hr =>
      split at hl
      · next a s₁ hrun =>
        refine ih ?_ hl
        have hx := (h.call rfl hr c).run (fun _ _ _ _ => trivial) _ chs hrun
        rwa [Function.update_eq_self] at hx
      · cases hl
    · cases hl

/-- The process is in none of the calls that change descriptors: it is in no call, or it reads, writes or kills. -/
def Quiet : FProg P Unit → Prop
  | .ret _ => True
  | .cmd (.access _ _) _ => True
  | .cmd (.piperead _ _) _ => True
  | .cmd (.pipewrite _ _ _) _ => True
  | .cmd (.kill _) _ => True
  | .cmd .wait _ => True
  | .cmd _ _ => False

/-- Such a process has nothing but its descriptors. -/
theorem Quiet.clear {f : FProg P Unit} (h : Quiet f) (hw : fwp p f x fun _ y => y.Idle) : x.Clear := by
  cases f with
  | ret a => exact hw.toClear
  | cmd c k =>
    obtain ⟨-, hpre, -⟩ := hw
    cases c with
    | access fd write => exact hpre.toClear
    | piperead n count => exact hpre.1
    | pipewrite n count i => exact hpre.1
    | kill q => exact hpre.toClear
    | wait => exact hpre
    | _ => exact h.elim

/-- An end of a pipe for which nobody but a file can stand is open while a file does. -/
theorem Ended.isOpen_iff {g : P → Own P} (h : Ended s g) (he : ∀ q, (g q).ends = 0) (n : Nat) (w : Bool) :
    isOpen w (s.pipe n) = true ↔ ∃ f, (s.file f).isEnd n w = true := by
  have h1 := h.ends n w
  rw [Finset.sum_eq_zero fun q _ => by rw [he q, Multiset.count_zero], add_zero] at h1
  constructor
  · intro ho
    rw [if_pos ho] at h1
    have hpos : 0 < endFiles s n w := by omega
    exact Lib.exists_of_places_pos hpos
  · rintro ⟨f, hf⟩
    by_contra ho
    have hpos : 0 < endFiles s n w := Lib.places_pos f hf
    rw [if_neg ho] at h1
    omega

/-- The file is the end of the pipe to read from, or to write to. -/
def File.isReadEnd (x : File) (n : Nat) : Prop := 0 < x.ref ∧ x.type = .pipe ∧ x.pipe = n ∧ x.readable = true

def File.isWriteEnd (x : File) (n : Nat) : Prop := 0 < x.ref ∧ x.type = .pipe ∧ x.pipe = n ∧ x.writable = true

omit [DecidableEq P] in
/-- The pairs of a process and a descriptor, counted process by process. -/
theorem card_pairs (of : P → Fin NOFILE → Option (Fin NFILE)) (f : Fin NFILE) :
    (Finset.univ.filter fun y : P × Fin NOFILE => of y.1 y.2 = some f).card = ∑ q, Lib.places (of q) (some f) := by
  rw [Finset.card_filter, Fintype.sum_prod_type]
  rfl

/-- **References to open files are exact.** In every state of every run in which no process is in a call that changes
descriptors, `ref` of a file is the number of descriptors for it, a file without references has no type, and an end of
a pipe is open while a file in use is that end. -/
theorem file_references_exact {x : Machine.Conf P (Cmd P) Cmd.R (State P)} (h : Reachable initproc x)
    (hrun : x.state.panicked = none) (hquiet : ∀ p, Quiet (x.prog p)) :
    (∀ f, (x.state.file f).ref = (Finset.univ.filter fun y : P × Fin NOFILE => x.state.ofile y.1 y.2 = some f).card) ∧
    (∀ f, (x.state.file f).ref = 0 → (x.state.file f).type = .none) ∧
    ∀ n pi, x.state.pipe n = some pi → (pi.readopen = true ↔ ∃ f, (x.state.file f).isReadEnd n) ∧
      (pi.writeopen = true ↔ ∃ f, (x.state.file f).isWriteEnd n) := by
  obtain ⟨g, hi, hw⟩ := h.good
  have hi : Inv x.state g := hi
  have hhalt : (machine P).halted x.state = false := by
    rw [show (machine P).halted x.state = x.state.panicked.isSome from rfl, hrun]
    rfl
  have hclear : ∀ p, (g p).Clear := fun p => (hquiet p).clear (hw hhalt p)
  have hpos : ∀ f, (x.state.file f).type = .pipe → 0 < (x.state.file f).ref := by
    intro f hf
    by_contra h0
    have := hi.counted.free f (by omega)
    rw [hf] at this
    cases this
  refine ⟨fun f => ?_, hi.counted.free, fun n pi hpi => ⟨?_, ?_⟩⟩
  · rw [hi.counted.ref, card_pairs]
    refine Finset.sum_congr rfl fun q _ => ?_
    rw [weight, (hclear q).hold, Multiset.count_zero, zero_add]
  · have hiff := hi.ended.isOpen_iff (fun q => (hclear q).ends) n false
    rw [hpi] at hiff
    refine hiff.trans ⟨?_, ?_⟩
    · rintro ⟨f, hf⟩
      simp only [File.isEnd, Bool.and_eq_true, decide_eq_true_eq] at hf
      obtain ⟨⟨ht, hn⟩, hw⟩ := hf
      exact ⟨f, hpos f ht, ht, hn, by rw [hi.ended.readable f ht, hw]; rfl⟩
    · rintro ⟨f, -, ht, hn, hr⟩
      rw [hi.ended.readable f ht, Bool.not_eq_true'] at hr
      exact ⟨f, by simp only [File.isEnd, ht, hn, hr, decide_true, Bool.and_self]⟩
  · have hiff := hi.ended.isOpen_iff (fun q => (hclear q).ends) n true
    rw [hpi] at hiff
    refine hiff.trans ⟨?_, ?_⟩
    · rintro ⟨f, hf⟩
      simp only [File.isEnd, Bool.and_eq_true, decide_eq_true_eq] at hf
      obtain ⟨⟨ht, hn⟩, hw⟩ := hf
      exact ⟨f, hpos f ht, ht, hn, hw⟩
    · rintro ⟨f, -, ht, hn, hr⟩
      exact ⟨f, by simp only [File.isEnd, ht, hn, hr, decide_true, Bool.and_self]⟩

/-- After a pipe was made, both its ends are open and have one descriptor each. -/
theorem file_references_exact_pipe : ∃ x : Machine.Conf Unit (Cmd Unit) Cmd.R (State Unit), Reachable () x ∧
    (x.state.file 0).ref = 1 ∧ (∀ f, (x.state.file f).ref =
      (Finset.univ.filter fun y : Unit × Fin NOFILE => x.state.ofile y.1 y.2 = some f).card) ∧
    ∃ f, (x.state.file f).isWriteEnd 0 := by
  have hany : (runCalls () [((), .pipe, [0, 0, 1])] (State.init ())).any (fun s => s.panicked.isNone &&
      (s.file 0).ref == 1 && (s.pipe 0).any (·.writeopen)) = true := by decide +kernel
  obtain ⟨s, hs, hq⟩ := (Option.any_eq_true _ _).mp hany
  simp only [Bool.and_eq_true, Option.isNone_iff_eq_none, beq_iff_eq] at hq
  obtain ⟨⟨hpan, href⟩, hpi⟩ := hq
  obtain ⟨pi, hpi, hw⟩ := (Option.any_eq_true _ _).mp hpi
  have hr : Reachable () ⟨s, fun _ => .ret ()⟩ := runCalls_reachable .refl hs
  obtain ⟨h1, -, h3⟩ := file_references_exact hr hpan fun _ => trivial
  exact ⟨_, hr, href, h1, (h3 0 pi hpi).2.mp hw⟩

/-- **A pipe is freed once, when nobody can use it.** When a process is about to free a page in `pipeclose`, the page is a
pipe that has not been freed; no file in use stands for it; no process is inside `piperead` or `pipewrite` on it, and none
is asleep on its channels; no other process has yet to close an end of it, and no other one is about to free it. -/
theorem pipe_freed_unused {x : Machine.Conf P (Cmd P) Cmd.R (State P)} (h : Reachable initproc x)
    (hrun : x.state.panicked = none) {k : Unit → FProg P Unit} (hp : x.prog p = .cmd (.kfree n) k) :
    (x.state.pipe n).isSome ∧
    (∀ f, 0 < (x.state.file f).ref → (x.state.file f).type = .pipe → (x.state.file f).pipe ≠ n) ∧
    (∀ q w, x.state.inside q ≠ some (n, w)) ∧
    (∀ w, x.state.queue n w = []) ∧
    (∀ q w k', x.prog q ≠ .cmd (.pipeclose n w) k') ∧
    ∀ q k', x.prog q = .cmd (.kfree n) k' → q = p := by
  obtain ⟨g, hi, hw⟩ := h.good
  have hi : Inv x.state g := hi
  have hhalt : (machine P).halted x.state = false := by
    rw [show (machine P).halted x.state = x.state.panicked.isSome from rfl, hrun]
    rfl
  have hpre : ∀ q c k, x.prog q = .cmd c k → (g q).pre c := by
    intro q c k hq
    have hwq : fwp q (x.prog q) (g q) _ := hw hhalt q
    rw [hq] at hwq
    exact hwq.2.1
  have hdead : (g p).dead = some n := hpre p _ _ hp
  obtain ⟨hlive, hclosed⟩ := hi.ended.dead p n hdead
  have hfile : ∀ f, (x.state.file f).type = .pipe → (x.state.file f).pipe ≠ n := by
    rintro f ht rfl
    have := hi.ended.isOpen_of_file ht
    rw [hclosed] at this
    cases this
  have hin : ∀ q w, (g q).inside ≠ some (n, w) := by
    intro q w hq
    obtain ⟨fd, f, -, ht, hn⟩ := hi.placed.file q n w hq
    exact hfile f ht hn
  refine ⟨hlive, fun f _ => hfile f, fun q w => ?_, fun w => ?_, fun q w k' hq => ?_, fun q k' hq => ?_⟩
  · rw [hi.placed.inside q]
    exact hin q w
  · refine List.eq_nil_iff_forall_not_mem.mpr fun q hq => ?_
    exact hin q w (hi.placed.queue n w q hq)
  · have hm : (n, w) ∈ (g q).ends := (hpre q _ _ hq).1
    have := hi.ended.isOpen_of_mem hm
    rw [hclosed] at this
    cases this
  · exact hi.ended.deadOne q p n (hpre q _ _ hq) hdead

/-- The process is about to free page `n`. -/
def FProg.frees (n : Nat) {α : Type} : FProg P α → Bool
  | .cmd (.kfree m) _ => m == n
  | _ => false

/-- The process that made a pipe closes both ends, and is about to free the page. -/
theorem pipe_freed_unused_close : ∃ (x : Machine.Conf Unit (Cmd Unit) Cmd.R (State Unit)) (k : Unit → FProg Unit Unit),
    Reachable () x ∧ x.prog () = .cmd (.kfree 0) k ∧ (x.state.pipe 0).isSome ∧ ∀ w, x.state.queue 0 w = [] := by
  have hany : (runCalls () [((), .pipe, [0, 0, 1]), ((), .close 0, [])] (State.init ())).any (fun s =>
      decide (s.proc () = .runnable ∧ s.panicked = none) &&
      ((machine Unit).runFor () 2 ((Call.close 1).prog true) [] s).any fun y =>
        y.2.panicked.isNone && FProg.frees 0 y.1) = true := by decide +kernel
  obtain ⟨s, hs, hq⟩ := (Option.any_eq_true _ _).mp hany
  obtain ⟨hrun, hq⟩ := Bool.and_eq_true_iff.mp hq
  obtain ⟨⟨f, s'⟩, hs', hq⟩ := (Option.any_eq_true _ _).mp hq
  obtain ⟨hpan, hf⟩ := Bool.and_eq_true_iff.mp hq
  have h0 : Reachable () ⟨s, fun _ => .ret ()⟩ := runCalls_reachable .refl hs
  have hr := (h0.call rfl (of_decide_eq_true hrun) (.close 1)).runFor (fun _ _ _ => trivial) hs'
  unfold FProg.frees at hf
  split at hf
  · next n k he =>
    obtain rfl : f = .cmd (.kfree n) k := he
    obtain rfl : n = 0 := eq_of_beq hf
    have hp := pipe_freed_unused (p := ()) hr (Option.isNone_iff_eq_none.mp hpan) rfl
    exact ⟨_, k, hr, rfl, hp.1, hp.2.2.2.1⟩
  · cases hf

end Xv6.Ftable
