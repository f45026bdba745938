import Xv6.Ftable.Inv

/-!
# The steps on files and pipes

Every step keeps `Inv`, if the process that makes it has what the step needs (`Inv.sound`).
-/

namespace Xv6.Ftable

open Lib (places places_update places_pos)
open Fs (NFILE NOFILE)
open Function (update update_eq_self update_idem update_of_ne update_self)

variable {P : Type} [DecidableEq P] [Fintype P] {s s' : State P} {g : P → Own P} {p q np : P} {f : Fin NFILE}
  {fd : Fin NOFILE} {n : Nat} {w : Bool} {x : Own P}

namespace State

omit [Fintype P]

/-- Only the count of a file changes. -/
theorem setFile_ref (k : Nat) (f' : Fin NFILE) :
    ((s.setFile f { s.file f with ref := k }).file f').type = (s.file f').type ∧
      ((s.setFile f { s.file f with ref := k }).file f').readable = (s.file f').readable ∧
      ((s.setFile f { s.file f with ref := k }).file f').writable = (s.file f').writable ∧
      ((s.setFile f { s.file f with ref := k }).file f').pipe = (s.file f').pipe := by
  by_cases he : f' = f
  · rw [he, setFile_self]
    exact ⟨rfl, rfl, rfl, rfl⟩
  · rw [setFile_of_ne he]
    exact ⟨rfl, rfl, rfl, rfl⟩

theorem setOfile_self (z : Option (Fin NFILE)) : (s.setOfile p fd z).ofile p = update (s.ofile p) fd z := update_self ..

theorem setOfile_of_ne (h : q ≠ p) (z : Option (Fin NFILE)) : (s.setOfile p fd z).ofile q = s.ofile q :=
  update_of_ne h ..

/-- A descriptor that is in use is not the one that was free. -/
theorem setOfile_of_free {z : Option (Fin NFILE)} {fd' : Fin NOFILE} (hfd : s.ofile p fd = none)
    (h : s.ofile q fd' = some f) : (s.setOfile p fd z).ofile q fd' = some f := by
  by_cases hq : q = p
  · subst hq
    have he : fd' ≠ fd := by
      rintro rfl
      rw [hfd] at h
      cases h
    rw [setOfile_self, update_of_ne he]
    exact h
  · rw [setOfile_of_ne hq]
    exact h

theorem freeFd_spec (h : s.freeFd p = some fd) : s.ofile p fd = none := by
  have := List.find?_some h
  simpa using this

end State

omit [Fintype P] in
theorem weight_setOfile (s : State P) (x : Own P) (p : P) (fd : Fin NOFILE) (z : Option (Fin NFILE)) (f : Fin NFILE) :
    weight (s.setOfile p fd z) x p f + (if s.ofile p fd = some f then 1 else 0) =
      weight s x p f + if z = some f then 1 else 0 := by
  have h := places_update (s.ofile p) fd z (some f)
  rw [weight, weight, State.setOfile_self]
  omega

omit [Fintype P] in
theorem weight_pos_of_ofile (h : s.ofile p fd = some f) : 0 < weight s x p f := Nat.add_pos_right _ (places_pos fd h)

/-- Neither files nor pipes change. -/
theorem Ended.keep (h : Ended s g) (hfile : s'.file = s.file) (hpipe : s'.pipe = s.pipe) (hends : x.ends = (g p).ends)
    (hdead : x.dead = (g p).dead) : Ended s' (update g p x) := by
  refine h.same (fun f => ?_) (fun n => ?_) (update_same Own.ends hends) (update_same Own.dead hdead)
  · rw [hfile]
    exact ⟨rfl, rfl, rfl, rfl⟩
  · rw [hpipe]
    exact ⟨rfl, fun _ => rfl⟩

namespace Inv

/-- A step that changes neither files, descriptors nor pipes. -/
theorem keep (h : Inv s g) (hstate : s' = { s with proc := s'.proc })
    (hx : x.hold = (g p).hold ∧ x.fresh = (g p).fresh ∧ x.ends = (g p).ends ∧ x.dead = (g p).dead ∧
      x.inside = (g p).inside) (hfam : Family s' (update g p x)) : Inv s' (update g p x) := by
  obtain ⟨h1, h2, h3, h4, h5⟩ := hx
  rw [hstate] at hfam ⊢
  exact ⟨h.counted.keep rfl rfl h1 h2, h.ended.keep rfl rfl h3 h4,
    h.placed.keep rfl (fun _ _ => List.Subset.refl _) (update_same Own.inside h5) fun _ _ _ _ hfd ht => ⟨hfd, ht, rfl⟩,
    hfam, h.quiet⟩

/-! ## Files -/

section

variable (h : Inv s g) (hu : (g p).up = true)
include h hu

theorem filealloc (hf : (s.file f).ref = 0) :
    Inv (s.setFile f { s.file f with ref := 1 }) (update g p ((g p).after .filealloc (some f))) where
  counted := h.counted.filealloc hf
  ended := h.ended.same (State.setFile_ref 1) (fun _ => ⟨rfl, fun _ => rfl⟩) (update_same Own.ends rfl)
    (update_same Own.dead rfl)
  placed := h.placed.keep rfl (fun _ _ => List.Subset.refl _) (update_same Own.inside rfl) fun q fd f' _ hfd ht => by
    obtain ⟨h1, -, -, h2⟩ := State.setFile_ref (s := s) 1 f'
    exact ⟨hfd, h1.trans ht, h2⟩
  family := h.family.same hu rfl rfl rfl rfl rfl
  quiet := h.quiet

/-- A reference goes into a free descriptor. -/
theorem fdalloc (hf : f ∈ (g p).hold) (hfd : s.ofile p fd = none) :
    Inv (s.setOfile p fd (some f)) (update g p ((g p).after (.fdalloc f) (some fd))) where
  counted := by
    refine h.counted.same rfl (fun q f' => ?_) (update_same Own.fresh rfl)
    by_cases hq : q = p
    · subst hq
      have h1 := weight_setOfile s ((g q).after (.fdalloc f) (some fd)) q fd (some f) f'
      have h2 : weight s (g q) q f' = weight s ((g q).after (.fdalloc f) (some fd)) q f' + if f' = f then 1 else 0 := by
        show _ = ((g q).hold.erase f).count f' + _ + _
        rw [weight, ← Multiset.cons_erase hf, Multiset.count_cons, Multiset.erase_cons_head]
        omega
      simp only [hfd, reduceCtorEq, if_false, Option.some.injEq, eq_comm (a := f)] at h1
      rw [update_self]
      omega
    · rw [update_of_ne hq, weight, weight, State.setOfile_of_ne hq]
  ended := h.ended.keep rfl rfl rfl rfl
  placed := h.placed.keep rfl (fun _ _ => List.Subset.refl _) (update_same Own.inside rfl) fun q fd' f' _ hq ht =>
    ⟨State.setOfile_of_free hfd hq, ht, rfl⟩
  family := by
    refine h.family.step (h.family.runnable hu) rfl (fun q hq => State.setOfile_of_ne hq _) rfl (fun fd' f' hf' => ?_) fun fd' hf' => ?_
    · replace hf' : update (g p).known fd (some f) fd' = some f' := hf'
      rw [State.setOfile_self]
      by_cases he : fd' = fd
      · rw [he] at hf' ⊢
        rw [update_self] at hf' ⊢
        exact hf'
      · rw [update_of_ne he] at hf' ⊢
        exact h.family.known p fd' f' hf'
    · exact absurd hf' (Finset.notMem_empty fd')
  quiet := h.quiet

/-- The type of a new file is set. -/
theorem setFile {type : FileType} {r w : Bool} {pipe : Option Nat} (hpre : (g p).pre (.setFile f type r w pipe)) :
    Inv (s.setFile f ⟨(s.file f).ref, type, r, w, pipe.getD (s.file f).pipe⟩)
      (update g p ((g p).after (.setFile f type r w pipe) ())) := by
  obtain ⟨hf, htype, hpipe⟩ := hpre
  have hget : type = .pipe → pipe.getD (s.file f).pipe = pipe.getD 0 := by
    intro ht
    obtain ⟨n, hn⟩ := Option.isSome_iff_exists.mp (hpipe ht).2.1
    rw [hn]
    rfl
  have hnone := (h.counted.fresh p f hf).1
  constructor
  · exact h.counted.setFile hf rfl htype rfl rfl
  · refine h.ended.setFile hnone (fun ht => (hpipe ht).1) (fun ht => ?_) ?_ rfl
    · show (pipe.getD (s.file f).pipe, w) ∈ _
      rw [hget ht]
      exact (hpipe ht).2.2
    · show (if type = .pipe then _ else _) = if type = .pipe then _ else _
      split
      · next ht =>
        rw [hget ht]
      · rfl
  · refine h.placed.keep rfl (fun _ _ => List.Subset.refl _) (update_same Own.inside rfl) fun q fd f' _ hfd ht => ?_
    have he : f' ≠ f := by
      rintro rfl
      rw [hnone] at ht
      cases ht
    rw [State.setFile_of_ne he]
    exact ⟨hfd, ht, rfl⟩
  · exact h.family.same hu rfl rfl rfl rfl rfl
  · exact h.quiet

/-- A descriptor is cleared, and the process keeps the reference. -/
theorem clear (hfd : s.ofile p fd = some f) (hin : (g p).inside = none) {x : Own P} (hx : x = { g p with
      hold := (g p).hold + {f}, known := update (g p).known fd none, closed := x.closed })
    (hclosed : ∀ fd' ∈ x.closed, fd' = fd ∨ fd' ∈ (g p).closed) :
    Inv (s.setOfile p fd none) (update g p x) where
  counted := by
    refine h.counted.same rfl (fun q f' => ?_) (update_same Own.fresh (by rw [hx]))
    by_cases hq : q = p
    · subst hq
      have h1 := weight_setOfile s x q fd none f'
      have h3 : weight s x q f' = weight s (g q) q f' + if f' = f then 1 else 0 := by
        rw [weight, weight, hx]
        dsimp only
        rw [Multiset.count_add, Multiset.count_singleton]
        omega
      simp only [hfd, reduceCtorEq, if_false, Option.some.injEq, eq_comm (a := f)] at h1
      rw [update_self]
      omega
    · rw [update_of_ne hq, weight, weight, State.setOfile_of_ne hq]
  ended := h.ended.keep rfl rfl (by rw [hx]) (by rw [hx])
  placed := by
    refine h.placed.keep rfl (fun _ _ => List.Subset.refl _) (update_same Own.inside (by rw [hx]))
      fun q fd' f' hq hfd' ht => ?_
    have hne : q ≠ p := by
      rintro rfl
      exact hq hin
    rw [State.setOfile_of_ne hne]
    exact ⟨hfd', ht, rfl⟩
  family := by
    refine h.family.step (h.family.runnable hu) rfl (fun q hq => State.setOfile_of_ne hq _) (by rw [hx]) (fun fd' f' hf' => ?_)
      fun fd' hf' => ?_
    · have he : fd' ≠ fd := by
        rintro rfl
        rw [hx] at hf'
        dsimp only at hf'
        rw [update_self] at hf'
        cases hf'
      rw [hx] at hf'
      dsimp only at hf'
      rw [update_of_ne he] at hf'
      rw [State.setOfile_self, update_of_ne he]
      exact h.family.known p fd' f' hf'
    · rw [State.setOfile_self]
      by_cases he : fd' = fd
      · rw [he, update_self]
      · rw [update_of_ne he]
        rcases hclosed fd' hf' with rfl | hc
        · exact absurd rfl he
        · exact h.family.closed p fd' hc
  quiet := h.quiet

/-- The critical section of `fileclose`. -/
theorem fileclose (hf : f ∈ (g p).hold) (hin : (g p).inside = none) :
    Inv (s.fileclose f).2 (update g p ((g p).after (.fileclose f) (s.fileclose f).1)) := by
  have hw : 0 < weight s (g p) p f := Nat.add_pos_left (Multiset.count_pos.mpr hf) _
  have hpos := h.counted.ref_pos hw
  have hfam : ∀ y r, Family (s.setFile f y) (update g p ((g p).after (.fileclose f) r)) :=
    fun y r => h.family.same hu rfl rfl rfl rfl rfl
  by_cases h1 : 1 < (s.file f).ref
  · have he : s.fileclose f = (none, s.setFile f { s.file f with ref := (s.file f).ref - 1 }) := by
      rw [State.fileclose, if_neg (by omega), if_pos h1]
    rw [he]
    refine ⟨?_, ?_, ?_, hfam _ none, h.quiet⟩
    · refine h.counted.fileclose hf ?_ (fun h0 => ?_) (fun _ => rfl) rfl ?_
      · show (s.file f).ref - 1 + 1 = _
        omega
      · replace h0 : (s.file f).ref - 1 = 0 := h0
        omega
      · rw [if_neg (show (s.file f).ref - 1 ≠ 0 by omega)]
        refine Finset.erase_eq_of_notMem fun hm => ?_
        have := (h.counted.fresh p f hm).2.1
        omega
    · refine h.ended.same (State.setFile_ref _) (fun _ => ⟨rfl, fun _ => rfl⟩) (update_same Own.ends ?_)
        (update_same Own.dead rfl)
      exact zero_add _
    · refine h.placed.keep rfl (fun _ _ => List.Subset.refl _) (update_same Own.inside rfl) fun q fd f' _ hfd ht => ?_
      obtain ⟨h2, -, -, h3⟩ := State.setFile_ref (s := s) ((s.file f).ref - 1) f'
      exact ⟨hfd, h2.trans ht, h3⟩
  · have he : s.fileclose f = (some (s.file f), s.setFile f { s.file f with ref := 0, type := .none }) := by
      rw [State.fileclose, if_neg (by omega), if_neg h1]
    rw [he]
    refine ⟨?_, ?_, ?_, hfam _ _, h.quiet⟩
    · refine h.counted.fileclose hf ?_ (fun _ => rfl) (fun h0 => absurd rfl h0) rfl ?_
      · show 0 + 1 = _
        omega
      · rw [if_pos rfl]
        rfl
    · exact h.ended.fileclose rfl rfl rfl
    · refine h.placed.keep rfl (fun _ _ => List.Subset.refl _) (update_same Own.inside rfl) fun q fd f' hq hfd ht => ?_
      -- this was the last reference, and the process itself is not inside
      have hne : f' ≠ f := by
        rintro rfl
        have hqp : q = p := h.counted.sole (by omega) (weight_pos_of_ofile hfd) hw
        rw [hqp] at hq
        exact hq hin
      rw [State.setFile_of_ne hne]
      exact ⟨hfd, ht, rfl⟩

end

/-- Another descriptor for a file, of this process or of its child. -/
theorem filedup (h : Inv s g) (hfd : s.ofile p fd = some f) (hfresh : (g p).fresh = ∅) {fd' : Fin NOFILE}
    (hfd' : s.ofile q fd' = none) (hx : x.hold = (g p).hold ∧ x.fresh = (g p).fresh ∧ x.ends = (g p).ends ∧
      x.dead = (g p).dead ∧ x.inside = (g p).inside)
    (hfam : Family ((s.setFile f { s.file f with ref := (s.file f).ref + 1 }).setOfile q fd' (some f)) (update g p x)) :
    Inv ((s.setFile f { s.file f with ref := (s.file f).ref + 1 }).setOfile q fd' (some f)) (update g p x) := by
  obtain ⟨h1, h2, h3, h4, h5⟩ := hx
  have hw : 0 < weight s (g p) p f := weight_pos_of_ofile hfd
  have hnew : ∀ r, f ∉ (g r).fresh := h.counted.not_fresh hw (by rw [hfresh]; exact Finset.notMem_empty f)
  refine ⟨?_, ?_, ?_, hfam, h.quiet⟩
  · refine (h.counted.filedup hnew (h.counted.ref_pos hw) hfd').same rfl (fun r f' => ?_) (update_same Own.fresh h2)
    rw [weight, weight, update_same Own.hold h1]
  · exact h.ended.same (State.setFile_ref _) (fun _ => ⟨rfl, fun _ => rfl⟩) (update_same Own.ends h3)
      (update_same Own.dead h4)
  · refine h.placed.keep rfl (fun _ _ => List.Subset.refl _) (update_same Own.inside h5) fun r fd₂ f' _ hr ht => ?_
    obtain ⟨h6, -, -, h7⟩ := State.setFile_ref (s := s) ((s.file f).ref + 1) f'
    exact ⟨State.setOfile_of_free hfd' hr, h6.trans ht, h7⟩

/-! ## Pipes -/

/-- A step on pipes and queues that wakes at most. -/
theorem pipes (h : Inv s g) (hu : (g p).up = true) (hfile : s'.file = s.file) (hofile : s'.ofile = s.ofile)
    (hin : s'.inside = s.inside) (hqueue : ∀ n w, s'.queue n w ⊆ s.queue n w) (hproc : s'.proc = s.proc)
    (hpanic : s'.panicked = s.panicked) (hx : x = { g p with ends := x.ends, dead := x.dead })
    (hended : Ended s' (update g p x)) : Inv s' (update g p x) := by
  refine ⟨h.counted.keep hfile hofile (by rw [hx]) (by rw [hx]), hended, ?_,
    h.family.same hu hproc hofile (by rw [hx]) (by rw [hx]) (by rw [hx]), ?_⟩
  · refine h.placed.keep hin hqueue (update_same Own.inside (by rw [hx])) fun q fd f _ hfd ht => ?_
    rw [hofile, hfile]
    exact ⟨hfd, ht, rfl⟩
  · rw [hpanic]
    exact h.quiet

omit [Fintype P] in
theorem setQueue_subset {l : List P} (hl : l ⊆ s.queue n w) (m : Nat) (v : Bool) :
    (s.setQueue n w l).queue m v ⊆ s.queue m v := by
  by_cases hm : m = n
  · subst hm
    by_cases hv : v = w
    · subst hv
      simpa only [State.setQueue, update_self] using hl
    · simp only [State.setQueue, update_self, update_of_ne hv]
      exact List.Subset.refl _
  · simp only [State.setQueue, update_of_ne hm]
    exact List.Subset.refl _

omit [Fintype P] in
theorem wakeup_subset (n : Nat) (w : Bool) (m : Nat) (v : Bool) : (s.wakeup n w).queue m v ⊆ s.queue m v :=
  setQueue_subset (List.nil_subset _) m v

omit [Fintype P] in
theorem wakeupOne_subset (n : Nat) (w seen : Bool) (m : Nat) (v : Bool) :
    (s.wakeupOne n w seen).queue m v ⊆ s.queue m v := by
  cases seen with
  | false => exact List.Subset.refl _
  | true => exact setQueue_subset (List.tail_subset _) m v

section

variable (h : Inv s g) (hu : (g p).up = true)
include h hu

/-- A page becomes a pipe with two open ends. -/
theorem kallocPipe (hn : s.pipe n = none) :
    Inv (s.setPipe n (some Pipe.alloc)) (update g p ((g p).after .kallocPipe (some n))) := by
  refine h.pipes hu rfl rfl rfl (fun _ _ => List.Subset.refl _) rfl rfl rfl ?_
  have hself : (s.setPipe n (some Pipe.alloc)).pipe n = some Pipe.alloc := update_self ..
  refine h.ended.step (fun m w => ?_) (fun q m hq => ?_) h.ended.readable
  · show endFiles s m w + ((n, false) ::ₘ (n, true) ::ₘ (g p).ends).count (m, w) + _ = _
    by_cases hm : m = n
    · subst hm
      rw [hself, hn]
      cases w <;> simp [isOpen, Pipe.alloc, Multiset.count_cons] <;> omega
    · have hne : (s.setPipe n (some Pipe.alloc)).pipe m = s.pipe m := update_of_ne hm ..
      rw [hne, Multiset.count_cons_of_ne (by simp [hm]), Multiset.count_cons_of_ne (by simp [hm])]
  · have hd : ∀ r, (update g p ((g p).after .kallocPipe (some n)) r).dead = (g r).dead := update_same Own.dead rfl
    rw [hd] at hq
    obtain ⟨h1, h2⟩ := h.ended.dead q m hq
    have hm : m ≠ n := by
      rintro rfl
      rw [hn] at h1
      cases h1
    have hne : (s.setPipe n (some Pipe.alloc)).pipe m = s.pipe m := update_of_ne hm ..
    rw [hne]
    refine ⟨h1, h2, fun q' hq' => ?_⟩
    rw [hd] at hq'
    exact h.ended.deadOne q q' m hq hq'

/-- The critical section of `pipeclose`: the process gives up an end, and has to free a pipe without open ends. -/
theorem pipeclose (hpre : (g p).pre (.pipeclose n w)) {ch : Nat} {r : Bool}
    (hs : Cmd.exec p (.pipeclose n w) ch s = some (r, s')) :
    Inv s' (update g p ((g p).after (.pipeclose n w) r)) := by
  obtain ⟨hm, hd⟩ := hpre
  have hopen := h.ended.isOpen_of_mem hm
  rw [Cmd.exec] at hs
  cases hpi : s.pipe n with
  | none =>
    rw [hpi] at hs
    cases hs
  | some pi =>
    rw [hpi] at hs hopen
    cases hs
    set pi' : Pipe := if w then { pi with writeopen := false } else { pi with readopen := false } with hpi'
    set s₁ := (s.setPipe n (some pi')).wakeup n (!w) with hs₁
    have hself : s₁.pipe n = some pi' := update_self ..
    have hne : ∀ m, m ≠ n → s₁.pipe m = s.pipe m := fun m hm => update_of_ne hm ..
    have hw : isOpen w (some pi') = false := by
      cases w <;> rfl
    have hv : isOpen (!w) (some pi') = isOpen (!w) (some pi) := by
      cases w <;> rfl
    refine h.pipes hu rfl rfl rfl (wakeup_subset n (!w)) rfl rfl rfl (h.ended.step (fun m v => ?_) (fun q m hq => ?_)
      h.ended.readable)
    · show endFiles s m v + ((g p).ends.erase (n, w)).count (m, v) + _ = _
      have hc : (g p).ends.count (m, v) = ((g p).ends.erase (n, w)).count (m, v) + if (m, v) = (n, w) then 1 else 0 := by
        rw [← Multiset.count_cons, Multiset.cons_erase hm]
      rw [hc]
      by_cases hmn : m = n
      · subst hmn
        rw [hself, hpi]
        by_cases hvw : v = w
        · subst hvw
          rw [if_pos hopen, if_pos rfl, if_neg (by rw [hw]; exact Bool.false_ne_true)]
          omega
        · have hpair : (m, v) ≠ (m, w) := fun he => hvw (Prod.ext_iff.mp he).2
          have hv' : isOpen v (some pi') = isOpen v (some pi) := by
            rw [Bool.eq_not_of_ne hvw]
            exact hv
          rw [hv', if_neg hpair]
          omega
      · have hpair : (m, v) ≠ (n, w) := fun he => hmn (Prod.ext_iff.mp he).1
        rw [hne m hmn, if_neg hpair]
        omega
    · -- nobody had to free the pipe, as this end was open
      have hnone : ∀ q, (g q).dead ≠ some n := by
        intro q hq
        have := (h.ended.dead q n hq).2 w
        rw [hpi, hopen] at this
        cases this
      have hcase : ∀ q, (update g p ((g p).after (.pipeclose n w) (!pi'.readopen && !pi'.writeopen)) q).dead =
          some m → (m = n ∧ q = p ∧ (!pi'.readopen && !pi'.writeopen) = true) ∨ (m ≠ n ∧ (g q).dead = some m) := by
        intro r hr
        by_cases hrp : r = p
        · subst hrp
          rw [update_self] at hr
          replace hr : (if (!pi'.readopen && !pi'.writeopen) = true then some n else (g r).dead) = some m := hr
          split at hr
          · next hb =>
            cases hr
            exact Or.inl ⟨rfl, rfl, hb⟩
          · rw [hd] at hr
            cases hr
        · rw [update_of_ne hrp] at hr
          refine Or.inr ⟨fun he => hnone r ?_, hr⟩
          rw [← he]
          exact hr
      rcases hcase q hq with ⟨rfl, rfl, hb⟩ | ⟨hmn, hq⟩
      · rw [hself]
        refine ⟨rfl, fun v => ?_, fun q' hq' => ?_⟩
        · rw [Bool.and_eq_true, Bool.not_eq_true', Bool.not_eq_true'] at hb
          cases v
          · exact hb.1
          · exact hb.2
        · rcases hcase q' hq' with ⟨-, rfl, -⟩ | ⟨hmn, -⟩
          · rfl
          · exact absurd rfl hmn
      · rw [hne m hmn]
        obtain ⟨h1, h2⟩ := h.ended.dead q m hq
        refine ⟨h1, h2, fun q' hq' => ?_⟩
        rcases hcase q' hq' with ⟨rfl, -, -⟩ | ⟨-, hq'⟩
        · exact absurd rfl hmn
        · exact h.ended.deadOne q q' m hq hq'

/-- The page of a pipe without open ends is freed. -/
theorem kfree (hd : (g p).dead = some n) : Inv (s.setPipe n none) (update g p ((g p).after (.kfree n) ())) := by
  have hself : (s.setPipe n none).pipe n = none := update_self ..
  have hne : ∀ m, m ≠ n → (s.setPipe n none).pipe m = s.pipe m := fun m hm => update_of_ne hm ..
  refine h.pipes hu rfl rfl rfl (fun _ _ => List.Subset.refl _) rfl rfl rfl
    (h.ended.step (fun m v => ?_) (fun q m hq => ?_) h.ended.readable)
  · show endFiles s m v + (g p).ends.count (m, v) + _ = _
    by_cases hm : m = n
    · rw [hm, hself, (h.ended.dead p n hd).2 v]
      rfl
    · rw [hne m hm]
  · have hq' : ∀ q, (update g p ((g p).after (.kfree n) ()) q).dead = some m → q ≠ p ∧ (g q).dead = some m := by
      intro q hq
      by_cases hqp : q = p
      · rw [hqp, update_self] at hq
        cases hq
      · rw [update_of_ne hqp] at hq
        exact ⟨hqp, hq⟩
    obtain ⟨hqp, hqm⟩ := hq' q hq
    have hm : m ≠ n := by
      rintro rfl
      exact hqp (h.ended.deadOne q p m hqm hd)
    rw [hne m hm]
    obtain ⟨h1, h2⟩ := h.ended.dead q m hqm
    exact ⟨h1, h2, fun r hr => h.ended.deadOne q r m hqm (hq' r hr).2⟩

end

/-! ## Reading and writing -/

section

variable (h : Inv s g)
include h

/-- The process enters `piperead` or `pipewrite`. -/
theorem enter (hu : (g p).up = true) (hin : (g p).inside = none) (hfd : s.ofile p fd = some f)
    (ht : (s.file f).type = .pipe) :
    Inv (s.setInside p (some ((s.file f).pipe, w))) (update g p { g p with inside := some ((s.file f).pipe, w) }) where
  counted := h.counted.keep rfl rfl rfl rfl
  ended := h.ended.keep rfl rfl rfl rfl
  placed := h.placed.enter hfd ht rfl hin
  family := h.family.same hu rfl rfl rfl rfl rfl
  quiet := h.quiet

/-- The pipe has other contents, and somebody may have been woken. -/
theorem stretch (hpipe : ∀ m, (s'.pipe m).isSome = (s.pipe m).isSome ∧ ∀ v, isOpen v (s'.pipe m) = isOpen v (s.pipe m))
    (hqueue : ∀ m v, s'.queue m v ⊆ s.queue m v) (hfile : s'.file = s.file) (hofile : s'.ofile = s.ofile)
    (hin : s'.inside = s.inside) (hproc : s'.proc = s.proc) (hpanic : s'.panicked = s.panicked) : Inv s' g where
  counted := h.counted.same hfile (fun q f => by rw [weight, weight, hofile]) fun _ => rfl
  ended := h.ended.same (fun f => by rw [hfile]; exact ⟨rfl, rfl, rfl, rfl⟩) hpipe (fun _ => rfl) fun _ => rfl
  placed := h.placed.keep hin hqueue (fun _ => rfl) fun q fd f _ hfd ht => by
    rw [hofile, hfile]
    exact ⟨hfd, ht, rfl⟩
  family := by
    obtain ⟨h1, h2, h3, h4, h5, h6⟩ := h.family
    exact ⟨by rwa [hproc], by rwa [hproc, hofile], by rwa [hproc, hofile], h4, by rwa [hofile], by rwa [hofile]⟩
  quiet := by
    rw [hpanic]
    exact h.quiet

theorem leave (hu : (g p).up = true) (hin : (g p).inside = some (n, w)) (hq : p ∉ s.queue n w) :
    Inv (s.setInside p none) (update g p { g p with inside := none }) where
  counted := h.counted.keep rfl rfl rfl rfl
  ended := h.ended.keep rfl rfl rfl rfl
  placed := h.placed.leave hin hq
  family := h.family.same hu rfl rfl rfl rfl rfl
  quiet := h.quiet

theorem sleep (hin : (g p).inside = some (n, w)) : Inv (s.sleep p n w) g where
  counted := h.counted.same rfl (fun _ _ => rfl) fun _ => rfl
  ended := h.ended.same (fun _ => ⟨rfl, rfl, rfl, rfl⟩) (fun _ => ⟨rfl, fun _ => rfl⟩) (fun _ => rfl) fun _ => rfl
  placed := h.placed.sleep hin
  family := ⟨h.family.rest, h.family.unused, h.family.child, h.family.childOne, h.family.known, h.family.closed⟩
  quiet := h.quiet

omit h in
omit [DecidableEq P] [Fintype P] in
theorem readLoop_isOpen (e : PipeEnv) (r i : Nat) (pi : Pipe) (v : Bool) :
    isOpen v (some (readLoop e r i pi).1) = isOpen v (some pi) := by
  induction r generalizing i pi with
  | zero => rfl
  | succ r ih =>
    unfold readLoop
    split
    · rfl
    · split
      · exact ih (i + 1) pi.take
      · rfl

omit h in
theorem writeLoop_isOpen (e : PipeEnv) (r i : Nat) (pi : Pipe) (v : Bool) :
    isOpen v (some (writeLoop e r i pi).1) = isOpen v (some pi) := by
  induction r generalizing i pi with
  | zero => rfl
  | succ r ih =>
    unfold writeLoop
    split
    · rfl
    · split
      · rfl
      · split
        · rfl
        · next ch _ => exact ih (i + 1) (pi.put ch)

/-- The contents of a pipe change. -/
theorem setPipe {pi pi' : Pipe} (hpi : s.pipe n = some pi) (ho : ∀ v, isOpen v (some pi') = isOpen v (some pi)) :
    Inv (s.setPipe n (some pi')) g := by
  refine h.stretch (fun m => ?_) (fun _ _ => List.Subset.refl _) rfl rfl rfl rfl rfl
  by_cases hm : m = n
  · have hself : (s.setPipe n (some pi')).pipe n = some pi' := update_self ..
    rw [hm, hself, hpi]
    exact ⟨rfl, ho⟩
  · have hne : (s.setPipe n (some pi')).pipe m = s.pipe m := update_of_ne hm ..
    rw [hne]
    exact ⟨rfl, fun _ => rfl⟩

theorem wakeupOne (n : Nat) (w seen : Bool) : Inv (s.wakeupOne n w seen) g := by
  cases seen with
  | false => exact h
  | true => exact h.stretch (fun _ => ⟨rfl, fun _ => rfl⟩) (wakeupOne_subset n w true) rfl rfl rfl rfl rfl

theorem piperead (hu : (g p).up = true) (hin : (g p).inside = some (n, false)) {count : Int} {ch : Nat}
    {r : Option Int} (hs : Cmd.exec p (.piperead n count) ch s = some (r, s')) :
    Inv s' (update g p ((g p).after (.piperead n count) r)) := by
  rw [Cmd.exec] at hs
  split at hs
  · cases hs
  · next hq =>
    cases hpi : s.pipe n with
    | none => simp [hpi] at hs
    | some pi =>
      simp only [hpi] at hs
      split at hs
      · split at hs
        · cases hs
          exact h.leave hu hin hq
        · cases hs
          rw [show (g p).after (.piperead n count) none = g p from rfl, update_eq_self]
          exact h.sleep hin
      · cases hs
        refine ((h.setPipe hpi (readLoop_isOpen (envOf (ch / 2)) count.toNat 0 pi)).wakeupOne n true (ch.testBit 0)).leave
          hu hin fun hm => hq ?_
        exact wakeupOne_subset (s := s.setPipe n _) n true (ch.testBit 0) n false hm

theorem pipewrite (hu : (g p).up = true) (hin : (g p).inside = some (n, true)) {count : Int} {i ch : Nat}
    {r : Int ⊕ Nat} (hs : Cmd.exec p (.pipewrite n count i) ch s = some (r, s')) :
    Inv s' (update g p ((g p).after (.pipewrite n count i) r)) := by
  rw [Cmd.exec] at hs
  split at hs
  · cases hs
  · next hq =>
    cases hpi : s.pipe n with
    | none => simp [hpi] at hs
    | some pi =>
      simp only [hpi] at hs
      have h1 := h.setPipe hpi (writeLoop_isOpen (envOf (ch / 2)) (count.toNat - i) i pi)
      have h2 := h1.wakeupOne n false (ch.testBit 0)
      split at hs
      · cases hs
        exact h1.leave hu hin hq
      · cases hs
        rw [show (g p).after (.pipewrite n count i) (.inr _) = g p from rfl, update_eq_self]
        exact h2.sleep hin
      · cases hs
        refine h2.leave hu hin fun hm => hq ?_
        exact wakeupOne_subset (s := s.setPipe n _) n false (ch.testBit 0) n true hm

end

/-! ## Processes -/

/-- Process `p` is making another child. -/
def withChild (g : P → Own P) (p : P) (c : Option (P × List (Fin NOFILE))) : P → Own P :=
  Function.update g p { g p with child := c }

section

variable (c : Option (P × List (Fin NOFILE)))
include c

omit [Fintype P] in
theorem withChild_known (q : P) : (withChild g p c q).known = (g q).known :=
  update_same (x := { g p with child := c }) Own.known rfl q

omit [Fintype P] in
theorem withChild_closed (q : P) : (withChild g p c q).closed = (g q).closed :=
  update_same (x := { g p with child := c }) Own.closed rfl q

omit [Fintype P] in
theorem withChild_of_ne (hq : q ≠ p) : withChild g p c q = g q := update_of_ne hq ..

end

omit [Fintype P] in
/-- The children that other processes are making. -/
theorem child_update {c : Option (P × List (Fin NOFILE))} {l : List (Fin NOFILE)}
    (h : (withChild g p c q).child = some (np, l)) :
    (q = p ∧ c = some (np, l)) ∨ (q ≠ p ∧ (g q).child = some (np, l)) := by
  by_cases hq : q = p
  · rw [hq, withChild, update_self] at h
    exact Or.inl ⟨hq, h⟩
  · rw [withChild_of_ne c hq] at h
    exact Or.inr ⟨hq, h⟩

omit [Fintype P] in
/-- Process `p` goes on with another child. At most process `np` has changed, which does not run, and which nobody else
is making. -/
theorem children {c : Option (P × List (Fin NOFILE))} (h : Family s g) (hu : (g p).up = true) (hnp : s.proc np ≠ .runnable)
    (hproc : ∀ q, q ≠ np → s'.proc q = s.proc q) (hof : ∀ q, q ≠ np → s'.ofile q = s.ofile q)
    (hun : s'.proc np = .unused → ∀ fd, s'.ofile np fd = none) (hnew : ∀ q l, q ≠ p → (g q).child ≠ some (np, l))
    (hc : ∀ np' l, c = some (np', l) → np' = np ∧ s'.proc np = .used ∧ ∀ fd ∈ l, s'.ofile np fd = none) :
    Family s' (withChild g p c) := by
  have hempty := h.rest np hnp
  have hrun : ∀ q, s.proc q ≠ .runnable → q ≠ p := by
    rintro q hq rfl
    exact hq (h.runnable hu)
  refine ⟨fun q hq => ?_, fun q hq => ?_, fun q np' l hq => ?_, fun q q' np' l l' hq hq' => ?_, fun q fd f hq => ?_,
    fun q fd hq => ?_⟩
  · by_cases he : q = np
    · rw [he, withChild_of_ne _ (hrun np hnp)]
      exact hempty
    · rw [hproc q he] at hq
      rw [withChild_of_ne _ (hrun q hq)]
      exact h.rest q hq
  · by_cases he : q = np
    · rw [he] at hq ⊢
      exact hun hq
    · rw [hproc q he] at hq
      rw [hof q he]
      exact h.unused q hq
  · rcases child_update hq with ⟨-, hq⟩ | ⟨hqp, hq⟩
    · obtain ⟨rfl, hc⟩ := hc np' l hq
      exact hc
    · have he : np' ≠ np := by
        rintro rfl
        exact hnew q l hqp hq
      rw [hproc np' he, hof np' he]
      exact h.child q np' l hq
  · rcases child_update hq with ⟨rfl, h1⟩ | ⟨hqp, h1⟩ <;> rcases child_update hq' with ⟨rfl, h2⟩ | ⟨hqp', h2⟩
    · rfl
    · obtain ⟨rfl, -⟩ := hc np' l h1
      exact absurd h2 (hnew q' l' hqp')
    · obtain ⟨rfl, -⟩ := hc np' l' h2
      exact absurd h1 (hnew q l hqp)
    · exact h.childOne q q' np' l l' h1 h2
  · rw [withChild_known] at hq
    have he : q ≠ np := by
      rintro rfl
      rw [hempty] at hq
      cases hq
    rw [hof q he]
    exact h.known q fd f hq
  · rw [withChild_closed] at hq
    have he : q ≠ np := by
      rintro rfl
      rw [hempty] at hq
      exact absurd hq (Finset.notMem_empty fd)
    rw [hof q he]
    exact h.closed q fd hq

omit [DecidableEq P] [Fintype P] in
theorem child_ne (h : Family s g) {l : List (Fin NOFILE)} (hc : (g p).child = some (np, l)) (q : P)
    (l' : List (Fin NOFILE)) (hq : q ≠ p) : (g q).child ≠ some (np, l') :=
  fun h' => hq (h.childOne q p np l' l h' hc)

/-- A step that has to do with processes only. -/
theorem procs (h : Inv s g) {x : Fs.ProcState} {c : Option (P × List (Fin NOFILE))}
    (hfam : Family (s.setProc np x) (withChild g p c)) : Inv (s.setProc np x) (withChild g p c) :=
  h.keep rfl ⟨rfl, rfl, rfl, rfl, rfl⟩ hfam

section

variable (h : Inv s g) (hu : (g p).up = true)
include h hu

/-- `allocproc` takes an unused process. -/
theorem allocproc (hnp : s.proc np = .unused) :
    Inv (s.setProc np .used) (withChild g p (some (np, List.finRange NOFILE))) := by
  have hself : (s.setProc np .used).proc np = .used := update_self ..
  refine h.procs ?_
  refine children h.family hu (by rw [hnp]; decide) (fun q hq => update_of_ne hq ..) (fun _ _ => rfl)
    (fun hn => ?_) (fun q l _ hq => ?_) fun np' l hc => ?_
  · cases hself.symm.trans hn
  · rw [(h.family.child q np l hq).1] at hnp
    cases hnp
  · cases hc
    exact ⟨rfl, hself, fun fd _ => h.family.unused np hnp fd⟩

/-- The child of a process begins to run, or is given up. -/
theorem endChild {l : List (Fin NOFILE)} (hc : (g p).child = some (np, l)) {x : Fs.ProcState}
    (hx : x = .unused → ∀ fd, s.ofile np fd = none) :
    Inv (s.setProc np x) (withChild g p none) := by
  obtain ⟨hnp, -⟩ := h.family.child p np l hc
  have hself : (s.setProc np x).proc np = x := update_self ..
  refine h.procs ?_
  exact children h.family hu (by rw [hnp]; decide) (fun q hq => update_of_ne hq ..) (fun _ _ => rfl)
    (fun hn => hx (hself.symm.trans hn)) (child_ne h.family hc) nofun

/-- The child gets a descriptor. -/
theorem dupFile {i : Fin NOFILE} {rest : List (Fin NOFILE)}
    (hc : (g p).child = some (np, i :: rest)) (hi : i ∉ rest) (hfresh : (g p).fresh = ∅) (hfd : s.ofile p i = some f) :
    Inv ((s.setFile f { s.file f with ref := (s.file f).ref + 1 }).setOfile np i (some f))
      (withChild g p (some (np, rest))) := by
  obtain ⟨hnp, hfree⟩ := h.family.child p np _ hc
  refine h.filedup hfd hfresh (hfree i List.mem_cons_self) ⟨rfl, rfl, rfl, rfl, rfl⟩ ?_
  show Family _ (withChild g p (some (np, rest)))
  refine children h.family hu (by rw [hnp]; decide) (fun _ _ => rfl) (fun q hq => State.setOfile_of_ne hq _) (fun hn => ?_)
    (child_ne h.family hc) fun np' l hl => ?_
  · cases hnp.symm.trans hn
  · cases hl
    refine ⟨rfl, hnp, fun fd hm => ?_⟩
    have he : fd ≠ i := fun he => hi (he ▸ hm)
    rw [State.setOfile_self, update_of_ne he]
    exact hfree fd (List.mem_cons_of_mem i hm)

/-- The process has no such descriptor for the child. -/
theorem skipFile {i : Fin NOFILE} {rest : List (Fin NOFILE)}
    (hc : (g p).child = some (np, i :: rest)) : Inv s (withChild g p (some (np, rest))) := by
  obtain ⟨hnp, hfree⟩ := h.family.child p np _ hc
  refine h.keep rfl ⟨rfl, rfl, rfl, rfl, rfl⟩ (children h.family hu (by rw [hnp]; decide) (fun _ _ => rfl) (fun _ _ => rfl)
    (h.family.unused np) (child_ne h.family hc) fun np' l hl => ?_)
  cases hl
  exact ⟨rfl, hnp, fun fd hm => hfree fd (List.mem_cons_of_mem i hm)⟩

/-- A process that has nothing exits. -/
theorem exit (hi : (g p).Idle) (hc : ∀ fd, fd ∈ (g p).closed) : Inv (s.setProc p .unused) (update g p Own.empty) := by
  refine h.keep rfl ⟨hi.hold.symm, hi.fresh.symm, hi.ends.symm, hi.dead.symm, hi.inside.symm⟩ ?_
  have hchild : ∀ q, (update g p Own.empty q).child = (g q).child := update_same Own.child hi.child.symm
  have hother : ∀ q, q ≠ p → (s.setProc p .unused).proc q = s.proc q := fun q hq => update_of_ne hq ..
  refine ⟨fun q hq => ?_, fun q hq fd => ?_, fun q np l hq => ?_, fun q q' np l₁ l₂ => ?_, fun q fd f hq => ?_,
    fun q fd hq => ?_⟩
  · by_cases he : q = p
    · rw [he, update_self]
    · rw [update_of_ne he]
      exact h.family.rest q (by rwa [← hother q he])
  · by_cases he : q = p
    · rw [he]
      exact h.family.closed p fd (hc fd)
    · exact h.family.unused q (by rwa [← hother q he]) fd
  · rw [hchild] at hq
    obtain ⟨h1, h2⟩ := h.family.child q np l hq
    have he : np ≠ p := by
      rintro rfl
      rw [h.family.runnable hu] at h1
      cases h1
    exact ⟨(hother np he).trans h1, h2⟩
  · rw [hchild, hchild]
    exact h.family.childOne q q' np l₁ l₂
  · by_cases he : q = p
    · rw [he, update_self] at hq
      cases hq
    · rw [update_of_ne he] at hq
      exact h.family.known q fd f hq
  · by_cases he : q = p
    · rw [he, update_self] at hq
      exact absurd hq (Finset.notMem_empty fd)
    · rw [update_of_ne he] at hq
      exact h.family.closed q fd hq

end

/-! ## All steps -/

/-- The process has what it had. -/
theorem unchanged (h : Inv s g) : Inv s (update g p (g p)) := by
  rwa [update_eq_self]

theorem close (h : Inv s g) (hu : (g p).up = true) (hfresh : (g p).fresh = ∅) (hin : (g p).inside = none)
    (hfd : s.ofile p fd = some f) :
    Inv ((s.setOfile p fd none).fileclose f).2
      (update g p ((g p).after (.close fd) ((s.setOfile p fd none).fileclose f).1)) := by
  -- the reference goes from the descriptor to the process, and is dropped there
  set x : Own P := { g p with hold := (g p).hold + {f}, known := update (g p).known fd none,
                               closed := insert fd (g p).closed } with hx
  have h1 : Inv (s.setOfile p fd none) (update g p x) :=
    h.clear hu hfd hin rfl fun fd' hfd' => Finset.mem_insert.mp hfd'
  have hself : update g p x p = x := update_self ..
  have hmem : f ∈ (update g p x p).hold := by
    rw [hself]
    exact Multiset.mem_add.mpr (Or.inr (Multiset.mem_singleton_self f))
  have h2 := h1.fileclose (by rw [hself]; exact hu) hmem (by rw [hself]; exact hin)
  rw [update_idem, hself] at h2
  have he : x.after (.fileclose f) ((s.setOfile p fd none).fileclose f).1 =
      (g p).after (.close fd) ((s.setOfile p fd none).fileclose f).1 := by
    refine Own.ext ?_ ?_ rfl rfl rfl rfl rfl rfl rfl
    · show ((g p).hold + {f}).erase f = (g p).hold
      rw [add_comm, Multiset.singleton_add, Multiset.erase_cons_head]
    · show (g p).fresh.erase f = (g p).fresh
      rw [hfresh, Finset.erase_empty]
  rwa [he] at h2

theorem dup (h : Inv s g) (hu : (g p).up = true) (hfresh : (g p).fresh = ∅) (hfd : s.ofile p fd = some f)
    {fd' : Fin NOFILE} (hfree : s.ofile p fd' = none) :
    Inv ((s.setFile f { s.file f with ref := (s.file f).ref + 1 }).setOfile p fd' (some f))
      (update g p { g p with closed := ∅ }) := by
  refine h.filedup hfd hfresh hfree ⟨rfl, rfl, rfl, rfl, rfl⟩ ?_
  refine h.family.step (h.family.runnable hu) rfl (fun q hq => State.setOfile_of_ne hq _) rfl (fun fd₂ f' hk => ?_) fun fd₂ hc => ?_
  · exact State.setOfile_of_free hfree (h.family.known p fd₂ f' hk)
  · exact absurd hc (Finset.notMem_empty fd₂)

/-- A file that a process may read or write has its type. -/
theorem type_ne_none (h : Inv s g) (hfresh : (g p).fresh = ∅) (hfd : s.ofile p fd = some f) : (s.file f).type ≠ .none := by
  intro ht
  have hw : 0 < weight s (g p) p f := weight_pos_of_ofile hfd
  obtain ⟨q, hq⟩ := h.counted.typed f (h.counted.ref_pos hw) ht
  exact h.counted.not_fresh hw (by rw [hfresh]; exact Finset.notMem_empty f) q hq

/-- **A step keeps the invariant.** -/
theorem sound (h : Inv s g) (hu : (g p).up = true) {c : Cmd P} (hpre : (g p).pre c) {ch : Nat} {r : c.R}
    (hs : c.exec p ch s = some (r, s')) :
    Inv s' (update g p ((g p).after c r)) ∧ (s'.panicked = none → (g p).learns c r) := by
  cases c with
  | filealloc =>
    rw [Cmd.exec] at hs
    split at hs
    · next f hf =>
      cases hs
      have h0 : (s.file f).ref = 0 := by simpa using List.find?_some hf
      refine ⟨h.filealloc hu h0, fun _ hm => ?_⟩
      have := (h.counted.fresh p f hm).2.1
      omega
    · cases hs
      exact ⟨h.unchanged, fun _ => trivial⟩
  | fdalloc f =>
    rw [Cmd.exec] at hs
    split at hs
    · next fd hfd =>
      cases hs
      have hfree := State.freeFd_spec hfd
      refine ⟨h.fdalloc hu hpre hfree, fun _ => ?_⟩
      show (g p).known fd = none
      by_contra hk
      obtain ⟨f', hf'⟩ := Option.ne_none_iff_exists'.mp hk
      rw [h.family.known p fd f' hf'] at hfree
      cases hfree
    · cases hs
      exact ⟨h.unchanged, fun _ => trivial⟩
  | setFile f type r w pipe =>
    cases hs
    exact ⟨h.setFile hu hpre, fun _ => trivial⟩
  | clearFd fd =>
    obtain ⟨hk, hin⟩ := hpre
    obtain ⟨f, hf⟩ := Option.isSome_iff_exists.mp hk
    cases hs
    refine ⟨h.clear hu (h.family.known p fd f hf) hin ?_ fun fd' hfd' => Or.inr hfd', fun _ => trivial⟩
    show (Own.after (g p) (.clearFd fd) ()) = _
    rw [Own.after, hf]
    rfl
  | dup fd =>
    rw [Cmd.exec] at hs
    split at hs
    · next f fd' hfd hfree =>
      have hpos : 0 < (s.file f).ref := h.counted.ref_pos (weight_pos_of_ofile hfd)
      rw [if_neg (by omega)] at hs
      cases hs
      exact ⟨h.dup hu hpre hfd (State.freeFd_spec hfree), fun _ => trivial⟩
    · cases hs
      refine ⟨h.keep rfl ⟨rfl, rfl, rfl, rfl, rfl⟩ ?_, fun _ => trivial⟩
      exact h.family.step (h.family.runnable hu) rfl (fun _ _ => rfl) rfl (h.family.known p) fun fd hc => absurd hc (Finset.notMem_empty fd)
  | close fd =>
    obtain ⟨hfresh, hin⟩ := hpre
    rw [Cmd.exec] at hs
    split at hs
    · next hfd =>
      cases hs
      refine ⟨h.keep rfl ⟨rfl, rfl, zero_add _, rfl, rfl⟩ ?_, fun _ => trivial⟩
      refine h.family.step (h.family.runnable hu) rfl (fun _ _ => rfl) rfl (fun fd' f hk => ?_) fun fd' hc => ?_
      · replace hk : update (g p).known fd none fd' = some f := hk
        have he : fd' ≠ fd := by
          rintro rfl
          rw [update_self] at hk
          cases hk
        rw [update_of_ne he] at hk
        exact h.family.known p fd' f hk
      · rcases Finset.mem_insert.mp hc with rfl | hc
        · exact hfd
        · exact h.family.closed p fd' hc
    · next f hfd =>
      have hc := h.close hu hfresh hin hfd
      rw [Option.some.inj hs] at hc
      exact ⟨hc, fun _ => trivial⟩
  | fileclose f =>
    have hc := h.fileclose hu hpre.1 hpre.2
    rw [Option.some.inj hs] at hc
    exact ⟨hc, fun _ => trivial⟩
  | kallocPipe =>
    rw [Cmd.exec] at hs
    split at hs
    · cases hs
      exact ⟨h.unchanged, fun _ => trivial⟩
    · split at hs
      · next hn =>
        cases hs
        exact ⟨h.kallocPipe hu (Option.isNone_iff_eq_none.mp hn), fun _ => trivial⟩
      · cases hs
  | copyout =>
    cases hs
    exact ⟨h.unchanged, fun _ => trivial⟩
  | pipeclose n w => exact ⟨h.pipeclose hu hpre hs, fun _ => trivial⟩
  | kfree n =>
    cases hs
    exact ⟨h.kfree hu hpre, fun _ => trivial⟩
  | access fd write =>
    rw [Cmd.exec] at hs
    split at hs
    · cases hs
      exact ⟨h.unchanged, fun _ => trivial⟩
    · next f hfd =>
      by_cases hb : (if write then (s.file f).writable else (s.file f).readable) = false
      · rw [if_pos hb] at hs
        cases hs
        exact ⟨h.unchanged, fun _ => trivial⟩
      · rw [if_neg hb] at hs
        split at hs
        · next ht =>
          cases hs
          exact ⟨h.enter hu hpre.inside hfd ht, fun _ => trivial⟩
        · next ht => exact absurd ht (h.type_ne_none hpre.fresh hfd)
        · cases hs
          exact ⟨h.unchanged, fun _ => trivial⟩
  | piperead n count => exact ⟨h.piperead hu hpre.2 hs, fun _ => trivial⟩
  | pipewrite n count i => exact ⟨h.pipewrite hu hpre.2 hs, fun _ => trivial⟩
  | kill q =>
    rw [Cmd.exec] at hs
    refine ⟨?_, fun _ => trivial⟩
    split at hs
    · cases hs
      exact h.unchanged
    · next n w _ =>
      cases hs
      refine Inv.unchanged ?_
      split
      · exact h.stretch (fun _ => ⟨rfl, fun _ => rfl⟩) (wakeup_subset n w) rfl rfl rfl rfl rfl
      · exact h
  | allocproc np =>
    rw [Cmd.exec] at hs
    split at hs
    · next hnp =>
      cases hs
      exact ⟨h.allocproc hu hnp, fun _ => trivial⟩
    · cases hs
      exact ⟨h.unchanged, fun _ => trivial⟩
  | uvmcopy np =>
    rw [Cmd.exec] at hs
    split at hs
    · cases hs
      exact ⟨h.unchanged, fun _ => trivial⟩
    · cases hs
      refine ⟨h.endChild hu hpre fun _ fd => ?_, fun _ => trivial⟩
      exact (h.family.child p np _ hpre).2 fd (List.mem_finRange fd)
  | filedup np i =>
    obtain ⟨hfresh, rest, hc, hi⟩ := hpre
    have he : (g p).after (.filedup np i) r = { g p with child := some (np, rest) } := by
      rw [Own.after, hc]
      rfl
    rw [he]
    rw [Cmd.exec] at hs
    refine ⟨?_, fun _ => trivial⟩
    split at hs
    · cases hs
      exact h.skipFile hu hc
    · next f hfd =>
      have hpos : 0 < (s.file f).ref := h.counted.ref_pos (weight_pos_of_ofile hfd)
      rw [if_neg (by omega)] at hs
      cases hs
      exact h.dupFile hu hc hi hfresh hfd
  | start np =>
    cases hs
    exact ⟨h.endChild hu hpre nofun, fun _ => trivial⟩
  | exit =>
    cases hs
    exact ⟨h.exit hu hpre.1 hpre.2, fun _ => trivial⟩
  | panic e =>
    cases hs
    rw [show e = .initExiting from hpre]
    refine ⟨Inv.unchanged ?_, nofun⟩
    exact ⟨h.counted.same rfl (fun _ _ => rfl) fun _ => rfl, ⟨h.ended.ends, h.ended.dead, h.ended.deadOne, h.ended.readable⟩,
      ⟨h.placed.inside, h.placed.file, h.placed.queue⟩,
      ⟨h.family.rest, h.family.unused, h.family.child, h.family.childOne, h.family.known, h.family.closed⟩,
      fun e' he' => (Option.some.inj he').symm⟩
  | wait => cases hs

end Inv

end Xv6.Ftable
