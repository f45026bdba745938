import Xv6.Fs.Refs

/-!
# Open files and processes

The steps of `RefInv` that open and close files, and those of `kfork` and `kexit`: the counts of the file table are the
numbers of descriptors, a child gets a reference to everything its parent has open, and a process that exits has closed
everything.
-/

namespace Xv6.Fs

open Lib (sum_change places_update places_eq_card)
open Function (update update_of_ne update_self)

variable {P : Type} [DecidableEq P] [Fintype P]
variable {l : List (Fin NOFILE)} {x : Ghost P}

/-! ## Counting descriptors -/

section OpenFiles

variable {s : FsState P} {g : P → Ghost P} {p q : P} {i j : Fin NINODE} {n : Nat} {f : Fin NFILE} {fd : Fin NOFILE}

theorem files_setFile (f : Fin NFILE) (y : File) (j : Fin NINODE) :
    files (s.setFile f y) j + (if (s.file f).ip = some j then 1 else 0) =
      files s j + if y.ip = some j then 1 else 0 := by
  have h := sum_change Finset.univ (fun f' => if (s.file f').ip = some j then 1 else 0)
    (fun f' => if (update s.file f y f').ip = some j then 1 else 0) f (Finset.mem_univ f)
    fun f' hf => by simp only [update_of_ne hf]
  simp only [update_self] at h
  rw [files, files, Finset.card_filter, Finset.card_filter]
  exact h

theorem fds_setOfile (fd : Fin NOFILE) (z : Option (Fin NFILE)) (f : Fin NFILE) :
    fds (s.setOfile p fd z) f p + (if s.ofile p fd = some f then 1 else 0) =
      fds s f p + if z = some f then 1 else 0 := by
  have he : (s.setOfile p fd z).ofile p = update (s.ofile p) fd z := update_self ..
  rw [fds, fds, he, ← places_eq_card, ← places_eq_card]
  exact places_update (s.ofile p) fd z (some f)

/-- The descriptors for a file, when one of them changes. -/
theorem sum_fds_setOfile (fd : Fin NOFILE) (z : Option (Fin NFILE)) (f : Fin NFILE) :
    ∑ q, fds (s.setOfile p fd z) f q + (if s.ofile p fd = some f then 1 else 0) =
      ∑ q, fds s f q + if z = some f then 1 else 0 := by
  have h1 := sum_change Finset.univ (fun q => fds s f q) (fun q => fds (s.setOfile p fd z) f q) p
    (Finset.mem_univ p) fun q hq => by simp only [fds, FsState.setOfile, update_of_ne hq]
  have h2 := fds_setOfile (s := s) (p := p) fd z f
  omega

/-- The file table, when one descriptor and the entry of its file change alike. -/
theorem Files.set {y : File} {z : Option (Fin NFILE)} (hf : Files s) (ho : ∀ f', f' ≠ f → s.ofile q fd ≠ some f')
    (hz : ∀ f', f' ≠ f → z ≠ some f')
    (hy : y.ref + (if s.ofile q fd = some f then 1 else 0) = (s.file f).ref + if z = some f then 1 else 0)
    (hip : y.ref = 0 → y.ip = none) : Files ((s.setFile f y).setOfile q fd z) := by
  have hfile : ∀ f', ((s.setFile f y).setOfile q fd z).file f' = update s.file f y f' := fun _ => rfl
  have hsum : ∀ f', ∑ r, fds ((s.setFile f y).setOfile q fd z) f' r + (if s.ofile q fd = some f' then 1 else 0) =
      ∑ r, fds s f' r + if z = some f' then 1 else 0 := sum_fds_setOfile fd z
  constructor
  · intro f'
    have h1 := hf.ref f'
    have h2 := hsum f'
    rw [hfile]
    by_cases he : f' = f
    · subst he
      rw [update_self]
      omega
    · rw [update_of_ne he]
      rw [if_neg (ho f' he), if_neg (hz f' he)] at h2
      omega
  · intro f'
    rw [hfile]
    by_cases he : f' = f
    · subst he
      rw [update_self]
      exact hip
    · rw [update_of_ne he]
      exact hf.ip f'

/-- A file that a process has open is not closed by another one. -/
theorem Files.two_le (hf : Files s) (hpq : q ≠ p) (hp : s.ofile p fd = some f) {fd' : Fin NOFILE}
    (hq : s.ofile q fd' = some f) : 2 ≤ (s.file f).ref := by
  have h1 : 0 < fds s f p := Finset.card_pos.mpr ⟨fd, Finset.mem_filter.mpr ⟨Finset.mem_univ fd, hp⟩⟩
  have h2 : 0 < fds s f q := Finset.card_pos.mpr ⟨fd', Finset.mem_filter.mpr ⟨Finset.mem_univ fd', hq⟩⟩
  have h3 := Finset.add_sum_erase Finset.univ (fun r => fds s f r) (Finset.mem_univ p)
  have h4 := Finset.single_le_sum (f := fun r => fds s f r) (fun r _ => Nat.zero_le _)
    (Finset.mem_erase.mpr ⟨hpq, Finset.mem_univ q⟩)
  have h5 := hf.ref f
  omega

theorem Files.one_le (hf : Files s) (hp : s.ofile p fd = some f) : 1 ≤ (s.file f).ref := by
  have h1 : 0 < fds s f p := Finset.card_pos.mpr ⟨fd, Finset.mem_filter.mpr ⟨Finset.mem_univ fd, hp⟩⟩
  have h2 := Finset.single_le_sum (f := fun r => fds s f r) (fun r _ => Nat.zero_le _) (Finset.mem_univ p)
  have h3 := hf.ref f
  omega

theorem ofile_of_ne (z : Option (Fin NFILE)) (r : P) (hr : r ≠ q) (fd' : Fin NOFILE) :
    (s.setOfile q fd z).ofile r fd' = s.ofile r fd' := by
  simp [FsState.setOfile, hr]

theorem ofile_setOfile (q : P) (fd : Fin NOFILE) (z : Option (Fin NFILE)) (r : P) (fd' : Fin NOFILE) :
    (s.setOfile q fd z).ofile r fd' = if r = q ∧ fd' = fd then z else s.ofile r fd' := by
  by_cases hr : r = q
  · subst hr
    by_cases hd : fd' = fd <;> simp [FsState.setOfile, hd]
  · simp [FsState.setOfile, hr]

/-- Processes, when a running one changes descriptors of its own. -/
theorem Procs.setOfile {s' : FsState P} (hp : Procs s g) (hrun : s.proc p = .runnable) (hcwd : s'.cwd = s.cwd)
    (hproc : s'.proc = s.proc) (hof : ∀ r, r ≠ p → ∀ fd, s'.ofile r fd = s.ofile r fd) (hch : x.child = (g p).child)
    (hcl : ∀ fd ∈ x.closed, s'.ofile p fd = none) : Procs s' (update g p x) := by
  have hch' := proj_update Ghost.child hch
  have hne : ∀ r, s.proc r ≠ .runnable → r ≠ p := fun r hr he => hr (he ▸ hrun)
  constructor
  · intro r hr
    rw [hproc] at hr
    rw [hcwd, update_of_ne (hne r hr)]
    exact hp.idle r hr
  · intro r hr fd
    rw [hproc] at hr
    rw [hof r (hne r (by rw [hr]; exact nofun))]
    exact hp.unused r hr fd
  · intro r fd hfd
    by_cases hr : r = p
    · subst hr
      rw [update_self] at hfd
      exact hcl fd hfd
    · rw [update_of_ne hr] at hfd
      rw [hof r hr]
      exact hp.closed r fd hfd
  · intro r c l hc
    rw [hch'] at hc
    obtain ⟨h1, h2, h3⟩ := hp.child r c l hc
    rw [hproc]
    refine ⟨h1, h2, fun fd hfd => ?_⟩
    rw [hof c (hne c (by rw [h1]; exact nofun))]
    exact h3 fd hfd
  · intro r r' c l l' hc hc'
    rw [hch'] at hc hc'
    exact hp.childOne r r' c l l' hc hc'

theorem Procs.runnable (hp : Procs s g) (hup : (g p).up = true) : s.proc p = .runnable := by
  by_contra hn
  have := (hp.idle p hn).2.2
  rw [hup] at this
  cases this

/-- The references to an entry when one becomes that of a new open file. -/
theorem fopen_weight {T : Multiset (Fin NINODE × Nat)} (hT : (g p).tok = (i, n) ::ₘ T) (hip : (s.file f).ip = none)
    (j : Fin NINODE) :
    weight ((s.setFile f ⟨1, some i⟩).setOfile p fd (some f)) { g p with tok := T, closed := [] } p j +
        files ((s.setFile f ⟨1, some i⟩).setOfile p fd (some f)) j = weight s (g p) p j + files s j := by
  have h1 : weight s (g p) p j = weight ((s.setFile f ⟨1, some i⟩).setOfile p fd (some f))
      { g p with tok := T, closed := [] } p j + if i = j then 1 else 0 := weight_cons hT (by rfl) (by rfl) j
  have h2 : files ((s.setFile f ⟨1, some i⟩).setOfile p fd (some f)) j = files (s.setFile f ⟨1, some i⟩) j := rfl
  have h3 := files_setFile (s := s) f ⟨1, some i⟩ j
  rw [hip, if_neg (Option.some_ne_none j).symm] at h3
  simp only [Option.some.injEq] at h3
  omega

/-- The references to an entry when that of an open file is taken. -/
theorem fcloseLast_weight (hx : x = { g p with closed := fd :: (g p).closed, tok := match (s.file f).ip with
      | none => (g p).tok
      | some i => (i, (s.tab i).inum) ::ₘ (g p).tok }) (j : Fin NINODE) :
    weight ((s.setFile f ⟨0, none⟩).setOfile p fd none) x p j + files ((s.setFile f ⟨0, none⟩).setOfile p fd none) j =
      weight s (g p) p j + files s j := by
  have h1 : files ((s.setFile f ⟨0, none⟩).setOfile p fd none) j = files (s.setFile f ⟨0, none⟩) j := rfl
  have h2 := files_setFile (s := s) f ⟨0, none⟩ j
  rw [if_neg (Option.some_ne_none j).symm] at h2
  cases hip : (s.file f).ip with
  | none =>
    rw [hip] at h2 hx
    rw [if_neg (Option.some_ne_none j).symm] at h2
    have h3 : weight ((s.setFile f ⟨0, none⟩).setOfile p fd none) x p j = weight s (g p) p j := by
      rw [hx]
      rfl
    omega
  | some i =>
    rw [hip] at h2 hx
    simp only [Option.some.injEq] at h2
    have h3 : weight ((s.setFile f ⟨0, none⟩).setOfile p fd none) x p j =
        weight s (g p) p j + if i = j then 1 else 0 := by
      rw [hx]
      exact weight_cons (by rfl) (by rfl) (by rfl) j
    omega

namespace RefInv

/-- A step that changes only what a process knows of processes and descriptors. -/
theorem keep {s' : FsState P} (hr : RefInv s g) (hs : s' = { s with proc := s'.proc })
    (hx : x = { g p with closed := x.closed, child := x.child, up := x.up }) (hp : Procs s' (update g p x)) :
    RefInv s' (update g p x) := by
  have hw : ∀ j, weight s x p j = weight s (g p) p j := by
    rw [hx]
    exact fun _ => rfl
  have htok : x.tok = (g p).tok := by rw [hx]
  refine ⟨?_, ?_, ?_, hp⟩ <;> rw [hs]
  · apply hr.counts.move
    · exact fun _ _ => rfl
    · rfl
    · exact fun j => congrArg (· + Fs.files s j) (hw j)
    · rw [hx]
    · rw [htok]
      exact hr.counts.tok p
    · rw [hx]
      exact hr.counts.taken p
  · exact hr.locks.keep rfl rfl rfl (by rw [hx]) fun t ht => htok ▸ ht
  · exact ⟨hr.files.ref, hr.files.ip⟩

variable (hr : RefInv s g) (hup : (g p).up = true)
include hr hup

/-- A reference becomes that of a new open file. -/
theorem fopen {T : Multiset (Fin NINODE × Nat)}
    (hT : (g p).tok = (i, n) ::ₘ T) (hf : (s.file f).ref = 0) (hfd : s.ofile p fd = none) :
    RefInv ((s.setFile f ⟨1, some i⟩).setOfile p fd (some f)) (update g p { g p with tok := T, closed := [] }) := by
  have hip : (s.file f).ip = none := hr.files.ip f hf
  have hne : ∀ q fd', s.ofile q fd' ≠ some f := by
    intro q fd' hq
    have := hr.files.one_le hq
    omega
  have hof := ofile_setOfile (s := s.setFile f ⟨1, some i⟩) p fd (some f)
  have hfile : ∀ f', f' ≠ f → ((s.setFile f ⟨1, some i⟩).setOfile p fd (some f)).file f' = s.file f' :=
    fun f' he => update_of_ne he _ _
  refine ⟨?_, ?_, ?_, ?_⟩
  · apply hr.counts.move
    · exact fun _ _ => rfl
    · rfl
    · exact fopen_weight hT hip
    · rfl
    · intro t ht
      exact hr.counts.tok p t (hT ▸ Multiset.mem_cons_of_mem ht)
    · exact hr.counts.taken p
  · refine hr.locks.congr (fun _ => rfl) (fun _ _ _ _ => ⟨rfl, rfl⟩) (fun q j h fd' f' _ h1 h2 => ?_) (fun _ => rfl)
      fun t ht _ => ?_
    · have hf' : f' ≠ f := by
        rintro rfl
        exact hne q fd' h1
      have hq : ¬(q = p ∧ fd' = fd) := by
        rintro ⟨rfl, rfl⟩
        rw [hfd] at h1
        cases h1
      rw [hof, if_neg hq, hfile f' hf']
      exact ⟨h1, h2⟩
    · rw [hT] at ht
      obtain rfl | ht := Multiset.mem_cons.mp ht
      · refine .inr ⟨fd, f, ?_, ?_⟩
        · rw [hof, if_pos ⟨rfl, rfl⟩]
        · show (update s.file f ⟨1, some i⟩ f).ip = some i
          rw [update_self]
      · exact .inl ht
  · refine hr.files.set ?_ ?_ ?_ ?_
    · rw [hfd]
      exact fun _ _ => Option.some_ne_none _ ∘ Eq.symm
    · exact fun f' he h => he (Option.some.inj h).symm
    · rw [hfd, if_neg (Option.some_ne_none f).symm, if_pos rfl, hf]
    · exact fun h => absurd h Nat.one_ne_zero
  · exact hr.procs.setOfile (hr.procs.runnable hup) rfl rfl (ofile_of_ne (s := s.setFile f _) _) rfl fun _ h => absurd h List.not_mem_nil

/-- A descriptor that is not in use. -/
theorem closed (hfd : s.ofile p fd = none) : RefInv s (update g p { g p with closed := fd :: (g p).closed }) := by
  refine hr.keep rfl rfl (hr.procs.setOfile (hr.procs.runnable hup) rfl rfl (fun _ _ _ => rfl) rfl fun fd' h => ?_)
  obtain rfl | h := List.mem_cons.mp h
  · exact hfd
  · exact hr.procs.closed p fd' h

/-- A descriptor is closed, but its file has others. -/
theorem fcloseMore (hown : ∀ j, (g p).own j = none) (hfd : s.ofile p fd = some f) (hf : 1 < (s.file f).ref) :
    RefInv ((s.setFile f { s.file f with ref := (s.file f).ref - 1 }).setOfile p fd none)
      (update g p { g p with closed := fd :: (g p).closed }) := by
  have hof := ofile_setOfile (s := s.setFile f { s.file f with ref := (s.file f).ref - 1 }) p fd none
  have hip : ∀ f', (((s.setFile f { s.file f with ref := (s.file f).ref - 1 }).setOfile p fd none).file f').ip =
      (s.file f').ip := by
    intro f'
    by_cases he : f' = f <;> simp [FsState.setOfile, FsState.setFile, he]
  refine ⟨?_, ?_, ?_, ?_⟩
  · apply hr.counts.move
    · exact fun _ _ => rfl
    · rfl
    · intro j
      have h1 : Fs.files ((s.setFile f { s.file f with ref := (s.file f).ref - 1 }).setOfile p fd none) j =
          Fs.files s j := by simp only [Fs.files, hip]
      rw [h1]
      rfl
    · rfl
    · exact hr.counts.tok p
    · exact hr.counts.taken p
  · refine hr.locks.congr (fun _ => rfl) (fun _ _ _ _ => ⟨rfl, rfl⟩) (fun q j h fd' f' ho h1 h2 => ?_) (fun _ => rfl)
      fun _ ht _ => .inl ht
    have hq : q ≠ p := by
      rintro rfl
      rw [hown j] at ho
      cases ho
    rw [hof, if_neg fun h => hq h.1, hip]
    exact ⟨h1, h2⟩
  · refine hr.files.set ?_ ?_ ?_ ?_
    · exact fun f' he h => he (Option.some.inj (hfd.symm.trans h)).symm
    · exact fun _ _ => Option.some_ne_none _ ∘ Eq.symm
    · rw [if_pos hfd, if_neg (Option.some_ne_none f).symm]
      dsimp only
      omega
    · intro h
      dsimp only at h
      omega
  · refine hr.procs.setOfile (hr.procs.runnable hup) rfl rfl (ofile_of_ne (s := s.setFile f _) _) rfl fun fd' h => ?_
    rw [hof]
    split
    · rfl
    · next hn =>
      obtain rfl | h := List.mem_cons.mp h
      · exact absurd ⟨rfl, rfl⟩ hn
      · exact hr.procs.closed p fd' h

/-- The last descriptor of a file is closed. -/
theorem fcloseLast (hown : ∀ j, (g p).own j = none) (hfd : s.ofile p fd = some f) (hf : (s.file f).ref = 1)
    (hx : x = { g p with closed := fd :: (g p).closed, tok := match (s.file f).ip with
      | none => (g p).tok
      | some i => (i, (s.tab i).inum) ::ₘ (g p).tok }) :
    RefInv ((s.setFile f ⟨0, none⟩).setOfile p fd none) (update g p x) := by
  have hof := ofile_setOfile (s := s.setFile f ⟨0, none⟩) p fd none
  have hfile : ∀ f', f' ≠ f → ((s.setFile f ⟨0, none⟩).setOfile p fd none).file f' = s.file f' :=
    fun f' he => update_of_ne he _ _
  have hsub : ∀ t ∈ (g p).tok, t ∈ x.tok := by
    intro t ht
    rw [hx]
    split
    · exact ht
    · exact Multiset.mem_cons_of_mem ht
  refine ⟨?_, ?_, ?_, ?_⟩
  · apply hr.counts.move
    · exact fun _ _ => rfl
    · rfl
    · exact fcloseLast_weight hx
    · rw [hx]
    · intro t ht
      rw [hx] at ht
      split at ht
      · exact hr.counts.tok p t ht
      · obtain rfl | ht := Multiset.mem_cons.mp ht
        · rfl
        · exact hr.counts.tok p t ht
    · rw [hx]
      exact hr.counts.taken p
  · refine hr.locks.congr (fun _ => rfl) (fun _ _ _ _ => ⟨rfl, rfl⟩) (fun q j h fd' f' ho h1 h2 => ?_)
      (fun _ => by rw [hx]) fun t ht _ => .inl (hsub t ht)
    have hq : q ≠ p := by
      rintro rfl
      rw [hown j] at ho
      cases ho
    have hf' : f' ≠ f := by
      rintro rfl
      have := hr.files.two_le hq hfd h1
      omega
    rw [hof, if_neg fun h => hq h.1, hfile f' hf']
    exact ⟨h1, h2⟩
  · refine hr.files.set ?_ ?_ ?_ ?_
    · exact fun f' he h => he (Option.some.inj (hfd.symm.trans h)).symm
    · exact fun _ _ => Option.some_ne_none _ ∘ Eq.symm
    · rw [if_pos hfd, if_neg (Option.some_ne_none f).symm, hf]
    · exact fun _ => rfl
  · refine hr.procs.setOfile (hr.procs.runnable hup) rfl rfl (ofile_of_ne (s := s.setFile f _) _) (by rw [hx])
      fun fd' h => ?_
    rw [hof]
    split
    · rfl
    · next hn =>
      rw [hx] at h
      obtain rfl | h := List.mem_cons.mp h
      · exact absurd ⟨rfl, rfl⟩ hn
      · exact hr.procs.closed p fd' h

end RefInv

end OpenFiles

/-! ## Processes -/

section Processes

variable {s : FsState P} {g : P → Ghost P} {p np : P} {i : Fin NINODE} {fd : Fin NOFILE}

/-- The child's current directory. -/
def forked (s : FsState P) (np : P) (i : Fin NINODE) : FsState P :=
  ((s.incRef i).setCwd np (some i)).setProc np .runnable

namespace RefInv

variable (hr : RefInv s g)
include hr

/-- A process that starts a call is runnable. -/
theorem start (hrun : s.proc p = .runnable) : RefInv s (update g p { g p with up := true }) :=
  hr.keep rfl rfl (hr.procs.setOfile hrun rfl rfl (fun _ _ _ => rfl) rfl (hr.procs.closed p))

omit hr in
/-- The processes, when `p` goes on with another child. At most `np` has changed, which does not run, and which nobody else
is making. -/
theorem children {s' : FsState P} {c : Option (P × List (Fin NOFILE))} (hp : Procs s g) (hnp : s.proc np ≠ .runnable)
    (hproc : ∀ q, q ≠ np → s'.proc q = s.proc q) (hcwd : ∀ q, q ≠ np → s'.cwd q = s.cwd q)
    (hof : ∀ q, q ≠ np → s'.ofile q = s.ofile q) (hidle : s'.proc np ≠ .runnable → s'.cwd np = none)
    (hun : s'.proc np = .unused → ∀ fd, s'.ofile np fd = none) (hnew : ∀ q l, q ≠ p → (g q).child ≠ some (np, l))
    (hc : ∀ np' l, c = some (np', l) → np' = np ∧ s'.proc np = .used ∧ l.Nodup ∧ ∀ fd ∈ l, s'.ofile np fd = none) :
    Procs s' (update g p { g p with child := c }) := by
  have hcl : ∀ q, (update g p { g p with child := c } q).closed = (g q).closed := proj_update Ghost.closed rfl
  have hup : ∀ q, (update g p { g p with child := c } q).up = (g q).up := proj_update Ghost.up rfl
  have hchild : ∀ q np' l, (update g p { g p with child := c } q).child = some (np', l) →
      (q = p ∧ c = some (np', l)) ∨ (q ≠ p ∧ (g q).child = some (np', l)) := by
    intro q np' l hq
    by_cases he : q = p
    · rw [he, update_self] at hq
      exact .inl ⟨he, hq⟩
    · rw [update_of_ne he] at hq
      exact .inr ⟨he, hq⟩
  constructor
  · intro q hq
    rw [hcl, hup]
    by_cases he : q = np
    · rw [he] at hq ⊢
      exact ⟨hidle hq, (hp.idle np hnp).2⟩
    · rw [hproc q he] at hq
      rw [hcwd q he]
      exact hp.idle q hq
  · intro q hq
    by_cases he : q = np
    · rw [he] at hq ⊢
      exact hun hq
    · rw [hproc q he] at hq
      rw [hof q he]
      exact hp.unused q hq
  · intro q fd hq
    rw [hcl] at hq
    have he : q ≠ np := by
      rintro rfl
      rw [(hp.idle q hnp).2.1] at hq
      cases hq
    rw [hof q he]
    exact hp.closed q fd hq
  · intro q np' l hq
    rcases hchild q np' l hq with ⟨-, hq⟩ | ⟨hqp, hq⟩
    · obtain ⟨rfl, hc⟩ := hc np' l hq
      exact hc
    · have he : np' ≠ np := by
        rintro rfl
        exact hnew q l hqp hq
      rw [hproc np' he, hof np' he]
      exact hp.child q np' l hq
  · intro q q' np' l l' hq hq'
    rcases hchild q np' l hq with ⟨rfl, h1⟩ | ⟨hqp, h1⟩ <;> rcases hchild q' np' l' hq' with ⟨rfl, h2⟩ | ⟨hqp', h2⟩
    · rfl
    · obtain ⟨rfl, -⟩ := hc np' l h1
      exact absurd h2 (hnew q' l' hqp')
    · obtain ⟨rfl, -⟩ := hc np' l' h2
      exact absurd h1 (hnew q l hqp)
    · exact hp.childOne q q' np' l l' h1 h2

/-- `kfork` has found a process to use. -/
theorem allocproc (hn : s.proc np = .unused) :
    RefInv (s.setProc np .used) (update g p { g p with child := some (np, List.finRange NOFILE) }) := by
  have hne : s.proc np ≠ .runnable := by
    rw [hn]
    exact nofun
  have hnp : (s.setProc np .used).proc np = .used := update_self ..
  refine hr.keep rfl rfl ?_
  refine children hr.procs hne (fun q hq => update_of_ne hq ..) (fun _ _ => rfl) (fun _ _ => rfl)
    (fun _ => (hr.procs.idle np hne).1) (fun h => ?_) (fun q l _ hc => ?_) fun np' l hc => ?_
  · cases hnp.symm.trans h
  · -- nobody makes a child of `np` yet: its state would not be unused
    rw [(hr.procs.child q np l hc).1] at hn
    cases hn
  · cases hc
    exact ⟨rfl, hnp, List.nodup_finRange NOFILE, fun fd _ => hr.procs.unused _ hn fd⟩

/-- The processes, while `kfork` copies descriptors to a child. -/
theorem childOk {s' : FsState P} {l' : List (Fin NOFILE)}
    (hch : (g p).child = some (np, fd :: l')) (hproc : s'.proc = s.proc) (hcwd : s'.cwd = s.cwd)
    (hof : ∀ q fd', ¬(q = np ∧ fd' = fd) → s'.ofile q fd' = s.ofile q fd') :
    Procs s' (update g p { g p with child := some (np, l') }) := by
  obtain ⟨hused, hnodup, hnone⟩ := hr.procs.child p np _ hch
  have hne : s.proc np ≠ .runnable := by
    rw [hused]
    exact nofun
  refine children hr.procs hne (fun q _ => by rw [hproc]) (fun q _ => by rw [hcwd])
    (fun q hq => funext fun fd' => hof q fd' fun h => hq h.1) (fun _ => ?_) (fun h => ?_) (fun q l hq h => ?_) fun np' l hc => ?_
  · rw [hcwd]
    exact (hr.procs.idle np hne).1
  · rw [hproc, hused] at h
    cases h
  · exact hq (hr.procs.childOne q p np l _ h hch)
  · cases hc
    rw [hproc]
    refine ⟨rfl, hused, (List.nodup_cons.mp hnodup).2, fun fd' hfd => ?_⟩
    have hfd' : fd' ≠ fd := by
      rintro rfl
      exact (List.nodup_cons.mp hnodup).1 hfd
    rw [hof _ fd' fun h => hfd' h.2]
    exact hnone fd' (List.mem_cons_of_mem fd hfd)

/-- A descriptor that is not in use is not copied. -/
theorem filedupNone (hch : (g p).child = some (np, fd :: l)) :
    RefInv s (update g p { g p with child := some (np, l) }) :=
  hr.keep rfl rfl (hr.childOk hch rfl rfl fun _ _ _ => rfl)

/-- A descriptor is copied to a child. -/
theorem filedup {f : Fin NFILE} (hch : (g p).child = some (np, fd :: l)) :
    RefInv ((s.setFile f { s.file f with ref := (s.file f).ref + 1 }).setOfile np fd (some f))
      (update g p { g p with child := some (np, l) }) := by
  have hof := ofile_setOfile (s := s.setFile f { s.file f with ref := (s.file f).ref + 1 }) np fd (some f)
  have hnone : s.ofile np fd = none := (hr.procs.child p np _ hch).2.2 fd List.mem_cons_self
  have hip : ∀ f', (((s.setFile f { s.file f with ref := (s.file f).ref + 1 }).setOfile np fd (some f)).file f').ip =
      (s.file f').ip := by
    intro f'
    by_cases he : f' = f <;> simp [FsState.setOfile, FsState.setFile, he]
  refine ⟨?_, ?_, ?_, ?_⟩
  · apply hr.counts.move
    · exact fun _ _ => rfl
    · rfl
    · intro j
      have h1 : Fs.files ((s.setFile f { s.file f with ref := (s.file f).ref + 1 }).setOfile np fd (some f)) j =
          Fs.files s j := by simp only [Fs.files, hip]
      rw [h1]
      rfl
    · rfl
    · exact hr.counts.tok p
    · exact hr.counts.taken p
  · refine hr.locks.congr (fun _ => rfl) (fun _ _ _ _ => ⟨rfl, rfl⟩) (fun q j h fd' f' ho h1 h2 => ?_) (fun _ => rfl)
      fun _ ht _ => .inl ht
    have hq : ¬(q = np ∧ fd' = fd) := by
      rintro ⟨rfl, rfl⟩
      rw [hnone] at h1
      cases h1
    rw [hof, if_neg hq, hip]
    exact ⟨h1, h2⟩
  · refine hr.files.set ?_ ?_ ?_ ?_
    · rw [hnone]
      exact fun _ _ => Option.some_ne_none _ ∘ Eq.symm
    · exact fun f' he h => he (Option.some.inj h).symm
    · rw [hnone, if_neg (Option.some_ne_none f).symm, if_pos rfl]
    · exact fun h => absurd h (Nat.succ_ne_zero _)
  · exact hr.childOk hch rfl rfl fun q fd' hq => by rw [hof, if_neg hq]; rfl

/-- The references to an entry when the child's current directory is one. -/
theorem forked_live (hch : (g p).child = some (np, l)) (hc : s.cwd p = some i) (j : Fin NINODE) :
    live (forked s np i) (update g p { g p with child := none }) j = live s g j + if i = j then 1 else 0 := by
  have hnone : s.cwd np = none := (hr.procs.idle np (by rw [(hr.procs.child p np l hch).1]; exact nofun)).1
  have hnp : np ≠ p := by
    rintro rfl
    rw [hc] at hnone
    cases hnone
  have htaken : (g np).taken = false := by
    by_contra ht
    exact hr.counts.taken np (by simpa using ht) hnone
  have hcwd : ∀ q, q ≠ np → (forked s np i).cwd q = s.cwd q := fun q hq => by
    simp [forked, FsState.setProc, FsState.setCwd, FsState.incRef, FsState.setTab, hq]
  have hsum := sum_change Finset.univ (fun q => weight s (g q) q j)
    (fun q => weight (forked s np i) (update g p { g p with child := none } q) q j) np (Finset.mem_univ np) fun q hq => by
      by_cases hqp : q = p
      · subst hqp
        simp only [update_self, weight, hcwd q hq]
      · simp only [update_of_ne hqp, weight, hcwd q hq]
  have h1 : weight (forked s np i) (g np) np j = weight s (g np) np j + if i = j then 1 else 0 := by
    simp [weight, hnone, htaken, forked, FsState.setProc, FsState.setCwd]
  rw [update_of_ne hnp] at hsum
  have h2 : Fs.files (forked s np i) j = Fs.files s j := rfl
  unfold live
  omega

/-- **The child shares the parent's current directory.** -/
theorem forkCwd (hch : (g p).child = some (np, l)) (hc : s.cwd p = some i)
    (ht : (g p).taken = false) : RefInv (forked s np i) (update g p { g p with child := none }) := by
  have hpos : 0 < (s.tab i).ref := by
    refine Nat.lt_of_lt_of_le ?_ (hr.live_le i)
    refine Nat.lt_of_lt_of_le ?_ (weight_le_live p i)
    simp [weight, ht, hc]
  have hcwd : ∀ q, q ≠ np → (forked s np i).cwd q = s.cwd q := fun q hq => by
    simp [forked, FsState.setProc, FsState.setCwd, FsState.incRef, FsState.setTab, hq]
  have hnpcwd : (forked s np i).cwd np = some i := by simp [forked, FsState.setProc, FsState.setCwd]
  have hproc : ∀ q, q ≠ np → (forked s np i).proc q = s.proc q := fun q hq => by
    simp [forked, FsState.setProc, FsState.setCwd, FsState.incRef, FsState.setTab, hq]
  have hnpproc : (forked s np i).proc np = .runnable := by simp [forked, FsState.setProc]
  have hinum : ∀ j, ((forked s np i).tab j).inum = (s.tab j).inum := FsState.incRef_inum
  have hrefpos : ∀ j, 0 < ((forked s np i).tab j).ref → 0 < (s.tab j).ref := by
    intro j hj
    by_cases he : j = i
    · rwa [he]
    · have : (forked s np i).tab j = s.tab j := FsState.setTab_of_ne _ he
      rwa [this] at hj
  have htok : ∀ q, (update g p { g p with child := none } q).tok = (g q).tok := proj_update Ghost.tok rfl
  have htaken : ∀ q, (update g p { g p with child := none } q).taken = (g q).taken := proj_update Ghost.taken rfl
  refine ⟨⟨?_, ?_, ?_, ?_⟩, ?_, ⟨hr.files.ref, hr.files.ip⟩, ?_⟩
  · intro j
    have h1 := hr.counts.ref j
    have h2 := forked_live hr hch hc j
    have h3 : doomed (update g p { g p with child := none }) j + (g p).deadAt j =
        doomed g j + (g p).deadAt j := doomed_update j
    by_cases hj : j = i
    · subst hj
      have h4 : ((forked s np j).tab j).ref = (s.tab j).ref + 1 := by
        show ((s.incRef j).tab j).ref = _
        rw [FsState.incRef, FsState.setTab_self]
      rw [if_pos rfl] at h2
      omega
    · have h4 : (forked s np i).tab j = s.tab j := FsState.setTab_of_ne _ hj
      rw [h4]
      rw [if_neg (Ne.symm hj)] at h2
      omega
  · intro j k hj hk he
    rw [hinum, hinum] at he
    exact hr.counts.uniq j k (hrefpos j hj) (hrefpos k hk) he
  · intro q t h
    rw [htok] at h
    rw [hinum]
    exact hr.counts.tok q t h
  · intro q h
    rw [htaken] at h
    by_cases hq : q = np
    · rw [hq, hnpcwd]
      exact Option.some_ne_none i
    · rw [hcwd q hq]
      exact hr.counts.taken q h
  · have := hr.locks.setTab (e := { s.tab i with ref := (s.tab i).ref + 1 })
      (x := { g p with child := none }) rfl (fun _ _ _ => ⟨rfl, rfl⟩) (fun _ => rfl) fun _ ht _ => ht
    exact ⟨this.lock, this.own⟩
  · have hne : s.proc np ≠ .runnable := by
      rw [(hr.procs.child p np l hch).1]
      decide
    refine children hr.procs hne hproc hcwd (fun _ _ => rfl) (fun h => absurd hnpproc h) (fun h => ?_)
      (fun q l' hq h => hq (hr.procs.childOne q p np l' l h hch)) fun _ _ h => by cases h
    cases hnpproc.symm.trans h

/-- The process gives up its current directory, whose reference `iput` has taken. -/
theorem exit (hx : g p = { Ghost.empty with taken := true, closed := (g p).closed, up := (g p).up })
    (hcl : ∀ fd, fd ∈ (g p).closed) :
    RefInv ((s.setCwd p none).setProc p .unused) (update g p Ghost.empty) := by
  have hcwd : ∀ q, q ≠ p → ((s.setCwd p none).setProc p .unused).cwd q = s.cwd q := fun q hq => by
    simp [FsState.setProc, FsState.setCwd, hq]
  have hproc : ∀ q, q ≠ p → ((s.setCwd p none).setProc p .unused).proc q = s.proc q := fun q hq => by
    simp [FsState.setProc, FsState.setCwd, hq]
  have hrun : s.proc p = .runnable := by
    by_contra hn
    refine hr.counts.taken p ?_ (hr.procs.idle p hn).1
    rw [hx]
  refine ⟨?_, ?_, ⟨hr.files.ref, hr.files.ip⟩, ⟨?_, ?_, ?_, ?_, ?_⟩⟩
  · apply hr.counts.move hcwd
    · rfl
    · intro j
      have h1 : weight ((s.setCwd p none).setProc p .unused) Ghost.empty p j = 0 := by
        simp [weight, Ghost.empty, FsState.setProc, FsState.setCwd]
      have h2 : weight s (g p) p j = 0 := by
        rw [hx]
        simp [weight, Ghost.empty]
      rw [h1, h2]
      rfl
    · rw [hx]
    · exact fun t ht => absurd ht (Multiset.notMem_zero t)
    · exact fun h => absurd h Bool.false_ne_true
  · refine hr.locks.keep rfl rfl rfl (by rw [hx]) fun t ht => ?_
    rw [hx] at ht
    exact ht
  · intro q hq
    by_cases hqp : q = p
    · subst hqp
      simp [FsState.setProc, FsState.setCwd, Ghost.empty]
    · rw [hproc q hqp] at hq
      rw [hcwd q hqp, update_of_ne hqp]
      exact hr.procs.idle q hq
  · intro q hq fd
    by_cases hqp : q = p
    · subst hqp
      exact hr.procs.closed q fd (hcl fd)
    · rw [hproc q hqp] at hq
      exact hr.procs.unused q hq fd
  · intro q fd h
    by_cases hqp : q = p
    · subst hqp
      exact hr.procs.closed q fd (hcl fd)
    · rw [update_of_ne hqp] at h
      exact hr.procs.closed q fd h
  · intro q c l h
    by_cases hqp : q = p
    · subst hqp
      rw [update_self] at h
      cases h
    · rw [update_of_ne hqp] at h
      obtain ⟨h1, h2⟩ := hr.procs.child q c l h
      have hcp : c ≠ p := by
        rintro rfl
        rw [hrun] at h1
        cases h1
      rw [hproc c hcp]
      exact ⟨h1, h2⟩
  · intro q q' c l l' h h'
    have hne : ∀ r c l, (update g p Ghost.empty r).child = some (c, l) → (g r).child = some (c, l) := by
      intro r c l h
      by_cases hr' : r = p
      · subst hr'
        rw [update_self] at h
        cases h
      · rwa [update_of_ne hr'] at h
    exact hr.procs.childOne q q' c l l' (hne q c l h) (hne q' c l' h')

end RefInv

end Processes

end Xv6.Fs
