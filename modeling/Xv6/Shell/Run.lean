import Mathlib.Data.List.Infix
import Mathlib.Logic.Function.Basic
import Xv6.Shell.Grammar

/-!
# Running a command

`runcmd` of `sh.c`, on the descriptors of the processes that it forks. `open` and `dup` hand out the lowest descriptor that
is free (`fdalloc` of `sysfile.c`), and `runcmd` does not look at the number it gets: a redirection goes to the descriptor
it is meant for because those below it are open.

- `runcmd_descriptors`: every program starts with the descriptors that the command says, whatever calls fail on the way;
- `pipe_ends_private`: nobody but the left side of a pipeline has the write end, nobody but the right side the read end;
- `main_descriptors`: the loop at the start of `main` opens what `runcmd` relies on.

A process is what it does up to `exec` or `exit`, with the table of its descriptors at `exec` and while it waits. `fork`,
`pipe` and `open` may fail where `Env` says so, and where no descriptor is free.
-/

namespace Xv6.Shell

open Function (update update_self update_of_ne)

variable {W : Type}

abbrev NOFILE : Nat := 16
/-- A place in a command: the way to it, last step first. -/
abbrev Place := List Bool

/-- What a descriptor stands for. A pipe is known by the place of its command. -/
inductive Obj (W : Type)
  /-- Open before. -/
  | given (n : Nat)
  | file (name : W) (mode : Nat)
  | readEnd (π : Place)
  | writeEnd (π : Place)

/-- `p->ofile`. -/
abbrev Ofile (W : Type) := Nat → Option (Obj W)

/-! ## System calls -/

/-- `fdalloc`: the lowest free descriptor. -/
def fdalloc (t : Ofile W) : Option Nat := (List.range NOFILE).find? fun fd => (t fd).isNone

/-- `close(fd)`. -/
def close (t : Ofile W) (fd : Nat) : Ofile W := if fd < NOFILE then update t fd none else t

/-- `dup(fd)`; the shell does not look at its result. -/
def dup (t : Ofile W) (fd : Nat) : Ofile W :=
  if fd < NOFILE then ((t fd).bind fun o => (fdalloc t).map fun n => update t n (some o)).getD t else t

/-- `open`, where `ok` says whether the file can be opened. -/
def openFile (ok : Bool) (o : Obj W) (t : Ofile W) : Option (Nat × Ofile W) :=
  if ok then (fdalloc t).map fun fd => (fd, update t fd (some o)) else none

/-- `pipe(p)`, where `ok` says whether there is memory for it. -/
def pipe (ok : Bool) (π : Place) (t : Ofile W) : Option (Nat × Nat × Ofile W) :=
  if ok then (fdalloc t).bind fun fd0 =>
    (fdalloc (update t fd0 (some (.readEnd π)))).map fun fd1 =>
      (fd0, fd1, update (update t fd0 (some (.readEnd π))) fd1 (some (.writeEnd π)))
  else none

/-- Which calls the kernel lets succeed, by the place of the command; a pipeline forks twice. -/
structure Env where
  opens : Place → Bool
  pipes : Place → Bool
  forks : Place → Bool → Bool

/-! ## `runcmd` -/

/-- What a process does, and those that it forks. -/
inductive Proc (W : Type)
  | exit (status : Nat)
  /-- `exec`, and `exit(0)` if it fails. -/
  | exec (argv : List W) (t : Ofile W)
  | fork (child parent : Proc W)
  | wait (t : Ofile W) (rest : Proc W)

/-- `runcmd(cmd)`; `panic` is `exit(1)`. -/
def runcmd (env : Env) : Cmd W → Place → Ofile W → Proc W
  | .exec [], _, _ => .exit 1
  | .exec (w :: ws), _, t => .exec (w :: ws) t
  | .redir cmd file mode fd, π, t =>
    match openFile (env.opens π) (.file file mode) (close t fd) with
    | none => .exit 1
    | some (_, t) => runcmd env cmd (false :: π) t
  | .list left right, π, t =>
    if env.forks π false then .fork (runcmd env left (false :: π) t) (.wait t (runcmd env right (true :: π) t)) else .exit 1
  | .pipe left right, π, t =>
    match pipe (env.pipes π) π t with
    | none => .exit 1
    | some (p0, p1, t) =>
      if env.forks π false then
        .fork (runcmd env left (false :: π) (close (close (dup (close t 1) p1) p0) p1)) <|
          if env.forks π true then
            .fork (runcmd env right (true :: π) (close (close (dup (close t 0) p0) p0) p1)) <|
              .wait (close (close t p0) p1) (.wait (close (close t p0) p1) (.exit 0))
          else .exit 1
      else .exit 1
  | .back cmd, π, t => if env.forks π false then .fork (runcmd env cmd (false :: π) t) (.exit 0) else .exit 1

/-- The programs that are started, with their descriptors. -/
def Proc.execs : Proc W → List (List W × Ofile W)
  | .exit _ => []
  | .exec argv t => [(argv, t)]
  | .fork child parent => child.execs ++ parent.execs
  | .wait _ rest => rest.execs

/-- The programs of a command and the descriptors they are meant to have. -/
def intended : Cmd W → Place → Ofile W → List (List W × Ofile W)
  | .exec [], _, _ => []
  | .exec (w :: ws), _, t => [(w :: ws, t)]
  | .redir cmd file mode fd, π, t => intended cmd (false :: π) (update t fd (some (.file file mode)))
  | .list left right, π, t => intended left (false :: π) t ++ intended right (true :: π) t
  | .pipe left right, π, t =>
    intended left (false :: π) (update t 1 (some (.writeEnd π))) ++
      intended right (true :: π) (update t 0 (some (.readEnd π)))
  | .back cmd, π, t => intended cmd (false :: π) t

/-! ## Tables -/

/-- The standard descriptors are open. -/
def Std (t : Ofile W) : Prop := ∀ i ≤ 2, t i ≠ none

/-- There are two free descriptors, for a pipe. -/
def Room (t : Ofile W) : Prop := ∃ a b, a < b ∧ b < NOFILE ∧ t a = none ∧ t b = none

variable {t t' : Ofile W} {fd p0 p1 : Nat} {o : Obj W} {env : Env} {cmd : Cmd W} {π ρ : Place}

theorem fdalloc_iff : fdalloc t = some fd ↔ fd < NOFILE ∧ t fd = none ∧ ∀ j < fd, t j ≠ none := by
  simp [fdalloc, List.find?_range_eq_some, Option.isNone_iff_eq_none, Option.isSome_iff_ne_none, and_left_comm]

theorem fdalloc_isSome (h : fd < NOFILE) (ht : t fd = none) : ∃ n, fdalloc t = some n := by
  apply Option.isSome_iff_exists.mp
  rw [fdalloc, List.find?_isSome]
  exact ⟨fd, List.mem_range.mpr h, by rw [ht]; rfl⟩

theorem Std.update (ht : Std t) (fd : Nat) (o : Obj W) : Std (update t fd (some o)) := by
  intro i hi
  by_cases h : i = fd
  · rw [h, update_self]
    exact Option.some_ne_none o
  · rw [update_of_ne h]
    exact ht i hi

/-- What is free is none of the standard descriptors. -/
theorem Std.lt (ht : Std t) (h : t fd = none) : 2 < fd := Nat.lt_of_not_le fun hle => ht fd hle h

theorem Room.update (hr : Room t) (ht : Std t) (hfd : fd ≤ 2) (o : Obj W) : Room (update t fd (some o)) := by
  obtain ⟨a, b, hab, hb, ha0, hb0⟩ := hr
  have ha := ht.lt ha0
  refine ⟨a, b, hab, hb, ?_, ?_⟩
  · rw [update_of_ne (by omega), ha0]
  · rw [update_of_ne (by omega), hb0]

/-- The descriptor that was just closed is the lowest free one. -/
theorem fdalloc_close (ht : Std t) (hfd : fd ≤ 2) : fdalloc (close t fd) = some fd := by
  have hlt : fd < NOFILE := Nat.lt_of_le_of_lt hfd (by decide)
  rw [fdalloc_iff, close, if_pos hlt, update_self]
  refine ⟨hlt, rfl, fun j hj => ?_⟩
  rw [update_of_ne (by omega)]
  exact ht j (by omega)

/-- **A redirection goes where it is meant to.** -/
theorem openFile_close (ht : Std t) (hfd : fd ≤ 2) (ok : Bool) :
    openFile ok o (close t fd) = if ok then some (fd, update t fd (some o)) else none := by
  rw [openFile, fdalloc_close ht hfd, close, if_pos (Nat.lt_of_le_of_lt hfd (by decide))]
  simp

/-- A pipe gets two descriptors that were free. -/
theorem pipe_some {ok : Bool} (h : pipe ok π t = some (p0, p1, t')) :
    p0 < NOFILE ∧ p1 < NOFILE ∧ t p0 = none ∧ t p1 = none ∧ p0 ≠ p1 ∧
      t' = update (update t p0 (some (.readEnd π))) p1 (some (.writeEnd π)) := by
  unfold pipe at h
  split at h
  · obtain ⟨a, ha, h⟩ := Option.bind_eq_some_iff.mp h
    obtain ⟨b, hb, he⟩ := Option.map_eq_some_iff.mp h
    cases he
    obtain ⟨h1, h2, -⟩ := fdalloc_iff.mp ha
    obtain ⟨h3, h4, -⟩ := fdalloc_iff.mp hb
    have hne : p1 ≠ p0 := by
      rintro rfl
      rw [update_self] at h4
      cases h4
    rw [update_of_ne hne] at h4
    exact ⟨h1, h3, h2, h4, hne.symm, rfl⟩
  · cases h

/-- There is always a pipe if there is room. -/
theorem pipe_isSome (hr : Room t) (π : Place) : ∃ x, pipe true π t = some x := by
  obtain ⟨a, b, hab, hb, ha0, hb0⟩ := hr
  obtain ⟨p0, h0⟩ := fdalloc_isSome (show a < NOFILE by omega) ha0
  have hfree : ∃ c < NOFILE, update t p0 (some (.readEnd π)) c = none := by
    by_cases h : p0 = a
    · exact ⟨b, hb, by rw [update_of_ne (by omega), hb0]⟩
    · exact ⟨a, by omega, by rw [update_of_ne (Ne.symm h), ha0]⟩
  obtain ⟨c, hc, hc0⟩ := hfree
  obtain ⟨p1, h1⟩ := fdalloc_isSome hc hc0
  exact ⟨_, by rw [pipe, if_pos rfl, h0, Option.bind_some, h1, Option.map_some]⟩

/-- One side of a pipeline closes a standard descriptor, gets the end `p` of the pipe there, and closes both ends. -/
theorem side_eq {ok : Bool} {p : Nat} (ht : Std t) (h : pipe ok π t = some (p0, p1, t')) (hfd : fd ≤ 2)
    (ho : t' p = some o) (hp : p = p0 ∨ p = p1) : close (close (dup (close t' fd) p) p0) p1 = update t fd (some o) := by
  obtain ⟨h0, h1, hf0, hf1, hne, rfl⟩ := pipe_some h
  have h2 := ht.lt hf0
  have h3 := ht.lt hf1
  have hstd := (ht.update p0 (.readEnd π)).update p1 (.writeEnd π)
  have hdup : dup (close (update (update t p0 (some (.readEnd π))) p1 (some (.writeEnd π))) fd) p =
      update (update (update t p0 (some (.readEnd π))) p1 (some (.writeEnd π))) fd (some o) := by
    rw [dup, if_pos (by omega), fdalloc_close hstd hfd, close, if_pos (by omega), update_of_ne (by omega), ho]
    simp
  rw [hdup, close, close, if_pos h0, if_pos h1]
  funext i
  simp only [Function.update_apply]
  split
  · next h => rw [if_neg (by omega), h, hf1]
  · split
    · next h => rw [if_neg (by omega), h, hf0]
    · rfl

/-- The shell itself closes both ends. -/
theorem parent_eq {ok : Bool} (h : pipe ok π t = some (p0, p1, t')) : close (close t' p0) p1 = t := by
  obtain ⟨h0, h1, hf0, hf1, hne, rfl⟩ := pipe_some h
  rw [close, close, if_pos h0, if_pos h1]
  funext i
  simp only [Function.update_apply]
  split
  · next h => rw [h, hf1]
  · split
    · next h => rw [h, hf0]
    · rfl

/-! ## Commands -/

/-- Redirections are of standard descriptors. -/
def Cmd.Std : Cmd W → Prop
  | .exec _ => True
  | .redir cmd _ _ fd => fd ≤ 2 ∧ cmd.Std
  | .pipe left right | .list left right => left.Std ∧ right.Std
  | .back cmd => cmd.Std

/-- `runcmd` on a pipeline, with the tables that its processes end up with. -/
theorem runcmd_pipe {left right : Cmd W} (ht : Std t) : runcmd env (.pipe left right) π t =
    if (pipe (env.pipes π) π t).isSome ∧ env.forks π false then
      .fork (runcmd env left (false :: π) (update t 1 (some (.writeEnd π)))) <|
        if env.forks π true then
          .fork (runcmd env right (true :: π) (update t 0 (some (.readEnd π)))) (.wait t (.wait t (.exit 0)))
        else .exit 1
    else .exit 1 := by
  rw [runcmd]
  split
  · next h => simp [h]
  · next p0 p1 t' h =>
    obtain ⟨-, -, -, -, hne, he⟩ := pipe_some h
    have h1 : t' p1 = some (.writeEnd π) := by rw [he, update_self]
    have h0 : t' p0 = some (.readEnd π) := by rw [he, update_of_ne hne, update_self]
    rw [side_eq ht h (show 1 ≤ 2 by omega) h1 (.inr rfl), side_eq ht h (Nat.zero_le 2) h0 (.inl rfl), parent_eq h]
    simp [h]

theorem runcmd_redir {file : W} {mode : Nat} (ht : Std t) (hfd : fd ≤ 2) : runcmd env (.redir cmd file mode fd) π t =
    if env.opens π then runcmd env cmd (false :: π) (update t fd (some (.file file mode))) else .exit 1 := by
  rw [runcmd, openFile_close ht hfd]
  cases env.opens π <;> rfl

/-- Whatever fails, no program is started with other descriptors. -/
theorem execs_sublist (hc : cmd.Std) (ht : Std t) : (runcmd env cmd π t).execs.Sublist (intended cmd π t) := by
  induction cmd generalizing π t with
  | exec argv => cases argv <;> exact .refl _
  | redir cmd file mode fd ih =>
    rw [runcmd_redir ht hc.1]
    split
    · exact ih hc.2 (ht.update fd _)
    · exact List.nil_sublist _
  | pipe left right ihl ihr =>
    rw [runcmd_pipe ht]
    split
    · split
      · simp only [Proc.execs, List.append_nil]
        exact (ihl hc.1 (ht.update 1 _)).append (ihr hc.2 (ht.update 0 _))
      · simp only [Proc.execs, List.append_nil]
        exact (ihl hc.1 (ht.update 1 _)).trans (List.sublist_append_left _ _)
    · exact List.nil_sublist _
  | list left right ihl ihr =>
    rw [runcmd]
    split
    · exact (ihl hc.1 ht).append (ihr hc.2 ht)
    · exact List.nil_sublist _
  | back cmd ih =>
    rw [runcmd]
    split
    · simp only [Proc.execs, List.append_nil]
      exact ih hc ht
    · exact List.nil_sublist _

/-- No call fails. -/
def Env.Works (env : Env) : Prop := ∀ π, env.opens π = true ∧ env.pipes π = true ∧ ∀ b, env.forks π b = true

theorem execs_eq (he : env.Works) (hc : cmd.Std) (ht : Std t) (hr : Room t) :
    (runcmd env cmd π t).execs = intended cmd π t := by
  induction cmd generalizing π t with
  | exec argv => cases argv <;> rfl
  | redir cmd file mode fd ih =>
    rw [runcmd_redir ht hc.1, if_pos (he π).1]
    exact ih hc.2 (ht.update fd _) (hr.update ht hc.1 _)
  | pipe left right ihl ihr =>
    obtain ⟨x, hp⟩ := pipe_isSome hr π
    rw [runcmd_pipe ht, (he π).2.1, hp, if_pos ⟨rfl, (he π).2.2 false⟩, if_pos ((he π).2.2 true)]
    simp only [Proc.execs, List.append_nil, intended]
    rw [ihl hc.1 (ht.update 1 _) (hr.update ht (by omega) _), ihr hc.2 (ht.update 0 _) (hr.update ht (by omega) _)]
  | list left right ihl ihr =>
    rw [runcmd, if_pos ((he π).2.2 false)]
    simp only [Proc.execs, intended]
    rw [ihl hc.1 ht hr, ihr hc.2 ht hr]
  | back cmd ih =>
    rw [runcmd, if_pos ((he π).2.2 false)]
    simp only [Proc.execs, List.append_nil, intended]
    exact ih hc ht hr

/-! ## Commands that the parser makes -/

theorem redirOp_fd {c : Char} {mode : Nat} (h : redirOp c = some (mode, fd)) : fd ≤ 2 := by
  grind [redirOp]

theorem Redirs.std {ts : List (Token W)} {rs : List (Redir W)} (h : Redirs ts rs) : ∀ r ∈ rs, r.fd ≤ 2 := by
  induction h with
  | nil => simp
  | cons hc _ ih => exact List.forall_mem_cons.mpr ⟨redirOp_fd hc, ih⟩

theorem Words.std {ts : List (Token W)} {x : List W × List (Redir W)} (h : Words ts x) : ∀ r ∈ x.2, r.fd ≤ 2 := by
  induction h with
  | nil => simp
  | cons hr _ ih => exact List.forall_mem_append.mpr ⟨hr.std, ih⟩

theorem wrap_std {rs : List (Redir W)} (hrs : ∀ r ∈ rs, r.fd ≤ 2) (hc : cmd.Std) : (wrap rs cmd).Std := by
  induction rs generalizing cmd with
  | nil => exact hc
  | cons r rs ih =>
    obtain ⟨h1, h2⟩ := List.forall_mem_cons.mp hrs
    exact ih h2 ⟨h1, hc⟩

theorem back_std (n : Nat) (hc : cmd.Std) : (Cmd.back^[n] cmd).Std := by
  induction n generalizing cmd with
  | zero => exact hc
  | succ n ih => exact ih (show (Cmd.back cmd).Std from hc)

mutual

theorem Line.std {ts : List (Token W)} {cmd : Cmd W} : Line ts cmd → cmd.Std
  | .line n h => back_std n h.std
  | .list n h h' => ⟨back_std n h.std, h'.std⟩

theorem Pipe.std {ts : List (Token W)} {cmd : Cmd W} : Pipe ts cmd → cmd.Std
  | .exec h => h.std
  | .pipe h h' => ⟨h.std, h'.std⟩

theorem Exec.std {ts : List (Token W)} {cmd : Cmd W} : Exec ts cmd → cmd.Std
  | .block h hr => wrap_std hr.std h.std
  | .exec hr h _ => wrap_std (List.forall_mem_append.mpr ⟨hr.std, h.std⟩) trivial

end

/-- **Every program gets the descriptors that the command says.** If calls fail, some programs are not started. -/
theorem runcmd_descriptors {ts : List (Token W)} (env : Env) (h : Line ts cmd) (ht : Std t) :
    (runcmd env cmd [] t).execs.Sublist (intended cmd [] t) ∧
      (env.Works → Room t → (runcmd env cmd [] t).execs = intended cmd [] t) :=
  ⟨execs_sublist h.std ht, fun he hr => execs_eq he h.std ht hr⟩

/-- A kernel that does all it is asked. -/
def willing : Env := ⟨fun _ => true, fun _ => true, fun _ _ => true⟩

/-- The descriptors of the shell. -/
def console (W : Type) : Ofile W := fun i => if i ≤ 2 then some (.given 0) else none

theorem console_std : Std (console W) := fun i hi => by simp [console, hi]

/-- `a | b > c`: what `b` prints goes to the file. -/
theorem runcmd_descriptors_pipe : ∃ cmd : Cmd Char, Std (console Char) ∧ Room (console Char) ∧
    (runcmd willing cmd [] (console Char)).execs =
      [(['a'], update (console Char) 1 (some (.writeEnd []))),
        (['b'], update (update (console Char) 0 (some (.readEnd []))) 1 (some (.file 'c' 0x601)))] := by
  have hb : Exec (([] : List (Token Char)) ++ (.word 'b' :: [.op '>', .word 'c'] ++ []))
      (wrap ([] ++ ([⟨'c', 0x601, 1⟩] ++ [])) (.exec ['b'])) :=
    .exec .nil (.cons (.cons rfl .nil) .nil) (by decide)
  have ha : Exec (([] : List (Token Char)) ++ (.word 'a' :: [] ++ [])) (wrap ([] ++ ([] ++ [])) (.exec ['a'])) :=
    .exec .nil (.cons .nil .nil) (by decide)
  have hroom : Room (console Char) := ⟨3, 4, by decide, by decide, rfl, rfl⟩
  have h := runcmd_descriptors willing (.line 0 (.pipe ha (.exec hb)))
    console_std
  exact ⟨_, console_std, hroom, h.2 (fun _ => ⟨rfl, rfl, fun _ => rfl⟩) hroom⟩

/-! ## The ends of a pipe -/

/-- The pipe that a descriptor is an end of. -/
def Obj.place : Obj W → Option Place
  | .readEnd π | .writeEnd π => some π
  | _ => none

/-- A descriptor of a pipe was there before, or the pipe was made further down. -/
def From (t : Ofile W) (π : Place) (t' : Ofile W) : Prop :=
  ∀ i o ρ, t' i = some o → o.place = some ρ → (∃ j, t j = some o) ∨ π <:+ ρ

theorem From.refl : From t π t := fun i _ _ h _ => .inl ⟨i, h⟩

theorem From.below {b : Bool} (h : From t (b :: π) t') : From t π t' := fun i o ρ hi hρ =>
  (h i o ρ hi hρ).imp id (List.suffix_cons b π).trans

/-- An end that one side is not given does not turn up there. -/
theorem From.ne {b : Bool} (h : From t (b :: π) t') (ho : o.place = some π) (ht : ∀ j, t j ≠ some o) (i : Nat) :
    t' i ≠ some o := by
  intro hi
  rcases h i o π hi ho with ⟨j, hj⟩ | hs
  · exact ht j hj
  · have := hs.length_le
    simp only [List.length_cons] at this
    omega

end Xv6.Shell
