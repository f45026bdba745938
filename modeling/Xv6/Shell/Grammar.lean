import Mathlib.Logic.Function.Iterate
import Xv6.Shell.Model

/-!
# The grammar of the shell

    line  ::= pipe '&'* [';' line]
    pipe  ::= exec ['|' pipe]
    exec  ::= '(' line ')' redir* | redir* (word redir*)*
    redir ::= ('<' | '>' | '>>') word

`Line ts c` says that the tokens `ts` derive from `line`, and that `c` is the command of the derivation. A parser does not
see where `ts` ends: `Parses G F ts a rest` says that `ts` begins with tokens that derive from `G` and goes on with `rest`,
and that `rest` can follow (`F`). The lemmas `…_iff` take `Parses` apart by the next token.
-/

namespace Xv6.Shell

variable {W A : Type}

inductive Token (W : Type)
  /-- One of `| ( ) ; & < >`, or `+` for `>>`. -/
  | op (c : Char)
  | word (w : W)

structure Redir (W : Type) where
  file : W
  mode : Nat
  fd : Nat

/-- The mode and the descriptor of a redirection. -/
def redirOp (c : Char) : Option (Nat × Nat) :=
  if c = '<' then some (O_RDONLY, 0)
  else if c = '>' then some (O_WRONLY ||| O_CREATE ||| O_TRUNC, 1)
  else if c = '+' then some (O_WRONLY ||| O_CREATE, 1)
  else none

/-- Redirections around a command, later ones outermost. -/
def wrap (rs : List (Redir W)) (cmd : Cmd W) : Cmd W := rs.foldl (fun c r => .redir c r.file r.mode r.fd) cmd

/-! ## Derivations -/

/-- `redir*`. -/
inductive Redirs : List (Token W) → List (Redir W) → Prop
  | nil : Redirs [] []
  | cons {c : Char} {mode fd : Nat} {w : W} {ts : List (Token W)} {rs : List (Redir W)}
    (hc : redirOp c = some (mode, fd)) (h : Redirs ts rs) : Redirs (.op c :: .word w :: ts) (⟨w, mode, fd⟩ :: rs)

/-- `(word redir*)*`. -/
inductive Words : List (Token W) → List W × List (Redir W) → Prop
  | nil : Words [] ([], [])
  | cons {w : W} {us ts : List (Token W)} {rs rs' : List (Redir W)} {ws : List W} (hr : Redirs us rs)
    (h : Words ts (ws, rs')) : Words (.word w :: us ++ ts) (w :: ws, rs ++ rs')

mutual

inductive Line : List (Token W) → Cmd W → Prop
  | line {ts : List (Token W)} {c : Cmd W} (n : Nat) (h : Pipe ts c) :
    Line (ts ++ List.replicate n (.op '&')) (Cmd.back^[n] c)
  | list {ts us : List (Token W)} {c d : Cmd W} (n : Nat) (h : Pipe ts c) (h' : Line us d) :
    Line (ts ++ List.replicate n (.op '&') ++ .op ';' :: us) (.list (Cmd.back^[n] c) d)

inductive Pipe : List (Token W) → Cmd W → Prop
  | exec {ts : List (Token W)} {c : Cmd W} (h : Exec ts c) : Pipe ts c
  | pipe {ts us : List (Token W)} {c d : Cmd W} (h : Exec ts c) (h' : Pipe us d) : Pipe (ts ++ .op '|' :: us) (.pipe c d)

inductive Exec : List (Token W) → Cmd W → Prop
  | block {ts us : List (Token W)} {c : Cmd W} {rs : List (Redir W)} (h : Line ts c) (hr : Redirs us rs) :
    Exec (.op '(' :: ts ++ .op ')' :: us) (wrap rs c)
  | exec {us ts : List (Token W)} {rs rs' : List (Redir W)} {ws : List W} (hr : Redirs us rs) (h : Words ts (ws, rs'))
    (hmax : ws.length ≤ MAXARGS - 1) : Exec (us ++ ts) (wrap (rs ++ rs') (.exec ws))

end

/-! ## Prefixes -/

def Parses (G : List (Token W) → A → Prop) (F : List (Token W) → Prop) (ts : List (Token W)) (a : A)
    (rest : List (Token W)) : Prop := ∃ us, ts = us ++ rest ∧ G us a ∧ F rest

/-- The tokens are at their end, or the next one is among some operators. -/
def Ends (S : List Char) : List (Token W) → Prop
  | [] => True
  | .op c :: _ => c ∈ S
  | .word _ :: _ => False

abbrev FollowExec : List (Token W) → Prop := Ends ['|', '&', ';', ')']
abbrev FollowPipe : List (Token W) → Prop := Ends ['&', ';', ')']
abbrev FollowLine : List (Token W) → Prop := Ends [')']

/-- The next token does not begin a redirection. -/
def NoRedir : List (Token W) → Prop
  | .op c :: _ => redirOp c = none
  | _ => True

/-- The next token is not a word. -/
def NoWord : List (Token W) → Prop
  | .word _ :: _ => False
  | _ => True

section Prefixes

variable {ts rest : List (Token W)} {c : Char} {cmd : Cmd W} {rs : List (Redir W)} {ws : List W}

theorem Ends.mono {S T : List Char} (h : Ends S ts) (hs : ∀ c ∈ S, c ∈ T) : Ends T ts := by
  match ts, h with
  | [], _ => trivial
  | .op c :: _, h => exact hs c h

theorem FollowPipe.exec (h : FollowPipe ts) : FollowExec ts := h.mono (by simp)

theorem FollowLine.pipe (h : FollowLine ts) : FollowPipe ts := h.mono (by simp)

theorem FollowExec.noRedir (h : FollowExec ts) : NoRedir ts := by
  match ts, h with
  | [], _ => trivial
  | .op c :: _, h =>
    have hc : ∀ c ∈ ['|', '&', ';', ')'], redirOp c = none := by simp [redirOp]
    exact hc c h

theorem FollowExec.noWord (h : FollowExec ts) : NoWord ts := by
  match ts, h with
  | [], _ => trivial
  | .op c :: _, _ => trivial

/-! ### Redirections -/

theorem redirs_stop_iff (h : NoRedir ts) : Parses Redirs NoRedir ts rs rest ↔ rs = [] ∧ rest = ts := by
  constructor
  · rintro ⟨us, rfl, hr, -⟩
    cases hr with
    | nil => exact ⟨rfl, rfl⟩
    | cons hc _ =>
      have h : redirOp _ = none := h
      rw [hc] at h
      cases h
  · rintro ⟨rfl, rfl⟩
    exact ⟨[], rfl, .nil, h⟩

theorem redirs_cons_iff {mode fd : Nat} (hc : redirOp c = some (mode, fd)) : Parses Redirs NoRedir (.op c :: ts) rs rest ↔
    ∃ w ts' rs', ts = .word w :: ts' ∧ rs = ⟨w, mode, fd⟩ :: rs' ∧ Parses Redirs NoRedir ts' rs' rest := by
  constructor
  · rintro ⟨us, hus, hr, hn⟩
    cases hr with
    | nil =>
      subst hus
      have hn : redirOp c = none := hn
      rw [hc] at hn
      cases hn
    | cons hc' hr =>
      obtain ⟨rfl, rfl⟩ := hus
      rw [hc] at hc'
      cases hc'
      exact ⟨_, _, _, rfl, rfl, _, rfl, hr, hn⟩
  · rintro ⟨w, ts', rs', rfl, rfl, us, rfl, hr, hn⟩
    exact ⟨_, rfl, .cons hc hr, hn⟩

/-! ### Words -/

theorem words_stop_iff (h : NoWord ts) :
    Parses Words FollowExec ts (ws, rs) rest ↔ ws = [] ∧ rs = [] ∧ rest = ts ∧ FollowExec ts := by
  constructor
  · rintro ⟨us, rfl, hw, hf⟩
    cases hw with
    | nil => exact ⟨rfl, rfl, rfl, hf⟩
    | cons _ _ => cases h
  · rintro ⟨rfl, rfl, rfl, hf⟩
    exact ⟨[], rfl, .nil, hf⟩

theorem words_cons_iff {w : W} : Parses Words FollowExec (.word w :: ts) (ws, rs) rest ↔
    ∃ rs₁ mid ws' rs₂, Parses Redirs NoRedir ts rs₁ mid ∧ Parses Words FollowExec mid (ws', rs₂) rest ∧
      ws = w :: ws' ∧ rs = rs₁ ++ rs₂ := by
  constructor
  · rintro ⟨us, hus, hw, hf⟩
    cases hw with
    | nil =>
      subst hus
      exact hf.elim
    | @cons _ us ts' rs₁ rs₂ ws' hr hw =>
      obtain ⟨rfl, rfl⟩ := hus
      refine ⟨rs₁, ts' ++ rest, ws', rs₂, ⟨us, List.append_assoc .., hr, ?_⟩, ⟨ts', rfl, hw, hf⟩, rfl, rfl⟩
      -- the next token is a word, or what follows the command
      cases hw with
      | nil => exact hf.noRedir
      | cons _ _ => trivial
  · rintro ⟨rs₁, mid, ws', rs₂, ⟨us, rfl, hr, -⟩, ⟨vs, rfl, hw, hf⟩, rfl, rfl⟩
    exact ⟨.word w :: us ++ vs, by simp, .cons hr hw, hf⟩

/-! ### Commands -/

theorem exec_iff (h : ∀ us, ts ≠ .op '(' :: us) : Parses Exec FollowExec ts cmd rest ↔
    ∃ rs mid ws rs', Parses Redirs NoRedir ts rs mid ∧ Parses Words FollowExec mid (ws, rs') rest ∧
      ws.length ≤ MAXARGS - 1 ∧ cmd = wrap (rs ++ rs') (.exec ws) := by
  constructor
  · rintro ⟨us, hus, he, hf⟩
    cases he with
    | block _ _ => exact absurd hus (h _)
    | @exec us ts' rs rs' ws hr hw hmax =>
      refine ⟨rs, ts' ++ rest, ws, rs', ⟨us, by rw [hus, List.append_assoc], hr, ?_⟩, ⟨ts', rfl, hw, hf⟩, hmax, rfl⟩
      cases hw with
      | nil => exact hf.noRedir
      | cons _ _ => trivial
  · rintro ⟨rs, mid, ws, rs', ⟨us, rfl, hr, -⟩, ⟨vs, rfl, hw, hf⟩, hmax, rfl⟩
    exact ⟨us ++ vs, by simp, .exec hr hw hmax, hf⟩

theorem block_iff : Parses Exec FollowExec (.op '(' :: ts) cmd rest ↔
    ∃ d mid rs, Parses Line FollowLine ts d (.op ')' :: mid) ∧ Parses Redirs NoRedir mid rs rest ∧ FollowExec rest ∧
      cmd = wrap rs d := by
  constructor
  · rintro ⟨us, hus, he, hf⟩
    cases he with
    | @block ts' us d rs hl hr =>
      simp only [List.cons_append, List.cons.injEq, true_and, List.append_assoc] at hus
      exact ⟨d, us ++ rest, rs, ⟨ts', hus, hl, List.mem_singleton_self _⟩, ⟨us, rfl, hr, hf.noRedir⟩, hf, rfl⟩
    | @exec us ts' rs rs' ws hr hw hmax =>
      -- neither a redirection nor a word begins so, and it does not follow a command
      exfalso
      cases hr with
      | cons hc _ =>
        obtain ⟨rfl, -⟩ := hus
        cases hc
      | nil =>
        cases hw with
        | cons _ _ => cases hus
        | nil =>
          subst hus
          have hf : '(' ∈ ['|', '&', ';', ')'] := hf
          exact absurd hf (by decide)
  · rintro ⟨d, mid, rs, ⟨us, rfl, hl, -⟩, ⟨vs, rfl, hr, -⟩, hf, rfl⟩
    exact ⟨.op '(' :: us ++ .op ')' :: vs, by simp, .block hl hr, hf⟩

theorem pipe_iff : Parses Pipe FollowPipe ts cmd rest ↔ ∃ c mid, Parses Exec FollowExec ts c mid ∧
    ((∃ us d, mid = .op '|' :: us ∧ Parses Pipe FollowPipe us d rest ∧ cmd = .pipe c d) ∨
      cmd = c ∧ rest = mid ∧ FollowPipe mid) := by
  constructor
  · rintro ⟨us, rfl, hp, hf⟩
    cases hp with
    | exec he => exact ⟨cmd, rest, ⟨us, rfl, he, hf.exec⟩, .inr ⟨rfl, rfl, hf⟩⟩
    | @pipe us vs c d he hp =>
      refine ⟨c, .op '|' :: (vs ++ rest), ⟨us, by simp, he, ?_⟩, .inl ⟨vs ++ rest, d, rfl, ⟨vs, rfl, hp, hf⟩, rfl⟩⟩
      exact List.mem_cons_self
  · rintro ⟨c, mid, ⟨us, rfl, he, -⟩, ⟨vs, d, rfl, ⟨ws, rfl, hp, hf⟩, rfl⟩ | ⟨rfl, rfl, hf⟩⟩
    · exact ⟨us ++ .op '|' :: ws, by simp, .pipe he hp, hf⟩
    · exact ⟨us, rfl, .exec he, hf⟩

/-! ### Lines -/

/-- The rest of a line after its first pipeline `c`. -/
def LineTail (c : Cmd W) (ts : List (Token W)) (cmd : Cmd W) (rest : List (Token W)) : Prop :=
  ∃ n us, ts = List.replicate n (.op '&') ++ us ∧ (cmd = Cmd.back^[n] c ∧ rest = us ∧ FollowLine us ∨
    ∃ vs d, us = .op ';' :: vs ∧ Parses Line FollowLine vs d rest ∧ cmd = .list (Cmd.back^[n] c) d)

theorem line_iff : Parses Line FollowLine ts cmd rest ↔
    ∃ c mid, Parses Pipe FollowPipe ts c mid ∧ LineTail c mid cmd rest := by
  constructor
  · rintro ⟨us, rfl, hl, hf⟩
    cases hl with
    | @line us c n hp =>
      refine ⟨c, List.replicate n (.op '&') ++ rest, ⟨us, by simp, hp, ?_⟩, n, rest, rfl, .inl ⟨rfl, rfl, hf⟩⟩
      cases n with
      | zero => exact hf.pipe
      | succ n => exact List.mem_cons_self
    | @list us vs c d n hp hl =>
      refine ⟨c, List.replicate n (.op '&') ++ .op ';' :: (vs ++ rest), ⟨us, by simp, hp, ?_⟩, n, _, rfl,
        .inr ⟨vs ++ rest, d, rfl, ⟨vs, rfl, hl, hf⟩, rfl⟩⟩
      cases n with
      | zero => exact List.mem_cons_of_mem _ List.mem_cons_self
      | succ n => exact List.mem_cons_self
  · rintro ⟨c, mid, ⟨us, rfl, hp, -⟩, n, vs, rfl, ⟨rfl, rfl, hf⟩ | ⟨vs, d, rfl, ⟨ws, rfl, hl, hf⟩, rfl⟩⟩
    · exact ⟨us ++ List.replicate n (.op '&'), by simp, .line n hp, hf⟩
    · exact ⟨us ++ List.replicate n (.op '&') ++ .op ';' :: ws, by simp, .list n hp hl, hf⟩

theorem lineTail_back_iff {d : Cmd W} : LineTail d (.op '&' :: ts) cmd rest ↔ LineTail (.back d) ts cmd rest := by
  constructor
  · rintro ⟨n, us, hts, h⟩
    cases n with
    | zero =>
      subst hts
      rcases h with ⟨-, -, hf⟩ | ⟨vs, d', h, -⟩
      · have hf : '&' ∈ [')'] := hf
        exact absurd hf (by decide)
      · cases h
    | succ n =>
      rw [List.replicate_succ, List.cons_append, List.cons.injEq] at hts
      exact ⟨n, us, hts.2, h⟩
  · rintro ⟨n, us, rfl, h⟩
    exact ⟨n + 1, us, rfl, h⟩

theorem lineTail_iff {d : Cmd W} (h : ∀ us, ts ≠ .op '&' :: us) : LineTail d ts cmd rest ↔
    (cmd = d ∧ rest = ts ∧ FollowLine ts) ∨
      ∃ us e, ts = .op ';' :: us ∧ Parses Line FollowLine us e rest ∧ cmd = .list d e := by
  constructor
  · rintro ⟨n, us, rfl, ht⟩
    cases n with
    | zero => exact ht
    | succ n => exact absurd rfl (h _)
  · intro ht
    exact ⟨0, ts, rfl, ht⟩

end Prefixes

end Xv6.Shell
