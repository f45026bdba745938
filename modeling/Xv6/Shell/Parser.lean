import Mathlib.Data.List.GetD
import Xv6.Shell.Lexer

/-!
# The parser accepts the grammar

`Outcome P f F r` says that the result `r` of a parsing function decides a relation `P` of the grammar: either there is one
way to go on with the tokens and `r` is the command of it, or there is none. In the second case the function may still
return, before a token that cannot follow (`F`), and a caller panics. There is one such lemma for each function of the
parser, for enough fuel; `parsecmd_grammar` puts them together.
-/

namespace Xv6.Shell

variable {W A : Type}

abbrev Tokens := List (Token (List Char))

/-! ## Commands -/

/-- The words of a command, in the order in which `nulterminate` ends them. -/
def Cmd.words : Cmd W → List W
  | .exec argv => argv
  | .redir cmd file _ _ => cmd.words ++ [file]
  | .pipe left right => left.words ++ right.words
  | .list left right => left.words ++ right.words
  | .back cmd => cmd.words

section Commands

variable {V : Type} {f g : V → W} {cmd : Cmd V}

theorem Cmd.map_congr (h : ∀ w ∈ cmd.words, f w = g w) : cmd.map f = cmd.map g := by
  induction cmd with
  | exec argv => exact congrArg Cmd.exec (List.map_congr_left h)
  | redir cmd file mode fd ih =>
    simp only [Cmd.words, List.mem_append, List.mem_singleton] at h
    rw [Cmd.map, Cmd.map, ih fun w hw => h w (.inl hw), h file (.inr rfl)]
  | pipe left right ih₁ ih₂ | list left right ih₁ ih₂ =>
    simp only [Cmd.words, List.mem_append] at h
    rw [Cmd.map, Cmd.map, ih₁ fun w hw => h w (.inl hw), ih₂ fun w hw => h w (.inr hw)]
  | back cmd ih => rw [Cmd.map, Cmd.map, ih h]

theorem map_push (w : V) (cmd : Cmd V) : (cmd.push w).map f = (cmd.map f).push (f w) := by
  induction cmd with
  | exec argv => simp [Cmd.push, Cmd.map]
  | redir cmd file mode fd ih => simp [Cmd.push, Cmd.map, ih]
  | pipe | list | back => rfl

theorem mem_words_push {w v : V} (h : v ∈ (cmd.push w).words) : v ∈ cmd.words ∨ v = w := by
  induction cmd with
  | exec argv => simpa [Cmd.push, Cmd.words] using h
  | redir cmd file mode fd ih =>
    simp only [Cmd.push, Cmd.words, List.mem_append, List.mem_singleton] at h ⊢
    rcases h with h | h
    · rcases ih h with h | h
      · exact .inl (.inl h)
      · exact .inr h
    · exact .inl (.inr h)
  | pipe | list | back => exact .inl h

theorem redircmd_eq {c : Char} {mode fd : Nat} (hc : redirOp c = some (mode, fd)) (cmd : Cmd W) (w : W) :
    redircmd c cmd w = .redir cmd w mode fd := by
  unfold redirOp at hc
  unfold redircmd
  split at hc
  · next h =>
    cases hc
    rw [if_pos h]
  · next h1 =>
    rw [if_neg h1]
    split at hc
    · next h =>
      cases hc
      rw [if_pos h]
    · next h2 =>
      rw [if_neg h2]
      split at hc
      · next h =>
        cases hc
        rw [if_pos h]
      · cases hc

theorem wrap_push (rs : List (Redir W)) (cmd : Cmd W) (w : W) : (wrap rs cmd).push w = wrap rs (cmd.push w) := by
  induction rs generalizing cmd with
  | nil => rfl
  | cons r rs ih => exact ih _

theorem wrap_append (rs rs' : List (Redir W)) (cmd : Cmd W) : wrap (rs ++ rs') cmd = wrap rs' (wrap rs cmd) :=
  List.foldl_append

/-- Words added one by one. -/
def pushAll (ws : List W) (cmd : Cmd W) : Cmd W := ws.foldl (fun c w => c.push w) cmd

theorem pushAll_wrap (ws : List W) (rs : List (Redir W)) (cmd : Cmd W) :
    pushAll ws (wrap rs cmd) = wrap rs (pushAll ws cmd) := by
  induction ws generalizing cmd with
  | nil => rfl
  | cons w ws ih =>
    show pushAll ws ((wrap rs cmd).push w) = _
    rw [wrap_push, ih]
    rfl

theorem pushAll_exec (ws vs : List W) : pushAll ws (.exec vs) = .exec (vs ++ ws) := by
  induction ws generalizing vs with
  | nil => rw [List.append_nil]; rfl
  | cons w ws ih =>
    show pushAll ws (.exec (vs ++ [w])) = _
    rw [ih, List.append_assoc]
    rfl

end Commands

/-! ## Outcomes -/

/-- All words of a command are words of the line. -/
def Good (buf : List Char) (cmd : Cmd Span) : Prop := ∀ w ∈ cmd.words, WordAt buf w

/-- What a parsing function has found out about `P`. -/
inductive Outcome (buf : List Char) (P : A → Tokens → Prop) (f : A → Cmd (List Char)) (F : Tokens → Prop) :
    Except Stop (Cmd Span × Nat) → Prop
  | accept {cmd : Cmd Span} {s : Nat} {a : A} (hs : s ≤ strlen buf) (hgood : Good buf cmd)
    (hmap : cmd.map (slice buf) = f a) (hP : ∀ a' rest, P a' rest ↔ a' = a ∧ rest = lex buf s) :
    Outcome buf P f F (.ok (cmd, s))
  | leave {cmd : Cmd Span} {s : Nat} (hs : s ≤ strlen buf) (hF : ¬F (lex buf s)) (hP : ∀ a rest, ¬P a rest) :
    Outcome buf P f F (.ok (cmd, s))
  | panic {msg : String} (hP : ∀ a rest, ¬P a rest) : Outcome buf P f F (.error (.panic msg))

section Outcomes

variable {buf : List Char} {s n : Nat} {cmd : Cmd Span}

/-- One relation is decided with another. -/
theorem Outcome.through {B : Type} {P : A → Tokens → Prop} {Q : B → Tokens → Prop} {f : A → Cmd (List Char)}
    {g : B → Cmd (List Char)} {F : Tokens → Prop} {r : Except Stop (Cmd Span × Nat)} (h : Outcome buf Q g F r) (k : B → A)
    (hP : ∀ a rest, P a rest ↔ ∃ b, a = k b ∧ Q b rest) (hf : ∀ b, g b = f (k b)) : Outcome buf P f F r := by
  cases h with
  | accept hs hgood hmap hQ =>
    refine .accept hs hgood (hmap.trans (hf _)) fun a rest => ?_
    rw [hP]
    constructor
    · rintro ⟨b, rfl, hb⟩
      obtain ⟨rfl, rfl⟩ := (hQ b rest).mp hb
      exact ⟨rfl, rfl⟩
    · rintro ⟨rfl, rfl⟩
      exact ⟨_, rfl, (hQ _ _).mpr ⟨rfl, rfl⟩⟩
  | leave hs hF hQ =>
    refine .leave hs hF fun a rest ha => ?_
    obtain ⟨b, -, hb⟩ := (hP a rest).mp ha
    exact hQ b rest hb
  | panic hQ =>
    refine .panic fun a rest ha => ?_
    obtain ⟨b, -, hb⟩ := (hP a rest).mp ha
    exact hQ b rest hb

/-- A command is put around the result. -/
theorem Outcome.map {P Q : Cmd (List Char) → Tokens → Prop} {F : Tokens → Prop} {r : Except Stop (Cmd Span × Nat)}
    (h : Outcome buf Q id F r) (k : Cmd Span → Cmd Span) (g : Cmd (List Char) → Cmd (List Char))
    (hP : ∀ c rest, P c rest ↔ ∃ d, c = g d ∧ Q d rest) (hgood : ∀ d, Good buf d → Good buf (k d))
    (hk : ∀ d, (k d).map (slice buf) = g (d.map (slice buf))) :
    Outcome buf P id F (do
      let (d, s) ← r
      return (k d, s)) := by
  have hnone : (∀ d rest, ¬Q d rest) → ∀ c rest, ¬P c rest := by
    intro hQ c rest hc
    obtain ⟨d, -, hd⟩ := (hP c rest).mp hc
    exact hQ d rest hd
  cases h with
  | @accept d s e hs hgd hmap hQ =>
    refine .accept hs (hgood d hgd) (a := g e) ?_ fun c rest => ?_
    · rw [hk, hmap]
      rfl
    · rw [hP]
      constructor
      · rintro ⟨d', rfl, hd'⟩
        obtain ⟨rfl, rfl⟩ := (hQ d' rest).mp hd'
        exact ⟨rfl, rfl⟩
      · rintro ⟨rfl, rfl⟩
        exact ⟨e, rfl, (hQ _ _).mpr ⟨rfl, rfl⟩⟩
  | leave hs hF hQ => exact .leave hs hF (hnone hQ)
  | panic hQ => exact .panic (hnone hQ)

/-! ### Redirections -/

theorem redirOp_first {c : Char} (hc : first c ∈ ['<', '>']) : ∃ mode fd, redirOp c = some (mode, fd) := by
  by_cases hplus : c = '+'
  · rw [hplus]
    exact ⟨_, _, rfl⟩
  · rw [first, if_neg hplus, List.mem_cons, List.mem_singleton] at hc
    rcases hc with rfl | rfl <;> exact ⟨_, _, rfl⟩

theorem first_redirOp {c : Char} {mode fd : Nat} (hc : redirOp c = some (mode, fd)) : first c ∈ ['<', '>'] := by
  unfold redirOp at hc
  split at hc
  · next h => rw [h]; decide
  · split at hc
    · next h => rw [h]; decide
    · split at hc
      · next h => rw [h]; decide
      · cases hc

/-- `parseredirs` reads the redirections that come next. -/
theorem parseredirs_outcome (hs : s ≤ strlen buf) (hgood : Good buf cmd) (hn : (lex buf s).length < n) :
    Outcome buf (Parses Redirs NoRedir (lex buf s)) (fun rs => wrap rs (cmd.map (slice buf))) (fun _ => True)
      (parseredirs buf (strlen buf) n cmd s) := by
  induction n generalizing cmd s with
  | zero => exact absurd hn (Nat.not_lt_zero _)
  | succ n ih =>
    have htoks : ∀ c ∈ ['<', '>'], c ∈ symbols := by simp [symbols]
    obtain ⟨b, s₁, hp, hs₁, hl₁, hb⟩ := peek_spec hs htoks
    rw [parseredirs, hp]
    dsimp only
    cases b with
    | false =>
      have hno : NoRedir (lex buf s) := by
        cases hl : lex buf s with
        | nil => trivial
        | cons t us =>
          cases t with
          | word w => trivial
          | op c =>
            show redirOp c = none
            cases hc : redirOp c with
            | none => rfl
            | some m => exact absurd (hb.mpr ⟨c, us, hl, first_redirOp hc⟩) (by decide)
      refine .accept (a := []) hs₁ hgood rfl fun rs rest => ?_
      rw [redirs_stop_iff hno, hl₁]
    | true =>
      rw [if_pos rfl]
      obtain ⟨c, us, hl, hc⟩ := hb.mp rfl
      obtain ⟨mode, fd, hc⟩ := redirOp_first hc
      obtain ⟨q, eq, s₂, hg, hs₂, hl₂, -⟩ := gettoken_op hs₁ (hl₁.trans hl)
      rw [hg, hl]
      cases hl₂' : lex buf s₂ with
      | nil =>
        rw [gettoken_nil hs₂ hl₂']
        refine .panic fun rs rest => ?_
        rw [redirs_cons_iff hc, ← hl₂, hl₂']
        rintro ⟨_, _, _, h, -⟩
        cases h
      | cons t vs =>
        cases t with
        | op c' =>
          obtain ⟨q', eq', s₃, hg', -, -, hops⟩ := gettoken_op hs₂ hl₂'
          rw [hg']
          rw [if_pos (ops_ne hops).2]
          refine .panic fun rs rest => ?_
          rw [redirs_cons_iff hc, ← hl₂, hl₂']
          rintro ⟨_, _, _, h, -⟩
          cases h
        | word w =>
          obtain ⟨q', eq', s₃, hg', hs₃, hl₃, hw, hat⟩ := gettoken_word hs₂ hl₂'
          rw [hg']
          dsimp only
          rw [if_neg (by decide), redircmd_eq hc]
          have hgood' : Good buf (.redir cmd (q', eq') mode fd) := by
            intro v hv
            rcases List.mem_append.mp hv with hv | hv
            · exact hgood v hv
            · rw [List.mem_singleton.mp hv]
              exact hat
          have hlen : (lex buf s₃).length < n := by
            rw [hl, ← hl₂, hl₂', ← hl₃, List.length_cons, List.length_cons] at hn
            omega
          refine (ih hs₃ hgood' hlen).through (fun rs => ⟨w, mode, fd⟩ :: rs) (fun rs rest => ?_) (fun rs => ?_)
          · rw [redirs_cons_iff hc, ← hl₂, hl₂', ← hl₃]
            constructor
            · rintro ⟨w', ts, rs', h, rfl, hr⟩
              cases h
              exact ⟨rs', rfl, hr⟩
            · rintro ⟨rs', rfl, hr⟩
              exact ⟨w, _, rs', rfl, rfl, hr⟩
          · rw [← hw]
            rfl

/-! ### Words -/

theorem first_follow {c : Char} : first c ∈ ['|', ')', '&', ';'] ↔ c ∈ ['|', '&', ';', ')'] := by
  unfold first
  split
  · next h =>
    rw [h]
    decide
  · simp only [List.mem_cons, List.not_mem_nil, or_false]
    tauto

/-- The loop of `parseexec` reads words and redirections up to a token that follows a command. -/
theorem parseargs_outcome {argc : Nat} (hs : s ≤ strlen buf) (hgood : Good buf cmd) (hargc : argc ≤ MAXARGS - 1)
    (hn : (lex buf s).length < n) :
    Outcome buf (fun a rest => Parses Words FollowExec (lex buf s) a rest ∧ argc + a.1.length ≤ MAXARGS - 1)
      (fun a => wrap a.2 (pushAll a.1 (cmd.map (slice buf)))) (fun _ => True)
      (parseargs buf (strlen buf) n cmd argc s) := by
  induction n generalizing cmd s argc with
  | zero => exact absurd hn (Nat.not_lt_zero _)
  | succ n ih =>
    have htoks : ∀ c ∈ ['|', ')', '&', ';'], c ∈ symbols := by simp [symbols]
    obtain ⟨b, s₁, hp, hs₁, hl₁, hb⟩ := peek_spec hs htoks
    rw [parseargs, hp]
    dsimp only
    -- a result without words
    have hstop : ∀ {s'}, s' ≤ strlen buf → lex buf s' = lex buf s → FollowExec (lex buf s) →
        Outcome buf (fun a rest => Parses Words FollowExec (lex buf s) a rest ∧ argc + a.1.length ≤ MAXARGS - 1)
          (fun a => wrap a.2 (pushAll a.1 (cmd.map (slice buf)))) (fun _ => True) (.ok (cmd, s')) := by
      intro s' hs' hl' hf
      refine .accept (a := ([], [])) hs' hgood rfl fun a rest => ?_
      obtain ⟨ws, rs⟩ := a
      rw [words_stop_iff hf.noWord, hl', Prod.mk.injEq]
      constructor
      · rintro ⟨⟨h1, h2, h3, -⟩, -⟩
        exact ⟨⟨h1, h2⟩, h3⟩
      · rintro ⟨⟨rfl, rfl⟩, h3⟩
        exact ⟨⟨rfl, rfl, h3, hf⟩, hargc⟩
    cases b with
    | true =>
      obtain ⟨c, us, hl, hc⟩ := hb.mp rfl
      refine hstop hs₁ hl₁ ?_
      rw [hl]
      exact first_follow.mp hc
    | false =>
      cases hl : lex buf s with
      | nil =>
        rw [gettoken_nil hs₁ (hl₁.trans hl)]
        rw [if_pos rfl, ← hl]
        refine hstop (Nat.le_refl _) ?_ (by rw [hl]; trivial)
        rw [hl, lex_eq_nil (Nat.le_refl _)]
        exact skip_eq (Nat.le_refl _) fun h => absurd h (Nat.lt_irrefl _)
      | cons t us =>
        cases t with
        | op c =>
          obtain ⟨q, eq, s₂, hg, -, -, hops⟩ := gettoken_op hs₁ (hl₁.trans hl)
          rw [hg]
          rw [if_neg (ops_ne hops).1, if_pos (ops_ne hops).2]
          refine .panic fun a rest ha => ?_
          obtain ⟨ws, rs⟩ := a
          have hnw : NoWord (.op c :: us) := trivial
          obtain ⟨-, -, -, hf⟩ := (words_stop_iff hnw).mp ha.1
          exact absurd (hb.mpr ⟨c, us, hl, first_follow.mpr hf⟩) (by decide)
        | word w =>
          obtain ⟨q, eq, s₂, hg, hs₂, hl₂, hw, hat⟩ := gettoken_word hs₁ (hl₁.trans hl)
          rw [hg]
          by_cases hmax : argc + 1 ≥ MAXARGS
          · rw [if_pos hmax]
            refine .panic fun a rest ha => ?_
            obtain ⟨ws, rs⟩ := a
            obtain ⟨_, _, ws', _, -, -, rfl, -⟩ := words_cons_iff.mp ha.1
            have hlen : argc + (w :: ws').length ≤ MAXARGS - 1 := ha.2
            rw [List.length_cons] at hlen
            omega
          rw [if_neg hmax]
          have hgood' : Good buf (cmd.push (q, eq)) := by
            intro v hv
            rcases mem_words_push hv with hv | rfl
            · exact hgood v hv
            · exact hat
          have hlen₂ : (lex buf s₂).length < n := by
            rw [hl, ← hl₂, List.length_cons] at hn
            omega
          have hred := parseredirs_outcome hs₂ hgood' hlen₂
          generalize parseredirs buf (strlen buf) n (cmd.push (q, eq)) s₂ = r at hred ⊢
          cases hred with
          | @accept ret s₃ rs₁ hs₃ hgood₃ hmap hr =>
            show Outcome buf _ _ _ (parseargs buf (strlen buf) n ret (argc + 1) s₃)
            have hlen₃ : (lex buf s₃).length < n := by
              obtain ⟨vs, hvs, -⟩ := (hr rs₁ (lex buf s₃)).mpr ⟨rfl, rfl⟩
              rw [hvs, List.length_append] at hlen₂
              omega
            have hargc' : argc + 1 ≤ MAXARGS - 1 := by
              omega
            refine (ih hs₃ hgood₃ hargc' hlen₃).through (fun a => (w :: a.1, rs₁ ++ a.2)) (fun a rest => ?_) (fun a => ?_)
            · obtain ⟨ws, rs⟩ := a
              rw [words_cons_iff, ← hl₂]
              constructor
              · rintro ⟨⟨rs', mid, ws', rs₂, h1, h2, rfl, rfl⟩, hlen⟩
                obtain ⟨rfl, rfl⟩ := (hr rs' mid).mp h1
                refine ⟨(ws', rs₂), rfl, h2, ?_⟩
                show argc + 1 + ws'.length ≤ MAXARGS - 1
                simp only [List.length_cons] at hlen
                omega
              · rintro ⟨⟨ws', rs₂⟩, he, h2, hlen⟩
                cases he
                refine ⟨⟨rs₁, _, ws', rs₂, (hr _ _).mpr ⟨rfl, rfl⟩, h2, rfl, rfl⟩, ?_⟩
                simp only [List.length_cons] at hlen ⊢
                omega
            · rw [hmap, map_push, hw, pushAll_wrap, wrap_append]
              rfl
          | leave _ hF _ => exact absurd trivial hF
          | panic hr =>
            refine .panic fun a rest ha => ?_
            obtain ⟨ws, rs⟩ := a
            obtain ⟨rs₁, mid, _, _, h1, -⟩ := words_cons_iff.mp ha.1
            exact hr rs₁ mid (hl₂ ▸ h1)

/-! ### Commands -/

/-- `parseexec` without a block. -/
theorem parseexec_simple (hs : s ≤ strlen buf) (hno : ∀ us, lex buf s ≠ .op '(' :: us) (hn : (lex buf s).length < n) :
    Outcome buf (Parses Exec FollowExec (lex buf s)) id FollowExec (parseexec buf (strlen buf) (n + 1) s) := by
  obtain ⟨b, s₁, hp, hs₁, hl₁, hb⟩ := peek_one hs (c := '(') (by decide) (by decide)
  have hb : b = false := by
    cases b with
    | false => rfl
    | true =>
      obtain ⟨us, hus⟩ := hb.mp rfl
      exact absurd hus (hno us)
  rw [parseexec, hp, hb]
  have hgood : Good buf (.exec []) := fun w hw => absurd hw List.not_mem_nil
  have hred := parseredirs_outcome hs₁ hgood (hl₁.symm ▸ hn)
  show Outcome buf _ _ _ (do
    let (ret, s) ← parseredirs buf (strlen buf) n (.exec []) s₁
    parseargs buf (strlen buf) n ret 0 s)
  generalize parseredirs buf (strlen buf) n (.exec []) s₁ = r at hred ⊢
  rw [hl₁] at hred
  cases hred with
  | @accept ret s₂ rs hs₂ hgood₂ hmap hr =>
    show Outcome buf _ _ _ (parseargs buf (strlen buf) n ret 0 s₂)
    have hlen : (lex buf s₂).length < n := by
      obtain ⟨vs, hvs, -⟩ := (hr rs (lex buf s₂)).mpr ⟨rfl, rfl⟩
      rw [hvs, List.length_append] at hn
      omega
    have hargs := parseargs_outcome hs₂ hgood₂ (Nat.zero_le _) hlen
    generalize parseargs buf (strlen buf) n ret 0 s₂ = r at hargs ⊢
    cases hargs with
    | @accept ret' s₃ a hs₃ hgood₃ hmap' ha =>
      refine .accept hs₃ hgood₃ (a := wrap (rs ++ a.2) (.exec a.1)) ?_ fun c rest => ?_
      · rw [hmap', hmap, pushAll_wrap, wrap_append]
        show wrap a.2 (wrap rs (pushAll a.1 (.exec []))) = _
        rw [pushAll_exec]
        rfl
      · rw [exec_iff hno]
        constructor
        · rintro ⟨rs', mid, ws, rs₂, h1, h2, hmax, rfl⟩
          obtain ⟨rfl, rfl⟩ := (hr rs' mid).mp h1
          obtain ⟨rfl, rfl⟩ := (ha (ws, rs₂) rest).mp ⟨h2, by rw [Nat.zero_add]; exact hmax⟩
          exact ⟨rfl, rfl⟩
        · rintro ⟨rfl, rfl⟩
          obtain ⟨h2, hmax⟩ := (ha _ _).mpr ⟨rfl, rfl⟩
          rw [Nat.zero_add] at hmax
          exact ⟨rs, _, a.1, a.2, (hr _ _).mpr ⟨rfl, rfl⟩, h2, hmax, rfl⟩
    | leave _ hF _ => exact absurd trivial hF
    | panic ha =>
      refine .panic fun c rest hc => ?_
      obtain ⟨rs', mid, ws, rs₂, h1, h2, hmax, -⟩ := (exec_iff hno).mp hc
      obtain ⟨rfl, rfl⟩ := (hr rs' mid).mp h1
      exact ha (ws, rs₂) rest ⟨h2, by rw [Nat.zero_add]; exact hmax⟩
  | leave _ hF _ => exact absurd trivial hF
  | panic hr =>
    refine .panic fun c rest hc => ?_
    obtain ⟨rs', mid, ws, rs₂, h1, -⟩ := (exec_iff hno).mp hc
    exact hr rs' mid h1

/-- `parseblock`, if `parseline` is right. -/
theorem parseblock_outcome {us : Tokens} (hs : s ≤ strlen buf) (hl : lex buf s = .op '(' :: us) (hn : us.length < n)
    (hline : ∀ {s}, s ≤ strlen buf → lex buf s = us →
      Outcome buf (Parses Line FollowLine (lex buf s)) id FollowLine (parseline buf (strlen buf) n s)) :
    Outcome buf (Parses Exec FollowExec (lex buf s)) id FollowExec (parseblock buf (strlen buf) (n + 1) s) := by
  obtain ⟨b, s₁, hp, hs₁, hl₁, hb⟩ := peek_one hs (c := '(') (by decide) (by decide)
  obtain ⟨q, eq, s₂, hg, hs₂, hl₂, -⟩ := gettoken_op hs₁ (hl₁.trans hl)
  rw [parseblock, hp, hb.mpr ⟨us, hl⟩]
  show Outcome buf _ _ _ (parseline buf (strlen buf) n (gettoken buf (strlen buf) s₁).2.2.2 >>= fun x =>
    if !(peek buf (strlen buf) x.2 [')']).1 then throw (.panic "syntax - missing )")
    else parseredirs buf (strlen buf) n x.1 (gettoken buf (strlen buf) (peek buf (strlen buf) x.2 [')']).2).2.2.2)
  rw [hg]
  dsimp only
  have hline := hline hs₂ hl₂
  generalize parseline buf (strlen buf) n s₂ = r at hline ⊢
  rw [hl₂] at hline
  rw [hl]
  cases hline with
  | @accept cmd s₃ d hs₃ hgood hmap hd =>
    obtain ⟨b, s₄, hp', hs₄, hl₄, hb'⟩ := peek_one hs₃ (c := ')') (by decide) (by decide)
    show Outcome buf _ _ _ (if !(peek buf (strlen buf) s₃ [')']).1 then throw (.panic "syntax - missing )")
      else parseredirs buf (strlen buf) n cmd (gettoken buf (strlen buf) (peek buf (strlen buf) s₃ [')']).2).2.2.2)
    rw [hp']
    cases b with
    | false =>
      refine .panic fun c rest hc => ?_
      obtain ⟨d', mid, rs, h, -⟩ := block_iff.mp hc
      exact absurd (hb'.mpr ⟨mid, ((hd d' _).mp h).2.symm⟩) (by decide)
    | true =>
      obtain ⟨mid, hmid⟩ := hb'.mp rfl
      obtain ⟨q', eq', s₅, hg', hs₅, hl₅, -⟩ := gettoken_op hs₄ (hl₄.trans hmid)
      show Outcome buf _ _ _ (parseredirs buf (strlen buf) n cmd (gettoken buf (strlen buf) s₄).2.2.2)
      rw [hg']
      dsimp only
      have hlen : (lex buf s₅).length < n := by
        obtain ⟨vs, hvs, -⟩ := (hd d (lex buf s₃)).mpr ⟨rfl, rfl⟩
        rw [hvs, hmid, List.length_append, List.length_cons, ← hl₅] at hn
        omega
      have hred := parseredirs_outcome hs₅ hgood hlen
      generalize parseredirs buf (strlen buf) n cmd s₅ = r at hred ⊢
      -- the line ends before the parenthesis
      have hiff : ∀ c rest, Parses Exec FollowExec (.op '(' :: us) c rest ↔
          ∃ rs, Parses Redirs NoRedir (lex buf s₅) rs rest ∧ FollowExec rest ∧ c = wrap rs d := by
        intro c rest
        rw [block_iff]
        constructor
        · rintro ⟨d', mid', rs, h1, h2, h3, rfl⟩
          obtain ⟨rfl, he⟩ := (hd d' _).mp h1
          rw [hmid, List.cons.injEq] at he
          exact ⟨rs, by rw [hl₅, ← he.2]; exact h2, h3, rfl⟩
        · rintro ⟨rs, h2, h3, rfl⟩
          exact ⟨d, mid, rs, (hd _ _).mpr ⟨rfl, hmid.symm⟩, hl₅ ▸ h2, h3, rfl⟩
      cases hred with
      | @accept cmd' s₆ rs hs₆ hgood₆ hmap' hr =>
        by_cases hf : FollowExec (lex buf s₆)
        · refine .accept hs₆ hgood₆ (a := wrap rs d) ?_ fun c rest => ?_
          · rw [hmap', hmap]
            rfl
          · rw [hiff]
            constructor
            · rintro ⟨rs', h2, -, rfl⟩
              obtain ⟨rfl, rfl⟩ := (hr rs' rest).mp h2
              exact ⟨rfl, rfl⟩
            · rintro ⟨rfl, rfl⟩
              exact ⟨rs, (hr _ _).mpr ⟨rfl, rfl⟩, hf, rfl⟩
        · refine .leave hs₆ hf fun c rest hc => ?_
          obtain ⟨rs', h2, h3, -⟩ := (hiff c rest).mp hc
          obtain ⟨rfl, rfl⟩ := (hr rs' rest).mp h2
          exact hf h3
      | leave _ hF _ => exact absurd trivial hF
      | panic hr =>
        refine .panic fun c rest hc => ?_
        obtain ⟨rs', h2, -⟩ := (hiff c rest).mp hc
        exact hr rs' rest h2
  | @leave cmd s₃ hs₃ hF hd =>
    obtain ⟨b, s₄, hp', hs₄, hl₄, hb'⟩ := peek_one hs₃ (c := ')') (by decide) (by decide)
    have hb' : b = false := by
      cases b with
      | false => rfl
      | true =>
        obtain ⟨mid, hmid⟩ := hb'.mp rfl
        rw [hmid] at hF
        exact absurd List.mem_cons_self hF
    show Outcome buf _ _ _ (if !(peek buf (strlen buf) s₃ [')']).1 then throw (.panic "syntax - missing )")
      else parseredirs buf (strlen buf) n cmd (gettoken buf (strlen buf) (peek buf (strlen buf) s₃ [')']).2).2.2.2)
    rw [hp', hb']
    refine .panic fun c rest hc => ?_
    obtain ⟨d, mid, rs, h, -⟩ := block_iff.mp hc
    exact hd d _ h
  | panic hd =>
    refine .panic fun c rest hc => ?_
    obtain ⟨d, mid, rs, h, -⟩ := block_iff.mp hc
    exact hd d _ h

/-! ### Pipelines -/

theorem Good.append {d : Cmd Span} (h : Good buf cmd) (hd : Good buf d) :
    ∀ w ∈ cmd.words ++ d.words, WordAt buf w := fun w hw => by
  rcases List.mem_append.mp hw with hw | hw
  · exact h w hw
  · exact hd w hw

section Tails

variable {op : Char} {R : Cmd (List Char) → Tokens → Prop} {G : Tokens → Cmd (List Char) → Prop} {F : Tokens → Prop}
  {d : Cmd (List Char)} {k : Cmd Span → Cmd Span} {g : Cmd (List Char) → Cmd (List Char)}
  {next : Nat → Except Stop (Cmd Span × Nat)}

/-- After a first command there may be an operator and more of the same. -/
theorem Outcome.tail (hs : s ≤ strlen buf) (hop : op ∈ symbols) (hgt : op ≠ '>') (hF : ∀ us, ¬F (.op op :: us))
    (hR : ∀ c rest, R c rest ↔ c = d ∧ rest = lex buf s ∧ F (lex buf s) ∨
      ∃ us e, lex buf s = .op op :: us ∧ Parses G F us e rest ∧ c = g e)
    (hcmd : F (lex buf s) → Good buf cmd ∧ cmd.map (slice buf) = d)
    (hnext : ∀ {s'}, s' ≤ strlen buf → lex buf s = .op op :: lex buf s' →
      Outcome buf (Parses G F (lex buf s')) id F (next s'))
    (hk : ∀ us, lex buf s = .op op :: us → ∀ e, (Good buf e → Good buf (k e)) ∧ (k e).map (slice buf) = g (e.map (slice buf))) :
    Outcome buf R id F (if (peek buf (strlen buf) s [op]).1 then do
        let (right, s) ← next (gettoken buf (strlen buf) (peek buf (strlen buf) s [op]).2).2.2.2
        return (k right, s)
      else .ok (cmd, (peek buf (strlen buf) s [op]).2)) := by
  obtain ⟨b, s₂, hp, hs₂, hl₂, hb⟩ := peek_one hs hop hgt
  rw [hp]
  cases b with
  | false =>
    have hR' : ∀ c rest, R c rest ↔ c = d ∧ rest = lex buf s ∧ F (lex buf s) := fun c rest => by
      rw [hR]
      refine or_iff_left ?_
      rintro ⟨us, e, h, -⟩
      exact absurd (hb.mpr ⟨us, h⟩) (by decide)
    by_cases hf : F (lex buf s)
    · refine .accept hs₂ (hcmd hf).1 (hcmd hf).2 fun c rest => ?_
      rw [hR', hl₂]
      exact ⟨fun h => ⟨h.1, h.2.1⟩, fun h => ⟨h.1, h.2, hf⟩⟩
    · exact .leave hs₂ (by rwa [hl₂]) fun c rest hc => hf ((hR' c rest).mp hc).2.2
  | true =>
    obtain ⟨us, hus⟩ := hb.mp rfl
    obtain ⟨q, eq, s₃, hg, hs₃, hl₃, -⟩ := gettoken_op hs₂ (hl₂.trans hus)
    rw [if_pos rfl, hg]
    refine (hnext hs₃ (hl₃ ▸ hus)).map k g (fun c rest => ?_) (fun e => (hk us hus e).1) fun e => (hk us hus e).2
    rw [hR, hl₃]
    constructor
    · rintro (⟨-, -, hf⟩ | ⟨us', e, h, h2, rfl⟩)
      · exact absurd (hus ▸ hf) (hF us)
      · rw [hus, List.cons.injEq] at h
        exact ⟨e, rfl, h.2 ▸ h2⟩
    · rintro ⟨e, rfl, h2⟩
      exact .inr ⟨us, e, hus, h2, rfl⟩

end Tails

theorem parsepipe_ok {s₁ : Nat} (h : parseexec buf (strlen buf) n s = .ok (cmd, s₁)) :
    parsepipe buf (strlen buf) (n + 1) s =
      if (peek buf (strlen buf) s₁ ['|']).1 then do
        let (right, s) ← parsepipe buf (strlen buf) n (gettoken buf (strlen buf) (peek buf (strlen buf) s₁ ['|']).2).2.2.2
        return (Cmd.pipe cmd right, s)
      else .ok (cmd, (peek buf (strlen buf) s₁ ['|']).2) := by
  rw [parsepipe, h]
  rfl

theorem parsepipe_outcome
    (hexec : Outcome buf (Parses Exec FollowExec (lex buf s)) id FollowExec (parseexec buf (strlen buf) n s))
    (hpipe : ∀ {s'}, s' ≤ strlen buf → (lex buf s').length < (lex buf s).length →
      Outcome buf (Parses Pipe FollowPipe (lex buf s')) id FollowPipe (parsepipe buf (strlen buf) n s')) :
    Outcome buf (Parses Pipe FollowPipe (lex buf s)) id FollowPipe (parsepipe buf (strlen buf) (n + 1) s) := by
  generalize hr : parseexec buf (strlen buf) n s = r at hexec
  cases hexec with
  | @accept cmd s₁ d hs₁ hgood hmap hd =>
    obtain ⟨vs, hvs, -, -⟩ := (hd d (lex buf s₁)).mpr ⟨rfl, rfl⟩
    rw [parsepipe_ok hr]
    refine .tail (d := d) (g := .pipe d) hs₁ (by decide) (by decide) (by simp [Ends]) (fun c rest => ?_) (fun _ => ⟨hgood, hmap⟩)
      (fun hs' hl => hpipe hs' ?_) fun us hus e => ⟨hgood.append, ?_⟩
    · rw [pipe_iff, or_comm]
      constructor
      · rintro ⟨c', mid, h1, h2⟩
        obtain ⟨rfl, rfl⟩ := (hd c' mid).mp h1
        exact h2
      · exact fun h => ⟨d, _, (hd _ _).mpr ⟨rfl, rfl⟩, h⟩
    · rw [hvs, hl, List.length_append, List.length_cons]
      omega
    · rw [Cmd.map, hmap]
      rfl
  | @leave cmd s₁ hs₁ hF hd =>
    have hno : ∀ us, lex buf s₁ ≠ .op '|' :: us := fun us hus => hF (hus ▸ List.mem_cons_self)
    rw [parsepipe_ok hr]
    refine .tail (G := Pipe) (d := .exec []) (g := id) hs₁ (by decide) (by decide) (by simp [Ends]) (fun c rest => iff_of_false (fun hc => ?_) ?_)
      (fun hf => absurd hf.exec hF) (fun _ hl => absurd hl (hno _)) fun us hus => absurd hus (hno us)
    · obtain ⟨c', mid, h1, -⟩ := pipe_iff.mp hc
      exact hd c' mid h1
    · rintro (⟨-, -, hf⟩ | ⟨us, -, hus, -⟩)
      · exact hF hf.exec
      · exact hno us hus
  | panic hd =>
    rw [parsepipe, hr]
    refine .panic fun c rest hc => ?_
    obtain ⟨c', mid, h1, -⟩ := pipe_iff.mp hc
    exact hd c' mid h1

/-! ### Lines -/

theorem parsebacks_stop (hs : s ≤ strlen buf) (hno : ∀ us, lex buf s ≠ .op '&' :: us) (cmd : Cmd Span) :
    ∃ s', parsebacks buf (strlen buf) (n + 1) cmd s = .ok (cmd, s') ∧ s' ≤ strlen buf ∧ lex buf s' = lex buf s := by
  obtain ⟨b, s₁, hp, hs₁, hl₁, hb⟩ := peek_one hs (c := '&') (by decide) (by decide)
  rw [parsebacks, hp]
  cases b with
  | false => exact ⟨s₁, rfl, hs₁, hl₁⟩
  | true =>
    obtain ⟨us, hus⟩ := hb.mp rfl
    exact absurd hus (hno us)

/-- The loop of `parseline` takes the `&` off the rest of the line. -/
theorem parsebacks_spec (cmd : Cmd Span) (hs : s ≤ strlen buf) (hgood : Good buf cmd) (hn : (lex buf s).length < n) :
    ∃ cmd' s', parsebacks buf (strlen buf) n cmd s = .ok (cmd', s') ∧ s' ≤ strlen buf ∧ Good buf cmd' ∧
      (∀ us, lex buf s' ≠ .op '&' :: us) ∧ (∃ vs, lex buf s = vs ++ lex buf s') ∧ ∀ c rest,
        LineTail (cmd.map (slice buf)) (lex buf s) c rest ↔ LineTail (cmd'.map (slice buf)) (lex buf s') c rest := by
  induction n generalizing cmd s with
  | zero => exact absurd hn (Nat.not_lt_zero _)
  | succ n ih =>
    by_cases hno : ∀ us, lex buf s ≠ .op '&' :: us
    · obtain ⟨s₁, hback, hs₁, hl₁⟩ := parsebacks_stop hs hno cmd
      refine ⟨cmd, s₁, hback, hs₁, hgood, ?_, ⟨[], hl₁.symm⟩, fun c rest => ?_⟩
      · rw [hl₁]
        exact hno
      · rw [hl₁]
    · rw [not_forall] at hno
      obtain ⟨us, hus⟩ := hno
      have hus := not_not.mp hus
      obtain ⟨b, s₁, hp, hs₁, hl₁, hb⟩ := peek_one hs (c := '&') (by decide) (by decide)
      obtain ⟨q, eq, s₂, hg, hs₂, hl₂, -⟩ := gettoken_op hs₁ (hl₁.trans hus)
      rw [parsebacks, hp, hb.mpr ⟨us, hus⟩]
      dsimp only
      rw [if_pos rfl, hg]
      have hlen : (lex buf s₂).length < n := by
        rw [hus, ← hl₂, List.length_cons] at hn
        omega
      obtain ⟨cmd', s', h1, h2, h3, h4, ⟨vs, hvs⟩, h5⟩ := ih (.back cmd) hs₂ hgood hlen
      refine ⟨cmd', s', h1, h2, h3, h4, ⟨.op '&' :: vs, ?_⟩, fun c rest => ?_⟩
      · rw [hus, ← hl₂, hvs]
        rfl
      · rw [← h5, hus, lineTail_back_iff, hl₂]
        rfl

theorem parseline_ok {cmd' : Cmd Span} {s₁ s₂ : Nat} (h : parsepipe buf (strlen buf) n s = .ok (cmd, s₁))
    (h' : parsebacks buf (strlen buf) n cmd s₁ = .ok (cmd', s₂)) :
    parseline buf (strlen buf) (n + 1) s =
      if (peek buf (strlen buf) s₂ [';']).1 then do
        let (right, s) ← parseline buf (strlen buf) n (gettoken buf (strlen buf) (peek buf (strlen buf) s₂ [';']).2).2.2.2
        return (Cmd.list cmd' right, s)
      else .ok (cmd', (peek buf (strlen buf) s₂ [';']).2) := by
  rw [parseline, h]
  dsimp only [bind, Except.bind]
  rw [h']
  rfl

theorem parseline_outcome
    (hpipe : Outcome buf (Parses Pipe FollowPipe (lex buf s)) id FollowPipe (parsepipe buf (strlen buf) n s))
    (hline : ∀ {s'}, s' ≤ strlen buf → (lex buf s').length < (lex buf s).length →
      Outcome buf (Parses Line FollowLine (lex buf s')) id FollowLine (parseline buf (strlen buf) n s'))
    (hn : (lex buf s).length < n) :
    Outcome buf (Parses Line FollowLine (lex buf s)) id FollowLine (parseline buf (strlen buf) (n + 1) s) := by
  generalize hr : parsepipe buf (strlen buf) n s = r at hpipe
  cases hpipe with
  | @accept cmd s₁ d hs₁ hgood hmap hd =>
    obtain ⟨vs, hvs, -, -⟩ := (hd d (lex buf s₁)).mpr ⟨rfl, rfl⟩
    have hlen₁ : (lex buf s₁).length < n := by
      rw [hvs, List.length_append] at hn
      omega
    obtain ⟨cmd', s₂, hback, hs₂, hgood', hno, ⟨us, hus⟩, htail⟩ := parsebacks_spec cmd hs₁ hgood hlen₁
    have hiff : ∀ c rest, Parses Line FollowLine (lex buf s) c rest ↔
        LineTail (cmd'.map (slice buf)) (lex buf s₂) c rest := by
      intro c rest
      rw [← htail, line_iff, hmap]
      constructor
      · rintro ⟨c', mid, h1, h2⟩
        obtain ⟨rfl, rfl⟩ := (hd c' mid).mp h1
        exact h2
      · intro h2
        exact ⟨d, _, (hd _ _).mpr ⟨rfl, rfl⟩, h2⟩
    rw [parseline_ok hr hback]
    refine .tail (g := .list (cmd'.map (slice buf))) hs₂ (by decide) (by decide) (by simp [Ends]) (fun c rest => ?_) (fun _ => ⟨hgood', rfl⟩)
      (fun hs' hl => hline hs' ?_) fun us hus e => ⟨hgood'.append, rfl⟩
    · rw [hiff, lineTail_iff hno]
    · rw [hvs, hus, hl, List.length_append, List.length_append, List.length_cons]
      omega
  | @leave cmd s₁ hs₁ hF hd =>
    -- nothing that belongs to a line comes next
    have hnot : ∀ {c us}, c ∈ ['&', ';', ')'] → lex buf s₁ ≠ .op c :: us := by
      intro c us hc hus
      rw [hus] at hF
      exact hF hc
    obtain ⟨m, rfl⟩ : ∃ m, n = m + 1 := ⟨n - 1, by omega⟩
    obtain ⟨s₂, hback, hs₂, hl₂⟩ := parsebacks_stop hs₁ (fun us => hnot (by decide)) cmd
    rw [parseline_ok hr hback]
    rw [← hl₂] at hF hnot
    refine .tail (G := Line) (d := .exec []) (g := id) hs₂ (by decide) (by decide) (by simp [Ends]) (fun c rest => iff_of_false (fun hc => ?_) ?_)
      (fun hf => absurd hf.pipe hF) (fun _ hl => absurd hl (hnot (by decide))) fun us hus => absurd hus (hnot (by decide))
    · obtain ⟨c', mid, h1, -⟩ := line_iff.mp hc
      exact hd c' mid h1
    · rintro (⟨-, -, hf⟩ | ⟨us, -, hus, -⟩)
      · exact hF hf.pipe
      · exact hnot (by decide) hus
  | panic hd =>
    rw [parseline, hr]
    refine .panic fun c rest hc => ?_
    obtain ⟨c', mid, h1, -⟩ := line_iff.mp hc
    exact hd c' mid h1

/-! ### All of them -/

/-- What the functions of the parser do with fuel `n`. -/
structure Parser (buf : List Char) (n : Nat) : Prop where
  line : ∀ {s}, s ≤ strlen buf → 4 * (lex buf s).length + 6 ≤ n →
    Outcome buf (Parses Line FollowLine (lex buf s)) id FollowLine (parseline buf (strlen buf) n s)
  pipe : ∀ {s}, s ≤ strlen buf → 4 * (lex buf s).length + 5 ≤ n →
    Outcome buf (Parses Pipe FollowPipe (lex buf s)) id FollowPipe (parsepipe buf (strlen buf) n s)
  exec : ∀ {s}, s ≤ strlen buf → 4 * (lex buf s).length + 4 ≤ n →
    Outcome buf (Parses Exec FollowExec (lex buf s)) id FollowExec (parseexec buf (strlen buf) n s)
  block : ∀ {s us}, s ≤ strlen buf → lex buf s = .op '(' :: us → 4 * (lex buf s).length + 3 ≤ n →
    Outcome buf (Parses Exec FollowExec (lex buf s)) id FollowExec (parseblock buf (strlen buf) n s)

theorem parser_outcome (buf : List Char) (n : Nat) : Parser buf n := by
  induction n with
  | zero => exact ⟨by omega, by omega, by omega, by omega⟩
  | succ n ih =>
    refine ⟨fun hs hn => ?_, fun hs hn => ?_, fun {s} hs hn => ?_, fun hs hl hn => ?_⟩
    · exact parseline_outcome (ih.pipe hs (by omega)) (fun hs' hlen => ih.line hs' (by omega)) (by omega)
    · exact parsepipe_outcome (ih.exec hs (by omega)) (fun hs' hlen => ih.pipe hs' (by omega))
    · by_cases hno : ∀ us, lex buf s ≠ .op '(' :: us
      · exact parseexec_simple hs hno (by omega)
      · rw [not_forall] at hno
        obtain ⟨us, hus⟩ := hno
        have hus := not_not.mp hus
        obtain ⟨b, s₁, hp, hs₁, hl₁, hb⟩ := peek_one hs (c := '(') (by decide) (by decide)
        rw [parseexec, hp, hb.mpr ⟨us, hus⟩, ← hl₁]
        exact ih.block hs₁ (hl₁.trans hus) (by rw [hl₁]; omega)
    · rw [hl, List.length_cons] at hn
      refine parseblock_outcome hs hl (by omega) fun hs' hl' => ih.line hs' ?_
      rw [hl']
      omega

end Outcomes

/-! ## The words in the line -/

section Strings

variable {buf b : List Char}

theorem nulterminate_eq (cmd : Cmd Span) (buf : List Char) :
    nulterminate cmd buf = cmd.words.foldl (fun b w => b.set w.2 nul) buf := by
  induction cmd generalizing buf with
  | exec argv => rfl
  | redir cmd file mode fd ih => rw [nulterminate, ih, Cmd.words, List.foldl_append]; rfl
  | pipe left right ih₁ ih₂ | list left right ih₁ ih₂ => rw [nulterminate, ih₁, ih₂, Cmd.words, List.foldl_append]
  | back cmd ih => rw [nulterminate, ih, Cmd.words]

theorem deref_set (buf : List Char) (i j : Nat) : deref (buf.set i nul) j = if i = j then nul else deref buf j := by
  simp only [deref, List.getD_eq_getElem?_getD, List.getElem?_set]
  split
  · split <;> rfl
  · rfl

/-- A character is NUL afterwards if a word ends there. -/
theorem deref_foldl (ws : List Span) (buf : List Char) (j : Nat) :
    deref (ws.foldl (fun b w => b.set w.2 nul) buf) j = if ∃ w ∈ ws, w.2 = j then nul else deref buf j := by
  induction ws generalizing buf with
  | nil => simp
  | cons w ws ih =>
    rw [List.foldl_cons, ih, deref_set]
    by_cases h1 : ∃ w ∈ ws, w.2 = j
    · obtain ⟨v, hv, hj⟩ := h1
      rw [if_pos ⟨v, hv, hj⟩, if_pos ⟨v, List.mem_cons_of_mem w hv, hj⟩]
    · rw [if_neg h1]
      by_cases h2 : w.2 = j
      · rw [if_pos h2, if_pos ⟨w, List.mem_cons_self, h2⟩]
      · rw [if_neg h2, if_neg]
        rintro ⟨v, hv, hj⟩
        rcases List.mem_cons.mp hv with rfl | hv
        · exact h2 hj
        · exact h1 ⟨v, hv, hj⟩

/-- A string that ends at the next NUL. -/
theorem cstr_eq {q e : Nat} (hq : q ≤ e) (hsame : ∀ i, q ≤ i → i < e → deref b i = deref buf i ∧ deref buf i ≠ nul)
    (hend : deref b e = nul) : cstr b q = slice buf (q, e) := by
  have hdrop : ∀ {l : List Char} {i}, deref l i ≠ nul → l.drop i = deref l i :: l.drop (i + 1) := by
    intro l i hne
    have hlt : i < l.length := by
      by_contra hge
      exact hne (List.getD_eq_default _ _ (Nat.not_lt.mp hge))
    rw [List.drop_eq_getElem_cons hlt, deref, List.getD_eq_getElem _ _ hlt]
  obtain ⟨k, rfl⟩ := Nat.exists_eq_add_of_le hq
  clear hq
  induction k generalizing q with
  | zero =>
    rw [slice, cstr]
    rw [Nat.add_zero, Nat.sub_self, List.take_zero]
    by_cases hlt : q < b.length
    · rw [List.drop_eq_getElem_cons hlt, List.takeWhile_cons_of_neg]
      rw [Nat.add_zero, deref, List.getD_eq_getElem _ _ hlt] at hend
      simp [hend]
    · rw [List.drop_eq_nil_of_le (Nat.not_lt.mp hlt)]
      rfl
  | succ k ih =>
    obtain ⟨he, hne⟩ := hsame q (Nat.le_refl q) (by omega)
    have ih := ih (q := q + 1) (fun i h1 h2 => hsame i (by omega) (by omega)) (by rw [← hend]; congr 1; omega)
    rw [cstr, hdrop (he ▸ hne), he, List.takeWhile_cons_of_pos (by simpa using hne), slice]
    have hk : q + (k + 1) - q = k + 1 := by omega
    have hk' : q + 1 + k - (q + 1) = k := by omega
    rw [hk, hdrop hne, List.take_succ_cons]
    rw [cstr, slice, hk'] at ih
    exact congrArg _ ih

/-- Each word of a command is the string at its pointer. -/
theorem cstr_nulterminate {cmd : Cmd Span} {w : Span} (hgood : Good buf cmd) (hw : w ∈ cmd.words) :
    cstr (nulterminate cmd buf) w.1 = slice buf w := by
  have hat := hgood w hw
  rw [nulterminate_eq]
  refine cstr_eq (Nat.le_of_lt hat.lt) (fun i h1 h2 => ?_) ?_
  · have hi : isWord (deref buf i) = true := hat.inside i h1 h2
    refine ⟨?_, deref_ne (Nat.lt_of_lt_of_le h2 hat.le)⟩
    rw [deref_foldl, if_neg]
    -- no word ends inside this one
    rintro ⟨v, hv, rfl⟩
    have hstop := (hgood v hv).stop (Nat.lt_of_lt_of_le h2 hat.le)
    rw [hi] at hstop
    cases hstop
  · rw [deref_foldl, if_pos ⟨w, hw, rfl⟩]

end Strings

/-! ## The whole line -/

theorem parsecmd_ok {n s : Nat} {buf : List Char} {cmd : Cmd Span} (h : parseline buf (strlen buf) n 0 = .ok (cmd, s)) :
    parsecmd n buf = if skip buf (strlen buf) isSpace s ≠ strlen buf then .error (.panic "syntax")
      else .ok (cmd, nulterminate cmd buf) := by
  rw [parsecmd, h]
  rfl

theorem parsed_ok {n s : Nat} {buf : List Char} {cmd : Cmd Span} (h : parseline buf (strlen buf) n 0 = .ok (cmd, s)) :
    parsed n buf = if skip buf (strlen buf) isSpace s ≠ strlen buf then .error (.panic "syntax")
      else .ok (cmd.map fun w => cstr (nulterminate cmd buf) w.1) := by
  rw [parsed, parsecmd_ok h]
  split <;> rfl

theorem parsed_error {n : Nat} {buf : List Char} {e : Stop} (h : parseline buf (strlen buf) n 0 = .error e) :
    parsed n buf = .error e := by
  rw [parsed, parsecmd, h]
  rfl

/-- **The parser accepts the grammar.** With enough fuel, `parsecmd` returns a command exactly for the lines whose tokens
derive from `line`, and that of the derivation; for all others it panics. -/
theorem parsecmd_grammar (buf : List Char) : ∃ N, ∀ n ≥ N, (∀ cmd, parsed n buf = .ok cmd ↔ Line (tokens buf) cmd) ∧
    ((¬∃ cmd, Line (tokens buf) cmd) → ∃ msg, parsed n buf = .error (.panic msg)) := by
  refine ⟨4 * (tokens buf).length + 6, fun n hn => ?_⟩
  have hline := (parser_outcome buf n).line (Nat.zero_le _) hn
  have hfull : ∀ cmd, Line (tokens buf) cmd ↔ Parses Line FollowLine (tokens buf) cmd [] := by
    intro cmd
    constructor
    · intro h
      exact ⟨_, (List.append_nil _).symm, h, trivial⟩
    · rintro ⟨us, hus, h, -⟩
      rw [List.append_nil] at hus
      rw [hus]
      exact h
  -- without a derivation, the parser has to panic
  have hpanic : (∀ cmd, ¬Parses Line FollowLine (tokens buf) cmd []) → (∃ msg, parsed n buf = .error (.panic msg)) →
      (∀ cmd, parsed n buf = .ok cmd ↔ Line (tokens buf) cmd) ∧
        ((¬∃ cmd, Line (tokens buf) cmd) → ∃ msg, parsed n buf = .error (.panic msg)) := by
    rintro hnone ⟨msg, hmsg⟩
    refine ⟨fun cmd => ?_, fun _ => ⟨msg, hmsg⟩⟩
    rw [hmsg, hfull]
    exact ⟨nofun, fun h => absurd h (hnone cmd)⟩
  generalize hr : parseline buf (strlen buf) n 0 = r at hline
  cases hline with
  | @accept cmd s c hs hgood hmap hc =>
    by_cases hend : skip buf (strlen buf) isSpace s = strlen buf
    · have hl : lex buf s = [] := (lex_eq_nil hs).mpr hend
      have hp : parsed n buf = .ok c := by
        rw [parsed_ok hr, if_neg (not_not_intro hend), Cmd.map_congr fun w hw => cstr_nulterminate hgood hw, hmap]
        rfl
      have hiff : ∀ cmd', Line (tokens buf) cmd' ↔ cmd' = c := by
        intro cmd'
        rw [hfull]
        refine (hc cmd' []).trans ?_
        rw [hl]
        exact and_iff_left rfl
      refine ⟨fun cmd' => ?_, fun hnone => absurd ⟨c, (hiff c).mpr rfl⟩ hnone⟩
      rw [hp, hiff, Except.ok.injEq]
      exact eq_comm
    · refine hpanic (fun cmd' h => ?_) ⟨"syntax", by rw [parsed_ok hr, if_pos hend]⟩
      exact hend ((lex_eq_nil hs).mp ((hc cmd' []).mp h).2.symm)
  | @leave cmd s hs hF hc =>
    refine hpanic (fun cmd' => hc cmd' []) ⟨"syntax", ?_⟩
    rw [parsed_ok hr, if_pos]
    intro hend
    rw [(lex_eq_nil hs).mpr hend] at hF
    exact hF trivial
  | panic hc => exact hpanic (fun cmd' => hc cmd' []) ⟨_, parsed_error hr⟩

example : parsed 40 "echo a >>b c; (d | e <f) &".toList =
    .ok (.list (.redir (.exec ["echo".toList, "a".toList, "c".toList]) "b".toList (O_WRONLY ||| O_CREATE) 1)
      (.back (.pipe (.exec ["d".toList]) (.redir (.exec ["e".toList]) "f".toList O_RDONLY 0)))) := by rfl

/-- **`nulterminate` delivers the words.** Every word of a command that `parsecmd` accepts is delimited as `gettoken` does
it, and after `nulterminate` the string at its pointer is what stood between its two pointers. -/
theorem nulterminate_exact {n : Nat} {buf b : List Char} {cmd : Cmd Span} (hn : 4 * (tokens buf).length + 6 ≤ n)
    (h : parsecmd n buf = .ok (cmd, b)) : ∀ w ∈ cmd.words, WordAt buf w ∧ cstr b w.1 = slice buf w := by
  have hline := (parser_outcome buf n).line (Nat.zero_le _) hn
  generalize hr : parseline buf (strlen buf) n 0 = r at hline
  cases hline with
  | @accept c s a hs hgood hmap hP =>
    rw [parsecmd_ok hr] at h
    split at h
    · cases h
    · cases h
      exact fun w hw => ⟨hgood w hw, cstr_nulterminate hgood hw⟩
  | @leave c s hs hF hP =>
    -- what the parser left is not empty, and `parsecmd` panics
    rw [parsecmd_ok hr, if_pos] at h
    · cases h
    · intro hend
      rw [(lex_eq_nil hs).mpr hend] at hF
      exact hF trivial
  | panic hP =>
    rw [parsecmd, hr] at h
    cases h

/-- The second word ends where the operator stands. -/
theorem nulterminate_exact_cat : ∃ cmd b, parsecmd 22 "cat a>b".toList = .ok (cmd, b) ∧ (4, 5) ∈ cmd.words ∧
    cstr b 4 = "a".toList := by
  have h : parsecmd 22 "cat a>b".toList =
      .ok (.redir (.exec [(0, 3), (4, 5)]) (6, 7) 0x601 1, "cat\x00a\x00b".toList) := by rfl
  exact ⟨_, _, h, by decide, (nulterminate_exact (by decide) h (4, 5) (by decide)).2⟩

end Xv6.Shell
