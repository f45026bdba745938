import Mathlib.Data.List.Basic
import Xv6.Shell.Grammar

/-!
# The tokens of a line

`tokens buf` is what `gettoken` returns when it is called again and again from the start of the line, and `lex buf s` the
same from position `s` on. `gettoken_nil`, `gettoken_op`, `gettoken_word` and `peek_spec` say what `gettoken` and `peek` do
in terms of `lex`; the parser's proofs use nothing else about characters.
-/

namespace Xv6.Shell

section Lexer

variable {buf : List Char} {p : Char → Bool} {n s i : Nat}

/-! ## The end of the line -/

theorem deref_strlen : deref buf (strlen buf) = nul := by
  induction buf with
  | nil => rfl
  | cons c buf ih =>
    by_cases hc : c = nul
    · simp [strlen, deref, hc]
    · simp only [strlen, deref] at ih ⊢
      rw [List.takeWhile_cons_of_pos (by simpa using hc), List.length_cons, List.getD_cons_succ]
      exact ih

theorem deref_ne (h : i < strlen buf) : deref buf i ≠ nul := by
  induction buf generalizing i with
  | nil => cases h
  | cons c buf ih =>
    by_cases hc : c = nul
    · simp [strlen, hc] at h
    · cases i with
      | zero => exact hc
      | succ i =>
        refine ih ?_
        rw [strlen, List.takeWhile_cons_of_pos (by simpa using hc), List.length_cons] at h
        exact Nat.lt_of_succ_lt_succ h

/-! ## Loops over characters -/

/-- Where a loop ends, and what it has passed. -/
theorem skipN_spec (buf : List Char) (p : Char → Bool) (n s : Nat) : s ≤ skipN buf p n s ∧ skipN buf p n s ≤ s + n ∧
    (∀ i, s ≤ i → i < skipN buf p n s → p (deref buf i) = true) ∧
    (skipN buf p n s < s + n → p (deref buf (skipN buf p n s)) = false) := by
  induction n generalizing s with
  | zero =>
    refine ⟨Nat.le_refl _, Nat.le_refl _, fun i h1 h2 => ?_, fun h => ?_⟩
    · exact absurd h2 (Nat.not_lt.mpr h1)
    · exact absurd h (Nat.lt_irrefl _)
  | succ n ih =>
    rw [skipN]
    split
    · next hp =>
      obtain ⟨h1, h2, h3, h4⟩ := ih (s + 1)
      refine ⟨by omega, by omega, fun i hi hlt => ?_, fun hlt => h4 (by omega)⟩
      rcases Nat.eq_or_lt_of_le hi with rfl | hi
      · exact hp
      · exact h3 i hi hlt
    · next hp =>
      refine ⟨Nat.le_refl _, by omega, fun i h1 h2 => ?_, fun _ => by simpa using hp⟩
      exact absurd h2 (Nat.not_lt.mpr h1)

variable (h : s ≤ strlen buf)
include h

theorem skip_spec (p : Char → Bool) : s ≤ skip buf (strlen buf) p s ∧ skip buf (strlen buf) p s ≤ strlen buf ∧
    (∀ i, s ≤ i → i < skip buf (strlen buf) p s → p (deref buf i) = true) ∧
    (skip buf (strlen buf) p s < strlen buf → p (deref buf (skip buf (strlen buf) p s)) = false) := by
  obtain ⟨h1, h2, h3, h4⟩ := skipN_spec buf p (strlen buf - s) s
  exact ⟨h1, by unfold skip; omega, h3, fun hlt => h4 (by unfold skip at hlt; omega)⟩

/-- A loop that has nothing to do. -/
theorem skip_eq (hp : s < strlen buf → p (deref buf s) = false) : skip buf (strlen buf) p s = s := by
  rw [skip]
  cases hn : strlen buf - s with
  | zero => rfl
  | succ n =>
    rw [skipN, hp (by omega)]
    rfl

theorem skip_skip : skip buf (strlen buf) p (skip buf (strlen buf) p s) = skip buf (strlen buf) p s := by
  obtain ⟨-, h2, -, h4⟩ := skip_spec h p
  exact skip_eq h2 h4

end Lexer

/-! ## Tokens -/

/-- The characters of a word. -/
def slice (buf : List Char) (w : Span) : List Char := (buf.drop w.1).take (w.2 - w.1)

/-- The characters from `w.1` to `w.2` are a word. -/
structure WordAt (buf : List Char) (w : Span) : Prop where
  lt : w.1 < w.2
  le : w.2 ≤ strlen buf
  inside : ∀ i, w.1 ≤ i → i < w.2 → isWord (deref buf i) = true
  stop : w.2 < strlen buf → isWord (deref buf w.2) = false

def toToken (buf : List Char) (ret : Char) (w : Span) : Token (List Char) :=
  if ret = 'a' then .word (slice buf w) else .op ret

/-- At most `n` tokens. -/
def lexN (buf : List Char) : Nat → Nat → List (Token (List Char))
  | 0, _ => []
  | n + 1, s =>
    let (ret, q, eq, s) := gettoken buf (strlen buf) s
    if ret = nul then [] else toToken buf ret (q, eq) :: lexN buf n s

/-- The tokens from a position on. -/
def lex (buf : List Char) (s : Nat) : List (Token (List Char)) := lexN buf (strlen buf - s) s

/-- The tokens of a line. -/
def tokens (buf : List Char) : List (Token (List Char)) := lex buf 0

/-- The operators. -/
def ops : List Char := ['|', '(', ')', ';', '&', '<', '>', '+']

/-- The character that an operator begins with. -/
def first (c : Char) : Char := if c = '+' then '>' else c

section Tokens

variable {buf : List Char} {s q : Nat}

theorem token_spec (hq : q < strlen buf) (hs : isSpace (deref buf q) = false) :
    ∃ ret eq, token buf (strlen buf) q = (ret, eq) ∧ q < eq ∧ eq ≤ strlen buf ∧
      (ret = 'a' ∧ isWord (deref buf q) = true ∧ WordAt buf (q, eq) ∨ ret ∈ ops ∧ deref buf q = first ret) := by
  unfold token
  rw [if_neg (deref_ne hq)]
  split
  · next hc =>
    refine ⟨_, _, rfl, Nat.lt_succ_self q, hq, .inr ?_⟩
    have hops : ∀ c ∈ ['|', '(', ')', ';', '&', '<'], c ∈ ops ∧ c = first c := by simp [ops, first]
    exact hops _ (List.contains_iff_mem.mp hc)
  · next hc =>
    split
    · next hgt =>
      split
      · next hgt' =>
        refine ⟨_, _, rfl, by omega, ?_, .inr ⟨by decide, hgt⟩⟩
        -- the second character is not the NUL at the end
        by_contra hle
        have hend : q + 1 = strlen buf := by omega
        rw [hend, deref_strlen] at hgt'
        exact absurd hgt' (by decide)
      · refine ⟨_, _, rfl, Nat.lt_succ_self q, hq, .inr ?_⟩
        rw [hgt]
        decide
    · next hgt =>
      have hword : isWord (deref buf q) = true := by
        have hw : ∀ c : Char, isSpace c = false → ¬['|', '(', ')', ';', '&', '<'].contains c = true → c ≠ '>' →
            isWord c = true := by
          intro c h1 h2 h3
          simp only [isSpace] at h1
          simp only [isWord, h1, symbols, Bool.not_false, Bool.true_and, Bool.not_eq_true', List.contains_eq_mem,
            List.mem_cons, List.not_mem_nil, or_false, decide_eq_false_iff_not, not_or] at h2 ⊢
          simp only [decide_eq_true_eq, not_or] at h2
          tauto
        exact hw _ hs hc hgt
      obtain ⟨h1, h2, h3, h4⟩ := skip_spec (Nat.le_of_lt hq) isWord
      have hlt : q < skip buf (strlen buf) isWord q := by
        refine Nat.lt_of_le_of_ne h1 fun he => ?_
        have h4 := h4 (by rw [← he]; exact hq)
        rw [← he, hword] at h4
        cases h4
      exact ⟨_, _, rfl, hlt, h2, .inl ⟨rfl, hword, hlt, h2, h3, h4⟩⟩

/-- `gettoken` at the end of the line. -/
theorem gettoken_end (hq : skip buf (strlen buf) isSpace s = strlen buf) :
    gettoken buf (strlen buf) s = (nul, strlen buf, strlen buf, strlen buf) := by
  have ht : token buf (strlen buf) (strlen buf) = (nul, strlen buf) := by
    unfold token
    rw [deref_strlen, if_pos rfl]
  have hs : skip buf (strlen buf) isSpace (strlen buf) = strlen buf :=
    skip_eq (Nat.le_refl _) fun h => absurd h (Nat.lt_irrefl _)
  rw [gettoken, hq, ht]
  dsimp only
  rw [hs]

/-- `gettoken` before the end. -/
theorem gettoken_spec (h : s ≤ strlen buf) (hq : skip buf (strlen buf) isSpace s < strlen buf) :
    ∃ ret eq s', gettoken buf (strlen buf) s = (ret, skip buf (strlen buf) isSpace s, eq, s') ∧ s < s' ∧ s' ≤ strlen buf ∧
      (ret = 'a' ∧ isWord (deref buf (skip buf (strlen buf) isSpace s)) = true ∧
          WordAt buf (skip buf (strlen buf) isSpace s, eq) ∨
        ret ∈ ops ∧ deref buf (skip buf (strlen buf) isSpace s) = first ret) := by
  obtain ⟨h1, -, -, h4⟩ := skip_spec h isSpace
  obtain ⟨ret, eq, ht, hlt, hle, hret⟩ := token_spec hq (h4 hq)
  obtain ⟨h1', h2', -, -⟩ := skip_spec hle isSpace
  refine ⟨ret, eq, skip buf (strlen buf) isSpace eq, ?_, by omega, h2', hret⟩
  rw [gettoken, ht]

theorem ops_ne {c : Char} (h : c ∈ ops) : c ≠ nul ∧ c ≠ 'a' := by
  have hops : ∀ c ∈ ops, c ≠ nul ∧ c ≠ 'a' := by simp [ops, nul]
  exact hops c h

/-- The number of turns does not matter. -/
theorem lexN_eq {m n : Nat} (h : s ≤ strlen buf) (hm : strlen buf - s ≤ m) (hn : strlen buf - s ≤ n) :
    lexN buf m s = lexN buf n s := by
  -- at the end of the line there is no token, whatever the number of turns
  have hend : ∀ {s}, skip buf (strlen buf) isSpace s = strlen buf → ∀ k, lexN buf k s = [] := by
    intro s hs k
    cases k with
    | zero => rfl
    | succ k =>
      rw [lexN, gettoken_end hs]
      rfl
  induction m generalizing n s with
  | zero =>
    have hs : skip buf (strlen buf) isSpace s = strlen buf := by
      obtain ⟨h1, h2, -, -⟩ := skip_spec h isSpace
      omega
    rw [hend hs, hend hs]
  | succ m ih =>
    obtain ⟨h1, h2, -, -⟩ := skip_spec h isSpace
    rcases Nat.eq_or_lt_of_le h2 with hs | hs
    · rw [hend hs, hend hs]
    · cases n with
      | zero => omega
      | succ n =>
        obtain ⟨ret, eq, s', hg, hlt, hle, -⟩ := gettoken_spec h hs
        rw [lexN, lexN, hg]
        dsimp only
        have hrest : lexN buf m s' = lexN buf n s' := ih hle (by omega) (by omega)
        rw [hrest]

/-- There are no tokens behind the last one. -/
theorem lex_end (hq : skip buf (strlen buf) isSpace s = strlen buf) : lex buf s = [] := by
  rw [lex]
  cases strlen buf - s with
  | zero => rfl
  | succ n =>
    rw [lexN, gettoken_end hq]
    rfl

theorem lex_cons {ret : Char} {eq s' : Nat} (h : s ≤ strlen buf)
    (hg : gettoken buf (strlen buf) s = (ret, q, eq, s')) (hret : ret ≠ nul) (hlt : s < s') (hle : s' ≤ strlen buf) :
    lex buf s = toToken buf ret (q, eq) :: lex buf s' := by
  rw [lex]
  obtain ⟨n, hn⟩ : ∃ n, strlen buf - s = n + 1 := ⟨strlen buf - s - 1, by omega⟩
  rw [hn, lexN, hg]
  dsimp only
  rw [if_neg hret, lex, lexN_eq hle (by omega) (Nat.le_refl _)]

/-- White space before a token makes no difference. -/
theorem lex_skip (h : s ≤ strlen buf) : lex buf (skip buf (strlen buf) isSpace s) = lex buf s := by
  obtain ⟨h1, h2, -, -⟩ := skip_spec h isSpace
  have hidem := skip_skip (p := isSpace) h
  rcases Nat.eq_or_lt_of_le h2 with hs | hs
  · rw [lex_end hs, lex_end (hidem.trans hs)]
  · obtain ⟨ret, eq, s', hg, hlt, hle, hret⟩ := gettoken_spec h hs
    have hsame : gettoken buf (strlen buf) (skip buf (strlen buf) isSpace s) = gettoken buf (strlen buf) s := by
      rw [gettoken, hidem, gettoken]
    obtain ⟨ret', eq', s'', hg', hlt', -⟩ := gettoken_spec h2 (hidem.symm ▸ hs)
    obtain rfl : s'' = s' := by
      have he := hg'.symm.trans (hsame.trans hg)
      simp only [Prod.mk.injEq] at he
      exact he.2.2.2
    have hne : ret ≠ nul := by
      rcases hret with ⟨rfl, -⟩ | ⟨hops, -⟩
      · decide
      · exact (ops_ne hops).1
    rw [lex_cons h2 (hsame.trans hg) hne hlt' hle, lex_cons h hg hne hlt hle]

/-! ## What the parser sees -/

variable (h : s ≤ strlen buf)
include h

/-- The next token is nothing, a word or an operator. -/
theorem lex_cases : (lex buf s = [] ∧ gettoken buf (strlen buf) s = (nul, strlen buf, strlen buf, strlen buf) ∧
      skip buf (strlen buf) isSpace s = strlen buf) ∨
    ∃ ret q eq s', gettoken buf (strlen buf) s = (ret, q, eq, s') ∧ s' ≤ strlen buf ∧
      skip buf (strlen buf) isSpace s < strlen buf ∧
      (ret = 'a' ∧ lex buf s = .word (slice buf (q, eq)) :: lex buf s' ∧ WordAt buf (q, eq) ∧
          isWord (deref buf (skip buf (strlen buf) isSpace s)) = true ∨
        ret ∈ ops ∧ lex buf s = .op ret :: lex buf s' ∧ deref buf (skip buf (strlen buf) isSpace s) = first ret) := by
  obtain ⟨-, h2, -, -⟩ := skip_spec h isSpace
  rcases Nat.eq_or_lt_of_le h2 with hs | hs
  · exact .inl ⟨lex_end hs, gettoken_end hs, hs⟩
  · obtain ⟨ret, eq, s', hg, hlt, hle, hret⟩ := gettoken_spec h hs
    refine .inr ⟨ret, _, eq, s', hg, hle, hs, ?_⟩
    rcases hret with ⟨rfl, hw, hat⟩ | ⟨hops, hd⟩
    · refine .inl ⟨rfl, ?_, hat, hw⟩
      rw [lex_cons h hg (by decide) hlt hle]
      rfl
    · refine .inr ⟨hops, ?_, hd⟩
      rw [lex_cons h hg (ops_ne hops).1 hlt hle, toToken, if_neg (ops_ne hops).2]

theorem gettoken_nil (hl : lex buf s = []) :
    gettoken buf (strlen buf) s = (nul, strlen buf, strlen buf, strlen buf) := by
  rcases lex_cases h with ⟨-, hg, -⟩ | ⟨ret, q, eq, s', -, -, -, ⟨-, hl', -⟩ | ⟨-, hl', -⟩⟩
  · exact hg
  · rw [hl] at hl'
    cases hl'
  · rw [hl] at hl'
    cases hl'

theorem gettoken_op {c : Char} {us : List (Token (List Char))} (hl : lex buf s = .op c :: us) :
    ∃ q eq s', gettoken buf (strlen buf) s = (c, q, eq, s') ∧ s' ≤ strlen buf ∧ lex buf s' = us ∧ c ∈ ops := by
  rcases lex_cases h with ⟨hl', -, -⟩ | ⟨ret, q, eq, s', hg, hle, -, ⟨-, hl', -⟩ | ⟨hops, hl', -⟩⟩
  · rw [hl] at hl'
    cases hl'
  · rw [hl] at hl'
    cases hl'
  · rw [hl] at hl'
    cases hl'
    exact ⟨q, eq, s', hg, hle, rfl, hops⟩

theorem gettoken_word {w : List Char} {us : List (Token (List Char))} (hl : lex buf s = .word w :: us) :
    ∃ q eq s', gettoken buf (strlen buf) s = ('a', q, eq, s') ∧ s' ≤ strlen buf ∧ lex buf s' = us ∧
      slice buf (q, eq) = w ∧ WordAt buf (q, eq) := by
  rcases lex_cases h with ⟨hl', -, -⟩ | ⟨ret, q, eq, s', hg, hle, -, ⟨rfl, hl', hat, -⟩ | ⟨hops, hl', -⟩⟩
  · rw [hl] at hl'
    cases hl'
  · rw [hl] at hl'
    cases hl'
    exact ⟨q, eq, s', hg, hle, rfl, rfl, hat⟩
  · rw [hl] at hl'
    cases hl'

/-- `peek` looks at the first character of an operator. -/
theorem peek_spec {toks : List Char} (htoks : ∀ c ∈ toks, c ∈ symbols) :
    ∃ b s', peek buf (strlen buf) s toks = (b, s') ∧ s' ≤ strlen buf ∧ lex buf s' = lex buf s ∧
      (b = true ↔ ∃ c us, lex buf s = .op c :: us ∧ first c ∈ toks) := by
  refine ⟨_, _, rfl, (skip_spec h isSpace).2.1, lex_skip h, ?_⟩
  rw [Bool.and_eq_true, decide_eq_true_iff, List.contains_iff_mem]
  rcases lex_cases h with ⟨hl, -, hs⟩ | ⟨ret, q, eq, s', -, -, hs, ⟨-, hl, -, hw⟩ | ⟨hops, hl, hd⟩⟩
  · rw [hs, deref_strlen, hl]
    constructor
    · rintro ⟨hne, -⟩
      exact absurd rfl hne
    · rintro ⟨c, us, hc, -⟩
      cases hc
  · rw [hl]
    constructor
    · rintro ⟨-, hmem⟩
      rw [isWord, List.contains_iff_mem.mpr (htoks _ hmem)] at hw
      simp at hw
    · rintro ⟨c, us, hc, -⟩
      cases hc
  · rw [hl, hd]
    constructor
    · rintro ⟨-, hmem⟩
      exact ⟨ret, lex buf s', rfl, hmem⟩
    · rintro ⟨c, us, hc, hmem⟩
      cases hc
      exact ⟨hd ▸ deref_ne hs, hmem⟩

/-- `peek` for one operator. -/
theorem peek_one {c : Char} (hc : c ∈ symbols) (hgt : c ≠ '>') :
    ∃ b s', peek buf (strlen buf) s [c] = (b, s') ∧ s' ≤ strlen buf ∧ lex buf s' = lex buf s ∧
      (b = true ↔ ∃ us, lex buf s = .op c :: us) := by
  have htoks : ∀ d ∈ [c], d ∈ symbols := by simpa using hc
  obtain ⟨b, s', hp, hle, hl, hb⟩ := peek_spec h htoks
  refine ⟨b, s', hp, hle, hl, hb.trans ?_⟩
  have hplus : c ≠ '+' := by
    rintro rfl
    exact absurd hc (by decide)
  constructor
  · rintro ⟨d, us, hd, hf⟩
    rw [List.mem_singleton, first] at hf
    split at hf
    · exact absurd hf.symm hgt
    · exact ⟨us, hf ▸ hd⟩
  · rintro ⟨us, hd⟩
    refine ⟨c, us, hd, ?_⟩
    rw [first, if_neg hplus]
    exact List.mem_singleton_self c

theorem lex_eq_nil : lex buf s = [] ↔ skip buf (strlen buf) isSpace s = strlen buf := by
  rcases lex_cases h with ⟨hl, -, hs⟩ | ⟨ret, q, eq, s', -, -, hs, ⟨-, hl, -⟩ | ⟨-, hl, -⟩⟩
  · exact ⟨fun _ => hs, fun _ => hl⟩
  · rw [hl]
    exact ⟨nofun, fun he => absurd he (Nat.ne_of_lt hs)⟩
  · rw [hl]
    exact ⟨nofun, fun he => absurd he (Nat.ne_of_lt hs)⟩

end Tokens

end Xv6.Shell
