import Xv6.Console.Model

/-!
# Console input is delivered once

- `Cons.Ok`: the order of the three counters, which wrap around;
- `Cons.intr_buffered`: `consoleintr` only adds to the bytes that readers may take, and never changes one of them;
- `consLoop_buffered`: the loop of `consoleread` takes bytes from the front;
- `console_delivers`: as long as `either_copyout` succeeds, the bytes passed on are handed out in order, each one once;
- `console_loses_byte`: a byte is lost when it fails.
-/

namespace Xv6

open Lib (slot window)

namespace Cons

variable {s : Cons} {c : BitVec 8}

theorem size_dvd : INPUT_BUF_SIZE ∣ 2 ^ 32 := by decide

/-- The bytes that readers may take, the next one first. -/
def buffered (s : Cons) : List (BitVec 8) := window s.buf s.r (s.w - s.r).toNat

/-- `cons.w - cons.r <= cons.e - cons.r <= INPUT_BUF_SIZE`. -/
structure Ok (s : Cons) : Prop where
  commit : s.w - s.r ≤ s.e - s.r
  size : s.e - s.r ≤ BitVec.ofNat 32 INPUT_BUF_SIZE

/-- One character is erased. -/
theorem Ok.erase (h : s.Ok) (he : s.e ≠ s.w) : Ok { s with e := s.e - 1 } := by
  obtain ⟨h1, h2⟩ := h
  unfold INPUT_BUF_SIZE at h2
  refine ⟨?_, ?_⟩
  · show s.w - s.r ≤ s.e - 1 - s.r
    bv_omega
  · show s.e - 1 - s.r ≤ BitVec.ofNat 32 128
    bv_omega

/-- `^U` erases characters, and nothing else. -/
theorem killLine_eq (n : Nat) (h : s.Ok) : ∃ e, killLine n s = { s with e := e } ∧ Ok { s with e := e } := by
  induction n generalizing s with
  | zero => exact ⟨s.e, rfl, h⟩
  | succ n ih =>
    rw [killLine]
    by_cases hc : s.e ≠ s.w ∧ s.buf (slot INPUT_BUF_SIZE (s.e - 1)) ≠ newline
    · rw [if_pos hc]
      obtain ⟨e, he, hok⟩ := ih (h.erase hc.1)
      exact ⟨e, he, hok⟩
    · rw [if_neg hc]
      exact ⟨s.e, rfl, h⟩

theorem Ok.store (h : s.Ok) (hr : s.room = true) : (s.store c).Ok := by
  obtain ⟨h1, h2⟩ := h
  simp only [room, decide_eq_true_eq] at hr
  unfold INPUT_BUF_SIZE at h2 hr
  refine ⟨?_, ?_⟩
  · show s.w - s.r ≤ s.e + 1 - s.r
    bv_omega
  · show s.e + 1 - s.r ≤ BitVec.ofNat 32 128
    bv_omega

theorem Ok.commit_all (h : s.Ok) : Ok { s with w := s.e } := ⟨Nat.le_refl _, h.size⟩

/-- A character is stored behind the bytes that readers may take. -/
theorem window_store (h : s.Ok) (hr : s.room = true) : window (s.store c).buf s.r (s.w - s.r).toNat = s.buffered := by
  have he : s.e = s.r + BitVec.ofNat 32 (s.e - s.r).toNat := by bv_omega
  have hlt : (s.e - s.r).toNat < INPUT_BUF_SIZE := by
    simp only [room, decide_eq_true_eq] at hr
    bv_omega
  show window (Function.update s.buf (slot INPUT_BUF_SIZE s.e) c) s.r _ = _
  rw [he]
  exact Lib.window_update size_dvd c h.commit hlt

/-- What a step of `consoleintr` does to the bytes that readers may take: nothing, or it adds the edited ones. -/
structure Adds (s : Cons) (x : Cons × Bool) : Prop where
  ok : x.1.Ok
  r : x.1.r = s.r
  keep : x.2 = false → x.1.buffered = s.buffered
  pass : x.2 = true → x.1.buffered = s.buffered ++ window x.1.buf s.w (x.1.w - s.w).toNat

theorem put_adds (h : s.Ok) (hr : s.room = true) : Adds s (s.put c) := by
  unfold put
  dsimp only
  split_ifs
  · refine ⟨(h.store hr).commit_all, rfl, nofun, fun _ => ?_⟩
    -- the window up to the new write index is the old one and what lies beyond it
    have hlen : ((s.store c).e - s.r).toNat = (s.w - s.r).toNat + ((s.store c).e - s.w).toNat := by
      have h1 := (h.store (c := c) hr).commit
      have h2 : s.w - s.r ≤ (s.store c).e - s.r := h1
      bv_omega
    have hw : s.r + BitVec.ofNat 32 (s.w - s.r).toNat = s.w := by bv_omega
    show window (s.store c).buf s.r ((s.store c).e - s.r).toNat = _
    rw [hlen, Lib.window_add, window_store h hr, hw]
  · exact ⟨h.store hr, rfl, fun _ => window_store h hr, nofun⟩

theorem intr_adds (c : BitVec 8) (h : s.Ok) : Adds s (s.intr c) := by
  have hsame : Adds s (s, false) := ⟨h, rfl, fun _ => rfl, nofun⟩
  unfold intr
  by_cases hp : c = ctrlP
  · rw [if_pos hp]
    exact hsame
  rw [if_neg hp]
  by_cases hu : c = ctrlU
  · obtain ⟨e, hk, hok⟩ := killLine_eq (s.e - s.w).toNat h
    rw [if_pos hu, hk]
    exact ⟨hok, rfl, fun _ => rfl, nofun⟩
  rw [if_neg hu]
  by_cases hh : c = ctrlH ∨ c = delete
  · rw [if_pos hh]
    by_cases he : s.e ≠ s.w
    · rw [if_pos he]
      exact ⟨h.erase he, rfl, fun _ => rfl, nofun⟩
    · rw [if_neg he]
      exact hsame
  rw [if_neg hh]
  by_cases hd : c ≠ 0 ∧ s.room = true
  · rw [if_pos hd]
    exact put_adds h hd.2
  · rw [if_neg hd]
    exact hsame

/-- The byte at the read index is taken. -/
theorem buffered_take (h : s.r ≠ s.w) :
    s.buffered = s.buf (slot INPUT_BUF_SIZE s.r) :: buffered { s with r := s.r + 1 } := by
  have hlen : (s.w - s.r).toNat = (s.w - (s.r + 1)).toNat + 1 := by bv_omega
  rw [buffered, hlen, Lib.window_cons]
  rfl

theorem Ok.take (h : s.Ok) (hr : s.r ≠ s.w) : Ok { s with r := s.r + 1 } := by
  obtain ⟨h1, h2⟩ := h
  unfold INPUT_BUF_SIZE at h2
  refine ⟨?_, ?_⟩
  · show s.w - (s.r + 1) ≤ s.e - (s.r + 1)
    bv_omega
  · show s.e - (s.r + 1) ≤ BitVec.ofNat 32 128
    bv_omega

end Cons

/-! ## Readers -/

section Readers

variable {P : Type} {v : ConsEnv} {p : P} {s : Cons}

/-- The byte left the buffer for a good reason: the reader has it, or it was the `^D` that made a call return 0. -/
def Taken.Good (x : Taken P) : Prop := x.fate = .copied ∨ x.byte = ctrlD ∧ x.before = 0

/-- What a stretch of `consoleread` by `p` does: it takes bytes from the front of the buffer, and if every
`either_copyout` succeeds, it takes them for a good reason. -/
structure Takes (v : ConsEnv) (p : P) (s : Cons) (x : Cons × ReadEnd × List (Taken P)) : Prop where
  ok : x.1.Ok
  front : s.buffered = x.2.2.map Taken.byte ++ x.1.buffered
  reader : ∀ y ∈ x.2.2, y.reader = p
  good : (∀ k, v.copyout k = true) → ∀ y ∈ x.2.2, y.Good

/-- The stretch ends with one byte. -/
theorem Takes.last {x : Taken P} (fin : ReadEnd) (h : s.Ok) (hr : s.r ≠ s.w)
    (hx : x.byte = s.buf (slot INPUT_BUF_SIZE s.r)) (hp : x.reader = p)
    (hg : (∀ k, v.copyout k = true) → x.Good) : Takes v p s ({ s with r := s.r + 1 }, fin, [x]) where
  ok := h.take hr
  front := by
    rw [Cons.buffered_take hr, ← hx]
    rfl
  reader y hy := by
    rw [List.mem_singleton.mp hy, hp]
  good hv y hy := by
    rw [List.mem_singleton.mp hy]
    exact hg hv

theorem consLoop_takes (v : ConsEnv) (p : P) (target n : Nat) (h : s.Ok) : Takes v p s (consLoop v p target n s) := by
  have hnone : ∀ {s : Cons} fin, s.Ok → Takes v p s (s, fin, []) := fun fin h => ⟨h, rfl, nofun, fun _ => nofun⟩
  induction n generalizing s with
  | zero => exact hnone _ h
  | succ n ih =>
    rw [consLoop]
    by_cases he : s.r = s.w
    · rw [if_pos he]
      split
      · exact hnone _ h
      · exact hnone _ h
    rw [if_neg he]
    by_cases hd : s.buf (slot INPUT_BUF_SIZE s.r) = ctrlD
    · rw [if_pos hd]
      by_cases ht : n + 1 < target
      · rw [if_pos ht]
        -- the read index is back where it was
        have hr : s.r + 1 - 1 = s.r := by bv_omega
        rw [hr]
        exact hnone _ h
      · rw [if_neg ht]
        exact Takes.last _ h he rfl rfl fun _ => .inr ⟨hd, Nat.sub_eq_zero_of_le (Nat.not_lt.mp ht)⟩
    rw [if_neg hd]
    by_cases hc : v.copyout (n + 1) = true
    · rw [if_pos hc]
      by_cases hl : s.buf (slot INPUT_BUF_SIZE s.r) = newline
      · rw [if_pos hl]
        exact Takes.last _ h he rfl rfl fun _ => .inl rfl
      · rw [if_neg hl]
        have hrest := ih (h.take he)
        refine ⟨hrest.ok, ?_, ?_, ?_⟩
        · rw [Cons.buffered_take he, hrest.front]
          rfl
        · intro y hy
          rcases List.mem_cons.mp hy with rfl | hy
          · rfl
          · exact hrest.reader y hy
        · intro hv y hy
          rcases List.mem_cons.mp hy with rfl | hy
          · exact .inl rfl
          · exact hrest.good hv y hy
    · rw [if_neg hc]
      exact Takes.last _ h he rfl rfl fun hv => absurd (hv _) hc

end Readers

/-! ## Runs -/

variable {P : Type} {s s' : ConsState P}

/-- The order of the counters, and what has become of the bytes that were passed on. -/
structure ConsInv (s : ConsState P) : Prop where
  ok : s.cons.Ok
  order : s.input = s.output.map Taken.byte ++ s.cons.buffered

theorem consInv_init : ConsInv (ConsState.init : ConsState P) where
  ok := ⟨Nat.le_refl _, show (0 - 0 : BitVec 32) ≤ BitVec.ofNat 32 INPUT_BUF_SIZE by decide⟩
  order := by simp [ConsState.init, Cons.buffered]

/-- The character `c` arrives. -/
theorem ConsInv.intr (h : ConsInv s) (c : BitVec 8) : ConsInv (s.intr c) ∧ (s.intr c).output = s.output := by
  have ha := Cons.intr_adds c h.ok
  unfold ConsState.intr
  split
  · next cons hc =>
    rw [hc] at ha
    exact ⟨⟨ha.ok, by rw [ha.keep rfl]; exact h.order⟩, rfl⟩
  · next cons hc =>
    rw [hc] at ha
    refine ⟨⟨ha.ok, ?_⟩, rfl⟩
    show s.input ++ _ = _ ++ cons.buffered
    rw [ha.pass rfl, h.order, List.append_assoc]

variable [DecidableEq P]

/-- What a stretch of `consoleread` changes of the console and its histories. -/
theorem read_fields (s : ConsState P) (p : P) (target n : Nat) (v : ConsEnv) :
    (s.read p target n v).cons = (consLoop v p target n s.cons).1 ∧ (s.read p target n v).input = s.input ∧
      (s.read p target n v).output = s.output ++ (consLoop v p target n s.cons).2.2 := by
  unfold ConsState.read
  rcases consLoop v p target n s.cons with ⟨cons, fin, out⟩
  cases fin <;> exact ⟨rfl, rfl, rfl⟩

theorem ConsInv.read (h : ConsInv s) (p : P) (target n : Nat) (v : ConsEnv) : ConsInv (s.read p target n v) := by
  have ht := consLoop_takes v p target n h.ok
  obtain ⟨h1, h2, h3⟩ := read_fields s p target n v
  refine ⟨by rw [h1]; exact ht.ok, ?_⟩
  rw [h1, h2, h3, h.order, ht.front, List.map_append, List.append_assoc]

/-- Every `either_copyout` of the step succeeds. -/
def ConsAct.copies : ConsAct P → Prop
  | .run _ v => ∀ k, v.copyout k = true
  | _ => True

/-- One step keeps the invariant, and what it takes out of the buffer it takes for a good reason. -/
theorem ConsInv.step {a : ConsAct P} (h : ConsInv s) (hs : consStep s a = some s') :
    ConsInv s' ∧ ∃ out, s'.output = s.output ++ out ∧ (a.copies → ∀ x ∈ out, x.Good) := by
  have hnone : s.output = s.output ++ [] := (List.append_nil _).symm
  cases a with
  | call p n =>
    rw [consStep] at hs
    split at hs
    · cases hs
    · cases hs
      exact ⟨⟨h.ok, h.order⟩, [], hnone, fun _ => nofun⟩
  | run p v =>
    rw [consStep] at hs
    split at hs
    · cases hs
    · obtain ⟨x, -, rfl⟩ := Option.map_eq_some_iff.mp hs
      exact ⟨h.read p x.1 x.2 v, _, (read_fields s p x.1 x.2 v).2.2, (consLoop_takes v p x.1 x.2 h.ok).good⟩
  | intr c =>
    cases hs
    exact ⟨(h.intr c).1, [], (h.intr c).2.trans hnone, fun _ => nofun⟩
  | wake =>
    cases hs
    exact ⟨⟨h.ok, h.order⟩, [], hnone, fun _ => nofun⟩

/-- What readers and typists can rely on. -/
structure Delivers (s : ConsState P) : Prop where
  /-- `cons.w - cons.r <= cons.e - cons.r <= INPUT_BUF_SIZE`. -/
  counters : s.cons.w - s.cons.r ≤ s.cons.e - s.cons.r ∧ s.cons.e - s.cons.r ≤ BitVec.ofNat 32 INPUT_BUF_SIZE
  /-- No character that arrives changes a byte that was passed on. -/
  edit : ∀ c, s.cons.buffered <+: (s.cons.intr c).1.buffered
  /-- The bytes that were passed on have been taken by readers, in order and one after the other, or are in the buffer. -/
  order : s.input = s.output.map Taken.byte ++ s.cons.buffered
  /-- Every byte that was taken is with its reader, or was a `^D` that ended a call which had read nothing. -/
  taken : ∀ x ∈ s.output, x.Good

omit [DecidableEq P] in
theorem Cons.buffered_prefix {s : Cons} (h : s.Ok) (c : BitVec 8) : s.buffered <+: (s.intr c).1.buffered := by
  have ha := intr_adds c h
  cases hc : (s.intr c).2 with
  | false => rw [ha.keep hc]
  | true =>
    rw [ha.pass hc]
    exact List.prefix_append _ _

/-- **Console input is delivered once.** In every run in which all calls of `either_copyout` succeed. -/
theorem console_delivers (h : ConsReachable (fun _ a => a.copies) s) : Delivers s := by
  have hinv : ConsInv s ∧ ∀ x ∈ s.output, x.Good := by
    induction h with
    | refl => exact ⟨consInv_init, nofun⟩
    | tail _ hs ih =>
      obtain ⟨a, hc, hs⟩ := hs
      obtain ⟨hi, out, ho, hg⟩ := ih.1.step hs
      refine ⟨hi, fun x hx => ?_⟩
      rw [ho] at hx
      rcases List.mem_append.mp hx with hx | hx
      · exact ih.2 x hx
      · exact hg hc x hx
  exact ⟨⟨hinv.1.ok.commit, hinv.1.ok.size⟩, Cons.buffered_prefix hinv.1.ok, hinv.1.order, hinv.2⟩

/-- The line `ab` is typed with a correction, and read by a process in two calls. -/
def typedLine : List (ConsAct Unit) :=
  [.call () 1, .run () ⟨fun _ => false, fun _ => true⟩, .intr 97, .intr 99, .intr ctrlH, .intr 98, .intr carriageReturn,
    .run () ⟨fun _ => false, fun _ => true⟩, .call () 80, .run () ⟨fun _ => false, fun _ => true⟩]

theorem console_delivers_line : ConsReachable (fun _ a => a.copies) (consAfter typedLine) ∧
    (consAfter typedLine).output.map Taken.byte = [97, 98, newline] ∧ Delivers (consAfter typedLine) := by
  have h : ConsReachable (fun _ a => a.copies) (consAfter typedLine) := by
    refine consReachable_after fun s a ha => ?_
    simp only [typedLine, List.mem_cons, List.not_mem_nil, or_false] at ha
    rcases ha with rfl | rfl | rfl | rfl | rfl | rfl | rfl | rfl | rfl | rfl <;> simp [ConsAct.copies]
  exact ⟨h, by decide, console_delivers h⟩

/-- A line is typed, and a process reads it to an address that is not mapped. -/
def badAddress : List (ConsAct Unit) :=
  [.intr 97, .intr newline, .call () 80, .run () ⟨fun _ => false, fun _ => false⟩]

/-- **A byte is lost.** It leaves the buffer, and nobody gets it. -/
theorem console_loses_byte : ConsReachable (fun _ _ => True) (consAfter badAddress) ∧
    (consAfter badAddress).output.map (fun x => (x.byte, x.fate)) = [(97, .lost)] ∧
    (consAfter badAddress).cons.buffered = [newline] ∧ (consAfter badAddress).ret () = 0 :=
  ⟨consReachable_after fun _ _ _ => trivial, by decide, by decide, by decide⟩

end Xv6
