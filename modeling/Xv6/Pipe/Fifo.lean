import Xv6.Pipe.Sleepers

/-!
# A pipe is a queue of bytes

The ring of a pipe is indexed by two counters that run freely and wrap around at `2 ^ 32`, a multiple of `PIPESIZE`.

- `Pipe.buffered`: the bytes in the pipe, in order; `Pipe.buffered_put` appends one, `Pipe.buffered_take` removes the
  first;
- `writeLoop_buffered`, `readLoop_buffered`: what the loops of `pipewrite` and `piperead` do to them;
- `pipe_fifo`: along every run, the bytes copied out followed by the bytes in the pipe are the bytes copied in.
-/

namespace Xv6

/-! ## The bytes in the ring -/

namespace Pipe

variable {pi : Pipe}

/-- The bytes in the pipe, the next one to be read first. -/
def buffered (pi : Pipe) : List (BitVec 8) :=
  (List.range pi.count).map fun k => pi.data (slot (pi.nread + BitVec.ofNat 32 k))

theorem slot_add (n : BitVec 32) (k : Nat) : (slot (n + BitVec.ofNat 32 k)).val = (n.toNat + k) % PIPESIZE := by
  have hdvd : PIPESIZE ∣ 2 ^ 32 := by decide
  simp only [slot, BitVec.toNat_add, BitVec.toNat_ofNat]
  rw [Nat.mod_mod_of_dvd _ hdvd, Nat.add_mod, Nat.mod_mod_of_dvd _ hdvd, ← Nat.add_mod]

/-- The write counter is `count` ahead of the read counter. -/
theorem nwrite_eq (pi : Pipe) : pi.nwrite = pi.nread + BitVec.ofNat 32 pi.count := by
  unfold count
  bv_omega

/-- The slot that is written next holds none of the bytes in the pipe. -/
theorem slot_nwrite_ne {k : Nat} (hk : k < pi.count) (hc : pi.count < PIPESIZE) :
    slot (pi.nread + BitVec.ofNat 32 k) ≠ slot pi.nwrite := by
  intro h
  have h := congrArg Fin.val h
  rw [nwrite_eq, slot_add, slot_add] at h
  unfold PIPESIZE at h hc
  omega

/-- `put` appends a byte. -/
theorem buffered_put (ch : BitVec 8) (hc : pi.count < PIPESIZE) : (pi.put ch).buffered = pi.buffered ++ [ch] := by
  unfold buffered
  rw [count_put ch hc, List.range_succ, List.map_append, List.map_singleton]
  congr 1
  · refine List.map_congr_left fun k hk => ?_
    exact Function.update_of_ne (slot_nwrite_ne (List.mem_range.mp hk) hc) _ _
  · have hlast : slot ((pi.put ch).nread + BitVec.ofNat 32 pi.count) = slot pi.nwrite := by
      rw [nwrite_eq pi]; rfl
    rw [hlast]
    exact congrArg (· :: []) (Function.update_self _ _ _)

/-- `take` removes the first byte. -/
theorem buffered_take (h : pi.count ≠ 0) : pi.buffered = pi.next :: pi.take.buffered := by
  have hc := count_take h
  unfold buffered
  rw [← hc, List.range_succ_eq_map, List.map_cons, List.map_map]
  congr 1
  · have h0 : pi.nread + BitVec.ofNat 32 0 = pi.nread := by bv_omega
    rw [h0]; rfl
  · refine List.map_congr_left fun k _ => ?_
    have hk : pi.nread + BitVec.ofNat 32 (k + 1) = pi.take.nread + BitVec.ofNat 32 k := by
      unfold take
      bv_omega
    show pi.data (slot (pi.nread + BitVec.ofNat 32 (k + 1))) = _
    rw [hk]; rfl

end Pipe

/-! ## The loops -/

/-- The bytes that the loop of `pipewrite` copies in. -/
def writeBytes (e : PipeEnv) : (r i : Nat) → Pipe → List (BitVec 8)
  | 0, _, _ => []
  | r + 1, i, pi =>
    if pi.readopen = false ∨ e.killed i then []
    else if pi.nwrite = pi.nread + BitVec.ofNat 32 PIPESIZE then []
    else
      match e.copyin i with
      | none => []
      | some ch => ch :: writeBytes e r (i + 1) (pi.put ch)

/-- The loop of `pipewrite` appends the bytes it copies in. -/
theorem writeLoop_buffered (e : PipeEnv) (r i : Nat) {pi : Pipe} (hc : pi.count ≤ PIPESIZE) :
    (writeLoop e r i pi).1.buffered = pi.buffered ++ writeBytes e r i pi := by
  induction r generalizing i pi with
  | zero => simp [writeLoop, writeBytes]
  | succ r ih =>
    simp only [writeLoop, writeBytes]
    by_cases hd : pi.readopen = false ∨ e.killed i = true
    · rw [if_pos hd, if_pos hd, List.append_nil]
    · rw [if_neg hd, if_neg hd]
      by_cases hf : pi.nwrite = pi.nread + BitVec.ofNat 32 PIPESIZE
      · rw [if_pos hf, if_pos hf, List.append_nil]
      · rw [if_neg hf, if_neg hf]
        cases e.copyin i with
        | none => simp
        | some ch =>
          have hlt : pi.count < PIPESIZE := Nat.lt_of_le_of_ne hc fun h => hf (Pipe.count_eq_size.mp h)
          have hput := Pipe.count_put ch hlt
          rw [ih (i + 1) (by omega), Pipe.buffered_put ch hlt, List.append_assoc]
          rfl

/-- The copying loop of `piperead` removes the bytes it copies out, and returns their number unless the first `copyout`
fails. -/
theorem readLoop_buffered (e : PipeEnv) (r i : Nat) (pi : Pipe) :
    pi.buffered = (readLoop e r i pi).2.2 ++ (readLoop e r i pi).1.buffered ∧
      ((readLoop e r i pi).2.1 = i + (readLoop e r i pi).2.2.length ∨
        i = 0 ∧ (readLoop e r i pi).2.1 = -1 ∧ (readLoop e r i pi).2.2 = []) := by
  induction r generalizing i pi with
  | zero => simp [readLoop]
  | succ r ih =>
    simp only [readLoop]
    by_cases h0 : pi.nread = pi.nwrite
    · simp [h0]
    · rw [if_neg h0]
      by_cases ho : e.copyout i = true
      · have hne : pi.count ≠ 0 := fun h => h0 (Pipe.count_eq_zero.mp h)
        obtain ⟨h1, h2⟩ := ih (i + 1) pi.take
        rw [if_pos ho]
        rcases hL : readLoop e r (i + 1) pi.take with ⟨pi', v, out⟩
        rw [hL] at h1 h2
        refine ⟨?_, .inl ?_⟩
        · rw [Pipe.buffered_take hne, h1]; rfl
        · rcases h2 with h2 | ⟨h2, -⟩
          · dsimp only at h2 ⊢
            rw [h2, List.length_cons]
            push_cast
            omega
          · omega
      · rw [if_neg ho]
        by_cases hi : i = 0
        · simp [hi]
        · simp [hi]

/-! ## Runs -/

section Runs

variable {P : Type} [DecidableEq P]

/-- The bytes a step copies in. -/
def sent (s : PipeState P) : PipeAct P → List (BitVec 8)
  | .run p e =>
    match s.inside p with
    | some (.write n i) => writeBytes e (n.toNat - i) i s.pi
    | _ => []
  | _ => []

/-- The bytes a step copies out. -/
def received (s : PipeState P) : PipeAct P → List (BitVec 8)
  | .run p e =>
    match s.inside p with
    | some (.read n) =>
      if s.pi.nread = s.pi.nwrite ∧ s.pi.writeopen = true then [] else (readLoop e n.toNat 0 s.pi).2.2
    | _ => []
  | _ => []

/-- A run of the pipe from its creation, with all bytes copied in and all bytes copied out, in order. -/
inductive PipeHistory : PipeState P → List (BitVec 8) → List (BitVec 8) → Prop
  | init : PipeHistory .init [] []
  | step {s s' : PipeState P} {ins outs : List (BitVec 8)} (a : PipeAct P) (h : PipeHistory s ins outs)
      (hs : pipeStep s a = some s') : PipeHistory s' (ins ++ sent s a) (outs ++ received s a)

/-- The bytes in the pipe and the bytes copied out and in. -/
structure IsFifo (s : PipeState P) (ins outs : List (BitVec 8)) : Prop where
  small : (s.pi.nwrite - s.pi.nread).toNat ≤ PIPESIZE
  order : outs ++ s.pi.buffered = ins

variable {s s' : PipeState P} {ins outs : List (BitVec 8)} {p : P} {e : PipeEnv} {n : Int}

/-- What a stretch of `piperead` consumes it copies out, and it returns how much that is. -/
structure Consumes (s s' : PipeState P) (p : P) (out : List (BitVec 8)) : Prop where
  bytes : s.pi.buffered = out ++ s'.pi.buffered
  count : s'.inside p = none → 0 ≤ s'.ret p → s'.ret p = out.length
  other : s'.inside p = none → s'.ret p < 0 → out = []

theorem read_consumes (hp : s.inside p = some (.read n)) : Consumes s (s.read p n e) p (received s (.run p e)) := by
  simp only [received, hp, PipeState.read]
  by_cases h0 : s.pi.nread = s.pi.nwrite ∧ s.pi.writeopen = true
  · rw [if_pos h0, if_pos h0]
    by_cases hk : e.killed 0 = true
    · rw [if_pos hk]
      refine ⟨by simp [PipeState.leave], fun _ h => ?_, fun _ _ => rfl⟩
      simp [PipeState.leave] at h
    · rw [if_neg hk]
      exact ⟨by simp, fun h => absurd (hp.symm.trans h) (by simp), fun _ _ => rfl⟩
  · rw [if_neg h0, if_neg h0]
    obtain ⟨h1, h2⟩ := readLoop_buffered e n.toNat 0 s.pi
    rcases hL : readLoop e n.toNat 0 s.pi with ⟨pi', v, out⟩
    rw [hL] at h1 h2
    dsimp only at h2
    refine ⟨h1, fun _ h => ?_, fun _ h => ?_⟩
    · simp only [PipeState.leave, PipeState.wakeOneWriter, Function.update_self] at h ⊢
      rcases h2 with h2 | ⟨-, h2, -⟩ <;> omega
    · simp only [PipeState.leave, PipeState.wakeOneWriter, Function.update_self] at h
      rcases h2 with h2 | ⟨-, -, h2⟩
      · omega
      · exact h2

/-- The pipe after a stretch of `pipewrite`. -/
theorem write_pi (s : PipeState P) (p : P) (n : Int) (i : Nat) (e : PipeEnv) :
    (s.write p n i e).pi = (writeLoop e (n.toNat - i) i s.pi).1 := by
  simp only [PipeState.write]
  cases (writeLoop e (n.toNat - i) i s.pi).2 <;> rfl

/-- **One step keeps the order of the bytes.** -/
theorem IsFifo.step (h : IsFifo s ins outs) {a : PipeAct P} (hs : pipeStep s a = some s') :
    IsFifo s' (ins ++ sent s a) (outs ++ received s a) := by
  obtain ⟨hsmall, horder⟩ := h
  -- steps that leave the ring alone
  have quiet : s'.pi.data = s.pi.data → s'.pi.nread = s.pi.nread → s'.pi.nwrite = s.pi.nwrite → IsFifo s' ins outs := by
    intro hd hr hw
    refine ⟨by rwa [hr, hw], ?_⟩
    rw [← horder]
    simp only [Pipe.buffered, Pipe.count, hd, hr, hw]
  cases a with
  | run p e =>
    simp only [pipeStep] at hs
    split at hs
    · cases hs
    · cases hp : s.inside p with
      | none => rw [hp] at hs; cases hs
      | some call =>
        rw [hp] at hs
        cases call with
        | write n i =>
          obtain rfl := Option.some.inj hs
          simp only [sent, received, hp, List.append_nil]
          refine ⟨?_, ?_⟩
          · rw [write_pi]
            exact (writeLoop_spec e (n.toNat - i) hsmall).small
          · rw [write_pi, writeLoop_buffered e _ i hsmall, ← horder, List.append_assoc]
        | read n =>
          obtain rfl := Option.some.inj hs
          have hc := read_consumes (e := e) hp
          have hsent : sent s (.run p e) = [] := by simp only [sent, hp]
          rw [hsent, List.append_nil]
          refine ⟨?_, ?_⟩
          · -- no byte is added
            have h1 := congrArg List.length hc.bytes
            simp only [Pipe.buffered, List.length_append, List.length_map, List.length_range] at h1
            show (s.read p n e).pi.count ≤ PIPESIZE
            have h2 : s.pi.count ≤ PIPESIZE := hsmall
            omega
          · rw [List.append_assoc, ← hc.bytes, horder]
  | close writable =>
    obtain rfl := Option.some.inj hs
    simp only [sent, received, List.append_nil]
    cases writable <;> exact quiet rfl rfl rfl
  | callWrite p n | callRead p n =>
    simp only [pipeStep] at hs
    split at hs
    · cases hs
    · obtain rfl := Option.some.inj hs
      simp only [sent, received, List.append_nil]
      exact quiet rfl rfl rfl
  | wakeReaders | wakeWriters =>
    obtain rfl := Option.some.inj hs
    simp only [sent, received, List.append_nil]
    exact quiet rfl rfl rfl

/-- **A pipe is a FIFO of bytes.** In every run, the pipe holds at most `PIPESIZE` bytes and the bytes copied out
followed by the bytes in the pipe are the bytes copied in; and a stretch of `piperead` that comes next takes from the
pipe exactly the bytes it copies out, `r` of them if it returns `r ≥ 0` and none if it returns `-1`. -/
theorem pipe_fifo (h : PipeHistory s ins outs) :
    IsFifo s ins outs ∧ ∀ p n e s', s.inside p = some (.read n) → pipeStep s (.run p e) = some s' →
      Consumes s s' p (received s (.run p e)) := by
  refine ⟨?_, fun p n e s' hp hs => ?_⟩
  · induction h with
    | init => exact ⟨by simp [PipeState.init, Pipe.alloc], by simp [PipeState.init, Pipe.alloc, Pipe.buffered, Pipe.count]⟩
    | step a _ hs ih => exact ih.step hs
  · simp only [pipeStep, hp] at hs
    split at hs
    · cases hs
    · obtain rfl := Option.some.inj hs
      exact read_consumes hp

end Runs

/-- Process `0` writes three bytes; then process `1` asks for five, and its third `copyout` fails. -/
def faultRun : List (PipeAct (Fin 2)) :=
  [.callWrite 0 3, .run 0 ⟨fun _ => false, fun i => some (BitVec.ofNat 8 (i + 7)), fun _ => true⟩, .callRead 1 5,
    .run 1 ⟨fun _ => false, fun _ => none, fun i => i < 2⟩]

/-- The read returns `2`, and the byte whose `copyout` failed stays in the pipe. -/
theorem pipe_fifo_fault : (pipeAfter faultRun).ret 1 = 2 ∧ (pipeAfter faultRun).pi.buffered = [9] ∧
      IsFifo (pipeAfter faultRun) [7, 8, 9] [7, 8] := by
  have h1 : PipeHistory (pipeAfter (faultRun.take 1)) [] [] := .step (.callWrite 0 3) .init rfl
  have h2 : PipeHistory (pipeAfter (faultRun.take 2)) [7, 8, 9] [] :=
    .step (.run 0 ⟨fun _ => false, fun i => some (BitVec.ofNat 8 (i + 7)), fun _ => true⟩) h1 rfl
  have h3 : PipeHistory (pipeAfter (faultRun.take 3)) [7, 8, 9] [] := .step (.callRead 1 5) h2 rfl
  have h4 : PipeHistory (pipeAfter faultRun) [7, 8, 9] [7, 8] :=
    .step (.run 1 ⟨fun _ => false, fun _ => none, fun i => i < 2⟩) h3 rfl
  exact ⟨rfl, rfl, (pipe_fifo h4).1⟩

end Xv6
