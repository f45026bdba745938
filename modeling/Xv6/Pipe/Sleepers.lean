import Xv6.Pipe.Model

/-!
# Who sleeps on a pipe

`wakeup_one` wakes one reader, and this reader may leave bytes behind for others that stay asleep; likewise for writers.

- `writeLoop_spec`, `readLoop_spec`: what a stretch does to the number of buffered bytes;
- `Served.step`: if whoever leaves passes the wakeup on (`Passes`), somebody awake is responsible for every sleeper
  that could go on;
- `no_stranded_sleeper`: then nobody is left asleep;
- `reader_stranded`: a run in which a reader is left asleep with a byte in the pipe.
-/

namespace Xv6

variable {P : Type} [DecidableEq P]

/-! ## The loops -/

section Loops

variable {e : PipeEnv} {r i : Nat} {pi : Pipe}

/-- The loop of `pipewrite` only adds bytes. It is left by `return -1` with the read end closed, or when `killed` turns
true, and by `sleep` with the pipe full. -/
structure WriteOk (e : PipeEnv) (i : Nat) (pi pi' : Pipe) (fin : WriteEnd) : Prop where
  readopen : pi'.readopen = pi.readopen
  writeopen : pi'.writeopen = pi.writeopen
  le : pi.count ≤ pi'.count
  small : pi'.count ≤ PIPESIZE
  dead : fin = .dead → pi.readopen = false ∧ pi' = pi ∨ ∃ j, e.killed (i + j) = true ∧ pi'.count = pi.count + j
  full : ∀ j, fin = .full j → pi'.count = PIPESIZE ∧ pi.readopen = true

theorem writeLoop_spec (e : PipeEnv) (r : Nat) {i : Nat} {pi : Pipe} (hc : pi.count ≤ PIPESIZE) :
    WriteOk e i pi (writeLoop e r i pi).1 (writeLoop e r i pi).2 := by
  induction r generalizing i pi with
  | zero => exact ⟨rfl, rfl, Nat.le_refl _, hc, nofun, nofun⟩
  | succ r ih =>
    simp only [writeLoop]
    by_cases hd : pi.readopen = false ∨ e.killed i = true
    · rw [if_pos hd]
      refine ⟨rfl, rfl, Nat.le_refl _, hc, fun _ => ?_, nofun⟩
      rcases hd with hd | hd
      · exact .inl ⟨hd, rfl⟩
      · exact .inr ⟨0, hd, rfl⟩
    · rw [if_neg hd]
      by_cases hf : pi.nwrite = pi.nread + BitVec.ofNat 32 PIPESIZE
      · rw [if_pos hf]
        refine ⟨rfl, rfl, Nat.le_refl _, hc, nofun, fun _ _ => ⟨Pipe.count_eq_size.mpr hf, ?_⟩⟩
        exact Bool.not_eq_false _ |>.mp fun hx => hd (.inl hx)
      · rw [if_neg hf]
        have hlt : pi.count < PIPESIZE := Nat.lt_of_le_of_ne hc fun h => hf (Pipe.count_eq_size.mp h)
        cases hi : e.copyin i with
        | none => exact ⟨rfl, rfl, Nat.le_refl _, hc, nofun, nofun⟩
        | some ch =>
          have hput := Pipe.count_put ch hlt
          obtain ⟨h1, h2, h3, h4, h5, h6⟩ : WriteOk e (i + 1) (pi.put ch) _ _ := ih (by omega)
          dsimp only
          refine ⟨h1, h2, by omega, h4, fun hx => ?_, h6⟩
          rcases h5 hx with ⟨h, -⟩ | ⟨j, hk, hj⟩
          · exact absurd (.inl h) hd
          · exact .inr ⟨j + 1, by rwa [Nat.add_assoc, Nat.add_comm 1 j] at hk, by omega⟩

/-- The loop fills the pipe if it has enough bytes and nothing stops it before. -/
theorem writeLoop_fills {e : PipeEnv} {r i : Nat} {pi : Pipe} (hc : pi.count ≤ PIPESIZE) (ho : pi.readopen = true)
    (hr : PIPESIZE - pi.count ≤ r)
    (hin : ∀ j < PIPESIZE - pi.count, e.killed (i + j) = false ∧ (e.copyin (i + j)).isSome = true) :
    (writeLoop e r i pi).1.count = PIPESIZE := by
  induction r generalizing i pi with
  | zero => simp only [writeLoop]; omega
  | succ r ih =>
    by_cases hf : pi.count = PIPESIZE
    · -- in a full pipe nothing is stored
      have hok : WriteOk e i pi _ _ := writeLoop_spec e (r + 1) hc
      have h1 := hok.le
      have h2 := hok.small
      omega
    · have h0 := hin 0 (by omega)
      rw [Nat.add_zero] at h0
      obtain ⟨ch, hch⟩ := Option.isSome_iff_exists.mp h0.2
      have hput := Pipe.count_put ch (show pi.count < PIPESIZE by omega)
      have hstep : writeLoop e (r + 1) i pi = writeLoop e r (i + 1) (pi.put ch) := by
        have hnf : ¬ pi.nwrite = pi.nread + BitVec.ofNat 32 PIPESIZE := fun h => hf (Pipe.count_eq_size.mpr h)
        simp only [writeLoop, ho, h0.1, hch, if_neg hnf]
        rfl
      rw [hstep]
      refine ih (by omega) ho (by omega) fun j hj => ?_
      have := hin (j + 1) (by omega)
      rwa [Nat.add_comm j 1, ← Nat.add_assoc] at this

/-- The loop of `piperead` only takes bytes. -/
theorem readLoop_spec (e : PipeEnv) (r i : Nat) (pi : Pipe) :
    let pi' := (readLoop e r i pi).1
    pi'.readopen = pi.readopen ∧ pi'.writeopen = pi.writeopen ∧ pi'.count ≤ pi.count := by
  induction r generalizing i pi with
  | zero => exact ⟨rfl, rfl, Nat.le_refl _⟩
  | succ r ih =>
    simp only [readLoop]
    split
    · exact ⟨rfl, rfl, Nat.le_refl _⟩
    · next hne =>
      split
      · obtain ⟨h1, h2, h3⟩ := ih (i + 1) pi.take
        have := Pipe.count_take fun h => hne (Pipe.count_eq_zero.mp h)
        dsimp only at h3 ⊢
        exact ⟨h1, h2, by omega⟩
      · exact ⟨rfl, rfl, Nat.le_refl _⟩

/-- The loop empties the pipe if it is asked for enough bytes and `copyout` succeeds. -/
theorem readLoop_drains {e : PipeEnv} {r i : Nat} {pi : Pipe} (hr : pi.count ≤ r)
    (hout : ∀ j < pi.count, e.copyout (i + j) = true) : (readLoop e r i pi).1.count = 0 := by
  induction r generalizing i pi with
  | zero => simp only [readLoop]; omega
  | succ r ih =>
    by_cases h0 : pi.nread = pi.nwrite
    · simp only [readLoop, if_pos h0]
      exact Pipe.count_eq_zero.mpr h0
    · have hne : pi.count ≠ 0 := fun h => h0 (Pipe.count_eq_zero.mp h)
      have htake := Pipe.count_take hne
      have hi := hout 0 (by omega)
      rw [Nat.add_zero] at hi
      simp only [readLoop, if_neg h0, hi, if_true]
      refine ih (by omega) fun j hj => ?_
      have := hout (j + 1) (by omega)
      rwa [Nat.add_comm j 1, ← Nat.add_assoc] at this

end Loops

/-! ## The invariant -/

namespace PipeState

/-- Some process other than `p` is awake inside `piperead`. -/
def OtherReader (s : PipeState P) (p : P) : Prop := ∃ q, q ≠ p ∧ (∃ n, s.inside q = some (.read n)) ∧ q ∉ s.onRead

/-- Some process other than `p` is awake inside `pipewrite`. -/
def OtherWriter (s : PipeState P) (p : P) : Prop :=
  ∃ q, q ≠ p ∧ (∃ n i, s.inside q = some (.write n i)) ∧ q ∉ s.onWrite

/-- Some process is awake inside `piperead`. -/
def AwakeReader (s : PipeState P) : Prop := ∃ q, (∃ n, s.inside q = some (.read n)) ∧ q ∉ s.onRead

/-- Some process is awake inside `pipewrite`. -/
def AwakeWriter (s : PipeState P) : Prop := ∃ q, (∃ n i, s.inside q = some (.write n i)) ∧ q ∉ s.onWrite

/-- Every sleeper that could go on has somebody awake on its side. -/
structure Served (s : PipeState P) : Prop where
  small : s.pi.count ≤ PIPESIZE
  reading : ∀ p ∈ s.onRead, ∃ n, s.inside p = some (.read n)
  writing : ∀ p ∈ s.onWrite, ∃ n i, s.inside p = some (.write n i)
  nodupRead : s.onRead.Nodup
  nodupWrite : s.onWrite.Nodup
  readers : s.onRead ≠ [] → s.pi.count ≠ 0 → s.AwakeReader
  writers : s.onWrite ≠ [] → s.pi.count ≠ PIPESIZE → s.AwakeWriter
  closedWrite : s.pi.writeopen = false → s.onRead = []
  closedRead : s.pi.readopen = false → s.onWrite = []

/-- Whoever leaves passes the wakeup on. A `piperead` that returns while readers are asleep and none but itself is
awake takes everything there is; a `pipewrite` that returns while writers are asleep and none but itself is awake fills
the pipe; and a `pipewrite` does not find itself killed after it has stored bytes, unless no reader is asleep or some
reader is awake. -/
def Passes (s : PipeState P) : PipeAct P → Prop
  | .run p e =>
    match s.inside p with
    | some (.read n) =>
      s.onRead = [] ∨ s.OtherReader p ∨ s.pi.count ≤ n.toNat ∧ ∀ i < s.pi.count, e.copyout i = true
    | some (.write n i) =>
      (s.onWrite = [] ∨ s.OtherWriter p ∨ PIPESIZE - s.pi.count ≤ n.toNat - i ∧
        ∀ j < PIPESIZE - s.pi.count, e.killed (i + j) = false ∧ (e.copyin (i + j)).isSome = true) ∧
      (s.onRead = [] ∨ s.AwakeReader ∨ ∀ j, j ≠ 0 → e.killed (i + j) = false)
    | none => True
  | _ => True

namespace Served

variable {s s' : PipeState P} {p : P}

theorem init : Served (PipeState.init : PipeState P) := by
  refine ⟨show Pipe.alloc.count ≤ PIPESIZE by decide, nofun, nofun, List.nodup_nil, List.nodup_nil, ?_, ?_, nofun, nofun⟩
  · exact fun h => absurd rfl h
  · exact fun h => absurd rfl h

/-- `wakeup_one` takes a process out of the queue, if anybody is left in it. -/
theorem exists_woken {l : List P} (hl : l.Nodup) (hne : l.tail ≠ []) : ∃ q ∈ l, q ∉ l.tail := by
  cases l with
  | nil => exact absurd rfl hne
  | cons q l => exact ⟨q, List.mem_cons_self, (List.nodup_cons.mp hl).1⟩

theorem inside_leave {q : P} {c : Option PipeCall} (hq : q ≠ p) : Function.update s.inside p c q = s.inside q :=
  Function.update_of_ne hq _ _

variable (h : Served s)
include h

/-- A stretch of `piperead`. -/
theorem read {n : Int} {e : PipeEnv} (hi : s.inside p = some (.read n)) (hr : p ∉ s.onRead) (hw : p ∉ s.onWrite)
    (hpass : s.onRead = [] ∨ s.OtherReader p ∨ s.pi.count ≤ n.toNat ∧ ∀ i < s.pi.count, e.copyout i = true) :
    Served (s.read p n e) := by
  have hneR : ∀ q ∈ s.onRead, q ≠ p := fun q hq hx => hr (hx ▸ hq)
  have hneW : ∀ q ∈ s.onWrite, q ≠ p := fun q hq hx => hw (hx ▸ hq)
  have hnotW : ∀ q, (∃ n i, s.inside q = some (.write n i)) → q ≠ p := by
    rintro q ⟨m, i, hq⟩ rfl
    rw [hi] at hq; cases hq
  unfold PipeState.read
  by_cases hemp : s.pi.nread = s.pi.nwrite ∧ s.pi.writeopen = true
  · have h0 := Pipe.count_eq_zero.mpr hemp.1
    rw [if_pos hemp]
    by_cases hk : e.killed 0 = true
    · rw [if_pos hk]
      refine ⟨h.small, fun q hq => ?_, fun q hq => ?_, h.nodupRead, h.nodupWrite, fun _ hc => absurd h0 hc, ?_,
        h.closedWrite, h.closedRead⟩
      · simpa only [leave, inside_leave (hneR q hq)] using h.reading q hq
      · simpa only [leave, inside_leave (hneW q hq)] using h.writing q hq
      · intro hne hc
        obtain ⟨q, hq, ha⟩ := h.writers hne hc
        exact ⟨q, by simpa only [leave, inside_leave (hnotW q hq)] using hq, ha⟩
    · rw [if_neg hk]
      refine ⟨h.small, fun q hq => ?_, h.writing, List.nodup_cons.mpr ⟨hr, h.nodupRead⟩, h.nodupWrite,
        fun _ hc => absurd h0 hc, h.writers, fun hx => ?_, h.closedRead⟩
      · rcases List.mem_cons.mp hq with rfl | hq
        · exact ⟨n, hi⟩
        · exact h.reading q hq
      · rw [hemp.2] at hx; cases hx
  · rw [if_neg hemp]
    obtain ⟨ho1, ho2, hle⟩ := readLoop_spec e n.toNat 0 s.pi
    have hdrain : s.pi.count ≤ n.toNat → (∀ j < s.pi.count, e.copyout (0 + j) = true) →
        (readLoop e n.toNat 0 s.pi).1.count = 0 := readLoop_drains
    generalize readLoop e n.toNat 0 s.pi = res at ho1 ho2 hle hdrain
    refine ⟨Nat.le_trans hle h.small, fun q hq => ?_, fun q hq => ?_, h.nodupRead, h.nodupWrite.tail, ?_, ?_,
      fun hx => h.closedWrite (ho2 ▸ hx), fun hx => ?_⟩
    · simpa only [leave, wakeOneWriter, inside_leave (hneR q hq)] using h.reading q hq
    · have hq := List.mem_of_mem_tail hq
      simpa only [leave, wakeOneWriter, inside_leave (hneW q hq)] using h.writing q hq
    · intro hne hc
      rcases hpass with hx | ⟨q, hq, hin, ha⟩ | ⟨hlen, hout⟩
      · exact absurd hx hne
      · exact ⟨q, by simpa only [leave, wakeOneWriter, inside_leave hq] using hin, ha⟩
      · exact absurd (hdrain hlen (by simpa using hout)) hc
    · intro hne _
      obtain ⟨q, hq, hnq⟩ := exists_woken h.nodupWrite hne
      exact ⟨q, by simpa only [leave, wakeOneWriter, inside_leave (hneW q hq)] using h.writing q hq, hnq⟩
    · show s.onWrite.tail = []
      rw [h.closedRead (ho1 ▸ hx)]; rfl

/-- A stretch of `pipewrite`. -/
theorem write {n : Int} {i : Nat} {e : PipeEnv} (hi : s.inside p = some (.write n i))
    (hr : p ∉ s.onRead) (hw : p ∉ s.onWrite)
    (hpass : s.onWrite = [] ∨ s.OtherWriter p ∨ PIPESIZE - s.pi.count ≤ n.toNat - i ∧
      ∀ j < PIPESIZE - s.pi.count, e.killed (i + j) = false ∧ (e.copyin (i + j)).isSome = true)
    (hkill : s.onRead = [] ∨ s.AwakeReader ∨ ∀ j, j ≠ 0 → e.killed (i + j) = false) :
    Served (s.write p n i e) := by
  have hneR : ∀ q ∈ s.onRead, q ≠ p := fun q hq hx => hr (hx ▸ hq)
  have hneW : ∀ q ∈ s.onWrite, q ≠ p := fun q hq hx => hw (hx ▸ hq)
  have hnotR : ∀ q, (∃ n, s.inside q = some (.read n)) → q ≠ p := by
    rintro q ⟨m, hq⟩ rfl
    rw [hi] at hq; cases hq
  have hok := writeLoop_spec e (n.toNat - i) (i := i) h.small
  have hfill : s.pi.readopen = true → PIPESIZE - s.pi.count ≤ n.toNat - i →
      (∀ j < PIPESIZE - s.pi.count, e.killed (i + j) = false ∧ (e.copyin (i + j)).isSome = true) →
      (writeLoop e (n.toNat - i) i s.pi).1.count = PIPESIZE := writeLoop_fills h.small
  unfold PipeState.write
  generalize writeLoop e (n.toNat - i) i s.pi = res at hok hfill
  obtain ⟨pi, fin⟩ := res
  dsimp only at hok hfill
  -- writers that stay asleep in a pipe with room have another writer awake
  have hwriters : s.onWrite ≠ [] → pi.count ≠ PIPESIZE → s.OtherWriter p := by
    intro hne hc
    rcases hpass with hx | hx | ⟨h1, h2⟩
    · exact absurd hx hne
    · exact hx
    · have ho : s.pi.readopen = true := Bool.not_eq_false _ |>.mp fun hx => hne (h.closedRead hx)
      exact absurd (hfill ho h1 h2) hc
  have hreader : ∀ c, s.onRead.tail ≠ [] →
      ∃ q, (∃ n, Function.update s.inside p c q = some (.read n)) ∧ q ∉ s.onRead.tail := by
    intro c hne
    obtain ⟨q, hq, hnq⟩ := exists_woken h.nodupRead hne
    exact ⟨q, by simpa only [inside_leave (hneR q hq)] using h.reading q hq, hnq⟩
  have hopen : pi.writeopen = false → s.onRead = [] := fun hx => h.closedWrite (hok.writeopen ▸ hx)
  cases fin with
  | dead =>
    refine ⟨hok.small, fun q hq => ?_, fun q hq => ?_, h.nodupRead, h.nodupWrite, fun hne hc => ?_, fun hne hc => ?_,
      hopen, fun hx => h.closedRead (hok.readopen ▸ hx)⟩
    · simpa only [leave, inside_leave (hneR q hq)] using h.reading q hq
    · simpa only [leave, inside_leave (hneW q hq)] using h.writing q hq
    · have haw : s.AwakeReader := by
        rcases hok.dead rfl with ⟨-, rfl⟩ | ⟨j, hk, hj⟩
        · exact h.readers hne hc
        · by_cases h0 : j = 0
          · exact h.readers hne (by subst h0; dsimp only [leave] at hc; omega)
          · rcases hkill with hx | hx | hx
            · exact absurd hx hne
            · exact hx
            · rw [hx j h0] at hk; cases hk
      obtain ⟨q, hq, ha⟩ := haw
      exact ⟨q, by simpa only [leave, inside_leave (hnotR q hq)] using hq, ha⟩
    · obtain ⟨q, hqp, hq, ha⟩ := hwriters hne hc
      exact ⟨q, by simpa only [leave, inside_leave hqp] using hq, ha⟩
  | full j =>
    obtain ⟨hc, ho⟩ := hok.full j rfl
    refine ⟨hok.small, fun q hq => ?_, fun q hq => ?_, h.nodupRead.tail, List.nodup_cons.mpr ⟨hw, h.nodupWrite⟩,
      fun hne _ => hreader _ hne, fun _ hx => absurd hc hx, fun hx => ?_, fun hx => ?_⟩
    · have hq := List.mem_of_mem_tail hq
      simpa only [wakeOneReader, inside_leave (hneR q hq)] using h.reading q hq
    · rcases List.mem_cons.mp hq with rfl | hq
      · exact ⟨n, j, Function.update_self _ _ _⟩
      · simpa only [wakeOneReader, inside_leave (hneW q hq)] using h.writing q hq
    · show s.onRead.tail = []
      rw [hopen hx]; rfl
    · have hx : pi.readopen = false := hx
      rw [hok.readopen, ho] at hx; cases hx
  | done j =>
    refine ⟨hok.small, fun q hq => ?_, fun q hq => ?_, h.nodupRead.tail, h.nodupWrite, fun hne _ => hreader _ hne,
      fun hne hc => ?_, fun hx => ?_, fun hx => h.closedRead (hok.readopen ▸ hx)⟩
    · have hq := List.mem_of_mem_tail hq
      simpa only [leave, wakeOneReader, inside_leave (hneR q hq)] using h.reading q hq
    · simpa only [leave, wakeOneReader, inside_leave (hneW q hq)] using h.writing q hq
    · obtain ⟨q, hqp, hq, ha⟩ := hwriters hne hc
      exact ⟨q, by simpa only [leave, wakeOneReader, inside_leave hqp] using hq, ha⟩
    · show s.onRead.tail = []
      rw [hopen hx]; rfl

/-- A process enters one of the functions. -/
theorem enter (hi : s.inside p = none) (c : PipeCall) :
    Served { s with inside := Function.update s.inside p (some c) } := by
  have hne : ∀ q {d}, s.inside q = some d → q ≠ p := by
    rintro q d hq rfl
    rw [hi] at hq; cases hq
  have hkeep : ∀ q {d}, s.inside q = some d → Function.update s.inside p (some c) q = some d :=
    fun q d hq => (inside_leave (hne q hq)).trans hq
  refine ⟨h.small, fun q hq => ?_, fun q hq => ?_, h.nodupRead, h.nodupWrite, fun hx hc => ?_, fun hx hc => ?_,
    h.closedWrite, h.closedRead⟩
  · obtain ⟨n, hn⟩ := h.reading q hq
    exact ⟨n, hkeep q hn⟩
  · obtain ⟨n, i, hn⟩ := h.writing q hq
    exact ⟨n, i, hkeep q hn⟩
  · obtain ⟨q, ⟨n, hn⟩, ha⟩ := h.readers hx hc
    exact ⟨q, ⟨n, hkeep q hn⟩, ha⟩
  · obtain ⟨q, ⟨n, i, hn⟩, ha⟩ := h.writers hx hc
    exact ⟨q, ⟨n, i, hkeep q hn⟩, ha⟩

/-- Everybody asleep on `&pi->nread` is woken. -/
theorem wakeReaders {pi : Pipe} (hc : pi.count = s.pi.count) (hr : pi.readopen = s.pi.readopen) :
    Served { s with pi := pi, onRead := [] } where
  small := hc ▸ h.small
  reading := nofun
  writing := h.writing
  nodupRead := List.nodup_nil
  nodupWrite := h.nodupWrite
  readers hx := absurd rfl hx
  writers hx hy := h.writers hx (hc ▸ hy)
  closedWrite _ := rfl
  closedRead hx := h.closedRead (hr ▸ hx)

/-- Everybody asleep on `&pi->nwrite` is woken. -/
theorem wakeWriters {pi : Pipe} (hc : pi.count = s.pi.count) (hw : pi.writeopen = s.pi.writeopen) :
    Served { s with pi := pi, onWrite := [] } where
  small := hc ▸ h.small
  reading := h.reading
  writing := nofun
  nodupRead := h.nodupRead
  nodupWrite := List.nodup_nil
  readers hx hy := h.readers hx (hc ▸ hy)
  writers hx := absurd rfl hx
  closedWrite hx := h.closedWrite (hw ▸ hx)
  closedRead _ := rfl

/-- **Every step that passes wakeups on keeps the invariant.** -/
theorem step {a : PipeAct P} (hp : s.Passes a) (hst : pipeStep s a = some s') : Served s' := by
  cases a with
  | callWrite p n | callRead p n =>
    simp only [pipeStep, Option.isSome_iff_ne_none] at hst
    split at hst
    · cases hst
    · next hi => cases hst; exact h.enter (not_not.mp hi) _
  | run p e =>
    simp only [pipeStep] at hst
    split at hst
    · cases hst
    · next ha =>
      rw [not_or] at ha
      simp only [Passes] at hp
      split at hst
      · next n i hi =>
        rw [hi] at hp
        cases hst
        exact h.write hi ha.1 ha.2 hp.1 hp.2
      · next n hi =>
        rw [hi] at hp
        cases hst
        exact h.read hi ha.1 ha.2 hp
      · cases hst
  | close writable =>
    cases hst
    cases writable with
    | true => exact h.wakeReaders rfl rfl
    | false => exact h.wakeWriters rfl rfl
  | wakeReaders => cases hst; exact h.wakeReaders rfl rfl
  | wakeWriters => cases hst; exact h.wakeWriters rfl rfl

end Served

end PipeState

theorem PipeReachable.served {s : PipeState P} (h : PipeReachable PipeState.Passes s) : s.Served := by
  induction h with
  | refl => exact .init
  | tail _ hst ih =>
    obtain ⟨a, hp, hst⟩ := hst
    exact ih.step hp hst

/-! ## Stranded sleepers -/

/-- Nobody sleeps on a pipe who could go on. -/
def PipeState.NoStranded (s : PipeState P) : Prop :=
  (∀ p ∈ s.onRead, ¬ (s.pi.nread ≠ s.pi.nwrite ∨ s.pi.writeopen = false)) ∧
    ∀ p ∈ s.onWrite, ¬ ((s.pi.nwrite - s.pi.nread).toNat < PIPESIZE ∨ s.pi.readopen = false)

/-- **No stranded sleeper.** In a run in which whoever leaves passes the wakeup on: when everybody inside the pipe
functions is asleep, nobody sleeps who could go on. -/
theorem no_stranded_sleeper {s : PipeState P} (h : PipeReachable PipeState.Passes s)
    (hall : ∀ p, s.inside p ≠ none → p ∈ s.onRead ∨ p ∈ s.onWrite) : s.NoStranded := by
  have hs := h.served
  constructor
  · rintro p hp (hc | ho)
    · obtain ⟨q, ⟨n, hq⟩, ha⟩ := hs.readers (List.ne_nil_of_mem hp) fun h0 => hc (Pipe.count_eq_zero.mp h0)
      rcases hall q (by rw [hq]; simp) with hx | hx
      · exact ha hx
      · obtain ⟨m, i, hm⟩ := hs.writing q hx
        rw [hq] at hm; cases hm
    · rw [hs.closedWrite ho] at hp; cases hp
  · rintro p hp (hc | ho)
    · obtain ⟨q, ⟨n, i, hq⟩, ha⟩ := hs.writers (List.ne_nil_of_mem hp) (Nat.ne_of_lt hc)
      rcases hall q (by rw [hq]; simp) with hx | hx
      · obtain ⟨m, hm⟩ := hs.reading q hx
        rw [hq] at hm; cases hm
      · exact ha hx
    · rw [hs.closedRead ho] at hp; cases hp

/-- A process that is not killed and whose memory is mapped. -/
def PipeEnv.good : PipeEnv where
  killed _ := false
  copyin _ := some 0
  copyout _ := true

/-- A reader has called `piperead` on an empty pipe. -/
def loneReader : PipeState Nat :=
  { PipeState.init with inside := Function.update (fun _ => none) 0 (some (.read 1)) }

/-- The reader goes to sleep, and rightly so. -/
theorem no_stranded_sleeper_lone : { loneReader with onRead := [0] }.NoStranded := by
  have h1 : PipeReachable PipeState.Passes loneReader := Relation.ReflTransGen.single ⟨.callRead 0 1, trivial, rfl⟩
  have hp : loneReader.Passes (.run 0 .good) := show _ ∨ _ from .inl rfl
  refine no_stranded_sleeper (h1.tail ⟨_, hp, rfl⟩) fun p hp => ?_
  by_cases h0 : p = 0
  · exact .inl (by rw [h0]; exact List.mem_cons_self)
  · simp [loneReader, h0] at hp

/-- Readers `0` and `1`, which each want one byte, go to sleep; writer `2` stores two bytes and wakes one of them, which
takes one byte and returns. -/
def strandedRun : List (PipeAct (Fin 3)) :=
  [.callRead 0 1, .run 0 .good, .callRead 1 1, .run 1 .good, .callWrite 2 2, .run 2 .good, .run 1 .good]

/-- **A reader is stranded.** Everybody inside the pipe functions is then asleep, namely reader `0`, and there is a byte
in the pipe. -/
theorem reader_stranded :
    let s := pipeAfter strandedRun
    PipeReachable (fun _ _ => True) s ∧ (∀ p, s.inside p ≠ none → p ∈ s.onRead ∨ p ∈ s.onWrite) ∧
      s.onRead = [0] ∧ s.pi.count = 1 ∧ s.ret 1 = 1 ∧ s.ret 2 = 2 ∧ ¬ s.NoStranded := by
  refine ⟨pipeReachable_after _, fun p hp => ?_, rfl, rfl, rfl, rfl, fun h => ?_⟩
  · match p with
    | 0 => exact .inl List.mem_cons_self
    | 1 => exact absurd rfl hp
    | 2 => exact absurd rfl hp
  · exact h.1 0 List.mem_cons_self (.inl (by decide))

end Xv6
