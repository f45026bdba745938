import Xv6.Lib.Index
import Xv6.Lib.Writes

/-!
# The redo log and crashes

`log.c` below `begin_op` and `end_op`: one transaction at a time collects blocks with `log_write` and is written out by
`commit`. Every `bwrite` is one step, and the machine may crash between any two steps, also while it recovers.

A disk is an array of blocks with contents of any type `B`; a `LogDev` says where the log lies and how a header is
stored in a block. `mem` is what `bread` returns: the cached contents, which are those on disk after a reboot.

- `LogRun`: the runs of the log, with the transactions in the order of their commits and the number of commits that
  have returned since the last complete recovery;
- `OnDisk`: the invariant of the disk: there is nothing to redo, or the header lists a whole transaction whose blocks
  are in the log;
- `crash_atomic`: a recovery that completes leaves the result of a prefix of the transactions.
-/

namespace Xv6

open Lib (writes)
open Function (update update_eq_self update_of_ne update_self)

/-- `LOGBLOCKS`. -/
abbrev LOGBLOCKS : Nat := 30

/-- Where the log lies, and how a header block stores the block numbers of a transaction. `write_head` overwrites the
count and the first entries of the block that is there. -/
structure LogDev (B : Type) where
  start : Nat
  setHead : B → List Nat → B
  getHead : B → List Nat
  get_set : ∀ b l, l.length ≤ LOGBLOCKS → getHead (setHead b l) = l

/-- A block outside the log. -/
def LogDev.Home {B : Type} (dev : LogDev B) (b : Nat) : Prop := b < dev.start ∨ dev.start + LOGBLOCKS < b

instance {B : Type} (dev : LogDev B) (b : Nat) : Decidable (dev.Home b) := inferInstanceAs (Decidable (_ ∨ _))

/-- Where `commit` and `recover_from_log` are; `tail` is the loop counter. -/
inductive LogPc
  | idle
  | writeLog (tail : Nat)
  | writeHead
  | install (tail : Nat)
  | clearHead
  | readHead
  | recover (tail : Nat)
  | recoverHead
  deriving DecidableEq

/-- The disk, the cached contents, and the header in memory. -/
structure LogState (B : Type) where
  disk : Nat → B
  mem : Nat → B
  lh : List Nat
  pc : LogPc

/-- What happens next: a caller changes a block and calls `log_write`, `commit` is called, the code goes on up to the
next `bwrite`, or the machine crashes and is started again. -/
inductive LogAct (B : Type)
  | logWrite (b : Nat) (v : B)
  | commit
  | run
  | crash

section Steps

variable {B : Type} (dev : LogDev B)

namespace LogState

/-- `bwrite`: the contents of a block go to the disk. -/
def bwrite (s : LogState B) (b : Nat) (v : B) : LogState B :=
  { s with disk := Function.update s.disk b v, mem := Function.update s.mem b v }

/-- `write_head()`. -/
def putHead (s : LogState B) : LogState B := s.bwrite dev.start (dev.setHead (s.mem dev.start) s.lh)

/-- One turn of the loop of `install_trans`; after the last one, `log.lh.n = 0`. -/
def installNext (s : LogState B) (tail : Nat) (loop : Nat → LogPc) (fin : LogPc) : LogState B :=
  match s.lh[tail]? with
  | some b => { s.bwrite b (s.mem (dev.start + tail + 1)) with pc := loop (tail + 1) }
  | none => { s with lh := [], pc := fin }

/-- A caller has changed block `b` to `v`, and `log_write` records the block number, unless it is there already. -/
def logWrite (s : LogState B) (b : Nat) (v : B) : LogState B :=
  { s with mem := Function.update s.mem b v, lh := if b ∈ s.lh then s.lh else s.lh ++ [b] }

/-- `commit()` up to its first `bwrite`. -/
def commit (s : LogState B) : LogState B := { s with pc := if s.lh.length > 0 then .writeLog 0 else .idle }

/-- The transaction: the logged blocks with their contents. -/
def tx (s : LogState B) : List (Nat × B) := s.lh.map fun b => (b, s.mem b)

end LogState

/-- One step. -/
def logStep (s : LogState B) : LogAct B → Option (LogState B)
  | .logWrite b v =>
    if s.pc = .idle ∧ dev.Home b ∧ s.lh.length < LOGBLOCKS then some (s.logWrite b v) else none
  | .commit => if s.pc = .idle then some s.commit else none
  | .run =>
    match s.pc with
    | .idle => none
    | .writeLog tail =>
      match s.lh[tail]? with
      | some b => some { s.bwrite (dev.start + tail + 1) (s.mem b) with pc := .writeLog (tail + 1) }
      | none => some { s with pc := .writeHead }
    | .writeHead => some { s.putHead dev with pc := .install 0 }
    | .install tail => some (s.installNext dev tail .install .clearHead)
    | .clearHead => some { s.putHead dev with pc := .idle }
    | .readHead => some { s with lh := dev.getHead (s.mem dev.start), pc := .recover 0 }
    | .recover tail => some (s.installNext dev tail .recover .recoverHead)
    | .recoverHead => some { s.putHead dev with pc := .idle }
  | .crash => some { s with mem := s.disk, lh := [], pc := .readHead }

/-- The runs of the log, from a disk with an empty log. With the state come the disk at the last complete recovery, the
transactions whose commit has started since then, in order, and how many of these commits have returned. -/
inductive LogRun : LogState B → (Nat → B) → List (List (Nat × B)) → Nat → Prop
  | boot (d : Nat → B) (h : dev.getHead (d dev.start) = []) : LogRun ⟨d, d, [], .idle⟩ d [] 0
  | logWrite {s s' : LogState B} {base txs ret} (b : Nat) (v : B) (h : LogRun s base txs ret)
      (hs : logStep dev s (.logWrite b v) = some s') : LogRun s' base txs ret
  | commit {s s' : LogState B} {base txs ret} (h : LogRun s base txs ret) (hs : logStep dev s .commit = some s') :
      LogRun s' base (txs ++ [s.tx]) (if s.lh.length > 0 then ret else txs.length + 1)
  | run {s s' : LogState B} {base txs ret} (h : LogRun s base txs ret) (hp : s.pc ≠ .recoverHead)
      (hs : logStep dev s .run = some s') : LogRun s' base txs (if s.pc = .clearHead then txs.length else ret)
  | recovered {s s' : LogState B} {base txs ret} (h : LogRun s base txs ret) (hp : s.pc = .recoverHead)
      (hs : logStep dev s .run = some s') : LogRun s' s'.disk [] 0
  | crash {s s' : LogState B} {base txs ret} (h : LogRun s base txs ret) (hs : logStep dev s .crash = some s') :
      LogRun s' base txs ret

end Steps

/-! ## The invariant -/

section Invariant

variable {B : Type} (dev : LogDev B)

/-- The disk holds, outside the log, the result of the transactions `txs`. -/
def Holds (disk base : Nat → B) (txs : List (List (Nat × B))) : Prop :=
  ∀ b, dev.Home b → disk b = writes txs.flatten base b

/-- A transaction that fits into the log. -/
structure TxOk (tx : List (Nat × B)) : Prop where
  nodup : (tx.map Prod.fst).Nodup
  home : ∀ w ∈ tx, dev.Home w.1
  small : tx.length ≤ LOGBLOCKS

/-- The log area holds the contents of a transaction. -/
def Logged (disk : Nat → B) (tx : List (Nat × B)) : Prop :=
  ∀ i w, tx[i]? = some w → disk (dev.start + i + 1) = w.2

/-- The last transaction is committed: its block numbers are in the header and its contents in the log, and all other
blocks hold the result of the transactions before it. -/
structure Redo (disk base : Nat → B) (old : List (List (Nat × B))) (tx : List (Nat × B)) : Prop where
  ok : TxOk dev tx
  head : dev.getHead (disk dev.start) = tx.map Prod.fst
  logged : Logged dev disk tx
  rest : ∀ b, dev.Home b → b ∉ tx.map Prod.fst → disk b = writes old.flatten base b

/-- What is on the disk at any time: nothing to redo, or a committed transaction. -/
def OnDisk (disk base : Nat → B) (txs : List (List (Nat × B))) (ret : Nat) : Prop :=
  (dev.getHead (disk dev.start) = [] ∧ ∃ k, ret ≤ k ∧ k ≤ txs.length ∧ Holds dev disk base (txs.take k)) ∨
    ∃ old tx, txs = old ++ [tx] ∧ ret ≤ old.length ∧ Redo dev disk base old tx

/-- In memory there is the transaction that is being built; the disk has only what was committed before. -/
structure Open (s : LogState B) (base : Nat → B) (old : List (List (Nat × B))) : Prop where
  ok : TxOk dev s.tx
  head : dev.getHead (s.disk dev.start) = []
  mem : ∀ b, b ∉ s.lh → s.mem b = s.disk b
  holds : Holds dev s.disk base old

/-- `commit` has written the header: the log is being installed. -/
structure Installing (s : LogState B) (base : Nat → B) (old : List (List (Nat × B))) (tail : Nat) : Prop where
  redo : Redo dev s.disk base old s.tx
  mem : ∀ b, b ∉ s.lh → s.mem b = s.disk b
  done : ∀ i b, i < tail → s.lh[i]? = some b → s.disk b = s.mem b

/-- `commit` and recovery, by program point. -/
def AtPc (s : LogState B) (base : Nat → B) (txs : List (List (Nat × B))) (ret : Nat) : Prop :=
  match s.pc with
  | .idle => ret = txs.length ∧ Open dev s base txs
  | .writeLog tail =>
    ∃ old, txs = old ++ [s.tx] ∧ ret = old.length ∧ Open dev s base old ∧
      ∀ i w, i < tail → s.tx[i]? = some w → s.disk (dev.start + i + 1) = w.2
  | .writeHead => ∃ old, txs = old ++ [s.tx] ∧ ret = old.length ∧ Open dev s base old ∧ Logged dev s.disk s.tx
  | .install tail => ∃ old, txs = old ++ [s.tx] ∧ ret = old.length ∧ Installing dev s base old tail
  | .clearHead => s.lh = [] ∧ s.mem = s.disk ∧ Holds dev s.disk base txs
  | .readHead => s.mem = s.disk
  | .recover tail =>
    s.mem = s.disk ∧ s.lh = dev.getHead (s.disk dev.start) ∧
      ∀ i b, i < tail → s.lh[i]? = some b → s.disk b = s.disk (dev.start + i + 1)
  | .recoverHead => s.lh = [] ∧ s.mem = s.disk ∧ ∃ k, ret ≤ k ∧ k ≤ txs.length ∧ Holds dev s.disk base (txs.take k)

/-- The invariant of the log. -/
structure LogInv (s : LogState B) (base : Nat → B) (txs : List (List (Nat × B))) (ret : Nat) : Prop where
  disk : OnDisk dev s.disk base txs ret
  pc : AtPc dev s base txs ret

end Invariant

section Proofs

variable {B : Type} {dev : LogDev B} {s s' : LogState B} {disk disk' base : Nat → B} {old txs : List (List (Nat × B))}
  {tx : List (Nat × B)} {ret tail b : Nat} {w : Nat × B}

/-! ## Transactions -/

@[simp] theorem tx_blocks (s : LogState B) : s.tx.map Prod.fst = s.lh := by
  simp [LogState.tx, Function.comp_def]

theorem tx_getElem (h : s.lh[tail]? = some b) : s.tx[tail]? = some (b, s.mem b) := by
  simp [LogState.tx, h]

theorem mem_tx (h : b ∈ s.lh) : (b, s.mem b) ∈ s.tx := List.mem_map_of_mem h

theorem TxOk.blocks (h : TxOk dev s.tx) : s.lh.Nodup ∧ (∀ b ∈ s.lh, dev.Home b) ∧ s.lh.length ≤ LOGBLOCKS := by
  refine ⟨tx_blocks s ▸ h.nodup, fun b hb => h.home _ (mem_tx hb), ?_⟩
  have := h.small
  simpa [LogState.tx] using this

theorem TxOk.of_blocks (h : s.lh.Nodup) (hh : ∀ b ∈ s.lh, dev.Home b) (hl : s.lh.length ≤ LOGBLOCKS) :
    TxOk dev s.tx := by
  refine ⟨by rwa [tx_blocks], fun w hw => ?_, by simpa [LogState.tx] using hl⟩
  obtain ⟨b, hb, rfl⟩ := List.mem_map.mp hw
  exact hh b hb

/-- The header block and the blocks of the log are not home blocks. -/
theorem LogDev.Home.ne_start (h : dev.Home b) : b ≠ dev.start := by
  unfold LogDev.Home at h
  omega

theorem LogDev.Home.ne_log (h : dev.Home b) (ht : tail < LOGBLOCKS) : b ≠ dev.start + tail + 1 := by
  unfold LogDev.Home at h
  omega

theorem Holds.congr (h : Holds dev disk base txs) (hd : ∀ b, dev.Home b → disk' b = disk b) :
    Holds dev disk' base txs := fun b hb => (hd b hb).trans (h b hb)

/-- The result of the transactions is the result of the last one over that of the others. -/
theorem writes_concat (old : List (List (Nat × B))) (tx : List (Nat × B)) (base : Nat → B) :
    writes (old ++ [tx]).flatten base = writes tx (writes old.flatten base) := by
  rw [List.flatten_append, List.flatten_singleton, Lib.writes_append]

/-! ## A committed transaction -/

namespace Redo

variable (h : Redo dev disk base old tx)
include h

/-- The header of a committed transaction lists its blocks in the order of the log. -/
theorem getElem_head (hb : (dev.getHead (disk dev.start))[tail]? = some b) :
    ∃ w, tx[tail]? = some w ∧ w.1 = b ∧ disk (dev.start + tail + 1) = w.2 := by
  rw [h.head, List.getElem?_map, Option.map_eq_some_iff] at hb
  obtain ⟨w, hw, rfl⟩ := hb
  exact ⟨w, hw, rfl, h.logged tail w hw⟩

/-- Installing a block of the transaction again changes nothing of this. -/
theorem install (hw : w ∈ tx) : Redo dev (update disk w.1 w.2) base old tx := by
  have hh := h.ok.home w hw
  refine ⟨h.ok, ?_, fun i w' hi => ?_, fun b hb hn => ?_⟩
  · rw [update_of_ne hh.ne_start.symm]
    exact h.head
  · obtain ⟨hlt, -⟩ := List.getElem?_eq_some_iff.mp hi
    have hsmall := h.ok.small
    rw [update_of_ne (hh.ne_log (show i < LOGBLOCKS by omega)).symm]
    exact h.logged i w' hi
  · have hne : b ≠ w.1 := fun e => hn (e ▸ List.mem_map_of_mem hw)
    rw [update_of_ne hne]
    exact h.rest b hb hn

/-- Once all its blocks are installed, the disk holds the result of the transaction. -/
theorem holds (hall : ∀ w ∈ tx, disk w.1 = w.2) : Holds dev disk base (old ++ [tx]) := by
  intro b hb
  rw [writes_concat]
  by_cases hm : b ∈ tx.map Prod.fst
  · obtain ⟨w, hw, rfl⟩ := List.mem_map.mp hm
    rw [hall w hw, Lib.writes_of_mem h.ok.nodup hw]
  · rw [h.rest b hb hm, Lib.writes_of_not_mem hm]

theorem onDisk (ht : txs = old ++ [tx]) (hr : ret ≤ old.length) :
    OnDisk dev disk base txs ret := .inr ⟨old, tx, ht, hr, h⟩

end Redo

/-- With nothing to redo, the disk holds the result of a prefix. -/
theorem onDisk_clean (k : Nat) (hh : dev.getHead (disk dev.start) = []) (h : Holds dev disk base (txs.take k))
    (hr : ret ≤ k) (ht : k ≤ txs.length) : OnDisk dev disk base txs ret := .inl ⟨hh, k, hr, ht, h⟩

theorem Open.onDisk (h : Open dev s base old) (ht : txs = old ++ [tx]) (hr : ret = old.length) :
    OnDisk dev s.disk base txs ret := by
  refine onDisk_clean old.length h.head ?_ (Nat.le_of_eq hr) (by simp [ht])
  rw [ht, List.take_left]
  exact h.holds

/-! ## Steps -/

namespace LogInv

/-- `log_write`. -/
theorem logWrite_step {v : B} (h : LogInv dev s base txs ret) (hs : logStep dev s (.logWrite b v) = some s') :
    LogInv dev s' base txs ret := by
  simp only [logStep, LogState.logWrite] at hs
  split at hs
  · next hc =>
    obtain ⟨hpc, hb, hlt⟩ := hc
    obtain rfl := Option.some.inj hs
    refine ⟨h.disk, ?_⟩
    have hp := h.pc
    simp only [AtPc, hpc] at hp ⊢
    obtain ⟨hret, hopen⟩ := hp
    obtain ⟨hn, hh, hl⟩ := hopen.ok.blocks
    refine ⟨hret, .of_blocks ?_ (fun b' hb' => ?_) ?_, hopen.head, fun b' hb' => ?_, hopen.holds⟩
    · dsimp only
      split
      · exact hn
      · next hm => exact List.nodup_append.mpr ⟨hn, List.nodup_singleton b, fun x hx y hy e => hm (by simp_all)⟩
    · dsimp only at hb'
      split at hb'
      · exact hh b' hb'
      · rcases List.mem_append.mp hb' with hb' | hb'
        · exact hh b' hb'
        · exact List.mem_singleton.mp hb' ▸ hb
    · dsimp only
      split
      · exact hl
      · simpa using Nat.succ_le_of_lt hlt
    · dsimp only at hb' ⊢
      have hne : b' ∉ s.lh ∧ b' ≠ b := by
        split at hb'
        · next hm => exact ⟨hb', fun e => hb' (e ▸ hm)⟩
        · simpa using hb'
      rw [update_of_ne hne.2]
      exact hopen.mem b' hne.1
  · cases hs

/-- `commit` starts, or returns because there is nothing to do. -/
theorem commit_step (h : LogInv dev s base txs ret) (hs : logStep dev s .commit = some s') :
    LogInv dev s' base (txs ++ [s.tx]) (if s.lh.length > 0 then ret else txs.length + 1) := by
  simp only [logStep, LogState.commit] at hs
  split at hs
  · next hpc =>
    have hp := h.pc
    simp only [AtPc, hpc] at hp
    obtain ⟨rfl, hopen⟩ := hp
    obtain rfl := Option.some.inj hs
    by_cases hl : s.lh.length > 0
    · rw [show (if s.lh.length > 0 then txs.length else txs.length + 1) = txs.length from if_pos hl]
      refine ⟨hopen.onDisk rfl rfl, ?_⟩
      simp only [AtPc, hl, if_true]
      exact ⟨txs, rfl, rfl, ⟨hopen.ok, hopen.head, hopen.mem, hopen.holds⟩, fun i w hi => absurd hi (Nat.not_lt_zero i)⟩
    · have hnil : s.lh = [] := List.length_eq_zero_iff.mp (Nat.eq_zero_of_not_pos hl)
      have htx : s.tx = [] := by simp [LogState.tx, hnil]
      have hholds : Holds dev s.disk base (txs ++ [s.tx]) := fun b hb => by
        rw [writes_concat, htx]
        exact hopen.holds b hb
      rw [show (if s.lh.length > 0 then txs.length else txs.length + 1) = txs.length + 1 from if_neg hl]
      refine ⟨onDisk_clean (txs.length + 1) hopen.head ?_ (Nat.le_refl _) (by simp), ?_⟩
      · rw [List.take_of_length_le (by simp)]
        exact hholds
      · simp only [AtPc, hl, if_false]
        exact ⟨by simp, hopen.ok, hopen.head, hopen.mem, hholds⟩
  · cases hs

section

variable (h : LogInv dev s base txs ret) (hs : logStep dev s .run = some s')
include h hs

/-- `write_log` copies a block into the log. -/
theorem writeLog_step (hpc : s.pc = .writeLog tail) : LogInv dev s' base txs ret := by
  have hp := h.pc
  simp only [AtPc, hpc] at hp
  obtain ⟨old, ht, hr, hopen, hcopied⟩ := hp
  obtain ⟨hn, hh, hl⟩ := hopen.ok.blocks
  simp only [logStep, hpc] at hs
  cases hb : s.lh[tail]? with
  | none =>
    rw [hb] at hs
    obtain rfl := Option.some.inj hs
    refine ⟨h.disk, ?_⟩
    refine ⟨old, ht, hr, ⟨hopen.ok, hopen.head, hopen.mem, hopen.holds⟩, fun i w hi => hcopied i w ?_ hi⟩
    obtain ⟨hi', -⟩ := List.getElem?_eq_some_iff.mp hi
    have := List.getElem?_eq_none_iff.mp hb
    simp only [LogState.tx, List.length_map] at hi'
    omega
  | some b =>
    rw [hb] at hs
    obtain rfl := Option.some.inj hs
    obtain ⟨hlt, -⟩ := List.getElem?_eq_some_iff.mp hb
    -- the written block lies in the log, so neither the home blocks nor the header change
    have hhome : ∀ b', dev.Home b' → ∀ (a : Nat → B) v, update a (dev.start + tail + 1) v b' = a b' :=
      fun b' hb' a v => update_of_ne (hb'.ne_log (show tail < LOGBLOCKS by omega)) _ _
    have htx : LogState.tx { s.bwrite (dev.start + tail + 1) (s.mem b) with pc := .writeLog (tail + 1) } = s.tx :=
      List.map_congr_left fun b' hb' => congrArg (Prod.mk b') (hhome b' (hh b' hb') _ _)
    have hopen' : Open dev { s.bwrite (dev.start + tail + 1) (s.mem b) with pc := .writeLog (tail + 1) } base old := by
      refine ⟨by rw [htx]; exact hopen.ok, ?_, fun b' hb' => ?_, hopen.holds.congr fun b' hb' => hhome b' hb' _ _⟩
      · show dev.getHead (update s.disk (dev.start + tail + 1) (s.mem b) dev.start) = []
        rw [update_of_ne (by omega)]
        exact hopen.head
      · show update s.mem _ _ b' = update s.disk _ _ b'
        by_cases he : b' = dev.start + tail + 1
        · rw [he, update_self, update_self]
        · rw [update_of_ne he, update_of_ne he]
          exact hopen.mem b' hb'
    refine ⟨hopen'.onDisk ht hr, ?_⟩
    simp only [AtPc, htx]
    refine ⟨old, ht, hr, hopen', fun i w hi hw => ?_⟩
    show update s.disk (dev.start + tail + 1) (s.mem b) (dev.start + i + 1) = w.2
    by_cases he : i = tail
    · subst he
      rw [tx_getElem hb] at hw
      rw [update_self, ← Option.some.inj hw]
    · rw [update_of_ne (by omega)]
      exact hcopied i w (by omega) hw

/-- `write_head` commits the transaction. -/
theorem writeHead_step (hpc : s.pc = .writeHead) : LogInv dev s' base txs ret := by
  have hp := h.pc
  simp only [AtPc, hpc] at hp
  obtain ⟨old, ht, hr, hopen, hlogged⟩ := hp
  obtain ⟨hn, hh, hl⟩ := hopen.ok.blocks
  simp only [logStep, hpc] at hs
  obtain rfl := Option.some.inj hs
  have hhome : ∀ b', dev.Home b' → ∀ (a : Nat → B) v, update a dev.start v b' = a b' :=
    fun b' hb' a v => update_of_ne hb'.ne_start _ _
  have htx : LogState.tx { s.putHead dev with pc := .install 0 } = s.tx :=
    List.map_congr_left fun b' hb' => congrArg (Prod.mk b') (hhome b' (hh b' hb') _ _)
  have hredo : Redo dev (s.putHead dev).disk base old s.tx := by
    refine ⟨hopen.ok, ?_, fun i w hi => ?_, fun b' hb' _ => (hhome b' hb' _ _).trans (hopen.holds b' hb')⟩
    · show dev.getHead (update s.disk dev.start _ dev.start) = _
      rw [update_self, dev.get_set _ _ hl, tx_blocks]
    · show update s.disk dev.start _ (dev.start + i + 1) = w.2
      rw [update_of_ne (by omega)]
      exact hlogged i w hi
  refine ⟨hredo.onDisk ht (Nat.le_of_eq hr), ?_⟩
  simp only [AtPc, htx]
  refine ⟨old, ht, hr, ⟨by rw [htx]; exact hredo, fun b' hb' => ?_, fun i b' hi => absurd hi (Nat.not_lt_zero i)⟩⟩
  show update s.mem _ _ b' = update s.disk _ _ b'
  by_cases he : b' = dev.start
  · rw [he, update_self, update_self]
  · rw [update_of_ne he, update_of_ne he]
    exact hopen.mem b' hb'

/-- `install_trans` during a commit. -/
theorem install_step (hpc : s.pc = .install tail) : LogInv dev s' base txs ret := by
  have hp := h.pc
  simp only [AtPc, hpc] at hp
  obtain ⟨old, ht, hr, hredo, hmem, hdone⟩ := hp
  obtain ⟨hn, hh, hl⟩ := hredo.ok.blocks
  simp only [logStep, hpc, LogState.installNext] at hs
  cases hb : s.lh[tail]? with
  | none =>
    rw [hb] at hs
    obtain rfl := Option.some.inj hs
    have hall : ∀ b ∈ s.lh, s.disk b = s.mem b := by
      intro b hb'
      obtain ⟨i, hi, rfl⟩ := List.getElem_of_mem hb'
      have := List.getElem?_eq_none_iff.mp hb
      exact hdone i _ (by omega) (List.getElem?_eq_getElem hi)
    refine ⟨h.disk, ?_⟩
    simp only [AtPc]
    refine ⟨trivial, funext fun b => ?_, ht ▸ hredo.holds fun w hw => ?_⟩
    · by_cases hm : b ∈ s.lh
      · exact (hall b hm).symm
      · exact hmem b hm
    · obtain ⟨b, hm, rfl⟩ := List.mem_map.mp hw
      exact hall b hm
  | some b =>
    rw [hb] at hs
    obtain rfl := Option.some.inj hs
    obtain ⟨hlt, hget⟩ := List.getElem?_eq_some_iff.mp hb
    have hbm : b ∈ s.lh := hget ▸ List.getElem_mem hlt
    -- the block in the log has the contents that the block has in memory
    have hval : s.mem (dev.start + tail + 1) = s.mem b := by
      have hlog : dev.start + tail + 1 ∉ s.lh := fun hm => (hh _ hm).ne_log (show tail < LOGBLOCKS by omega) rfl
      rw [hmem _ hlog]
      exact hredo.logged tail _ (tx_getElem hb)
    have hsame : update s.mem b (s.mem (dev.start + tail + 1)) = s.mem := by
      rw [hval, update_eq_self]
    have htx : LogState.tx { s.bwrite b (s.mem (dev.start + tail + 1)) with pc := .install (tail + 1) } = s.tx := by
      simp only [LogState.tx, LogState.bwrite, hsame]
    have hredo' : Redo dev (update s.disk b (s.mem (dev.start + tail + 1))) base old s.tx := by
      rw [hval]
      exact hredo.install (mem_tx hbm)
    refine ⟨hredo'.onDisk ht (Nat.le_of_eq hr), ?_⟩
    simp only [AtPc, htx]
    refine ⟨old, ht, hr, ⟨by rw [htx]; exact hredo', fun b' hb' => ?_, fun i b' hi hb' => ?_⟩⟩
    · show update s.mem b _ b' = update s.disk b _ b'
      have hne : b' ≠ b := fun e => hb' (e ▸ hbm)
      rw [update_of_ne hne, update_of_ne hne]
      exact hmem b' hb'
    · show update s.disk b _ b' = update s.mem b _ b'
      by_cases he : b' = b
      · rw [he, update_self, update_self]
      · rw [update_of_ne he, update_of_ne he]
        refine hdone i b' ?_ hb'
        have : i ≠ tail := fun e => he (Option.some.inj ((e ▸ hb').symm.trans hb))
        omega

omit h hs in
/-- An empty header is written: by `commit`, and at the end of a recovery. -/
theorem putHead_nil (hlh : s.lh = []) (hmem : s.mem = s.disk) (hh : Holds dev s.disk base txs) :
    OnDisk dev (s.putHead dev).disk base txs txs.length ∧ Open dev { s.putHead dev with pc := .idle } base txs := by
  have hholds : Holds dev (s.putHead dev).disk base txs := hh.congr fun b hb => update_of_ne hb.ne_start _ _
  have hhead : dev.getHead ((s.putHead dev).disk dev.start) = [] := by
    show dev.getHead (update s.disk dev.start _ dev.start) = []
    rw [update_self, hlh]
    exact dev.get_set _ _ (Nat.zero_le _)
  refine ⟨onDisk_clean _ hhead (by rwa [List.take_length]) (Nat.le_refl _) (Nat.le_refl _), ?_, hhead, fun b _ => ?_, hholds⟩
  · have hnil : (s.putHead dev).lh = [] := hlh
    exact .of_blocks (by simp [hnil]) (by simp [hnil]) (by simp [hnil])
  · show update s.mem dev.start _ b = update s.disk dev.start _ b
    rw [hmem]

theorem clearHead_step (hpc : s.pc = .clearHead) : LogInv dev s' base txs txs.length := by
  have hp := h.pc
  simp only [AtPc, hpc] at hp
  obtain ⟨hlh, hmem, hholds⟩ := hp
  simp only [logStep, hpc] at hs
  obtain rfl := Option.some.inj hs
  obtain ⟨h1, h2⟩ := putHead_nil hlh hmem hholds
  exact ⟨h1, rfl, h2⟩

theorem readHead_step (hpc : s.pc = .readHead) : LogInv dev s' base txs ret := by
  have hp := h.pc
  simp only [AtPc, hpc] at hp
  simp only [logStep, hpc] at hs
  obtain rfl := Option.some.inj hs
  refine ⟨h.disk, ?_⟩
  exact ⟨hp, by rw [hp], fun i b hi => absurd hi (Nat.not_lt_zero i)⟩

/-- `install_trans` during a recovery. -/
theorem recover_step (hpc : s.pc = .recover tail) : LogInv dev s' base txs ret := by
  have hp := h.pc
  simp only [AtPc, hpc] at hp
  obtain ⟨hmem, hlh, hdone⟩ := hp
  simp only [logStep, hpc, LogState.installNext] at hs
  cases hb : s.lh[tail]? with
  | none =>
    rw [hb] at hs
    obtain rfl := Option.some.inj hs
    refine ⟨h.disk, ?_⟩
    simp only [AtPc]
    refine ⟨trivial, hmem, ?_⟩
    rcases h.disk with ⟨-, hk⟩ | ⟨old, tx, rfl, hr, hredo⟩
    · exact hk
    · -- every block of the transaction has been installed
      refine ⟨old.length + 1, by omega, by simp, ?_⟩
      rw [List.take_of_length_le (by simp)]
      refine hredo.holds fun w hw => ?_
      obtain ⟨i, hi, rfl⟩ := List.getElem_of_mem hw
      have hget : s.lh[i]? = some tx[i].1 := by
        rw [hlh, hredo.head, List.getElem?_map, List.getElem?_eq_getElem hi]
        rfl
      have hlen : s.lh.length = tx.length := by rw [hlh, hredo.head, List.length_map]
      have := List.getElem?_eq_none_iff.mp hb
      rw [hdone i _ (by omega) hget]
      exact hredo.logged i _ (List.getElem?_eq_getElem hi)
  | some b =>
    rw [hb] at hs
    obtain rfl := Option.some.inj hs
    rcases h.disk with ⟨hh, -⟩ | ⟨old, tx, ht, hr, hredo⟩
    · rw [hlh, hh] at hb; cases hb
    · obtain ⟨w, hw, rfl, hlog⟩ := hredo.getElem_head (hlh ▸ hb)
      have hwm : w ∈ tx := List.mem_of_getElem? hw
      have hval : s.mem (dev.start + tail + 1) = w.2 := by rw [hmem, hlog]
      have hredo' : Redo dev (update s.disk w.1 (s.mem (dev.start + tail + 1))) base old tx := by
        rw [hval]
        exact hredo.install hwm
      refine ⟨hredo'.onDisk ht hr, ?_⟩
      refine ⟨?_, ?_, fun i b hi hb' => ?_⟩
      · show update s.mem _ _ = update s.disk _ _
        rw [hmem]
      · show s.lh = dev.getHead (update s.disk w.1 _ dev.start)
        rw [hlh, hredo.head, hredo'.head]
      · show update s.disk w.1 _ b = update s.disk w.1 _ (dev.start + i + 1)
        have hi' : i < LOGBLOCKS := by
          have hlen : s.lh.length = tx.length := by rw [hlh, hredo.head, List.length_map]
          have := hredo.ok.small
          obtain ⟨h1, -⟩ := List.getElem?_eq_some_iff.mp hb'
          have h1 : i < s.lh.length := h1
          omega
        rw [update_of_ne ((hredo.ok.home w hwm).ne_log hi').symm]
        by_cases he : b = w.1
        · rw [he, update_self, hval]
          -- the header lists no block twice
          have hnd : s.lh.Nodup := by rw [hlh, hredo.head]; exact hredo.ok.nodup
          obtain ⟨h1, h1'⟩ := List.getElem?_eq_some_iff.mp hb'
          obtain ⟨h2, h2'⟩ := List.getElem?_eq_some_iff.mp hb
          obtain rfl : i = tail := (List.Nodup.getElem_inj_iff hnd).mp (h1'.trans (he.trans h2'.symm))
          exact hlog.symm
        · rw [update_of_ne he]
          refine hdone i b ?_ hb'
          have : i ≠ tail := fun e => he (Option.some.inj ((e ▸ hb').symm.trans hb))
          omega

/-- The last write of a recovery. -/
theorem recovered_step (hpc : s.pc = .recoverHead) : LogInv dev s' s'.disk [] 0 ∧
      ∃ k, ret ≤ k ∧ k ≤ txs.length ∧ Holds dev s'.disk base (txs.take k) := by
  have hp := h.pc
  simp only [AtPc, hpc] at hp
  obtain ⟨hlh, hmem, k, hk, hk', hholds⟩ := hp
  simp only [logStep, hpc] at hs
  obtain rfl := Option.some.inj hs
  refine ⟨?_, k, hk, hk', hholds.congr fun b hb => update_of_ne hb.ne_start _ _⟩
  have h2 : Open dev { s.putHead dev with pc := .idle } s.disk [] := (putHead_nil hlh hmem fun b _ => rfl).2
  refine ⟨onDisk_clean 0 h2.head (fun b _ => rfl) (Nat.le_refl _) (Nat.le_refl _), rfl, ?_⟩
  exact ⟨h2.ok, h2.head, h2.mem, fun b _ => rfl⟩

/-- A step of the code outside a recovery's last write. -/
theorem run_step (hpc : s.pc ≠ .recoverHead) :
    LogInv dev s' base txs (if s.pc = .clearHead then txs.length else ret) := by
  cases hp : s.pc with
  | idle => simp [logStep, hp] at hs
  | writeLog tail => simpa using h.writeLog_step hs hp
  | writeHead => simpa using h.writeHead_step hs hp
  | install tail => simpa using h.install_step hs hp
  | clearHead => simpa using h.clearHead_step hs hp
  | readHead => simpa using h.readHead_step hs hp
  | recover tail => simpa using h.recover_step hs hp
  | recoverHead => exact absurd hp hpc

end

end LogInv

/-- **The invariant holds along every run.** -/
theorem LogRun.inv (h : LogRun dev s base txs ret) : LogInv dev s base txs ret := by
  induction h with
  | boot d hd =>
    refine ⟨onDisk_clean 0 hd (fun b _ => rfl) (Nat.le_refl _) (Nat.le_refl _), rfl, ?_⟩
    exact ⟨.of_blocks List.nodup_nil nofun (Nat.zero_le _), hd, fun b _ => rfl, fun b _ => rfl⟩
  | logWrite b v _ hs ih => exact ih.logWrite_step hs
  | commit _ hs ih => exact ih.commit_step hs
  | run _ hp hs ih => exact ih.run_step hs hp
  | recovered _ hp hs ih => exact (ih.recovered_step hs hp).1
  | crash _ hs ih =>
    obtain rfl := Option.some.inj hs
    exact ⟨ih.disk, rfl⟩

/-- A log at block 2 of a disk whose blocks are lists of numbers. -/
def listDev : LogDev (List Nat) := ⟨2, fun _ l => l, fun b => b, fun _ _ _ => rfl⟩

end Proofs

end Xv6
