import Xv6.Bio.Cache
import Xv6.Log.Ops

/-!
# The buffer cache and the log together

`bio.c` and `log.c` as `fs.c` uses them, for any processes `P`. A process reads blocks at any time; inside an operation
it also changes the buffers it has read, calls `log_write` for each of them before `brelse` and before `end_op`, and
the last operation runs `commit`, with all its calls of `bread`, `bwrite`, `bunpin` and `brelse`. Steps end where
another process may run: at the end of a critical section, in `acquiresleep`, and during disk I/O.

`BioState.abs` is the state of the operations that a state of this machine stands for: the contents of a block are those
last given to it, and `commit` is past its writes to the disk.
-/

namespace Xv6

/-- Where `commit` is: before which of its calls. -/
inductive CommitPc
  | idle
  | writeLog (tail : Nat)
  | logFrom (tail : Nat)
  | logCopy (tail : Nat)
  | logWrite (tail : Nat)
  | logRelFrom (tail : Nat)
  | logRelTo (tail : Nat)
  | head (fin : Bool)
  | headFill (fin : Bool)
  | headWrite (fin : Bool)
  | headRel (fin : Bool)
  | install (tail : Nat)
  | instDst (tail : Nat)
  | instCopy (tail : Nat)
  | instWrite (tail : Nat)
  | instUnpin (tail : Nat)
  | instRelLog (tail : Nat)
  | instRelDst (tail : Nat)
  deriving DecidableEq

/-- A call made by `commit`, or one of its assignments. -/
inductive CommitCall
  | bread (b : Nat)
  | memmove (dst src : Nat)
  | setHead
  | bwrite (b : Nat)
  | bunpin (b : Nat)
  | brelse (b : Nat)
  | clear
  | skip

/-- The code of `write_log`, `write_head(0)`, `install_trans(0)`, `log.lh.n = 0` and `write_head(0)`: the call at a
point, and the point after it. `head fin` is in the first or in the final `write_head`. -/
def commitCode {B : Type} (dev : LogDev B) (lh : List Nat) : CommitPc → CommitCall × CommitPc
  | .idle => (.skip, .idle)
  | .writeLog tail => if tail < lh.length then (.bread (dev.start + tail + 1), .logFrom tail) else (.skip, .head false)
  | .logFrom tail => (.bread (lh.getD tail 0), .logCopy tail)
  | .logCopy tail => (.memmove (dev.start + tail + 1) (lh.getD tail 0), .logWrite tail)
  | .logWrite tail => (.bwrite (dev.start + tail + 1), .logRelFrom tail)
  | .logRelFrom tail => (.brelse (lh.getD tail 0), .logRelTo tail)
  | .logRelTo tail => (.brelse (dev.start + tail + 1), .writeLog (tail + 1))
  | .head fin => (.bread dev.start, .headFill fin)
  | .headFill fin => (.setHead, .headWrite fin)
  | .headWrite fin => (.bwrite dev.start, .headRel fin)
  | .headRel fin => (.brelse dev.start, if fin then .idle else .install 0)
  | .install tail => if tail < lh.length then (.bread (dev.start + tail + 1), .instDst tail) else (.clear, .head true)
  | .instDst tail => (.bread (lh.getD tail 0), .instCopy tail)
  | .instCopy tail => (.memmove (lh.getD tail 0) (dev.start + tail + 1), .instWrite tail)
  | .instWrite tail => (.bwrite (lh.getD tail 0), .instUnpin tail)
  | .instUnpin tail => (.bunpin (lh.getD tail 0), .instRelLog tail)
  | .instRelLog tail => (.brelse (dev.start + tail + 1), .instRelDst tail)
  | .instRelDst tail => (.brelse (lh.getD tail 0), .install (tail + 1))

/-- The panics of `bio.c` and `log.c`. -/
inductive BioPanic
  | log (e : LogPanic)
  | bget
  | bwrite
  | brelse
  deriving DecidableEq

/-- The message of a panic. -/
def BioPanic.msg : BioPanic → String
  | .log e => e.msg
  | .bget => "bget: no buffers"
  | .bwrite => "bwrite"
  | .brelse => "brelse"

/-- The cache, the disk, `struct log`, and the processes. `last` is history: the contents that were last given to a
block by `log_write` or `bwrite`; no step reads it. -/
structure BioState (B P : Type) where
  cache : Bcache B P
  disk : Nat → B
  lh : List Nat
  outstanding : Int
  committing : Bool
  pc : P → OpPc
  cpc : CommitPc
  holds : List (Hold P)
  panicked : Option BioPanic
  last : Nat → B

/-- What happens next: a process runs through a critical section of `begin_op` or `end_op`, starts to read a block,
changes or logs or releases a block it has read, or goes on in `commit`; a buffer gets on in `bread` or `brelse`; a
`kkill` wakes the processes asleep on `&log`. -/
inductive BioAct (B P : Type)
  | beginOp (p : P)
  | endOp (p : P)
  | wake
  | bread (p : P) (b : Nat)
  | go (h : Hold P)
  | modify (p : P) (b : Nat) (v : B)
  | logWrite (p : P) (b : Nat)
  | brelse (p : P) (b : Nat)
  | run (p : P)

/-- `bread` has returned the buffer. -/
def HoldPc.isReady : HoldPc → Bool
  | .ready _ => true
  | _ => false

section Steps

variable {B P : Type} [DecidableEq P] (dev : LogDev B)

namespace BioState

/-- A buffer of the process is inside `bread` or `brelse`, so the process does nothing else. -/
def busy (s : BioState B P) (p : P) : Bool := s.holds.any fun h => h.proc = p && !h.pc.isReady

/-- The buffer that `bread` has returned to the process for the block. -/
def ready? (s : BioState B P) (p : P) (b : Nat) : Option (Hold P) :=
  s.holds.find? fun h => h.proc = p && h.blockno = b && h.pc.isReady

/-- The process has changed a buffer that it has neither logged nor written. -/
def dirty (s : BioState B P) (p : P) : Bool := s.holds.any fun h => h.proc = p && h.pc = .ready true

/-- The process gets to `pc`. -/
def goto (s : BioState B P) (p : P) (pc : OpPc) : BioState B P := { s with pc := Function.update s.pc p pc }

/-- A hold gets to `pc`. -/
def move (s : BioState B P) (h : Hold P) (pc : HoldPc) : BioState B P :=
  { s with holds := { h with pc := pc } :: s.holds.erase h }

/-- `wakeup(&log)`. -/
def wakeup (s : BioState B P) : BioState B P :=
  { s with pc := fun p => if s.pc p = .asleep then .waiting else s.pc p }

/-- A turn of the loop of `begin_op`. -/
def beginOp (s : BioState B P) (p : P) : BioState B P :=
  if s.committing then s.goto p .asleep
  else if s.lh.length + (s.outstanding + 1) * MAXOPBLOCKS > LOGBLOCKS then s.goto p .asleep
  else { s.goto p .op with outstanding := s.outstanding + 1 }

/-- The first critical section of `end_op`. -/
def endOp (s : BioState B P) (p : P) : BioState B P :=
  let s := { s with outstanding := s.outstanding - 1 }
  if s.committing then { s with panicked := some (.log .committing) }
  else if s.outstanding = 0 then { s.goto p .doCommit with committing := true }
  else s.wakeup.goto p .out

/-- The last critical section of `end_op`. -/
def finish (s : BioState B P) (p : P) : BioState B P := { s.wakeup.goto p .out with committing := false }

/-- The critical section of `bget`. -/
def bget (s : BioState B P) (p : P) (b : Nat) : BioState B P :=
  match s.cache.bget ROOTDEV b with
  | some (i, c) => { s with cache := c, holds := ⟨p, i, b, .waiting⟩ :: s.holds }
  | none => { s with panicked := some .bget }

/-- A buffer gets on: `acquiresleep` gets its lock, `bread` returns it, `brelse` gives it back. -/
def go (s : BioState B P) (h : Hold P) : Option (BioState B P) :=
  match h.pc with
  | .waiting =>
    if s.cache.lock h.buf = none then some { s.move h .locked with cache := s.cache.setLock h.buf (some h.proc) }
    else none
  | .locked =>
    let x := s.cache.buf h.buf
    let x := { x with data := if x.valid then x.data else s.disk h.blockno, valid := true }
    some { s.move h (.ready false) with cache := s.cache.setBuf h.buf x }
  | .ready _ => none
  | .released => some { s with cache := s.cache.put h.buf, holds := s.holds.erase h }

/-- A process changes the data of a buffer. -/
def setData (s : BioState B P) (h : Hold P) (v : B) : BioState B P :=
  { s.move h (.ready true) with cache := s.cache.setBuf h.buf { s.cache.buf h.buf with data := v } }

/-- `bwrite`. -/
def bwrite (s : BioState B P) (h : Hold P) : BioState B P :=
  if s.cache.lock h.buf = some h.proc then
    { s.move h (.ready false) with
      disk := Function.update s.disk h.blockno (s.cache.buf h.buf).data
      last := Function.update s.last h.blockno (s.cache.buf h.buf).data }
  else { s with panicked := some .bwrite }

/-- `brelse` up to the release of the sleep lock. -/
def release (s : BioState B P) (h : Hold P) : BioState B P :=
  if s.cache.lock h.buf = some h.proc then { s.move h .released with cache := s.cache.setLock h.buf none }
  else { s with panicked := some .brelse }

/-- `log_write`. -/
def logWrite (s : BioState B P) (h : Hold P) : BioState B P :=
  if s.lh.length ≥ LOGBLOCKS then { s with panicked := some (.log .tooBig) }
  else if s.outstanding < 1 then { s with panicked := some (.log .outside) }
  else
    let s := { s with last := Function.update s.last h.blockno (s.cache.buf h.buf).data }
    if h.blockno ∈ s.lh then s.move h (.ready false)
    else { s.move h (.ready false) with cache := s.cache.bpin h.buf, lh := s.lh ++ [h.blockno] }

/-- A call of `commit`, once the buffers it works on have been read. -/
def exec (s : BioState B P) (p : P) : CommitCall → Option (BioState B P)
  | .bread b => some (s.bget p b)
  | .memmove dst src =>
    (s.ready? p dst).bind fun h => (s.ready? p src).map fun h' => s.setData h (s.cache.buf h'.buf).data
  | .setHead => (s.ready? p dev.start).map fun h => s.setData h (dev.setHead (s.cache.buf h.buf).data s.lh)
  | .bwrite b => (s.ready? p b).map s.bwrite
  | .bunpin b => (s.ready? p b).map fun h => { s with cache := s.cache.bunpin h.buf }
  | .brelse b => (s.ready? p b).map s.release
  | .clear => some { s with lh := [] }
  | .skip => some s

end BioState

/-- One step. -/
def bioStep (s : BioState B P) (a : BioAct B P) : Option (BioState B P) :=
  if s.panicked.isSome then none
  else
    match a with
    | .beginOp p =>
      if s.busy p = false ∧ (s.pc p = .out ∨ s.pc p = .waiting) then some (s.beginOp p) else none
    | .endOp p => if s.busy p = false ∧ s.dirty p = false ∧ s.pc p = .op then some (s.endOp p) else none
    | .wake => some s.wakeup
    | .bread p b => if s.busy p = false ∧ (s.pc p = .out ∨ s.pc p = .op) then some (s.bget p b) else none
    | .go h => if h ∈ s.holds then s.go h else none
    | .modify p b v =>
      if s.busy p = false ∧ s.pc p = .op then (s.ready? p b).map fun h => s.setData h v else none
    | .logWrite p b => if s.busy p = false ∧ s.pc p = .op then (s.ready? p b).map s.logWrite else none
    | .brelse p b =>
      if s.busy p = false ∧ (s.pc p = .out ∨ s.pc p = .op) then
        ((s.ready? p b).filter fun h => h.pc = .ready false).map s.release
      else none
    | .run p =>
      if s.busy p then none
      else
        match s.pc p with
        | .doCommit => some { s.goto p .inCommit with cpc := if s.lh.length > 0 then .writeLog 0 else .idle }
        | .inCommit =>
          if s.cpc = .idle then some (s.finish p)
          else (s.exec dev p (commitCode dev s.lh s.cpc).1).map fun t => { t with cpc := (commitCode dev s.lh s.cpc).2 }
        | _ => none

/-- A disk at boot, with nothing cached. -/
def BioState.init (data : B) (disk : Nat → B) : BioState B P where
  cache := .binit data
  disk := disk
  lh := []
  outstanding := 0
  committing := false
  pc _ := .out
  cpc := .idle
  holds := []
  panicked := none
  last := disk

/-- The states reached by steps that satisfy a condition on the state before and the step. -/
inductive BioReachable (C : BioState B P → BioAct B P → Prop) : BioState B P → Prop
  | init (data : B) (disk : Nat → B) : BioReachable C (.init data disk)
  | step {s s' : BioState B P} (a : BioAct B P) (h : BioReachable C s) (hc : C s a) (hs : bioStep dev s a = some s') :
      BioReachable C s'

/-! ## The operations that the machine performs -/

/-- The panic of `log.c`. -/
def BioPanic.log? : BioPanic → Option LogPanic
  | .log e => some e
  | _ => none

/-- How far `commit` is, counted in its writes to the disk. -/
def CommitPc.abs : CommitPc → LogPc
  | .idle => .idle
  | .writeLog tail | .logFrom tail | .logCopy tail | .logWrite tail => .writeLog tail
  | .logRelFrom tail | .logRelTo tail => .writeLog (tail + 1)
  | .head false | .headFill false | .headWrite false => .writeHead
  | .headRel false => .install 0
  | .install tail | .instDst tail | .instCopy tail | .instWrite tail => .install tail
  | .instUnpin tail | .instRelLog tail | .instRelDst tail => .install (tail + 1)
  | .head true | .headFill true | .headWrite true => .clearHead
  | .headRel true => .idle

/-- The operations: the log with the contents last given to the blocks. -/
def BioState.abs (s : BioState B P) : OpsState B P where
  log := ⟨s.disk, s.last, s.lh, s.cpc.abs⟩
  outstanding := s.outstanding
  committing := s.committing
  pc := s.pc
  panicked := s.panicked.bind BioPanic.log?

/-- The number of blocks of the transaction that `install_trans` has installed and unpinned. -/
def CommitPc.installed : CommitPc → Nat
  | .install tail | .instDst tail | .instCopy tail | .instWrite tail | .instUnpin tail => tail
  | .instRelLog tail | .instRelDst tail => tail + 1
  | _ => 0

/-- The blocks that the current transaction has logged and not yet installed. -/
def BioState.pinned (s : BioState B P) : List Nat := s.lh.drop s.cpc.installed

end Steps

end Xv6
