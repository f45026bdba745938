import Xv6.Lib.Runs
import Xv6.Lib.Window
import Xv6.Lib.Index

/-!
# The disk driver and its device

`virtio_disk_rw` and `virtio_disk_intr` of `virtio_disk.c`, for any processes `P` and buffers `B`, together with the device.
The device runs at any time, also while the driver holds `vdisk_lock`: it takes the heads of descriptor chains out of the
avail ring, and completes the chains it has taken in any order, each with status 0.

A step of the driver ends where another process may run or the device can see a difference: when `vdisk_lock` is taken or
released, before `disk.avail->idx` is incremented, and after each turn of the loop in `virtio_disk_intr`. A process calls
`virtio_disk_rw` with the sleep-lock of its buffer held, so no two processes are inside with the same buffer. What is written
to the disk, and where, is left out.
-/

namespace Xv6.Virtio

open Lib (slot window)

/-- The number of descriptors. -/
abbrev NUM : Nat := 8

abbrev VRING_DESC_F_NEXT : BitVec 16 := 1
abbrev VRING_DESC_F_WRITE : BitVec 16 := 2

variable {P B : Type}

/-- The addresses that descriptors hold: `&disk.ops[i]`, `b->data`, `&disk.info[i].status`. -/
inductive Addr (B : Type)
  | null
  | op (i : Fin NUM)
  | data (b : B)
  | status (i : Fin NUM)

/-- `struct virtq_desc`, without the length. -/
structure Desc (B : Type) where
  addr : Addr B
  flags : BitVec 16
  next : Nat

/-- An element of `disk.info`. -/
structure Info (B : Type) where
  b : Option B
  status : BitVec 8

/-- `struct disk`, without its lock. -/
structure Disk (B : Type) where
  desc : Fin NUM → Desc B
  free : Fin NUM → Bool
  info : Fin NUM → Info B
  /-- `disk.avail->idx` and `disk.avail->ring`. -/
  availIdx : BitVec 16
  availRing : Fin NUM → Nat
  /-- `disk.used->idx` and `disk.used->ring`, written by the device. -/
  usedIdx : BitVec 16
  usedRing : Fin NUM → Nat
  /-- `disk.used_idx`: how far the driver has looked at the used ring. -/
  seen : BitVec 16

namespace Disk

/-- `alloc_desc()`. -/
def allocDesc (d : Disk B) : Option (Fin NUM × Disk B) :=
  match (List.finRange NUM).find? d.free with
  | none => none
  | some i => some (i, { d with free := Function.update d.free i false })

/-- `free_desc(i)`, without the wakeup. -/
def freeDesc (d : Disk B) (i : Nat) : Except String (Disk B) :=
  if h : i < NUM then
    if d.free ⟨i, h⟩ then .error "free_desc 2"
    else .ok { d with
      desc := Function.update d.desc ⟨i, h⟩ ⟨.null, 0, 0⟩, free := Function.update d.free ⟨i, h⟩ true }
  else .error "free_desc 1"

/-- `free_chain(i)`, in at most `n` turns. -/
def freeChain : Nat → Disk B → Nat → Except String (Disk B)
  | 0, _, _ => .error "free_chain"
  | n + 1, d, i => do
    let desc := if h : i < NUM then d.desc ⟨i, h⟩ else ⟨.null, 0, 0⟩
    let d ← d.freeDesc i
    if desc.flags &&& VRING_DESC_F_NEXT ≠ 0 then freeChain n d desc.next else return d

/-- `alloc3_desc(idx)`. -/
def alloc3Desc (d : Disk B) : Except String (Option (Fin NUM × Fin NUM × Fin NUM) × Disk B) :=
  match d.allocDesc with
  | none => .ok (none, d)
  | some (i, d) =>
    match d.allocDesc with
    | none => do return (none, ← d.freeDesc i)
    | some (j, d) =>
      match d.allocDesc with
      | none => do return (none, ← (← d.freeDesc i).freeDesc j)
      | some (k, d) => .ok (some (i, j, k), d)

/-- The descriptors are formatted, and the head of the chain is put into the avail ring. -/
def format (d : Disk B) (b : B) (write : Bool) (i j k : Fin NUM) : Disk B :=
  let data : BitVec 16 := if write then 0 else VRING_DESC_F_WRITE
  { d with
    desc := Function.update (Function.update (Function.update d.desc i ⟨.op i, VRING_DESC_F_NEXT, j⟩)
      j ⟨.data b, data ||| VRING_DESC_F_NEXT, k⟩) k ⟨.status i, VRING_DESC_F_WRITE, 0⟩
    info := Function.update d.info i ⟨some b, 0xff⟩
    availRing := Function.update d.availRing (slot NUM d.availIdx) i }

/-- The descriptor after a descriptor in a chain. -/
def follow (d : Disk B) (x : Desc B) : Desc B :=
  if h : x.next < NUM then d.desc ⟨x.next, h⟩ else ⟨.null, 0, 0⟩

/-- The device completes the chain with the given head: it stores the status to the address in the last descriptor, and
puts the head into the used ring. -/
def complete (d : Disk B) (i : Fin NUM) : Disk B :=
  let info :=
    match (d.follow (d.follow (d.desc i))).addr with
    | .status l => Function.update d.info l { d.info l with status := 0 }
    | _ => d.info
  { d with info := info, usedRing := Function.update d.usedRing (slot NUM d.usedIdx) i, usedIdx := d.usedIdx + 1 }

end Disk

/-- Where a process is inside `virtio_disk_rw(b, write)`. -/
inductive Phase (B : Type)
  /-- Before `acquire(&disk.vdisk_lock)`, for the first time or after the process was woken. -/
  | enter (b : B) (write : Bool)
  | alloc (b : B) (write : Bool)
  /-- Asleep on `&disk.free[0]`. -/
  | asleepFree (b : B) (write : Bool)
  /-- Before `disk.avail->idx += 1`. -/
  | post (b : B) (i j k : Fin NUM)
  /-- Before the test of `b->disk`. -/
  | check (b : B) (i j k : Fin NUM)
  /-- Asleep on `b`. -/
  | asleepBuf (b : B) (i j k : Fin NUM)
  /-- Woken, and before it has `vdisk_lock` again. -/
  | woken (b : B) (i j k : Fin NUM)
  /-- Before `release(&disk.vdisk_lock)`. -/
  | leave (b : B)

/-- Who holds `vdisk_lock`. -/
inductive Holder (P : Type)
  | proc (p : P)
  | intr
  deriving DecidableEq

structure State (P B : Type) where
  disk : Disk B
  /-- `b->disk`. -/
  bdisk : B → Bool
  phase : P → Option (Phase B)
  lock : Option (Holder P)
  /-- How far the device has looked at the avail ring, and the heads it has taken and not completed. -/
  taken : BitVec 16
  pending : List (Fin NUM)
  panicked : Option String

/-- The buffer that a process inside `virtio_disk_rw` works on. -/
def Phase.buf : Phase B → B
  | .enter b _ | .alloc b _ | .asleepFree b _ | .post b _ _ _ | .check b _ _ _ | .asleepBuf b _ _ _ | .woken b _ _ _
  | .leave b => b

/-- What a process becomes by `wakeup(&disk.free[0])`. -/
def Phase.wakeFree : Phase B → Phase B
  | .asleepFree b write => .enter b write
  | x => x

/-- What a process becomes by `wakeup(b)`. -/
def Phase.wakeBuf [DecidableEq B] (b : B) : Phase B → Phase B
  | .asleepBuf b' i j k => if b' = b then .woken b' i j k else .asleepBuf b' i j k
  | x => x

namespace State

variable [DecidableEq P] [DecidableEq B]

def panic (s : State P B) (msg : String) : State P B := { s with panicked := some msg }

def setPhase (s : State P B) (p : P) (x : Option (Phase B)) : State P B :=
  { s with phase := Function.update s.phase p x }

/-- `wakeup(&disk.free[0])`. -/
def wakeFree (s : State P B) : State P B := { s with phase := fun q => (s.phase q).map Phase.wakeFree }

/-- `wakeup(b)`. -/
def wakeBuf (s : State P B) (b : B) : State P B := { s with phase := fun q => (s.phase q).map (Phase.wakeBuf b) }

/-- `alloc3_desc(idx)`; if it fails, `sleep(&disk.free[0], &disk.vdisk_lock)`, and otherwise the request is written. -/
def alloc (s : State P B) (p : P) (b : B) (write : Bool) : State P B :=
  match s.disk.alloc3Desc with
  | .error e => s.panic e
  | .ok (none, disk) => { ({ s with disk := disk }.wakeFree).setPhase p (some (.asleepFree b write)) with lock := none }
  | .ok (some (i, j, k), disk) =>
    { s with disk := disk.format b write i j k, bdisk := Function.update s.bdisk b true }.setPhase p
      (some (.post b i j k))

/-- `while(b->disk == 1) sleep(b, &disk.vdisk_lock)`, and what comes after it. -/
def check (s : State P B) (p : P) (b : B) (i j k : Fin NUM) : State P B :=
  if s.bdisk b then { s.setPhase p (some (.asleepBuf b i j k)) with lock := none }
  else
    let disk := { s.disk with info := Function.update s.disk.info i { s.disk.info i with b := none } }
    match disk.freeChain (NUM + 1) i with
    | .error e => s.panic e
    | .ok disk => ({ s with disk := disk }.wakeFree).setPhase p (some (.leave b))

/-- One turn of the loop in `virtio_disk_intr`. -/
def intr (s : State P B) : State P B :=
  if s.disk.seen ≠ s.disk.usedIdx then
    let id := s.disk.usedRing (slot NUM s.disk.seen)
    if h : id < NUM then
      if (s.disk.info ⟨id, h⟩).status ≠ 0 then s.panic "virtio_disk_intr status"
      else
        match (s.disk.info ⟨id, h⟩).b with
        | none => s.panic "null pointer"
        | some b =>
          { s with bdisk := Function.update s.bdisk b false, disk := { s.disk with seen := s.disk.seen + 1 } }.wakeBuf b
    else s.panic "bad index"
  else { s with lock := none }

end State

/-- What happens next: a process calls `virtio_disk_rw`, a process inside it takes a step, the interrupt handler starts or
takes a step, the device takes a head out of the avail ring or completes the `n`-th chain it has taken, or a process
is woken for no reason. -/
inductive Act (P B : Type)
  | call (p : P) (b : B) (write : Bool)
  | run (p : P)
  | intr
  | take
  | complete (n : Nat)
  | wake (p : P)

variable [DecidableEq P] [DecidableEq B]

/-- A step of process `p` at a point of `virtio_disk_rw`. -/
def Phase.step (s : State P B) (p : P) : Phase B → Option (State P B)
  | .enter b write =>
    if s.lock.isSome then none else some { s.setPhase p (some (.alloc b write)) with lock := some (.proc p) }
  | .alloc b write => some (s.alloc p b write)
  | .post b i j k =>
    some ({ s with disk := { s.disk with availIdx := s.disk.availIdx + 1 } }.setPhase p (some (.check b i j k)))
  | .check b i j k => some (s.check p b i j k)
  | .woken b i j k =>
    if s.lock.isSome then none else some { s.setPhase p (some (.check b i j k)) with lock := some (.proc p) }
  | .leave _ => some { s.setPhase p none with lock := none }
  | .asleepFree _ _ | .asleepBuf _ _ _ _ => none

/-- One step; a process that is asleep or waits for the lock does not run, and nothing runs after a panic. -/
def step (s : State P B) (a : Act P B) : Option (State P B) :=
  if s.panicked.isSome then none
  else
    match a with
    | .call p b write => if (s.phase p).isSome then none else some (s.setPhase p (some (.enter b write)))
    | .run p => (s.phase p).bind (Phase.step s p)
    | .intr =>
      match s.lock with
      | none => some { s with lock := some .intr }
      | some .intr => some s.intr
      | some (.proc _) => none
    | .take =>
      if s.taken = s.disk.availIdx then none
      else
        let i := s.disk.availRing (slot NUM s.taken)
        if h : i < NUM then some { s with taken := s.taken + 1, pending := s.pending ++ [⟨i, h⟩] } else none
    | .complete n =>
      (s.pending[n]?).map fun i => { s with disk := s.disk.complete i, pending := s.pending.eraseIdx n }
    | .wake p => some { s with phase := Function.update s.phase p ((s.phase p).map fun x => (x.wakeBuf x.buf).wakeFree) }

/-- The state after `virtio_disk_init`. -/
def State.init : State P B where
  disk :=
    { desc := fun _ => ⟨.null, 0, 0⟩, free := fun _ => true, info := fun _ => ⟨none, 0⟩
      availIdx := 0, availRing := fun _ => 0, usedIdx := 0, usedRing := fun _ => 0, seen := 0 }
  bdisk _ := false
  phase _ := none
  lock := none
  taken := 0
  pending := []
  panicked := none

/-- A process that calls `virtio_disk_rw` holds the lock of the buffer: nobody else is inside with it. -/
def Act.Locked (s : State P B) : Act P B → Prop
  | .call _ b _ => ∀ q x, s.phase q = some x → x.buf ≠ b
  | _ => True

/-- The states that can be reached. -/
def Reachable (s : State P B) : Prop := Lib.Runs step (fun s a => a.Locked s) State.init s

end Xv6.Virtio
