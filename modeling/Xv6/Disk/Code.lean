import Xv6.Disk.Layout
import Xv6.Log.Ops

/-!
# `fs.c` on the bytes of a disk

The functions of `fs.c`, with the parts of `log.c` and `vm.c` that they rest on, as functions on the state of a kernel: the
disk, the cached blocks (what `bread` returns), the header of the log, and the inode table. There is one device, and its
superblock is the parameter `sb`. A call runs to its end before the next one starts; what would wait for another process
fails, as a `panic` does, with a text.

`bmap` and `readi` have the allocator as a parameter, which is `balloc` in the kernel.
-/

namespace Xv6.Disk

open Lib

/-- Size of the inode table. -/
abbrev NINODE : Nat := 50

/-- `struct inode`. -/
structure Inode extends Dinode where
  inum : Nat
  ref : Nat
  valid : Bool
  locked : Bool

/-- The kernel; `lh` are the block numbers in the header of the log. -/
structure State where
  disk : Blocks
  mem : Blocks
  lh : List Nat
  outstanding : Nat
  itable : Fin NINODE → Inode

abbrev FsM := StateT State (Except String)

def panic {α : Type} (msg : String) : FsM α := throw msg

/-! ## Buffers and the log -/

/-- The contents of a buffer change. -/
def State.setBuf (s : State) (b : Nat) (v : Bytes) : State := { s with mem := Function.update s.mem b v }

def bread (b : Nat) : FsM Bytes := return (← get).mem b

def setBuf (b : Nat) (v : Bytes) : FsM Unit := modify (·.setBuf b v)

/-- `bwrite` of a buffer with the contents `v`. -/
def bwrite (b : Nat) (v : Bytes) : FsM Unit :=
  modify fun s => { s with mem := Function.update s.mem b v, disk := Function.update s.disk b v }

/-- The block is in the header. -/
def State.logged (s : State) (b : Nat) : State := { s with lh := if b ∈ s.lh then s.lh else s.lh ++ [b] }

def logWrite (b : Nat) : FsM Unit := do
  let s ← get
  if s.lh.length ≥ LOGBLOCKS then panic "too big a transaction"
  else if s.outstanding < 1 then panic "log_write outside of trans"
  else set (s.logged b)

/-- A header with the block numbers `lh`, in a block that holds `b`. -/
def putHead (b : Bytes) (lh : List Nat) : Bytes :=
  lh.zipIdx.foldl (fun b x => put32 b (4 + 4 * x.2) (.ofNat 32 x.1)) (put32 b 0 (.ofNat 32 lh.length))

section Log

variable (sb : Superblock)

def writeHead : FsM Unit := do
  let s ← get
  bwrite sb.logstart (putHead (s.mem sb.logstart) s.lh)

/-- `read_head()`; a longer header would run over the end of `log.lh.block`. -/
def readHead : FsM Unit := do
  let b ← bread sb.logstart
  let n := (get32 b 0).toInt
  if n > LOGBLOCKS then throw "read_head"
  else modify fun s => { s with lh := (List.range n.toNat).map fun i => (get32 b (4 + 4 * i)).toNat }

def installTrans : FsM Unit := do
  (← get).lh.zipIdx.forM fun x => do
    let v ← bread (sb.logstart + x.2 + 1)
    bwrite x.1 v

def writeLog : FsM Unit := do
  (← get).lh.zipIdx.forM fun x => do
    let v ← bread x.1
    bwrite (sb.logstart + x.2 + 1) v

def clearHead : FsM Unit := do
  modify fun s => { s with lh := [] }
  writeHead sb

def commit : FsM Unit := do
  if (← get).lh.length > 0 then
    writeLog sb
    writeHead sb
    installTrans sb
    clearHead sb

def recoverFromLog : FsM Unit := do
  readHead sb
  installTrans sb
  clearHead sb

def beginOp : FsM Unit := do
  let s ← get
  if s.lh.length + (s.outstanding + 1) * MAXOPBLOCKS > LOGBLOCKS then throw "begin_op sleeps"
  else set { s with outstanding := s.outstanding + 1 }

def endOp : FsM Unit := do
  modify fun s => { s with outstanding := s.outstanding - 1 }
  if (← get).outstanding = 0 then commit sb

end Log

/-! ## User memory -/

/-- `copyin` to offset `o` of `dst`: `page` is what `walkaddr`, or else `vmfault`, finds at a page of the process. The loop ends
after at most `len` turns. -/
def copyin (page : Nat → Option Bytes) : Nat → Bytes → Nat → Nat → Nat → Bytes × Bool
  | 0, dst, _, _, len => (dst, len == 0)
  | fuel + 1, dst, o, va, len =>
    if len = 0 then (dst, true)
    else
      match page (va / 4096) with
      | none => (dst, false)
      | some p =>
        let n := min (4096 - va % 4096) len
        copyin page fuel (splice dst o n fun j => p (va % 4096 + j)) (o + n) (va + n) (len - n)

/-- `copyout`: how many bytes are copied, where `page` says which pages the process may write. -/
def copyout (page : Nat → Bool) : Nat → Nat → Nat → Nat × Bool
  | 0, _, len => (0, len == 0)
  | fuel + 1, va, len =>
    if len = 0 then (0, true)
    else if page (va / 4096) then
      let n := min (4096 - va % 4096) len
      let r := copyout page fuel (va + n) (len - n)
      (n + r.1, r.2)
    else (0, false)

/-- Where `writei` gets its bytes from. -/
inductive Source
  | kernel (p : Bytes)
  | user (page : Nat → Option Bytes) (va : Nat)

def Source.advance (m : Nat) : Source → Source
  | .kernel p => .kernel fun j => p (m + j)
  | .user page va => .user page (va + m)

def eitherCopyin (dst : Bytes) (o : Nat) (src : Source) (len : Nat) : Bytes × Bool :=
  match src with
  | .kernel p => (splice dst o len p, true)
  | .user page va => copyin page len dst o va len

/-- Where `readi` puts its bytes. -/
inductive Dest
  | kernel
  | user (page : Nat → Bool) (va : Nat)

def Dest.advance (m : Nat) : Dest → Dest
  | .kernel => .kernel
  | .user page va => .user page (va + m)

/-- `either_copyout` from offset `o` of `src`, with the bytes that are copied. -/
def eitherCopyout (dst : Dest) (src : Bytes) (o len : Nat) : List Byte × Bool :=
  match dst with
  | .kernel => ((List.range len).map fun j => src (o + j), true)
  | .user page va =>
    let r := copyout page len va len
    ((List.range r.1).map fun j => src (o + j), r.2)

/-! ## Blocks -/

section Fs

variable (sb : Superblock)

def bzero (bno : Nat) : FsM Unit := do
  setBuf bno fun _ => 0
  logWrite bno

/-- The bitmap block of `b`, in `balloc`. -/
def ballocIn (b : Nat) : FsM (Option (BitVec 32)) := do
  let bp ← bread (sb.bblock b)
  match (List.range (min 8192 (sb.size - b))).find? fun bi => bp (bi / 8) &&& mask bi = 0 with
  | none => return none
  | some bi =>
    setBuf (sb.bblock b) (setBit bp bi)
    logWrite (sb.bblock b)
    bzero (b + bi)
    return some (.ofNat 32 (b + bi))

def balloc : FsM (BitVec 32) := do
  let r ← ((List.range ((sb.size + 8191) / 8192)).map (· * 8192)).findSomeM? (ballocIn sb)
  return r.getD 0

def bfree (b : Nat) : FsM Unit := do
  let bp ← bread (sb.bblock b)
  let bi := b % 8192
  if bp (bi / 8) &&& mask bi = 0 then panic "freeing free block"
  else
    setBuf (sb.bblock b) (clearBit bp bi)
    logWrite (sb.bblock b)

/-! ## Inodes -/

/-- The fields of an entry of the inode table change. -/
def State.setInode (s : State) (ip : Fin NINODE) (f : Inode → Inode) : State :=
  { s with itable := Function.update s.itable ip (f (s.itable ip)) }

def setInode (ip : Fin NINODE) (f : Inode → Inode) : FsM Unit := modify (·.setInode ip f)

def iupdate (ip : Fin NINODE) : FsM Unit := do
  let i := (← get).itable ip
  let bp ← bread (sb.iblock i.inum)
  setBuf (sb.iblock i.inum) (putDinode bp (i.inum % 16 * 64) i.toDinode)
  logWrite (sb.iblock i.inum)

def iget (inum : Nat) : FsM (Fin NINODE) := do
  let s ← get
  match (List.finRange NINODE).find? fun ip => (s.itable ip).ref > 0 ∧ (s.itable ip).inum = inum with
  | some ip =>
    setInode ip fun i => { i with ref := i.ref + 1 }
    return ip
  | none =>
    match (List.finRange NINODE).find? fun ip => (s.itable ip).ref = 0 with
    | none => panic "iget: no inodes"
    | some ip =>
      setInode ip fun i => { i with inum := inum, ref := 1, valid := false }
      return ip

/-- One turn of the loop of `ialloc`. -/
def iallocAt (type : BitVec 16) (inum : Nat) : FsM (Option (Fin NINODE)) := do
  let bp ← bread (sb.iblock inum)
  if (getDinode bp (inum % 16 * 64)).type = 0 then
    setBuf (sb.iblock inum) (putDinode bp (inum % 16 * 64) { Dinode.zero with type := type })
    logWrite (sb.iblock inum)
    return some (← iget inum)
  else return none

def ialloc (type : BitVec 16) : FsM (Option (Fin NINODE)) :=
  ((List.range sb.ninodes).drop 1).findSomeM? (iallocAt sb type)

def idup (ip : Fin NINODE) : FsM Unit := setInode ip fun i => { i with ref := i.ref + 1 }

def ilock (ip : Fin NINODE) : FsM Unit := do
  let i := (← get).itable ip
  if i.ref < 1 then panic "ilock"
  else if i.locked then throw "acquiresleep sleeps"
  else
    setInode ip fun i => { i with locked := true }
    if !i.valid then
      let bp ← bread (sb.iblock i.inum)
      let d := getDinode bp (i.inum % 16 * 64)
      setInode ip fun i => { i with toDinode := d, valid := true }
      if d.type = 0 then panic "ilock: no type"

def iunlock (ip : Fin NINODE) : FsM Unit := do
  let i := (← get).itable ip
  if !i.locked || i.ref < 1 then panic "iunlock"
  else setInode ip fun i => { i with locked := false }

/-- The address in `ip->addrs[k]`, with a block allocated if there is none. -/
def addrAt (alloc : FsM (BitVec 32)) (ip : Fin NINODE) (k : Fin 13) : FsM (BitVec 32) := do
  let a := ((← get).itable ip).addrs k
  if a = 0 then
    let a ← alloc
    if a ≠ 0 then
      setInode ip fun i => { i with addrs := Function.update i.addrs k a }
    return a
  else return a

/-- `bmap`, for a block in the indirect block `ind`. -/
def bmapEntry (alloc : FsM (BitVec 32)) (ind : Nat) (j : Nat) : FsM (BitVec 32) := do
  let a := get32 (← bread ind) (4 * j)
  if a = 0 then
    let a ← alloc
    if a ≠ 0 then
      setBuf ind (put32 (← bread ind) (4 * j) a)
      logWrite ind
    return a
  else return a

/-- The address of block `bn` of a file; 0 if the disk is full. -/
def bmap (alloc : FsM (BitVec 32)) (ip : Fin NINODE) (bn : Nat) : FsM (BitVec 32) :=
  if h : bn < 12 then addrAt alloc ip ⟨bn, by omega⟩
  else if bn - 12 < 256 then do
    let ind ← addrAt alloc ip 12
    if ind = 0 then return 0
    else bmapEntry alloc ind.toNat (bn - 12)
  else panic "bmap: out of range"

def itrunc (ip : Fin NINODE) : FsM Unit := do
  (List.finRange 12).forM fun k => do
    let a := ((← get).itable ip).addrs k.castSucc
    if a ≠ 0 then
      bfree sb a.toNat
      setInode ip fun i => { i with addrs := Function.update i.addrs k.castSucc 0 }
  let ind := ((← get).itable ip).addrs 12
  if ind ≠ 0 then
    let bp ← bread ind.toNat
    (List.finRange 256).forM fun j => do
      let a := get32 bp (4 * j)
      if a ≠ 0 then bfree sb a.toNat
    bfree sb ind.toNat
    setInode ip fun i => { i with addrs := Function.update i.addrs 12 0 }
  setInode ip fun i => { i with size := 0 }
  iupdate sb ip

def iput (ip : Fin NINODE) : FsM Unit := do
  let i := (← get).itable ip
  if i.ref = 1 ∧ i.valid ∧ i.nlink = 0 then
    if i.locked then throw "acquiresleep sleeps"
    else
      itrunc sb ip
      setInode ip fun i => { i with type := 0 }
      iupdate sb ip
      setInode ip fun i => { i with valid := false }
  setInode ip fun i => { i with ref := i.ref - 1 }

def iunlockput (ip : Fin NINODE) : FsM Unit := do
  iunlock ip
  iput sb ip

/-- One turn of the loop of `ireclaim`. -/
def ireclaimAt (inum : Nat) : FsM Unit := do
  let bp ← bread (sb.iblock inum)
  let d := getDinode bp (inum % 16 * 64)
  if d.type ≠ 0 ∧ d.nlink = 0 then
    let ip ← iget inum
    beginOp
    ilock sb ip
    iunlock ip
    iput sb ip
    endOp sb

def ireclaim : FsM Unit := ((List.range sb.ninodes).drop 1).forM (ireclaimAt sb)

/-! ## The contents of inodes -/

/-- The loop of `readi`, with `left` bytes to read and the bytes `out` that are copied already. -/
def readLoop (alloc : FsM (BitVec 32)) (ip : Fin NINODE) :
    Nat → Dest → Nat → Nat → Nat → List Byte → FsM (Int × List Byte)
  | 0, _, _, _, tot, out => return (tot, out)
  | fuel + 1, dst, off, left, tot, out =>
    if left = 0 then return (tot, out)
    else do
      let a ← bmap alloc ip (off / 1024)
      if a = 0 then return (tot, out)
      else
        let bp ← bread a.toNat
        let m := min left (1024 - off % 1024)
        let r := eitherCopyout dst bp (off % 1024) m
        if r.2 then readLoop alloc ip fuel (dst.advance m) (off + m) (left - m) (tot + m) (out ++ r.1)
        else return (-1, out ++ r.1)

/-- `readi`, with the bytes that it copies to `dst`. -/
def readi (alloc : FsM (BitVec 32)) (ip : Fin NINODE) (dst : Dest) (off n : BitVec 32) : FsM (Int × List Byte) := do
  let size := ((← get).itable ip).size
  if off > size ∨ off + n < off then return (0, [])
  else
    let n := if off + n > size then size - off else n
    readLoop alloc ip n.toNat dst off.toNat n.toNat 0 []

/-- The loop of `writei`, with `left` bytes to write; it returns how far it gets. -/
def writeLoop (ip : Fin NINODE) : Nat → Source → Nat → Nat → FsM Nat
  | 0, _, off, _ => return off
  | fuel + 1, src, off, left =>
    if left = 0 then return off
    else do
      let a ← bmap (balloc sb) ip (off / 1024)
      if a = 0 then return off
      else
        let bp ← bread a.toNat
        let m := min left (1024 - off % 1024)
        let r := eitherCopyin bp (off % 1024) src m
        setBuf a.toNat r.1
        if r.2 then
          logWrite a.toNat
          writeLoop ip fuel (src.advance m) (off + m) (left - m)
        else return off

def writei (ip : Fin NINODE) (src : Source) (off n : BitVec 32) : FsM Int := do
  let size := ((← get).itable ip).size
  if off > size ∨ off + n < off then return -1
  else if (off + n).toNat > 268 * 1024 then return -1
  else
    let off' ← writeLoop sb ip n.toNat src off.toNat n.toNat
    if off' > size.toNat then
      setInode ip fun i => { i with size := .ofNat 32 off' }
    iupdate sb ip
    return off' - off.toNat

end Fs

end Xv6.Disk
