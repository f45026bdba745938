import Xv6.Fs.Model

/-!
# The functions of `fs.c` and the system calls of `sysfile.c`

The programs that a process runs, over the steps of `Xv6.Fs.Model`: path lookup, `create`, and the calls that change
the name space or the references to inodes. A call returns -1 as `none` or `false`. `FsReachable` are the
configurations of the machine in which every process calls any of them, one after another.
-/

namespace Xv6.Fs

open Lib (Prog Machine)

variable {P : Type}

/-- Make a step. -/
def FsProg.step (c : FsCmd P) : FsProg P c.R := Prog.call c

export FsProg (step)

/-! ## Inodes -/

/-- Drop a reference to an inode, and free it if that was the last one and it has no links. -/
def iput (ip : Fin NINODE) : FsProg P Unit := do
  if ← step (.iputTest ip) then
    step (.ifree ip)
    step (.iputDrop ip)

def iunlockput (ip : Fin NINODE) : FsProg P Unit := do
  step (.iunlock ip)
  iput ip

/-- The loop of `ialloc`. -/
def iallocLoop (type : InodeType) : List Nat → FsProg P (Option (Fin NINODE))
  | [] => return none
  | inum :: rest => do
    if ← step (.ialloc inum type) then
      return some (← step (.iget inum))
    else iallocLoop type rest

def ialloc (type : InodeType) : FsProg P (Option (Fin NINODE)) := iallocLoop type ((List.range NINODES).drop 1)

/-! ## Directories and paths -/

/-- Write a new directory entry into the directory `dp`. -/
def dirlink (dp : Fin NINODE) (name : Name) (inum : Nat) : FsProg P Bool := do
  match ← step (.dirlookup dp name) with
  | some (_, ip) =>
    iput ip
    return false
  | none =>
    let d ← step (.read dp)
    step (.writeDirent dp (d.ents.findIdx fun e => e.inum == 0) ⟨inum % 2 ^ 16, name.take DIRSIZ⟩)

/-- The next path element, cut to `DIRSIZ`, and the path after it, without leading slashes. -/
def skipelem (path : List Char) : Option (Name × List Char) :=
  let path := path.dropWhile (· == '/')
  if path.isEmpty then none
  else some ((path.takeWhile (· != '/')).take DIRSIZ, (path.dropWhile (· != '/')).dropWhile (· == '/'))

/-- After the loop of `namex`. -/
def namexEnd (nameiparent : Bool) (ip : Fin NINODE) : FsProg P (Option (Fin NINODE × Name)) := do
  if nameiparent then
    iput ip
    return none
  else return some (ip, [])

/-- The loop of `namex`. Every element takes at least one character off the path, so `fuel` may be its length. -/
def namexLoop (nameiparent : Bool) : Nat → Fin NINODE → List Char → FsProg P (Option (Fin NINODE × Name))
  | 0, ip, _ => namexEnd nameiparent ip
  | fuel + 1, ip, path =>
    match skipelem path with
    | none => namexEnd nameiparent ip
    | some (name, path) => do
      step (.ilock ip)
      let r ← step (.read ip)
      if r.type ≠ .dir then
        iunlockput ip
        return none
      else if nameiparent && path.isEmpty then
        step (.iunlock ip)
        return some (ip, name)
      else
        match ← step (.dirlookup ip name) with
        | none =>
          iunlockput ip
          return none
        | some (_, next) =>
          iunlockput ip
          namexLoop nameiparent fuel next path

def namex (path : List Char) (nameiparent : Bool) : FsProg P (Option (Fin NINODE × Name)) := do
  let ip ← if path.head? = some '/' then step (.iget ROOTINO) else step .idupCwd
  namexLoop nameiparent path.length ip path

def namei (path : List Char) : FsProg P (Option (Fin NINODE)) := do
  return (← namex path false).map (·.1)

def nameiparent (path : List Char) : FsProg P (Option (Fin NINODE × Name)) := namex path true

/-! ## System calls -/

/-- Create the path `new` as a link to the same inode as `old`. -/
def sysLink (old new : List Char) : FsProg P Bool := do
  match ← namei old with
  | none => return false
  | some ip =>
    step (.ilock ip)
    let r ← step (.read ip)
    if r.type = .dir then
      iunlockput ip
      return false
    else
      step (.incLink ip)
      step (.iunlock ip)
      let linked ←
        match ← nameiparent new with
        | none => pure false
        | some (dp, name) => do
          step (.ilock dp)
          let inum ← step (.inum ip)
          let linked ← dirlink dp name inum
          iunlockput dp
          pure linked
      if linked then
        iput ip
        return true
      else
        step (.ilock ip)
        step (.decLink ip)
        iunlockput ip
        return false

/-- Is the directory empty except for `.` and `..`? -/
def isdirempty (r : Inode) : Bool := (r.ents.drop 2).all fun e => e.inum == 0

def sysUnlink (path : List Char) : FsProg P Bool := do
  match ← nameiparent path with
  | none => return false
  | some (dp, name) =>
    step (.ilock dp)
    if namecmp name dot || namecmp name dotdot then
      iunlockput dp
      return false
    else
      match ← step (.dirlookup dp name) with
      | none =>
        iunlockput dp
        return false
      | some (off, ip) =>
        step (.ilock ip)
        let r ← step (.read ip)
        if r.nlink < 1 then
          step (.panic .unlinkNlink)
          return false
        else if r.type = .dir ∧ isdirempty r = false then
          iunlockput ip
          iunlockput dp
          return false
        else if ← step (.writeDirent dp off ⟨0, []⟩) then
          if r.type = .dir then
            step (.decLink dp)
          iunlockput dp
          step (.decLink ip)
          iunlockput ip
          return true
        else
          step (.panic .unlinkWritei)
          return false

/-- The entries of a new inode: `.` and `..` if it is a directory, and its name. -/
def createLink (dp ip : Fin NINODE) (type : InodeType) (name : Name) : FsProg P Bool := do
  let inum ← step (.inum ip)
  if type = .dir then
    let dinum ← step (.inum dp)
    if ← dirlink ip dot inum then
      if ← dirlink ip dotdot dinum then
        dirlink dp name inum
      else return false
    else return false
  else dirlink dp name inum

/-- Find or make an inode, which is returned locked. -/
def create (path : List Char) (type : InodeType) (major : Int) : FsProg P (Option (Fin NINODE)) := do
  match ← nameiparent path with
  | none => return none
  | some (dp, name) =>
    step (.ilock dp)
    match ← step (.dirlookup dp name) with
    | some (_, ip) =>
      iunlockput dp
      step (.ilock ip)
      let r ← step (.read ip)
      if type = .file ∧ (r.type = .file ∨ r.type = .device) then
        return some ip
      else
        iunlockput ip
        return none
    | none =>
      match ← ialloc type with
      | none =>
        iunlockput dp
        return none
      | some ip =>
        step (.ilock ip)
        step (.setLink ip major)
        if ← createLink dp ip type name then
          if type = .dir then
            step (.incLink dp)
          iunlockput dp
          return some ip
        else
          step (.zeroLink ip)
          iunlockput ip
          iunlockput dp
          return none

/-- The flags of `open` that matter here. -/
structure OpenMode where
  create : Bool
  trunc : Bool
  rdonly : Bool

/-- `sys_open` after `create` or `namei`, with the inode locked. -/
def openInode (ip : Fin NINODE) (trunc : Bool) : FsProg P (Option (Fin NOFILE)) := do
  let r ← step (.read ip)
  if r.type = .device ∧ (r.major < 0 ∨ NDEV ≤ r.major) then
    iunlockput ip
    return none
  else
    match ← step (.fopen ip) with
    | none =>
      iunlockput ip
      return none
    | some fd =>
      if trunc = true ∧ r.type = .file then
        step (.itrunc ip)
      step (.iunlock ip)
      return some fd

def sysOpen (path : List Char) (omode : OpenMode) : FsProg P (Option (Fin NOFILE)) := do
  if omode.create then
    match ← create path .file 0 with
    | none => return none
    | some ip => openInode ip omode.trunc
  else
    match ← namei path with
    | none => return none
    | some ip =>
      step (.ilock ip)
      let r ← step (.read ip)
      if r.type = .dir ∧ omode.rdonly = false then
        iunlockput ip
        return none
      else openInode ip omode.trunc

def sysMkdir (path : List Char) : FsProg P Bool := do
  match ← create path .dir 0 with
  | none => return false
  | some ip =>
    iunlockput ip
    return true

def sysMknod (path : List Char) (major : Int) : FsProg P Bool := do
  match ← create path .device (short major) with
  | none => return false
  | some ip =>
    iunlockput ip
    return true

def sysChdir (path : List Char) : FsProg P Bool := do
  match ← namei path with
  | none => return false
  | some ip =>
    step (.ilock ip)
    let r ← step (.read ip)
    if r.type ≠ .dir then
      iunlockput ip
      return false
    else
      step (.iunlock ip)
      let old ← step .cwd
      iput old
      step (.setCwd ip)
      return true

/-- What `kexec` does with the inode of the program. -/
def kexec (path : List Char) : FsProg P Unit := do
  match ← namei path with
  | none => return ()
  | some ip =>
    step (.ilock ip)
    iunlockput ip

def sysClose (fd : Fin NOFILE) : FsProg P Unit := do
  match ← step (.fclose fd) with
  | none => return ()
  | some ip => iput ip

/-- The loop of `kfork` over the open files. -/
def dupFiles (np : P) : List (Fin NOFILE) → FsProg P Unit
  | [] => return ()
  | fd :: rest => do
    step (.filedup np fd)
    dupFiles np rest

/-- `kfork`, when `allocproc` comes to the process `np`. -/
def kfork (np : P) : FsProg P Bool := do
  if ← step (.allocproc np) then
    dupFiles np (List.finRange NOFILE)
    step (.forkCwd np)
    return true
  else return false

/-- The loop of `kexit` over the open files. -/
def closeFiles : List (Fin NOFILE) → FsProg P Unit
  | [] => return ()
  | fd :: rest => do
    sysClose fd
    closeFiles rest

/-- `kexit` of a process; the first one never exits. -/
def kexit (init : Bool) : FsProg P Unit := do
  if init then
    step (.panic .initExiting)
  else
    closeFiles (List.finRange NOFILE)
    let old ← step .cwd
    iput old
    step .exit

/-- The calls a process may make. -/
inductive FsCall (P : Type)
  | «open» (path : List Char) (omode : OpenMode)
  | mkdir (path : List Char)
  | mknod (path : List Char) (major : Int)
  | link (old new : List Char)
  | unlink (path : List Char)
  | chdir (path : List Char)
  | exec (path : List Char)
  | close (fd : Fin NOFILE)
  | fork (np : P)
  | exit

/-- The program of a call, made by the process `initproc` or by another one. -/
def FsCall.prog (init : Bool) : FsCall P → FsProg P Unit
  | .open path omode => do let _ ← sysOpen path omode
  | .mkdir path => do let _ ← sysMkdir path
  | .mknod path major => do let _ ← sysMknod path major
  | .link old new => do let _ ← sysLink old new
  | .unlink path => do let _ ← sysUnlink path
  | .chdir path => do let _ ← sysChdir path
  | .exec path => kexec path
  | .close fd => sysClose fd
  | .fork np => do let _ ← kfork np
  | .exit => kexit init

variable [DecidableEq P]

/-- A process that is runnable and in no call may make any. -/
def Calls (initproc : P) (s : FsState P) (p : P) (f : FsProg P Unit) : Prop :=
  s.proc p = .runnable ∧ ∃ c : FsCall P, f = c.prog (decide (p = initproc))

/-! ## The image -/

/-- The inodes of an image that `mkfs` makes: a root directory, rounded up with empty entries, in which every file has
one name. -/
structure MkfsImage (ino : Nat → Inode) : Prop where
  root : ∃ rest, ino ROOTINO = ⟨.dir, 0, 1, ⟨ROOTINO, dot⟩ :: ⟨ROOTINO, dotdot⟩ :: rest⟩ ∧
    ∀ e ∈ rest, e.inum ≠ 0 → (ino e.inum).type = .file ∧ namecmp e.name dot = false ∧ namecmp e.name dotdot = false
  file : ∀ n, n ≠ ROOTINO → ino n = ⟨.free, 0, 0, []⟩ ∨ ino n = ⟨.file, 0, 1, []⟩ ∧ 1 < n ∧ n < NINODES ∧
    (ino ROOTINO).ents.countP (fun e => e.inum == n) = 1

/-- The state in which the first process is made: it stands in the root directory, and nothing else is in use. -/
structure FsInit (initproc : P) (s : FsState P) : Prop where
  image : MkfsImage s.ino
  tab : s.tab 0 = ⟨ROOTINO, 1, false, none⟩ ∧ ∀ i, i ≠ 0 → (s.tab i).ref = 0 ∧ (s.tab i).lock = none
  file : ∀ f, s.file f = ⟨0, none⟩
  ofile : ∀ p fd, s.ofile p fd = none
  cwd : ∀ p, s.cwd p = if p = initproc then some 0 else none
  proc : ∀ p, s.proc p = if p = initproc then .runnable else .unused
  panicked : s.panicked = none

/-- The configurations reachable from an image by steps that meet a condition. -/
def FsReachable (initproc : P) (cond : FsState P → P → FsCmd P → Prop) (x : Machine.Conf P (FsCmd P) FsCmd.R (FsState P)) :
    Prop :=
  ∃ s₀, FsInit initproc s₀ ∧ (fsMachine P).Reachable (Calls initproc) cond s₀ x

end Xv6.Fs
