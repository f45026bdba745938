import Xv6.Lib.Index
import Xv6.Lib.Threads

/-!
# Inodes, directories and references

The state that `fs.c`, `sysfile.c` and `file.c` share between processes `P`, and the atomic steps on it.

An inode's copy on disk and its copy in the inode table are one here: a process changes the copy in the table only
while it holds the inode's sleep-lock, and has called `iupdate` before it releases it. The contents of a directory are
its entries; the contents of other files are bytes, which these functions only discard. A step ends where another process may run and see the
difference: a critical section of `itable.lock` or `ftable.lock`, an acquisition or release of an inode's sleep-lock, a
change to a locked inode, the examination of one inode by `ialloc`. `begin_op` and `end_op` are left out, so more
processes are inside operations than the log admits.
-/

namespace Xv6.Fs

open Lib (Prog Machine)

/-- Size of the inode table. -/
abbrev NINODE : Nat := 50
/-- Open files in the system. -/
abbrev NFILE : Nat := 100
/-- Open files of a process. -/
abbrev NOFILE : Nat := 16
/-- Number of inodes that `mkfs` makes. -/
abbrev NINODES : Nat := 200
/-- Maximum major device number. -/
abbrev NDEV : Int := 10
/-- Length of a name in a directory. -/
abbrev DIRSIZ : Nat := 14
/-- Inode number of the root directory. -/
abbrev ROOTINO : Nat := 1
/-- Entries that fit in a file of `MAXFILE` blocks. -/
abbrev MAXDIRENTS : Nat := (12 + 256) * 1024 / 16

abbrev Name := List Char

/-- Compare names as the directories do: their first `DIRSIZ` characters. -/
def namecmp (s t : Name) : Bool := s.take DIRSIZ == t.take DIRSIZ

def dot : Name := ['.']
def dotdot : Name := ['.', '.']

/-- The type of an inode; a free one has type 0. -/
inductive InodeType
  | free
  | dir
  | file
  | device
  deriving DecidableEq

/-- A directory entry; it is empty if its inode number is 0. -/
structure Dirent where
  inum : Nat
  name : Name
  deriving DecidableEq

structure Inode where
  type : InodeType
  major : Int
  nlink : Int
  ents : List Dirent
  deriving DecidableEq

/-- The value a variable of type `short` has after it was assigned `x`. -/
def short (x : Int) : Int := x.bmod (2 ^ 16)

/-- An entry of the inode table. -/
structure ItabEntry (P : Type) where
  inum : Nat
  ref : Nat
  valid : Bool
  lock : Option P

/-- An entry of the file table; without an inode it is of type `FD_NONE`. -/
structure File where
  ref : Nat
  ip : Option (Fin NINODE)

inductive ProcState
  | unused
  | used
  | runnable
  deriving DecidableEq

/-- The panics of these files. -/
inductive FsPanic
  | ilock
  | ilockNoType
  | iunlock
  | igetNoInodes
  | dirlookupNotDir
  | unlinkNlink
  | unlinkWritei
  | fileclose
  | filedup
  | initExiting
  deriving DecidableEq

def FsPanic.msg : FsPanic → String
  | .ilock => "ilock"
  | .ilockNoType => "ilock: no type"
  | .iunlock => "iunlock"
  | .igetNoInodes => "iget: no inodes"
  | .dirlookupNotDir => "dirlookup not DIR"
  | .unlinkNlink => "unlink: nlink < 1"
  | .unlinkWritei => "unlink: writei"
  | .fileclose => "fileclose"
  | .filedup => "filedup"
  | .initExiting => "init exiting"

structure FsState (P : Type) where
  ino : Nat → Inode
  tab : Fin NINODE → ItabEntry P
  file : Fin NFILE → File
  ofile : P → Fin NOFILE → Option (Fin NFILE)
  cwd : P → Option (Fin NINODE)
  proc : P → ProcState
  /-- The contents of files that are no directories. -/
  data : Nat → List UInt8
  panicked : Option FsPanic

/-- The steps. -/
inductive FsCmd (P : Type)
  /-- `iget(inum)`. -/
  | iget (inum : Nat)
  /-- `idup(myproc()->cwd)`. -/
  | idupCwd
  /-- The argument of `iput(p->cwd)`. -/
  | cwd
  /-- `p->cwd = ip`. -/
  | setCwd (ip : Fin NINODE)
  | ilock (ip : Fin NINODE)
  | iunlock (ip : Fin NINODE)
  /-- The fields and the entries of a locked inode. -/
  | read (ip : Fin NINODE)
  /-- `ip->inum`. -/
  | inum (ip : Fin NINODE)
  /-- `dirlookup(dp, name, &off)`. -/
  | dirlookup (dp : Fin NINODE) (name : Name)
  /-- `writei` of one entry. -/
  | writeDirent (dp : Fin NINODE) (off : Nat) (de : Dirent)
  /-- One inode examined by `ialloc`. -/
  | ialloc (inum : Nat) (type : InodeType)
  /-- `ip->major = major; ip->nlink = 1; iupdate(ip)`. -/
  | setLink (ip : Fin NINODE) (major : Int)
  /-- `ip->nlink++; iupdate(ip)`. -/
  | incLink (ip : Fin NINODE)
  /-- `ip->nlink--; iupdate(ip)`. -/
  | decLink (ip : Fin NINODE)
  /-- `ip->nlink = 0; iupdate(ip)`. -/
  | zeroLink (ip : Fin NINODE)
  | itrunc (ip : Fin NINODE)
  /-- The first critical section of `iput`: whether the inode is to be freed. If not, the reference is dropped. -/
  | iputTest (ip : Fin NINODE)
  /-- `itrunc(ip); ip->type = 0; iupdate(ip); ip->valid = 0; releasesleep(&ip->lock)`. -/
  | ifree (ip : Fin NINODE)
  /-- The second critical section of `iput`. -/
  | iputDrop (ip : Fin NINODE)
  /-- `filealloc`, `fdalloc` and the assignment to `f->ip`, or `fileclose` if there is no descriptor. -/
  | fopen (ip : Fin NINODE)
  /-- `p->ofile[fd] = 0` and the critical section of `fileclose`: the inode to be put, if any. -/
  | fclose (fd : Fin NOFILE)
  /-- `allocproc` finds the process `np` unused. -/
  | allocproc (np : P)
  /-- `if(p->ofile[i]) np->ofile[i] = filedup(p->ofile[i])`. -/
  | filedup (np : P) (i : Fin NOFILE)
  /-- `np->cwd = idup(p->cwd)`, and `np` is made runnable. -/
  | forkCwd (np : P)
  /-- `p->cwd = 0`; the process becomes a zombie, and may be freed. -/
  | exit
  | panic (x : FsPanic)

/-- What the steps return. -/
abbrev FsCmd.R {P : Type} : FsCmd P → Type
  | .iget _ => Fin NINODE
  | .idupCwd => Fin NINODE
  | .cwd => Fin NINODE
  | .read _ => Inode
  | .inum _ => Nat
  | .dirlookup _ _ => Option (Nat × Fin NINODE)
  | .writeDirent _ _ _ => Bool
  | .ialloc _ _ => Bool
  | .iputTest _ => Bool
  | .fopen _ => Option (Fin NOFILE)
  | .fclose _ => Option (Fin NINODE)
  | .allocproc _ => Bool
  | _ => Unit

abbrev FsProg (P : Type) := Prog (FsCmd P) FsCmd.R

namespace FsState

variable {P : Type} [DecidableEq P] (s : FsState P)

def panic (x : FsPanic) : FsState P := { s with panicked := some x }

def setIno (n : Nat) (r : Inode) : FsState P := { s with ino := Function.update s.ino n r }

def setTab (i : Fin NINODE) (e : ItabEntry P) : FsState P := { s with tab := Function.update s.tab i e }

def setFile (f : Fin NFILE) (x : File) : FsState P := { s with file := Function.update s.file f x }

def setOfile (p : P) (fd : Fin NOFILE) (x : Option (Fin NFILE)) : FsState P :=
  { s with ofile := Function.update s.ofile p (Function.update (s.ofile p) fd x) }

def setCwd (p : P) (x : Option (Fin NINODE)) : FsState P := { s with cwd := Function.update s.cwd p x }

def setProc (p : P) (x : ProcState) : FsState P := { s with proc := Function.update s.proc p x }

def setData (n : Nat) (d : List UInt8) : FsState P := { s with data := Function.update s.data n d }

/-- The inode that a table entry stands for. -/
def inode (i : Fin NINODE) : Inode := s.ino (s.tab i).inum

/-- A change to the fields or entries of an inode. -/
def modify (i : Fin NINODE) (f : Inode → Inode) : FsState P := s.setIno (s.tab i).inum (f (s.inode i))

/-- `ip->ref++`. -/
def incRef (i : Fin NINODE) : FsState P := s.setTab i { s.tab i with ref := (s.tab i).ref + 1 }

/-- `ip->ref--`. -/
def decRef (i : Fin NINODE) : FsState P := s.setTab i { s.tab i with ref := (s.tab i).ref - 1 }

/-- Find an inode in the table, or an entry to recycle. -/
def iget (n : Nat) : Option (Fin NINODE × FsState P) :=
  match (List.finRange NINODE).find? fun i => decide (0 < (s.tab i).ref ∧ (s.tab i).inum = n) with
  | some i => some (i, s.incRef i)
  | none =>
    match (List.finRange NINODE).find? fun i => (s.tab i).ref == 0 with
    | some i => some (i, s.setTab i { inum := n, ref := 1, valid := false, lock := (s.tab i).lock })
    | none => none

variable {s} {i j : Fin NINODE}

theorem setTab_self (e : ItabEntry P) : (s.setTab i e).tab i = e := by simp [setTab]

theorem setTab_of_ne (e : ItabEntry P) (hj : j ≠ i) : (s.setTab i e).tab j = s.tab j := by simp [setTab, hj]

theorem setTab_inum {e : ItabEntry P} (he : e.inum = (s.tab i).inum) (j : Fin NINODE) :
    ((s.setTab i e).tab j).inum = (s.tab j).inum := by
  by_cases hj : j = i
  · rw [hj, setTab_self, he]
  · rw [setTab_of_ne e hj]

theorem incRef_inum (j : Fin NINODE) : ((s.incRef i).tab j).inum = (s.tab j).inum :=
  setTab_inum (e := { s.tab i with ref := (s.tab i).ref + 1 }) rfl j

theorem decRef_inum (j : Fin NINODE) : ((s.decRef i).tab j).inum = (s.tab j).inum :=
  setTab_inum (e := { s.tab i with ref := (s.tab i).ref - 1 }) rfl j

theorem incRef_ref (j : Fin NINODE) : ((s.incRef i).tab j).ref = (s.tab j).ref + if j = i then 1 else 0 := by
  by_cases he : j = i
  · rw [he, incRef, setTab_self, if_pos rfl]
  · rw [incRef, setTab_of_ne _ he, if_neg he]
    rfl

theorem pos_of_incRef (hi : 0 < (s.tab i).ref) (hj : 0 < ((s.incRef i).tab j).ref) : 0 < (s.tab j).ref := by
  rw [incRef_ref] at hj
  by_cases he : j = i
  · rw [he]
    exact hi
  · rwa [if_neg he] at hj

/-- What `iget` does: it finds the inode's entry, or recycles one. -/
theorem iget_cases {n : Nat} {s' : FsState P} (hs : s.iget n = some (i, s')) :
    (0 < (s.tab i).ref ∧ (s.tab i).inum = n ∧ s' = s.incRef i) ∨
      ((s.tab i).ref = 0 ∧ (∀ j, 0 < (s.tab j).ref → (s.tab j).inum ≠ n) ∧
        s' = s.setTab i ⟨n, 1, false, (s.tab i).lock⟩) := by
  unfold FsState.iget at hs
  split at hs
  · next j hj =>
    cases hs
    have := List.find?_some hj
    simp only [decide_eq_true_eq] at this
    exact .inl ⟨this.1, this.2, rfl⟩
  · next hn =>
    split at hs
    · next j hj =>
      cases hs
      refine .inr ⟨?_, fun j hj he => ?_, rfl⟩
      · have := List.find?_some hj
        simpa using this
      · have := List.find?_eq_none.mp hn j (List.mem_finRange j)
        simp only [decide_eq_true_eq] at this
        exact this ⟨hj, he⟩
    · cases hs

/-- `iget` fails only if every entry is in use. -/
theorem iget_eq_none {n : Nat} (hs : s.iget n = none) (i : Fin NINODE) : 0 < (s.tab i).ref := by
  unfold FsState.iget at hs
  split at hs
  · cases hs
  · split at hs
    · cases hs
    · next hn =>
      have := List.find?_eq_none.mp hn i (List.mem_finRange i)
      simp only [beq_iff_eq] at this
      omega

end FsState

/-- Where a directory has the entry for a name. -/
def findEntry (ents : List Dirent) (name : Name) : Option Nat :=
  ents.findIdx? fun e => e.inum != 0 && namecmp name e.name

variable {P : Type} [DecidableEq P]

/-- A step of process `p`. The choice `ch` is 0 unless `balloc` finds no block, or the last entry of the file table is
in use for a moment by a process that has no free descriptor. A process that has to wait has no step. -/
def FsCmd.exec (p : P) : (c : FsCmd P) → Nat → FsState P → Option (c.R × FsState P)
  | .iget n, _, s =>
    match s.iget n with
    | some (i, s') => some (i, s')
    | none => some ((0 : Fin NINODE), s.panic .igetNoInodes)
  | .idupCwd, _, s => (s.cwd p).map fun i => (i, s.incRef i)
  | .cwd, _, s => (s.cwd p).map fun i => (i, s)
  | .setCwd i, _, s => some ((), s.setCwd p (some i))
  | .ilock i, _, s =>
    if (s.tab i).ref < 1 then some ((), s.panic .ilock)
    else if (s.tab i).lock.isSome then none
    else
      let s' := s.setTab i { s.tab i with valid := true, lock := some p }
      if !(s.tab i).valid && (s.inode i).type = .free then some ((), s'.panic .ilockNoType)
      else some ((), s')
  | .iunlock i, _, s =>
    if (s.tab i).lock ≠ some p ∨ (s.tab i).ref < 1 then some ((), s.panic .iunlock)
    else some ((), s.setTab i { s.tab i with lock := none })
  | .read i, _, s => some (s.inode i, s)
  | .inum i, _, s => some ((s.tab i).inum, s)
  | .dirlookup i name, _, s =>
    if (s.inode i).type ≠ .dir then some (none, s.panic .dirlookupNotDir)
    else
      match findEntry (s.inode i).ents name with
      | none => some (none, s)
      | some off =>
        match s.iget ((s.inode i).ents.getD off ⟨0, []⟩).inum with
        | some (j, s') => some (some (off, j), s')
        | none => some (none, s.panic .igetNoInodes)
  | .writeDirent i off de, ch, s =>
    let ents := (s.inode i).ents
    if off < ents.length then some (true, s.modify i fun r => { r with ents := ents.set off de })
    else if off = ents.length ∧ ents.length < MAXDIRENTS ∧ ch = 0 then
      some (true, s.modify i fun r => { r with ents := ents ++ [de] })
    else some (false, s)
  | .ialloc n type, _, s =>
    if (s.ino n).type = .free then some (true, (s.setIno n ⟨type, 0, 0, []⟩).setData n []) else some (false, s)
  | .setLink i major, _, s => some ((), s.modify i fun r => { r with major := major, nlink := 1 })
  | .incLink i, _, s => some ((), s.modify i fun r => { r with nlink := short (r.nlink + 1) })
  | .decLink i, _, s => some ((), s.modify i fun r => { r with nlink := short (r.nlink - 1) })
  | .zeroLink i, _, s => some ((), s.modify i fun r => { r with nlink := 0 })
  | .itrunc i, _, s => some ((), s.setData (s.tab i).inum [])
  | .iputTest i, _, s =>
    if (s.tab i).ref = 1 ∧ (s.tab i).valid ∧ (s.inode i).nlink = 0 then
      if (s.tab i).lock.isSome then none else some (true, s.setTab i { s.tab i with lock := some p })
    else some (false, s.decRef i)
  | .ifree i, _, s =>
    some ((), ((s.modify i fun r => { r with type := .free, ents := [] }).setTab i
      { s.tab i with valid := false, lock := none }).setData (s.tab i).inum [])
  | .iputDrop i, _, s => some ((), s.decRef i)
  | .fopen i, ch, s =>
    match (List.finRange NFILE).find? fun f => (s.file f).ref == 0,
      (List.finRange NOFILE).find? fun fd => (s.ofile p fd).isNone with
    | some f, some fd =>
      if ch = 0 then some (some fd, (s.setFile f ⟨1, some i⟩).setOfile p fd (some f)) else some (none, s)
    | _, _ => some (none, s)
  | .fclose fd, _, s =>
    match s.ofile p fd with
    | none => some (none, s)
    | some f =>
      if (s.file f).ref < 1 then some (none, s.panic .fileclose)
      else if 1 < (s.file f).ref then
        some (none, (s.setFile f { s.file f with ref := (s.file f).ref - 1 }).setOfile p fd none)
      else some ((s.file f).ip, (s.setFile f ⟨0, none⟩).setOfile p fd none)
  | .allocproc np, _, s =>
    if s.proc np = .unused then some (true, s.setProc np .used) else some (false, s)
  | .filedup np i, _, s =>
    match s.ofile p i with
    | none => some ((), s)
    | some f =>
      if (s.file f).ref < 1 then some ((), s.panic .filedup)
      else some ((), (s.setFile f { s.file f with ref := (s.file f).ref + 1 }).setOfile np i (some f))
  | .forkCwd np, _, s =>
    (s.cwd p).map fun i => ((), ((s.incRef i).setCwd np (some i)).setProc np .runnable)
  | .exit, _, s => some ((), (s.setCwd p none).setProc p .unused)
  | .panic x, _, s => some ((), s.panic x)

/-- The machine. -/
def fsMachine (P : Type) [DecidableEq P] : Machine P (FsCmd P) FsCmd.R (FsState P) where
  exec := FsCmd.exec
  halted s := s.panicked.isSome

end Xv6.Fs
