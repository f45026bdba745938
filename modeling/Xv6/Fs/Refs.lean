import Mathlib.Algebra.Order.BigOperators.Group.Finset
import Mathlib.Data.Fintype.BigOperators
import Mathlib.Data.Multiset.Count
import Xv6.Lib.Count
import Xv6.Fs.Code

/-!
# References to inodes

What a process has while it is inside a call: references to entries of the inode table, sleep-locks, a new inode, links
it has still to make. `RefInv` says that the counts in the inode table and in the file table are the numbers of
references that exist, that no inode has two entries, and that a sleep-lock is held by whoever says so.

There is a lemma for every step that moves a reference or a lock, which also says how the number of references to every
inode changes (`liveIno`). A process that is past freeing an inode, and has only `ip->ref--` to do, has no reference in
this sense; it is counted by `doomed`.
-/

namespace Xv6.Fs

open Lib (sum_change)
open FsState (setTab_self setTab_of_ne setTab_inum incRef_inum decRef_inum)
open Function (update update_of_ne update_self)

/-! ## What a process has -/

/-- An inode that the process has locked: its number, its contents, and whether it is a directory whose `..` is counted
by the parent. -/
structure Held where
  inum : Nat
  ino : Inode
  att : Bool

/-- An inode that only one process can reach: allocated, with a reference, locked, or without a link and to be freed. -/
inductive Kid
  | fresh (n : Nat) (type : InodeType)
  | born (i : Fin NINODE) (n : Nat) (type : InodeType)
  | held (i : Fin NINODE) (n : Nat)
  | gone (i : Fin NINODE) (n : Nat)

def Kid.inum : Kid → Nat
  | .fresh n _ => n
  | .born _ n _ => n
  | .held _ n => n
  | .gone _ n => n

/-- What a process has, between two steps. -/
@[ext]
structure Ghost (P : Type) where
  /-- References to entries of the inode table, with the inode's number. -/
  tok : Multiset (Fin NINODE × Nat)
  /-- The inodes it has locked. -/
  own : Fin NINODE → Option Held
  kid : Option Kid
  /-- Links that are counted by `nlink` but not made, or no more; `true` for those to files that are no directories. -/
  pend : Multiset (Nat × Bool)
  /-- A directory which has its name but is not yet counted by its parent (`true`), or has no more a name but is still
  counted (`false`). -/
  flux : Option (Nat × Bool)
  /-- An entry of the inode table of which only `ref` is to be decremented. -/
  dead : Option (Fin NINODE)
  /-- The reference of the current directory has been taken by `iput`. -/
  taken : Bool
  /-- The child being made by `kfork`, and the descriptors still to be copied. -/
  child : Option (P × List (Fin NOFILE))
  /-- Descriptors known to be closed. -/
  closed : List (Fin NOFILE)
  /-- The process is known to be runnable. -/
  up : Bool

namespace Ghost

variable {P : Type}
variable {T : Multiset (Fin NINODE × Nat)}

/-- A process that has nothing. -/
def empty : Ghost P := ⟨0, fun _ => none, none, 0, none, none, false, none, [], false⟩

/-- With one more reference. -/
def give (g : Ghost P) (i : Fin NINODE) (n : Nat) : Ghost P := { g with tok := (i, n) ::ₘ g.tok }

/-- With one more lock. -/
def hold (g : Ghost P) (i : Fin NINODE) (h : Held) : Ghost P := { g with own := Function.update g.own i (some h) }

/-- With one lock less. -/
def unhold (g : Ghost P) (i : Fin NINODE) : Ghost P := { g with own := Function.update g.own i none }

/-- 1 if only `ref` of the entry is to be decremented. -/
def deadAt (g : Ghost P) (i : Fin NINODE) : Nat := if g.dead = some i then 1 else 0

theorem deadAt_congr {x y : Ghost P} (h : x.dead = y.dead) (i : Fin NINODE) : x.deadAt i = y.deadAt i := by
  rw [deadAt, deadAt, h]

end Ghost

variable {P : Type} [DecidableEq P] [Fintype P]

/-! ## Counting references -/

/-- The references of a process to an entry, in flight or as its current directory. -/
def weight (s : FsState P) (x : Ghost P) (p : P) (i : Fin NINODE) : Nat :=
  x.tok.countP (fun t => t.1 = i) + if x.taken = false ∧ s.cwd p = some i then 1 else 0

/-- The open files of an entry. -/
def files (s : FsState P) (i : Fin NINODE) : Nat := (Finset.univ.filter fun f => (s.file f).ip = some i).card

/-- The references to an entry. -/
def live (s : FsState P) (g : P → Ghost P) (i : Fin NINODE) : Nat := ∑ p, weight s (g p) p i + files s i

/-- The processes that are past freeing the inode of an entry. -/
def doomed (g : P → Ghost P) (i : Fin NINODE) : Nat := ∑ p, (g p).deadAt i

/-- The descriptors of a process for an open file. -/
def fds (s : FsState P) (f : Fin NFILE) (p : P) : Nat := (Finset.univ.filter fun fd => s.ofile p fd = some f).card

/-- The references to an inode. -/
def liveIno (s : FsState P) (g : P → Ghost P) (n : Nat) : Nat := ∑ i, if (s.tab i).inum = n then live s g i else 0

/-- The inode has an entry whose copy is valid. -/
def Cached (s : FsState P) (n : Nat) : Prop :=
  ∃ i, (s.tab i).inum = n ∧ 0 < (s.tab i).ref ∧ (s.tab i).valid = true

/-- The counts of the inode table. -/
structure Counts (s : FsState P) (g : P → Ghost P) : Prop where
  ref : ∀ i, (s.tab i).ref = live s g i + doomed g i
  uniq : ∀ i j, 0 < (s.tab i).ref → 0 < (s.tab j).ref → (s.tab i).inum = (s.tab j).inum → i = j
  tok : ∀ p t, t ∈ (g p).tok → (s.tab t.1).inum = t.2
  taken : ∀ p, (g p).taken = true → s.cwd p ≠ none

/-- Who has locked an inode has a reference to it, or has opened it. -/
structure Locks (s : FsState P) (g : P → Ghost P) : Prop where
  lock : ∀ i p, (s.tab i).lock = some p ↔ ((g p).own i).isSome
  own : ∀ p i h, (g p).own i = some h → (s.tab i).inum = h.inum ∧ (s.tab i).valid = true ∧
    ((i, h.inum) ∈ (g p).tok ∨ ∃ fd f, s.ofile p fd = some f ∧ (s.file f).ip = some i)

/-- The counts of the file table. -/
structure Files (s : FsState P) : Prop where
  ref : ∀ f, (s.file f).ref = ∑ p, fds s f p
  ip : ∀ f, (s.file f).ref = 0 → (s.file f).ip = none

/-- What processes that are not running have. -/
structure Procs (s : FsState P) (g : P → Ghost P) : Prop where
  idle : ∀ p, s.proc p ≠ .runnable → s.cwd p = none ∧ (g p).closed = [] ∧ (g p).up = false
  unused : ∀ p, s.proc p = .unused → ∀ fd, s.ofile p fd = none
  closed : ∀ p fd, fd ∈ (g p).closed → s.ofile p fd = none
  child : ∀ p q l, (g p).child = some (q, l) → s.proc q = .used ∧ l.Nodup ∧ ∀ fd ∈ l, s.ofile q fd = none
  childOne : ∀ p p' q l l', (g p).child = some (q, l) → (g p').child = some (q, l') → p = p'

/-- **The reference counts are exact.** -/
structure RefInv (s : FsState P) (g : P → Ghost P) : Prop where
  counts : Counts s g
  locks : Locks s g
  files : Files s
  procs : Procs s g

section Counting

variable {s s' : FsState P} {g : P → Ghost P} {p : P} {x : Ghost P} {i : Fin NINODE}

theorem live_update (h : ∀ q, q ≠ p → s'.cwd q = s.cwd q) (i : Fin NINODE) :
    live s' (update g p x) i + (weight s (g p) p i + files s i) = live s g i + (weight s' x p i + files s' i) := by
  have hs := sum_change Finset.univ (fun q => weight s (g q) q i) (fun q => weight s' (update g p x q) q i)
    p (Finset.mem_univ p) fun q hq => by simp only [update_of_ne hq, weight, h q hq]
  simp only [update_self] at hs
  unfold live
  omega

theorem doomed_update (i : Fin NINODE) : doomed (update g p x) i + (g p).deadAt i = doomed g i + x.deadAt i := by
  have hs := sum_change Finset.univ (fun q => (g q).deadAt i) (fun q => (update g p x q).deadAt i) p
    (Finset.mem_univ p) fun q hq => by simp only [update_of_ne hq]
  simp only [update_self] at hs
  exact hs

/-- The references to inodes when those to one entry change. -/
theorem liveIno_change {g' : P → Ghost P} (i : Fin NINODE) (hl : ∀ j, j ≠ i → live s' g' j = live s g j)
    (ht : ∀ j, j ≠ i → (s'.tab j).inum = (s.tab j).inum) (n : Nat) :
    liveIno s' g' n + (if (s.tab i).inum = n then live s g i else 0) =
      liveIno s g n + if (s'.tab i).inum = n then live s' g' i else 0 :=
  sum_change Finset.univ (fun j => if (s.tab j).inum = n then live s g j else 0)
    (fun j => if (s'.tab j).inum = n then live s' g' j else 0) i (Finset.mem_univ i) fun j hj => by
      simp only [hl j hj, ht j hj]

theorem weight_le_live (p : P) (i : Fin NINODE) : weight s (g p) p i ≤ live s g i := by
  have h := Finset.single_le_sum (f := fun q => weight s (g q) q i) (fun q _ => Nat.zero_le _) (Finset.mem_univ p)
  exact Nat.le_trans h (Nat.le_add_right _ _)

/-- The references of two processes are different ones. -/
theorem weight_add_le_live {q : P} (hpq : q ≠ p) (i : Fin NINODE) :
    weight s (g p) p i + weight s (g q) q i ≤ live s g i := by
  have h1 := Finset.add_sum_erase Finset.univ (fun q => weight s (g q) q i) (Finset.mem_univ p)
  have h2 := Finset.single_le_sum (f := fun q => weight s (g q) q i)
    (fun q _ => Nat.zero_le _) (Finset.mem_erase.mpr ⟨hpq, Finset.mem_univ q⟩)
  unfold live
  omega

theorem weight_pos_of_tok {n : Nat} (ht : (i, n) ∈ (g p).tok) : 0 < weight s (g p) p i := by
  have h : 0 < (g p).tok.countP fun t => t.1 = i := Multiset.countP_pos.mpr ⟨(i, n), ht, rfl⟩
  exact Nat.lt_of_lt_of_le h (Nat.le_add_right _ _)

theorem files_pos {f : Fin NFILE} (hf : (s.file f).ip = some i) : 0 < files s i :=
  Finset.card_pos.mpr ⟨f, Finset.mem_filter.mpr ⟨Finset.mem_univ f, hf⟩⟩

theorem files_le_live (i : Fin NINODE) : files s i ≤ live s g i := by
  unfold live
  omega

end Counting

/-! ## Consequences -/

namespace RefInv

variable {s s' : FsState P} {g : P → Ghost P} {p q : P} {x y : Ghost P} {i j : Fin NINODE} {n : Nat} {h h' : Held}

variable (hr : RefInv s g)
include hr

theorem live_le (i : Fin NINODE) : live s g i ≤ (s.tab i).ref := by
  rw [hr.counts.ref i]
  exact Nat.le_add_right _ _

omit hr in
theorem live_of_tok (ht : (i, n) ∈ (g p).tok) : 0 < live s g i :=
  Nat.lt_of_lt_of_le (weight_pos_of_tok ht) (weight_le_live p i)

/-- Whoever has locked an inode has a reference, or one of its open files has. -/
theorem live_of_own (ho : (g p).own i = some h) : 0 < live s g i := by
  obtain ⟨_, _, ht | ⟨fd, f, _, hf⟩⟩ := hr.locks.own p i h ho
  · exact live_of_tok ht
  · exact Nat.lt_of_lt_of_le (files_pos hf) (files_le_live i)

/-- The references to an inode are those to its only entry. -/
theorem liveIno_eq (hi : 0 < (s.tab i).ref) : liveIno s g (s.tab i).inum = live s g i := by
  unfold liveIno
  rw [Finset.sum_eq_single i]
  · rw [if_pos rfl]
  · intro j _ hj
    split
    · next he =>
      have hj0 : (s.tab j).ref = 0 := by
        by_contra hn
        exact hj (hr.counts.uniq j i (by omega) hi he)
      have := hr.live_le j
      omega
    · rfl
  · exact fun hn => absurd (Finset.mem_univ i) hn

theorem liveIno_pos (hl : 0 < live s g i) : liveIno s g (s.tab i).inum = live s g i :=
  hr.liveIno_eq (Nat.lt_of_lt_of_le hl (hr.live_le i))

theorem liveIno_tok (ht : (i, n) ∈ (g p).tok) : liveIno s g n = live s g i := by
  have := hr.liveIno_pos (live_of_tok ht)
  rwa [hr.counts.tok p _ ht] at this

theorem liveIno_own (ho : (g p).own i = some h) : liveIno s g h.inum = live s g i := by
  have := hr.liveIno_pos (hr.live_of_own ho)
  rwa [(hr.locks.own p i h ho).1] at this

/-- Locked inodes are different ones. -/
theorem own_unique (ho : (g p).own i = some h) (ho' : (g q).own j = some h')
    (he : h.inum = h'.inum) : p = q ∧ i = j := by
  have hij : i = j := by
    refine hr.counts.uniq i j ?_ ?_ ?_
    · exact Nat.lt_of_lt_of_le (hr.live_of_own ho) (hr.live_le i)
    · exact Nat.lt_of_lt_of_le (hr.live_of_own ho') (hr.live_le j)
    · rw [(hr.locks.own p i h ho).1, (hr.locks.own q j h' ho').1, he]
  subst hij
  have h1 := (hr.locks.lock i p).mpr (by rw [ho]; rfl)
  have h2 := (hr.locks.lock i q).mpr (by rw [ho']; rfl)
  exact ⟨Option.some.inj (h1.symm.trans h2), rfl⟩

end RefInv

/-! ## Steps that move a reference or a lock -/

section Moves

variable {s s' : FsState P} {g : P → Ghost P} {p q : P} {x y : Ghost P} {i j : Fin NINODE} {n : Nat} {h h' : Held}

/-- What stays the same where something is replaced stays the same everywhere. -/
theorem proj_update {ι α β : Type} [DecidableEq ι] {f : ι → α} {a : ι} {y : α} (π : α → β) (h : π y = π (f a)) (b : ι) :
    π (update f a y b) = π (f b) :=
  (Function.forall_update_iff f fun b z => π z = π (f b)).mpr ⟨h, fun _ _ => rfl⟩ b

theorem Procs.congr (hp : Procs s g) (hcwd : ∀ q, s.proc q ≠ .runnable → s'.cwd q = s.cwd q)
    (hofile : s'.ofile = s.ofile) (hproc : s'.proc = s.proc) (hcl : x.closed = (g p).closed) (hup : x.up = (g p).up) (hch : x.child = (g p).child) :
    Procs s' (update g p x) := by
  have hcl' := proj_update Ghost.closed hcl
  have hup' := proj_update Ghost.up hup
  have hch' := proj_update Ghost.child hch
  constructor <;> simp only [hofile, hproc, hcl', hup', hch']
  · intro q hq
    rw [hcwd q hq]
    exact hp.idle q hq
  · exact hp.unused
  · exact hp.closed
  · exact hp.child
  · exact hp.childOne

/-- The locks, when neither a lock nor what it rests on changes. -/
theorem Locks.congr (hl : Locks s g) (hlock : ∀ j, (s'.tab j).lock = (s.tab j).lock)
    (htab : ∀ q j h, (g q).own j = some h → (s'.tab j).inum = (s.tab j).inum ∧ (s'.tab j).valid = (s.tab j).valid)
    (hfile : ∀ q j h fd f, (g q).own j = some h → s.ofile q fd = some f → (s.file f).ip = some j →
      s'.ofile q fd = some f ∧ (s'.file f).ip = some j)
    (hx : ∀ j, (x.own j).map Held.inum = ((g p).own j).map Held.inum)
    (htok : ∀ t ∈ (g p).tok, ((g p).own t.1).isSome → t ∈ x.tok ∨
      ∃ fd f, s'.ofile p fd = some f ∧ (s'.file f).ip = some t.1) : Locks s' (update g p x) := by
  have hown : ∀ q j h, (update g p x q).own j = some h → ∃ h', (g q).own j = some h' ∧ h'.inum = h.inum := by
    intro q j h ho
    by_cases hq : q = p
    · subst hq
      rw [update_self] at ho
      have := hx j
      rw [ho] at this
      exact Option.map_eq_some_iff.mp this.symm
    · rw [update_of_ne hq] at ho
      exact ⟨h, ho, rfl⟩
  constructor
  · intro j q
    rw [hlock, hl.lock]
    by_cases hq : q = p
    · subst hq
      rw [update_self, ← Option.isSome_map, ← hx, Option.isSome_map]
    · rw [update_of_ne hq]
  · intro q j h ho
    obtain ⟨h', ho', he⟩ := hown q j h ho
    obtain ⟨h1, h2, h3⟩ := hl.own q j h' ho'
    obtain ⟨ht1, ht2⟩ := htab q j h' ho'
    rw [ht1, ht2, ← he]
    refine ⟨h1, h2, ?_⟩
    obtain ht | ⟨fd, f, hfd, hf⟩ := h3
    · by_cases hq : q = p
      · subst hq
        rw [update_self]
        exact htok _ ht (by rw [ho']; rfl)
      · rw [update_of_ne hq]
        exact .inl ht
    · exact .inr ⟨fd, f, hfile q j h' fd f ho' hfd hf⟩

/-- The locks, when only references are added. -/
theorem Locks.keep (hl : Locks s g) (htab : s'.tab = s.tab) (hofile : s'.ofile = s.ofile) (hfile : s'.file = s.file)
    (hx : x.own = (g p).own) (htok : ∀ t ∈ (g p).tok, t ∈ x.tok) : Locks s' (update g p x) := by
  refine hl.congr (fun j => by rw [htab]) (fun _ j _ _ => by rw [htab]; exact ⟨rfl, rfl⟩) ?_ (fun j => by rw [hx])
    fun t ht _ => .inl (htok t ht)
  intro q j h fd f _ h1 h2
  rw [hofile, hfile]
  exact ⟨h1, h2⟩

/-- The inode table, when the references of one process and the count of one entry change alike. -/
theorem Counts.change (hc : Counts s g) (hcwd : ∀ q, q ≠ p → s'.cwd q = s.cwd q)
    (htab : ∀ j, j ≠ i → s'.tab j = s.tab j) (hinum : (s'.tab i).inum = (s.tab i).inum)
    (hpos : 0 < (s'.tab i).ref → 0 < (s.tab i).ref)
    (hw : ∀ j, j ≠ i → weight s' x p j + files s' j = weight s (g p) p j + files s j)
    (hd : ∀ j, j ≠ i → x.deadAt j = (g p).deadAt j)
    (hi : (s'.tab i).ref + (weight s (g p) p i + files s i + (g p).deadAt i) =
      (s.tab i).ref + (weight s' x p i + files s' i + x.deadAt i))
    (htok : ∀ t ∈ x.tok, (s.tab t.1).inum = t.2) (htaken : x.taken = true → s'.cwd p ≠ none) :
    Counts s' (update g p x) := by
  have hinum' : ∀ j, (s'.tab j).inum = (s.tab j).inum := by
    intro j
    by_cases hj : j = i
    · rw [hj, hinum]
    · rw [htab j hj]
  have hpos' : ∀ j, 0 < (s'.tab j).ref → 0 < (s.tab j).ref := by
    intro j
    by_cases hj : j = i
    · rw [hj]; exact hpos
    · rw [htab j hj]; exact id
  constructor
  · intro j
    have h1 := hc.ref j
    have h2 := live_update (x := x) (g := g) hcwd j
    have h3 := doomed_update (x := x) (g := g) (p := p) j
    by_cases hj : j = i
    · subst hj
      omega
    · rw [htab j hj]
      have := hw j hj
      have := hd j hj
      omega
  · intro j k hj hk he
    rw [hinum', hinum'] at he
    exact hc.uniq j k (hpos' j hj) (hpos' k hk) he
  · intro q t ht
    rw [hinum']
    by_cases hq : q = p
    · subst hq
      rw [update_self] at ht
      exact htok t ht
    · rw [update_of_ne hq] at ht
      exact hc.tok q t ht
  · intro q ht
    by_cases hq : q = p
    · subst hq
      rw [update_self] at ht
      exact htaken ht
    · rw [update_of_ne hq] at ht
      rw [hcwd q hq]
      exact hc.taken q ht

/-- The inode table, when a reference goes from one place to another. -/
theorem Counts.move (hc : Counts s g) (hcwd : ∀ q, q ≠ p → s'.cwd q = s.cwd q) (htab : s'.tab = s.tab)
    (hw : ∀ j, weight s' x p j + files s' j = weight s (g p) p j + files s j) (hd : x.dead = (g p).dead)
    (htok : ∀ t ∈ x.tok, (s.tab t.1).inum = t.2) (htaken : x.taken = true → s'.cwd p ≠ none) :
    Counts s' (update g p x) := by
  apply hc.change (i := 0) hcwd
  · exact fun j _ => congrFun htab j
  · rw [htab]
  · rw [htab]
    exact id
  · exact fun j _ => hw j
  · exact fun j _ => Ghost.deadAt_congr hd j
  · rw [htab, hw, Ghost.deadAt_congr hd]
  · exact htok
  · exact htaken

theorem liveIno_same (hcwd : ∀ q, q ≠ p → s'.cwd q = s.cwd q) (htab : ∀ j, (s'.tab j).inum = (s.tab j).inum)
    (hw : ∀ j, weight s' x p j + files s' j = weight s (g p) p j + files s j) (n : Nat) :
    liveIno s' (update g p x) n = liveIno s g n := by
  refine Finset.sum_congr rfl fun j _ => ?_
  have h1 := live_update (x := x) (g := g) hcwd j
  have h2 := hw j
  have h3 : live s' (update g p x) j = live s g j := by omega
  rw [htab, h3]

/-- The references to inodes, when those of one process to one entry change. -/
theorem liveIno_move (a b : Nat) (hcwd : ∀ q, q ≠ p → s'.cwd q = s.cwd q)
    (hinum : ∀ j, (s'.tab j).inum = (s.tab j).inum)
    (hw : ∀ j, j ≠ i → weight s' x p j + files s' j = weight s (g p) p j + files s j)
    (hi : weight s' x p i + files s' i + a = weight s (g p) p i + files s i + b) (m : Nat) :
    liveIno s' (update g p x) m + (if (s.tab i).inum = m then a else 0) =
      liveIno s g m + if (s.tab i).inum = m then b else 0 := by
  have h1 := live_update (x := x) (g := g) hcwd
  have hl : ∀ j, j ≠ i → live s' (update g p x) j = live s g j := by
    intro j hj
    have := h1 j
    have := hw j hj
    omega
  have h2 := liveIno_change i hl (fun j _ => hinum j) m
  have h3 := h1 i
  rw [hinum] at h2
  by_cases hm : (s.tab i).inum = m
  · rw [if_pos hm, if_pos hm] at h2 ⊢
    omega
  · rw [if_neg hm, if_neg hm] at h2 ⊢
    omega

/-- One reference more. -/
theorem weight_cons (hT : x.tok = (i, n) ::ₘ y.tok) (ht : x.taken = y.taken) (hc : s.cwd p = s'.cwd p)
    (j : Fin NINODE) : weight s x p j = weight s' y p j + if i = j then 1 else 0 := by
  rw [weight, weight, hT, ht, hc, Multiset.countP_cons]
  simp only
  omega

theorem weight_give (j : Fin NINODE) : weight s (x.give i n) p j = weight s x p j + if i = j then 1 else 0 :=
  weight_cons (by rfl) (by rfl) (by rfl) j

/-- A change to the count or to the validity of an entry, for the locks. -/
theorem Locks.setTab (hl : Locks s g) {e : ItabEntry P} (hlock : e.lock = (s.tab i).lock)
    (hown : ∀ q h, (g q).own i = some h → e.inum = (s.tab i).inum ∧ e.valid = (s.tab i).valid)
    (hx : ∀ j, (x.own j).map Held.inum = ((g p).own j).map Held.inum)
    (htok : ∀ t ∈ (g p).tok, ((g p).own t.1).isSome → t ∈ x.tok) : Locks (s.setTab i e) (update g p x) := by
  refine hl.congr ?_ ?_ (fun q j h fd f _ hfd hf => ⟨hfd, hf⟩) hx fun t ht hs => .inl (htok t ht hs)
  · intro j
    by_cases hj : j = i
    · rw [hj, setTab_self, hlock]
    · rw [setTab_of_ne e hj]
  · intro q j h ho
    by_cases hj : j = i
    · subst hj
      rw [setTab_self]
      exact hown q h ho
    · rw [setTab_of_ne e hj]
      exact ⟨rfl, rfl⟩

/-- A lock is released, and the entry may become invalid. -/
theorem Locks.release (hl : Locks s g) (ho : (g p).own i = some h) (v : Bool)
    (hx : x.own = update (g p).own i none) (htok : ∀ t ∈ (g p).tok, t.1 ≠ i → t ∈ x.tok) :
    Locks (s.setTab i { s.tab i with valid := v, lock := none }) (update g p x) := by
  have hlock : (s.tab i).lock = some p := (hl.lock i p).mpr (by rw [ho]; rfl)
  constructor
  · intro j q
    by_cases hj : j = i
    · subst hj
      rw [setTab_self]
      by_cases hq : q = p
      · subst hq
        simp [hx]
      · rw [update_of_ne hq, ← hl.lock, hlock]
        simpa using fun he : p = q => hq he.symm
    · rw [setTab_of_ne _ hj, hl.lock]
      by_cases hq : q = p
      · subst hq
        simp [hx, hj]
      · rw [update_of_ne hq]
  · intro q j k hk
    by_cases hq : q = p
    · subst hq
      rw [update_self, hx] at hk
      rw [update_self]
      have hj : j ≠ i := by
        rintro rfl
        rw [update_self] at hk
        cases hk
      rw [update_of_ne hj] at hk
      rw [setTab_of_ne _ hj]
      obtain ⟨h1, h2, h3⟩ := hl.own q j k hk
      exact ⟨h1, h2, h3.imp_left fun ht => htok _ ht hj⟩
    · rw [update_of_ne hq] at hk ⊢
      have hj : j ≠ i := by
        rintro rfl
        have := (hl.lock j q).mpr (by rw [hk]; rfl)
        exact hq (Option.some.inj (this.symm.trans hlock))
      rw [setTab_of_ne _ hj]
      exact hl.own q j k hk

namespace RefInv

variable (hr : RefInv s g)
include hr

/-- One entry changes, and with it the references and the locks of one process. -/
theorem retab {e : ItabEntry P} (hl : Locks (s.setTab i e) (update g p x)) (hinum : e.inum = (s.tab i).inum)
    (hpos : 0 < e.ref → 0 < (s.tab i).ref) (hw : ∀ j, j ≠ i → weight s x p j = weight s (g p) p j)
    (hd : ∀ j, j ≠ i → x.deadAt j = (g p).deadAt j)
    (hi : e.ref + (weight s (g p) p i + (g p).deadAt i) = (s.tab i).ref + (weight s x p i + x.deadAt i))
    (htok : ∀ t ∈ x.tok, (s.tab t.1).inum = t.2)
    (hx : x.taken = (g p).taken ∧ x.closed = (g p).closed ∧ x.up = (g p).up ∧ x.child = (g p).child) :
    RefInv (s.setTab i e) (update g p x) := by
  refine ⟨?_, hl, ⟨hr.files.ref, hr.files.ip⟩, hr.procs.congr (fun _ _ => rfl) rfl rfl hx.2.1 hx.2.2.1 hx.2.2.2⟩
  apply hr.counts.change
  · exact fun _ _ => rfl
  · exact fun j hj => setTab_of_ne _ hj
  · rwa [setTab_self]
  · rwa [setTab_self]
  · exact fun j hj => congrArg (· + Fs.files s j) (hw j hj)
  · exact hd
  · have h1 : weight (s.setTab i e) x p i = weight s x p i := rfl
    have h2 : Fs.files (s.setTab i e) i = Fs.files s i := rfl
    rw [setTab_self, h1, h2]
    omega
  · exact htok
  · rw [hx.1]
    exact hr.counts.taken p

/-- One more reference to an entry in use. -/
theorem dup (hi : 0 < (s.tab i).ref) : RefInv (s.incRef i) (update g p ((g p).give i (s.tab i).inum)) := by
  refine hr.retab ?_ rfl (fun _ => hi) (fun j hj => ?_) (fun _ _ => rfl) ?_ (fun t ht => ?_) ⟨rfl, rfl, rfl, rfl⟩
  · exact hr.locks.setTab rfl (fun _ _ _ => ⟨rfl, rfl⟩) (fun _ => rfl) fun t ht _ => Multiset.mem_cons_of_mem ht
  · rw [weight_give, if_neg (Ne.symm hj)]
    rfl
  · have hd : ((g p).give i (s.tab i).inum).deadAt i = (g p).deadAt i := rfl
    rw [weight_give, if_pos rfl, hd]
    dsimp only
    omega
  · obtain rfl | ht := Multiset.mem_cons.mp ht
    · rfl
    · exact hr.counts.tok p t ht

/-- An unused entry becomes that of an inode that has none. -/
theorem recycle (hi : (s.tab i).ref = 0) (hn : ∀ j, 0 < (s.tab j).ref → (s.tab j).inum ≠ n) :
    RefInv (s.setTab i ⟨n, 1, false, (s.tab i).lock⟩) (update g p ((g p).give i n)) := by
  have hlive : live s g i = 0 := Nat.le_zero.mp (hi ▸ hr.live_le i)
  have hne : ∀ q m, (i, m) ∉ (g q).tok := fun q m ht => by
    have := live_of_tok (s := s) ht
    omega
  have htok : ∀ q t, t ∈ (g q).tok → ((s.setTab i ⟨n, 1, false, (s.tab i).lock⟩).tab t.1).inum = t.2 := by
    intro q t ht
    have : t.1 ≠ i := fun he => hne q t.2 (he ▸ ht)
    rw [setTab_of_ne _ this]
    exact hr.counts.tok q t ht
  refine ⟨⟨?_, ?_, ?_, ?_⟩, ?_, ⟨hr.files.ref, hr.files.ip⟩, hr.procs.congr (fun _ _ => rfl) rfl rfl rfl rfl rfl⟩
  · intro j
    have h1 := hr.counts.ref j
    have h2 : live (s.setTab i ⟨n, 1, false, (s.tab i).lock⟩) (update g p ((g p).give i n)) j +
        (weight s (g p) p j + Fs.files s j) =
        live s g j + (weight s ((g p).give i n) p j + Fs.files s j) := live_update (fun _ _ => rfl) j
    have h3 : doomed (update g p ((g p).give i n)) j + (g p).deadAt j = doomed g j + (g p).deadAt j := doomed_update j
    rw [weight_give] at h2
    by_cases hj : j = i
    · subst hj
      rw [setTab_self]
      rw [if_pos rfl] at h2
      dsimp only
      omega
    · rw [setTab_of_ne _ hj]
      rw [if_neg (Ne.symm hj)] at h2
      omega
  · intro j k hj hk he
    by_cases hji : j = i
    · by_cases hki : k = i
      · rw [hji, hki]
      · rw [hji, setTab_self, setTab_of_ne _ hki] at he
        rw [setTab_of_ne _ hki] at hk
        exact absurd he.symm (hn k hk)
    · by_cases hki : k = i
      · rw [hki, setTab_self, setTab_of_ne _ hji] at he
        rw [setTab_of_ne _ hji] at hj
        exact absurd he (hn j hj)
      · rw [setTab_of_ne _ hji] at hj he
        rw [setTab_of_ne _ hki] at hk he
        exact hr.counts.uniq j k hj hk he
  · intro q t ht
    by_cases hq : q = p
    · subst hq
      rw [update_self] at ht
      obtain rfl | ht := Multiset.mem_cons.mp ht
      · rw [setTab_self]
      · exact htok q t ht
    · rw [update_of_ne hq] at ht
      exact htok q t ht
  · refine (Function.forall_update_iff g fun q z => z.taken = true → s.cwd q ≠ none).mpr ⟨?_, ?_⟩
    · exact hr.counts.taken p
    · exact fun q _ => hr.counts.taken q
  · refine hr.locks.setTab rfl (fun q h ho => ?_) (fun _ => rfl) fun t ht _ => Multiset.mem_cons_of_mem ht
    have := hr.live_of_own ho
    omega

/-- `iput` takes the reference of the current directory. -/
theorem take (hc : s.cwd p = some i) (ht : (g p).taken = false) :
    RefInv s (update g p { (g p).give i (s.tab i).inum with taken := true }) := by
  have hw : ∀ j, weight s { (g p).give i (s.tab i).inum with taken := true } p j = weight s (g p) p j := by
    simp [weight, Ghost.give, Multiset.countP_cons, hc, ht]
  refine ⟨?_, ?_, hr.files, hr.procs.congr (fun _ _ => rfl) rfl rfl rfl rfl rfl⟩
  · apply hr.counts.move
    · exact fun _ _ => rfl
    · rfl
    · exact fun j => by rw [hw]
    · rfl
    · intro t ht
      obtain rfl | ht := Multiset.mem_cons.mp ht
      · rfl
      · exact hr.counts.tok p t ht
    · intro _
      rw [hc]
      exact Option.some_ne_none i
  · exact hr.locks.keep rfl rfl rfl rfl fun t ht => Multiset.mem_cons_of_mem ht

/-- A reference becomes that of the current directory. -/
theorem setCwd (ht : (g p).taken = true) (hT : (g p).tok = (i, n) ::ₘ T) (ho : (g p).own i = none) :
    RefInv (s.setCwd p (some i)) (update g p { g p with tok := T, taken := false }) := by
  have hcwd : ∀ q, q ≠ p → (s.setCwd p (some i)).cwd q = s.cwd q := fun q hq => by simp [FsState.setCwd, hq]
  have hw : ∀ j, weight (s.setCwd p (some i)) { g p with tok := T, taken := false } p j = weight s (g p) p j := by
    simp [weight, hT, Multiset.countP_cons, ht, FsState.setCwd]
  have hne : s.cwd p ≠ none := hr.counts.taken p ht
  refine ⟨?_, ?_, ⟨hr.files.ref, hr.files.ip⟩, hr.procs.congr (fun q hq => hcwd q ?_) rfl rfl rfl rfl rfl⟩
  · apply hr.counts.move hcwd
    · rfl
    · intro j
      rw [hw]
      rfl
    · rfl
    · intro t ht
      exact hr.counts.tok p t (hT ▸ Multiset.mem_cons_of_mem ht)
    · exact fun h => absurd h Bool.false_ne_true
  · refine hr.locks.congr (fun _ => rfl) (fun _ _ _ _ => ⟨rfl, rfl⟩) (fun _ _ _ _ _ _ h1 h2 => ⟨h1, h2⟩)
      (fun _ => rfl) fun t ht hs => .inl ?_
    rw [hT] at ht
    obtain rfl | ht := Multiset.mem_cons.mp ht
    · rw [ho] at hs
      exact absurd hs Bool.false_ne_true
    · exact ht
  · rintro rfl
    exact hne (hr.procs.idle q hq).1

/-- `ip->ref--` with the reference it stands for. -/
theorem drop (hT : (g p).tok = (i, n) ::ₘ T)
    (ho : (g p).own i = none ∨ (i, n) ∈ T) : RefInv (s.decRef i) (update g p { g p with tok := T }) := by
  have hw : ∀ j, weight s (g p) p j = weight s { g p with tok := T } p j + if i = j then 1 else 0 :=
    weight_cons hT rfl rfl
  have hpos : 0 < (s.tab i).ref := by
    refine Nat.lt_of_lt_of_le (live_of_tok (p := p) (n := n) ?_) (hr.live_le i)
    rw [hT]
    exact Multiset.mem_cons_self _ _
  refine hr.retab ?_ rfl (fun _ => hpos) (fun j hj => ?_) (fun _ _ => rfl) ?_
    (fun t ht => hr.counts.tok p t (hT ▸ Multiset.mem_cons_of_mem ht)) ⟨rfl, rfl, rfl, rfl⟩
  rotate_left
  · rw [hw, if_neg (Ne.symm hj)]
    rfl
  · have h3 : { g p with tok := T }.deadAt i = (g p).deadAt i := rfl
    rw [hw, if_pos rfl, h3]
    dsimp only
    omega
  · refine hr.locks.setTab rfl (fun _ _ _ => ⟨rfl, rfl⟩) (fun _ => rfl) fun t ht hs => ?_
    rw [hT] at ht
    obtain rfl | ht := Multiset.mem_cons.mp ht
    · rcases ho with ho | ho
      · rw [ho] at hs
        exact absurd hs Bool.false_ne_true
      · exact ho
    · exact ht

/-- `ip->ref--` after the inode has been freed. -/
theorem dropDead (hd : (g p).dead = some i) : RefInv (s.decRef i) (update g p { g p with dead := none }) := by
  have hd1 : (g p).deadAt i = 1 := if_pos hd
  have hpos : 0 < (s.tab i).ref := by
    have h1 := Finset.single_le_sum (f := fun q => (g q).deadAt i) (fun q _ => Nat.zero_le _) (Finset.mem_univ p)
    have h2 := hr.counts.ref i
    unfold doomed at h2
    omega
  refine hr.retab ?_ rfl (fun _ => hpos) (fun _ _ => rfl) (fun j hj => ?_) ?_ (hr.counts.tok p) ⟨rfl, rfl, rfl, rfl⟩
  · exact hr.locks.setTab rfl (fun _ _ _ => ⟨rfl, rfl⟩) (fun _ => rfl) fun _ ht _ => ht
  · simp [Ghost.deadAt, hd, Ne.symm hj]
  · have h1 : weight s { g p with dead := none } p i = weight s (g p) p i := rfl
    have h3 : { g p with dead := none }.deadAt i = 0 := rfl
    rw [hd1, h1, h3]
    dsimp only
    omega

/-- The inode's sleep-lock is acquired, and its copy is valid. -/
theorem lock (hl : (s.tab i).lock = none) (ht : (i, h.inum) ∈ (g p).tok) :
    RefInv (s.setTab i { s.tab i with valid := true, lock := some p }) (update g p ((g p).hold i h)) := by
  have hown : ∀ q, (g q).own i = none := by
    intro q
    by_contra hn
    have := (hr.locks.lock i q).mpr (Option.isSome_iff_ne_none.mpr hn)
    rw [hl] at this
    cases this
  refine hr.retab ⟨?_, ?_⟩ rfl id (fun _ _ => rfl) (fun _ _ => rfl) rfl (hr.counts.tok p) ⟨rfl, rfl, rfl, rfl⟩
  · intro j q
    by_cases hj : j = i
    · subst hj
      rw [setTab_self]
      by_cases hq : q = p
      · subst hq
        simp [Ghost.hold]
      · rw [update_of_ne hq, hown q]
        simpa using fun he : p = q => hq he.symm
    · rw [setTab_of_ne _ hj, hr.locks.lock]
      by_cases hq : q = p
      · subst hq
        simp [Ghost.hold, hj]
      · rw [update_of_ne hq]
  · intro q j k hk
    by_cases hq : q = p
    · subst hq
      rw [update_self] at hk ⊢
      by_cases hj : j = i
      · subst hj
        have : k = h := by simpa [Ghost.hold, eq_comm] using hk
        subst this
        rw [setTab_self]
        exact ⟨hr.counts.tok q _ ht, rfl, .inl ht⟩
      · rw [setTab_of_ne _ hj]
        exact hr.locks.own q j k (by simpa [Ghost.hold, hj] using hk)
    · rw [update_of_ne hq] at hk ⊢
      have hj : j ≠ i := by
        rintro rfl
        rw [hown q] at hk
        cases hk
      rw [setTab_of_ne _ hj]
      exact hr.locks.own q j k hk

/-- The inode's sleep-lock is released. -/
theorem unlock (ho : (g p).own i = some h) :
    RefInv (s.setTab i { s.tab i with lock := none }) (update g p ((g p).unhold i)) := by
  refine hr.retab ?_ rfl id (fun _ _ => rfl) (fun _ _ => rfl) rfl (hr.counts.tok p) ⟨rfl, rfl, rfl, rfl⟩
  exact hr.locks.release ho (s.tab i).valid rfl fun _ ht _ => ht

/-- The inode is freed: its reference is one no more, and its sleep-lock is released. -/
theorem free (ho : (g p).own i = some h) (hT : (g p).tok = (i, n) ::ₘ T) (hd : (g p).dead = none) :
    RefInv (s.setTab i { s.tab i with valid := false, lock := none })
      (update g p { (g p).unhold i with tok := T, dead := some i }) := by
  have hw : ∀ j, weight s (g p) p j = weight s { (g p).unhold i with tok := T, dead := some i } p j +
      if i = j then 1 else 0 := weight_cons hT rfl rfl
  have hd0 : ∀ j, (g p).deadAt j = 0 := fun j => by simp [Ghost.deadAt, hd]
  refine hr.retab ?_ rfl id (fun j hj => ?_) (fun j hj => ?_) ?_
    (fun t ht => hr.counts.tok p t (hT ▸ Multiset.mem_cons_of_mem ht)) ⟨rfl, rfl, rfl, rfl⟩
  · refine hr.locks.release ho false rfl fun t ht hne => ?_
    rw [hT] at ht
    exact (Multiset.mem_cons.mp ht).resolve_left fun he => hne (by rw [he])
  · rw [hw, if_neg (Ne.symm hj)]
    rfl
  · rw [hd0]
    exact if_neg fun he => hj (Option.some.inj he).symm
  · have h3 : { (g p).unhold i with tok := T, dead := some i }.deadAt i = 1 := if_pos rfl
    rw [hw, if_pos rfl, h3, hd0]

end RefInv

/-- The references do not depend on the inodes. -/
theorem liveIno_congr (htab : s'.tab = s.tab) (hcwd : s'.cwd = s.cwd) (hfile : s'.file = s.file) :
    liveIno s' g = liveIno s g := by
  funext n
  simp only [liveIno, live, weight, files, htab, hcwd, hfile]

theorem exists_of_liveIno_pos (h : 0 < liveIno s g n) : ∃ i, (s.tab i).inum = n ∧ 0 < live s g i := by
  obtain ⟨i, -, hi⟩ := Finset.exists_ne_zero_of_sum_ne_zero (Nat.ne_of_gt h)
  split at hi
  · next he => exact ⟨i, he, Nat.pos_of_ne_zero hi⟩
  · exact absurd rfl hi

end Moves

-- A sum over the whole inode table is never to be computed.
attribute [irreducible] liveIno

end Xv6.Fs
