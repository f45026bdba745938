import Xv6.Disk.FileIo

/-!
# Processes that share an open file

Any number of processes call `fileread` and `filewrite` on one `struct file` with an inode. Its field `off` has no lock of
its own: it is read and advanced by the process that holds the sleep-lock of the inode. A step is one call of `begin_op`,
`ilock`, `readi`, `writei`, `iunlock` or `end_op` by one process, or one load or store of `off`.

`chunks` are the calls of `readi` and `writei` that have moved bytes, in order, and `returned` the calls of `filewrite` that
have returned; both only record what has happened.

The lemmas before the model say what each of these functions does to the file: it keeps the file fit for use (`Fine`), and
the bytes below the position of a write stay (`Grown`).
-/

namespace Xv6.Disk

open Lib

variable {sb : Superblock} {s s' : State} {ip : Fin NINODE} {E : String → Prop}

/-! ## The file -/

namespace State

def size (s : State) (ip : Fin NINODE) : Nat := (s.itable ip).size.toNat

def byte (s : State) (ip : Fin NINODE) (p : Nat) : Byte := byteAt s.mem (s.itable ip).toDinode p

end State

/-- The inode is in use and has no holes, and the log can be committed. -/
structure Fine (sb : Superblock) (ip : Fin NINODE) (s : State) : Prop where
  loaded : Loaded sb s ip
  sync : Synced sb s ip
  noHoles : NoHoles s.mem (s.itable ip).toDinode
  home : ∀ b ∈ s.lh, sb.Home b
  len : s.Short
  valid : (s.itable ip).valid = true
  ref : 1 ≤ (s.itable ip).ref

/-- The file has not become shorter, and its first `k` bytes are the same. -/
structure Grown (ip : Fin NINODE) (k : Nat) (s s' : State) : Prop where
  size : s.size ip ≤ s'.size ip
  byte : ∀ p, p < k → p < s.size ip → s'.byte ip p = s.byte ip p

section Fine

/-- A change to the lock. -/
theorem Fine.setLocked (h : Fine sb ip s) (b : Bool) : Fine sb ip (s.setInode ip fun i => { i with locked := b }) := by
  have hlight : Light (fun i => { i with locked := b }) (s.itable ip) := by
    refine ⟨rfl, rfl, ?_⟩
    have ht := h.loaded.live.2.2
    rw [ino_self] at ht
    exact ht
  have hself := setInode_self s ip fun i => { i with locked := b }
  refine ⟨setInode_loaded h.loaded hlight, ?_, ?_, h.home, h.len, ?_, ?_⟩
  · have hs := h.sync
    unfold Synced State.ino at hs ⊢
    rw [hself]
    exact hs
  · rw [hself]
    exact h.noHoles
  · rw [hself]
    exact h.valid
  · rw [hself]
    exact h.ref

theorem locked_setLocked (s : State) (b : Bool) :
    ((s.setInode ip fun i => { i with locked := b }).itable ip).locked = b := by rw [setInode_self]

theorem grown_setLocked (k : Nat) (b : Bool) : Grown ip k s (s.setInode ip fun i => { i with locked := b }) := by
  have hself := setInode_self s ip fun i => { i with locked := b }
  refine ⟨?_, fun p _ _ => ?_⟩
  · unfold State.size
    rw [hself]
  · unfold State.byte
    rw [hself]
    rfl

variable (h : Fine sb ip s)
include h

theorem ilock_fine : Ensures (ilock sb ip) s (fun _ s' => (s.itable ip).locked = false ∧
    s' = s.setInode ip fun i => { i with locked := true }) (fun _ => True) := by
  by_cases hl : (s.itable ip).locked = true
  · refine .of_error (e := "acquiresleep sleeps") ?_ trivial
    have hr : ¬ (s.itable ip).ref < 1 := by
      have := h.ref
      omega
    have heq : ilock sb ip s = (if (s.itable ip).ref < 1 then panic "ilock"
        else if (s.itable ip).locked then throw "acquiresleep sleeps" else _) s := rfl
    rw [heq, if_neg hr, if_pos hl]
    rfl
  · refine (ilock_spec (fun _ => trivial) (fun _ => trivial) (fun _ _ => trivial)).mono ?_
    rintro _ _ ⟨-, -, rfl⟩
    refine ⟨Bool.eq_false_iff.mpr hl, setInode_congr ?_⟩
    rw [load, if_pos h.valid]

theorem iunlock_fine (hl : (s.itable ip).locked = true) :
    Ensures (iunlock ip) s (fun _ s' => s' = s.setInode ip fun i => { i with locked := false }) E :=
  iunlock_spec hl h.ref

/-- A commit changes only the blocks of the log. -/
theorem Fine.homeEq (hsb : sb.Ok) (hmem : HomeEq sb s.mem s'.mem) (htab : s'.itable = s.itable)
    (hlh : ∀ b ∈ s'.lh, b ∈ s.lh) (hlen : s'.Short) : Fine sb ip s' ∧ Grown ip (s.size ip) s s' := by
  have hdino : dino sb s'.mem = dino sb s.mem := hmem.dino hsb
  have hino : s'.ino sb ip = s.ino sb ip := by
    unfold State.ino
    rw [htab, hdino]
  have hacc := h.loaded.acc
  have hlive := h.loaded.live
  rw [h.sync] at hacc hlive
  have hself : (s.itable ip).toDinode = dino sb s.mem (s.itable ip).inum := by
    rw [← h.sync, ino_self]
  have hself' : (s'.itable ip).toDinode = dino sb s'.mem (s.itable ip).inum := by
    rw [htab, hdino, hself]
  have hapart : Apart sb (fun _ => False) s.mem s'.mem := hmem.apart hsb hacc
  have hno := h.noHoles
  rw [hself] at hno
  refine ⟨⟨⟨?_, ?_⟩, ?_, ?_, fun b hb => h.home b (hlh b hb), hlen, by rw [htab]; exact h.valid,
    by rw [htab]; exact h.ref⟩, ⟨?_, fun p _ hp => ?_⟩⟩
  · rw [hino, h.sync, ← hdino]
    exact hmem.acc hsb hacc
  · rw [hino, htab]
    exact h.loaded.live
  · unfold Synced
    rw [hino, h.sync, hdino]
  · rw [hself']
    exact hapart.noHoles not_false hlive hno
  · unfold State.size
    rw [htab]
  · unfold State.byte
    rw [hself, hself']
    refine hapart.byteAt not_false hlive (hno (p / 1024) ?_)
    have hp' : p < (s.itable ip).size.toNat := hp
    rw [hself] at hp'
    omega

theorem endOp_fine (hsb : sb.Ok) : Ensures (endOp sb) s (fun _ s' => Fine sb ip s' ∧
    Grown ip (s.size ip) s s' ∧ s'.itable = s.itable ∧ s'.outstanding = s.outstanding - 1) E := by
  refine .modify_bind (.get_bind ?_)
  by_cases h0 : s.outstanding - 1 = 0
  · rw [if_pos h0]
    have hhome : ∀ b ∈ { s with outstanding := s.outstanding - 1 }.lh, sb.Home b := h.home
    refine (commit_spec hhome h.len).mono ?_
    rintro _ s' ⟨hlh, hout, htab, hmem, -⟩
    have hshort : s'.Short := by
      unfold State.Short
      rw [hlh]
      exact Nat.zero_le _
    obtain ⟨hfine, hgrown⟩ := h.homeEq hsb hmem htab (by rw [hlh]; exact fun b hb => nomatch hb) hshort
    exact ⟨hfine, hgrown, htab, hout⟩
  · rw [if_neg h0]
    exact .pure ⟨⟨⟨h.loaded.acc, h.loaded.live⟩, h.sync, h.noHoles, h.home, h.len, h.valid, h.ref⟩,
      ⟨Nat.le_refl _, fun _ _ _ => rfl⟩, rfl, rfl⟩

/-- What a write does to the file: it returns -1, or it moves bytes to the given position. -/
theorem writei_fine {src : Source} {off n : BitVec 32} (hsb : sb.Ok) (hout : 1 ≤ s.outstanding) :
    Ensures (writei sb ip src off n) s (fun r s' => Fine sb ip s' ∧ Grown ip off.toNat s s' ∧
      s'.outstanding = s.outstanding ∧ (s'.itable ip).locked = (s.itable ip).locked ∧
      (r ≤ 0 ∨ ∃ tot : Nat, r = tot ∧ off.toNat + tot ≤ s'.size ip ∧
        ∀ j, j < tot → src.byte j = some (s'.byte ip (off.toNat + j)))) (fun _ => True) := by
  refine (writei_spec h.loaded h.sync hsb hout (.inl trivial)).mono ?_
  rintro r s' (⟨-, rfl, rfl⟩ | ⟨hnot, tot, rfl, hw⟩)
  · exact ⟨h, ⟨Nat.le_refl _, fun _ _ _ => rfl⟩, rfl, rfl, .inl (by decide)⟩
  · have h1 : off.toNat ≤ (s.itable ip).size.toNat := Nat.not_lt.mp fun h => hnot (.inl h)
    have h2 : off.toNat + n.toNat ≤ 268 * 1024 := Nat.not_lt.mp fun h => hnot (.inr h)
    have hsize := hw.size_eq h.noHoles h2
    refine ⟨⟨hw.loaded, hw.sync, hw.noHoles h.noHoles h1 h2, fun b hb => ?_, hw.len, ?_, ?_⟩, ⟨?_, fun p hk hp => ?_⟩,
      hw.outstanding, ?_, .inr ⟨tot, rfl, ?_, fun j hj => ?_⟩⟩
    · rcases hw.home b hb with hb | hb
      · exact h.home b hb
      · exact hb
    · rw [hw.core]
      exact h.valid
    · rw [hw.core]
      exact h.ref
    · unfold State.size
      omega
    · have hp' : p < (s.itable ip).size.toNat := hp
      exact hw.kept p (h.noHoles (p / 1024) (by omega)) (.inl hk)
    · rw [hw.core]
    · unfold State.size
      omega
    · have hj' := (hw.written (off.toNat + j) (by omega) (by omega)).2
      rw [Nat.add_sub_cancel_left] at hj'
      exact hj'

/-- What a read returns. -/
theorem readi_fine {alloc : FsM (BitVec 32)} {dst : Dest} {off n : BitVec 32} :
    Ensures (readi alloc ip dst off n) s (fun r s' => s' = s ∧
      (r.1 ≤ 0 ∨ r.1 = r.2.length ∧ off.toNat + r.2.length ≤ s.size ip ∧
        ∀ j, j < r.2.length → r.2[j]? = some (s.byte ip (off.toNat + j)))) E := by
  refine (readi_spec fun p _ _ hp => h.noHoles (p / 1024) (by omega)).mono ?_
  rintro r s₁ ⟨rfl, hr⟩
  refine ⟨rfl, ?_⟩
  rcases hr with rfl | ⟨hr, -⟩
  · unfold rangeOf
    split
    · rw [content_slice]
      have hlen : (bytesAt s₁.mem (s₁.itable ip).toDinode off.toNat (min n.toNat ((s₁.itable ip).size.toNat - off.toNat))).length =
          min n.toNat ((s₁.itable ip).size.toNat - off.toNat) := by simp [bytesAt]
      rw [hlen]
      by_cases h0 : min n.toNat ((s₁.itable ip).size.toNat - off.toNat) = 0
      · exact .inl (by omega)
      · refine .inr ⟨rfl, ?_, fun j hj => ?_⟩
        · unfold State.size
          omega
        · simp only [bytesAt, List.getElem?_map, List.getElem?_range hj]
          rfl
    · exact .inl (Int.le_refl _)
  · exact .inl (by omega)

end Fine

/-! ## The processes -/

/-- A call: `filewrite` of `n` bytes of which `i` are written, or `fileread`. -/
inductive Job
  | write (src : Source) (n : BitVec 32) (i : Nat)
  | read (dst : Dest) (n : BitVec 32)

/-- How far a call is, in one turn of the loop of `filewrite`: the last function that has returned, with the value of
`f->off` that was passed, or what it has returned. -/
inductive Stage
  | head
  | begun
  | locked
  | called (off : BitVec 32)
  | moved (r : Int)
  | added (r : Int) (off : BitVec 32)
  | stored (r : Int)
  | unlocked (r : Int)

/-- A call of `readi` or `writei` that has moved bytes. -/
structure Chunk (P : Type) where
  proc : P
  write : Bool
  start : Nat
  bytes : List (Option Byte)

/-- A call of `filewrite` that has returned `ret`, after it has written `count` bytes. -/
structure Returned where
  src : Source
  n : BitVec 32
  count : Nat
  ret : Int

/-- The file, its offset and the calls in progress. -/
structure Shared (P : Type) where
  fs : State
  off : BitVec 32
  call : P → Option (Job × Stage)
  chunks : List (Chunk P)
  returned : P → List Returned

/-- The number of bytes in the turn of `filewrite` that starts with byte `i`. -/
def chunkSize (n : BitVec 32) (i : Nat) : Nat := min (n.toInt.toNat - i) ((MAXOPBLOCKS - 1 - 1 - 2) / 2 * 1024)

/-- The first `k` bytes of a source, from byte `i` on. -/
def Source.bytes (src : Source) (i k : Nat) : List (Option Byte) := (List.range k).map fun j => src.byte (i + j)

namespace Shared

variable {P : Type} [DecidableEq P]

def go (s : Shared P) (p : P) (x : Option (Job × Stage)) : Shared P := { s with call := Function.update s.call p x }

/-- The call of `filewrite` by `p` returns. -/
def finish (s : Shared P) (p : P) (x : Returned) : Shared P :=
  { s.go p none with returned := Function.update s.returned p (s.returned p ++ [x]) }

/-- Bytes are moved. -/
def gain (s : Shared P) (r : Int) (c : Chunk P) : Shared P := if r > 0 then { s with chunks := s.chunks ++ [c] } else s

/-- One step of one process. -/
inductive Step (sb : Superblock) (ip : Fin NINODE) : Shared P → Shared P → Prop
  | callWrite {s : Shared P} {p : P} (src : Source) (n : BitVec 32) (h : s.call p = none) :
      Step sb ip s (s.go p (some (.write src n 0, .head)))
  | callRead {s : Shared P} {p : P} (dst : Dest) (n : BitVec 32) (h : s.call p = none) :
      Step sb ip s (s.go p (some (.read dst n, .head)))
  | begin {s : Shared P} {p : P} {src : Source} {n : BitVec 32} {i : Nat} {fs : State}
      (h : s.call p = some (.write src n i, .head)) (hi : (i : Int) < n.toInt) (he : beginOp s.fs = .ok ((), fs)) :
      Step sb ip s ({ s with fs := fs }.go p (some (.write src n i, .begun)))
  | ret {s : Shared P} {p : P} {src : Source} {n : BitVec 32} {i : Nat}
      (h : s.call p = some (.write src n i, .head)) (hi : ¬ (i : Int) < n.toInt) :
      Step sb ip s (s.finish p ⟨src, n, i, if (i : Int) = n.toInt then n.toInt else -1⟩)
  | lockWrite {s : Shared P} {p : P} {src : Source} {n : BitVec 32} {i : Nat} {fs : State}
      (h : s.call p = some (.write src n i, .begun)) (he : ilock sb ip s.fs = .ok ((), fs)) :
      Step sb ip s ({ s with fs := fs }.go p (some (.write src n i, .locked)))
  | lockRead {s : Shared P} {p : P} {dst : Dest} {n : BitVec 32} {fs : State}
      (h : s.call p = some (.read dst n, .head)) (he : ilock sb ip s.fs = .ok ((), fs)) :
      Step sb ip s ({ s with fs := fs }.go p (some (.read dst n, .locked)))
  | call {s : Shared P} {p : P} {job : Job} (h : s.call p = some (job, .locked)) :
      Step sb ip s (s.go p (some (job, .called s.off)))
  | write {s : Shared P} {p : P} {src : Source} {n : BitVec 32} {i : Nat} {off : BitVec 32} {r : Int} {fs : State}
      (h : s.call p = some (.write src n i, .called off))
      (he : writei sb ip (src.advance i) off (.ofNat 32 (chunkSize n i)) s.fs = .ok (r, fs)) :
      Step sb ip s (({ s with fs := fs }.gain r ⟨p, true, off.toNat, src.bytes i r.toNat⟩).go p
        (some (.write src n i, .moved r)))
  | read {s : Shared P} {p : P} {dst : Dest} {n : BitVec 32} {off : BitVec 32} {r : Int} {out : List Byte} {fs : State}
      (h : s.call p = some (.read dst n, .called off)) (he : readi (balloc sb) ip dst off n s.fs = .ok ((r, out), fs)) :
      Step sb ip s (({ s with fs := fs }.gain r ⟨p, false, off.toNat, out.map some⟩).go p (some (.read dst n, .moved r)))
  | load {s : Shared P} {p : P} {job : Job} {r : Int} (h : s.call p = some (job, .moved r)) (hr : r > 0) :
      Step sb ip s (s.go p (some (job, .added r s.off)))
  | skip {s : Shared P} {p : P} {job : Job} {r : Int} (h : s.call p = some (job, .moved r)) (hr : ¬ r > 0) :
      Step sb ip s (s.go p (some (job, .stored r)))
  | store {s : Shared P} {p : P} {job : Job} {r : Int} {off : BitVec 32} (h : s.call p = some (job, .added r off)) :
      Step sb ip s ({ s with off := off + BitVec.ofInt 32 r }.go p (some (job, .stored r)))
  | unlock {s : Shared P} {p : P} {job : Job} {r : Int} {fs : State} (h : s.call p = some (job, .stored r))
      (he : iunlock ip s.fs = .ok ((), fs)) : Step sb ip s ({ s with fs := fs }.go p (some (job, .unlocked r)))
  | turn {s : Shared P} {p : P} {src : Source} {n : BitVec 32} {i : Nat} {r : Int} {fs : State}
      (h : s.call p = some (.write src n i, .unlocked r)) (hr : r = chunkSize n i) (he : endOp sb s.fs = .ok ((), fs)) :
      Step sb ip s ({ s with fs := fs }.go p (some (.write src n (i + chunkSize n i), .head)))
  | fail {s : Shared P} {p : P} {src : Source} {n : BitVec 32} {i : Nat} {r : Int} {fs : State}
      (h : s.call p = some (.write src n i, .unlocked r)) (hr : r ≠ chunkSize n i) (he : endOp sb s.fs = .ok ((), fs)) :
      Step sb ip s ({ s with fs := fs }.finish p ⟨src, n, i + r.toNat, -1⟩)
  | retRead {s : Shared P} {p : P} {dst : Dest} {n : BitVec 32} {r : Int} (h : s.call p = some (.read dst n, .unlocked r)) :
      Step sb ip s (s.go p none)

end Shared

end Xv6.Disk
