import Mathlib.Data.Fintype.Pi
import Xv6.Lib.Bytes
import Xv6.Lib.Index
import Xv6.Lib.Owned

/-!
# The format of a disk

`fs.h`: where the superblock, the log, the inodes and the bitmap lie, and how an inode, a bitmap bit and a directory entry are
stored in the bytes of a block. What a disk says is a function of its blocks `m : Nat → Bytes`: the inode `dino sb m i`, the
bit `bit sb m b`, the block number `slot m d k` in a slot of an inode, and the bytes of its file. The same functions are used
of an image that `mkfs` writes, of the disk of the kernel and of the cached blocks.

The constants of `fs.h` are written out where they are computed with: `BSIZE` is 1024, `sizeof(struct dinode)` 64 and
`IPB` 16, `BPB` 8192, `NDIRECT` 12, `NINDIRECT` 256 and `MAXFILE` 268; a directory entry has 16 bytes.

- `Acc`: block accounting: a bit is set exactly for the metadata and for the blocks in slots, each in one slot.
-/

namespace Xv6.Disk

open Lib

/-- Length of a name in a directory. -/
abbrev DIRSIZ : Nat := 14
/-- Inode number of the root directory. -/
abbrev ROOTINO : Nat := 1
abbrev FSMAGIC : Nat := 0x10203040

abbrev T_DIR : BitVec 16 := 1
abbrev T_FILE : BitVec 16 := 2
abbrev T_DEVICE : BitVec 16 := 3

/-- The blocks of a disk. -/
abbrev Blocks := Nat → Bytes

/-! ## The superblock -/

structure Superblock where
  magic : Nat
  size : Nat
  nblocks : Nat
  ninodes : Nat
  nlog : Nat
  logstart : Nat
  inodestart : Nat
  bmapstart : Nat
  deriving DecidableEq

namespace Superblock

variable (sb : Superblock)

/-- The first data block. -/
def nmeta : Nat := sb.size - sb.nblocks

/-- The block that holds inode `i`. -/
def iblock (i : Nat) : Nat := i / 16 + sb.inodestart

/-- The block that holds the bit of block `b`. -/
def bblock (b : Nat) : Nat := b / 8192 + sb.bmapstart

/-- A block outside the log. -/
def Home (b : Nat) : Prop := b < sb.logstart ∨ sb.logstart + 30 < b

/-- The log, the inodes, the bitmap and the data blocks follow one another. -/
structure Ok : Prop where
  log : sb.logstart + 30 < sb.inodestart
  inodes : sb.inodestart + sb.ninodes / 16 < sb.bmapstart
  bmap : sb.bmapstart + sb.size / 8192 < sb.nmeta
  small : sb.size < 2 ^ 31

variable {sb} {i b : Nat}

variable (h : sb.Ok)
include h

theorem Ok.nmeta_pos : 0 < sb.nmeta := by
  have := h.bmap
  omega

theorem Ok.iblock_lt (hi : i < sb.ninodes) : sb.iblock i < sb.bmapstart := by
  have h1 := h.inodes
  unfold iblock
  omega

theorem Ok.bblock_lt (hb : b < sb.size) : sb.bblock b < sb.nmeta := by
  have h1 := h.bmap
  unfold bblock
  omega

theorem Ok.iblock_ne_bblock (hi : i < sb.ninodes) : sb.iblock i ≠ sb.bblock b := by
  have h1 := h.iblock_lt hi
  unfold bblock
  omega

theorem Ok.iblock_lt_nmeta (hi : i < sb.ninodes) : sb.iblock i < sb.nmeta := by
  have h1 := h.iblock_lt hi
  have h2 := h.bmap
  omega

theorem Ok.home_iblock (i : Nat) : sb.Home (sb.iblock i) := by
  have h1 := h.log
  unfold Home iblock
  omega

theorem Ok.home_bblock (b : Nat) : sb.Home (sb.bblock b) := by
  have h1 := h.log
  have h2 := h.inodes
  unfold Home bblock
  omega

theorem Ok.home_data (hb : sb.nmeta ≤ b) : sb.Home b := by
  have h1 := h.log
  have h2 := h.inodes
  have h3 := h.bmap
  unfold Home
  omega

end Superblock

/-! ## Inodes -/

/-- `struct dinode`. -/
structure Dinode where
  type : BitVec 16
  major : BitVec 16
  minor : BitVec 16
  nlink : BitVec 16
  size : BitVec 32
  addrs : Fin 13 → BitVec 32
  deriving DecidableEq

/-- `memset(dip, 0, sizeof(*dip))`. -/
def Dinode.zero : Dinode := ⟨0, 0, 0, 0, 0, fun _ => 0⟩

def getDinode (b : Bytes) (o : Nat) : Dinode where
  type := get16 b o
  major := get16 b (o + 2)
  minor := get16 b (o + 4)
  nlink := get16 b (o + 6)
  size := get32 b (o + 8)
  addrs k := get32 b (o + 12 + 4 * k)

/-- The bytes of an array of addresses. -/
def addrBytes (addrs : Fin 13 → BitVec 32) : Bytes :=
  fun j => if h : j / 4 < 13 then bytesOf (addrs ⟨j / 4, h⟩) (j % 4) else 0

/-- What `iupdate` does to the block of the inode. -/
def putDinode (b : Bytes) (o : Nat) (d : Dinode) : Bytes :=
  let b := put16 b o d.type
  let b := put16 b (o + 2) d.major
  let b := put16 b (o + 4) d.minor
  let b := put16 b (o + 6) d.nlink
  let b := put32 b (o + 8) d.size
  splice b (o + 12) (52) (addrBytes d.addrs)

section Dinode

variable {b b' : Bytes} {o o' : Nat} {d : Dinode}

theorem getDinode_congr (h : Agree b b' o 64) : getDinode b o = getDinode b' o := by
  have haddrs : (getDinode b o).addrs = (getDinode b' o).addrs :=
    funext fun k => get32_congr (h.sub (by omega) (by omega))
  unfold getDinode at haddrs ⊢
  dsimp only at haddrs
  rw [get16_congr (h.sub (Nat.le_refl o) (by omega)), get16_congr (h.sub (Nat.le_add_right o 2) (by omega)),
    get16_congr (h.sub (Nat.le_add_right o 4) (by omega)), get16_congr (h.sub (Nat.le_add_right o 6) (by omega)),
    get32_congr (h.sub (Nat.le_add_right o 8) (by omega)), haddrs]

/-- Writing an inode leaves the bytes around it alone. -/
theorem agree_putDinode {n : Nat} (h : o' + n ≤ o ∨ o + 64 ≤ o') : Agree (putDinode b o d) b o' n := by
  intro j h1 h2
  unfold putDinode put16 put32
  rw [splice_outside (by omega), splice_outside (by omega), splice_outside (by omega), splice_outside (by omega),
    splice_outside (by omega), splice_outside (by omega)]

theorem getDinode_putDinode (b : Bytes) (o : Nat) (d : Dinode) : getDinode (putDinode b o d) o = d := by
  -- each field is read from where it was written last
  have h1 : get16 (putDinode b o d) o = d.type := get16_bytesOf fun j hj => by
    unfold putDinode put16 put32
    rw [splice_outside (by omega), splice_outside (by omega), splice_outside (by omega), splice_outside (by omega),
      splice_outside (by omega), splice_inside (by omega) (by omega), Nat.add_sub_cancel_left]
  have h2 : get16 (putDinode b o d) (o + 2) = d.major := get16_bytesOf fun j hj => by
    unfold putDinode put16 put32
    rw [splice_outside (by omega), splice_outside (by omega), splice_outside (by omega), splice_outside (by omega),
      splice_inside (by omega) (by omega), Nat.add_sub_cancel_left]
  have h3 : get16 (putDinode b o d) (o + 4) = d.minor := get16_bytesOf fun j hj => by
    unfold putDinode put16 put32
    rw [splice_outside (by omega), splice_outside (by omega), splice_outside (by omega),
      splice_inside (by omega) (by omega), Nat.add_sub_cancel_left]
  have h4 : get16 (putDinode b o d) (o + 6) = d.nlink := get16_bytesOf fun j hj => by
    unfold putDinode put16 put32
    rw [splice_outside (by omega), splice_outside (by omega), splice_inside (by omega) (by omega),
      Nat.add_sub_cancel_left]
  have h5 : get32 (putDinode b o d) (o + 8) = d.size := get32_bytesOf fun j hj => by
    unfold putDinode put16 put32
    rw [splice_outside (by omega), splice_inside (by omega) (by omega), Nat.add_sub_cancel_left]
  have h6 : ∀ k : Fin 13, get32 (putDinode b o d) (o + 12 + 4 * k) = d.addrs k := fun k => get32_bytesOf fun j hj => by
      have hk := k.isLt
      unfold putDinode
      rw [splice_inside (by omega) (by omega)]
      unfold addrBytes
      have hdiv : (o + 12 + 4 * k.val + j - (o + 12)) / 4 = k := by omega
      have hmod : (o + 12 + 4 * k.val + j - (o + 12)) % 4 = j := by omega
      rw [dif_pos (by rw [hdiv]; exact hk), hmod]
      congr 2
      exact Fin.ext hdiv
  unfold getDinode
  rw [h1, h2, h3, h4, h5]
  exact congrArg (Dinode.mk _ _ _ _ _) (funext h6)

end Dinode

/-- The on-disk copy of inode `i`. -/
def dino (sb : Superblock) (m : Blocks) (i : Nat) : Dinode := getDinode (m (sb.iblock i)) (i % 16 * 64)

/-! ## The bitmap -/

/-- `m = 1 << (bi % 8)`. -/
def mask (bi : Nat) : Byte := 1#8 <<< (bi % 8)

/-- `bp->data[bi/8] |= m`. -/
def setBit (bp : Bytes) (bi : Nat) : Bytes := Function.update bp (bi / 8) (bp (bi / 8) ||| mask bi)

/-- `bp->data[bi/8] &= ~m`. -/
def clearBit (bp : Bytes) (bi : Nat) : Bytes := Function.update bp (bi / 8) (bp (bi / 8) &&& ~~~ mask bi)

/-- Bit `bi` of a block. -/
def bitOf (bp : Bytes) (bi : Nat) : Bool := (bp (bi / 8)).getLsbD (bi % 8)

/-- The bit of block `b`: is it in use? -/
def bit (sb : Superblock) (m : Blocks) (b : Nat) : Prop := bitOf (m (sb.bblock b)) (b % 8192) = true

section Bits

variable {bp : Bytes} {bi bj : Nat}

theorem getLsbD_mask (bi k : Nat) : (mask bi).getLsbD k = decide (k = bi % 8) := by
  unfold mask
  rw [BitVec.getLsbD_shiftLeft, BitVec.getLsbD_one, Bool.eq_iff_iff]
  simp only [Bool.and_eq_true, decide_eq_true_eq, Bool.not_eq_true', decide_eq_false_iff_not]
  omega

/-- `(bp->data[bi/8] & m) == 0`. -/
theorem and_mask_eq_zero : bp (bi / 8) &&& mask bi = 0 ↔ bitOf bp bi = false := by
  unfold bitOf
  constructor
  · intro h
    have hb := congrArg (·.getLsbD (bi % 8)) h
    simpa [getLsbD_mask] using hb
  · intro h
    refine BitVec.eq_of_getLsbD_eq fun k _ => ?_
    rw [BitVec.getLsbD_and, getLsbD_mask]
    by_cases hk : k = bi % 8
    · rw [hk, h]
      exact BitVec.getLsbD_zero.symm
    · simp [hk]

theorem bitOf_setBit : bitOf (setBit bp bi) bj = if bj = bi then true else bitOf bp bj := by
  unfold bitOf setBit
  by_cases hd : bj / 8 = bi / 8
  · rw [hd, Function.update_self, BitVec.getLsbD_or, getLsbD_mask]
    by_cases hm : bj = bi
    · simp [hm]
    · have hne : bj % 8 ≠ bi % 8 := by omega
      simp [hm, hne]
  · have hm : bj ≠ bi := fun he => hd (by rw [he])
    rw [Function.update_of_ne hd, if_neg hm]

theorem bitOf_clearBit : bitOf (clearBit bp bi) bj = if bj = bi then false else bitOf bp bj := by
  unfold bitOf clearBit
  have hlt : bj % 8 < 8 := Nat.mod_lt _ (by omega)
  by_cases hd : bj / 8 = bi / 8
  · rw [hd, Function.update_self, BitVec.getLsbD_and, BitVec.getLsbD_not, getLsbD_mask]
    by_cases hm : bj = bi
    · simp [hm]
    · have hne : bj % 8 ≠ bi % 8 := by omega
      simp [hm, hne, hlt]
  · have hm : bj ≠ bi := fun he => hd (by rw [he])
    rw [Function.update_of_ne hd, if_neg hm]

end Bits

/-! ## Files -/

/-- Where an inode keeps a block number: a direct address, the indirect pointer, or an entry of the indirect block. -/
inductive Slot
  | direct (k : Fin 12)
  | indirect
  | entry (j : Fin 256)
  deriving DecidableEq

/-- The block number in a slot, 0 if there is none. -/
def slot (m : Blocks) (d : Dinode) : Slot → Nat
  | .direct k => (d.addrs k.castSucc).toNat
  | .indirect => (d.addrs 12).toNat
  | .entry j => if d.addrs 12 = 0 then 0 else (get32 (m (d.addrs 12).toNat) (4 * j)).toNat

/-- The slot of block `bn` of a file. -/
def slotOf (bn : Nat) : Option Slot :=
  if h : bn < 12 then some (.direct ⟨bn, h⟩) else if h : bn - 12 < 256 then some (.entry ⟨bn - 12, h⟩) else none

/-- The block number of block `bn` of a file. -/
def addr (m : Blocks) (d : Dinode) (bn : Nat) : Nat := (slotOf bn).elim 0 (slot m d)

/-- The byte of a file at position `p`. -/
def byteAt (m : Blocks) (d : Dinode) (p : Nat) : Byte := m (addr m d (p / 1024)) (p % 1024)

/-- The bytes of a file. -/
def content (m : Blocks) (d : Dinode) : List Byte := (List.range d.size.toNat).map (byteAt m d)

/-- Every block below the size has an address. -/
def NoHoles (m : Blocks) (d : Dinode) : Prop := ∀ bn, bn * 1024 < d.size.toNat → addr m d bn ≠ 0

/-! ## Accounting -/

/-- An inode that is allocated. -/
def Live (sb : Superblock) (ino : Nat → Dinode) (i : Nat) : Prop := 1 ≤ i ∧ i < sb.ninodes ∧ (ino i).type ≠ 0

instance (sb : Superblock) (ino : Nat → Dinode) (i : Nat) : Decidable (Live sb ino i) :=
  inferInstanceAs (Decidable (_ ∧ _ ∧ _))

/-- The block numbers in the slots of the allocated inodes. -/
def owner (sb : Superblock) (ino : Nat → Dinode) (m : Blocks) (x : Nat × Slot) : Nat :=
  if Live sb ino x.1 then slot m (ino x.1) x.2 else 0

/-- **Block accounting**, for the inodes `ino`: a bit is set exactly for the metadata and for the blocks in slots, and no
block is in two slots. -/
def Acc (sb : Superblock) (ino : Nat → Dinode) (m : Blocks) : Prop :=
  Owned (owner sb ino m) (bit sb m) sb.nmeta sb.size

/-! ## A disk with one file

A small disk: two data blocks, and inode 1 with the first of them. -/

namespace Small

def sb : Superblock where
  magic := FSMAGIC
  size := 37
  nblocks := 2
  ninodes := 2
  nlog := 31
  logstart := 2
  inodestart := 33
  bmapstart := 34

theorem sb_ok : sb.Ok := ⟨by decide, by decide, by decide, by decide⟩

/-- An inode of `size` bytes in block 35. -/
def inode (type nlink : BitVec 16) (size : BitVec 32) : Dinode :=
  ⟨type, 0, 0, nlink, size, Function.update (fun _ => 0) 0 35⟩

/-- The inode is in block 33, and in block 34 the bits of the blocks up to 35 are set. -/
def blocks (d : Dinode) : Blocks := fun b =>
  if b = 33 then putDinode (fun _ => 0) 64 d
  else if b = 34 then fun j => if j < 4 then 255 else if j = 4 then 15 else 0
  else fun _ => 0

theorem dino_blocks (d : Dinode) : dino sb (blocks d) 1 = d := by
  exact getDinode_putDinode _ _ d

theorem owner_blocks {type nlink : BitVec 16} {size : BitVec 32} (ht : type ≠ 0) (x : Nat × Slot) :
    owner sb (dino sb (blocks (inode type nlink size))) (blocks (inode type nlink size)) x =
      if x = (1, .direct 0) then 35 else 0 := by
  obtain ⟨j, κ⟩ := x
  by_cases hj : j = 1
  · subst hj
    have hlive : Live sb (dino sb (blocks (inode type nlink size))) 1 :=
      ⟨by decide, by decide, by rw [dino_blocks]; exact ht⟩
    show (if Live sb _ 1 then slot _ (dino sb _ 1) κ else 0) = _
    rw [if_pos hlive, dino_blocks]
    cases κ with
    | direct k =>
      show (Function.update (fun _ => (0 : BitVec 32)) 0 35 k.castSucc).toNat = _
      by_cases hk : k = 0
      · subst hk
        rfl
      · rw [if_neg (by simpa using hk), Function.update_of_ne]
        · rfl
        · exact fun he => hk (Fin.castSucc_injective _ he)
    | indirect => rfl
    | entry j => rfl
  · rw [if_neg (by simp [hj])]
    refine if_neg fun hl => hj ?_
    have h1 : 1 ≤ j := hl.1
    have h2 : j < 2 := hl.2.1
    omega

theorem acc_blocks {type nlink : BitVec 16} {size : BitVec 32} (ht : type ≠ 0) :
    Acc sb (dino sb (blocks (inode type nlink size))) (blocks (inode type nlink size)) := by
  refine ⟨fun x hx => ?_, fun x y hx hxy => ?_, fun b hb => ?_⟩
  · rw [owner_blocks ht] at hx ⊢
    split
    · decide
    · next h => rw [if_neg h] at hx; exact absurd rfl hx
  · rw [owner_blocks ht, owner_blocks ht] at hxy
    rw [owner_blocks ht] at hx
    split at hx
    · next h1 =>
      rw [if_pos h1] at hxy
      split at hxy
      · next h2 => rw [h1, h2]
      · exact absurd hxy (by decide)
    · exact absurd rfl hx
  · have hbit : bit sb (blocks (inode type nlink size)) b ↔ b < 36 := by
      have hall : ∀ b : Fin 37, bitOf (fun j => if j < 4 then 255 else if j = 4 then 15 else 0) (b % 8192) = true ↔ b < 36 := by
        decide
      have hb' : b < 37 := hb
      have hdiv : sb.bblock b = 34 := by
        show b / 8192 + 34 = 34
        omega
      unfold bit
      rw [hdiv]
      exact hall ⟨b, hb'⟩
    rw [hbit]
    constructor
    · intro h
      by_cases h35 : b = 35
      · exact .inr ⟨(1, .direct 0), by rw [owner_blocks ht]; decide, by rw [owner_blocks ht, if_pos rfl, h35]⟩
      · exact .inl (show b < 35 by omega)
    · rintro (h | ⟨x, hx, rfl⟩)
      · have h' : b < 35 := h
        omega
      · rw [owner_blocks ht]
        split
        · omega
        · omega

end Small

end Xv6.Disk
