import Xv6.Disk.Commit

/-!
# The inode table

What `iget`, `ilock`, `iunlock` and `begin_op` do to the state. None of them changes a block, so what the blocks say stays; a
commit changes only the blocks of the log, and `HomeEq` says what follows from that.
-/

namespace Xv6.Disk

open Lib

variable {sb : Superblock} {s s' : State} {ip : Fin NINODE} {E : String → Prop}

/-! ## The home blocks -/

/-- The blocks outside the log are the same. -/
def HomeEq (sb : Superblock) (m m' : Blocks) : Prop := ∀ b, sb.Home b → m' b = m b

section HomeEq

variable {m m' : Blocks}

variable (h : HomeEq sb m m') (hsb : sb.Ok)
include h hsb

theorem HomeEq.dino : dino sb m' = dino sb m := by
  funext i
  unfold Disk.dino
  rw [h _ (hsb.home_iblock i)]

theorem HomeEq.bit (b : Nat) : bit sb m' b ↔ bit sb m b := by
  unfold Disk.bit
  rw [h _ (hsb.home_bblock b)]

theorem HomeEq.apart {P : Nat → Prop} (hacc : Acc sb (Disk.dino sb m) m) : Apart sb P m m' where
  dino j _ _ := congrFun (h.dino hsb) j
  data x _ hx := h _ (hsb.home_data (hacc.range x hx).1)

theorem HomeEq.acc (hacc : Acc sb (Disk.dino sb m) m) : Acc sb (Disk.dino sb m') m' :=
  hacc.congr (fun _ => (h.apart (P := fun _ => False) hsb hacc).owner not_false) fun b _ => h.bit hsb b

end HomeEq

/-! ## Entries of the table -/

theorem setInode_setInode (f g : Inode → Inode) : (s.setInode ip f).setInode ip g = s.setInode ip fun i => g (f i) := by
  unfold State.setInode
  dsimp only
  rw [Function.update_self, Function.update_idem]

theorem setInode_congr {f g : Inode → Inode} (h : f (s.itable ip) = g (s.itable ip)) : s.setInode ip f = s.setInode ip g := by
  unfold State.setInode
  rw [h]

/-- A free entry gets the inode number. -/
def fresh (inum : Nat) (i : Inode) : Inode := { i with inum := inum, ref := 1, valid := false }

/-- `iget` finds the inode in the table, or takes a free entry. -/
def Got (inum : Nat) (s : State) (ip : Fin NINODE) (s' : State) : Prop :=
  ((s.itable ip).ref > 0 ∧ (s.itable ip).inum = inum ∧ s' = s.setInode ip fun i => { i with ref := i.ref + 1 }) ∨
  ((s.itable ip).ref = 0 ∧ (∀ jp, (s.itable jp).ref > 0 → (s.itable jp).inum ≠ inum) ∧ s' = s.setInode ip (fresh inum))

theorem iget_spec {inum : Nat} (hE : (∀ ip, (s.itable ip).ref ≠ 0) → E "iget: no inodes") :
    Ensures (iget inum) s (Got inum s) E := by
  refine .get_bind ?_
  split
  · next ip hfind =>
    have hhit := List.find?_some hfind
    rw [decide_eq_true_eq] at hhit
    exact .of_ok rfl (.inl ⟨hhit.1, hhit.2, rfl⟩)
  · next hfind =>
    have hmiss : ∀ jp, (s.itable jp).ref > 0 → (s.itable jp).inum ≠ inum := by
      intro jp hr hi
      have hn := List.find?_eq_none.mp hfind jp (List.mem_finRange jp)
      exact hn (decide_eq_true ⟨hr, hi⟩)
    split
    · next hfree =>
      refine .throw (hE fun jp h0 => ?_)
      exact List.find?_eq_none.mp hfree jp (List.mem_finRange jp) (decide_eq_true h0)
    · next ip hfree =>
      have h0 := List.find?_some hfree
      rw [decide_eq_true_eq] at h0
      exact .of_ok rfl (.inr ⟨h0, hmiss, rfl⟩)

/-- The copy of the inode, read from the disk if it is not there. -/
def load (sb : Superblock) (m : Blocks) (i : Inode) : Inode :=
  if i.valid then i else { i with toDinode := dino sb m i.inum, valid := true }

/-- **`ilock`** reads the inode. -/
theorem ilock_spec (href : (s.itable ip).ref < 1 → E "ilock") (hlocked : (s.itable ip).locked → E "acquiresleep sleeps")
    (htype : (s.itable ip).valid = false → (dino sb s.mem (s.itable ip).inum).type = 0 → E "ilock: no type") :
    Ensures (ilock sb ip) s (fun _ s' => 1 ≤ (s.itable ip).ref ∧
      ((s.itable ip).valid = false → (dino sb s.mem (s.itable ip).inum).type ≠ 0) ∧
      s' = s.setInode ip fun i => { load sb s.mem i with locked := true }) E := by
  refine .get_bind ?_
  by_cases hr : (s.itable ip).ref < 1
  · rw [if_pos hr]
    exact .throw (href hr)
  rw [if_neg hr]
  by_cases hl : (s.itable ip).locked = true
  · rw [if_pos hl]
    exact .throw (hlocked hl)
  rw [if_neg hl]
  refine setInode_bind ?_
  by_cases hv : (s.itable ip).valid = true
  · have hload : load sb s.mem (s.itable ip) = s.itable ip := if_pos hv
    have hn : ¬ (!(s.itable ip).valid) = true := by rw [hv]; decide
    rw [if_neg hn]
    refine .pure ⟨by omega, fun h => absurd (hv.symm.trans h) (by decide), setInode_congr ?_⟩
    rw [hload]
  · have hload : load sb s.mem (s.itable ip) = { s.itable ip with toDinode := dino sb s.mem (s.itable ip).inum, valid := true } :=
      if_neg hv
    have hv' := Bool.eq_false_iff.mpr hv
    have hn : (!(s.itable ip).valid) = true := by rw [hv']; rfl
    rw [if_pos hn]
    refine bread_bind (setInode_bind ?_)
    show Ensures (if (dino sb s.mem (s.itable ip).inum).type = 0 then panic "ilock: no type" else pure ()) _ _ E
    by_cases ht : (dino sb s.mem (s.itable ip).inum).type = 0
    · rw [if_pos ht]
      exact .throw (htype hv' ht)
    · rw [if_neg ht]
      refine .pure ⟨by omega, fun _ => ht, ?_⟩
      rw [setInode_setInode]
      refine setInode_congr ?_
      rw [hload]
      rfl

theorem iunlock_spec (hlocked : (s.itable ip).locked) (href : 1 ≤ (s.itable ip).ref) :
    Ensures (iunlock ip) s (fun _ s' => s' = s.setInode ip fun i => { i with locked := false }) E := by
  refine .get_bind ?_
  rw [if_neg]
  · exact .of_ok rfl rfl
  · rw [hlocked, Bool.not_true, Bool.false_or, decide_eq_true_eq]
    omega

theorem beginOp_spec (hE : s.lh.length + (s.outstanding + 1) * 10 > 30 → E "begin_op sleeps") :
    Ensures beginOp s (fun _ s' => s' = { s with outstanding := s.outstanding + 1 }) E := by
  refine .get_bind ?_
  by_cases h : s.lh.length + (s.outstanding + 1) * MAXOPBLOCKS > LOGBLOCKS
  · rw [if_pos h]
    exact .throw (hE h)
  · rw [if_neg h]
    exact .of_ok rfl rfl

/-- The inode numbers that `ialloc` and `ireclaim` go over. -/
theorem mem_inums {a n : Nat} : a ∈ (List.range n).drop 1 ↔ 1 ≤ a ∧ a < n := by
  rw [List.range_eq_range', List.drop_range', List.mem_range'_1]
  omega

end Xv6.Disk
