import Xv6.Disk.Write

/-!
# Files are arrays of bytes

`iupdate` brings the copy of the locked inode to the disk (`iupdate_spec`), and `writei` is the loop, the new size and `iupdate`
(`writei_spec`). So a write replaces the bytes it returns the number of, and nothing else (`writei_bytes`), unless a copy fails
in the middle of a block.
-/

namespace Xv6.Disk

open Lib

variable {sb : Superblock} {s s' s'' : State} {ip : Fin NINODE} {E : String → Prop} {src : Source}

/-! ## Changes to the copy of an inode -/

theorem slot_addrs {m : Blocks} {d d' : Dinode} (h : d'.addrs = d.addrs) (κ : Slot) : slot m d' κ = slot m d κ := by
  cases κ with
  | direct k =>
    show (d'.addrs k.castSucc).toNat = _
    rw [h]
    rfl
  | indirect =>
    show (d'.addrs 12).toNat = _
    rw [h]
    rfl
  | entry j =>
    show (if d'.addrs 12 = 0 then 0 else (get32 (m (d'.addrs 12).toNat) (4 * j)).toNat) = _
    rw [h]
    rfl

/-- A change that keeps the addresses and the inode number, and does not free the inode. -/
structure Light (f : Inode → Inode) (i : Inode) : Prop where
  inum : (f i).inum = i.inum
  addrs : (f i).addrs = i.addrs
  type : (f i).type ≠ 0

section Light

variable {f : Inode → Inode}

theorem setInode_self (s : State) (ip : Fin NINODE) (f : Inode → Inode) : (s.setInode ip f).itable ip = f (s.itable ip) :=
  Function.update_self ..

theorem setInode_ne {jp : Fin NINODE} (h : jp ≠ ip) : (s.setInode ip f).itable jp = s.itable jp := Function.update_of_ne h _ _

theorem setInode_owner (h : Loaded sb s ip) (hf : Light f (s.itable ip)) (x : Nat × Slot) :
    (s.setInode ip f).owner sb ip x = s.owner sb ip x := by
  have hself : (s.setInode ip f).ino sb ip (s.itable ip).inum = (f (s.itable ip)).toDinode := by
    have hi := ino_self sb (s.setInode ip f) ip
    rw [setInode_self, hf.inum] at hi
    exact hi
  by_cases hx : x.1 = (s.itable ip).inum
  · obtain ⟨j, κ⟩ := x
    obtain rfl : j = (s.itable ip).inum := hx
    have hlive : Live sb ((s.setInode ip f).ino sb ip) (s.itable ip).inum :=
      ⟨h.live.1, h.live.2.1, by rw [hself]; exact hf.type⟩
    rw [owner_self h]
    show (if Live sb ((s.setInode ip f).ino sb ip) (s.itable ip).inum then _ else 0) = _
    rw [if_pos hlive, hself]
    exact slot_addrs hf.addrs κ
  · refine owner_congr (fun _ => ?_) fun _ _ => rfl
    rw [ino_ne hx, ino_ne (by rw [setInode_self, hf.inum]; exact hx)]
    rfl

theorem setInode_loaded (h : Loaded sb s ip) (hf : Light f (s.itable ip)) : Loaded sb (s.setInode ip f) ip := by
  refine ⟨h.acc.congr (setInode_owner h hf) fun _ _ => Iff.rfl, ?_⟩
  rw [setInode_self, hf.inum]
  refine ⟨h.live.1, h.live.2.1, ?_⟩
  have hi := ino_self sb (s.setInode ip f) ip
  rw [setInode_self, hf.inum] at hi
  rw [hi]
  exact hf.type

end Light

/-! ## `iupdate` -/

/-- The copy of the inode is on the disk. -/
def State.updated (sb : Superblock) (s : State) (ip : Fin NINODE) : State :=
  s.store (sb.iblock (s.itable ip).inum)
    (putDinode (s.mem (sb.iblock (s.itable ip).inum)) ((s.itable ip).inum % 16 * 64) (s.itable ip).toDinode)

theorem iupdate_spec (hout : 1 ≤ s.outstanding) (hfit : Fits E s 1) :
    Ensures (iupdate sb ip) s (fun _ s' => s' = s.updated sb ip ∧ s'.Short) E := store_spec hout hfit

/-- The inodes on the disk are now those with the copy. -/
theorem updated_dino (s : State) (ip : Fin NINODE) : dino sb (s.updated sb ip).mem = s.ino sb ip :=
  dino_putDinode s.mem (s.itable ip).inum (s.itable ip).toDinode

theorem updated_ino (s : State) (ip : Fin NINODE) : (s.updated sb ip).ino sb ip = s.ino sb ip := by
  show Function.update (dino sb (s.updated sb ip).mem) _ _ = _
  rw [updated_dino]
  exact Function.update_idem ..

theorem updated_mem_ne {b : Nat} (h : b ≠ sb.iblock (s.itable ip).inum) : (s.updated sb ip).mem b = s.mem b :=
  Function.update_of_ne h _ _

theorem updated_itable (s : State) (ip : Fin NINODE) : (s.updated sb ip).itable = s.itable := rfl

theorem length_updated (sb : Superblock) (s : State) (ip : Fin NINODE) : (s.updated sb ip).lh.length ≤ s.lh.length + 1 :=
  length_logged (s.setBuf _ _) _

theorem updated_tracked (s : State) (ip : Fin NINODE) : Tracked s (s.updated sb ip) := by
  intro b hb
  refine mem_logged.mpr (.inr ?_)
  by_contra hne
  exact hb (updated_mem_ne hne)

section

variable (h : Loaded sb s ip) (hsb : sb.Ok)
include h hsb

/-- A block in a slot is no inode block. -/
theorem Loaded.updated_data {x : Nat × Slot} (hx : s.owner sb ip x ≠ 0) :
    (s.updated sb ip).mem (s.owner sb ip x) = s.mem (s.owner sb ip x) := by
  refine updated_mem_ne fun he => ?_
  have h1 := (h.acc.range x hx).1
  have h2 := hsb.iblock_lt_nmeta h.live.2.1
  have he' : owner sb (s.ino sb ip) s.mem x = sb.iblock (s.itable ip).inum := he
  omega

theorem updated_owner (x : Nat × Slot) : (s.updated sb ip).owner sb ip x = s.owner sb ip x := by
  refine owner_congr (fun _ => by rw [updated_ino]) fun hl h12 => ?_
  have ho : s.owner sb ip (x.1, .indirect) = ((s.ino sb ip x.1).addrs 12).toNat := owner_indirect hl
  rw [← ho]
  exact h.updated_data hsb (by rw [ho]; exact toNat_ne_zero.mp h12)

theorem updated_loaded : Loaded sb (s.updated sb ip) ip := by
  refine ⟨h.acc.congr (updated_owner h hsb) fun b _ => ?_, ?_⟩
  · exact bit_update_ne (hsb.iblock_ne_bblock h.live.2.1)
  · rw [updated_ino]
    exact h.live

end

/-! ## What a call leaves alone -/

/-- The inodes that are not in `P`, and their blocks, are the same. -/
structure Apart (sb : Superblock) (P : Nat → Prop) (m m' : Blocks) : Prop where
  dino : ∀ j, j < sb.ninodes → ¬ P j → dino sb m' j = dino sb m j
  data : ∀ x, ¬ P x.1 → owner sb (Disk.dino sb m) m x ≠ 0 →
    m' (owner sb (Disk.dino sb m) m x) = m (owner sb (Disk.dino sb m) m x)

namespace Apart

variable {P P' : Nat → Prop} {j : Nat} {m m' m'' : Blocks}

theorem refl (m : Blocks) : Apart sb P m m := ⟨fun _ _ _ => rfl, fun _ _ _ => rfl⟩

section

variable (h : Apart sb P m m') (hj : ¬ P j) (hlive : Live sb (Disk.dino sb m) j)
include h hj hlive

theorem indirect (h12 : (Disk.dino sb m j).addrs 12 ≠ 0) :
    m' ((Disk.dino sb m j).addrs 12).toNat = m ((Disk.dino sb m j).addrs 12).toNat := by
  have ho : owner sb (Disk.dino sb m) m (j, .indirect) = ((Disk.dino sb m j).addrs 12).toNat := owner_indirect hlive
  rw [← ho]
  exact h.data (j, .indirect) hj (by rw [ho]; exact toNat_ne_zero.mp h12)

theorem slot (κ : Slot) : Disk.slot m' (Disk.dino sb m' j) κ = Disk.slot m (Disk.dino sb m j) κ := by
  rw [h.dino j hlive.2.1 hj]
  exact slot_congr (h.indirect hj hlive) κ

omit h hj hlive in
theorem owner {x : Nat × Slot} (h : Apart sb P m m') (hx : ¬ P x.1) :
    Disk.owner sb (Disk.dino sb m') m' x = Disk.owner sb (Disk.dino sb m) m x :=
  owner_congr (fun hj => h.dino x.1 hj hx) fun hl h12 => h.indirect hx hl h12

omit h hj hlive in
theorem trans (h : Apart sb P m m') (h' : Apart sb P m' m'') : Apart sb P m m'' where
  dino j hj hne := (h'.dino j hj hne).trans (h.dino j hj hne)
  data x hx h0 := by
    have ho := h.owner hx
    rw [← h.data x hx h0, ← ho]
    exact h'.data x hx (by rw [ho]; exact h0)

theorem addr (bn : Nat) : Disk.addr m' (Disk.dino sb m' j) bn = Disk.addr m (Disk.dino sb m j) bn := by
  unfold Disk.addr
  cases slotOf bn with
  | none => rfl
  | some κ => exact h.slot hj hlive κ

theorem byteAt {p : Nat} (h0 : Disk.addr m (Disk.dino sb m j) (p / 1024) ≠ 0) :
    Disk.byteAt m' (Disk.dino sb m' j) p = Disk.byteAt m (Disk.dino sb m j) p := by
  obtain ⟨κ, hκ, haddr⟩ := addr_slot h0
  have ho : Disk.owner sb (Disk.dino sb m) m (j, κ) = Disk.addr m (Disk.dino sb m j) (p / 1024) := by
    rw [haddr]
    exact if_pos hlive
  have hdata := h.data (j, κ) hj (by rw [ho]; exact h0)
  unfold Disk.byteAt
  rw [h.addr hj hlive, ← ho, hdata]

theorem noHoles (hno : NoHoles m (Disk.dino sb m j)) : NoHoles m' (Disk.dino sb m' j) := by
  intro bn hbn
  rw [h.addr hj hlive]
  exact hno bn (by rw [← h.dino j hlive.2.1 hj]; exact hbn)

theorem content (hno : NoHoles m (Disk.dino sb m j)) :
    Disk.content m' (Disk.dino sb m' j) = Disk.content m (Disk.dino sb m j) := by
  rw [h.dino j hlive.2.1 hj]
  refine List.map_congr_left fun p hp => ?_
  have hlt := List.mem_range.mp hp
  have hb := h.byteAt hj hlive (hno (p / 1024) (by omega))
  rw [h.dino j hlive.2.1 hj] at hb
  exact hb

end

theorem mono (h : Apart sb P m m') (hP : ∀ j, P j → P' j) : Apart sb P' m m' :=
  ⟨fun j hj hn => h.dino j hj fun hp => hn (hP j hp), fun x hx => h.data x fun hp => hx (hP _ hp)⟩

end Apart

/-! ## An inode is written to the disk -/

def putIno (sb : Superblock) (m : Blocks) (i : Nat) (d : Dinode) : Blocks :=
  Function.update m (sb.iblock i) (putDinode (m (sb.iblock i)) (i % 16 * 64) d)

section PutIno

variable {i b : Nat} {m : Blocks} {d : Dinode} {ino : Nat → Dinode} {x : Nat × Slot}

theorem dino_putIno (m : Blocks) (i : Nat) (d : Dinode) : dino sb (putIno sb m i d) = Function.update (dino sb m) i d :=
  dino_putDinode m i d

section

variable (hsb : sb.Ok) (hi : i < sb.ninodes)
include hsb hi

theorem bit_putIno : bit sb (putIno sb m i d) b ↔ bit sb m b := bit_update_ne (hsb.iblock_ne_bblock hi)

theorem putIno_data (hacc : Acc sb ino m) (hx : owner sb ino m x ≠ 0) :
    putIno sb m i d (owner sb ino m x) = m (owner sb ino m x) := by
  refine Function.update_of_ne (fun he => ?_) _ _
  have h1 := (hacc.range x hx).1
  have h2 := hsb.iblock_lt_nmeta hi
  omega

theorem apart_putIno (hacc : Acc sb (dino sb m) m) : Apart sb (· = i) m (putIno sb m i d) where
  dino j _ hne := by
    rw [dino_putIno]
    exact Function.update_of_ne hne _ _
  data _ _ hx := putIno_data hsb hi hacc hx

end

/-- The accounting stays if the inode has the blocks that it had. -/
theorem acc_putIno (hsb : sb.Ok) (hi : 1 ≤ i ∧ i < sb.ninodes) (hacc : Acc sb (dino sb m) m)
    (hslots : ∀ κ, owner sb (dino sb m) m (i, κ) = if d.type = 0 then 0 else slot m d κ) :
    Acc sb (dino sb (putIno sb m i d)) (putIno sb m i d) := by
  refine hacc.congr (fun x => ?_) fun b _ => bit_putIno hsb hi.2
  by_cases hx : x.1 = i
  · obtain ⟨j, κ⟩ := x
    obtain rfl : j = i := hx
    have hself : dino sb (putIno sb m j d) j = d := by
      rw [dino_putIno]
      exact Function.update_self ..
    rw [hslots]
    unfold owner
    by_cases ht : d.type = 0
    · rw [if_pos ht, if_neg fun hl : Live sb _ j => hl.2.2 (by rw [hself]; exact ht)]
    · rw [if_neg ht, if_pos (show Live sb _ j from ⟨hi.1, hi.2, by rw [hself]; exact ht⟩), hself]
      refine slot_congr (fun h12 => ?_) κ
      have ho : owner sb (dino sb m) m (j, .indirect) = (d.addrs 12).toNat := by
        rw [hslots, if_neg ht]
        rfl
      rw [← ho]
      exact putIno_data hsb hi.2 hacc (by rw [ho]; exact toNat_ne_zero.mp h12)
  · exact (apart_putIno hsb hi.2 hacc).owner hx

end PutIno

/-! ## `writei` -/

/-- The copy in use is the inode on the disk. -/
def Synced (sb : Superblock) (s : State) (ip : Fin NINODE) : Prop := s.ino sb ip = dino sb s.mem

/-- A write of `n` bytes at position `off` that `writei` does not start. -/
def Refused (size off n : Nat) : Prop := size < off ∨ 268 * 1024 < off + n

/-- What `writei` has done when it returns `tot`. -/
structure Wrote (sb : Superblock) (ip : Fin NINODE) (s : State) (src : Source) (off n tot : Nat) (s' : State) : Prop where
  loaded : Loaded sb s' ip
  sync : Synced sb s' ip
  apart : Apart sb (· = (s.itable ip).inum) s.mem s'.mem
  disk : s'.disk = s.disk
  outstanding : s'.outstanding = s.outstanding
  others : ∀ jp, jp ≠ ip → s'.itable jp = s.itable jp
  core : s'.itable ip =
    { s.itable ip with addrs := (s'.itable ip).addrs, size := .ofNat 32 (max (s.itable ip).size.toNat (off + tot)) }
  lh : ∀ b ∈ s.lh, b ∈ s'.lh
  home : ∀ b ∈ s'.lh, b ∈ s.lh ∨ sb.Home b
  len : s'.Short
  addr : ∀ bn, addr s.mem (s.itable ip).toDinode bn ≠ 0 →
    addr s'.mem (s'.itable ip).toDinode bn = addr s.mem (s.itable ip).toDinode bn
  written : ∀ p, off ≤ p → p < off + tot → Disk.addr s'.mem (s'.itable ip).toDinode (p / 1024) ≠ 0 ∧
    src.byte (p - off) = some (byteAt s'.mem (s'.itable ip).toDinode p)
  kept : ∀ p, Disk.addr s.mem (s.itable ip).toDinode (p / 1024) ≠ 0 → p < off ∨ off + n ≤ p →
    byteAt s'.mem (s'.itable ip).toDinode p = byteAt s.mem (s.itable ip).toDinode p
  clean : Chunks src off n → Tracked s s' ∧
    ∀ p, Disk.addr s.mem (s.itable ip).toDinode (p / 1024) ≠ 0 → p < off ∨ off + tot ≤ p →
      byteAt s'.mem (s'.itable ip).toDinode p = byteAt s.mem (s.itable ip).toDinode p
  le : tot ≤ n
  stop : tot = n ∨ tot = 0 ∨ (off + tot) % 1024 = 0
  complete : (∀ p, off ≤ p → p < off + n → Disk.addr s.mem (s.itable ip).toDinode (p / 1024) ≠ 0) →
    (∀ j, j < n → (src.byte j).isSome) → tot = n

section Writei

variable {off off' n : Nat} {f : Inode → Inode}

/-- The addresses and the bytes are those of before, after a change of other fields of the copy. -/
theorem updated_addr (h : Loaded sb s ip) (hsb : sb.Ok) (hf : Light f (s.itable ip)) (bn : Nat) :
    addr ((s.setInode ip f).updated sb ip).mem (((s.setInode ip f).updated sb ip).itable ip).toDinode bn =
      addr s.mem (s.itable ip).toDinode bn := by
  have hl := setInode_loaded h hf
  have hl' := updated_loaded hl hsb
  cases hκ : slotOf bn with
  | none =>
    unfold addr
    rw [hκ]
    rfl
  | some κ =>
    have hinum : (((s.setInode ip f).updated sb ip).itable ip).inum = (s.itable ip).inum :=
      (congrArg Inode.inum (setInode_self s ip f)).trans hf.inum
    rw [addr_owner hl' hκ, addr_owner h hκ, updated_owner hl hsb, hinum, setInode_owner h hf]

theorem updated_byteAt {p : Nat} (h : Loaded sb s ip) (hsb : sb.Ok) (hf : Light f (s.itable ip))
    (h0 : addr s.mem (s.itable ip).toDinode (p / 1024) ≠ 0) :
    byteAt ((s.setInode ip f).updated sb ip).mem (((s.setInode ip f).updated sb ip).itable ip).toDinode p =
      byteAt s.mem (s.itable ip).toDinode p := by
  obtain ⟨κ, hκ, -⟩ := addr_slot h0
  have hl := setInode_loaded h hf
  unfold byteAt
  rw [updated_addr h hsb hf]
  refine congrFun ?_ _
  rw [addr_owner h hκ] at h0 ⊢
  rw [← setInode_owner h hf] at h0 ⊢
  exact hl.updated_data hsb h0

theorem setInode_eq_self (h : f (s.itable ip) = s.itable ip) : s.setInode ip f = s := by
  unfold State.setInode
  rw [h, Function.update_eq_self]

/-- The loop has ended, the size is set and the copy is on the disk. -/
theorem Stopped.wrote (h : Stopped sb ip s src off n off' s') (hl : Loaded sb s ip) (hsync : Synced sb s ip) (hsb : sb.Ok)
    (hmax : off + n ≤ 268 * 1024)
    (hshort : ((s'.setInode ip fun i => { i with size := .ofNat 32 (max (s.itable ip).size.toNat off') }).updated sb ip).Short) :
    Wrote sb ip s src off n (off' - off)
      ((s'.setInode ip fun i => { i with size := .ofNat 32 (max (s.itable ip).size.toNat off') }).updated sb ip) := by
  obtain ⟨hge, hle⟩ := h.range
  have hoff : off + (off' - off) = off' := by omega
  have hf : Light (fun i => { i with size := .ofNat 32 (max (s.itable ip).size.toNat off') }) (s'.itable ip) := by
    refine ⟨rfl, rfl, ?_⟩
    have hlive := h.loaded.live.2.2
    rw [ino_self] at hlive
    exact hlive
  have hl₂ := setInode_loaded h.loaded hf
  have hinum := h.upd.inum
  have haddr := updated_addr h.loaded hsb hf
  have hbyte : ∀ p, addr s'.mem (s'.itable ip).toDinode (p / 1024) ≠ 0 → _ := fun p h0 => updated_byteAt h.loaded hsb hf h0
  -- a block that the file had is still there, and is not an inode block
  have hkeep : ∀ {p}, addr s.mem (s.itable ip).toDinode (p / 1024) ≠ 0 →
      addr s'.mem (s'.itable ip).toDinode (p / 1024) ≠ 0 := by
    intro p h0
    rw [h.upd.addr hl h.loaded h0]
    exact h0
  refine ⟨updated_loaded hl₂ hsb, (updated_ino _ ip).trans (updated_dino _ ip).symm, ⟨fun j hj hne => ?_, fun x hx h0 => ?_⟩,
    h.upd.disk, h.upd.outstanding, fun jp hj => ?_, ?_, fun b hb => mem_logged.mpr (.inl (h.upd.lh b hb)), fun b hb => ?_,
    hshort, fun bn h0 => ?_, fun p h1 h2 => ?_, fun p h0 hp => ?_, fun hch => ⟨?_, fun p h0 hp => ?_⟩, by omega, ?_, fun hm hs => ?_⟩
  · rw [updated_dino, ino_ne (by rw [setInode_self, hinum]; exact hne)]
    exact h.upd.dino j hj
  · have ho : owner sb (dino sb s.mem) s.mem x = s.owner sb ip x := by
      rw [← hsync]
      rfl
    rw [ho] at h0 ⊢
    have hk : (s'.setInode ip _).owner sb ip x = s.owner sb ip x :=
      (setInode_owner h.loaded hf x).trans (h.upd.keep x h0)
    rw [← h.upd.data x h0 (fun hw => hx hw.1), ← hk]
    exact hl₂.updated_data hsb (by rw [hk]; exact h0)
  · rw [updated_itable, setInode_ne hj]
    exact h.upd.others jp hj
  · rw [updated_itable, setInode_self, h.upd.core, hoff]
  · rcases mem_logged.mp hb with hb | rfl
    · exact h.upd.home b hb
    · exact .inr (hsb.home_iblock _)
  · rw [haddr]
    exact h.upd.addr hl h.loaded h0
  · obtain ⟨ha, hb⟩ := h.written p h1 (by omega)
    rw [haddr, hbyte p ha]
    exact ⟨ha, hb⟩
  · rw [hbyte p (hkeep h0)]
    exact h.kept p h0 hp
  · exact (h.clean hch).tracked.trans (updated_tracked (s'.setInode ip _) ip) fun b hb => mem_logged.mpr (.inl hb)
  · rw [hbyte p (hkeep h0)]
    exact (h.clean hch).kept p h0 (by omega)
  · rcases h.stop with hs | hs | hs
    · exact .inl (by omega)
    · exact .inr (.inl (by omega))
    · exact .inr (.inr (by rw [hoff]; exact hs))
  · have := h.complete hm hs
    omega

end Writei

/-- **Writing a file.** -/
theorem writei_spec {off n : BitVec 32} (hl : Loaded sb s ip) (hsync : Synced sb s ip) (hsb : sb.Ok) (hout : 1 ≤ s.outstanding)
    (hfit : Fits E s (s.pot ip + 2 * chunkCount off.toNat n.toNat + 1)) :
    Ensures (writei sb ip src off n) s (fun r s' =>
      (Refused (s.itable ip).size.toNat off.toNat n.toNat ∧ r = -1 ∧ s' = s) ∨
      (¬ Refused (s.itable ip).size.toNat off.toNat n.toNat ∧ ∃ tot : Nat, r = tot ∧ Wrote sb ip s src off.toNat n.toNat tot s')) E := by
  refine .get_bind ?_
  have hover : off + n < off → 268 * 1024 < off.toNat + n.toNat := by
    intro h
    have h' : (off + n).toNat < off.toNat := h
    rw [BitVec.toNat_add] at h'
    omega
  by_cases h1 : off > (s.itable ip).size ∨ off + n < off
  · rw [if_pos h1]
    refine .pure (.inl ⟨?_, rfl, rfl⟩)
    rcases h1 with h1 | h1
    · exact .inl h1
    · exact .inr (hover h1)
  rw [if_neg h1]
  have hsize : off.toNat ≤ (s.itable ip).size.toNat := Nat.not_lt.mp fun h => h1 (.inl h)
  have hadd : (off + n).toNat = off.toNat + n.toNat := by
    have h' : ¬ (off + n).toNat < off.toNat := fun h => h1 (.inr h)
    rw [BitVec.toNat_add] at h' ⊢
    omega
  by_cases h2 : (off + n).toNat > 268 * 1024
  · rw [if_pos h2]
    exact .pure (.inl ⟨.inr (by omega), rfl, rfl⟩)
  rw [if_neg h2]
  have hmax : off.toNat + n.toNat ≤ 268 * 1024 := by omega
  have hnot : ¬ Refused (s.itable ip).size.toNat off.toNat n.toNat := by
    rintro (h | h)
    · omega
    · omega
  have hsrc : ∀ j, src.byte j = src.byte (off.toNat - off.toNat + j) := fun j => by rw [Nat.sub_self, Nat.zero_add]
  refine (writeLoop_spec hl hsb hmax (Nat.le_refl _) (.start hl) (Nat.le_refl _) rfl hsrc (fun _ => .inl rfl) hout hfit).bind ?_
  rintro off' s₁ ⟨hst, hfit₁⟩
  have hout₁ : 1 ≤ s₁.outstanding := by
    rw [hst.upd.outstanding]
    exact hout
  have hw := hst.wrote hl hsync hsb hmax
  have hcast : (off' - off.toNat) = ((off' - off.toNat : Nat) : Int) := (Int.ofNat_sub hst.range.1).symm
  by_cases h3 : off' > (s.itable ip).size.toNat
  · rw [if_pos h3]
    refine setInode_bind ((iupdate_spec (s := s₁.setInode ip _) hout₁ hfit₁).bind ?_)
    rintro _ _ ⟨rfl, hshort⟩
    refine .pure (.inr ⟨hnot, off' - off.toNat, hcast, ?_⟩)
    rw [Nat.max_eq_right (Nat.le_of_lt h3)] at hw
    exact hw hshort
  · rw [if_neg h3]
    refine (iupdate_spec hout₁ hfit₁).bind ?_
    rintro _ _ ⟨rfl, hshort⟩
    refine .pure (.inr ⟨hnot, off' - off.toNat, hcast, ?_⟩)
    rw [Nat.max_eq_left (Nat.not_lt.mp h3), setInode_eq_self] at hw
    · exact hw hshort
    · rw [hst.upd.core, BitVec.ofNat_toNat, BitVec.setWidth_eq]

/-! ## The bytes of a file -/

section Bytes

variable {off n tot : Nat}

variable (h : Wrote sb ip s src off n tot s') (hno : NoHoles s.mem (s.itable ip).toDinode)
include h hno

theorem Wrote.size_eq
    (hmax : off + n ≤ 268 * 1024) : (s'.itable ip).size.toNat = max (s.itable ip).size.toNat (off + tot) := by
  have htot := h.le
  rw [h.core]
  show (BitVec.ofNat 32 _).toNat = _
  rw [BitVec.toNat_ofNat, Nat.mod_eq_of_lt]
  omega

/-- A write leaves no holes. -/
theorem Wrote.noHoles
    (hoff : off ≤ (s.itable ip).size.toNat) (hmax : off + n ≤ 268 * 1024) : NoHoles s'.mem (s'.itable ip).toDinode := by
  intro bn hbn
  rw [h.size_eq hno hmax] at hbn
  by_cases hold : bn * 1024 < (s.itable ip).size.toNat
  · have ha := hno bn hold
    rw [h.addr bn ha]
    exact ha
  · have ha := (h.written (bn * 1024) (by omega) (by omega)).1
    rwa [Nat.mul_div_cancel bn (by omega)] at ha

/-- The bytes that are written are those of the source, and the others are as before. -/
theorem Wrote.content (hoff : off ≤ (s.itable ip).size.toNat) (hmax : off + n ≤ 268 * 1024) (hch : Chunks src off n) :
    ∃ bs : List Byte, (List.range tot).map src.byte = bs.map some ∧ content s'.mem (s'.itable ip).toDinode =
      (content s.mem (s.itable ip).toDinode).take off ++ bs ++ (content s.mem (s.itable ip).toDinode).drop (off + tot) := by
  refine ⟨(List.range tot).map fun j => byteAt s'.mem (s'.itable ip).toDinode (off + j), ?_, ?_⟩
  · rw [List.map_map]
    refine List.map_congr_left fun j hj => ?_
    have hlt := List.mem_range.mp hj
    have hw := (h.written (off + j) (by omega) (by omega)).2
    rwa [Nat.add_sub_cancel_left] at hw
  · unfold Disk.content
    rw [h.size_eq hno hmax]
    have hsame : ∀ p, p < (s.itable ip).size.toNat → p < off ∨ off + tot ≤ p →
        byteAt s'.mem (s'.itable ip).toDinode p = byteAt s.mem (s.itable ip).toDinode p :=
      fun p hp hout => (h.clean hch).2 p (hno (p / 1024) (by omega)) hout
    refine List.ext_getElem? fun p => ?_
    rw [List.getElem?_append, List.getElem?_append]
    simp only [List.length_append, List.length_take, List.length_map, List.length_range, List.getElem?_take,
      List.getElem?_drop, List.getElem?_map, List.getElem?_range']
    by_cases h1 : p < off
    · rw [if_pos (by omega), if_pos (by omega), if_pos h1, List.getElem?_range (by omega), List.getElem?_range (by omega)]
      exact congrArg some (hsame p (by omega) (.inl h1))
    · by_cases h2 : p < off + tot
      · rw [if_pos (by omega), if_neg (by omega), List.getElem?_range (by omega), List.getElem?_range (by omega)]
        show some _ = some (byteAt _ _ (off + (p - min off (s.itable ip).size.toNat)))
        rw [show off + (p - min off (s.itable ip).size.toNat) = p by omega]
      · rw [if_neg (by omega)]
        rw [show off + tot + (p - (min off (s.itable ip).size.toNat + tot)) = p by omega]
        by_cases h3 : p < (s.itable ip).size.toNat
        · rw [List.getElem?_range (by omega), List.getElem?_range h3]
          exact congrArg some (hsame p h3 (.inr (by omega)))
        · rw [List.getElem?_eq_none (by rw [List.length_range]; omega), List.getElem?_eq_none (by rw [List.length_range]; omega)]
          rfl

end Bytes

theorem pot_le_two (s : State) (ip : Fin NINODE) : s.pot ip ≤ 2 := by
  unfold State.pot
  split
  · omega
  · omega

theorem synced_of_eq (h : dino sb s.mem (s.itable ip).inum = (s.itable ip).toDinode) : Synced sb s ip := by
  unfold Synced State.ino
  rw [← h, Function.update_eq_self]

/-- On a small disk: a kernel in a transaction that has inode 1 locked. -/
def smallFile (size : BitVec 32) : State where
  disk := Small.blocks (Small.inode T_FILE 1 size)
  mem := Small.blocks (Small.inode T_FILE 1 size)
  lh := []
  outstanding := 1
  itable ip := if ip = 0 then ⟨Small.inode T_FILE 1 size, 1, 1, true, true⟩ else ⟨.zero, 0, 0, false, false⟩

theorem noHoles_smallFile {size : BitVec 32} (h : size.toNat ≤ 1024) :
    NoHoles (smallFile size).mem ((smallFile size).itable 0).toDinode := by
  intro bn hbn
  obtain rfl : bn = 0 := by
    have hbn' : bn * 1024 < size.toNat := hbn
    omega
  show (35 : Nat) ≠ 0
  decide

theorem live_smallFile (size : BitVec 32) :
    Live Small.sb (dino Small.sb (smallFile size).mem) ((smallFile size).itable 0).inum :=
  ⟨Nat.le_refl 1, Nat.one_lt_two, by
    show (dino Small.sb (Small.blocks _) 1).type ≠ 0
    rw [Small.dino_blocks]
    show T_FILE ≠ 0
    decide⟩

end Xv6.Disk
