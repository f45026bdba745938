import Xv6.Disk.Alloc

/-!
# The blocks of a file

While an inode is locked its copy in the table is ahead of the one on disk: `State.ino` are the inodes of the disk with this
copy in place of its own, and `Loaded` says that the accounting holds for them. `bmap` finds a block of the file or puts a
fresh one into its slot (`bmap_spec`). `Upd` is what `bmap` and `writei` leave alone: no slot that holds a block changes,
and outside the slots `W` of the inode no block in a slot changes its contents.
-/

namespace Xv6.Disk

open Lib
open Function (update update_of_ne update_self)

variable {sb : Superblock} {s s' s'' : State} {ip : Fin NINODE} {E : String → Prop}

/-- The inodes of the disk, with the copy in entry `ip` of the table. -/
def State.ino (sb : Superblock) (s : State) (ip : Fin NINODE) : Nat → Dinode :=
  Function.update (dino sb s.mem) (s.itable ip).inum (s.itable ip).toDinode

/-- The inode in entry `ip` is allocated, and the accounting holds with it. -/
structure Loaded (sb : Superblock) (s : State) (ip : Fin NINODE) : Prop where
  acc : Acc sb (s.ino sb ip) s.mem
  live : Live sb (s.ino sb ip) (s.itable ip).inum

/-- The block in a slot, with the copy in entry `ip`. -/
def State.owner (sb : Superblock) (s : State) (ip : Fin NINODE) : Nat × Slot → Nat := Disk.owner sb (s.ino sb ip) s.mem

theorem ino_self (sb : Superblock) (s : State) (ip : Fin NINODE) : s.ino sb ip (s.itable ip).inum = (s.itable ip).toDinode :=
  update_self ..

theorem ino_ne {j : Nat} (h : j ≠ (s.itable ip).inum) : s.ino sb ip j = dino sb s.mem j := update_of_ne h _ _

theorem owner_self (h : Loaded sb s ip) (k : Slot) :
    s.owner sb ip ((s.itable ip).inum, k) = slot s.mem (s.itable ip).toDinode k := by
  unfold State.owner owner
  rw [if_pos h.live, ino_self]

/-- The slots of an inode whose indirect block keeps its contents. -/
theorem owner_congr {ino ino' : Nat → Dinode} {m m' : Blocks} {x : Nat × Slot} (hino : x.1 < sb.ninodes → ino' x.1 = ino x.1)
    (hind : Live sb ino x.1 → (ino x.1).addrs 12 ≠ 0 →
      m' ((ino x.1).addrs 12).toNat = m ((ino x.1).addrs 12).toNat) :
    owner sb ino' m' x = owner sb ino m x := by
  have hlive : Live sb ino' x.1 ↔ Live sb ino x.1 := by
    refine and_congr_right fun _ => and_congr_right fun hlt => ?_
    rw [hino hlt]
  unfold owner
  by_cases hl : Live sb ino x.1
  · rw [if_pos hl, if_pos (hlive.mpr hl), hino hl.2.1, slot_congr (hind hl)]
  · rw [if_neg hl, if_neg fun h => hl (hlive.mp h)]

/-- The indirect block of an allocated inode is in a slot. -/
theorem owner_indirect {ino : Nat → Dinode} {m : Blocks} {j : Nat} (hl : Live sb ino j) :
    owner sb ino m (j, .indirect) = ((ino j).addrs 12).toNat := if_pos hl

theorem toNat_ne_zero {a : BitVec 32} : a ≠ 0 ↔ a.toNat ≠ 0 := by
  rw [Ne, Ne, ← BitVec.toNat_inj]
  exact Iff.rfl

/-- The metadata is marked. -/
theorem Loaded.meta (h : Loaded sb s ip) {b : Nat} (hb : b < sb.nmeta) : bit sb s.mem b :=
  (h.acc.used_iff b (by have : sb.nmeta ≤ sb.size := Nat.sub_le _ _; omega)).mpr (.inl hb)

/-! ## What is left alone -/

structure Upd (sb : Superblock) (ip : Fin NINODE) (W : Slot → Prop) (s s' : State) : Prop where
  disk : s'.disk = s.disk
  outstanding : s'.outstanding = s.outstanding
  others : ∀ jp, jp ≠ ip → s'.itable jp = s.itable jp
  core : s'.itable ip = { s.itable ip with addrs := (s'.itable ip).addrs }
  lh : ∀ b ∈ s.lh, b ∈ s'.lh
  home : ∀ b ∈ s'.lh, b ∈ s.lh ∨ sb.Home b
  dino : ∀ j, j < sb.ninodes → dino sb s'.mem j = dino sb s.mem j
  keep : ∀ x, s.owner sb ip x ≠ 0 → s'.owner sb ip x = s.owner sb ip x
  data : ∀ x, s.owner sb ip x ≠ 0 → ¬ (x.1 = (s.itable ip).inum ∧ W x.2) →
    s'.mem (s.owner sb ip x) = s.mem (s.owner sb ip x)

namespace Upd

variable {W W' : Slot → Prop}

theorem refl (s : State) : Upd sb ip W s s where
  disk := rfl
  outstanding := rfl
  others _ _ := rfl
  core := rfl
  lh _ hb := hb
  home _ hb := .inl hb
  dino _ _ := rfl
  keep _ _ := rfl
  data _ _ _ := rfl

theorem inum (h : Upd sb ip W s s') : (s'.itable ip).inum = (s.itable ip).inum := by rw [h.core]

theorem mono (h : Upd sb ip W s s') (hW : ∀ k, W k → W' k) : Upd sb ip W' s s' :=
  { h with data := fun x hx hn => h.data x hx fun hw => hn ⟨hw.1, hW _ hw.2⟩ }

theorem trans (h : Upd sb ip W s s') (h' : Upd sb ip W s' s'') : Upd sb ip W s s'' where
  disk := h'.disk.trans h.disk
  outstanding := h'.outstanding.trans h.outstanding
  others jp hj := (h'.others jp hj).trans (h.others jp hj)
  core := by
    rw [h'.core, h.core]
  lh b hb := h'.lh b (h.lh b hb)
  home b hb := (h'.home b hb).elim (h.home b) .inr
  dino j hj := (h'.dino j hj).trans (h.dino j hj)
  keep x hx := by
    have h1 := h.keep x hx
    rw [← h1, h'.keep x (h1 ▸ hx)]
  data x hx hn := by
    have h1 := h.keep x hx
    rw [← h.data x hx hn, ← h1, h'.data x (h1 ▸ hx) (by rw [h.inum]; exact hn)]

end Upd

/-! ## A fresh block -/

section Fresh

variable {n j : Nat} {x : Nat × Slot}

section

variable (h : Loaded sb s ip) (hsb : sb.Ok) (hlt : n < sb.size) (hfree : ¬ bit sb s.mem n)
include h hsb hlt hfree

/-- A block in a slot is neither the fresh one nor a bitmap block. -/
theorem Loaded.ne_fresh
    (hx : s.owner sb ip x ≠ 0) : s.owner sb ip x ≠ n ∧ s.owner sb ip x ≠ sb.bblock n := by
  have h1 := (h.acc.range x hx).1
  have h2 := hsb.bblock_lt hlt
  refine ⟨h.acc.not_mem hfree x hx, fun he => ?_⟩
  have he' : owner sb (s.ino sb ip) s.mem x = sb.bblock n := he
  omega

/-- The blocks in slots keep their contents when a block is taken. -/
theorem Loaded.allocated_data
    (hx : s.owner sb ip x ≠ 0) : (s.allocated sb n).mem (s.owner sb ip x) = s.mem (s.owner sb ip x) := by
  obtain ⟨h1, h2⟩ := h.ne_fresh hsb hlt hfree hx
  exact allocated_mem_ne h2 h1

/-- The indirect block of any allocated inode keeps its contents when a block is taken. -/
theorem Loaded.allocated_indirect
    (hl : Live sb (s.ino sb ip) j) (h0 : (s.ino sb ip j).addrs 12 ≠ 0) :
    (s.allocated sb n).mem ((s.ino sb ip j).addrs 12).toNat = s.mem ((s.ino sb ip j).addrs 12).toNat := by
  have he : s.owner sb ip (j, .indirect) = ((s.ino sb ip j).addrs 12).toNat := owner_indirect hl
  rw [← he]
  exact h.allocated_data hsb hlt hfree (by rw [he]; exact toNat_ne_zero.mp h0)

end

/-- The slot of `ip->addrs[k]`. -/
def slotAt (k : Fin 13) : Slot := if h : k.val < 12 then .direct ⟨k, h⟩ else .indirect

theorem slotAt_castSucc (k : Fin 12) : slotAt k.castSucc = .direct k := by
  unfold slotAt
  have hk : k.castSucc.val < 12 := k.isLt
  rw [dif_pos hk]
  rfl

theorem slot_slotAt (m : Blocks) (d : Dinode) (k : Fin 13) : slot m d (slotAt k) = (d.addrs k).toNat := by
  unfold slotAt
  split
  · rfl
  · next h =>
    have hk : k = 12 := Fin.ext (by have := k.isLt; omega)
    rw [hk]
    rfl

/-- The slots of an inode that gets the cleared block `a` as address `k`. -/
theorem slot_setAddr {m m' : Blocks} {d : Dinode} {k : Fin 13} {a : BitVec 32} (h0 : d.addrs k = 0) (ha : a ≠ 0)
    (hzero : m' a.toNat = fun _ => 0)
    (hind : d.addrs 12 ≠ 0 → m' (d.addrs 12).toNat = m (d.addrs 12).toNat) (κ : Slot) :
    slot m' { d with addrs := update d.addrs k a } κ = if κ = slotAt k then a.toNat else slot m d κ := by
  by_cases hκ : κ = slotAt k
  · rw [if_pos hκ, hκ, slot_slotAt]
    show (update d.addrs k a k).toNat = _
    rw [update_self]
  · rw [if_neg hκ]
    cases κ with
    | direct k' =>
      have hne : k'.castSucc ≠ k := by
        rintro rfl
        exact hκ (slotAt_castSucc k').symm
      show (update d.addrs k a k'.castSucc).toNat = _
      rw [update_of_ne hne]
      rfl
    | indirect =>
      have hne : (12 : Fin 13) ≠ k := by
        rintro rfl
        exact hκ rfl
      show (update d.addrs k a 12).toNat = _
      rw [update_of_ne hne]
      rfl
    | entry j =>
      show (if update d.addrs k a 12 = 0 then 0 else (get32 (m' (update d.addrs k a 12).toNat) (4 * j)).toNat) =
        if d.addrs 12 = 0 then 0 else (get32 (m (d.addrs 12).toNat) (4 * j)).toNat
      by_cases hk : (12 : Fin 13) = k
      · -- the new indirect block is empty
        subst hk
        rw [update_self, if_neg ha, if_pos h0, hzero, get32_zero]
        rfl
      · rw [update_of_ne hk]
        by_cases h12 : d.addrs 12 = 0
        · rw [if_pos h12, if_pos h12]
        · rw [if_neg h12, if_neg h12, hind h12]

/-- A fresh block is put into `ip->addrs[k]`. -/
def State.setAddr (sb : Superblock) (s : State) (ip : Fin NINODE) (k : Fin 13) (a : BitVec 32) : State :=
  (s.allocated sb a.toNat).setInode ip fun i => { i with addrs := Function.update i.addrs k a }

section SetAddr

variable {k : Fin 13} {a : BitVec 32}

theorem setAddr_core (sb : Superblock) (s : State) (ip : Fin NINODE) (k : Fin 13) (a : BitVec 32) :
    (s.setAddr sb ip k a).itable ip = { s.itable ip with addrs := update (s.itable ip).addrs k a } :=
  update_self ..

theorem setAddr_ne {jp : Fin NINODE} (h : jp ≠ ip) : (s.setAddr sb ip k a).itable jp = s.itable jp :=
  update_of_ne h _ _

theorem setAddr_ino (hsb : sb.Ok) (ha : sb.nmeta ≤ a.toNat) {j : Nat} (hlt : j < sb.ninodes)
    (hj : j ≠ (s.itable ip).inum) : (s.setAddr sb ip k a).ino sb ip j = s.ino sb ip j := by
  rw [ino_ne hj, ino_ne (by rw [setAddr_core]; exact hj)]
  exact dino_allocated hsb ha hlt

theorem setAddr_owner (h : Loaded sb s ip) (hsb : sb.Ok) (h0 : (s.itable ip).addrs k = 0) (ha0 : a ≠ 0)
    (ha : sb.nmeta ≤ a.toNat) (hlt : a.toNat < sb.size) (hfree : ¬ bit sb s.mem a.toNat) (x : Nat × Slot) :
    (s.setAddr sb ip k a).owner sb ip x =
      if x = ((s.itable ip).inum, slotAt k) then a.toNat else s.owner sb ip x := by
  obtain ⟨j, κ⟩ := x
  have hcore := setAddr_core sb s ip k a
  by_cases hj : j = (s.itable ip).inum
  · subst hj
    have hself : (s.setAddr sb ip k a).ino sb ip (s.itable ip).inum =
        { (s.itable ip).toDinode with addrs := update (s.itable ip).addrs k a } := by
      have hi := ino_self sb (s.setAddr sb ip k a) ip
      rw [hcore] at hi
      exact hi
    have hlive : Live sb ((s.setAddr sb ip k a).ino sb ip) (s.itable ip).inum := by
      refine ⟨h.live.1, h.live.2.1, ?_⟩
      have ht := h.live.2.2
      rw [ino_self] at ht
      rw [hself]
      exact ht
    have hind : (s.itable ip).addrs 12 ≠ 0 →
        (s.allocated sb a.toNat).mem ((s.itable ip).addrs 12).toNat = s.mem ((s.itable ip).addrs 12).toNat := by
      intro h12
      have hd := h.allocated_indirect hsb hlt hfree h.live
      rw [ino_self] at hd
      exact hd h12
    rw [owner_self h]
    show (if Live sb ((s.setAddr sb ip k a).ino sb ip) (s.itable ip).inum then _ else 0) = _
    rw [if_pos hlive, hself]
    refine (slot_setAddr h0 ha0 allocated_mem_self hind κ).trans ?_
    by_cases hκ : κ = slotAt k
    · rw [if_pos hκ, if_pos (by rw [hκ])]
    · rw [if_neg hκ, if_neg fun he => hκ (Prod.ext_iff.mp he).2]
  · rw [if_neg fun he => hj (Prod.ext_iff.mp he).1]
    exact owner_congr (fun hlt' => setAddr_ino hsb ha hlt' hj) fun hl h12 =>
      h.allocated_indirect hsb hlt hfree hl h12

/-- **A fresh block in an empty address** keeps the accounting. -/
theorem setAddr_loaded (h : Loaded sb s ip) (hsb : sb.Ok) (h0 : (s.itable ip).addrs k = 0) (ha0 : a ≠ 0)
    (ha : sb.nmeta ≤ a.toNat) (hlt : a.toNat < sb.size) (hfree : ¬ bit sb s.mem a.toNat) :
    Loaded sb (s.setAddr sb ip k a) ip ∧ Upd sb ip (fun _ => False) s (s.setAddr sb ip k a) := by
  have howner := setAddr_owner h hsb h0 ha0 ha hlt hfree
  have hcore := setAddr_core sb s ip k a
  have hempty : s.owner sb ip ((s.itable ip).inum, slotAt k) = 0 := by
    rw [owner_self h, slot_slotAt, h0]
    rfl
  refine ⟨⟨h.acc.assign hempty (toNat_ne_zero.mp ha0) hfree hlt howner fun b hb => bit_allocated hsb ha hb, ?_⟩, ?_⟩
  · have ht := h.live.2.2
    rw [ino_self] at ht
    refine ⟨by rw [hcore]; exact h.live.1, by rw [hcore]; exact h.live.2.1, ?_⟩
    rw [ino_self, hcore]
    exact ht
  · have hne : ∀ x, s.owner sb ip x ≠ 0 → x ≠ ((s.itable ip).inum, slotAt k) := fun x hx he => hx (he ▸ hempty)
    exact {
      disk := rfl
      outstanding := rfl
      others := fun _ hjp => setAddr_ne hjp
      core := by rw [hcore]
      lh := fun b hb => mem_allocated.mpr (.inl hb)
      home := fun b hb => by
        rcases mem_allocated.mp hb with hb | rfl | rfl
        · exact .inl hb
        · exact .inr (hsb.home_bblock _)
        · exact .inr (hsb.home_data ha)
      dino := fun _ hj => dino_allocated hsb ha hj
      keep := fun x hx => by rw [howner, if_neg (hne x hx)]
      data := fun _ hx _ => h.allocated_data hsb hlt hfree hx }

end SetAddr

/-- A fresh block is put into entry `j` of the indirect block `ind`. -/
def State.setEntry (sb : Superblock) (s : State) (ind j : Nat) (a : BitVec 32) : State :=
  (s.allocated sb a.toNat).store ind (put32 ((s.allocated sb a.toNat).mem ind) (4 * j) a)

section SetEntry

variable {ind : Nat} {k : Fin 256} {a : BitVec 32}

theorem get32_put32_entry (b : Bytes) (j k : Nat) (a : BitVec 32) :
    get32 (put32 b (4 * j) a) (4 * k) = if k = j then a else get32 b (4 * k) := by
  by_cases hk : k = j
  · rw [hk, if_pos rfl, get32_put32]
  · rw [if_neg hk]
    exact get32_congr (agree_splice _ (by omega))

theorem setEntry_mem_ne {b : Nat} (h : b ≠ ind) : (s.setEntry sb ind j a).mem b = (s.allocated sb a.toNat).mem b :=
  update_of_ne h _ _

theorem setEntry_owner (h : Loaded sb s ip) (hsb : sb.Ok) (hind : ((s.itable ip).addrs 12).toNat = ind) (h12 : ind ≠ 0)
    (ha : sb.nmeta ≤ a.toNat) (hlt : a.toNat < sb.size) (hfree : ¬ bit sb s.mem a.toNat) (x : Nat × Slot) :
    (s.setEntry sb ind k a).owner sb ip x =
      if x = ((s.itable ip).inum, .entry k) then a.toNat else s.owner sb ip x := by
  have hslot : s.owner sb ip ((s.itable ip).inum, .indirect) = ind := by
    rw [owner_self h]
    exact hind
  have hmeta : sb.nmeta ≤ ind := by
    have hr := (h.acc.range _ (show s.owner sb ip ((s.itable ip).inum, .indirect) ≠ 0 by rw [hslot]; exact h12)).1
    rw [show owner sb (s.ino sb ip) s.mem _ = ind from hslot] at hr
    exact hr
  have hino : ∀ j, j < sb.ninodes → (s.setEntry sb ind k a).ino sb ip j = s.ino sb ip j := by
    intro j hj
    by_cases hji : j = (s.itable ip).inum
    · subst hji
      exact (ino_self sb (s.setEntry sb ind k a) ip).trans (ino_self sb s ip).symm
    · rw [ino_ne hji, ino_ne (show j ≠ ((s.setEntry sb ind k a).itable ip).inum from hji)]
      have h1 := hsb.iblock_lt_nmeta hj
      exact (dino_update_ne (by omega)).trans (dino_allocated hsb ha hj)
  obtain ⟨j, κ⟩ := x
  by_cases hj : j = (s.itable ip).inum
  · subst hj
    have hlive : Live sb ((s.setEntry sb ind k a).ino sb ip) (s.itable ip).inum := by
      refine ⟨h.live.1, h.live.2.1, ?_⟩
      rw [hino _ h.live.2.1]
      exact h.live.2.2
    have h120 : (s.itable ip).addrs 12 ≠ 0 := toNat_ne_zero.mpr (hind ▸ h12)
    rw [owner_self h]
    show (if Live sb ((s.setEntry sb ind k a).ino sb ip) (s.itable ip).inum then _ else 0) = _
    rw [if_pos hlive, hino _ h.live.2.1, ino_self]
    cases κ with
    | direct k' | indirect => rw [if_neg (by simp)]; rfl
    | entry k' =>
      have hkept : (s.allocated sb a.toNat).mem ind = s.mem ind := by
        have hd := h.allocated_data hsb hlt hfree (by rw [hslot]; exact h12)
        rw [hslot] at hd
        exact hd
      have hmem : (s.setEntry sb ind k a).mem ind = put32 (s.mem ind) (4 * k) a := by
        rw [← hkept]
        exact update_self ..
      show (if (s.itable ip).addrs 12 = 0 then 0 else
        (get32 ((s.setEntry sb ind k a).mem ((s.itable ip).addrs 12).toNat) (4 * k')).toNat) = _
      rw [if_neg h120, hind, hmem, get32_put32_entry]
      by_cases hk : k' = k
      · rw [hk, if_pos rfl, if_pos rfl]
      · rw [if_neg fun he => hk (Fin.ext he), if_neg fun he => hk (Slot.entry.inj (Prod.ext_iff.mp he).2)]
        show _ = if (s.itable ip).addrs 12 = 0 then 0 else (get32 (s.mem ((s.itable ip).addrs 12).toNat) (4 * k')).toNat
        rw [if_neg h120, hind]
  · rw [if_neg fun he => hj (Prod.ext_iff.mp he).1]
    refine owner_congr (hino j) fun hl hj12 => ?_
    have hne : ((s.ino sb ip j).addrs 12).toNat ≠ ind := by
      intro he
      have ho : s.owner sb ip (j, .indirect) = ind := (owner_indirect hl).trans he
      have hi := h.acc.inj (j, .indirect) ((s.itable ip).inum, .indirect) (show s.owner sb ip _ ≠ 0 by rw [ho]; exact h12)
        (show s.owner sb ip _ = s.owner sb ip _ by rw [ho, hslot])
      exact hj (Prod.ext_iff.mp hi).1
    exact (setEntry_mem_ne hne).trans (h.allocated_indirect hsb hlt hfree hl hj12)

/-- **A fresh block in an empty entry** of the indirect block keeps the accounting. -/
theorem setEntry_loaded (h : Loaded sb s ip) (hsb : sb.Ok) (hind : ((s.itable ip).addrs 12).toNat = ind) (h12 : ind ≠ 0)
    (h0 : get32 (s.mem ind) (4 * k) = 0) (ha0 : a ≠ 0) (ha : sb.nmeta ≤ a.toNat) (hlt : a.toNat < sb.size)
    (hfree : ¬ bit sb s.mem a.toNat) :
    Loaded sb (s.setEntry sb ind k a) ip ∧ Upd sb ip (fun κ => κ = .indirect) s (s.setEntry sb ind k a) := by
  have howner := setEntry_owner (k := k) h hsb hind h12 ha hlt hfree
  have hempty : s.owner sb ip ((s.itable ip).inum, .entry k) = 0 := by
    rw [owner_self h]
    show (if (s.itable ip).addrs 12 = 0 then 0 else (get32 (s.mem ((s.itable ip).addrs 12).toNat) (4 * k)).toNat) = 0
    rw [hind, h0]
    exact ite_self _
  have hslot : s.owner sb ip ((s.itable ip).inum, .indirect) = ind := by
    rw [owner_self h]
    exact hind
  have hmeta : sb.nmeta ≤ ind := by
    have hr := (h.acc.range _ (show s.owner sb ip ((s.itable ip).inum, .indirect) ≠ 0 by rw [hslot]; exact h12)).1
    rw [show owner sb (s.ino sb ip) s.mem _ = ind from hslot] at hr
    exact hr
  refine ⟨⟨h.acc.assign hempty (toNat_ne_zero.mp ha0) hfree hlt howner fun b hb => ?_, ?_⟩, ?_⟩
  · have h1 := hsb.bblock_lt hb
    exact (bit_update_ne (by omega)).trans (bit_allocated hsb ha hb)
  · refine ⟨h.live.1, h.live.2.1, ?_⟩
    have ht := h.live.2.2
    rw [ino_self] at ht
    exact (ino_self sb (s.setEntry sb ind k a) ip).symm ▸ ht
  · have hne : ∀ x, s.owner sb ip x ≠ 0 → x ≠ ((s.itable ip).inum, .entry k) := fun x hx he => hx (he ▸ hempty)
    exact {
      disk := rfl
      outstanding := rfl
      others := fun _ _ => rfl
      core := rfl
      lh := fun b hb => mem_logged.mpr (.inl (mem_allocated.mpr (.inl hb)))
      home := fun b hb => by
        rcases mem_logged.mp hb with hb | rfl
        · rcases mem_allocated.mp hb with hb | rfl | rfl
          · exact .inl hb
          · exact .inr (hsb.home_bblock _)
          · exact .inr (hsb.home_data ha)
        · exact .inr (hsb.home_data hmeta)
      dino := fun _ hj => by
        have h1 := hsb.iblock_lt_nmeta hj
        exact (dino_update_ne (by omega)).trans (dino_allocated hsb ha hj)
      keep := fun x hx => by rw [howner, if_neg (hne x hx)]
      data := fun x hx hn => by
        have hne : s.owner sb ip x ≠ ind := by
          intro he
          have hi := h.acc.inj x _ hx (show s.owner sb ip x = s.owner sb ip ((s.itable ip).inum, .indirect) by rw [he, hslot])
          exact hn ⟨by rw [hi], by rw [hi]⟩
        exact (setEntry_mem_ne hne).trans (h.allocated_data hsb hlt hfree hx) }

end SetEntry

end Fresh

/-! ## `bmap` -/

/-- Every block that has changed is in the log. -/
def Tracked (s s' : State) : Prop := ∀ b, s'.mem b ≠ s.mem b → b ∈ s'.lh

theorem Tracked.refl (s : State) : Tracked s s := fun _ h => absurd rfl h

theorem Tracked.trans (h : Tracked s s') (h' : Tracked s' s'') (hlh : ∀ b ∈ s'.lh, b ∈ s''.lh) : Tracked s s'' := by
  intro b hb
  by_cases hb' : s'.mem b = s.mem b
  · exact h' b (by rw [hb']; exact hb)
  · exact hlh b (h b hb')

/-- Blocks that the indirect block may still add to the log: itself and its bitmap block. -/
def State.pot (s : State) (ip : Fin NINODE) : Nat :=
  if (s.itable ip).addrs 12 ≠ 0 ∧ ((s.itable ip).addrs 12).toNat ∈ s.lh then 0 else 2

theorem pot_le (h12 : (s'.itable ip).addrs 12 = (s.itable ip).addrs 12) (hlh : ∀ b ∈ s.lh, b ∈ s'.lh) :
    s'.pot ip ≤ s.pot ip := by
  unfold State.pot
  by_cases hin : (s.itable ip).addrs 12 ≠ 0 ∧ ((s.itable ip).addrs 12).toNat ∈ s.lh
  · rw [if_pos hin, if_pos ⟨by rw [h12]; exact hin.1, by rw [h12]; exact hlh _ hin.2⟩]
  · rw [if_neg hin]
    split
    · omega
    · omega

/-- What `bmap` has done when it returns `a`: the log has grown only if `a` is in it. -/
structure Mapped (sb : Superblock) (ip : Fin NINODE) (s s' : State) (a : BitVec 32) : Prop where
  loaded : Loaded sb s' ip
  upd : Upd sb ip (fun κ => κ = .indirect) s s'
  tracked : Tracked s s'
  len : s.Short → s'.Short
  cost : s'.lh.length + s'.pot ip ≤ s.lh.length + s.pot ip ∨
    s'.lh.length + s'.pot ip ≤ s.lh.length + s.pot ip + 2 ∧ a.toNat ∈ s'.lh

section Bmap

variable {k : Fin 13} {a : BitVec 32} {ind : Nat}

theorem Mapped.refl (h : Loaded sb s ip) : Mapped sb ip s s a := ⟨h, .refl s, .refl s, id, .inl (Nat.le_refl _)⟩

theorem tracked_allocated (s : State) (n : Nat) : Tracked s (s.allocated sb n) := by
  intro b hb
  rw [mem_allocated]
  by_contra hn
  push Not at hn
  exact hb (allocated_mem_ne hn.2.1 hn.2.2)

theorem length_logged_mem {b : Nat} (h : b ∈ s.lh) : (s.logged b).lh = s.lh := if_pos h

variable (h : Loaded sb s ip) (hsb : sb.Ok) (hout : 1 ≤ s.outstanding)
include h hsb hout

/-- The address in `ip->addrs[k]`. -/
theorem addrAt_spec
    (hfit : (s.itable ip).addrs k = 0 → Fits E s 2) :
    Ensures (addrAt (balloc sb) ip k) s (fun a s' => a = (s'.itable ip).addrs k ∧
      Mapped sb ip s s' a ∧ (k = 12 → s'.lh.length + s'.pot ip ≤ s.lh.length + s.pot ip)) E := by
  refine .get_bind ?_
  by_cases h0 : (s.itable ip).addrs k = 0
  · rw [if_pos h0]
    refine (balloc_spec hsb (fun _ hb => h.meta hb) hout (hfit h0)).bind ?_
    rintro a s₁ (⟨rfl, rfl⟩ | ⟨ha0, ha, hlt, hfree, rfl, hshort⟩)
    · exact .pure ⟨h0.symm, .refl h, fun _ => Nat.le_refl _⟩
    rw [if_pos ha0]
    obtain ⟨hl, hu⟩ := setAddr_loaded h hsb h0 ha0 ha hlt hfree
    have hlen : (s.setAddr sb ip k a).lh.length ≤ s.lh.length + 2 := length_allocated sb s a.toNat
    have hmem : a.toNat ∈ (s.setAddr sb ip k a).lh := mem_allocated.mpr (.inr (.inr rfl))
    have hself : ((s.setAddr sb ip k a).itable ip).addrs k = a := by
      rw [setAddr_core]
      exact update_self ..
    have hcost : (k = 12 → (s.setAddr sb ip k a).lh.length + (s.setAddr sb ip k a).pot ip ≤ s.lh.length + s.pot ip) ∧
        (s.setAddr sb ip k a).lh.length + (s.setAddr sb ip k a).pot ip ≤ s.lh.length + s.pot ip + 2 := by
      by_cases hk : k = 12
      · -- the pending cost of the indirect block has been paid
        have hpot : (s.setAddr sb ip k a).pot ip = 0 := by
          subst hk
          exact if_pos ⟨by rw [hself]; exact ha0, by rw [hself]; exact hmem⟩
        have hpot' : s.pot ip = 2 := if_neg fun hn => hn.1 (hk ▸ h0)
        omega
      · have hpot : (s.setAddr sb ip k a).pot ip ≤ s.pot ip := by
          refine pot_le ?_ hu.lh
          rw [setAddr_core]
          exact update_of_ne (Ne.symm hk) _ _
        exact ⟨fun he => absurd he hk, by omega⟩
    exact setInode_bind (.pure ⟨hself.symm, ⟨hl, hu.mono fun _ hf => hf.elim, tracked_allocated s a.toNat,
      fun _ => hshort, .inr ⟨hcost.2, hmem⟩⟩, hcost.1⟩)
  · rw [if_neg h0]
    exact .pure ⟨rfl, .refl h, fun _ => Nat.le_refl _⟩

/-- An entry of the indirect block. -/
theorem bmapEntry_spec {j : Fin 256}
    (hfit : Fits E s (s.pot ip + 3)) (hind : ((s.itable ip).addrs 12).toNat = ind) (h12 : ind ≠ 0) :
    Ensures (bmapEntry (balloc sb) ind j) s (fun a s' => a.toNat = slot s'.mem (s'.itable ip).toDinode (.entry j) ∧
      Mapped sb ip s s' a) E := by
  have h120 : (s.itable ip).addrs 12 ≠ 0 := toNat_ne_zero.mpr (hind ▸ h12)
  have hentry : slot s.mem (s.itable ip).toDinode (.entry j) = (get32 (s.mem ind) (4 * j)).toNat := by
    show (if (s.itable ip).addrs 12 = 0 then 0 else (get32 (s.mem ((s.itable ip).addrs 12).toNat) (4 * j)).toNat) = _
    rw [if_neg h120, hind]
  refine bread_bind ?_
  by_cases h0 : get32 (s.mem ind) (4 * j) = 0
  · rw [if_pos h0]
    refine (balloc_spec hsb (fun _ hb => h.meta hb) hout (hfit.mono (by omega))).bind ?_
    rintro a s₁ (⟨rfl, rfl⟩ | ⟨ha0, ha, hlt, hfree, rfl, -⟩)
    · exact .pure ⟨by rw [hentry, h0], .refl h⟩
    rw [if_pos ha0]
    obtain ⟨hl, hu⟩ := setEntry_loaded h hsb hind h12 h0 ha0 ha hlt hfree
    have hlen := length_allocated sb s a.toNat
    refine bread_bind (store_bind hout (hfit.mono (by omega)) fun hshort => .pure ?_)
    show a.toNat = slot (s.setEntry sb ind j a).mem ((s.setEntry sb ind j a).itable ip).toDinode (.entry j) ∧
      Mapped sb ip s (s.setEntry sb ind j a) a
    refine ⟨?_, hl, hu, ?_, fun _ => hshort, .inr ⟨?_, ?_⟩⟩
    · have ho := setEntry_owner (k := j) h hsb hind h12 ha hlt hfree ((s.itable ip).inum, .entry j)
      rw [if_pos rfl] at ho
      exact ho.symm.trans (owner_self hl (.entry j))
    · have htail : Tracked (s.allocated sb a.toNat) (s.setEntry sb ind j a) := by
        intro b hb
        refine mem_logged.mpr (.inr ?_)
        by_contra hne
        exact hb (setEntry_mem_ne hne)
      exact (tracked_allocated s a.toNat).trans htail fun b hb => mem_logged.mpr (.inl hb)
    · have hpot : (s.setEntry sb ind j a).pot ip = 0 := if_pos ⟨h120, mem_logged.mpr (.inr hind)⟩
      by_cases hin : ind ∈ s.lh
      · have hsame : (s.setEntry sb ind j a).lh.length = (s.allocated sb a.toNat).lh.length :=
          congrArg List.length (length_logged_mem (mem_allocated.mpr (.inl hin)))
        omega
      · have hpot' : s.pot ip = 2 := if_neg fun hn => hin (hind ▸ hn.2)
        have hle : (s.setEntry sb ind j a).lh.length ≤ (s.allocated sb a.toNat).lh.length + 1 :=
          length_logged ((s.allocated sb a.toNat).setBuf _ _) ind
        omega
    · exact mem_logged.mpr (.inl (mem_allocated.mpr (.inr (.inr rfl))))
  · rw [if_neg h0]
    exact .pure ⟨hentry.symm, .refl h⟩

/-- **`bmap`** gives the address of a block of the file, which is 0 only if the disk is full. -/
theorem bmap_spec {bn : Nat}
    (hfit : Fits E s (s.pot ip + 3)) (hbn : bn < 268) :
    Ensures (bmap (balloc sb) ip bn) s (fun a s' => a.toNat = addr s'.mem (s'.itable ip).toDinode bn ∧
      Mapped sb ip s s' a) E := by
  unfold bmap addr slotOf
  by_cases h12 : bn < 12
  · rw [dif_pos h12, dif_pos h12]
    refine (addrAt_spec h hsb hout fun _ => hfit.mono (by omega)).mono ?_
    rintro a s' ⟨ha, hm, -⟩
    exact ⟨congrArg BitVec.toNat ha, hm⟩
  · have hj : bn - 12 < 256 := by omega
    rw [dif_neg h12, if_pos hj, dif_neg h12, dif_pos hj]
    have hfit₁ : (s.itable ip).addrs 12 = 0 → Fits E s 2 := fun _ => hfit.mono (by omega)
    refine (addrAt_spec h hsb hout hfit₁).bind ?_
    rintro ind s₁ ⟨hind, hm, hcost⟩
    have hcost := hcost rfl
    by_cases h0 : ind = 0
    · rw [if_pos h0]
      refine .pure ⟨?_, ⟨hm.loaded, hm.upd, hm.tracked, hm.len, .inl hcost⟩⟩
      show 0 = if (s₁.itable ip).addrs 12 = 0 then 0 else _
      rw [if_pos (hind.symm.trans h0)]
    · rw [if_neg h0]
      refine (bmapEntry_spec (j := ⟨bn - 12, hj⟩) hm.loaded hsb (by rw [hm.upd.outstanding]; exact hout)
        (hfit.mono (by omega)) (by rw [← hind]) (toNat_ne_zero.mp h0)).mono ?_
      rintro a s₂ ⟨ha, hm'⟩
      refine ⟨ha, hm'.loaded, hm.upd.trans hm'.upd, hm.tracked.trans hm'.tracked hm'.upd.lh,
        fun h => hm'.len (hm.len h), ?_⟩
      rcases hm'.cost with hc | ⟨hc, hmem⟩
      · exact .inl (hc.trans hcost)
      · exact .inr ⟨by omega, hmem⟩

end Bmap

end Xv6.Disk
