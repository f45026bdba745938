import Xv6.Disk.Files

/-!
# Freeing the blocks of an inode

`itrunc` frees the blocks of an inode one after the other, the direct ones, those in the indirect block and the indirect block.
`Freed` says that the blocks in the slots `S` are freed so far: only the bitmap has changed. At the end the inode has no block
and the accounting holds again (`itrunc_spec`). `iput` of the last reference to an inode without links truncates and frees
it.
-/

namespace Xv6.Disk

open Lib
open Function (update update_of_ne update_self)

variable {sb : Superblock} {s s' s'' : State} {ip : Fin NINODE} {E : String → Prop} {k : Nat}

/-! ## Room in the log -/

/-- There is room in the log for the bitmap, if it is one block, and for `k` more blocks. -/
def Room (E : String → Prop) (sb : Superblock) (s : State) (k : Nat) : Prop :=
  E "too big a transaction" ∨ sb.size ≤ 8192 ∧ s.lh.length + (if sb.bmapstart ∈ s.lh then 0 else 1) + k ≤ 30

theorem Room.fits (h : Room E sb s k) : Fits E s k := by
  rcases h with h | ⟨-, h⟩
  · exact .inl h
  · exact .inr (by omega)

/-- The bitmap is logged once. -/
theorem Room.store {b : Nat} {v : Bytes} (h : Room E sb s k) (hb : b < sb.size) : Room E sb (s.store (sb.bblock b) v) k := by
  rcases h with h | ⟨hsize, h⟩
  · exact .inl h
  refine .inr ⟨hsize, ?_⟩
  have hdiv : sb.bblock b = sb.bmapstart := by
    unfold Superblock.bblock
    omega
  have hself : sb.bmapstart ∈ (s.store sb.bmapstart v).lh := mem_logged.mpr (.inr rfl)
  rw [hdiv, if_pos hself]
  by_cases hin : sb.bmapstart ∈ s.lh
  · rw [if_pos hin] at h
    have hlh : (s.store sb.bmapstart v).lh = s.lh := if_pos hin
    rw [hlh]
    exact h
  · rw [if_neg hin] at h
    have hlen : (s.store sb.bmapstart v).lh.length ≤ s.lh.length + 1 := length_logged (s.setBuf sb.bmapstart v) _
    omega

/-! ## The blocks freed so far -/

structure Freed (sb : Superblock) (ip : Fin NINODE) (S : Slot → Prop) (s s' : State) : Prop where
  disk : s'.disk = s.disk
  outstanding : s'.outstanding = s.outstanding
  others : ∀ jp, jp ≠ ip → s'.itable jp = s.itable jp
  core : s'.itable ip = { s.itable ip with addrs := (s'.itable ip).addrs }
  lh : ∀ b ∈ s.lh, b ∈ s'.lh
  home : ∀ b ∈ s'.lh, b ∈ s.lh ∨ sb.Home b
  tracked : Tracked s s'
  len : s.Short → s'.Short
  mem : ∀ b, (∀ c, c < sb.size → b ≠ sb.bblock c) → s'.mem b = s.mem b
  bits : ∀ b, b < sb.size → (bit sb s'.mem b ↔ bit sb s.mem b ∧ ¬ ∃ κ, S κ ∧
    slot s.mem (s.itable ip).toDinode κ ≠ 0 ∧ slot s.mem (s.itable ip).toDinode κ = b)

namespace Freed

variable {S S' : Slot → Prop} {κ : Slot}

theorem start (hS : ∀ κ, ¬ S κ) : Freed sb ip S s s where
  disk := rfl
  outstanding := rfl
  others _ _ := rfl
  core := rfl
  lh _ hb := hb
  home _ hb := .inl hb
  tracked := .refl s
  len := id
  mem _ _ := rfl
  bits b _ := by
    refine ⟨fun h => ⟨h, ?_⟩, fun h => h.1⟩
    rintro ⟨κ, hκ, -⟩
    exact hS κ hκ

variable (h : Freed sb ip S s s')
include h

/-- The addresses in the copy may change. -/
theorem setAddrs {f : Inode → Inode} (hf : ∀ i, f i = { i with addrs := (f i).addrs }) :
    Freed sb ip S s (s'.setInode ip f) :=
  { h with
    others := fun jp hj => (setInode_ne hj).trans (h.others jp hj)
    core := by
      rw [setInode_self, hf, h.core] }

/-- A slot without a block. -/
theorem skip (hS : ∀ κ', S' κ' ↔ S κ' ∨ κ' = κ) (h0 : slot s.mem (s.itable ip).toDinode κ = 0) : Freed sb ip S' s s' :=
  { h with
    bits := fun b hb => by
      rw [h.bits b hb]
      refine and_congr_right fun _ => not_congr ⟨?_, ?_⟩
      · rintro ⟨κ', hκ, h1, h2⟩
        exact ⟨κ', (hS κ').mpr (.inl hκ), h1, h2⟩
      · rintro ⟨κ', hκ, h1, h2⟩
        rcases (hS κ').mp hκ with hκ | rfl
        · exact ⟨κ', hκ, h1, h2⟩
        · exact absurd h0 h1 }

/-- The block in a slot is below the size and still marked. -/
theorem marked (hl : Loaded sb s ip) (hκ : ¬ S κ) (h0 : slot s.mem (s.itable ip).toDinode κ ≠ 0) :
    slot s.mem (s.itable ip).toDinode κ < sb.size ∧ bit sb s'.mem (slot s.mem (s.itable ip).toDinode κ) := by
  have hslot := owner_self hl
  have hx : s.owner sb ip ((s.itable ip).inum, κ) ≠ 0 := by
    rw [hslot]
    exact h0
  have hlt := (hl.acc.range _ hx).2
  have hbit := hl.acc.is_used hx
  rw [show Disk.owner sb (s.ino sb ip) s.mem _ = _ from hslot κ] at hlt hbit
  refine ⟨hlt, (h.bits _ hlt).mpr ⟨hbit, ?_⟩⟩
  rintro ⟨κ', hκ', -, he⟩
  have hsame := hl.acc.inj ((s.itable ip).inum, κ) ((s.itable ip).inum, κ') hx ((hslot κ).trans (he.symm.trans (hslot κ').symm))
  rw [(Prod.mk.inj hsame).2] at hκ
  exact hκ hκ'

/-- One more block is freed. -/
theorem clear (hsb : sb.Ok) (hS : ∀ κ', S' κ' ↔ S κ' ∨ κ' = κ) {a : Nat}
    (ha : slot s.mem (s.itable ip).toDinode κ = a) (h0 : a ≠ 0) (hlt : a < sb.size)
    (hshort : (s'.store (sb.bblock a) (clearBit (s'.mem (sb.bblock a)) (a % 8192))).Short) :
    Freed sb ip S' s (s'.store (sb.bblock a) (clearBit (s'.mem (sb.bblock a)) (a % 8192))) where
  disk := h.disk
  outstanding := h.outstanding
  others := h.others
  core := h.core
  lh b hb := mem_logged.mpr (.inl (h.lh b hb))
  home b hb := by
    rcases mem_logged.mp hb with hb | rfl
    · exact h.home b hb
    · exact .inr (hsb.home_bblock a)
  tracked b hb := by
    refine mem_logged.mpr ?_
    by_cases he : b = sb.bblock a
    · exact .inr he
    · refine .inl (h.tracked b fun hs => hb ?_)
      exact (update_of_ne he _ _).trans hs
  len _ := hshort
  mem b hb := (update_of_ne (hb a hlt) _ _).trans (h.mem b hb)
  bits b hb := by
    show bit sb (update s'.mem _ _) b ↔ _
    rw [bit_clearBit, h.bits b hb, and_assoc]
    refine and_congr_right fun _ => ⟨?_, fun hno => ⟨?_, ?_⟩⟩
    · rintro ⟨hno, hne⟩ ⟨κ', hκ, h1, h2⟩
      rcases (hS κ').mp hκ with hκ | rfl
      · exact hno ⟨κ', hκ, h1, h2⟩
      · exact hne (h2.symm.trans ha)
    · rintro ⟨κ', hκ, h1, h2⟩
      exact hno ⟨κ', (hS κ').mpr (.inl hκ), h1, h2⟩
    · rintro rfl
      exact hno ⟨κ, (hS κ).mpr (.inr rfl), by rw [ha]; exact h0, ha⟩

/-- `bfree` of the block in a slot. -/
theorem bfree (hl : Loaded sb s ip) (hsb : sb.Ok) (hS : ∀ κ', S' κ' ↔ S κ' ∨ κ' = κ) (hκ : ¬ S κ)
    {a : BitVec 32} (ha : slot s.mem (s.itable ip).toDinode κ = a.toNat) (h0 : a ≠ 0) (hout : 1 ≤ s.outstanding)
    (hroom : Room E sb s' (k + 1)) :
    Ensures (Disk.bfree sb a.toNat) s' (fun _ s'' => Freed sb ip S' s s'' ∧ s''.itable = s'.itable ∧ Room E sb s'' (k + 1)) E := by
  have h0' := toNat_ne_zero.mp h0
  obtain ⟨hlt, hbit⟩ := h.marked hl hκ (by rw [ha]; exact h0')
  rw [ha] at hlt hbit
  refine (bfree_spec (by rw [h.outstanding]; exact hout) (hroom.fits.mono (by omega)) hbit).mono ?_
  rintro _ _ ⟨rfl, hshort⟩
  exact ⟨h.clear hsb hS ha h0' hlt hshort, rfl, hroom.store hlt⟩

end Freed

/-! ## `itrunc` -/

/-- What `itrunc` has done. -/
structure Truncated (sb : Superblock) (ip : Fin NINODE) (s s' : State) : Prop where
  loaded : Loaded sb s' ip
  sync : Synced sb s' ip
  apart : Apart sb (· = (s.itable ip).inum) s.mem s'.mem
  disk : s'.disk = s.disk
  outstanding : s'.outstanding = s.outstanding
  others : ∀ jp, jp ≠ ip → s'.itable jp = s.itable jp
  core : s'.itable ip = { s.itable ip with addrs := fun _ => 0, size := 0 }
  lh : ∀ b ∈ s.lh, b ∈ s'.lh
  home : ∀ b ∈ s'.lh, b ∈ s.lh ∨ sb.Home b
  len : s'.Short
  tracked : Tracked s s'
  bits : ∀ b, b < sb.size → (bit sb s'.mem b ↔ bit sb s.mem b ∧ ¬ ∃ κ,
    slot s.mem (s.itable ip).toDinode κ ≠ 0 ∧ slot s.mem (s.itable ip).toDinode κ = b)

section Itrunc

variable {S : Slot → Prop}

/-- The slots of the direct addresses that are not in `l`. -/
def DirectDone (l : List (Fin 12)) (κ : Slot) : Prop := ∃ k, κ = .direct k ∧ k ∉ l

/-- The slots of the direct addresses, and of the entries that are not in `l`. -/
def EntryDone (l : List (Fin 256)) (κ : Slot) : Prop := (∃ k, κ = .direct k) ∨ ∃ j, κ = .entry j ∧ j ∉ l

theorem directDone_cons {a : Fin 12} {l : List (Fin 12)} (ha : a ∉ l) (κ : Slot) :
    DirectDone l κ ↔ DirectDone (a :: l) κ ∨ κ = .direct a := by
  constructor
  · rintro ⟨k, rfl, hk⟩
    by_cases hka : k = a
    · exact .inr (by rw [hka])
    · exact .inl ⟨k, rfl, fun hm => (List.mem_cons.mp hm).elim hka hk⟩
  · rintro (⟨k, rfl, hk⟩ | rfl)
    · exact ⟨k, rfl, fun hm => hk (List.mem_cons_of_mem a hm)⟩
    · exact ⟨a, rfl, ha⟩

theorem entryDone_cons {a : Fin 256} {l : List (Fin 256)} (ha : a ∉ l) (κ : Slot) :
    EntryDone l κ ↔ EntryDone (a :: l) κ ∨ κ = .entry a := by
  constructor
  · rintro (hd | ⟨j, rfl, hj⟩)
    · exact .inl (.inl hd)
    · by_cases hja : j = a
      · exact .inr (by rw [hja])
      · exact .inl (.inr ⟨j, rfl, fun hm => (List.mem_cons.mp hm).elim hja hj⟩)
  · rintro ((hd | ⟨j, rfl, hj⟩) | rfl)
    · exact .inl hd
    · exact .inr ⟨j, rfl, fun hm => hj (List.mem_cons_of_mem a hm)⟩
    · exact .inr ⟨a, rfl, ha⟩

/-- The loop over the direct addresses. -/
theorem directLoop_spec (hl : Loaded sb s ip) (hsb : sb.Ok) (hout : 1 ≤ s.outstanding) (hroom : Room E sb s (k + 1)) :
    Ensures ((List.finRange 12).forM fun k => do
      let a := ((← get).itable ip).addrs k.castSucc
      if a ≠ 0 then
        bfree sb a.toNat
        setInode ip fun i => { i with addrs := update i.addrs k.castSucc 0 }) s
      (fun _ s' => Freed sb ip (DirectDone []) s s' ∧ (∀ k : Fin 12, (s'.itable ip).addrs k.castSucc = 0) ∧
        (s'.itable ip).addrs 12 = (s.itable ip).addrs 12 ∧ Room E sb s' (k + 1)) E := by
  refine (Ensures.forM (I := fun l s' => l.Nodup ∧ Freed sb ip (DirectDone l) s s' ∧
    (∀ k : Fin 12, (s'.itable ip).addrs k.castSucc = if k ∈ l then (s.itable ip).addrs k.castSucc else 0) ∧
      (s'.itable ip).addrs 12 = (s.itable ip).addrs 12 ∧ Room E sb s' (k + 1)) ?_ ?_).mono ?_
  · refine ⟨List.nodup_finRange 12, .start ?_, fun k => ?_, rfl, hroom⟩
    · rintro κ ⟨k, -, hk⟩
      exact hk (List.mem_finRange k)
    · rw [if_pos (List.mem_finRange k)]
  · rintro a l s₁ ⟨hnd, hf, haddrs, h12, hroom⟩
    obtain ⟨ha, hnd⟩ := List.nodup_cons.mp hnd
    have hold : (s₁.itable ip).addrs a.castSucc = (s.itable ip).addrs a.castSucc := by
      rw [haddrs, if_pos (List.mem_cons_self ..)]
    have hne : ∀ {k}, k ≠ a → (k ∈ a :: l ↔ k ∈ l) := fun hk =>
      ⟨fun hm => (List.mem_cons.mp hm).resolve_left hk, List.mem_cons_of_mem a⟩
    refine .get_bind ?_
    dsimp only
    rw [hold]
    by_cases h0 : (s.itable ip).addrs a.castSucc ≠ 0
    · rw [if_pos h0]
      have hκ : ¬ DirectDone (a :: l) (.direct a) := by
        rintro ⟨k, hk, hm⟩
        cases hk
        exact hm (List.mem_cons_self ..)
      refine (hf.bfree hl hsb (directDone_cons ha) hκ rfl h0 hout hroom).bind ?_
      rintro _ s₂ ⟨hf₂, htab, hroom₂⟩
      refine .of_ok rfl ⟨hnd, hf₂.setAddrs fun _ => rfl, fun k => ?_, ?_, hroom₂⟩
      · rw [setInode_self, htab]
        by_cases hk : k = a
        · subst hk
          rw [if_neg ha]
          exact update_self ..
        · show update (s₁.itable ip).addrs a.castSucc 0 k.castSucc = _
          rw [update_of_ne (fun he => hk (Fin.castSucc_injective _ he)), haddrs]
          simp only [hne hk]
      · rw [setInode_self, htab, ← h12]
        exact update_of_ne (Fin.ne_of_gt (Fin.castSucc_lt_last a)) _ _
    · rw [if_neg h0]
      have h0' : (s.itable ip).addrs a.castSucc = 0 := not_not.mp h0
      refine .pure ⟨hnd, hf.skip (directDone_cons ha) ?_, fun k => ?_, h12, hroom⟩
      · show ((s.itable ip).addrs a.castSucc).toNat = 0
        rw [h0']
        rfl
      · rw [haddrs]
        by_cases hk : k = a
        · subst hk
          rw [if_pos (List.mem_cons_self ..), if_neg ha, h0']
        · simp only [hne hk]
  · rintro _ s' ⟨-, hf, haddrs, h12, hroom⟩
    exact ⟨hf, fun k => by rw [haddrs, if_neg List.not_mem_nil], h12, hroom⟩

/-- The loop over the entries of the indirect block. -/
theorem entryLoop_spec (hl : Loaded sb s ip) (hsb : sb.Ok) (hout : 1 ≤ s.outstanding) (h12 : (s.itable ip).addrs 12 ≠ 0)
    (hf : Freed sb ip (DirectDone []) s s') (hroom : Room E sb s' (k + 1)) :
    Ensures ((List.finRange 256).forM fun j => do
      let a := get32 (s.mem ((s.itable ip).addrs 12).toNat) (4 * j)
      if a ≠ 0 then bfree sb a.toNat) s'
      (fun _ s'' => Freed sb ip (EntryDone []) s s'' ∧ s''.itable = s'.itable ∧ Room E sb s'' (k + 1)) E := by
  refine (Ensures.forM (I := fun l s'' => l.Nodup ∧ Freed sb ip (EntryDone l) s s'' ∧ s''.itable = s'.itable ∧
    Room E sb s'' (k + 1)) ?_ ?_).mono fun _ _ h => h.2
  · refine ⟨List.nodup_finRange 256, { hf with bits := fun b hb => (hf.bits b hb).trans ?_ }, rfl, hroom⟩
    have hS : ∀ κ, EntryDone (List.finRange 256) κ ↔ DirectDone [] κ := by
      intro κ
      constructor
      · rintro (⟨k, rfl⟩ | ⟨j, -, hj⟩)
        · exact ⟨k, rfl, List.not_mem_nil⟩
        · exact absurd (List.mem_finRange j) hj
      · rintro ⟨k, rfl, -⟩
        exact .inl ⟨k, rfl⟩
    simp only [hS]
  · rintro a l s₁ ⟨hnd, hf₁, htab, hroom₁⟩
    obtain ⟨ha, hnd⟩ := List.nodup_cons.mp hnd
    have hslot : slot s.mem (s.itable ip).toDinode (.entry a) =
        (get32 (s.mem ((s.itable ip).addrs 12).toNat) (4 * a)).toNat := if_neg h12
    dsimp only
    by_cases h0 : get32 (s.mem ((s.itable ip).addrs 12).toNat) (4 * a) ≠ 0
    · rw [if_pos h0]
      have hκ : ¬ EntryDone (a :: l) (.entry a) := by
        rintro (⟨k, hk⟩ | ⟨j, hj, hm⟩)
        · cases hk
        · cases hj
          exact hm (List.mem_cons_self ..)
      refine (hf₁.bfree hl hsb (entryDone_cons ha) hκ hslot h0 hout hroom₁).mono ?_
      rintro _ s₂ ⟨hf₂, htab₂, hroom₂⟩
      exact ⟨hnd, hf₂, htab₂.trans htab, hroom₂⟩
    · rw [if_neg h0]
      refine .pure ⟨hnd, hf₁.skip (entryDone_cons ha) ?_, htab, hroom₁⟩
      rw [hslot, not_not.mp h0]
      rfl

section

variable (h : Freed sb ip S s s')
include h

theorem Freed.congr {S' : Slot → Prop}
    (hS : ∀ κ, slot s.mem (s.itable ip).toDinode κ ≠ 0 → (S' κ ↔ S κ)) : Freed sb ip S' s s' :=
  { h with
    bits := fun b hb => by
      rw [h.bits b hb]
      refine and_congr_right fun _ => not_congr (exists_congr fun κ => and_congr_left fun hκ => (hS κ hκ.1).symm) }

/-- A data block keeps its contents while blocks are freed. -/
theorem Freed.data {x : Nat × Slot} (hl : Loaded sb s ip) (hsb : sb.Ok) (hx : s.owner sb ip x ≠ 0) :
    s'.mem (s.owner sb ip x) = s.mem (s.owner sb ip x) := by
  refine h.mem _ fun c hc he => ?_
  have h1 := (hl.acc.range x hx).1
  have h2 := hsb.bblock_lt hc
  have h3 : owner sb (s.ino sb ip) s.mem x = sb.bblock c := he
  omega

theorem Freed.dino {j : Nat} (hsb : sb.Ok) (hj : j < sb.ninodes) : Disk.dino sb s'.mem j = Disk.dino sb s.mem j := by
  unfold Disk.dino
  rw [h.mem _ fun c _ => hsb.iblock_ne_bblock hj]

/-- The slots of the other inodes stay. -/
theorem Freed.owner_ne {x : Nat × Slot} (hl : Loaded sb s ip) (hsb : sb.Ok)
    (hx : x.1 ≠ (s.itable ip).inum) : s'.owner sb ip x = s.owner sb ip x := by
  have hinum : (s'.itable ip).inum = (s.itable ip).inum := by rw [h.core]
  refine owner_congr (fun hj => ?_) fun hlive h12 => ?_
  · rw [ino_ne hx, ino_ne (by rw [hinum]; exact hx)]
    exact h.dino hsb hj
  · have ho : s.owner sb ip (x.1, .indirect) = ((s.ino sb ip x.1).addrs 12).toNat := owner_indirect hlive
    rw [← ho]
    exact h.data hl hsb (by rw [ho]; exact toNat_ne_zero.mp h12)

end

theorem slot_zero {m : Blocks} {d : Dinode} (h : d.addrs = fun _ => 0) (κ : Slot) : slot m d κ = 0 := by
  rw [slot_addrs (d := Dinode.zero) (by rw [h]; rfl)]
  cases κ with
  | direct k => rfl
  | indirect => rfl
  | entry j => rfl

/-- The inode has no block any more. -/
theorem Freed.loaded (h : Freed sb ip (fun _ => True) s s') (hl : Loaded sb s ip) (hsb : sb.Ok)
    (hzero : (s'.itable ip).addrs = fun _ => 0) : Loaded sb s' ip := by
  have hinum : (s'.itable ip).inum = (s.itable ip).inum := by rw [h.core]
  have htype : (s'.itable ip).type ≠ 0 := by
    rw [h.core]
    have hlive := hl.live.2.2
    rw [ino_self] at hlive
    exact hlive
  have hlive : Live sb (s'.ino sb ip) (s'.itable ip).inum := by
    refine ⟨?_, ?_, ?_⟩
    · rw [hinum]
      exact hl.live.1
    · rw [hinum]
      exact hl.live.2.1
    · rw [ino_self]
      exact htype
  refine ⟨hl.acc.release ?_ (fun x hx => h.owner_ne hl hsb hx) fun b hb => ?_, hlive⟩
  · rintro ⟨j, κ⟩ rfl
    show owner sb (s'.ino sb ip) s'.mem ((s.itable ip).inum, κ) = 0
    rw [← hinum]
    unfold owner
    rw [if_pos hlive, ino_self]
    exact slot_zero hzero κ
  · rw [h.bits b hb]
    refine and_congr_right fun _ => not_congr ⟨?_, ?_⟩
    · rintro ⟨κ, -, h1, h2⟩
      rw [← owner_self hl] at h1 h2
      exact ⟨((s.itable ip).inum, κ), rfl, h1, h2⟩
    · rintro ⟨⟨j, κ⟩, rfl, h1, h2⟩
      have ho := owner_self hl κ
      exact ⟨κ, trivial, by rw [← ho]; exact h1, by rw [← ho]; exact h2⟩

/-- The size is set to 0 and the copy goes to the disk. -/
theorem Freed.truncated (h : Freed sb ip (fun _ => True) s s') (hl : Loaded sb s ip) (hsync : Synced sb s ip) (hsb : sb.Ok)
    (hzero : (s'.itable ip).addrs = fun _ => 0)
    (hshort : ((s'.setInode ip fun i => { i with size := 0 }).updated sb ip).Short) :
    Truncated sb ip s ((s'.setInode ip fun i => { i with size := 0 }).updated sb ip) := by
  have hl' := h.loaded hl hsb hzero
  have hinum : (s'.itable ip).inum = (s.itable ip).inum := by rw [h.core]
  have hf : Light (fun i => { i with size := 0 }) (s'.itable ip) := by
    refine ⟨rfl, rfl, ?_⟩
    have hlive := hl'.live.2.2
    rw [ino_self] at hlive
    exact hlive
  have hl₂ := setInode_loaded hl' hf
  have hblk : ∀ c, sb.iblock ((s'.setInode ip fun i => { i with size := 0 }).itable ip).inum ≠ sb.bblock c :=
    fun c => hsb.iblock_ne_bblock hl₂.live.2.1
  refine ⟨updated_loaded hl₂ hsb, (updated_ino _ ip).trans (updated_dino _ ip).symm, ⟨fun j hj hne => ?_, fun x hx h0 => ?_⟩,
    h.disk, h.outstanding, fun jp hj => ?_, ?_, fun b hb => mem_logged.mpr (.inl (h.lh b hb)), fun b hb => ?_, hshort, ?_,
    fun b hb => ?_⟩
  · rw [updated_dino, ino_ne (by rw [setInode_self, hinum]; exact hne)]
    exact h.dino hsb hj
  · have ho : owner sb (Disk.dino sb s.mem) s.mem x = s.owner sb ip x := by
      rw [← hsync]
      rfl
    have hk : (s'.setInode ip fun i => { i with size := 0 }).owner sb ip x = s.owner sb ip x :=
      (setInode_owner hl' hf x).trans (h.owner_ne hl hsb hx)
    rw [ho] at h0 ⊢
    rw [← h.data hl hsb h0, ← hk]
    exact hl₂.updated_data hsb (by rw [hk]; exact h0)
  · rw [updated_itable, setInode_ne hj]
    exact h.others jp hj
  · rw [updated_itable, setInode_self, h.core, hzero]
  · rcases mem_logged.mp hb with hb | rfl
    · exact h.home b hb
    · exact .inr (hsb.home_iblock _)
  · exact h.tracked.trans (updated_tracked (s'.setInode ip _) ip) fun b hb => mem_logged.mpr (.inl hb)
  · refine (bit_update_ne (hblk b)).trans ((h.bits b hb).trans (and_congr_right fun _ => not_congr ?_))
    simp only [true_and]

/-- **`itrunc`.** -/
theorem itrunc_spec (hl : Loaded sb s ip) (hsync : Synced sb s ip) (hsb : sb.Ok) (hout : 1 ≤ s.outstanding)
    (hroom : Room E sb s (k + 1)) :
    Ensures (itrunc sb ip) s (fun _ s' => Truncated sb ip s s' ∧ Fits E s' k) E := by
  refine (directLoop_spec hl hsb hout hroom).bind ?_
  rintro _ s₁ ⟨hf₁, haddrs, h12, hroom₁⟩
  refine .get_bind ?_
  rw [h12]
  -- the size, once there are no blocks
  have hend : ∀ s₂, Freed sb ip (fun _ => True) s s₂ → (s₂.itable ip).addrs = (fun _ => 0) → Room E sb s₂ (k + 1) →
      Ensures (do setInode ip fun i => { i with size := 0 }; iupdate sb ip) s₂ (fun _ s' => Truncated sb ip s s' ∧ Fits E s' k)
        E := by
    intro s₂ hf hzero hroom₂
    refine setInode_bind ((iupdate_spec ?_ (hroom₂.fits.mono ?_)).mono ?_)
    · show 1 ≤ s₂.outstanding
      rw [hf.outstanding]
      exact hout
    · show s₂.lh.length + 1 ≤ _
      omega
    · rintro _ _ ⟨rfl, hshort⟩
      refine ⟨hf.truncated hl hsync hsb hzero hshort, hroom₂.fits.mono ?_⟩
      have hlen := length_updated sb (s₂.setInode ip fun i => { i with size := 0 }) ip
      have hlen' : (State.updated sb _ ip).lh.length ≤ s₂.lh.length + 1 := hlen
      omega
  by_cases h0 : (s.itable ip).addrs 12 ≠ 0
  · rw [if_pos h0]
    have hind : s.owner sb ip ((s.itable ip).inum, .indirect) = ((s.itable ip).addrs 12).toNat := owner_self hl .indirect
    have hdata := hf₁.data hl hsb (by rw [hind]; exact toNat_ne_zero.mp h0)
    rw [hind] at hdata
    refine bread_bind ?_
    rw [hdata]
    refine (entryLoop_spec hl hsb hout h0 hf₁ hroom₁).bind ?_
    rintro _ s₂ ⟨hf₂, htab₂, hroom₂⟩
    have hS : ∀ κ, True ↔ EntryDone [] κ ∨ κ = .indirect := by
      intro κ
      refine ⟨fun _ => ?_, fun _ => trivial⟩
      cases κ with
      | direct k => exact .inl (.inl ⟨k, rfl⟩)
      | indirect => exact .inr rfl
      | entry j => exact .inl (.inr ⟨j, rfl, List.not_mem_nil⟩)
    have hκ : ¬ EntryDone [] .indirect := by
      rintro (⟨k, hk⟩ | ⟨j, hj, -⟩)
      · cases hk
      · cases hj
    refine (hf₂.bfree hl hsb hS hκ rfl h0 hout hroom₂).bind ?_
    rintro _ s₃ ⟨hf₃, htab₃, hroom₃⟩
    refine setInode_bind (hend (s₃.setInode ip _) (hf₃.setAddrs fun _ => rfl) (funext fun k => ?_) hroom₃)
    rw [setInode_self, htab₃, htab₂]
    refine Fin.lastCases ?_ (fun k => ?_) k
    · exact update_self (12 : Fin 13) 0 (s₁.itable ip).addrs
    · exact (update_of_ne (Fin.ne_of_lt (Fin.castSucc_lt_last k)) _ _).trans (haddrs k)
  · rw [if_neg h0]
    have h0' : (s.itable ip).addrs 12 = 0 := not_not.mp h0
    refine hend s₁ (hf₁.congr fun κ hκ => ⟨fun _ => ?_, fun _ => trivial⟩) (funext fun k => ?_) hroom₁
    · cases κ with
      | direct k => exact ⟨k, rfl, List.not_mem_nil⟩
      | indirect => exact absurd (congrArg BitVec.toNat h0') hκ
      | entry j => exact absurd (if_pos h0') hκ
    · refine Fin.lastCases ?_ (fun k => ?_) k
      · exact h12.trans h0'
      · exact haddrs k

end Itrunc

/-! ## `iput` -/

/-- The last reference to an inode without links. -/
def Inode.Last (i : Inode) : Prop := i.ref = 1 ∧ i.valid ∧ i.nlink = 0

instance (i : Inode) : Decidable i.Last := inferInstanceAs (Decidable (_ ∧ _ ∧ _))

/-- The inode is truncated and free, and the reference is given up. -/
structure Released (sb : Superblock) (ip : Fin NINODE) (s s' : State) : Prop where
  acc : Acc sb (dino sb s'.mem) s'.mem
  apart : Apart sb (· = (s.itable ip).inum) s.mem s'.mem
  dino : dino sb s'.mem (s.itable ip).inum = { (s.itable ip).toDinode with type := 0, addrs := fun _ => 0, size := 0 }
  disk : s'.disk = s.disk
  outstanding : s'.outstanding = s.outstanding
  others : ∀ jp, jp ≠ ip → s'.itable jp = s.itable jp
  core : s'.itable ip = { s.itable ip with
    type := 0, addrs := fun _ => 0, size := 0, valid := false, ref := (s.itable ip).ref - 1 }
  lh : ∀ b ∈ s.lh, b ∈ s'.lh
  home : ∀ b ∈ s'.lh, b ∈ s.lh ∨ sb.Home b
  len : s'.Short
  tracked : Tracked s s'
  bits : ∀ b, b < sb.size → (bit sb s'.mem b ↔ bit sb s.mem b ∧ ¬ ∃ κ,
    slot s.mem (s.itable ip).toDinode κ ≠ 0 ∧ slot s.mem (s.itable ip).toDinode κ = b)

theorem Truncated.inum (h : Truncated sb ip s s') : (s'.itable ip).inum = (s.itable ip).inum := by rw [h.core]

theorem Truncated.released (h : Truncated sb ip s s') (hsb : sb.Ok)
    (hshort : ((s'.setInode ip fun i => { i with type := 0 }).updated sb ip).Short) : Released sb ip s
    ((((s'.setInode ip fun i => { i with type := 0 }).updated sb ip).setInode ip fun i => { i with valid := false }).setInode ip
      fun i => { i with ref := i.ref - 1 }) := by
  have hlive := h.loaded.live
  have hacc := h.loaded.acc
  rw [h.inum, h.sync] at hlive
  rw [h.sync] at hacc
  have hmem : ((s'.setInode ip fun i => { i with type := 0 }).updated sb ip).mem =
      putIno sb s'.mem (s.itable ip).inum { (s.itable ip).toDinode with type := 0, addrs := fun _ => 0, size := 0 } := by
    show putIno sb s'.mem ((s'.setInode ip _).itable ip).inum ((s'.setInode ip _).itable ip).toDinode = _
    rw [setInode_self, h.core]
  have hslots : ∀ κ, owner sb (Disk.dino sb s'.mem) s'.mem ((s.itable ip).inum, κ) = 0 := by
    intro κ
    unfold owner
    rw [if_pos hlive, ← h.inum, ← h.sync, ino_self, h.core]
    exact slot_zero rfl κ
  have happ := apart_putIno (d := { (s.itable ip).toDinode with type := 0, addrs := fun _ => 0, size := 0 }) hsb hlive.2.1 hacc
  refine ⟨?_, ?_, ?_, h.disk, h.outstanding, fun jp hj => ?_, ?_, fun b hb => mem_logged.mpr (.inl (h.lh b hb)), fun b hb => ?_,
    hshort, ?_, fun b hb => ?_⟩
  · show Acc sb (Disk.dino sb (State.updated sb _ ip).mem) (State.updated sb _ ip).mem
    rw [hmem]
    exact acc_putIno hsb ⟨hlive.1, hlive.2.1⟩ hacc fun κ => (hslots κ).trans (if_pos rfl).symm
  · show Apart sb _ s.mem (State.updated sb _ ip).mem
    rw [hmem]
    exact h.apart.trans happ
  · show Disk.dino sb (State.updated sb _ ip).mem _ = _
    rw [hmem, dino_putIno]
    exact update_self ..
  · rw [setInode_ne hj, setInode_ne hj, updated_itable, setInode_ne hj]
    exact h.others jp hj
  · rw [setInode_self, setInode_self, updated_itable, setInode_self, h.core]
  · rcases mem_logged.mp hb with hb | rfl
    · exact h.home b hb
    · exact .inr (hsb.home_iblock _)
  · exact h.tracked.trans (updated_tracked (s'.setInode ip _) ip) fun b hb => mem_logged.mpr (.inl hb)
  · show bit sb (State.updated sb _ ip).mem b ↔ _
    rw [hmem, bit_putIno hsb hlive.2.1]
    exact h.bits b hb

/-- **`iput`.** -/
theorem iput_spec (hsb : sb.Ok) (hlast : (s.itable ip).Last → Loaded sb s ip ∧ Synced sb s ip ∧ 1 ≤ s.outstanding ∧
      Room E sb s 2 ∧ ((s.itable ip).locked → E "acquiresleep sleeps")) :
    Ensures (iput sb ip) s (fun _ s' => if (s.itable ip).Last then Released sb ip s s'
      else s' = s.setInode ip fun i => { i with ref := i.ref - 1 }) E := by
  refine .get_bind ?_
  by_cases hl : (s.itable ip).Last
  · obtain ⟨hload, hsync, hout, hroom, hlocked⟩ := hlast hl
    simp only [if_pos hl]
    have hcond : (s.itable ip).ref = 1 ∧ (s.itable ip).valid ∧ (s.itable ip).nlink = 0 := hl
    rw [if_pos hcond]
    by_cases hk : (s.itable ip).locked = true
    · rw [if_pos hk]
      exact .of_error rfl (hlocked hk)
    · rw [if_neg hk]
      refine (itrunc_spec hload hsync hsb hout hroom).bind ?_
      rintro _ s₁ ⟨htr, hfit⟩
      refine setInode_bind ((iupdate_spec (s := s₁.setInode ip _) ?_ hfit).bind ?_)
      · show 1 ≤ s₁.outstanding
        rw [htr.outstanding]
        exact hout
      rintro _ _ ⟨rfl, hshort⟩
      exact .of_ok rfl (htr.released hsb hshort)
  · simp only [if_neg hl]
    have hcond : ¬ ((s.itable ip).ref = 1 ∧ (s.itable ip).valid ∧ (s.itable ip).nlink = 0) := hl
    rw [if_neg hcond]
    exact .of_ok rfl rfl

end Xv6.Disk
