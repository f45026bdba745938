import Xv6.Disk.Itable

/-!
# Orphans at boot

`ireclaim` goes over the inodes and frees those that are allocated and have no link, each in a transaction of its own.
`ireclaimAt_orphan` is one of these transactions; over the whole loop, `Reclaiming` says that the orphans up to here are gone
and nothing else has changed.
-/

namespace Xv6.Disk

open Lib

variable {sb : Superblock} {m : Blocks} {s s' : State} {a : Nat} {E : String → Prop}

/-- An allocated inode without links. -/
def Orphan (sb : Superblock) (m : Blocks) (i : Nat) : Prop := Live sb (dino sb m) i ∧ (dino sb m i).nlink = 0

/-- No transaction is open, no inode is in use, and the disk holds what is cached. -/
structure Idle (sb : Superblock) (s : State) : Prop where
  lh : s.lh = []
  outstanding : s.outstanding = 0
  refs : ∀ ip, (s.itable ip).ref = 0
  unlocked : ∀ ip, (s.itable ip).locked = false
  clean : ∀ b, sb.Home b → s.disk b = s.mem b

/-- What the transaction for the orphan `a` has done. -/
structure Reclaimed (sb : Superblock) (a : Nat) (s s' : State) : Prop where
  idle : Idle sb s'
  acc : Acc sb (dino sb s'.mem) s'.mem
  apart : Apart sb (· = a) s.mem s'.mem
  dead : (dino sb s'.mem a).type = 0
  bits : ∀ b, b < sb.size → (bit sb s'.mem b ↔ bit sb s.mem b ∧ ¬ ∃ κ,
    slot s.mem (dino sb s.mem a) κ ≠ 0 ∧ slot s.mem (dino sb s.mem a) κ = b)

/-- The entry of the orphan: `iget`, `begin_op`, `ilock` and `iunlock` have been called. -/
def State.holding (sb : Superblock) (s : State) (ip : Fin NINODE) (a : Nat) : State :=
  { s with outstanding := 1 }.setInode ip fun i =>
    { i with toDinode := dino sb s.mem a, inum := a, ref := 1, valid := true, locked := false }

theorem ireclaimAt_hold {ip : Fin NINODE} (h : Idle sb s) (ho : Orphan sb s.mem a)
    (hput : Ensures (do iput sb ip; endOp sb) (s.holding sb ip a) (fun _ s' => Reclaimed sb a s s') E) :
    Ensures (do beginOp; ilock sb ip; iunlock ip; iput sb ip; endOp sb) (s.setInode ip (fresh a))
      (fun _ s' => Reclaimed sb a s s') E := by
  have hlen : ¬ (s.setInode ip (fresh a)).lh.length + ((s.setInode ip (fresh a)).outstanding + 1) * 10 > 30 := by
    show ¬ s.lh.length + (s.outstanding + 1) * 10 > 30
    rw [h.lh, h.outstanding]
    decide
  refine (beginOp_spec fun hfull => absurd hfull hlen).bind ?_
  rintro _ _ rfl
  have hself : { s.setInode ip (fresh a) with outstanding := (s.setInode ip (fresh a)).outstanding + 1 }.itable ip =
      fresh a (s.itable ip) := setInode_self ..
  refine (ilock_spec ?_ ?_ ?_).bind ?_
  · rw [hself]
    intro hlt
    exact absurd hlt (by show ¬ 1 < 1; omega)
  · rw [hself]
    intro hl
    have hl' : (s.itable ip).locked = true := hl
    rw [h.unlocked ip] at hl'
    cases hl'
  · rw [hself]
    exact fun _ ht => absurd ht ho.1.2.2
  rintro _ _ ⟨-, -, rfl⟩
  refine (iunlock_spec ?_ ?_).bind ?_
  · rw [setInode_self]
  · rw [setInode_self, hself]
    show 1 ≤ (load sb s.mem (fresh a (s.itable ip))).ref
    show 1 ≤ 1
    omega
  rintro _ _ rfl
  have hstate : s.holding sb ip a = ({ s.setInode ip (fresh a) with outstanding := s.outstanding + 1 }.setInode ip
      fun i => { load sb s.mem i with locked := true }).setInode ip fun i => { i with locked := false } := by
    show _ = (({ s with outstanding := s.outstanding + 1 }.setInode ip (fresh a)).setInode ip _).setInode ip _
    rw [setInode_setInode, setInode_setInode, h.outstanding]
    rfl
  rw [hstate] at hput
  exact hput

theorem ireclaimAt_orphan (hsb : sb.Ok) (hone : sb.size ≤ 8192) (h : Idle sb s) (hacc : Acc sb (dino sb s.mem) s.mem)
    (ho : Orphan sb s.mem a) : Ensures (ireclaimAt sb a) s (fun _ s' => Reclaimed sb a s s') E := by
  refine bread_bind ?_
  have hcond : (dino sb s.mem a).type ≠ 0 ∧ (dino sb s.mem a).nlink = 0 := ⟨ho.1.2.2, ho.2⟩
  show Ensures (if (dino sb s.mem a).type ≠ 0 ∧ (dino sb s.mem a).nlink = 0 then _ else _) s _ E
  rw [if_pos hcond]
  refine (iget_spec fun hall => absurd (h.refs 0) (hall 0)).bind ?_
  rintro ip _ (⟨hr, -⟩ | ⟨-, -, rfl⟩)
  · rw [h.refs ip] at hr
    omega
  refine ireclaimAt_hold h ho ?_
  -- `iput` of the only reference
  have hcore : (s.holding sb ip a).itable ip =
      { s.itable ip with toDinode := dino sb s.mem a, inum := a, ref := 1, valid := true, locked := false } := setInode_self ..
  have hinum : ((s.holding sb ip a).itable ip).inum = a := by rw [hcore]
  have hdin : ((s.holding sb ip a).itable ip).toDinode = dino sb s.mem a := by rw [hcore]
  have hlast : ((s.holding sb ip a).itable ip).Last := by
    rw [hcore]
    exact ⟨rfl, rfl, ho.2⟩
  have hsync : Synced sb (s.holding sb ip a) ip := synced_of_eq (by rw [hinum, hdin]; rfl)
  have hload : Loaded sb (s.holding sb ip a) ip := by
    refine ⟨?_, ?_⟩
    · rw [hsync]
      exact hacc
    · rw [hsync, hinum]
      exact ho.1
  have hroom : Room E sb (s.holding sb ip a) 2 := by
    refine .inr ⟨hone, ?_⟩
    have hlh : (s.holding sb ip a).lh = [] := h.lh
    rw [hlh, if_neg List.not_mem_nil]
    decide
  refine (iput_spec hsb fun _ => ⟨hload, hsync, Nat.le_refl 1, hroom, fun hl => ?_⟩).bind ?_
  · rw [hcore] at hl
    cases hl
  intro _ s₁ hrel
  rw [if_pos hlast] at hrel
  -- the commit
  have hcoh : Coherent sb s₁ := by
    refine ⟨fun b hb => (hrel.home b hb).resolve_left ?_, hrel.len, fun b hb hn => ?_⟩
    · show b ∉ s.lh
      rw [h.lh]
      exact List.not_mem_nil
    · have hmem : s₁.mem b = s.mem b := by
        by_contra hne
        exact hn (hrel.tracked b hne)
      rw [hrel.disk, hmem]
      exact h.clean b hb
  refine (endOp_spec hcoh hrel.outstanding).mono ?_
  rintro _ s₂ ⟨hlh, hout, htab, hmem, hdisk⟩
  have hhome : HomeEq sb s₁.mem s₂.mem := hmem
  have hothers : ∀ jp, jp ≠ ip → s₂.itable jp = s.itable jp := fun jp hj => by
    rw [htab, hrel.others jp hj]
    exact setInode_ne hj
  have hip : (s₂.itable ip).ref = 0 ∧ (s₂.itable ip).locked = false := by
    rw [htab, hrel.core, hcore]
    exact ⟨rfl, rfl⟩
  refine ⟨⟨hlh, hout, fun jp => ?_, fun jp => ?_, hdisk⟩, hhome.acc hsb hrel.acc, ?_, ?_, fun b hb => ?_⟩
  · by_cases hj : jp = ip
    · rw [hj]
      exact hip.1
    · rw [hothers jp hj]
      exact h.refs jp
  · by_cases hj : jp = ip
    · rw [hj]
      exact hip.2
    · rw [hothers jp hj]
      exact h.unlocked jp
  · have happ := hrel.apart
    rw [hinum] at happ
    exact happ.trans (hhome.apart hsb hrel.acc)
  · have hdead := hrel.dino
    rw [hinum] at hdead
    rw [hhome.dino hsb, hdead]
  · rw [hhome.bit hsb, hrel.bits b hb, hdin]
    rfl

/-! ## The loop -/

/-- The orphans of the disk `m` that are not in `l` are gone, and nothing else has changed. -/
structure Reclaiming (sb : Superblock) (m : Blocks) (l : List Nat) (s : State) : Prop where
  idle : Idle sb s
  acc : Acc sb (dino sb s.mem) s.mem
  apart : Apart sb (fun i => Orphan sb m i ∧ i ∉ l) m s.mem
  dead : ∀ i, Orphan sb m i → i ∉ l → (dino sb s.mem i).type = 0
  bits : ∀ b, b < sb.size → (bit sb s.mem b ↔ bit sb m b ∧ ¬ ∃ i κ, (Orphan sb m i ∧ i ∉ l) ∧
    slot m (dino sb m i) κ ≠ 0 ∧ slot m (dino sb m i) κ = b)

section Loop

variable {l : List Nat}

/-- An inode that is no orphan is passed over. -/
theorem Reclaiming.skip (h : Reclaiming sb m (a :: l) s) (ha : ¬ Orphan sb m a) : Reclaiming sb m l s := by
  have hiff : ∀ i, (Orphan sb m i ∧ i ∉ l) ↔ (Orphan sb m i ∧ i ∉ a :: l) := by
    intro i
    refine and_congr_right fun ho => not_congr ⟨List.mem_cons_of_mem a, fun hm => ?_⟩
    rcases List.mem_cons.mp hm with rfl | hm
    · exact absurd ho ha
    · exact hm
  refine ⟨h.idle, h.acc, h.apart.mono fun i hi => (hiff i).mpr hi, fun i ho hn => h.dead i ho ((hiff i).mp ⟨ho, hn⟩).2,
    fun b hb => ?_⟩
  rw [h.bits b hb]
  simp only [hiff]

/-- An orphan is freed. -/
theorem Reclaiming.free (h : Reclaiming sb m (a :: l) s) (ho : Orphan sb m a) (ha : a ∉ l) (hr : Reclaimed sb a s s') :
    Reclaiming sb m l s' := by
  have hnot : ¬ (Orphan sb m a ∧ a ∉ a :: l) := fun hn => hn.2 (List.mem_cons_self ..)
  have hslot := h.apart.slot hnot ho.1
  have hsub : ∀ {i}, Orphan sb m i → i ≠ a → (i ∉ l ↔ i ∉ a :: l) := fun _ hia =>
    not_congr ⟨List.mem_cons_of_mem a, fun hm => (List.mem_cons.mp hm).resolve_left hia⟩
  refine ⟨hr.idle, hr.acc, ?_, fun i hi hn => ?_, fun b hb => ?_⟩
  · refine (h.apart.mono fun i hi => ⟨hi.1, fun hm => hi.2 (List.mem_cons_of_mem a hm)⟩).trans (hr.apart.mono fun i hi => ?_)
    subst hi
    exact ⟨ho, ha⟩
  · by_cases hia : i = a
    · rw [hia]
      exact hr.dead
    · have hd := h.dead i hi ((hsub hi hia).mp hn)
      rw [hr.apart.dino i hi.1.2.1 hia]
      exact hd
  · rw [hr.bits b hb, h.bits b hb, and_assoc]
    refine and_congr_right fun _ => ⟨?_, fun hno => ⟨?_, ?_⟩⟩
    · rintro ⟨h1, h2⟩ ⟨i, κ, ⟨hi, hn⟩, h0, he⟩
      by_cases hia : i = a
      · subst hia
        refine h2 ⟨κ, ?_, ?_⟩
        · rw [hslot]
          exact h0
        · rw [hslot]
          exact he
      · exact h1 ⟨i, κ, ⟨hi, (hsub hi hia).mp hn⟩, h0, he⟩
    · rintro ⟨i, κ, ⟨hi, hn⟩, h0, he⟩
      exact hno ⟨i, κ, ⟨hi, fun hm => hn (List.mem_cons_of_mem a hm)⟩, h0, he⟩
    · rintro ⟨κ, h0, he⟩
      rw [hslot] at h0 he
      exact hno ⟨a, κ, ⟨ho, ha⟩, h0, he⟩

theorem ireclaim_spec (hsb : sb.Ok) (hone : sb.size ≤ 8192) (h : Reclaiming sb m ((List.range sb.ninodes).drop 1) s) :
    Ensures (ireclaim sb) s (fun _ s' => Reclaiming sb m [] s') E := by
  refine (Ensures.forM (I := fun l s' => l.Nodup ∧ (∀ a ∈ l, 1 ≤ a ∧ a < sb.ninodes) ∧ Reclaiming sb m l s') ?_ ?_).mono
    fun _ _ h => h.2.2
  · refine ⟨List.nodup_range.sublist (List.drop_sublist 1 _), fun a ha => ?_, h⟩
    exact mem_inums.mp ha
  · rintro a l s₁ ⟨hnd, hrange, hr⟩
    obtain ⟨ha, hnd⟩ := List.nodup_cons.mp hnd
    have hlt := hrange a (List.mem_cons_self ..)
    have hrest : ∀ c ∈ l, 1 ≤ c ∧ c < sb.ninodes := fun c hc => hrange c (List.mem_cons_of_mem a hc)
    have hdino : dino sb s₁.mem a = dino sb m a := hr.apart.dino a hlt.2 fun hn => hn.2 (List.mem_cons_self ..)
    by_cases ho : Orphan sb m a
    · have ho' : Orphan sb s₁.mem a := by
        refine ⟨⟨hlt.1, hlt.2, ?_⟩, ?_⟩
        · rw [hdino]
          exact ho.1.2.2
        · rw [hdino]
          exact ho.2
      exact (ireclaimAt_orphan hsb hone hr.idle hr.acc ho').mono fun _ s' h => ⟨hnd, hrest, hr.free ho ha h⟩
    · have hcond : ¬ ((dino sb s₁.mem a).type ≠ 0 ∧ (dino sb s₁.mem a).nlink = 0) := by
        rw [hdino]
        exact fun hc => ho ⟨⟨hlt.1, hlt.2, hc.1⟩, hc.2⟩
      refine bread_bind ?_
      show Ensures (if (dino sb s₁.mem a).type ≠ 0 ∧ (dino sb s₁.mem a).nlink = 0 then _ else _) s₁ _ E
      rw [if_neg hcond]
      exact .pure ⟨hnd, hrest, hr.skip ho⟩

end Loop

/-- The state of the kernel when it has booted from `disk`, up to the recovery of the log. -/
def boot (disk : Blocks) : State where
  disk := disk
  mem := disk
  lh := []
  outstanding := 0
  itable _ := ⟨.zero, 0, 0, false, false⟩

/-- What is left of the disk `m` once its orphans are reclaimed. -/
structure NoOrphans (sb : Superblock) (m : Blocks) (s : State) : Prop where
  orphans : ∀ i, Live sb (dino sb s.mem) i → (dino sb s.mem i).nlink ≠ 0
  kept : ∀ i, Live sb (dino sb m) i → (dino sb m i).nlink ≠ 0 → dino sb s.mem i = dino sb m i ∧
    ∀ κ, slot s.mem (dino sb s.mem i) κ = slot m (dino sb m i) κ ∧
      (slot m (dino sb m i) κ ≠ 0 → s.mem (slot m (dino sb m i) κ) = m (slot m (dino sb m i) κ))
  freed : ∀ b, b < sb.size → (¬ bit sb s.mem b ↔ ¬ bit sb m b ∨ ∃ i κ, Orphan sb m i ∧
    slot m (dino sb m i) κ ≠ 0 ∧ slot m (dino sb m i) κ = b)
  table : ∀ ip, (s.itable ip).ref = 0
  disk : ∀ b, sb.Home b → s.disk b = s.mem b

theorem Reclaiming.noOrphans (h : Reclaiming sb m [] s) : NoOrphans sb m s where
  orphans i hl hn := by
    by_cases ho : Orphan sb m i
    · exact hl.2.2 (h.dead i ho List.not_mem_nil)
    · have hd := h.apart.dino i hl.2.1 fun hp => ho hp.1
      rw [hd] at hn
      refine ho ⟨⟨hl.1, hl.2.1, ?_⟩, hn⟩
      rw [← hd]
      exact hl.2.2
  kept i hl hn := by
    have hp : ¬ (Orphan sb m i ∧ i ∉ []) := fun hp => hn hp.1.2
    refine ⟨h.apart.dino i hl.2.1 hp, fun κ => ⟨h.apart.slot hp hl κ, fun h0 => ?_⟩⟩
    have ho : owner sb (dino sb m) m (i, κ) = slot m (dino sb m i) κ := if_pos hl
    rw [← ho]
    exact h.apart.data (i, κ) hp (by rw [ho]; exact h0)
  freed b hb := by
    rw [h.bits b hb, not_and_or, not_not]
    simp only [List.not_mem_nil, not_false_eq_true, and_true]
  table := h.idle.refs
  disk := h.idle.clean

/-- An empty log. -/
theorem homeEq_replay (h : get32 (m sb.logstart) 0 = 0) : HomeEq sb m (replay sb m) := by
  have hnil : headOf sb m = [] := by
    unfold headOf
    rw [h]
    rfl
  intro b hb
  unfold replay
  rw [hnil]
  exact Function.update_of_ne (fun he => not_home_head (he ▸ hb)) _ _

/-- **Orphans are reclaimed at boot, and nothing else.** -/
theorem orphans_reclaimed (sb : Superblock) (disk : Blocks) (hsb : sb.Ok) (hone : sb.size ≤ 8192)
    (hhead : (get32 (disk sb.logstart) 0).toInt ≤ LOGBLOCKS)
    (hacc : Acc sb (dino sb (replay sb disk)) (replay sb disk)) :
    ∃ s, (do recoverFromLog sb; ireclaim sb) (boot disk) = .ok ((), s) ∧ NoOrphans sb (replay sb disk) s := by
  have hrun : Ensures (do recoverFromLog sb; ireclaim sb) (boot disk) (fun _ s => NoOrphans sb (replay sb disk) s)
      fun _ => False := by
    have hboot : (boot disk).disk = (boot disk).mem := rfl
    refine (recoverFromLog_spec hboot hhead).bind ?_
    rintro _ s₁ ⟨hmem, hdisk, hlh, hout, htab⟩
    have hmem' : s₁.mem = replay sb disk := hmem
    refine (ireclaim_spec hsb hone ⟨⟨hlh, hout, fun ip => ?_, fun ip => ?_, fun b _ => by rw [hdisk]⟩, ?_, ?_, ?_, ?_⟩).mono
      fun _ _ h => h.noOrphans
    · rw [htab]
      rfl
    · rw [htab]
      rfl
    · rw [hmem']
      exact hacc
    · rw [hmem']
      exact .refl _
    · exact fun i ho hn => absurd (mem_inums.mpr ⟨ho.1.1, ho.1.2.1⟩) hn
    · intro b _
      rw [hmem']
      refine ⟨fun hb => ⟨hb, ?_⟩, fun hb => hb.1⟩
      rintro ⟨i, κ, ⟨ho, hn⟩, -⟩
      exact hn (mem_inums.mpr ⟨ho.1.1, ho.1.2.1⟩)
  obtain ⟨⟨⟩, s, he, h⟩ := hrun.returns
  exact ⟨s, he, h⟩

theorem orphans_reclaimed_small : Orphan Small.sb (replay Small.sb (Small.blocks (Small.inode T_FILE 0 10))) 1 ∧
    ∃ s, (do recoverFromLog Small.sb; ireclaim Small.sb) (boot (Small.blocks (Small.inode T_FILE 0 10))) = .ok ((), s) ∧
      NoOrphans Small.sb (replay Small.sb (Small.blocks (Small.inode T_FILE 0 10))) s := by
  have hhome : HomeEq Small.sb (Small.blocks (Small.inode T_FILE 0 10)) (replay Small.sb (Small.blocks (Small.inode T_FILE 0 10))) :=
    homeEq_replay (by decide)
  refine ⟨?_, orphans_reclaimed Small.sb (Small.blocks (Small.inode T_FILE 0 10)) Small.sb_ok (by decide) (by decide)
    (hhome.acc Small.sb_ok (Small.acc_blocks (by decide)))⟩
  unfold Orphan Live
  decide

end Xv6.Disk
