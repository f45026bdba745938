import Xv6.Disk.Truncate

/-!
# Transactions on the bytes of a disk

`commit` copies the blocks of the header to the log and then home: the cached home blocks stay, and those of the header are
now on the disk (`commit_spec`). `recover_from_log` copies the blocks of an old header home; `replay` is the disk after it
(`recoverFromLog_spec`).
-/

namespace Xv6.Disk

open Lib
open Function (update update_eq_self update_of_ne update_self)

variable {sb : Superblock} {s s' s₀ : State} {E : String → Prop} {b : Nat}

theorem not_home_log {i : Nat} (hi : i < 30) : ¬ sb.Home (sb.logstart + i + 1) := by
  unfold Superblock.Home
  omega

theorem not_home_head : ¬ sb.Home sb.logstart := by
  unfold Superblock.Home
  omega

/-- A block number of the header and its place. -/
theorem mem_zipIdx_lt {l : List Nat} {x : Nat × Nat} (hx : x ∈ l.zipIdx) : x.2 < l.length := (List.mem_zipIdx' hx).1

theorem zipIdx_inj {l : List Nat} {x y : Nat × Nat} (hx : x ∈ l.zipIdx) (hy : y ∈ l.zipIdx) (h : x.2 = y.2) : x = y := by
  obtain ⟨a, i⟩ := x
  obtain ⟨b, j⟩ := y
  obtain rfl : i = j := h
  rw [List.mem_zipIdx_iff_getElem?] at hx hy
  have hab : a = b := Option.some.inj (hx.symm.trans hy)
  rw [hab]

/-! ## `commit` -/

/-- The home blocks are the same in the cache and on the disk, and so are the other parts of the kernel. -/
structure SameHome (sb : Superblock) (s s' : State) : Prop where
  mem : ∀ b, sb.Home b → s'.mem b = s.mem b
  disk : ∀ b, sb.Home b → s'.disk b = s.disk b
  lh : s'.lh = s.lh
  outstanding : s'.outstanding = s.outstanding
  itable : s'.itable = s.itable

theorem SameHome.refl (s : State) : SameHome sb s s := ⟨fun _ _ => rfl, fun _ _ => rfl, rfl, rfl, rfl⟩

theorem SameHome.trans {s'' : State} (h : SameHome sb s s') (h' : SameHome sb s' s'') : SameHome sb s s'' where
  mem b hb := (h'.mem b hb).trans (h.mem b hb)
  disk b hb := (h'.disk b hb).trans (h.disk b hb)
  lh := h'.lh.trans h.lh
  outstanding := h'.outstanding.trans h.outstanding
  itable := h'.itable.trans h.itable

/-- A block of the log is written. -/
theorem sameHome_bwrite {v : Bytes} (hb : ¬ sb.Home b) :
    SameHome sb s { s with mem := update s.mem b v, disk := update s.disk b v } where
  mem c hc := update_of_ne (fun he : c = b => hb (he ▸ hc)) _ _
  disk c hc := update_of_ne (fun he : c = b => hb (he ▸ hc)) _ _
  lh := rfl
  outstanding := rfl
  itable := rfl

section

variable (hhome : ∀ b ∈ s.lh, sb.Home b) (hshort : s.Short)
include hhome hshort

theorem writeLog_spec :
    Ensures (writeLog sb) s (fun _ s' => SameHome sb s s' ∧ ∀ x ∈ s.lh.zipIdx, s'.mem (sb.logstart + x.2 + 1) = s.mem x.1) E := by
  refine .get_bind ?_
  refine (Ensures.forM (I := fun l s' => SameHome sb s s' ∧ (∀ x ∈ l, x ∈ s.lh.zipIdx) ∧
    ∀ x ∈ s.lh.zipIdx, x ∉ l → s'.mem (sb.logstart + x.2 + 1) = s.mem x.1) ?_ ?_).mono ?_
  · exact ⟨.refl s, fun _ hx => hx, fun _ hx hn => absurd hx hn⟩
  · rintro a l s₁ ⟨hsame, hl, hdone⟩
    have ha := hl a (List.mem_cons_self ..)
    have hlt : a.2 < 30 := Nat.lt_of_lt_of_le (mem_zipIdx_lt ha) hshort
    refine bread_bind (.of_ok rfl ⟨hsame.trans (sameHome_bwrite (not_home_log hlt)), ?_, fun x hx hn => ?_⟩)
    · exact fun x hx => hl x (List.mem_cons_of_mem a hx)
    · show update s₁.mem _ _ _ = _
      by_cases hxa : x = a
      · rw [hxa, update_self]
        exact hsame.mem a.1 (hhome _ (List.fst_mem_of_mem_zipIdx ha))
      · rw [update_of_ne]
        · exact hdone x hx fun hm => (List.mem_cons.mp hm).elim hxa hn
        · exact fun he => hxa (zipIdx_inj hx ha (by omega))
  · rintro _ s' ⟨hsame, -, hdone⟩
    exact ⟨hsame, fun x hx => hdone x hx List.not_mem_nil⟩

/-- The blocks of the log go home. -/
theorem installTrans_spec (hlog : ∀ x ∈ s.lh.zipIdx, s.mem (sb.logstart + x.2 + 1) = s.mem x.1) :
    Ensures (installTrans sb) s (fun _ s' => s'.mem = s.mem ∧ (∀ b, s'.disk b = if b ∈ s.lh then s.mem b else s.disk b) ∧
      s'.lh = s.lh ∧ s'.outstanding = s.outstanding ∧ s'.itable = s.itable) E := by
  refine .get_bind ?_
  refine (Ensures.forM (I := fun l s' => (∀ x ∈ l, x ∈ s.lh.zipIdx) ∧ s'.mem = s.mem ∧
    (∀ b, (b ∈ l.map Prod.fst ∨ s'.disk b = if b ∈ s.lh then s.mem b else s.disk b) ∧ (b ∉ s.lh → s'.disk b = s.disk b)) ∧
    s'.lh = s.lh ∧ s'.outstanding = s.outstanding ∧ s'.itable = s.itable) ?_ ?_).mono ?_
  · refine ⟨fun _ hx => hx, rfl, fun b => ⟨?_, fun _ => rfl⟩, rfl, rfl, rfl⟩
    by_cases hb : b ∈ s.lh
    · left
      rw [List.zipIdx_map_fst]
      exact hb
    · right
      rw [if_neg hb]
  · rintro a l s₁ ⟨hl, hmem, hdisk, hlh, hout, htab⟩
    have ha := hl a (List.mem_cons_self ..)
    have hin := List.fst_mem_of_mem_zipIdx ha
    have hv : s₁.mem (sb.logstart + a.2 + 1) = s.mem a.1 := by
      rw [hmem]
      exact hlog a ha
    refine bread_bind (.of_ok rfl ⟨fun x hx => hl x (List.mem_cons_of_mem a hx), ?_, fun b => ?_, hlh, hout, htab⟩)
    · show update s₁.mem a.1 _ = _
      rw [hv, hmem, update_eq_self]
    · show (_ ∨ update s₁.disk a.1 _ b = _) ∧ (_ → update s₁.disk a.1 _ b = _)
      by_cases hb : b = a.1
      · subst hb
        rw [update_self, hv, if_pos hin]
        exact ⟨.inr rfl, fun hn => absurd hin hn⟩
      · rw [update_of_ne hb]
        refine ⟨?_, (hdisk b).2⟩
        rcases (hdisk b).1 with h | h
        · exact .inl ((List.mem_cons.mp h).resolve_left hb)
        · exact .inr h
  · rintro _ s' ⟨-, hmem, hdisk, hrest⟩
    exact ⟨hmem, fun b => (hdisk b).1.resolve_left List.not_mem_nil, hrest⟩

omit hhome hshort in
theorem writeHead_spec (s : State) : Ensures (writeHead sb) s (fun _ s' => SameHome sb s s' ∧
    ∀ i, s'.mem (sb.logstart + i + 1) = s.mem (sb.logstart + i + 1)) E :=
  .of_ok rfl ⟨sameHome_bwrite not_home_head, fun i => update_of_ne (by omega) _ _⟩

/-- **`commit`.** -/
theorem commit_spec :
    Ensures (commit sb) s (fun _ s' => s'.lh = [] ∧ s'.outstanding = s.outstanding ∧ s'.itable = s.itable ∧
      (∀ b, sb.Home b → s'.mem b = s.mem b) ∧
      ∀ b, sb.Home b → s'.disk b = if b ∈ s.lh then s.mem b else s.disk b) E := by
  refine .get_bind ?_
  by_cases hlen : s.lh.length > 0
  · rw [if_pos hlen]
    refine (writeLog_spec hhome hshort).bind ?_
    rintro _ s₁ ⟨h₁, hlog⟩
    refine (writeHead_spec s₁).bind ?_
    rintro _ s₂ ⟨h₂, hlog₂⟩
    have h := h₁.trans h₂
    have hhome₂ : ∀ b ∈ s₂.lh, sb.Home b := by
      rw [h.lh]
      exact hhome
    refine (installTrans_spec hhome₂ (by unfold State.Short; rw [h.lh]; exact hshort) fun x hx => ?_).bind ?_
    · rw [h.lh] at hx
      rw [hlog₂ x.2, hlog x hx, h.mem x.1 (hhome _ (List.fst_mem_of_mem_zipIdx hx))]
    rintro _ s₃ ⟨hmem, hdisk, hlh, hout, htab⟩
    refine .modify_bind ((writeHead_spec { s₃ with lh := [] }).mono ?_)
    rintro _ s₄ ⟨h₄, -⟩
    refine ⟨h₄.lh, h₄.outstanding.trans (hout.trans h.outstanding), h₄.itable.trans (htab.trans h.itable), fun b hb => ?_,
      fun b hb => ?_⟩
    · rw [h₄.mem b hb]
      show s₃.mem b = _
      rw [hmem, h.mem b hb]
    · rw [h₄.disk b hb]
      show s₃.disk b = _
      rw [hdisk, h.lh, h.mem b hb, h.disk b hb]
  · rw [if_neg hlen]
    have hnil : s.lh = [] := List.length_eq_zero_iff.mp (by omega)
    refine .pure ⟨hnil, rfl, rfl, fun _ _ => rfl, fun b _ => ?_⟩
    rw [hnil, if_neg List.not_mem_nil]

end

/-- The cached blocks that differ from the disk are in the header, and can be committed. -/
structure Coherent (sb : Superblock) (s : State) : Prop where
  home : ∀ b ∈ s.lh, sb.Home b
  len : s.Short
  clean : ∀ b, sb.Home b → b ∉ s.lh → s.disk b = s.mem b

/-- The end of the last transaction: the disk holds what is cached. -/
theorem endOp_spec (h : Coherent sb s) (hout : s.outstanding = 1) :
    Ensures (endOp sb) s (fun _ s' => s'.lh = [] ∧ s'.outstanding = 0 ∧ s'.itable = s.itable ∧
      (∀ b, sb.Home b → s'.mem b = s.mem b) ∧ ∀ b, sb.Home b → s'.disk b = s'.mem b) E := by
  have h0 : s.outstanding - 1 = 0 := by omega
  have hhome : ∀ b ∈ { s with outstanding := s.outstanding - 1 }.lh, sb.Home b := h.home
  refine .modify_bind (.get_bind ?_)
  rw [if_pos h0]
  refine (commit_spec hhome h.len).mono ?_
  rintro _ s' ⟨hlh, hout', htab, hmem, hdisk⟩
  refine ⟨hlh, hout'.trans h0, htab, hmem, fun b hb => ?_⟩
  rw [hdisk b hb, hmem b hb]
  split
  · rfl
  · next hn => exact h.clean b hb hn

/-! ## Recovery -/

/-- The block numbers in the header on a disk. -/
def headOf (sb : Superblock) (m : Blocks) : List Nat :=
  (List.range (get32 (m sb.logstart) 0).toInt.toNat).map fun i => (get32 (m sb.logstart) (4 + 4 * i)).toNat

/-- The disk after the log is replayed. -/
def replay (sb : Superblock) (m : Blocks) : Blocks :=
  let m' := (headOf sb m).zipIdx.foldl (fun m x => Function.update m x.1 (m (sb.logstart + x.2 + 1))) m
  Function.update m' sb.logstart (putHead (m' sb.logstart) [])

/-- **`recover_from_log`** at boot, when nothing is cached but what is on the disk. -/
theorem recoverFromLog_spec (hboot : s.disk = s.mem) (hn : (get32 (s.mem sb.logstart) 0).toInt ≤ 30) :
    Ensures (recoverFromLog sb) s (fun _ s' => s'.mem = replay sb s.mem ∧ s'.disk = s'.mem ∧ s'.lh = [] ∧
      s'.outstanding = s.outstanding ∧ s'.itable = s.itable) E := by
  refine Ensures.bind (Q := fun _ s' => s' = { s with lh := headOf sb s.mem }) ?_ ?_
  · refine bread_bind ?_
    rw [if_neg (by show ¬ _ > (30 : Int); omega)]
    exact .of_ok rfl rfl
  rintro _ _ rfl
  refine Ensures.bind (Q := fun _ s' => s'.disk = s'.mem ∧ s'.outstanding = s.outstanding ∧ s'.itable = s.itable ∧
    s'.mem = (headOf sb s.mem).zipIdx.foldl (fun m x => update m x.1 (m (sb.logstart + x.2 + 1))) s.mem) ?_ ?_
  · unfold installTrans
    refine .get_bind ?_
    -- what is left of the loop leads from the cached blocks to the end
    refine (Ensures.forM (I := fun l s' => s'.disk = s'.mem ∧ s'.outstanding = s.outstanding ∧ s'.itable = s.itable ∧
      l.foldl (fun m x => update m x.1 (m (sb.logstart + x.2 + 1))) s'.mem =
        (headOf sb s.mem).zipIdx.foldl (fun m x => update m x.1 (m (sb.logstart + x.2 + 1))) s.mem) ?_ ?_).mono ?_
    · exact ⟨hboot, rfl, rfl, rfl⟩
    · rintro a l s₁ ⟨hd, ho, ht, hfold⟩
      refine bread_bind (.of_ok rfl ⟨?_, ho, ht, hfold⟩)
      show update s₁.disk _ _ = update s₁.mem _ _
      rw [hd]
    · rintro _ s' ⟨hd, ho, ht, hfold⟩
      exact ⟨hd, ho, ht, hfold⟩
  · rintro _ s₁ ⟨hd, ho, ht, hmem⟩
    refine .of_ok rfl ⟨?_, ?_, rfl, ho, ht⟩
    · show update s₁.mem _ (putHead (s₁.mem _) []) = _
      rw [hmem]
      rfl
    · show update s₁.disk _ _ = update s₁.mem _ _
      rw [hd]

end Xv6.Disk
