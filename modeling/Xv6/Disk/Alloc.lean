import Xv6.Disk.Code
import Xv6.Lib.Ensures

/-!
# Blocks are taken and given back

What writing a block does to what the disk says, and what `balloc`, `bfree` and `bmap` do: `balloc` either finds no free
block or marks one and clears it (`State.allocated`); `bmap` puts such a block into an empty slot of its inode, and so keeps
the accounting of `Acc`.
-/

namespace Xv6.Disk

open Lib
open Function (update update_of_ne update_self)

variable {sb : Superblock} {m m' : Blocks} {d : Dinode} {i j b c a : Nat} {v : Bytes}

/-! ## What a write changes -/

theorem dino_update_ne (h : b ≠ sb.iblock i) : dino sb (update m b v) i = dino sb m i := by
  unfold dino
  rw [update_of_ne h.symm]

theorem dino_putDinode (m : Blocks) (i : Nat) (d : Dinode) :
    dino sb (update m (sb.iblock i) (putDinode (m (sb.iblock i)) (i % 16 * 64) d)) = update (dino sb m) i d := by
  funext j
  unfold dino
  by_cases hj : j = i
  · rw [hj, update_self, update_self, getDinode_putDinode]
  · rw [update_of_ne hj]
    by_cases hb : sb.iblock j = sb.iblock i
    · rw [hb, update_self]
      have hdiv : j / 16 = i / 16 := Nat.add_right_cancel hb
      exact getDinode_congr (agree_putDinode (by omega))
    · rw [update_of_ne hb]

theorem bit_update_ne (h : b ≠ sb.bblock c) : bit sb (update m b v) c ↔ bit sb m c := by
  unfold bit
  rw [update_of_ne h.symm]

theorem bit_setBit (m : Blocks) (a b : Nat) :
    bit sb (update m (sb.bblock a) (setBit (m (sb.bblock a)) (a % 8192))) b ↔ bit sb m b ∨ b = a := by
  unfold bit
  by_cases hb : sb.bblock b = sb.bblock a
  · have hdiv : b / 8192 = a / 8192 := Nat.add_right_cancel hb
    rw [hb, update_self, bitOf_setBit]
    by_cases he : b = a
    · simp [he]
    · have hmod : b % 8192 ≠ a % 8192 := by omega
      simp [he, hmod]
  · have he : b ≠ a := fun he => hb (by rw [he])
    rw [update_of_ne hb]
    simp [he]

theorem bit_clearBit (m : Blocks) (a b : Nat) :
    bit sb (update m (sb.bblock a) (clearBit (m (sb.bblock a)) (a % 8192))) b ↔ bit sb m b ∧ b ≠ a := by
  unfold bit
  by_cases hb : sb.bblock b = sb.bblock a
  · have hdiv : b / 8192 = a / 8192 := Nat.add_right_cancel hb
    rw [hb, update_self, bitOf_clearBit]
    by_cases he : b = a
    · simp [he]
    · have hmod : b % 8192 ≠ a % 8192 := by omega
      simp [he, hmod]
  · have he : b ≠ a := fun he => hb (by rw [he])
    rw [update_of_ne hb]
    simp [he]

/-- The slots of an inode depend on its indirect block only. -/
theorem slot_congr (h : d.addrs 12 ≠ 0 → m' (d.addrs 12).toNat = m (d.addrs 12).toNat) (k : Slot) :
    slot m' d k = slot m d k := by
  cases k with
  | direct k => rfl
  | indirect => rfl
  | entry j =>
    show (if d.addrs 12 = 0 then 0 else _) = if d.addrs 12 = 0 then 0 else _
    by_cases h0 : d.addrs 12 = 0
    · rw [if_pos h0, if_pos h0]
    · rw [if_neg h0, if_neg h0, h h0]

/-! ## `log_write` -/

/-- There is room for `k` more blocks in the log, unless a full log is an error that is allowed. -/
def Fits (E : String → Prop) (s : State) (k : Nat) : Prop := E "too big a transaction" ∨ s.lh.length + k ≤ 30

/-- The blocks of the header fit into the log. -/
def State.Short (s : State) : Prop := s.lh.length ≤ 30

/-- A buffer is changed and passed to `log_write`. -/
def State.store (s : State) (b : Nat) (v : Bytes) : State := (s.setBuf b v).logged b

section Log

variable {s s' : State} {E : String → Prop} {k k' : Nat}

theorem Fits.mono (h : Fits E s k) (hk : s'.lh.length + k' ≤ s.lh.length + k) : Fits E s' k' := by
  rcases h with h | h
  · exact .inl h
  · exact .inr (by omega)

theorem length_logged (s : State) (b : Nat) : (s.logged b).lh.length ≤ s.lh.length + 1 := by
  unfold State.logged
  dsimp only
  split
  · omega
  · rw [List.length_append, List.length_singleton]

theorem mem_logged : c ∈ (s.logged b).lh ↔ c ∈ s.lh ∨ c = b := by
  unfold State.logged
  split
  · next hb =>
    constructor
    · exact .inl
    · rintro (hc | rfl)
      · exact hc
      · exact hb
  · rw [List.mem_append, List.mem_singleton]

theorem logWrite_spec (hout : 1 ≤ s.outstanding) (hfit : Fits E s 1) :
    Ensures (logWrite b) s (fun _ s' => s' = s.logged b ∧ s'.Short) E := by
  refine .get_bind ?_
  by_cases hfull : s.lh.length ≥ LOGBLOCKS
  · rw [if_pos hfull]
    refine .throw (hfit.resolve_right fun h => ?_)
    have hlen : s.lh.length ≥ 30 := hfull
    omega
  · rw [if_neg hfull, if_neg (by omega)]
    have hlen : s.lh.length < 30 := Nat.not_le.mp hfull
    exact .of_ok rfl ⟨rfl, (length_logged s b).trans hlen⟩

variable {α : Type} {R : α → State → Prop} {ip : Fin NINODE}

theorem bread_bind {f : Bytes → FsM α} (h : Ensures (f (s.mem b)) s R E) : Ensures (bread b >>= f) s R E := h

theorem setBuf_bind {f : Unit → FsM α} (h : Ensures (f ()) (s.setBuf b v) R E) : Ensures (setBuf b v >>= f) s R E := h

theorem setInode_bind {f : Unit → FsM α} {g : Inode → Inode} (h : Ensures (f ()) (s.setInode ip g) R E) :
    Ensures (setInode ip g >>= f) s R E := h

/-- A buffer is changed and logged. -/
theorem store_spec (hout : 1 ≤ s.outstanding) (hfit : Fits E s 1) :
    Ensures (do setBuf b v; logWrite b) s (fun _ s' => s' = s.store b v ∧ s'.Short) E :=
  logWrite_spec hout hfit

theorem store_bind {f : Unit → FsM α} (hout : 1 ≤ s.outstanding) (hfit : Fits E s 1)
    (h : (s.store b v).Short → Ensures (f ()) (s.store b v) R E) :
    Ensures (setBuf b v >>= fun _ => logWrite b >>= f) s R E := by
  refine setBuf_bind ((logWrite_spec (s := s.setBuf b v) hout hfit).bind ?_)
  rintro _ _ ⟨rfl, hshort⟩
  exact h hshort

end Log

/-! ## `balloc` and `bfree` -/

/-- Block `n` is marked and cleared. -/
def State.allocated (sb : Superblock) (s : State) (n : Nat) : State :=
  (s.store (sb.bblock n) (setBit (s.mem (sb.bblock n)) (n % 8192))).store n fun _ => 0

section Balloc

variable {s s' : State} {E : String → Prop} {n : Nat}

theorem length_allocated (sb : Superblock) (s : State) (n : Nat) : (s.allocated sb n).lh.length ≤ s.lh.length + 2 := by
  have h1 := length_logged (s.setBuf (sb.bblock n) (setBit (s.mem (sb.bblock n)) (n % 8192))) (sb.bblock n)
  have h2 := length_logged ((s.store (sb.bblock n) (setBit (s.mem (sb.bblock n)) (n % 8192))).setBuf n fun _ => 0) n
  exact h2.trans (Nat.succ_le_succ h1)

theorem mem_allocated : c ∈ (s.allocated sb n).lh ↔ c ∈ s.lh ∨ c = sb.bblock n ∨ c = n := by
  unfold State.allocated State.store
  rw [mem_logged]
  show c ∈ ((s.setBuf _ _).logged _).lh ∨ _ ↔ _
  rw [mem_logged]
  exact or_assoc

theorem allocated_mem_ne (h1 : b ≠ sb.bblock n) (h2 : b ≠ n) : (s.allocated sb n).mem b = s.mem b := by
  show update (update s.mem _ _) n _ b = _
  rw [update_of_ne h2, update_of_ne h1]

theorem allocated_mem_self : (s.allocated sb n).mem n = fun _ => 0 := update_self ..

theorem dino_allocated (hsb : sb.Ok) (hn : sb.nmeta ≤ n) (hi : i < sb.ninodes) :
    dino sb (s.allocated sb n).mem i = dino sb s.mem i := by
  have h1 := hsb.iblock_lt_nmeta hi
  show dino sb (update (update s.mem _ _) n _) i = _
  rw [dino_update_ne (by omega), dino_update_ne (hsb.iblock_ne_bblock hi).symm]

theorem bit_allocated (hsb : sb.Ok) (hn : sb.nmeta ≤ n) (hb : b < sb.size) :
    bit sb (s.allocated sb n).mem b ↔ bit sb s.mem b ∨ b = n := by
  have h1 := hsb.bblock_lt hb
  show bit sb (update (update s.mem _ _) n _) b ↔ _
  rw [bit_update_ne (by omega), bit_setBit]

/-- One bitmap block. -/
theorem ballocIn_spec (hmeta : ∀ b, b < sb.nmeta → bit sb s.mem b) (hout : 1 ≤ s.outstanding)
    (hfit : Fits E s 2) (hb : b % 8192 = 0) :
    Ensures (ballocIn sb b) s (fun r s' => r.elim (s' = s) fun a =>
      ∃ n, a = .ofNat 32 n ∧ sb.nmeta ≤ n ∧ n < sb.size ∧ ¬ bit sb s.mem n ∧ s' = s.allocated sb n ∧ s'.Short) E := by
  refine bread_bind ?_
  split
  · exact .pure rfl
  · next bi hfind =>
    have hbi := List.mem_of_find?_eq_some hfind
    rw [List.mem_range] at hbi
    have hmod : (b + bi) % 8192 = bi := by omega
    have hblock : sb.bblock (b + bi) = sb.bblock b := by
      unfold Superblock.bblock
      omega
    have hfree : ¬ bit sb s.mem (b + bi) := by
      have hz := List.find?_some hfind
      rw [decide_eq_true_eq, and_mask_eq_zero] at hz
      unfold bit
      rw [hblock, hmod, hz]
      decide
    have hn : sb.nmeta ≤ b + bi := by
      by_contra hlt
      exact hfree (hmeta _ (by omega))
    have heq : s.allocated sb (b + bi) =
        (s.store (sb.bblock b) (setBit (s.mem (sb.bblock b)) bi)).store (b + bi) fun _ => 0 := by
      unfold State.allocated
      rw [hblock, hmod]
    refine store_bind hout (hfit.mono (Nat.add_le_add_left (by omega) _)) fun _ => ?_
    have hlen := length_logged (s.setBuf (sb.bblock b) (setBit (s.mem (sb.bblock b)) bi)) (sb.bblock b)
    refine Ensures.bind (Q := fun _ s' => s' = s.allocated sb (b + bi) ∧ s'.Short) ?_ ?_
    · rw [heq]
      exact store_spec hout (hfit.mono (Nat.succ_le_succ hlen))
    · rintro _ _ ⟨rfl, hshort⟩
      exact .pure ⟨b + bi, rfl, hn, by omega, hfree, rfl, hshort⟩

/-- **`balloc`** finds no free block, or takes one. -/
theorem balloc_spec (hsb : sb.Ok) (hmeta : ∀ b, b < sb.nmeta → bit sb s.mem b) (hout : 1 ≤ s.outstanding)
    (hfit : Fits E s 2) :
    Ensures (balloc sb) s (fun a s' => (a = 0 ∧ s' = s) ∨
      (a ≠ 0 ∧ sb.nmeta ≤ a.toNat ∧ a.toNat < sb.size ∧ ¬ bit sb s.mem a.toNat ∧ s' = s.allocated sb a.toNat ∧ s'.Short)) E := by
  refine Ensures.bind (Ensures.findSomeM? (I := fun l s' => s' = s ∧ ∀ b ∈ l, b % 8192 = 0)
    (R := fun a s' => ∃ n, a = .ofNat 32 n ∧ sb.nmeta ≤ n ∧ n < sb.size ∧ ¬ bit sb s.mem n ∧ s' = s.allocated sb n ∧ s'.Short)
    ⟨rfl, fun b hb => ?_⟩ ?_) ?_
  · obtain ⟨k, -, rfl⟩ := List.mem_map.mp hb
    exact Nat.mul_mod_left k 8192
  · rintro b l s₁ ⟨rfl, hl⟩
    refine (ballocIn_spec hmeta hout hfit (hl b List.mem_cons_self)).mono fun r s' h => ?_
    cases r with
    | none => exact ⟨h, fun c hc => hl c (List.mem_cons_of_mem b hc)⟩
    | some a => exact h
  · intro r s' h
    cases r with
    | none => exact .pure (.inl ⟨rfl, h.1⟩)
    | some a =>
      obtain ⟨n, rfl, hn, hlt, hfree, rfl, hshort⟩ := h
      have hsmall := hsb.small
      have hpos := hsb.nmeta_pos
      have hnat : (BitVec.ofNat 32 n).toNat = n := by
        rw [BitVec.toNat_ofNat]
        omega
      refine .pure (.inr ⟨fun h0 => ?_, ?_⟩)
      · have h0' := congrArg BitVec.toNat h0
        rw [show ((some (BitVec.ofNat 32 n)).getD 0).toNat = n from hnat] at h0'
        exact absurd (show n = 0 from h0') (by omega)
      · show sb.nmeta ≤ (BitVec.ofNat 32 n).toNat ∧ _
        rw [show (some (BitVec.ofNat 32 n)).getD 0 = BitVec.ofNat 32 n from rfl, hnat]
        exact ⟨hn, hlt, hfree, rfl, hshort⟩

theorem bfree_spec (hout : 1 ≤ s.outstanding) (hfit : Fits E s 1) (hb : bit sb s.mem b) : Ensures (bfree sb b) s
      (fun _ s' => s' = s.store (sb.bblock b) (clearBit (s.mem (sb.bblock b)) (b % 8192)) ∧ s'.Short) E := by
  refine bread_bind ?_
  rw [if_neg]
  · exact store_spec hout hfit
  · rw [and_mask_eq_zero]
    rw [hb]
    decide

end Balloc

end Xv6.Disk
