import Xv6.Disk.Bmap

/-!
# Reading a file

`readi` copies the bytes of the file and changes nothing, if every block it gets to has an address (`readi_spec`). It never
gets to the allocator then, whatever that does.
-/

namespace Xv6.Disk

open Lib

variable {sb : Superblock} {s s' : State} {ip : Fin NINODE} {E : String → Prop} {alloc : FsM (BitVec 32)}

/-- `bmap` of a block that has an address does not call the allocator. -/
theorem bmap_found {bn : Nat} (h : addr s.mem (s.itable ip).toDinode bn ≠ 0) : Ensures (bmap alloc ip bn) s
      (fun a s' => a.toNat = addr s.mem (s.itable ip).toDinode bn ∧ s' = s) E := by
  unfold addr slotOf at h ⊢
  unfold bmap
  by_cases h12 : bn < 12
  · rw [dif_pos h12] at h ⊢
    rw [dif_pos h12]
    have hk : (s.itable ip).addrs ⟨bn, by omega⟩ ≠ 0 := toNat_ne_zero.mpr h
    refine .get_bind ?_
    rw [if_neg hk]
    exact .pure ⟨rfl, rfl⟩
  · rw [dif_neg h12] at h ⊢
    by_cases hj : bn - 12 < 256
    · rw [dif_pos hj] at h ⊢
      rw [dif_neg h12, if_pos hj]
      have hind : (s.itable ip).addrs 12 ≠ 0 := fun h0 => h (if_pos h0)
      have he : slot s.mem (s.itable ip).toDinode (.entry ⟨bn - 12, hj⟩) =
          (get32 (s.mem ((s.itable ip).addrs 12).toNat) (4 * (bn - 12))).toNat := if_neg hind
      refine Ensures.bind (Q := fun a s' => a = (s.itable ip).addrs 12 ∧ s' = s) ?_ ?_
      · refine .get_bind ?_
        rw [if_neg hind]
        exact .pure ⟨rfl, rfl⟩
      · rintro _ s₁ ⟨rfl, rfl⟩
        rw [if_neg hind]
        refine bread_bind ?_
        have ha : get32 (s₁.mem ((s₁.itable ip).addrs 12).toNat) (4 * (bn - 12)) ≠ 0 := toNat_ne_zero.mpr (he ▸ h)
        rw [if_neg ha]
        exact .pure ⟨he.symm, rfl⟩
    · rw [dif_neg hj] at h
      exact absurd rfl h

/-! ## `copyout` -/

/-- The memory that `n` bytes are copied to is there. -/
def Dest.Ok : Dest → Nat → Prop
  | .kernel, _ => True
  | .user page va, n => ∀ p, va ≤ p → p < va + n → page (p / 4096) = true

theorem copyout_ok {page : Nat → Bool} : ∀ {fuel va len : Nat}, len ≤ fuel →
    (∀ p, va ≤ p → p < va + len → page (p / 4096) = true) → copyout page fuel va len = (len, true)
  | 0, va, len, hle, _ => by
    obtain rfl : len = 0 := by omega
    rfl
  | fuel + 1, va, len, hle, h => by
    unfold copyout
    by_cases h0 : len = 0
    · rw [if_pos h0, h0]
    · have hpage : page (va / 4096) = true := h va (by omega) (by omega)
      rw [if_neg h0, if_pos hpage]
      have hn : min (4096 - va % 4096) len ≤ len := Nat.min_le_right _ _
      have hpos : 0 < min (4096 - va % 4096) len := by omega
      have ih : copyout page fuel (va + min (4096 - va % 4096) len) (len - min (4096 - va % 4096) len) =
          (len - min (4096 - va % 4096) len, true) :=
        copyout_ok (by omega) fun p h1 h2 => h p (by omega) (by omega)
      dsimp only
      rw [ih, Nat.add_sub_cancel' hn]

/-- A copy that succeeds is a copy of all bytes. -/
theorem copyout_full {page : Nat → Bool} : ∀ {fuel va len : Nat}, (copyout page fuel va len).2 = true →
    (copyout page fuel va len).1 = len
  | 0, va, len, h => (of_decide_eq_true h).symm
  | fuel + 1, va, len, h => by
    unfold copyout at h ⊢
    by_cases h0 : len = 0
    · rw [if_pos h0, h0]
    · rw [if_neg h0] at h ⊢
      by_cases hpage : page (va / 4096) = true
      · rw [if_pos hpage] at h ⊢
        have ih := copyout_full h
        dsimp only
        omega
      · rw [if_neg hpage] at h
        cases h

theorem eitherCopyout_full {dst : Dest} {src : Bytes} {o len : Nat} (h : (eitherCopyout dst src o len).2 = true) :
    (eitherCopyout dst src o len).1 = (List.range len).map fun j => src (o + j) := by
  cases dst with
  | kernel => rfl
  | user page va =>
    unfold eitherCopyout at h ⊢
    dsimp only at h ⊢
    rw [copyout_full h]

theorem eitherCopyout_ok {dst : Dest} {src : Bytes} {o len : Nat} (h : dst.Ok len) :
    (eitherCopyout dst src o len).2 = true := by
  cases dst with
  | kernel => rfl
  | user page va =>
    unfold eitherCopyout
    dsimp only
    rw [copyout_ok (Nat.le_refl len) h]

theorem Dest.Ok.advance {dst : Dest} {m n : Nat} (h : dst.Ok n) (hm : m ≤ n) : (dst.advance m).Ok (n - m) := by
  cases dst with
  | kernel => exact trivial
  | user page va => exact fun p h1 h2 => h p (by omega) (by omega)

theorem Dest.Ok.mono {dst : Dest} {m n : Nat} (h : dst.Ok n) (hm : m ≤ n) : dst.Ok m := by
  cases dst with
  | kernel => exact trivial
  | user page va => exact fun p h1 h2 => h p (by omega) (by omega)

/-! ## `readi` -/

/-- The bytes of a file from position `off` on. -/
def bytesAt (m : Blocks) (d : Dinode) (off n : Nat) : List Byte := (List.range n).map fun j => byteAt m d (off + j)

theorem bytesAt_add (m : Blocks) (d : Dinode) (off k n : Nat) :
    bytesAt m d off (k + n) = bytesAt m d off k ++ bytesAt m d (off + k) n := by
  unfold bytesAt
  rw [List.range_add, List.map_append, List.map_map]
  refine congrArg _ (List.map_congr_left fun j _ => ?_)
  show byteAt m d (off + (k + j)) = _
  rw [Nat.add_assoc]

theorem content_slice (m : Blocks) (d : Dinode) (off n : Nat) :
    ((content m d).drop off).take n = bytesAt m d off (min n (d.size.toNat - off)) := by
  refine List.ext_getElem ?_ fun j h1 h2 => ?_
  · simp [content, bytesAt]
  · simp [content, bytesAt]

/-- A block of the file holds its bytes. -/
theorem byteAt_chunk {m : Blocks} {d : Dinode} {off j : Nat} (hj : j < 1024 - off % 1024) :
    byteAt m d (off + j) = m (addr m d (off / 1024)) (off % 1024 + j) := by
  unfold byteAt
  have h1 : (off + j) / 1024 = off / 1024 := by omega
  have h2 : (off + j) % 1024 = off % 1024 + j := by omega
  rw [h1, h2]

/-- The loop of `readi`, where every block has an address. -/
theorem readLoop_spec {fuel : Nat} : ∀ {dst : Dest} {off left tot : Nat} {out : List Byte}, left ≤ fuel →
    (∀ p, off ≤ p → p < off + left → addr s.mem (s.itable ip).toDinode (p / 1024) ≠ 0) →
    Ensures (readLoop alloc ip fuel dst off left tot out) s (fun r s' => s' = s ∧
      (r = (((tot + left : Nat) : Int), out ++ bytesAt s.mem (s.itable ip).toDinode off left) ∨
        r.1 = -1 ∧ ¬ dst.Ok left)) E := by
  induction fuel with
  | zero =>
    intro dst off left tot out hle _
    obtain rfl : left = 0 := by omega
    exact .pure ⟨rfl, .inl (by simp [bytesAt])⟩
  | succ fuel ih =>
    intro dst off left tot out hle haddr
    unfold readLoop
    by_cases h0 : left = 0
    · rw [if_pos h0, h0]
      exact .pure ⟨rfl, .inl (by simp [bytesAt])⟩
    · rw [if_neg h0]
      have ha := haddr off (by omega) (by omega)
      refine (bmap_found ha).bind ?_
      rintro a s₁ ⟨hat, rfl⟩
      have ha0 : a ≠ 0 := toNat_ne_zero.mpr (hat ▸ ha)
      rw [if_neg ha0]
      refine bread_bind ?_
      have hm : min left (1024 - off % 1024) ≤ left := Nat.min_le_left _ _
      have hm' : min left (1024 - off % 1024) ≤ 1024 - off % 1024 := Nat.min_le_right _ _
      have hpos : 0 < min left (1024 - off % 1024) := by omega
      generalize min left (1024 - off % 1024) = m at hm hm' hpos ⊢
      by_cases hok : (eitherCopyout dst (s₁.mem a.toNat) (off % 1024) m).2 = true
      · rw [if_pos hok]
        refine (ih (by omega) fun p h1 h2 => haddr p (by omega) (by omega)).mono ?_
        rintro r s₂ ⟨rfl, hr⟩
        refine ⟨rfl, ?_⟩
        rcases hr with hr | ⟨hr, hd⟩
        · have hout : (eitherCopyout dst (s₂.mem a.toNat) (off % 1024) m).1 =
              bytesAt s₂.mem (s₂.itable ip).toDinode off m := by
            rw [eitherCopyout_full hok, hat]
            exact List.map_congr_left fun j hj => (byteAt_chunk (by have := List.mem_range.mp hj; omega)).symm
          have hsplit := bytesAt_add s₂.mem (s₂.itable ip).toDinode off m (left - m)
          rw [Nat.add_sub_cancel' hm] at hsplit
          rw [hr, hout, hsplit, List.append_assoc, Nat.add_assoc, Nat.add_sub_cancel' hm]
          exact .inl rfl
        · exact .inr ⟨hr, fun h => hd (h.advance hm)⟩
      · rw [if_neg hok]
        exact .pure ⟨rfl, .inr ⟨rfl, fun hd => hok (eitherCopyout_ok (hd.mono hm))⟩⟩

/-- The bytes of a range of a file, as far as they are there; a range that wraps around is refused. -/
def rangeOf (m : Blocks) (d : Dinode) (off n : BitVec 32) : List Byte :=
  if off.toNat + n.toNat < 2 ^ 32 then ((content m d).drop off.toNat).take n.toNat else []

/-- **Reading a file** whose blocks have addresses returns its bytes, or -1 if the destination is not there, and changes
nothing. -/
theorem readi_spec {dst : Dest} {off n : BitVec 32}
    (haddr : ∀ p, off.toNat ≤ p → p < off.toNat + n.toNat → p < (s.itable ip).size.toNat →
      addr s.mem (s.itable ip).toDinode (p / 1024) ≠ 0) :
    Ensures (readi alloc ip dst off n) s (fun r s' => s' = s ∧
      (r = (((rangeOf s.mem (s.itable ip).toDinode off n).length : Int), rangeOf s.mem (s.itable ip).toDinode off n) ∨
        r.1 = -1 ∧ ¬ dst.Ok n.toNat)) E := by
  unfold readi rangeOf
  refine .get_bind ?_
  dsimp only
  by_cases hbad : off > (s.itable ip).size ∨ off + n < off
  · rw [if_pos hbad]
    refine .pure ⟨rfl, .inl ?_⟩
    have hnil : (if off.toNat + n.toNat < 2 ^ 32
        then ((content s.mem (s.itable ip).toDinode).drop off.toNat).take n.toNat else []) = [] := by
      split
      · next hlt =>
        rcases hbad with hb | hb
        · rw [content_slice]
          have hb' : (s.itable ip).size.toNat < off.toNat := hb
          rw [show min n.toNat ((s.itable ip).size.toNat - off.toNat) = 0 by omega]
          rfl
        · have hb' : (off + n).toNat < off.toNat := hb
          rw [BitVec.toNat_add, Nat.mod_eq_of_lt hlt] at hb'
          omega
      · rfl
    rw [hnil]
    rfl
  · rw [if_neg hbad]
    have hsz : off ≤ (s.itable ip).size := BitVec.not_lt.mp fun hb => hbad (.inl hb)
    have hov : off ≤ off + n := BitVec.not_lt.mp fun hb => hbad (.inr hb)
    have hlt : off.toNat + n.toNat < 2 ^ 32 := by
      by_contra hge
      have hov' : off.toNat ≤ (off + n).toNat := hov
      rw [BitVec.toNat_add] at hov'
      omega
    -- the number of bytes that are there
    have hn : (if off + n > (s.itable ip).size then (s.itable ip).size - off else n).toNat =
        min n.toNat ((s.itable ip).size.toNat - off.toNat) := by
      have hadd : (off + n).toNat = off.toNat + n.toNat := by rw [BitVec.toNat_add, Nat.mod_eq_of_lt hlt]
      by_cases hgt : off + n > (s.itable ip).size
      · have hgt' : (s.itable ip).size.toNat < (off + n).toNat := hgt
        rw [if_pos hgt, BitVec.toNat_sub_of_le hsz]
        omega
      · have hgt' : ¬ (s.itable ip).size.toNat < (off + n).toNat := hgt
        rw [if_neg hgt]
        omega
    rw [hn]
    refine (readLoop_spec (Nat.le_refl _) fun p h1 h2 => haddr p h1 (by omega) (by omega)).mono ?_
    rintro r _ ⟨rfl, hr⟩
    refine ⟨rfl, hr.imp (fun hr => ?_) fun hr => ⟨hr.1, fun hd => hr.2 (hd.mono (Nat.min_le_left _ _))⟩⟩
    rw [hr, if_pos hlt, content_slice]
    simp [bytesAt]

end Xv6.Disk
