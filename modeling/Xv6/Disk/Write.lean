import Xv6.Disk.Read

/-!
# Writing a file

`writei` block by block: `bmap` finds the block, the bytes are copied into its buffer, the buffer is logged. `Writing` is the
invariant of the loop: up to `off` the file holds the bytes of the source, elsewhere it is as before, and all that changed is
in the log. A copy that fails stops the loop; if it fails in the middle of a chunk, the buffer has changed and is not in
the log (`Stopped`).
-/

namespace Xv6.Disk

open Lib

variable {sb : Superblock} {s s' s₀ : State} {ip : Fin NINODE} {E : String → Prop} {src : Source}

/-! ## `copyin` -/

/-- Byte `j` of the source, if its page is there. -/
def Source.byte : Source → Nat → Option Byte
  | .kernel p, j => some (p j)
  | .user page va, j => (page ((va + j) / 4096)).map (· ((va + j) % 4096))

theorem byte_user (page : Nat → Option Bytes) (va j : Nat) :
    (Source.user page va).byte j = (page ((va + j) / 4096)).map (· ((va + j) % 4096)) := rfl

theorem Source.byte_advance (src : Source) (m j : Nat) : (src.advance m).byte j = src.byte (m + j) := by
  cases src with
  | kernel p => rfl
  | user page va =>
    show (Source.user page (va + m)).byte j = _
    rw [byte_user, byte_user, Nat.add_assoc]

/-- What a copy of `len` bytes to offset `o` of `dst` has done. -/
structure Copied (src : Source) (dst : Bytes) (o len : Nat) (r : Bytes × Bool) : Prop where
  outside : ∀ j, j < o ∨ o + len ≤ j → r.1 j = dst j
  inside : r.2 = true → ∀ j, j < len → src.byte j = some (r.1 (o + j))
  succeeds : (∀ j, j < len → (src.byte j).isSome) → r.2 = true
  fails : 0 < len → src.byte 0 = none → r = (dst, false)

theorem copyin_spec {page : Nat → Option Bytes} : ∀ {fuel : Nat} {dst : Bytes} {o va len : Nat}, len ≤ fuel →
    Copied (.user page va) dst o len (copyin page fuel dst o va len)
  | 0, dst, o, va, len, hle => by
    obtain rfl : len = 0 := by omega
    exact ⟨fun _ _ => rfl, fun _ j hj => by omega, fun _ => rfl, fun h => by omega⟩
  | fuel + 1, dst, o, va, len, hle => by
    unfold copyin
    by_cases h0 : len = 0
    · rw [if_pos h0, h0]
      exact ⟨fun _ _ => rfl, fun _ j hj => by omega, fun _ => rfl, fun h => by omega⟩
    rw [if_neg h0]
    cases hp : page (va / 4096) with
    | none =>
      refine ⟨fun _ _ => rfl, nofun, fun h => ?_, fun _ _ => rfl⟩
      have hsome := h 0 (by omega)
      rw [byte_user, Nat.add_zero, hp] at hsome
      cases hsome
    | some p =>
      dsimp only
      have hn : min (4096 - va % 4096) len ≤ len := Nat.min_le_right _ _
      have hn' : min (4096 - va % 4096) len ≤ 4096 - va % 4096 := Nat.min_le_left _ _
      have hpos : 0 < min (4096 - va % 4096) len := by omega
      generalize min (4096 - va % 4096) len = n at hn hn' hpos ⊢
      have ih : Copied (.user page (va + n)) (splice dst o n fun j => p (va % 4096 + j)) (o + n) (len - n)
          (copyin page fuel (splice dst o n fun j => p (va % 4096 + j)) (o + n) (va + n) (len - n)) :=
        copyin_spec (by omega)
      have hbyte : ∀ j, (Source.user page (va + n)).byte j = (Source.user page va).byte (n + j) :=
        Source.byte_advance (.user page va) n
      refine ⟨fun j hj => ?_, fun hr j hj => ?_, fun h => ?_, fun _ hnone => ?_⟩
      · rw [ih.outside j (by omega), splice_outside (by omega)]
      · by_cases hjn : j < n
        · -- in this page
          have hdiv : (va + j) / 4096 = va / 4096 := by omega
          have hmod : (va + j) % 4096 = va % 4096 + j := by omega
          rw [ih.outside (o + j) (by omega), splice_inside (by omega) (by omega), Nat.add_sub_cancel_left]
          rw [byte_user, hdiv, hmod, hp]
          rfl
        · have hi := ih.inside hr (j - n) (by omega)
          rw [hbyte, Nat.add_sub_cancel' (by omega), show o + n + (j - n) = o + j by omega] at hi
          exact hi
      · refine ih.succeeds fun j hj => ?_
        rw [hbyte]
        exact h (n + j) (by omega)
      · rw [byte_user, Nat.add_zero, hp] at hnone
        cases hnone

theorem eitherCopyin_spec (src : Source) (dst : Bytes) (o len : Nat) : Copied src dst o len (eitherCopyin dst o src len) := by
  cases src with
  | kernel p =>
    refine ⟨fun j hj => splice_outside hj, fun _ j hj => ?_, fun _ => rfl, fun _ hn => by cases hn⟩
    show some (p j) = some (splice dst o len p (o + j))
    rw [splice_inside (by omega) (by omega), Nat.add_sub_cancel_left]
  | user page va => exact copyin_spec (Nat.le_refl len)

/-! ## A block of the file is written -/

theorem slotOf_inj {bn bn' : Nat} {κ : Slot} (h : slotOf bn = some κ) (h' : slotOf bn' = some κ) : bn = bn' := by
  unfold slotOf at h h'
  split at h
  · cases h
    split at h'
    · cases h'
      rfl
    · split at h'
      · cases h'
      · cases h'
  · split at h
    · cases h
      split at h'
      · cases h'
      · split at h'
        · next h1 h2 h3 h4 =>
          have he := congrArg Fin.val (Slot.entry.inj (Option.some.inj h'))
          dsimp only at he
          omega
        · cases h'
    · cases h

theorem slotOf_ne_indirect {bn : Nat} {κ : Slot} (h : slotOf bn = some κ) : κ ≠ .indirect := by
  rintro rfl
  unfold slotOf at h
  split at h
  · cases h
  · split at h
    · cases h
    · cases h

/-- The address of a block of the file is in a slot. -/
theorem addr_slot {m : Blocks} {d : Dinode} {bn : Nat} (h : addr m d bn ≠ 0) : ∃ κ, slotOf bn = some κ ∧ addr m d bn = slot m d κ := by
  unfold addr at h ⊢
  cases hs : slotOf bn with
  | none =>
    rw [hs] at h
    exact absurd rfl h
  | some κ => exact ⟨κ, rfl, rfl⟩

theorem addr_owner {bn : Nat} {κ : Slot} (h : Loaded sb s ip) (hκ : slotOf bn = some κ) :
    addr s.mem (s.itable ip).toDinode bn = s.owner sb ip ((s.itable ip).inum, κ) := by
  unfold addr
  rw [hκ, owner_self h]
  rfl

namespace Upd

variable {W : Slot → Prop} {bn : Nat}

/-- A block that has an address keeps it. -/
theorem addr (h : Upd sb ip W s s') (hl : Loaded sb s ip) (hl' : Loaded sb s' ip)
    (ha : Disk.addr s.mem (s.itable ip).toDinode bn ≠ 0) :
    Disk.addr s'.mem (s'.itable ip).toDinode bn = Disk.addr s.mem (s.itable ip).toDinode bn := by
  obtain ⟨κ, hκ, -⟩ := addr_slot ha
  rw [addr_owner hl hκ] at ha ⊢
  rw [addr_owner hl' hκ, h.inum]
  exact h.keep _ ha

/-- The bytes of a block outside `W` stay. -/
theorem byteAt {p : Nat} (h : Upd sb ip W s s') (hl : Loaded sb s ip) (hl' : Loaded sb s' ip)
    (hW : ∀ κ, slotOf (p / 1024) = some κ → ¬ W κ) (ha : Disk.addr s.mem (s.itable ip).toDinode (p / 1024) ≠ 0) :
    Disk.byteAt s'.mem (s'.itable ip).toDinode p = Disk.byteAt s.mem (s.itable ip).toDinode p := by
  unfold Disk.byteAt
  rw [h.addr hl hl' ha]
  obtain ⟨κ, hκ, -⟩ := addr_slot ha
  rw [addr_owner hl hκ] at ha ⊢
  rw [h.data _ ha fun hw => hW κ hκ hw.2]

end Upd

section Data

variable {bn a : Nat} {v : Bytes}

variable (h : Loaded sb s ip) (hsb : sb.Ok) (ha : addr s.mem (s.itable ip).toDinode bn = a) (h0 : a ≠ 0)
include h hsb ha h0

/-- The slots stay when the contents of a block of a file change. -/
theorem setBuf_owner
    (x : Nat × Slot) : (s.setBuf a v).owner sb ip x = s.owner sb ip x := by
  obtain ⟨κ, hκ, -⟩ := addr_slot (ha ▸ h0)
  rw [addr_owner h hκ] at ha
  have hmeta : sb.nmeta ≤ a := by
    have hr := (h.acc.range ((s.itable ip).inum, κ) (show s.owner sb ip _ ≠ 0 by rw [ha]; exact h0)).1
    rw [show owner sb (s.ino sb ip) s.mem _ = a from ha] at hr
    exact hr
  refine owner_congr (fun hlt => ?_) fun hl h12 => ?_
  · by_cases hj : x.1 = (s.itable ip).inum
    · rw [hj]
      exact (ino_self sb (s.setBuf a v) ip).trans (ino_self sb s ip).symm
    · rw [ino_ne hj, ino_ne (show x.1 ≠ ((s.setBuf a v).itable ip).inum from hj)]
      have h1 := hsb.iblock_lt_nmeta hlt
      exact dino_update_ne (by omega)
  · -- no block of a file is an indirect block
    have hne : ((s.ino sb ip x.1).addrs 12).toNat ≠ a := by
      intro he
      have ho : s.owner sb ip (x.1, .indirect) = a := (owner_indirect hl).trans he
      have hi := h.acc.inj (x.1, .indirect) ((s.itable ip).inum, κ) (show s.owner sb ip _ ≠ 0 by rw [ho]; exact h0)
        (show s.owner sb ip _ = s.owner sb ip _ by rw [ho, ha])
      exact slotOf_ne_indirect hκ (Prod.ext_iff.mp hi).2.symm
    exact Function.update_of_ne hne _ _

theorem setBuf_loaded :
    Loaded sb (s.setBuf a v) ip ∧ Upd sb ip (fun κ => slotOf bn = some κ) s (s.setBuf a v) := by
  have howner := setBuf_owner (v := v) h hsb ha h0
  obtain ⟨κ, hκ, -⟩ := addr_slot (ha ▸ h0)
  rw [addr_owner h hκ] at ha
  have hmeta : sb.nmeta ≤ a := by
    have hr := (h.acc.range ((s.itable ip).inum, κ) (show s.owner sb ip _ ≠ 0 by rw [ha]; exact h0)).1
    rw [show owner sb (s.ino sb ip) s.mem _ = a from ha] at hr
    exact hr
  refine ⟨⟨h.acc.congr howner fun b hb => ?_, ?_⟩, ?_⟩
  · have h1 := hsb.bblock_lt hb
    exact bit_update_ne (by omega)
  · refine ⟨h.live.1, h.live.2.1, ?_⟩
    have ht := h.live.2.2
    rw [ino_self] at ht
    exact (ino_self sb (s.setBuf a v) ip).symm ▸ ht
  · exact {
      disk := rfl
      outstanding := rfl
      others := fun _ _ => rfl
      core := rfl
      lh := fun _ hb => hb
      home := fun _ hb => .inl hb
      dino := fun j hj => by
        have h1 := hsb.iblock_lt_nmeta hj
        exact dino_update_ne (by omega)
      keep := fun x _ => howner x
      data := fun x hx hn => by
        refine Function.update_of_ne (fun he => hn ?_) _ _
        have hi := h.acc.inj x ((s.itable ip).inum, κ) hx (show s.owner sb ip x = s.owner sb ip _ by rw [he, ha])
        rw [hi]
        exact ⟨rfl, hκ⟩ }

/-- The bytes of the block are new. -/
theorem setBuf_byteAt {p : Nat} (hp : addr s.mem (s.itable ip).toDinode (p / 1024) ≠ 0) :
    byteAt (s.setBuf a v).mem ((s.setBuf a v).itable ip).toDinode p =
      if p / 1024 = bn then v (p % 1024) else byteAt s.mem (s.itable ip).toDinode p := by
  obtain ⟨hl, hu⟩ := setBuf_loaded h hsb ha h0
  by_cases hb : p / 1024 = bn
  · rw [if_pos hb]
    unfold byteAt
    rw [hu.addr h hl hp, hb, ha]
    exact congrFun (Function.update_self ..) _
  · rw [if_neg hb]
    exact hu.byteAt h hl (fun κ hκ hw => hb (slotOf_inj hκ hw)) hp

end Data

/-! ## The loop of `writei` -/

/-- The chunk of `len` bytes from byte `k` on is copied as a whole or not at all. -/
def Source.Whole (src : Source) (k len : Nat) : Prop := (∀ j, j < len → (src.byte (k + j)).isSome) ∨ src.byte k = none

/-- Every chunk of a write of `n` bytes at position `off` is copied as a whole or not at all: the bytes that go into one
block of the file are all in pages that are there, or already the first of them is not. -/
def Chunks (src : Source) (off n : Nat) : Prop :=
  ∀ p, off ≤ p → p < off + n → (p = off ∨ p % 1024 = 0) → src.Whole (p - off) (min (off + n - p) (1024 - p % 1024))

/-- The bytes up to `off` are written, and nothing else. -/
structure Writing (sb : Superblock) (ip : Fin NINODE) (s₀ : State) (src : Source) (off₀ off : Nat) (s : State) : Prop where
  loaded : Loaded sb s ip
  upd : Upd sb ip (fun _ => True) s₀ s
  written : ∀ p, off₀ ≤ p → p < off → addr s.mem (s.itable ip).toDinode (p / 1024) ≠ 0 ∧
    src.byte (p - off₀) = some (byteAt s.mem (s.itable ip).toDinode p)
  kept : ∀ p, addr s₀.mem (s₀.itable ip).toDinode (p / 1024) ≠ 0 → p < off₀ ∨ off ≤ p →
    byteAt s.mem (s.itable ip).toDinode p = byteAt s₀.mem (s₀.itable ip).toDinode p
  tracked : Tracked s₀ s
  len : s₀.Short → s.Short

/-- The loop of a write of `n` bytes has ended. -/
structure Stopped (sb : Superblock) (ip : Fin NINODE) (s₀ : State) (src : Source) (off₀ n off : Nat) (s : State) : Prop where
  loaded : Loaded sb s ip
  upd : Upd sb ip (fun _ => True) s₀ s
  written : ∀ p, off₀ ≤ p → p < off → addr s.mem (s.itable ip).toDinode (p / 1024) ≠ 0 ∧
    src.byte (p - off₀) = some (byteAt s.mem (s.itable ip).toDinode p)
  kept : ∀ p, addr s₀.mem (s₀.itable ip).toDinode (p / 1024) ≠ 0 → p < off₀ ∨ off₀ + n ≤ p →
    byteAt s.mem (s.itable ip).toDinode p = byteAt s₀.mem (s₀.itable ip).toDinode p
  clean : Chunks src off₀ n → Writing sb ip s₀ src off₀ off s
  len : s₀.Short → s.Short
  range : off₀ ≤ off ∧ off ≤ off₀ + n
  stop : off = off₀ + n ∨ off = off₀ ∨ off % 1024 = 0
  complete : (∀ p, off₀ ≤ p → p < off₀ + n → addr s₀.mem (s₀.itable ip).toDinode (p / 1024) ≠ 0) →
    (∀ j, j < n → (src.byte j).isSome) → off = off₀ + n

section Loop

variable {off₀ off n left k : Nat} {a : BitVec 32}

theorem Writing.start (h : Loaded sb s ip) : Writing sb ip s src off off s where
  loaded := h
  upd := .refl s
  written _ h1 h2 := by omega
  kept _ _ _ := rfl
  tracked := .refl s
  len := id

theorem Writing.stopped (h : Writing sb ip s₀ src off₀ off s) (hge : off₀ ≤ off) (hle : off ≤ off₀ + n)
    (hstop : off ≠ off₀ + n → off = off₀ ∨ off % 1024 = 0)
    (hfull : off ≠ off₀ + n → addr s₀.mem (s₀.itable ip).toDinode (off / 1024) = 0) :
    Stopped sb ip s₀ src off₀ n off s where
  loaded := h.loaded
  upd := h.upd
  written := h.written
  kept p hp hout := h.kept p hp (by omega)
  clean _ := h
  len := h.len
  range := ⟨hge, hle⟩
  stop := by
    by_cases he : off = off₀ + n
    · exact .inl he
    · exact .inr (hstop he)
  complete hmapped _ := by
    by_contra he
    exact hmapped off hge (by omega) (hfull he)

/-- `bmap` keeps what is written. -/
theorem Writing.mapped (h : Writing sb ip s₀ src off₀ off s) (hl₀ : Loaded sb s₀ ip) (hm : Mapped sb ip s s' a) :
    Writing sb ip s₀ src off₀ off s' := by
  have hu : Upd sb ip (fun _ => True) s s' := hm.upd.mono fun _ _ => trivial
  have hbyte : ∀ p, addr s.mem (s.itable ip).toDinode (p / 1024) ≠ 0 →
      byteAt s'.mem (s'.itable ip).toDinode p = byteAt s.mem (s.itable ip).toDinode p := fun p hp =>
    hm.upd.byteAt h.loaded hm.loaded (fun κ hκ he => slotOf_ne_indirect hκ he) hp
  refine ⟨hm.loaded, h.upd.trans hu, fun p h1 h2 => ?_, fun p hp hout => ?_, h.tracked.trans hm.tracked hm.upd.lh,
    fun hs => hm.len (h.len hs)⟩
  · obtain ⟨ha, hb⟩ := h.written p h1 h2
    rw [hm.upd.addr h.loaded hm.loaded ha, hbyte p ha]
    exact ⟨ha, hb⟩
  · have ha : addr s.mem (s.itable ip).toDinode (p / 1024) ≠ 0 := by
      rw [h.upd.addr hl₀ h.loaded hp]
      exact hp
    rw [hbyte p ha, h.kept p hp hout]

section

variable (h : Writing sb ip s₀ src off₀ off s) (hl₀ : Loaded sb s₀ ip) (hsb : sb.Ok) (ha : addr s.mem (s.itable ip).toDinode (off / 1024) = a.toNat)
include h hl₀ hsb ha

/-- The bytes of a chunk that is copied go into the block. -/
theorem Writing.chunk {v : Bytes} {m : Nat} (h0 : a.toNat ≠ 0) (hm : m ≤ 1024 - off % 1024)
    (hle : off₀ ≤ off) (hout : ∀ j, j < off % 1024 ∨ off % 1024 + m ≤ j → v j = s.mem a.toNat j)
    (hin : ∀ j, j < m → src.byte (off - off₀ + j) = some (v (off % 1024 + j))) (hshort : (s.store a.toNat v).Short) :
    Writing sb ip s₀ src off₀ (off + m) (s.store a.toNat v) := by
  obtain ⟨hl, hu⟩ := setBuf_loaded h.loaded hsb ha h0
  have hbyte : ∀ p, addr s.mem (s.itable ip).toDinode (p / 1024) ≠ 0 → byteAt (s.setBuf a.toNat v).mem
      ((s.setBuf a.toNat v).itable ip).toDinode p =
        if p / 1024 = off / 1024 then v (p % 1024) else byteAt s.mem (s.itable ip).toDinode p :=
    fun p hp => setBuf_byteAt h.loaded hsb ha h0 hp
  -- outside the chunk the bytes are those before
  have hold : ∀ p, addr s.mem (s.itable ip).toDinode (p / 1024) ≠ 0 → p < off ∨ off + m ≤ p →
      byteAt (s.setBuf a.toNat v).mem ((s.setBuf a.toNat v).itable ip).toDinode p =
        byteAt s.mem (s.itable ip).toDinode p := by
    intro p hp hpo
    rw [hbyte p hp]
    split
    · next hb =>
      rw [hout _ (by omega)]
      unfold byteAt
      rw [hb, ha]
    · rfl
  have hstore : Upd sb ip (fun _ => True) s (s.store a.toNat v) :=
    { hu.mono fun _ _ => trivial with
      lh := fun b hb => mem_logged.mpr (.inl hb)
      home := fun b hb => by
        rcases mem_logged.mp hb with hb | rfl
        · exact .inl hb
        · obtain ⟨κ, hκ, -⟩ := addr_slot (ha ▸ h0)
          have hr := (h.loaded.acc.range ((s.itable ip).inum, κ) (by
            rw [show owner sb (s.ino sb ip) s.mem _ = _ from (addr_owner h.loaded hκ).symm, ha]; exact h0)).1
          rw [show owner sb (s.ino sb ip) s.mem _ = _ from (addr_owner h.loaded hκ).symm, ha] at hr
          exact .inr (hsb.home_data hr) }
  refine ⟨⟨hl.acc, hl.live⟩, h.upd.trans hstore, fun p h1 h2 => ?_, fun p hp hpo => ?_, h.tracked.trans ?_ hstore.lh,
    fun _ => hshort⟩
  · by_cases hpoff : p < off
    · obtain ⟨hpa, hpb⟩ := h.written p h1 hpoff
      have hkeep := hu.addr h.loaded hl hpa
      refine ⟨?_, hpb.trans (congrArg some (hold p hpa (.inl hpoff)).symm)⟩
      show addr (s.setBuf a.toNat v).mem ((s.setBuf a.toNat v).itable ip).toDinode (p / 1024) ≠ 0
      rw [hkeep]
      exact hpa
    · have hdiv : p / 1024 = off / 1024 := by omega
      have hpa : addr s.mem (s.itable ip).toDinode (p / 1024) ≠ 0 := by
        rw [hdiv, ha]
        exact h0
      have hkeep := hu.addr h.loaded hl hpa
      refine ⟨?_, ?_⟩
      · show addr (s.setBuf a.toNat v).mem ((s.setBuf a.toNat v).itable ip).toDinode (p / 1024) ≠ 0
        rw [hkeep]
        exact hpa
      · have hj := hin (p - off) (by omega)
        rw [show off - off₀ + (p - off) = p - off₀ by omega, show off % 1024 + (p - off) = p % 1024 by omega] at hj
        refine hj.trans (congrArg some ?_)
        show _ = byteAt (s.setBuf a.toNat v).mem ((s.setBuf a.toNat v).itable ip).toDinode p
        rw [hbyte p hpa, if_pos hdiv]
  · have hpa : addr s.mem (s.itable ip).toDinode (p / 1024) ≠ 0 := by
      rw [h.upd.addr hl₀ h.loaded hp]
      exact hp
    exact (hold p hpa (by omega)).trans (h.kept p hp (by omega))
  · intro b hb
    refine mem_logged.mpr (.inr ?_)
    by_contra hne
    exact hb (Function.update_of_ne hne _ _)

/-- A copy that fails ends the loop. -/
theorem Writing.fault {v : Bytes} {m : Nat} (h0 : a.toNat ≠ 0) (hm : m ≤ 1024 - off % 1024)
    (hle : off₀ ≤ off) (hend : off + m ≤ off₀ + n) (hout : ∀ j, j < off % 1024 ∨ off % 1024 + m ≤ j → v j = s.mem a.toNat j)
    (hclean : Chunks src off₀ n → v = s.mem a.toNat) (hstop : off = off₀ ∨ off % 1024 = 0)
    (hfault : ¬ ∀ j, j < n → (src.byte j).isSome) : Stopped sb ip s₀ src off₀ n off (s.setBuf a.toNat v) := by
  obtain ⟨hl, hu⟩ := setBuf_loaded h.loaded hsb ha h0
  have hold : ∀ p, addr s.mem (s.itable ip).toDinode (p / 1024) ≠ 0 → p < off ∨ off + m ≤ p →
      byteAt (s.setBuf a.toNat v).mem ((s.setBuf a.toNat v).itable ip).toDinode p =
        byteAt s.mem (s.itable ip).toDinode p := by
    intro p hp hpo
    rw [setBuf_byteAt h.loaded hsb ha h0 hp]
    split
    · next hb =>
      rw [hout _ (by omega)]
      unfold byteAt
      rw [hb, ha]
    · rfl
  refine ⟨hl, h.upd.trans (hu.mono fun _ _ => trivial), fun p h1 h2 => ?_, fun p hp hpo => ?_, fun hch => ?_,
    h.len, ⟨hle, by omega⟩, .inr hstop, fun _ hsome => absurd hsome hfault⟩
  · obtain ⟨hpa, hpb⟩ := h.written p h1 h2
    rw [hu.addr h.loaded hl hpa, hold p hpa (.inl h2)]
    exact ⟨hpa, hpb⟩
  · have hpa : addr s.mem (s.itable ip).toDinode (p / 1024) ≠ 0 := by
      rw [h.upd.addr hl₀ h.loaded hp]
      exact hp
    exact (hold p hpa (by omega)).trans (h.kept p hp (by omega))
  · have hsame : s.setBuf a.toNat v = s := by
      rw [hclean hch]
      unfold State.setBuf
      rw [Function.update_eq_self]
    rw [hsame]
    exact h

end

/-- The number of blocks that a write of `n` bytes at position `off` gets to. -/
def chunkCount (off n : Nat) : Nat := if n = 0 then 0 else (off + n - 1) / 1024 - off / 1024 + 1

theorem chunkCount_step {m : Nat} (h0 : left ≠ 0) (hm : m = min left (1024 - off % 1024)) :
    chunkCount (off + m) (left - m) + 1 = chunkCount off left := by
  unfold chunkCount
  rw [if_neg h0]
  by_cases hlast : left - m = 0
  · rw [if_pos hlast]
    omega
  · rw [if_neg hlast]
    omega

/-- **The loop of `writei`.** -/
theorem writeLoop_spec (hl₀ : Loaded sb s₀ ip) (hsb : sb.Ok) (hmax : off₀ + n ≤ 268 * 1024) {fuel : Nat} :
    ∀ {src' : Source} {off left : Nat} {s : State}, left ≤ fuel → Writing sb ip s₀ src off₀ off s → off₀ ≤ off →
      off + left = off₀ + n → (∀ j, src'.byte j = src.byte (off - off₀ + j)) → (left ≠ 0 → off = off₀ ∨ off % 1024 = 0) →
      1 ≤ s.outstanding → Fits E s (s.pot ip + 2 * chunkCount off left + 1) →
      Ensures (writeLoop sb ip fuel src' off left) s (fun off' s' => Stopped sb ip s₀ src off₀ n off' s' ∧ Fits E s' 1) E := by
  induction fuel with
  | zero =>
    intro src' off left s hle hw h1 h2 _ _ _ hfit
    exact .pure ⟨hw.stopped h1 (by omega) (fun _ => by omega) (fun _ => by omega), hfit.mono (by omega)⟩
  | succ fuel ih =>
    intro src' off left s hle hw h1 h2 hsrc halign hout hfit
    unfold writeLoop
    by_cases h0 : left = 0
    · rw [if_pos h0]
      exact .pure ⟨hw.stopped h1 (by omega) (fun _ => by omega) (fun _ => by omega), hfit.mono (by omega)⟩
    rw [if_neg h0]
    have hcount := chunkCount_step h0 (Eq.refl (min left (1024 - off % 1024)))
    refine (bmap_spec hw.loaded hsb hout (hfit.mono (by omega)) (by omega)).bind ?_
    rintro a s₁ ⟨ha, hm⟩
    have hw₁ := hw.mapped hl₀ hm
    have hcost := hm.cost
    by_cases ha0 : a = 0
    · -- no block is left
      rw [if_pos ha0]
      refine .pure ⟨hw₁.stopped h1 (by omega) (fun _ => halign h0) (fun _ => ?_), hfit.mono (by omega)⟩
      by_contra hne
      have hkeep := hw₁.upd.addr hl₀ hw₁.loaded hne
      rw [← ha, ha0] at hkeep
      exact hne hkeep.symm
    rw [if_neg ha0]
    refine bread_bind ?_
    dsimp only
    have hc := eitherCopyin_spec src' (s₁.mem a.toNat) (off % 1024) (min left (1024 - off % 1024))
    have hmeq : ∃ m, m = min left (1024 - off % 1024) := ⟨_, rfl⟩
    obtain ⟨m, hmeq⟩ := hmeq
    rw [← hmeq] at hc hcount ⊢
    have hout₁ : 1 ≤ s₁.outstanding := by
      rw [hm.upd.outstanding]
      exact hout
    generalize eitherCopyin (s₁.mem a.toNat) (off % 1024) src' m = r at hc ⊢
    have ha' := ha.symm
    have hne := toNat_ne_zero.mp ha0
    by_cases hr : r.2 = true
    · have hlen := length_logged (s₁.setBuf a.toNat r.1) a.toNat
      rw [if_pos hr]
      refine store_bind hout₁ (hfit.mono (by omega)) fun hshort => ?_
      have hw₂ : Writing sb ip s₀ src off₀ (off + m) (s₁.store a.toNat r.1) := by
        refine hw₁.chunk hl₀ hsb ha' hne (by omega) h1 hc.outside (fun j hj => ?_) hshort
        rw [← hsrc]
        exact hc.inside hr j hj
      have hpot : (s₁.store a.toNat r.1).pot ip ≤ s₁.pot ip := pot_le rfl fun b hb => mem_logged.mpr (.inl hb)
      refine ih (by omega) hw₂ (by omega) (by omega) (fun j => ?_) (fun hl => by omega) hout₁ (hfit.mono ?_)
      · rw [Source.byte_advance, hsrc]
        congr 1
        omega
      · -- the log has grown by two blocks at most
        rcases hcost with hcost | ⟨hcost, hmem⟩
        · have hlen' : (s₁.store a.toNat r.1).lh.length ≤ s₁.lh.length + 1 := hlen
          omega
        · have hlen' : (s₁.store a.toNat r.1).lh.length = s₁.lh.length :=
            congrArg List.length (length_logged_mem hmem)
          omega
    · rw [if_neg hr]
      refine setBuf_bind (.pure ⟨?_, hfit.mono ?_⟩)
      · refine hw₁.fault hl₀ hsb ha' hne (by omega) h1 (by omega) hc.outside (fun hch => ?_) (halign h0) fun hall => ?_
        · rcases hch off h1 (by omega) (halign h0) with hall | hnone
          · refine absurd (hc.succeeds fun j hj => ?_) hr
            rw [hsrc]
            exact hall j (by omega)
          · have hf := hc.fails (by omega) (by rw [hsrc]; exact hnone)
            rw [hf]
        · refine hr (hc.succeeds fun j hj => ?_)
          rw [hsrc]
          exact hall _ (by omega)
      · show s₁.lh.length + 1 ≤ _
        omega

end Loop

end Xv6.Disk
