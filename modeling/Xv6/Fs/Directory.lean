import Mathlib.Data.List.TakeWhile
import Xv6.Fs.Model

/-!
# A directory is a finite map

`namecmp`, `dirlookup` and `dirlink` of `fs.c` over entries as they are stored, with 14 characters for a name and no NUL
after a name that has as many, and the removal of an entry by `sys_unlink`. Offsets are counted in entries.

- `directory_map`: after any such calls, a directory is the map from names that the calls make;
- `dirlookup_findEntry`, `dirlink_stored`: `Xv6.Fs.Model` has what the characters say.
-/

namespace Xv6.Fs.Directory

open Function (update update_eq_self update_of_ne update_self)

abbrev nul : Char := '\x00'

/-- `strncmp(p, q, n)` -/
def strncmp : Nat → List Char → List Char → Int
  | 0, _, _ => 0
  | n + 1, p, q =>
    if p.headD nul ≠ nul ∧ p.headD nul = q.headD nul then strncmp n p.tail q.tail
    else (p.headD nul).toNat - (q.headD nul).toNat

/-- `strncpy(s, t, n)`: the characters at `s` afterwards. -/
def strncpy : Nat → List Char → List Char
  | 0, _ => []
  | n + 1, t => if t.headD nul ≠ nul then t.headD nul :: strncpy n t.tail else List.replicate (n + 1) nul

theorem length_strncpy (n : Nat) (t : List Char) : (strncpy n t).length = n := by
  induction n generalizing t with
  | zero => rfl
  | succ n ih =>
    rw [strncpy]
    split <;> simp [ih]

/-- `struct dirent` -/
structure De where
  inum : BitVec 16
  name : List Char
  length_name : name.length = DIRSIZ

/-- `dirlookup(dp, name, &off)`, without the `iget`. -/
def dirlookup (name : Name) : List De → Option (BitVec 16 × Nat)
  | [] => none
  | de :: rest =>
    if de.inum ≠ 0 ∧ strncmp DIRSIZ name de.name = 0 then some (de.inum, 0)
    else (dirlookup name rest).map fun x => (x.1, x.2 + 1)

/-- `writei` of one entry, which fails without change if there is no block for it. -/
def writei (off : Nat) (de : De) (ok : Bool) (d : List De) : List De × Bool :=
  if !ok then (d, false) else if off < d.length then (d.set off de, true) else (d ++ [de], true)

/-- `dirlink(dp, name, inum)` -/
def dirlink (name : Name) (inum : Nat) (ok : Bool) (d : List De) : List De × Bool :=
  match dirlookup name d with
  | some _ => (d, false)
  | none =>
    writei (d.findIdx fun de => de.inum = 0) ⟨BitVec.ofNat 16 inum, strncpy DIRSIZ name, length_strncpy _ _⟩ ok d

/-- The entry that `sys_unlink` finds is overwritten with zeros. -/
def unlink (name : Name) (d : List De) : List De × Bool :=
  match dirlookup name d with
  | none => (d, false)
  | some (_, off) => (d.set off ⟨0, List.replicate DIRSIZ nul, List.length_replicate⟩, true)

/-! ## Names -/

/-- What a string means in a directory: its characters up to a NUL, and no more than `DIRSIZ`. -/
def key (s : List Char) : Name := (s.take DIRSIZ).takeWhile (· ≠ nul)

theorem takeWhile_take_succ (n : Nat) (s : List Char) : (s.take (n + 1)).takeWhile (· ≠ nul) =
    if s.headD nul ≠ nul then s.headD nul :: (s.tail.take n).takeWhile (· ≠ nul) else [] := by
  cases s <;> simp [List.takeWhile_cons]

theorem strncmp_eq_zero {n : Nat} {p q : List Char} :
    strncmp n p q = 0 ↔ (p.take n).takeWhile (· ≠ nul) = (q.take n).takeWhile (· ≠ nul) := by
  induction n generalizing p q with
  | zero => simp [strncmp]
  | succ n ih =>
    rw [strncmp, takeWhile_take_succ, takeWhile_take_succ]
    generalize p.headD nul = a
    generalize q.headD nul = b
    have hsub : (a.toNat : Int) - b.toNat = 0 ↔ a = b := by rw [Int.sub_eq_zero, Int.natCast_inj, Char.toNat_inj]
    by_cases ha : a = nul
    · by_cases hb : b = nul
      · simp [ha, hb]
      · rw [if_neg fun h => h.1 ha, hsub, if_neg (not_not_intro ha), if_pos hb]
        exact iff_of_false (ha ▸ Ne.symm hb) nofun
    · by_cases hab : a = b
      · rw [if_pos ⟨ha, hab⟩, ih, if_pos ha, ← hab, if_pos ha, List.cons.injEq, and_iff_right rfl]
      · rw [if_neg fun h => hab h.2, hsub, if_pos ha]
        refine iff_of_false hab fun h => ?_
        split at h
        · exact hab (List.cons.inj h).1
        · cases h

theorem key_strncpy (t : List Char) : key (strncpy DIRSIZ t) = key t := by
  unfold key
  generalize DIRSIZ = n
  induction n generalizing t with
  | zero => rfl
  | succ n ih =>
    rw [strncpy, takeWhile_take_succ n t]
    split
    · next h => rw [takeWhile_take_succ, List.headD_cons, List.tail_cons, if_pos h, ih]
    · rw [takeWhile_take_succ, List.replicate_succ, List.headD_cons, if_neg (not_not_intro rfl)]

theorem length_key (s : List Char) : (key s).length ≤ DIRSIZ :=
  Nat.le_trans (List.takeWhile_prefix _).length_le (List.length_take_le _ _)

theorem key_key (s : List Char) : key (key s) = key s := by
  rw [key, List.take_of_length_le (length_key s)]
  exact List.takeWhile_idem

/-! ## Entries -/

/-- The directory has an entry for a name. -/
def Has (d : List De) (k : Name) (i : BitVec 16) (off : Nat) : Prop :=
  ∃ de, d[off]? = some de ∧ de.inum = i ∧ i ≠ 0 ∧ key de.name = k

/-- No two entries have the same name. -/
def Distinct (d : List De) : Prop := ∀ k i j a b, Has d k i a → Has d k j b → a = b

section Entries

variable {d : List De} {name : Name} {k : Name} {i : BitVec 16} {off : Nat} {de : De}

theorem dirlookup_spec (name : Name) (d : List De) :
    match dirlookup name d with
    | some (i, off) => Has d (key name) i off
    | none => ∀ i off, ¬Has d (key name) i off := by
  induction d with
  | nil => simp [dirlookup, Has]
  | cons de d ih =>
    rw [dirlookup]
    by_cases h : de.inum ≠ 0 ∧ strncmp DIRSIZ name de.name = 0
    · rw [if_pos h]
      exact ⟨de, rfl, rfl, h.1, (strncmp_eq_zero.mp h.2).symm⟩
    · rw [if_neg h]
      cases hx : dirlookup name d with
      | some x =>
        rw [hx] at ih
        exact ih
      | none =>
        rw [hx] at ih
        rintro i (_ | off) ⟨de', he, hi, h0, hk⟩
        · cases he
          exact h ⟨hi ▸ h0, strncmp_eq_zero.mpr hk.symm⟩
        · exact ih i off ⟨de', he, hi, h0, hk⟩

/-- An entry is written over another one, or at the end. -/
theorem has_writei {j : Nat} (hj : j ≤ d.length) : Has (writei j de true d).1 k i off ↔
    if off = j then de.inum = i ∧ i ≠ 0 ∧ key de.name = k else Has d k i off := by
  have hget : (writei j de true d).1[off]? = if off = j then some de else d[off]? := by
    unfold writei
    by_cases hlt : j < d.length
    · rw [if_neg (by simp), if_pos hlt, List.getElem?_set]
      by_cases h : off = j
      · simp [h, hlt]
      · simp [h, Ne.symm h]
    · obtain rfl : j = d.length := Nat.le_antisymm hj (Nat.not_lt.mp hlt)
      rw [if_neg (by simp), if_neg hlt, List.getElem?_append]
      by_cases h : off = d.length
      · simp [h]
      · by_cases hoff : off < d.length
        · simp [h, hoff]
        · have hpos : off - d.length ≠ 0 := by omega
          simp [h, hpos, Nat.not_lt.mp hoff]
  unfold Has
  rw [hget]
  by_cases h : off = j <;> simp [h]

end Entries

/-! ## Calls -/

inductive Op
  | link (name : Name) (inum : Nat) (ok : Bool)
  | unlink (name : Name)

def Op.run : Op → List De → List De × Bool
  | .link name inum ok => dirlink name inum ok
  | .unlink name => Directory.unlink name

/-- The inode number of every name. -/
abbrev Map := Name → Option (BitVec 16)

/-- What a call does to a map. -/
def Op.apply : Op → Map → Map × Bool
  | .link name inum ok, m =>
    if m (key name) = none ∧ ok = true then (update m (key name) (some (BitVec.ofNat 16 inum)), true) else (m, false)
  | .unlink name, m => (update m (key name) none, (m (key name)).isSome)

/-- One call after another, and what they return. -/
def runs {α : Type} (f : Op → α → α × Bool) : List Op → α → α × List Bool
  | [], a => (a, [])
  | op :: ops, a =>
    let (a, r) := f op a
    let (a, rs) := runs f ops a
    (a, r :: rs)

/-- The numbers passed to `dirlink` fit in an entry. -/
def Op.Fits : Op → Prop
  | .link _ inum _ => 0 < inum ∧ inum < 2 ^ 16
  | .unlink _ => True

/-- The directory is the map. -/
structure Is (d : List De) (m : Map) : Prop where
  distinct : Distinct d
  map : ∀ name i, m (key name) = some i ↔ ∃ off, Has d (key name) i off

section Calls

variable {d : List De} {m : Map} {name : Name}

theorem Is.lookup (h : Is d m) (name : Name) : (dirlookup name d).map Prod.fst = m (key name) := by
  have hs := dirlookup_spec name d
  cases hx : dirlookup name d with
  | some x =>
    rw [hx] at hs
    exact ((h.map name x.1).mpr ⟨x.2, hs⟩).symm
  | none =>
    rw [hx] at hs
    cases hm : m (key name) with
    | none => rfl
    | some i =>
      obtain ⟨off, ho⟩ := (h.map name i).mp hm
      exact absurd ho (hs i off)

/-- An entry is written where there is none for another name. -/
theorem Is.write (h : Is d m) {j : Nat} (de : De) {k : Name} (hj : j ≤ d.length) (hold : ∀ k' i, Has d k' i j → k' = k)
    (honly : ∀ i off, Has d k i off → off = j) (hde : de.inum ≠ 0 → key de.name = k) :
    Is (writei j de true d).1 (update m k (if de.inum = 0 then none else some de.inum)) := by
  have hhas : ∀ {k' i off}, Has (writei j de true d).1 k' i off ↔
      if off = j then de.inum = i ∧ i ≠ 0 ∧ k' = k else k' ≠ k ∧ Has d k' i off := by
    intro k' i off
    rw [has_writei hj]
    split
    · constructor
      · rintro ⟨rfl, h0, rfl⟩
        exact ⟨rfl, h0, hde h0⟩
      · rintro ⟨rfl, h0, rfl⟩
        exact ⟨rfl, h0, hde h0⟩
    · next hne => exact ⟨fun hh => ⟨fun he => hne (honly i off (he ▸ hh)), hh⟩, fun hh => hh.2⟩
  constructor
  · intro k' i i' a b ha hb
    rw [hhas] at ha hb
    split at ha <;> split at hb
    · next h1 h2 => rw [h1, h2]
    · exact absurd ha.2.2 hb.1
    · exact absurd hb.2.2 ha.1
    · exact h.distinct k' i i' a b ha.2 hb.2
  · intro name i
    simp only [hhas]
    by_cases hk : key name = k
    · rw [hk, update_self]
      constructor
      · intro he
        split at he
        · cases he
        · next h0 =>
          cases he
          exact ⟨j, by simpa using h0⟩
      · rintro ⟨off, ho⟩
        split at ho
        · rw [if_neg (ho.1 ▸ ho.2.1), ho.1]
        · exact absurd rfl ho.1
    · rw [update_of_ne hk, h.map]
      refine exists_congr fun off => ?_
      split
      · next hoff => exact iff_of_false (fun hh => hk (hold _ i (hoff ▸ hh))) fun hh => hk hh.2.2
      · rw [and_iff_right hk]

/-- One call. -/
theorem Is.run (h : Is d m) {op : Op} (hop : op.Fits) : Is (op.run d).1 (op.apply m).1 ∧ (op.run d).2 = (op.apply m).2 := by
  cases op with
  | link name inum ok =>
    have hl := h.lookup name
    have hs := dirlookup_spec name d
    simp only [Op.run, Op.apply, dirlink, ← hl]
    cases hx : dirlookup name d with
    | some x => simpa using h
    | none =>
      rw [hx] at hs
      cases ok with
      | false => simpa [writei] using h
      | true =>
        have h0 : BitVec.ofNat 16 inum ≠ 0 := by
          intro he
          have := congrArg BitVec.toNat he
          rw [BitVec.toNat_ofNat, Nat.mod_eq_of_lt hop.2] at this
          exact absurd this (Nat.ne_of_gt hop.1)
        have hw := h.write (j := d.findIdx fun de => de.inum = 0) (k := key name)
          ⟨BitVec.ofNat 16 inum, strncpy DIRSIZ name, length_strncpy _ _⟩ List.findIdx_le_length ?_
          (fun i off ho => absurd ho (hs i off)) fun _ => key_strncpy name
        · rw [if_neg h0] at hw
          refine ⟨by simpa using hw, ?_⟩
          simp only [writei, Bool.not_true, Bool.false_eq_true, if_false]
          split <;> simp
        · -- the slot that is found is empty
          rintro k' i ⟨de, he, rfl, hne, -⟩
          obtain ⟨hlt, rfl⟩ := List.getElem?_eq_some_iff.mp he
          have := List.findIdx_getElem (w := hlt)
          exact absurd (by simpa using this) hne
  | unlink name =>
    have hl := h.lookup name
    have hs := dirlookup_spec name d
    simp only [Op.run, Op.apply, unlink, ← hl]
    cases hx : dirlookup name d with
    | none =>
      have hm : update m (key name) none = m := by
        rw [hx] at hl
        exact (congrArg _ hl).trans (update_eq_self _ _)
      simpa [hm] using h
    | some x =>
      rw [hx] at hs
      obtain ⟨de, hde, -⟩ := id hs
      have hlt : x.2 < d.length := (List.getElem?_eq_some_iff.mp hde).1
      have hw := h.write (j := x.2) (k := key name) ⟨0, List.replicate DIRSIZ nul, List.length_replicate⟩
        (Nat.le_of_lt hlt) ?_ (fun i off ho => h.distinct _ _ _ _ _ ho hs) fun h0 => absurd rfl h0
      · simpa [writei, hlt] using hw
      · rintro k' i ⟨de', he, -, -, rfl⟩
        rw [hde] at he
        cases he
        obtain ⟨_, he, -, -, hk⟩ := hs
        rw [hde] at he
        cases he
        exact hk

end Calls

/-- **A directory is a finite map.** After any calls, no two entries have the same name; every call returned what it
returns for the map; and `dirlookup` finds the number that the map has for the first `DIRSIZ` characters of a name, in
the only slot for it. -/
theorem directory_map (d : List De) (ops : List Op) (hd : Distinct d) (hops : ∀ op ∈ ops, op.Fits) :
    let d' := runs Op.run ops d
    let m' := runs Op.apply ops fun k => (dirlookup k d).map Prod.fst
    Distinct d'.1 ∧ d'.2 = m'.2 ∧ ∀ name, (dirlookup name d'.1).map Prod.fst = m'.1 (key name) ∧
      ∀ i off, dirlookup name d'.1 = some (i, off) → ∀ j b, Has d'.1 (key name) j b → b = off := by
  have hrun : ∀ {d m}, Is d m → ∀ {ops : List Op}, (∀ op ∈ ops, op.Fits) →
      Is (runs Op.run ops d).1 (runs Op.apply ops m).1 ∧ (runs Op.run ops d).2 = (runs Op.apply ops m).2 := by
    intro d m h ops hops
    induction ops generalizing d m with
    | nil => exact ⟨h, rfl⟩
    | cons op ops ih =>
      obtain ⟨h1, h2⟩ := h.run (hops op List.mem_cons_self)
      obtain ⟨h3, h4⟩ := ih h1 fun op' hop' => hops op' (List.mem_cons_of_mem _ hop')
      exact ⟨h3, by simp only [runs, h2, h4]⟩
  have hinit : Is d fun k => (dirlookup k d).map Prod.fst := by
    refine ⟨hd, fun name i => ?_⟩
    have hs := dirlookup_spec (key name) d
    rw [key_key] at hs
    cases hx : dirlookup (key name) d with
    | none =>
      rw [hx] at hs
      simpa using hs i
    | some x =>
      rw [hx] at hs
      obtain ⟨de, he, hi, h0, hk⟩ := id hs
      simp only [Option.map_some, Option.some.injEq]
      constructor
      · rintro rfl
        exact ⟨x.2, hs⟩
      · rintro ⟨off, ho⟩
        obtain ⟨de', he', rfl, -, -⟩ := id ho
        rw [hd _ _ _ _ _ ho hs, he] at he'
        cases he'
        exact hi.symm
  obtain ⟨h, hret⟩ := hrun hinit hops
  refine ⟨h.distinct, hret, fun name => ⟨h.lookup name, fun i off hx j b hb => ?_⟩⟩
  have hs := dirlookup_spec name (runs Op.run ops d).1
  rw [hx] at hs
  exact h.distinct _ _ _ _ _ hb hs

/-- A name of 14 characters, one that has the same first 14, and a third one in the slot of the first. -/
theorem directory_map_fourteen :
    let ops : List Op := [.link "abcdefghijklmn".toList 3 true, .link "abcdefghijklmnop".toList 4 true,
      .unlink "abcdefghijklmnop".toList, .link "a".toList 5 true]
    (runs Op.run ops []).2 = [true, false, true, true] ∧
      (dirlookup "a".toList (runs Op.run ops []).1).map Prod.fst = some 5 := by
  intro ops
  obtain ⟨-, hret, hmap⟩ := directory_map [] ops (by rintro k i j a b ⟨_, h, -⟩; cases h) (by
    intro op hop
    simp only [ops, List.mem_cons, List.not_mem_nil, or_false] at hop
    rcases hop with rfl | rfl | rfl | rfl <;> simp [Op.Fits])
  exact ⟨hret.trans (by decide), (hmap _).1.trans (by decide)⟩

/-! ## The entries of `Xv6.Fs.Model` -/

section Entries

variable {name : Name}

theorem key_eq_take (h : nul ∉ name) : key name = name.take DIRSIZ := by
  refine List.takeWhile_eq_self_iff.mpr fun x hx => ?_
  rw [decide_eq_true_eq]
  rintro rfl
  exact h (List.mem_of_mem_take hx)

/-- An entry in the terms of the model. -/
def De.entry (de : De) : Dirent := ⟨de.inum.toNat, key de.name⟩

/-- `findEntry` is `dirlookup`. -/
theorem dirlookup_findEntry (h : nul ∉ name) (d : List De) :
    (dirlookup name d).map Prod.snd = findEntry (d.map De.entry) name := by
  induction d with
  | nil => rfl
  | cons de d ih =>
    have hcmp : (de.entry.inum != 0 && namecmp name de.entry.name) = true ↔
        de.inum ≠ 0 ∧ strncmp DIRSIZ name de.name = 0 := by
      have h0 : de.inum.toNat ≠ 0 ↔ de.inum ≠ 0 := by simp [← BitVec.toNat_inj]
      rw [Bool.and_eq_true, bne_iff_ne, namecmp, beq_iff_eq, De.entry, h0, List.take_of_length_le (length_key de.name),
        ← key_eq_take h]
      exact and_congr_right' strncmp_eq_zero.symm
    rw [dirlookup, List.map_cons, findEntry, List.findIdx?_cons]
    by_cases hc : de.inum ≠ 0 ∧ strncmp DIRSIZ name de.name = 0
    · rw [if_pos hc, if_pos (hcmp.mpr hc)]
      rfl
    · rw [if_neg hc, if_neg (mt hcmp.mp hc), Option.map_map, ← findEntry, ← ih, Option.map_map]
      rfl

/-- What `dirlink` stores. -/
theorem dirlink_stored (h : nul ∉ name) (inum : Nat) :
    De.entry ⟨BitVec.ofNat 16 inum, strncpy DIRSIZ name, length_strncpy _ _⟩ = ⟨inum % 2 ^ 16, name.take DIRSIZ⟩ := by
  rw [De.entry, key_strncpy, key_eq_take h, BitVec.toNat_ofNat]

end Entries

end Xv6.Fs.Directory
