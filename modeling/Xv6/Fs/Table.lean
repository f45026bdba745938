import Xv6.Fs.Balance
import Xv6.Fs.Exact

/-!
# The calls and the inode table

Every call hands its references around and drops each of them once, on every path (`FsCall.balanced`). Hence the counts
of the inode table are exact whenever no process is in a call (`references_balanced`), in every run.

The table has fewer entries than there may be open files and current directories. It does not overflow in runs in which
there is room for them when a process looks up an inode (`inode_table_suffices`), and it does in others
(`inode_table_overflows`).
-/

namespace Xv6.Fs

open Lib (Prog Machine Logic)

variable {P : Type} [DecidableEq P] [Fintype P] {room : Bool} {s s' : FsState P} {p initproc : P} {x : Refs P}
  {i j : Fin NINODE} {α : Type}
variable {Q : Unit → Refs P → Prop} {path : List Char} {nameiparent : Bool} {type : InodeType}

/-! ## The logic -/

/-- The proof method for references to the inode table. -/
def refLogic (P : Type) [DecidableEq P] [Fintype P] (room : Bool) :
    Logic (fsMachine P) (fun s p c => room = true → Room s p c) (Refs P) where
  inv := Balanced room
  idle x := x.tok = 0 ∧ x.taken = false ∧ x.child = none
  pre _ c x Q := x.up = true ∧ x.pre c ∧ ((∀ e, c ≠ .panic e) → ∀ r, Q r (x.after c r))
  mono := by
    rintro p c x Q Q' hQ ⟨hu, hpre, h⟩
    exact ⟨hu, hpre, fun hc r => hQ r _ (h hc r)⟩
  sound := by
    rintro s g p c Q ch r s' h ⟨hu, hpre, hQ⟩ - hc hs
    obtain ⟨x, hx, he⟩ := h.sound hu hpre hc hs
    refine ⟨x, hx, fun hh => ?_⟩
    rw [he hh]
    refine hQ ?_ r
    rintro e rfl
    cases hs
    cases hh

/-- The weakest precondition of a program, for its references. -/
abbrev rwp (room : Bool) (p : P) (f : FsProg P α) (x : Refs P) (Q : α → Refs P → Prop) : Prop :=
  (refLogic P room).wp p f x Q

theorem rwp_bind {β : Type} {f : FsProg P α} {k : α → FsProg P β} {Q : β → Refs P → Prop}
    (h : rwp room p f x fun a x' => rwp room p (k a) x' Q) : rwp room p (f >>= k) x Q :=
  (refLogic P room).wp_bind.mpr h

/-- One step, and what comes after it. -/
theorem rwp_step {c : FsCmd P} {k : c.R → FsProg P α} {Q : α → Refs P → Prop} (hu : x.up = true) (hpre : x.pre c)
    (h : ∀ r, rwp room p (k r) (x.after c r) Q) : rwp room p (step c >>= k) x Q :=
  ⟨hu, hpre, fun _ => h⟩

/-- Nothing comes after a panic. -/
theorem rwp_panic {e : FsPanic} {k : Unit → FsProg P α} {Q : α → Refs P → Prop} (hu : x.up = true) (he : e ≠ .igetNoInodes) :
    rwp room p (step (.panic e) >>= k) x Q :=
  ⟨hu, he, fun hc => absurd rfl (hc e)⟩

/-- A step that leaves all references alone. -/
theorem rwp_keep {c : FsCmd P} {k : c.R → FsProg P α} {Q : α → Refs P → Prop} (hu : x.up = true)
    (hpre : x.pre c) (hc : ∀ r, x.after c r = x) (h : ∀ r, rwp room p (k r) x Q) : rwp room p (step c >>= k) x Q :=
  rwp_step hu hpre fun r => by rw [hc r]; exact h r

theorem Refs.drop_give : (x.give i).drop i = x := Refs.ext (Multiset.erase_cons_head i x.tok) rfl rfl rfl

theorem Refs.give_comm : (x.give i).give j = (x.give j).give i := Refs.ext (Multiset.cons_swap j i x.tok) rfl rfl rfl

theorem Refs.card_give {n : Nat} (h : x.tok.card ≤ n) : (x.give i).tok.card ≤ n + 1 := by
  rw [Refs.give, Multiset.card_cons]
  omega

/-! ## Inodes and paths -/

section

variable (hu : x.up = true)
include hu

theorem iput_balanced (hQ : Q () x) : rwp room p (iput i) (x.give i) Q := by
  refine rwp_step (c := .iputTest i) hu (Multiset.mem_cons_self i x.tok) fun last => ?_
  cases last with
  | false =>
    rw [show (x.give i).after (.iputTest i) false = x from Refs.drop_give]
    exact hQ
  | true =>
    refine rwp_keep hu trivial (fun _ => rfl) fun _ => ?_
    refine ⟨hu, Multiset.mem_cons_self i x.tok, fun _ _ => ?_⟩
    rw [show ((x.give i).after (.iputTest i) true).after (.iputDrop i) () = x from Refs.drop_give]
    exact hQ

theorem iunlockput_balanced (hQ : Q () x) : rwp room p (iunlockput i) (x.give i) Q :=
  rwp_keep hu trivial (fun _ => rfl) fun _ => iput_balanced hu hQ

theorem iallocLoop_balanced {l : List Nat} {Q : Option (Fin NINODE) → Refs P → Prop}
    (hc : x.tok.card ≤ 2) (hnone : Q none x) (hsome : ∀ i, Q (some i) (x.give i)) : rwp room p (iallocLoop type l) x Q := by
  induction l with
  | nil => exact hnone
  | cons n rest ih =>
    refine rwp_keep hu trivial (fun _ => rfl) fun found => ?_
    cases found with
    | false => exact ih
    | true => exact rwp_step (c := .iget n) hu hc fun i => hsome i

theorem namexEnd_balanced {Q : Option (Fin NINODE × Name) → Refs P → Prop}
    (hnone : Q none x) (hsome : ∀ i name, Q (some (i, name)) (x.give i)) :
    rwp room p (namexEnd nameiparent i) (x.give i) Q := by
  cases nameiparent with
  | false => exact hsome i []
  | true => exact rwp_bind (iput_balanced hu hnone)

/-- The loop has one reference, and a second one while it goes from one directory to the next. -/
theorem namexLoop_balanced {fuel : Nat}
    {Q : Option (Fin NINODE × Name) → Refs P → Prop} (hc : x.tok.card ≤ 1) (hnone : Q none x)
    (hsome : ∀ i name, Q (some (i, name)) (x.give i)) :
    rwp room p (namexLoop nameiparent fuel i path) (x.give i) Q := by
  induction fuel generalizing i path with
  | zero => exact namexEnd_balanced hu hnone hsome
  | succ fuel ih =>
    unfold namexLoop
    split
    · exact namexEnd_balanced hu hnone hsome
    · next name path' _ =>
      refine rwp_keep hu trivial (fun _ => rfl) fun _ => ?_
      refine rwp_keep hu trivial (fun _ => rfl) fun r => ?_
      split
      · exact rwp_bind (iunlockput_balanced hu hnone)
      · split
        · exact rwp_keep hu trivial (fun _ => rfl) fun _ => hsome i name
        · refine rwp_step (c := .dirlookup i name) hu (Refs.card_give hc) fun found => ?_
          cases found with
          | none => exact rwp_bind (iunlockput_balanced hu hnone)
          | some y =>
            rw [show (x.give i).after (.dirlookup i name) (some y) = (x.give y.2).give i from Refs.give_comm]
            refine rwp_bind (iunlockput_balanced hu ?_)
            exact ih

theorem namex_balanced {Q : Option (Fin NINODE × Name) → Refs P → Prop} (hc : x.tok.card ≤ 1) (ht : x.taken = false) (hnone : Q none x)
    (hsome : ∀ i name, Q (some (i, name)) (x.give i)) : rwp room p (namex path nameiparent) x Q := by
  have hc2 : x.tok.card ≤ 2 := by omega
  unfold namex
  split
  · exact rwp_step (c := .iget ROOTINO) hu hc2 fun i => namexLoop_balanced hu hc hnone hsome
  · exact rwp_step (c := .idupCwd) hu ⟨hc2, ht⟩ fun i => namexLoop_balanced hu hc hnone hsome

theorem namei_balanced {Q : Option (Fin NINODE) → Refs P → Prop}
    (hc : x.tok.card ≤ 1) (ht : x.taken = false) (hnone : Q none x) (hsome : ∀ i, Q (some i) (x.give i)) :
    rwp room p (namei path) x Q :=
  rwp_bind (namex_balanced hu hc ht hnone fun i _ => hsome i)

theorem dirlink_balanced {dp : Fin NINODE} {name : Name} {inum : Nat} {Q : Bool → Refs P → Prop}
    (hc : x.tok.card ≤ 2) (hQ : ∀ b, Q b x) : rwp room p (dirlink dp name inum) x Q := by
  refine rwp_step (c := .dirlookup dp name) hu hc fun found => ?_
  cases found with
  | some y => exact rwp_bind (iput_balanced hu (hQ false))
  | none =>
    refine rwp_keep hu trivial (fun _ => rfl) fun d => ?_
    exact ⟨hu, trivial, fun _ b => hQ b⟩

end

/-! ## System calls -/

section

variable (hu : x.up = true)
include hu

/-- The part of `sys_link` that makes the new name, with a reference to the inode. -/
theorem sysLink_balanced {old new : List Char} {Q : Bool → Refs P → Prop} (hT : x.tok = 0)
    (ht : x.taken = false) (hQ : ∀ b, Q b x) : rwp room p (sysLink old new) x Q := by
  have hc : x.tok.card ≤ 0 := by rw [hT]; exact Nat.le_refl 0
  refine rwp_bind (namei_balanced hu (by omega) ht (hQ false) fun i => ?_)
  refine rwp_keep hu trivial (fun _ => rfl) fun _ => ?_
  refine rwp_keep hu trivial (fun _ => rfl) fun r => ?_
  split
  · exact rwp_bind (iunlockput_balanced hu (hQ false))
  · refine rwp_keep hu trivial (fun _ => rfl) fun _ => ?_
    refine rwp_keep hu trivial (fun _ => rfl) fun _ => ?_
    have hend : ∀ linked : Bool, rwp room p (if linked then do
          iput i
          return true
        else do
          step (.ilock i)
          step (.decLink i)
          iunlockput i
          return false) (x.give i) Q := by
      intro linked
      cases linked with
      | true => exact rwp_bind (iput_balanced hu (hQ true))
      | false =>
        refine rwp_keep hu trivial (fun _ => rfl) fun _ => ?_
        refine rwp_keep hu trivial (fun _ => rfl) fun _ => ?_
        exact rwp_bind (iunlockput_balanced hu (hQ false))
    refine rwp_bind (namex_balanced (x := x.give i) hu (Refs.card_give hc) ht (hend false) fun dp name => ?_)
    refine rwp_keep hu trivial (fun _ => rfl) fun _ => ?_
    refine rwp_keep hu trivial (fun _ => rfl) fun inum => ?_
    refine rwp_bind (rwp_bind (dirlink_balanced (x := (x.give i).give dp) hu (Refs.card_give (Refs.card_give hc)) fun linked => ?_))
    exact rwp_bind (rwp_bind (iunlockput_balanced hu (hend linked)))

theorem sysUnlink_balanced {Q : Bool → Refs P → Prop} (hT : x.tok = 0)
    (ht : x.taken = false) (hQ : ∀ b, Q b x) : rwp room p (sysUnlink path) x Q := by
  have hc : x.tok.card ≤ 0 := by rw [hT]; exact Nat.le_refl 0
  refine rwp_bind (namex_balanced hu (by omega) ht (hQ false) fun dp name => ?_)
  refine rwp_keep hu trivial (fun _ => rfl) fun _ => ?_
  split
  · exact rwp_bind (iunlockput_balanced hu (hQ false))
  · refine rwp_step (c := .dirlookup dp name) hu (Nat.le_succ_of_le (Refs.card_give hc)) fun found => ?_
    cases found with
    | none => exact rwp_bind (iunlockput_balanced hu (hQ false))
    | some y =>
      obtain ⟨off, i⟩ := y
      refine rwp_keep hu trivial (fun _ => rfl) fun _ => ?_
      refine rwp_keep hu trivial (fun _ => rfl) fun r => ?_
      have hput : ∀ b, rwp room p (do
            iunlockput i
            iunlockput dp
            return b) ((x.give dp).give i) Q := fun b =>
        rwp_bind (iunlockput_balanced hu (rwp_bind (iunlockput_balanced hu (hQ b))))
      split
      · exact rwp_panic hu nofun
      · split
        · exact hput false
        · refine rwp_keep hu trivial (fun _ => rfl) fun written => ?_
          cases written with
          | false => exact rwp_panic hu nofun
          | true =>
            have hend : rwp room p (do
                  iunlockput dp
                  step (.decLink i)
                  iunlockput i
                  return true) ((x.give dp).give i) Q := by
              rw [Refs.give_comm]
              refine rwp_bind (iunlockput_balanced hu ?_)
              refine rwp_keep hu trivial (fun _ => rfl) fun _ => ?_
              exact rwp_bind (iunlockput_balanced hu (hQ true))
            show rwp room p (if r.type = .dir then _ else _) _ _
            split
            · exact rwp_keep hu trivial (fun _ => rfl) fun _ => hend
            · exact hend

theorem createLink_balanced {dp ip : Fin NINODE} {name : Name} {Q : Bool → Refs P → Prop} (hc : x.tok.card ≤ 2) (hQ : ∀ b, Q b x) : rwp room p (createLink dp ip type name) x Q := by
  refine rwp_keep hu trivial (fun _ => rfl) fun inum => ?_
  split
  · refine rwp_keep hu trivial (fun _ => rfl) fun dinum => ?_
    refine rwp_bind (dirlink_balanced hu hc fun b => ?_)
    cases b with
    | false => exact hQ false
    | true =>
      refine rwp_bind (dirlink_balanced hu hc fun b => ?_)
      cases b with
      | false => exact hQ false
      | true => exact dirlink_balanced hu hc hQ
  · exact dirlink_balanced hu hc hQ

theorem create_balanced {major : Int} {Q : Option (Fin NINODE) → Refs P → Prop} (hT : x.tok = 0) (ht : x.taken = false) (hnone : Q none x) (hsome : ∀ i, Q (some i) (x.give i)) :
    rwp room p (create path type major) x Q := by
  have hc : x.tok.card ≤ 0 := by rw [hT]; exact Nat.le_refl 0
  refine rwp_bind (namex_balanced hu (by omega) ht hnone fun dp name => ?_)
  have hc1 : (x.give dp).tok.card ≤ 1 := Refs.card_give hc
  refine rwp_keep hu trivial (fun _ => rfl) fun _ => ?_
  refine rwp_step (c := .dirlookup dp name) hu (Nat.le_succ_of_le hc1) fun found => ?_
  cases found with
  | some y =>
    obtain ⟨off, i⟩ := y
    rw [show (x.give dp).after (.dirlookup dp name) (some (off, i)) = (x.give i).give dp from Refs.give_comm]
    refine rwp_bind (iunlockput_balanced hu ?_)
    refine rwp_keep hu trivial (fun _ => rfl) fun _ => ?_
    refine rwp_keep hu trivial (fun _ => rfl) fun r => ?_
    split
    · exact hsome i
    · exact rwp_bind (iunlockput_balanced hu hnone)
  | none =>
    refine rwp_bind (iallocLoop_balanced (x := x.give dp) hu (Nat.le_succ_of_le hc1) ?_ fun i => ?_)
    · exact rwp_bind (iunlockput_balanced hu hnone)
    · refine rwp_keep hu trivial (fun _ => rfl) fun _ => ?_
      refine rwp_keep hu trivial (fun _ => rfl) fun _ => ?_
      refine rwp_bind (createLink_balanced (x := (x.give dp).give i) hu (Refs.card_give hc1) fun linked => ?_)
      cases linked with
      | true =>
        have hend : rwp room p (do
              iunlockput dp
              return some i) ((x.give dp).give i) Q := by
          rw [Refs.give_comm]
          exact rwp_bind (iunlockput_balanced hu (hsome i))
        show rwp room p (if type = .dir then _ else _) _ _
        split
        · exact rwp_keep hu trivial (fun _ => rfl) fun _ => hend
        · exact hend
      | false =>
        refine rwp_keep hu trivial (fun _ => rfl) fun _ => ?_
        exact rwp_bind (iunlockput_balanced hu (rwp_bind (iunlockput_balanced hu hnone)))

/-- With a reference to the inode, which the open file gets. -/
theorem openInode_balanced {trunc : Bool} {Q : Option (Fin NOFILE) → Refs P → Prop} (hQ : ∀ r, Q r x) :
    rwp room p (openInode i trunc) (x.give i) Q := by
  refine rwp_keep hu trivial (fun _ => rfl) fun r => ?_
  split
  · exact rwp_bind (iunlockput_balanced hu (hQ none))
  · refine rwp_step (c := .fopen i) hu (Multiset.mem_cons_self i x.tok) fun fd => ?_
    cases fd with
    | none => exact rwp_bind (iunlockput_balanced hu (hQ none))
    | some fd =>
      rw [show (x.give i).after (.fopen i) (some fd) = x from Refs.drop_give]
      have hend : rwp room p (do
            step (.iunlock i)
            return some fd) x Q :=
        rwp_keep hu trivial (fun _ => rfl) fun _ => hQ (some fd)
      show rwp room p (if trunc = true ∧ r.type = .file then _ else _) _ _
      split
      · exact rwp_keep hu trivial (fun _ => rfl) fun _ => hend
      · exact hend

theorem sysOpen_balanced {omode : OpenMode} {Q : Option (Fin NOFILE) → Refs P → Prop}
    (hT : x.tok = 0) (ht : x.taken = false) (hQ : ∀ r, Q r x) : rwp room p (sysOpen path omode) x Q := by
  unfold sysOpen
  split
  · exact rwp_bind (create_balanced hu hT ht (hQ none) fun i => openInode_balanced hu hQ)
  · refine rwp_bind (namei_balanced hu (by rw [hT]; exact Nat.zero_le 1) ht (hQ none) fun i => ?_)
    refine rwp_keep hu trivial (fun _ => rfl) fun _ => ?_
    refine rwp_keep hu trivial (fun _ => rfl) fun r => ?_
    split
    · exact rwp_bind (iunlockput_balanced hu (hQ none))
    · exact openInode_balanced hu hQ

theorem sysChdir_balanced {Q : Bool → Refs P → Prop} (hT : x.tok = 0)
    (ht : x.taken = false) (hQ : ∀ b, Q b x) : rwp room p (sysChdir path) x Q := by
  have hc : x.tok.card ≤ 0 := by rw [hT]; exact Nat.le_refl 0
  refine rwp_bind (namei_balanced hu (by omega) ht (hQ false) fun i => ?_)
  refine rwp_keep hu trivial (fun _ => rfl) fun _ => ?_
  refine rwp_keep hu trivial (fun _ => rfl) fun r => ?_
  split
  · exact rwp_bind (iunlockput_balanced hu (hQ false))
  · refine rwp_keep hu trivial (fun _ => rfl) fun _ => ?_
    refine rwp_step (c := .cwd) hu ⟨Nat.le_succ_of_le (Refs.card_give hc), ht⟩ fun old => ?_
    refine rwp_bind (iput_balanced (x := { x.give i with taken := true }) hu ?_)
    refine rwp_step (c := .setCwd i) hu ⟨Multiset.mem_cons_self i x.tok, rfl⟩ fun _ => ?_
    have he : ({ x.give i with taken := true } : Refs P).after (.setCwd i) () = x :=
      Refs.ext (Multiset.erase_cons_head i x.tok) ht.symm rfl rfl
    rw [he]
    exact hQ true

theorem sysClose_balanced {fd : Fin NOFILE} (hT : x.tok = 0) (hQ : Q () x) : rwp room p (sysClose fd) x Q := by
  refine rwp_step (c := .fclose fd) hu (show x.tok.card ≤ 2 by rw [hT]; exact Nat.zero_le 2) fun found => ?_
  cases found with
  | none => exact hQ
  | some i => exact iput_balanced hu hQ

theorem dupFiles_balanced {np : P} {l : List (Fin NOFILE)} (hQ : Q () x) : rwp room p (dupFiles np l) x Q := by
  induction l with
  | nil => exact hQ
  | cons fd rest ih => exact rwp_keep hu trivial (fun _ => rfl) fun _ => ih

theorem kfork_balanced {np : P} {Q : Bool → Refs P → Prop} (ht : x.taken = false) (hc : x.child = none)
    (hQ : ∀ b, Q b x) : rwp room p (kfork np) x Q := by
  refine rwp_step (c := .allocproc np) hu hc fun found => ?_
  cases found with
  | false => exact hQ false
  | true =>
    refine rwp_bind (dupFiles_balanced (x := { x with child := some np }) hu ?_)
    refine rwp_step (c := .forkCwd np) hu ⟨rfl, ht⟩ fun _ => ?_
    have he : ({ x with child := some np } : Refs P).after (.forkCwd np) () = x := Refs.ext rfl rfl hc.symm rfl
    rw [he]
    exact hQ true

theorem closeFiles_balanced {l : List (Fin NOFILE)} (hT : x.tok = 0) (hQ : Q () x) : rwp room p (closeFiles l) x Q := by
  induction l with
  | nil => exact hQ
  | cons fd rest ih => exact rwp_bind (sysClose_balanced hu hT ih)

theorem kexit_balanced {init : Bool} (hT : x.tok = 0) (ht : x.taken = false)
    (hc : x.child = none) (hQ : Q () Refs.empty) : rwp room p (kexit init) x Q := by
  cases init with
  | true => exact ⟨hu, nofun, fun hn => absurd rfl (hn .initExiting)⟩
  | false =>
    refine rwp_bind (closeFiles_balanced hu hT ?_)
    refine rwp_step (c := .cwd) hu ⟨by rw [hT]; exact Nat.zero_le 2, ht⟩ fun old => ?_
    refine rwp_bind (iput_balanced (x := { x with taken := true }) hu ?_)
    exact ⟨hu, ⟨hT, rfl, hc⟩, fun _ _ => hQ⟩

end

/-- **Every call drops the references it makes.** -/
theorem FsCall.balanced (c : FsCall P) (init : Bool) (hu : x.up = true) (hx : (refLogic P room).idle x) :
    rwp room p (c.prog init) x fun _ x' => (refLogic P room).idle x' := by
  obtain ⟨hT, ht, hc⟩ := hx
  have hidle : (refLogic P room).idle x := ⟨hT, ht, hc⟩
  have hmake : ∀ path type major (k : Option (Fin NINODE) → FsProg P Bool), k none = pure false →
      (∀ ip, k (some ip) = iunlockput ip >>= fun _ => pure true) →
      rwp room p (create path type major >>= k) x fun _ x' => (refLogic P room).idle x' := by
    intro path type major k hnone hsome
    refine rwp_bind (create_balanced hu hT ht ?_ fun i => ?_)
    · rw [hnone]
      exact hidle
    · rw [hsome]
      exact rwp_bind (iunlockput_balanced hu hidle)
  cases c with
  | «open» path omode => exact rwp_bind (sysOpen_balanced hu hT ht fun _ => hidle)
  | mkdir path => exact rwp_bind (hmake path .dir 0 _ rfl fun _ => rfl)
  | mknod path major => exact rwp_bind (hmake path .device (short major) _ rfl fun _ => rfl)
  | link old new => exact rwp_bind (sysLink_balanced hu hT ht fun _ => hidle)
  | unlink path => exact rwp_bind (sysUnlink_balanced hu hT ht fun _ => hidle)
  | chdir path => exact rwp_bind (sysChdir_balanced hu hT ht fun _ => hidle)
  | exec path =>
    refine rwp_bind (namei_balanced hu (by rw [hT]; exact Nat.zero_le 1) ht hidle fun i => ?_)
    exact rwp_keep hu trivial (fun _ => rfl) fun _ => iunlockput_balanced hu hidle
  | close fd => exact sysClose_balanced hu hT hidle
  | fork np => exact rwp_bind (kfork_balanced hu ht hc fun _ => hidle)
  | exit => exact kexit_balanced hu hT ht hc ⟨rfl, rfl, rfl⟩

theorem calls_start_balanced : (refLogic P room).Starts (Calls initproc) := by
  rintro s g p f h hidle ⟨hrun, c, rfl⟩
  exact ⟨{ g p with up := true }, h.start hrun, c.balanced _ rfl hidle⟩

/-! ## From the image on -/

/-- The only reference is the current directory of the first process. -/
theorem FsInit.balanced (hi : FsInit initproc s) : Balanced room s fun _ => Refs.empty := by
  have hcount : ∀ i, refCount s (fun _ => Refs.empty) i = if i = 0 then 1 else 0 := by
    intro i
    have hw : ∀ p, (Refs.empty : Refs P).weight (s.cwd p) i = if p = initproc then if i = 0 then 1 else 0 else 0 := by
      intro p
      rw [Refs.weight, hi.cwd p]
      by_cases hp : p = initproc
      · simp [hp, Refs.empty, eq_comm]
      · simp [hp, Refs.empty]
    have hf : files s i = 0 := by
      refine Finset.card_eq_zero.mpr (Finset.filter_eq_empty_iff.mpr fun f _ => ?_)
      rw [hi.file f]
      exact Option.some_ne_none i |>.symm
    rw [refCount, hf, Finset.sum_congr rfl fun p _ => hw p]
    simp
  have hpos : ∀ i, 0 < (s.tab i).ref → i = 0 := by
    intro i h
    by_contra hne
    have := (hi.tab.2 i hne).1
    omega
  refine ⟨fun i => ?_, fun i j h1 h2 _ => ?_, fun p => Nat.zero_le 3, fun f _ => ?_, fun p hp => ⟨?_, rfl⟩, fun _ _ h => (by cases h),
    fun _ _ _ h => (by cases h), ?_⟩
  · rw [hcount]
    by_cases h0 : i = 0
    · rw [h0, hi.tab.1, if_pos rfl]
    · rw [(hi.tab.2 i h0).1, if_neg h0]
  · rw [hpos i h1, hpos j h2]
  · rw [hi.file f]
  · rw [hi.cwd p, if_neg]
    rintro rfl
    exact hp (by rw [hi.proc, if_pos rfl])
  · rw [hi.panicked]
    exact fun _ h => by cases h

theorem FsReachable.balanced (room : Bool) {cond : FsState P → P → FsCmd P → Prop}
    (hcond : ∀ s p c, cond s p c → room = true → Room s p c) {y : Machine.Conf P (FsCmd P) FsCmd.R (FsState P)}
    (hy : FsReachable initproc cond y) : (refLogic P room).Good y := by
  obtain ⟨s₀, hi, hr⟩ := hy
  exact (refLogic P room).invariant calls_start_balanced hi.balanced (fun _ => ⟨rfl, rfl, rfl⟩) (hr.mono hcond)

/-- **References are balanced.** In every run, whenever no process is in a call, no inode has two entries in the inode
table, and `ref` of every entry is the number of open files and of current directories that refer to it. -/
theorem references_balanced {y : Machine.Conf P (FsCmd P) FsCmd.R (FsState P)}
    (hy : FsReachable initproc (fun _ _ _ => True) y) (hpan : y.state.panicked = none) (hret : ∀ p, y.prog p = .ret ()) :
    (∀ i j, 0 < (y.state.tab i).ref → 0 < (y.state.tab j).ref → (y.state.tab i).inum = (y.state.tab j).inum → i = j) ∧
      ∀ i, (y.state.tab i).ref =
        (Finset.univ.filter fun f => 0 < (y.state.file f).ref ∧ (y.state.file f).ip = some i).card +
          (Finset.univ.filter fun p => y.state.cwd p = some i).card := by
  obtain ⟨g, h, hw⟩ := hy.balanced false fun _ _ _ _ => nofun
  refine ⟨h.uniq, fun i => ?_⟩
  have hhalt : (fsMachine P).halted y.state = false := by
    rw [show (fsMachine P).halted y.state = y.state.panicked.isSome from rfl, hpan]
    rfl
  have hcwd : ∑ p, (g p).weight (y.state.cwd p) i = (Finset.univ.filter fun p => y.state.cwd p = some i).card := by
    rw [Finset.card_filter]
    refine Finset.sum_congr rfl fun p _ => ?_
    have hp := hw hhalt p
    rw [hret p] at hp
    obtain ⟨hT, ht, -⟩ : (refLogic P false).idle (g p) := hp
    simp [Refs.weight, hT, ht]
  have hfile : files y.state i =
      (Finset.univ.filter fun f => 0 < (y.state.file f).ref ∧ (y.state.file f).ip = some i).card := by
    refine congrArg Finset.card (Finset.filter_congr fun f _ => ⟨fun hf => ⟨?_, hf⟩, fun hf => hf.2⟩)
    by_contra h0
    have := h.file f (by omega)
    rw [hf] at this
    cases this
  rw [h.ref i, refCount, hcwd, hfile]
  omega

/-- Two processes stand in the root directory, and one has opened it. -/
theorem references_balanced_root : ∃ y : Machine.Conf Bool (FsCmd Bool) FsCmd.R (FsState Bool),
    FsReachable false (fun _ _ _ => True) y ∧ (y.state.tab 0).ref = 3 ∧
      3 = (Finset.univ.filter fun f => 0 < (y.state.file f).ref ∧ (y.state.file f).ip = some 0).card +
        (Finset.univ.filter fun p => y.state.cwd p = some 0).card := by
  obtain ⟨y, hy, hq, hret⟩ := exists_run (fun _ _ _ => true) (fun _ _ _ _ => trivial) false
    [(false, .fork true), (true, .open ['/'] ⟨false, false, true⟩)]
    (fun s => decide (s.panicked = none ∧ (s.tab 0).ref = 3)) (by decide +kernel)
  obtain ⟨hpan, href⟩ := of_decide_eq_true hq
  have h := (references_balanced hy hpan (hret hpan)).2 0
  exact ⟨y, hy, href, by rw [← href]; exact h⟩

/-- **The inode table suffices** in every run in which there is room for the open files and four references of every
process whenever a process looks for an entry. -/
theorem inode_table_suffices {y : Machine.Conf P (FsCmd P) FsCmd.R (FsState P)} (hy : FsReachable initproc Room y) :
    y.state.panicked ≠ some .igetNoInodes := by
  obtain ⟨g, h, -⟩ := hy.balanced true fun _ _ _ hr _ => hr
  exact h.quiet rfl

instance (s : FsState P) (p : P) (c : FsCmd P) : Decidable (Room s p c) := by
  apply FsCmd.casesOn (motive := fun c => Decidable (Room s p c)) c <;> intros <;> unfold Room <;> infer_instance

/-- A process makes a directory and opens it. -/
theorem inode_table_suffices_open : ∃ y : Machine.Conf Unit (FsCmd Unit) FsCmd.R (FsState Unit),
    FsReachable () Room y ∧ (y.state.ofile () 0).isSome = true ∧ y.state.panicked ≠ some .igetNoInodes := by
  obtain ⟨y, hy, ho, -⟩ := exists_run _ (fun s p c h => of_decide_eq_true (p := Room s p c) h) ()
    [((), .mkdir ['a']), ((), .open ['a'] ⟨false, false, true⟩)] (fun s => (s.ofile () 0).isSome) (by decide +kernel)
  exact ⟨y, hy, ho, inode_table_suffices hy⟩

/-- Four processes create files, each sixteen. -/
def manyFiles : List (Fin 4 × FsCall (Fin 4)) :=
  [(0, .fork 1), (0, .fork 2), (0, .fork 3)] ++
    (List.range 50).map fun k => (Fin.ofNat 4 (k / NOFILE), .open [Char.ofNat (97 + k)] ⟨true, false, false⟩)

/-- **The condition is needed.** Together with the root directory, 49 open files fill the table. -/
theorem inode_table_overflows : ∃ y : Machine.Conf (Fin 4) (FsCmd (Fin 4)) FsCmd.R (FsState (Fin 4)),
    FsReachable 0 (fun _ _ _ => True) y ∧ y.state.panicked = some .igetNoInodes := by
  obtain ⟨y, hy, hpan, -⟩ := exists_run (fun _ _ _ => true) (fun _ _ _ _ => trivial) 0 manyFiles
    (fun s => s.panicked == some .igetNoInodes) (by decide +kernel)
  exact ⟨y, hy, eq_of_beq hpan⟩

end Xv6.Fs
