import Xv6.Fs.Logic

/-!
# The calls keep the invariant
-/

namespace Xv6.Fs

open Lib (Prog Machine Logic)
open Function (update update_comm update_eq_self update_idem update_of_ne update_self)

variable {P : Type} [DecidableEq P] [Fintype P] {strict : Bool} {p : P} {x : Ghost P} {i : Fin NINODE} {n : Nat}
variable {Q : Bool → Ghost P → Prop} {path : List Char} {t : InodeType} {h : Held} {T : Multiset (Fin NINODE × Nat)}
  {name : Name} {nameiparent : Bool}

theorem wp_bind {α β : Type} {f : FsProg P α} {k : α → FsProg P β} {Q : β → Ghost P → Prop}
    (h : wp strict p f x fun a x' => wp strict p (k a) x' Q) : wp strict p (f >>= k) x Q :=
  (fsLogic P strict).wp_bind.mpr h

/-- A step that is the last one. -/
theorem wp_call {c : FsCmd P} {Q Q₀ : c.R → Ghost P → Prop} (hr : Rule c x Q₀) (h : ∀ r x', Q₀ r x' → Q r x') :
    wp strict p (step c) x Q := ⟨Q₀, hr, h⟩

/-- A locked inode is read. -/
theorem wp_read {α : Type} {k : Inode → FsProg P α} {Q : α → Ghost P → Prop} (ho : x.own i = some h)
    (hQ : wp strict p (k h.ino) x Q) : wp strict p (step (.read i) >>= k) x Q := by
  refine wp_step (.read ho) fun r x₁ hx₁ => ?_
  obtain ⟨rfl, rfl⟩ := hx₁
  exact hQ

/-- What is left when a lock is released that was acquired before. -/
theorem update_none {own : Fin NINODE → Option Held} (ho : own i = none) (h : Option Held) :
    update (update own i h) i none = own := by
  rw [update_idem, ← ho, update_eq_self]

theorem hold_self (h : Held) : (x.hold i h).own i = some h := update_self _ _ _

theorem hold_of_ne {j : Fin NINODE} (hj : j ≠ i) (h : Held) : (x.hold i h).own j = x.own j := update_of_ne hj _ _

/-! ## Inodes -/

theorem iput_spec {Q : Unit → Ghost P → Prop} (hT : x.tok = (i, n) ::ₘ T)
    (ho : x.own i = none ∨ (i, n) ∈ T) (hd : x.dead = none) (hf : x.flux = none)
    (hk : x.kid = none ∨ x.kid = some (.gone i n)) (hQ : Q () { x with tok := T, kid := none }) :
    wp strict p (iput i) x Q := by
  refine wp_step (.iputTest hT ho hd hk) fun last x' hx => ?_
  cases last with
  | false =>
    cases hx
    exact hQ
  | true =>
    obtain ⟨ho, r, rfl⟩ := hx
    have hi : update x.own i (some ⟨n, r, false⟩) i = some ⟨n, r, false⟩ := update_self _ _ _
    refine wp_step (.ifree rfl hi rfl hT hd hf) fun _ x₁ hx₁ => ?_
    refine wp_call (.iputDrop (by rw [hx₁])) fun _ x₂ hx₂ => ?_
    have he : x₂ = { x with tok := T, kid := none } := by
      subst hx₂ hx₁
      exact Ghost.ext rfl (update_none ho _) rfl rfl rfl hd.symm rfl rfl rfl rfl
    rw [he]
    exact hQ

theorem iunlockput_spec {Q : Unit → Ghost P → Prop}
    (ho : x.own i = some h) (hT : x.tok = (i, n) ::ₘ T) (hd : x.dead = none) (hf : x.flux = none)
    (hp : ∀ m, (m, false) ∈ x.pend → ∃ j k, j ≠ i ∧ x.own j = some k ∧ k.inum = m)
    (hk : x.kid = none ∨ x.kid = some (.gone i n)) (hQ : Q () { x.unhold i with tok := T, kid := none }) :
    wp strict p (iunlockput i) x Q := by
  have hheld : ∀ m, x.kid ≠ some (.held i m) := by
    intro m hm
    rcases hk with hk | hk <;> rw [hk] at hm <;> cases hm
  refine wp_step (.iunlock ho hf hp hheld) fun _ x₁ hx₁ => ?_
  subst hx₁
  exact iput_spec hT (.inl (update_self _ _ _)) hd hf hk hQ

/-- `ialloc` gives a reference to an inode that nobody else knows. -/
theorem iallocLoop_spec {l : List Nat} {Q : Option (Fin NINODE) → Ghost P → Prop} (ht : t ≠ .free)
    (hl : ∀ n ∈ l, 0 < n ∧ n < NINODES) (hk : x.kid = none) (hnone : Q none x)
    (hsome : ∀ i n, Q (some i) { x.give i n with kid := some (.born i n t) }) :
    wp strict p (iallocLoop t l) x Q := by
  induction l with
  | nil => exact hnone
  | cons n rest ih =>
    refine wp_step (.ialloc (hl n List.mem_cons_self) ht hk) fun ok x₁ hx₁ => ?_
    cases ok with
    | true =>
      subst hx₁
      refine wp_step (.igetKid rfl) fun i x₂ hx₂ => ?_
      subst hx₂
      exact hsome i n
    | false =>
      subst hx₁
      exact ih fun m hm => hl m (List.mem_cons_of_mem n hm)

theorem ialloc_spec {Q : Option (Fin NINODE) → Ghost P → Prop} (ht : t ≠ .free) (hk : x.kid = none)
    (hnone : Q none x) (hsome : ∀ i n, Q (some i) { x.give i n with kid := some (.born i n t) }) :
    wp strict p (ialloc t) x Q := by
  refine iallocLoop_spec ht (fun n hn => ?_) hk hnone hsome
  obtain ⟨j, hj, rfl⟩ := List.getElem_of_mem hn
  simp only [List.getElem_drop, List.getElem_range, List.length_drop, List.length_range] at hj ⊢
  omega

/-! ## Paths -/

/-- The process has nothing locked, and nothing is half done. -/
structure Ready (x : Ghost P) : Prop where
  own : x.own = fun _ => none
  kid : x.kid = none
  flux : x.flux = none
  dead : x.dead = none
  pend : ∀ m, (m, false) ∉ x.pend

section

variable (hx : Ready x)
include hx

theorem Ready.give (i : Fin NINODE) (n : Nat) : Ready (x.give i n) := ⟨hx.own, hx.kid, hx.flux, hx.dead, hx.pend⟩

/-- The process has a reference to the one inode it has locked. -/
theorem Ready.hold_tok (ht : (i, h.inum) ∈ x.tok) (j : Fin NINODE) (k : Held)
    (ho : (x.hold i h).own j = some k) : (j, k.inum) ∈ (x.hold i h).tok := by
  by_cases hj : j = i
  · subst hj
    rw [hold_self] at ho
    cases ho
    exact ht
  · rw [hold_of_ne hj, hx.own] at ho
    cases ho

omit hx in
/-- An inode is unlocked that was locked before. -/
theorem unhold_hold (ho : x.own i = none) (h : Held) : (x.hold i h).unhold i = x :=
  Ghost.ext rfl (update_none ho _) rfl rfl rfl rfl rfl rfl rfl rfl

/-- The inode is unlocked that was locked before. -/
theorem iunlock_hold {α : Type} {k : Unit → FsProg P α} {Q : α → Ghost P → Prop}
    (hQ : wp strict p (k ()) x Q) : wp strict p (step (.iunlock i) >>= k) (x.hold i h) Q := by
  refine wp_step (.iunlock (hold_self h) hx.flux (fun m hm => absurd hm (hx.pend m)) ?_) fun _ x₁ hx₁ => ?_
  · intro m hm
    rw [show (x.hold i h).kid = none from hx.kid] at hm
    cases hm
  · rw [unhold_hold (congrFun hx.own i)] at hx₁
    subst hx₁
    exact hQ

omit hx in
theorem give_hold {j : Fin NINODE} {m : Nat} : ((x.give i n).hold i h).give j m = ((x.give j m).give i n).hold i h :=
  Ghost.ext (Multiset.cons_swap _ _ _) rfl rfl rfl rfl rfl rfl rfl rfl rfl

/-- The inode is unlocked that was locked before, and the reference to it is dropped. -/
theorem iunlockput_hold {Q : Unit → Ghost P → Prop}
    (hT : x.tok = (i, n) ::ₘ T) (hQ : Q () { x with tok := T }) : wp strict p (iunlockput i) (x.hold i h) Q := by
  have ho : x.own i = none := by rw [hx.own]
  refine iunlockput_spec (update_self _ _ _) hT hx.dead hx.flux (fun m hm => absurd hm (hx.pend m)) (.inl hx.kid) ?_
  have he : { (x.hold i h).unhold i with tok := T, kid := none } = { x with tok := T } :=
    Ghost.ext rfl (update_none ho _) hx.kid.symm rfl rfl rfl rfl rfl rfl rfl
  rw [he]
  exact hQ

/-- An inode is locked that the process has a reference to. -/
theorem ilock_give {α : Type} {k : Unit → FsProg P α} {Q : α → Ghost P → Prop}
    (hQ : ∀ r a, wp strict p (k ()) ((x.give i n).hold i ⟨n, r, a⟩) Q) :
    wp strict p (step (.ilock i) >>= k) (x.give i n) Q := by
  refine wp_step (.ilock (Multiset.mem_cons_self _ _) hx.kid) fun _ x₁ hx₁ => ?_
  obtain ⟨-, r, a, -, rfl⟩ := hx₁
  exact hQ r a

/-- The inode is unlocked and dropped that was found and locked before. -/
theorem iunlockput_give {α : Type} {k : Unit → FsProg P α} {Q : α → Ghost P → Prop}
    (hQ : wp strict p (k ()) x Q) : wp strict p (iunlockput i >>= k) ((x.give i n).hold i h) Q :=
  wp_bind (iunlockput_hold (hx.give i n) rfl hQ)

/-- A reference is dropped that was given before. -/
theorem iput_give {Q : Unit → Ghost P → Prop} (hQ : Q () x) : wp strict p (iput i) (x.give i n) Q := by
  refine iput_spec rfl (.inl (congrFun hx.own i)) hx.dead hx.flux (.inl hx.kid) ?_
  have he : { x.give i n with tok := x.tok, kid := none } = x :=
    Ghost.ext rfl rfl hx.kid.symm rfl rfl rfl rfl rfl rfl rfl
  rw [he]
  exact hQ

theorem namexEnd_spec {Q : Option (Fin NINODE × Name) → Ghost P → Prop}
    (hnone : Q none x) (hsome : ∀ i n name, Q (some (i, name)) (x.give i n)) :
    wp strict p (namexEnd nameiparent i) (x.give i n) Q := by
  cases nameiparent with
  | false => exact hsome i n []
  | true =>
    refine wp_bind (iput_give hx ?_)
    exact hnone

theorem namexLoop_spec {fuel : Nat} {Q : Option (Fin NINODE × Name) → Ghost P → Prop} (hnone : Q none x)
    (hsome : ∀ i n name, Q (some (i, name)) (x.give i n)) :
    wp strict p (namexLoop nameiparent fuel i path) (x.give i n) Q := by
  induction fuel generalizing i n path with
  | zero => exact namexEnd_spec hx hnone hsome
  | succ fuel ih =>
    unfold namexLoop
    split
    · exact namexEnd_spec hx hnone hsome
    · next name path' _ =>
      have hgive : Ready (x.give i n) := hx.give i n
      refine ilock_give hx fun r₀ a => ?_
      have hheld : ((x.give i n).hold i ⟨n, r₀, a⟩).own i = some ⟨n, r₀, a⟩ := update_self _ _ _
      refine wp_read hheld ?_
      split
      · exact iunlockput_give hx hnone
      · split
        · exact iunlock_hold hgive (hsome i n name)
        · refine wp_step (.dirlookup hheld hx.kid hx.flux (hx.pend n) (hgive.hold_tok (Multiset.mem_cons_self _ _)))
            fun found x₁ hx₁ => ?_
          cases found with
          | none =>
            obtain ⟨-, -, -, rfl⟩ := hx₁
            exact iunlockput_give hx hnone
          | some y =>
            obtain ⟨-, e, -, -, -, rfl⟩ := hx₁
            rw [give_hold]
            refine wp_bind (iunlockput_hold ((hx.give y.2 e.inum).give i n) rfl ?_)
            exact ih

theorem namex_spec {Q : Option (Fin NINODE × Name) → Ghost P → Prop} (ht : x.taken = false) (hnone : Q none x) (hsome : ∀ i n name, Q (some (i, name)) (x.give i n)) :
    wp strict p (namex path nameiparent) x Q := by
  unfold namex
  split
  · refine wp_step .igetRoot fun i x₁ hx₁ => ?_
    subst hx₁
    exact namexLoop_spec hx hnone hsome
  · refine wp_step (.idupCwd ht hx.kid) fun i x₁ hx₁ => ?_
    obtain ⟨n, rfl⟩ := hx₁
    exact namexLoop_spec hx hnone hsome

theorem namei_spec {Q : Option (Fin NINODE) → Ghost P → Prop} (ht : x.taken = false)
    (hnone : Q none x) (hsome : ∀ i n, Q (some i) (x.give i n)) : wp strict p (namei path) x Q :=
  wp_bind (namex_spec hx ht hnone fun i n _ => hsome i n)

end

/-! ## Directory entries -/

theorem isReal_take (name : Name) : isReal (name.take DIRSIZ) = isReal name := by
  simp [isReal, namecmp, List.take_take]

/-- The first empty entry, or the end. -/
theorem empty_slot {ents : List Dirent} {e : Dirent} (he : ents[ents.findIdx fun e => e.inum == 0]? = some e) : e.inum = 0 := by
  obtain ⟨hlt, rfl⟩ := List.getElem?_eq_some_iff.mp he
  simpa using List.findIdx_getElem (w := hlt)

/-- `dirlink`, when the name is not there. -/
theorem dirlink_write {b : Bool} (ho : x.own i = some h)
    (hd : h.ino.type = .dir) (hp : x.pend = {(n, b)}) (hf : x.flux = none) (hname : isReal name = true)
    (hn : n < NINODES) (hk : ∀ c, x.kid = some c → c.inum = n)
    (hdir : b = false → ∃ j kn, j ≠ i ∧ x.kid = some (.held j n) ∧ x.own j = some kn ∧ kn.ino.type = .dir ∧
      kn.ino.ents = [⟨n, dot⟩, ⟨h.inum, dotdot⟩])
    (hfalse : Q false x)
    (htrue : ∀ r, Q true { x.set i h r with pend := 0, kid := none, flux := if b then none else some (n, true) }) :
    wp strict p (do
      let d ← step (.read i)
      step (.writeDirent i (d.ents.findIdx fun e => e.inum == 0) ⟨n % 2 ^ 16, name.take DIRSIZ⟩)) x Q := by
  have hmod : n % 2 ^ 16 = n := Nat.mod_eq_of_lt (Nat.lt_trans hn (by decide))
  refine wp_read ho ?_
  rw [hmod]
  have hname' : isReal (name.take DIRSIZ) = true := by rw [isReal_take, hname]
  refine wp_call (.addName ho hd hp hf hname' (fun e => empty_slot) hk hdir) fun ok x₁ hx₁ => ?_
  subst hx₁
  cases ok with
  | false => exact hfalse
  | true => exact htrue _

/-- `dirlink` for a link to a file. -/
theorem dirlink_link (hx : Ready x) (ht : (i, h.inum) ∈ x.tok)
    (hp : x.pend = {(n, true)}) (hn : n < NINODES) (hfalse : Q false (x.hold i h))
    (htrue : ∀ r, Q true { x.hold i r with pend := 0 }) : wp strict p (dirlink i name n) (x.hold i h) Q := by
  refine wp_step (.dirlookup (hold_self h) hx.kid hx.flux (hx.pend _) (hx.hold_tok ht)) fun found x₁ hx₁ => ?_
  obtain ⟨hd, hx₁⟩ := hx₁
  cases found with
  | some y =>
    obtain ⟨e, -, -, hown, rfl⟩ := hx₁
    refine wp_bind (iput_spec (T := x.tok) rfl hown hx.dead hx.flux (.inl hx.kid) ?_)
    have he : { (x.hold i h).give y.2 e.inum with tok := x.tok, kid := none } = x.hold i h :=
      Ghost.ext rfl rfl hx.kid.symm rfl rfl rfl rfl rfl rfl rfl
    rw [he]
    exact hfalse
  | none =>
    obtain ⟨-, hname, rfl⟩ := hx₁
    refine dirlink_write (hold_self h) hd hp hx.flux hname hn ?_ nofun hfalse fun r => ?_
    · intro c hc
      rw [show (x.hold i h).kid = none from hx.kid] at hc
      cases hc
    · have he : { (x.hold i h).set i h r with pend := 0, kid := none, flux := if true then none else some (n, true) } =
          { x.hold i ⟨h.inum, r, h.att⟩ with pend := 0 } :=
        Ghost.ext rfl (update_idem _ _ _) hx.kid.symm rfl hx.flux.symm rfl rfl rfl rfl rfl
      rw [he]
      exact htrue _

/-! ## System calls -/

/-- `sys_link` gives up the link that it has counted. -/
theorem link_bad (hx : Ready x) (hp : x.pend = 0) (hQ : Q false x) : wp strict p (do
      step (.ilock i)
      step (.decLink i)
      iunlockput i
      return false) { x.give i n with pend := {(n, true)} } Q := by
  refine wp_step (.ilock (Multiset.mem_cons_self _ _) hx.kid) fun _ x₁ hx₁ => ?_
  obtain ⟨-, r, a, -, rfl⟩ := hx₁
  refine wp_step (.decLink (T := 0) (hold_self _) rfl hx.flux hx.kid) fun _ x₁ hx₁ => ?_
  have he : x₁ = (x.give i n).hold i ⟨n, { r with nlink := r.nlink - 1 }, a⟩ := by
    subst hx₁
    exact Ghost.ext rfl (update_idem _ _ _) rfl hp.symm rfl rfl rfl rfl rfl rfl
  subst he
  exact iunlockput_give hx hQ

theorem sysLink_spec {old new : List Char} (hx : Ready x) (hp : x.pend = 0)
    (ht : x.taken = false) (hQ : ∀ r, Q r x) : wp strict p (sysLink old new) x Q := by
  refine wp_bind (namei_spec hx ht (hQ false) fun i n => ?_)
  refine ilock_give hx fun r a => ?_
  refine wp_read (hold_self _) ?_
  split
  · exact iunlockput_give hx (hQ false)
  · next hdir =>
    refine wp_step (.incLink (hold_self _) hdir hx.flux hx.kid) fun _ x₁ hx₁ => ?_
    have he : x₁ = { x.give i n with pend := {(n, true)} }.hold i ⟨n, { r with nlink := r.nlink + 1 }, a⟩ := by
      subst hx₁
      refine Ghost.ext rfl (update_idem _ _ _) rfl ?_ rfl rfl rfl rfl rfl rfl
      show (n, true) ::ₘ x.pend = {(n, true)}
      rw [hp]
      rfl
    subst he
    have hlink : Ready { x.give i n with pend := {(n, true)} } :=
      ⟨hx.own, hx.kid, hx.flux, hx.dead, fun m hm => by cases Multiset.mem_singleton.mp hm⟩
    refine iunlock_hold hlink (wp_bind (namex_spec hlink ht ?_ fun j m name => ?_))
    · exact link_bad hx hp (hQ false)
    · refine ilock_give hlink fun r' a' => ?_
      refine wp_step (.inum (Multiset.mem_cons_of_mem (Multiset.mem_cons_self _ _))) fun inum x₁ hx₁ => ?_
      obtain ⟨rfl, hn, rfl⟩ := hx₁
      refine wp_bind (dirlink_link (hlink.give j m) (Multiset.mem_cons_self _ _) rfl hn.2 ?_ fun k => ?_)
      · exact iunlockput_give hlink (link_bad hx hp (hQ false))
      · have hmade : { x.give i inum with pend := 0 } = x.give i inum :=
          Ghost.ext rfl rfl rfl hp.symm rfl rfl rfl rfl rfl rfl
        have hready : Ready { x.give i inum with pend := 0 } := hmade ▸ hx.give i inum
        refine wp_bind (iunlockput_hold (hready.give j m) rfl ?_)
        show wp strict p (iput i >>= fun _ => pure true) { x.give i inum with pend := 0 } Q
        rw [hmade]
        refine wp_bind (iput_give hx ?_)
        exact hQ true

/-! ### Two inodes -/

/-- The process has two inodes locked. -/
def Ghost.pair (x : Ghost P) (i j : Fin NINODE) (k l : Held) : Ghost P :=
  (((x.give i k.inum).hold i k).give j l.inum).hold j l

section Pair

variable {j : Fin NINODE} {k l : Held}

theorem pair_fst (hij : i ≠ j) : (x.pair i j k l).own i = some k := by
  rw [Ghost.pair, hold_of_ne hij]
  exact hold_self k

theorem pair_snd : (x.pair i j k l).own j = some l := hold_self l

/-- No other inode is locked. -/
theorem pair_own (hx : Ready x) {c : Fin NINODE} (hc : (x.pair i j k l).own c = some h) : c = i ∨ c = j := by
  by_contra hn
  obtain ⟨hi, hj⟩ := not_or.mp hn
  rw [Ghost.pair, hold_of_ne hj] at hc
  have : ((x.give i k.inum).hold i k).own c = some h := hc
  rw [hold_of_ne hi] at this
  rw [show (x.give i k.inum).own c = none from congrFun hx.own c] at this
  cases this

theorem pair_set_fst (hij : i ≠ j) (r : Inode) : (x.pair i j k l).set i k r = x.pair i j ⟨k.inum, r, k.att⟩ l := by
  refine Ghost.ext rfl ?_ rfl rfl rfl rfl rfl rfl rfl rfl
  show update (update (update x.own i (some k)) j (some l)) i _ = update (update x.own i _) j (some l)
  rw [update_comm (Ne.symm hij), update_idem]

theorem pair_hold (b : Bool) : (x.pair i j k l).hold j ⟨l.inum, l.ino, b⟩ = x.pair i j k ⟨l.inum, l.ino, b⟩ :=
  Ghost.ext rfl (update_idem _ _ _) rfl rfl rfl rfl rfl rfl rfl rfl

/-- The second inode stays locked. -/
theorem iunlockput_fst {q : Multiset (Nat × Bool)} {Q : Unit → Ghost P → Prop} (hx : Ready x) (hij : i ≠ j)
    (hq : ∀ m, (m, false) ∈ q → m = l.inum) (hQ : Q () { (x.give j l.inum).hold j l with pend := q }) :
    wp strict p (iunlockput i) { x.pair i j k l with pend := q } Q := by
  refine iunlockput_spec (pair_fst hij) (Multiset.cons_swap _ _ _) hx.dead hx.flux
    (fun m hm => ⟨j, l, Ne.symm hij, pair_snd, (hq m hm).symm⟩) (.inl hx.kid) ?_
  have he : { { x.pair i j k l with pend := q }.unhold i with tok := (j, l.inum) ::ₘ x.tok, kid := none } =
      { (x.give j l.inum).hold j l with pend := q } := by
    refine Ghost.ext rfl ?_ hx.kid.symm rfl rfl rfl rfl rfl rfl rfl
    show update (update (update x.own i (some k)) j (some l)) i none = update x.own j (some l)
    rw [update_comm (Ne.symm hij), update_none (congrFun hx.own i)]
  rw [he]
  exact hQ

/-- The first inode stays locked. -/
theorem iunlockput_snd {Q : Unit → Ghost P → Prop} (hx : Ready x) (hij : i ≠ j)
    (hQ : Q () ((x.give i k.inum).hold i k)) : wp strict p (iunlockput j) (x.pair i j k l) Q := by
  have ho : ((x.give i k.inum).hold i k).own j = none := by
    rw [hold_of_ne (Ne.symm hij)]
    exact congrFun hx.own j
  refine iunlockput_spec (T := (i, k.inum) ::ₘ x.tok) pair_snd rfl hx.dead hx.flux
    (fun m hm => absurd hm (hx.pend m)) (.inl hx.kid) ?_
  have he : { (x.pair i j k l).unhold j with tok := (i, k.inum) ::ₘ x.tok, kid := none } = (x.give i k.inum).hold i k :=
    Ghost.ext rfl (update_none ho _) hx.kid.symm rfl rfl rfl rfl rfl rfl rfl
  rw [he]
  exact hQ

end Pair

/-- The name that was looked up and the one that was found. -/
theorem isReal_of_namecmp {a b : Name} (h : namecmp a b = true) : isReal b = isReal a := by
  simp only [namecmp, beq_iff_eq] at h
  simp [isReal, namecmp, h]

/-- The end of `sys_unlink`: the link that was named is counted no more. -/
theorem unlink_end {j : Fin NINODE} {k l : Held} {b : Bool} (hx : Ready x)
    (hp : x.pend = 0) (hij : i ≠ j) (hQ : Q true x) :
    wp strict p (do
      iunlockput i
      step (.decLink j)
      iunlockput j
      return true) { x.pair i j k l with pend := {(l.inum, b)} } Q := by
  refine wp_bind (iunlockput_fst hx hij (fun m hm => ?_) ?_)
  · exact (Prod.mk.inj (Multiset.mem_singleton.mp hm)).1
  · refine wp_step (.decLink (T := 0) (hold_self l) rfl hx.flux hx.kid) fun _ x₁ hx₁ => ?_
    have he : x₁ = (x.give j l.inum).hold j ⟨l.inum, { l.ino with nlink := l.ino.nlink - 1 }, l.att⟩ := by
      subst hx₁
      exact Ghost.ext rfl (update_idem _ _ _) rfl hp.symm rfl rfl rfl rfl rfl rfl
    subst he
    exact iunlockput_give hx hQ

theorem sysUnlink_spec (hx : Ready x) (hp : x.pend = 0)
    (ht : x.taken = false) (hQ : ∀ r, Q r x) : wp strict p (sysUnlink path) x Q := by
  refine wp_bind (namex_spec hx ht (hQ false) fun i n name => ?_)
  have hgive := hx.give i n
  refine ilock_give hx fun r₀ a => ?_
  split
  · exact iunlockput_give hx (hQ false)
  · next hname =>
    refine wp_step (.dirlookup (hold_self _) hx.kid hx.flux (hx.pend n) (hgive.hold_tok (Multiset.mem_cons_self _ _)))
      fun found x₁ hx₁ => ?_
    obtain ⟨-, hx₁⟩ := hx₁
    cases found with
    | none =>
      obtain ⟨-, -, rfl⟩ := hx₁
      exact iunlockput_give hx (hQ false)
    | some y =>
      obtain ⟨off, j⟩ := y
      obtain ⟨e, hfind, he, -, rfl⟩ := hx₁
      obtain ⟨e', he', -, h0, hcmp⟩ := findEntry_some hfind
      rw [he] at he'
      cases he'
      have hreal : isReal e.name = true := by
        rw [isReal_of_namecmp hcmp]
        simpa [isReal] using hname
      refine wp_step (.ilock (Multiset.mem_cons_self _ _) hx.kid) fun _ x₁ hx₁ => ?_
      obtain ⟨hown, r, b, -, rfl⟩ := hx₁
      have hij : i ≠ j := by
        rintro rfl
        rw [show (((x.give i n).hold i ⟨n, r₀, a⟩).give i e.inum).own i = _ from hold_self _] at hown
        cases hown
      show wp strict p _ (x.pair i j ⟨n, r₀, a⟩ ⟨e.inum, r, b⟩) Q
      refine wp_read pair_snd ?_
      split
      · exact wp_step (.panic (by decide)) fun _ _ h => h.elim
      · split
        · refine wp_bind (iunlockput_snd hx hij ?_)
          exact iunlockput_give hx (hQ false)
        · next hempty =>
          refine wp_step (.removeName (pair_fst hij) pair_snd hij he h0 hreal rfl hx.flux hx.kid) fun ok x₁ hx₁ => ?_
          obtain ⟨rfl, hx₁⟩ := hx₁
          rw [pair_set_fst hij] at hx₁
          generalize { r₀ with ents := putEntry r₀.ents off ⟨0, []⟩ } = d at hx₁
          by_cases hdir : r.type = .dir
          · have hx₁' : x₁ = { x.pair i j ⟨n, d, a⟩ ⟨e.inum, r, b⟩ with
                pend := {(e.inum, false)}, flux := some (e.inum, false) } := by
              subst hx₁
              refine Ghost.ext rfl rfl rfl ?_ ?_ rfl rfl rfl rfl rfl
              · show (e.inum, decide (r.type ≠ .dir)) ::ₘ x.pend = _
                rw [hp, hdir]
                rfl
              · show (if decide (r.type ≠ .dir) then none else some (e.inum, false)) = _
                rw [hdir]
                rfl
            subst hx₁'
            rw [if_pos rfl, if_pos hdir]
            have hempty' : isdirempty r = true := by simpa [hdir] using hempty
            refine wp_step (.detach (pair_fst hij) pair_snd hij rfl hx.kid hempty' fun c k hc => pair_own hx hc)
              fun _ x₂ hx₂ => ?_
            have hx₂' : x₂ = { x.pair i j ⟨n, { d with nlink := d.nlink - 1 }, a⟩ ⟨e.inum, r, false⟩ with
                pend := {(e.inum, false)} } := by
              subst hx₂
              refine Ghost.ext rfl ?_ rfl rfl hx.flux.symm rfl rfl rfl rfl rfl
              show (((x.pair i j ⟨n, d, a⟩ ⟨e.inum, r, b⟩).set i ⟨n, d, a⟩ _).hold j ⟨e.inum, r, false⟩).own = _
              rw [pair_set_fst hij, pair_hold]
            subst hx₂'
            exact unlink_end hx hp hij (hQ true)
          · have hx₁' : x₁ = { x.pair i j ⟨n, d, a⟩ ⟨e.inum, r, b⟩ with pend := {(e.inum, true)} } := by
              subst hx₁
              refine Ghost.ext rfl rfl rfl ?_ ?_ rfl rfl rfl rfl rfl
              · show (e.inum, decide (r.type ≠ .dir)) ::ₘ x.pend = _
                rw [hp, decide_eq_true hdir]
                rfl
              · show (if decide (r.type ≠ .dir) then none else some (e.inum, false)) = _
                rw [decide_eq_true hdir]
                exact hx.flux.symm
            subst hx₁'
            rw [if_pos rfl, if_neg hdir]
            exact unlink_end hx hp hij (hQ true)

/-! ### New inodes -/

/-- The process has locked a directory and a new inode, whose first link is counted but not made. -/
def Ghost.newborn (x : Ghost P) (i j : Fin NINODE) (k l : Held) (b : Bool) : Ghost P :=
  { x.pair i j k l with kid := some (.held j l.inum), pend := {(l.inum, b)} }

section New

variable {j : Fin NINODE} {k l : Held} {b : Bool}

theorem newborn_set_snd (r : Inode) : (x.newborn i j k l b).set j l r = x.newborn i j k ⟨l.inum, r, l.att⟩ b :=
  Ghost.ext rfl (update_idem _ _ _) rfl rfl rfl rfl rfl rfl rfl rfl

/-- `dirlink` of `.` or `..` in a new directory. -/
theorem dirlink_kid (hx : Ready x) (hd : l.ino.type = .dir)
    (hf : findEntry l.ino.ents name = none) (hname : isReal name = false) (hfalse : Q false (x.newborn i j k l b))
    (htrue : ∀ ents, ents = putEntry l.ino.ents (l.ino.ents.findIdx fun e => e.inum == 0) ⟨n % 2 ^ 16, name.take DIRSIZ⟩ →
      Q true (x.newborn i j k ⟨l.inum, { l.ino with ents := ents }, l.att⟩ b)) :
    wp strict p (dirlink j name n) (x.newborn i j k l b) Q := by
  refine wp_step (.dirlookupNone pair_snd hf) fun found x₁ hx₁ => ?_
  obtain ⟨rfl, rfl⟩ := hx₁
  refine wp_read pair_snd ?_
  refine wp_call (.addKid rfl pair_snd hd hx.flux ?_) fun ok x₁ hx₁ => ?_
  · rw [isReal_take]
    exact hname
  · cases ok with
    | false =>
      subst hx₁
      exact hfalse
    | true =>
      rw [if_pos rfl, newborn_set_snd] at hx₁
      subst hx₁
      exact htrue _ rfl

/-- `dirlink` of the name of a new inode. -/
theorem dirlink_new (hx : Ready x) (hij : i ≠ j) (hd : k.ino.type = .dir)
    (hf : findEntry k.ino.ents name = none) (hname : isReal name = true) (hn : l.inum < NINODES)
    (hl : b = false → l.ino.type = .dir ∧ l.ino.ents = [⟨l.inum, dot⟩, ⟨k.inum, dotdot⟩])
    (hfalse : Q false (x.newborn i j k l b))
    (htrue : ∀ r, Q true { x.pair i j ⟨k.inum, r, k.att⟩ l with pend := 0, flux := if b then none else some (l.inum, true) }) :
    wp strict p (dirlink i name l.inum) (x.newborn i j k l b) Q := by
  refine wp_step (.dirlookupNone (pair_fst hij) hf) fun found x₁ hx₁ => ?_
  obtain ⟨rfl, rfl⟩ := hx₁
  refine dirlink_write (pair_fst hij) hd rfl hx.flux hname hn ?_ ?_ hfalse fun r => ?_
  · rintro c ⟨⟩
    rfl
  · intro hb
    exact ⟨j, l, Ne.symm hij, rfl, pair_snd, (hl hb).1, (hl hb).2⟩
  · have hown := congrArg Ghost.own (pair_set_fst (x := x) (k := k) (l := l) hij r)
    have he : { (x.newborn i j k l b).set i k r with
        pend := 0, kid := none, flux := if b then none else some (l.inum, true) } =
        { x.pair i j ⟨k.inum, r, k.att⟩ l with pend := 0, flux := if b then none else some (l.inum, true) } :=
      Ghost.ext rfl hown hx.kid.symm rfl rfl rfl rfl rfl rfl rfl
    rw [he]
    exact htrue r

theorem createLink_spec (hx : Ready x) (hij : i ≠ j)
    (hd : k.ino.type = .dir) (hf : findEntry k.ino.ents name = none) (hname : isReal name = true)
    (ht : l.ino.type = t) (he : l.ino.ents = [])
    (hfalse : ∀ r, Q false (x.newborn i j k ⟨l.inum, r, l.att⟩ (decide (t ≠ .dir))))
    (htrue : ∀ d r, (t = .dir → parentOf r = some k.inum) →
      Q true { x.pair i j ⟨k.inum, d, k.att⟩ ⟨l.inum, r, l.att⟩ with
        pend := 0, flux := if decide (t ≠ .dir) then none else some (l.inum, true) }) :
    wp strict p (createLink i j t name) (x.newborn i j k l (decide (t ≠ .dir))) Q := by
  refine wp_step (.inum (Multiset.mem_cons_self _ _)) fun inum x₁ hx₁ => ?_
  obtain ⟨rfl, hm, rfl⟩ := hx₁
  split
  · next hdir =>
    refine wp_step (.inum (Multiset.mem_cons_of_mem (Multiset.mem_cons_self _ _))) fun dinum x₁ hx₁ => ?_
    obtain ⟨rfl, hn, rfl⟩ := hx₁
    have hmod : ∀ c, c < NINODES → c % 2 ^ 16 = c := fun c hc => Nat.mod_eq_of_lt (Nat.lt_trans hc (by decide))
    refine wp_bind (dirlink_kid hx (ht.trans hdir) (by rw [he]; rfl) (by rfl) (hfalse _) fun ents hents => ?_)
    have hdot : ents = [⟨l.inum, dot⟩] := by
      rw [hents, he, hmod _ hm.2]
      rfl
    subst hdot
    refine wp_bind (dirlink_kid hx (ht.trans hdir) (by simp [findEntry, namecmp, dot, dotdot]) (by rfl) (hfalse _) fun ents hents => ?_)
    have hdotdot : ents = [⟨l.inum, dot⟩, ⟨k.inum, dotdot⟩] := by
      have : (l.inum == 0) = false := by simpa using Nat.ne_of_gt hm.1
      rw [hents, hmod _ hn.2]
      simp [List.findIdx_cons, this, putEntry, dotdot]
    subst hdotdot
    refine dirlink_new hx hij hd hf hname hm.2 (fun _ => ⟨ht.trans hdir, rfl⟩) (hfalse _) fun d => ?_
    exact htrue d _ fun _ => rfl
  · next hdir =>
    refine dirlink_new hx hij hd hf hname hm.2 ?_ (hfalse _) fun d => htrue d _ fun h => absurd h hdir
    intro hb
    exact absurd (decide_eq_true hdir) (by rw [hb]; exact Bool.false_ne_true)

variable (hx : Ready x) (hp : x.pend = 0) (hij : i ≠ j)
include hx hp hij

/-- `create` gives up the new inode. -/
theorem create_bad {Q : Option (Fin NINODE) → Ghost P → Prop} (hQ : Q none x) : wp strict p (do
      step (.zeroLink j)
      iunlockput j
      iunlockput i
      return none) (x.newborn i j k l b) Q := by
  refine wp_step (.zeroLink rfl pair_snd rfl hx.flux) fun _ x₁ hx₁ => ?_
  rw [newborn_set_snd] at hx₁
  subst hx₁
  have ho : ((x.give i k.inum).hold i k).own j = none := by
    rw [hold_of_ne (Ne.symm hij)]
    exact congrFun hx.own j
  refine wp_bind (iunlockput_spec (T := (i, k.inum) ::ₘ x.tok) pair_snd rfl hx.dead hx.flux
    (fun m hm => absurd hm (Multiset.notMem_zero _)) (.inr rfl) ?_)
  refine wp_bind ?_
  have he : ∀ r : Held, { { x.newborn i j k r b with pend := 0, kid := some (.gone j l.inum) }.unhold j with
      tok := (i, k.inum) ::ₘ x.tok, kid := none } = (x.give i k.inum).hold i k := fun r =>
    Ghost.ext rfl (update_none ho _) hx.kid.symm hp.symm rfl rfl rfl rfl rfl rfl
  rw [he]
  exact iunlockput_hold (hx.give i k.inum) rfl hQ

/-- `create` drops the directory, and returns the new inode locked. -/
theorem create_drop {Q : Option (Fin NINODE) → Ghost P → Prop} (hQ : Q (some j) ((x.give j l.inum).hold j l)) :
    wp strict p (do
      iunlockput i
      return some j) { x.pair i j k l with pend := 0 } Q := by
  refine wp_bind (iunlockput_fst hx hij (fun m hm => absurd hm (Multiset.notMem_zero _)) ?_)
  have he : { (x.give j l.inum).hold j l with pend := 0 } = (x.give j l.inum).hold j l :=
    Ghost.ext rfl rfl rfl hp.symm rfl rfl rfl rfl rfl rfl
  rw [he]
  exact hQ

/-- `create` has made the names of the new inode, and the parent comes to count a new directory. -/
theorem create_end {Q : Option (Fin NINODE) → Ghost P → Prop} (hpar : t = .dir → parentOf l.ino = some k.inum)
    (hQ : ∀ l : Held, Q (some j) ((x.give j l.inum).hold j l)) :
    wp strict p (do
      if t = .dir then
        step (.incLink i)
      iunlockput i
      return some j)
      { x.pair i j k l with pend := 0, flux := if decide (t ≠ .dir) then none else some (l.inum, true) } Q := by
  by_cases hdir : t = .dir
  · have hf : (if decide (t ≠ .dir) then none else some (l.inum, true)) = some (l.inum, true) := by simp [hdir]
    rw [hf, if_pos hdir]
    refine wp_step (.attach (pair_fst hij) pair_snd hij rfl (hpar hdir) hx.kid) fun _ x₁ hx₁ => ?_
    have he : x₁ = { x.pair i j ⟨k.inum, { k.ino with nlink := k.ino.nlink + 1 }, k.att⟩ ⟨l.inum, l.ino, true⟩ with
        pend := 0 } := by
      subst hx₁
      refine Ghost.ext rfl ?_ rfl rfl hx.flux.symm rfl rfl rfl rfl rfl
      show (((x.pair i j k l).set i k _).hold j ⟨l.inum, l.ino, true⟩).own = _
      rw [pair_set_fst hij, pair_hold]
    subst he
    exact create_drop hx hp hij (hQ _)
  · have hf : (if decide (t ≠ .dir) then none else some (l.inum, true)) = none := by simp [hdir]
    rw [hf, if_neg hdir]
    have he : { x.pair i j k l with pend := 0, flux := none } = { x.pair i j k l with pend := 0 } :=
      Ghost.ext rfl rfl rfl rfl hx.flux.symm rfl rfl rfl rfl rfl
    rw [he]
    exact create_drop hx hp hij (hQ _)

end New

/-- `create` returns the inode locked. -/
theorem create_spec {major : Int} {Q : Option (Fin NINODE) → Ghost P → Prop}
    (hx : Ready x) (hp : x.pend = 0) (ht : x.taken = false) (hfree : t ≠ .free) (hnone : Q none x)
    (hsome : ∀ i k, Q (some i) ((x.give i k.inum).hold i k)) : wp strict p (create path t major) x Q := by
  refine wp_bind (namex_spec hx ht hnone fun i n name => ?_)
  have hgive := hx.give i n
  refine ilock_give hx fun d a => ?_
  refine wp_step (.dirlookup (hold_self _) hx.kid hx.flux (hx.pend n) (hgive.hold_tok (Multiset.mem_cons_self _ _)))
    fun found x₁ hx₁ => ?_
  obtain ⟨hd, hx₁⟩ := hx₁
  cases found with
  | some y =>
    obtain ⟨e, -, -, -, rfl⟩ := hx₁
    rw [give_hold]
    refine wp_bind (iunlockput_hold ((hx.give y.2 e.inum).give i n) rfl ?_)
    refine ilock_give hx fun r b => ?_
    refine wp_read (hold_self _) ?_
    split
    · exact hsome y.2 ⟨e.inum, r, b⟩
    · exact iunlockput_give hx hnone
  | none =>
    obtain ⟨hfind, hname, rfl⟩ := hx₁
    refine wp_bind (ialloc_spec hfree hx.kid ?_ fun j m => ?_)
    · exact iunlockput_give hx hnone
    · refine wp_step (.ilockKid rfl) fun _ x₁ hx₁ => ?_
      obtain ⟨hown, hx₁⟩ := hx₁
      have hij : i ≠ j := by
        rintro rfl
        have hheld : ((x.give i n).hold i ⟨n, d, a⟩).own i = none := hown
        rw [hold_self] at hheld
        cases hheld
      subst hx₁
      refine wp_step (.setLink rfl (hold_self _) rfl hx.flux) fun _ x₁ hx₁ => ?_
      have he : x₁ = x.newborn i j ⟨n, d, a⟩ ⟨m, ⟨t, major, 1, []⟩, false⟩ (decide (t ≠ .dir)) := by
        subst hx₁
        refine Ghost.ext rfl (update_idem _ _ _) rfl ?_ rfl rfl rfl rfl rfl rfl
        show (m, decide (t ≠ .dir)) ::ₘ x.pend = _
        rw [hp]
        rfl
      subst he
      refine wp_bind (createLink_spec hx hij hd hfind hname rfl rfl (fun r => ?_) fun d' r hpar => ?_)
      · exact create_bad hx hp hij hnone
      · exact create_end hx hp hij hpar fun l => hsome j l

/-! ### Files -/

/-- `sys_open` with the inode locked: its reference becomes that of the file. -/
theorem openInode_spec {k : Held} {trunc : Bool} {Q : Option (Fin NOFILE) → Ghost P → Prop} (hx : Ready x) (hu : x.up = true)
    (hnone : Q none x) (hsome : ∀ fd, Q (some fd) { x with closed := [] }) :
    wp strict p (openInode i trunc) ((x.give i k.inum).hold i k) Q := by
  refine wp_read (hold_self k) ?_
  split
  · exact iunlockput_give hx hnone
  · refine wp_step (.fopen hu rfl hx.kid) fun fd x₁ hx₁ => ?_
    cases fd with
    | none =>
      subst hx₁
      exact iunlockput_give hx hnone
    | some fd =>
      have he : x₁ = { x with closed := [] }.hold i k := hx₁
      subst he
      have hend : wp strict p (do
            step (.iunlock i)
            return some fd) ({ x with closed := [] }.hold i k) Q :=
        iunlock_hold (x := { x with closed := [] }) ⟨hx.own, hx.kid, hx.flux, hx.dead, hx.pend⟩ (hsome fd)
      show wp strict p (if trunc = true ∧ k.ino.type = .file then _ else _) _ _
      split
      · refine wp_step .itrunc fun _ x₁ hx₁ => ?_
        subst hx₁
        exact hend
      · exact hend

theorem sysOpen_spec {omode : OpenMode} {Q : Option (Fin NOFILE) → Ghost P → Prop} (hx : Ready x)
    (hp : x.pend = 0) (ht : x.taken = false) (hu : x.up = true) (hnone : Q none x)
    (hsome : ∀ fd, Q (some fd) { x with closed := [] }) : wp strict p (sysOpen path omode) x Q := by
  unfold sysOpen
  split
  · refine wp_bind (create_spec hx hp ht nofun hnone fun i k => ?_)
    exact openInode_spec hx hu hnone hsome
  · refine wp_bind (namei_spec hx ht hnone fun i n => ?_)
    refine ilock_give hx fun r a => ?_
    refine wp_read (hold_self _) ?_
    split
    · exact iunlockput_give hx hnone
    · exact openInode_spec (k := ⟨n, r, a⟩) hx hu hnone hsome

/-- `sys_mkdir` and `sys_mknod`. -/
theorem make_spec {major : Int} (hx : Ready x)
    (hp : x.pend = 0) (ht : x.taken = false) (hfree : t ≠ .free) (hQ : ∀ r, Q r x) :
    wp strict p (do
      match ← create path t major with
      | none => return false
      | some ip =>
        iunlockput ip
        return true) x Q := by
  refine wp_bind (create_spec hx hp ht hfree (hQ false) fun i k => ?_)
  exact iunlockput_give hx (hQ true)

theorem kexec_spec {Q : Unit → Ghost P → Prop} (hx : Ready x) (ht : x.taken = false) (hQ : Q () x) :
    wp strict p (kexec path) x Q := by
  refine wp_bind (namei_spec hx ht hQ fun i n => ?_)
  refine ilock_give hx fun r a => ?_
  exact iunlockput_hold (hx.give i n) rfl hQ

theorem sysClose_spec {fd : Fin NOFILE} {Q : Unit → Ghost P → Prop} (hx : Ready x) (hu : x.up = true)
    (hQ : Q () { x with closed := fd :: x.closed }) : wp strict p (sysClose fd) x Q := by
  refine wp_step (.fclose hu (fun i => congrFun hx.own i) hx.kid) fun ip x₁ hx₁ => ?_
  cases ip with
  | none =>
    subst hx₁
    exact hQ
  | some i =>
    obtain ⟨n, he⟩ := hx₁
    have he : x₁ = { x with closed := fd :: x.closed }.give i n := he
    subst he
    exact iput_give (x := { x with closed := fd :: x.closed }) ⟨hx.own, hx.kid, hx.flux, hx.dead, hx.pend⟩ hQ

/-! ### Processes -/

/-- The reference of the current directory is dropped. -/
theorem iput_cwd {α : Type} {f : FsProg P α} {Q : α → Ghost P → Prop} (hx : Ready x) (ht : x.taken = false)
    (hQ : wp strict p f { x with taken := true } Q) :
    wp strict p (do
      let old ← step .cwd
      iput old
      f) x Q := by
  refine wp_step (.cwd ht hx.kid) fun i x₁ hx₁ => ?_
  obtain ⟨n, he⟩ := hx₁
  have he : x₁ = { x with taken := true }.give i n := he
  subst he
  exact wp_bind (iput_give (x := { x with taken := true }) ⟨hx.own, hx.kid, hx.flux, hx.dead, hx.pend⟩ hQ)

theorem sysChdir_spec (hx : Ready x) (ht : x.taken = false) (hQ : ∀ r, Q r x) : wp strict p (sysChdir path) x Q := by
  refine wp_bind (namei_spec hx ht (hQ false) fun i n => ?_)
  have hgive := hx.give i n
  refine ilock_give hx fun r a => ?_
  refine wp_read (hold_self _) ?_
  split
  · exact iunlockput_give hx (hQ false)
  · refine iunlock_hold hgive (iput_cwd hgive ht ?_)
    refine wp_step (.setCwd rfl rfl (congrFun hx.own i) hx.kid) fun _ x₁ hx₁ => ?_
    have he : x₁ = x := by
      subst hx₁
      exact Ghost.ext rfl rfl rfl rfl rfl rfl ht.symm rfl rfl rfl
    subst he
    exact hQ true

theorem dupFiles_spec {np : P} {l : List (Fin NOFILE)} {Q : Unit → Ghost P → Prop}
    (hQ : Q () { x with child := some (np, []) }) : wp strict p (dupFiles np l) { x with child := some (np, l) } Q := by
  induction l with
  | nil => exact hQ
  | cons fd rest ih =>
    refine wp_step (.filedup rfl) fun _ x₁ hx₁ => ?_
    subst hx₁
    exact ih

theorem kfork_spec {np : P} (hx : Ready x) (ht : x.taken = false) (hc : x.child = none)
    (hQ : ∀ r, Q r x) : wp strict p (kfork np) x Q := by
  refine wp_step .allocproc fun ok x₁ hx₁ => ?_
  cases ok with
  | false =>
    subst hx₁
    exact hQ false
  | true =>
    subst hx₁
    refine wp_bind (dupFiles_spec ?_)
    refine wp_step (.forkCwd rfl ht hx.kid) fun _ x₁ hx₁ => ?_
    have he : x₁ = x := by
      subst hx₁
      exact Ghost.ext rfl rfl rfl rfl rfl rfl rfl hc.symm rfl rfl
    subst he
    exact hQ true

theorem closeFiles_spec {l : List (Fin NOFILE)} {Q : Unit → Ghost P → Prop} (hx : Ready x) (hu : x.up = true)
    (hQ : Q () { x with closed := l.reverse ++ x.closed }) : wp strict p (closeFiles l) x Q := by
  induction l generalizing x with
  | nil => exact hQ
  | cons fd rest ih =>
    refine wp_bind (sysClose_spec hx hu (ih ⟨hx.own, hx.kid, hx.flux, hx.dead, hx.pend⟩ hu ?_))
    rw [List.reverse_cons, List.append_assoc] at hQ
    exact hQ

theorem kexit_spec {init : Bool} {Q : Unit → Ghost P → Prop}
    (hx : x = { Ghost.empty with closed := x.closed, up := true }) (hQ : Q () Ghost.empty) :
    wp strict p (kexit init) x Q := by
  have hready : Ready x := by
    rw [hx]
    exact ⟨rfl, rfl, rfl, rfl, fun m => Multiset.notMem_zero _⟩
  unfold kexit
  split
  · exact wp_call (.panic nofun) fun _ _ h => h.elim
  · refine wp_bind (closeFiles_spec hready (by rw [hx]) ?_)
    refine iput_cwd ⟨hready.own, hready.kid, hready.flux, hready.dead, hready.pend⟩ (by rw [hx]; rfl) ?_
    refine wp_call (.exit ?_ fun fd => ?_) fun _ x₁ hx₁ => ?_
    · rw [hx]
    · exact List.mem_append_left _ (List.mem_reverse.mpr (List.mem_finRange fd))
    · subst hx₁
      exact hQ

end Xv6.Fs
