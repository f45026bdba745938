import Xv6.Fs.Files
import Xv6.Fs.Names

/-!
# The rules of the steps

`Rule c g Q` is one way to make the step `c`: what the process must have before (`g`), and what it has afterwards
(`Q`), depending on what the step returns. A step that is made for several purposes has several rules: an entry is
written to make good a link, to remove a name, or to complete a new directory.

`FsInv` is the invariant of the whole file system: the references, the link counts, and that no process has locked an
inode without a type. It is kept under the condition `FsCond` on the steps.
-/

namespace Xv6.Fs

open FsState (setTab_self setTab_of_ne)
open Function (update update_idem update_of_ne update_self)

/-! ## Rules -/

/-- With a change to an inode it has locked. -/
def Ghost.set {P : Type} (g : Ghost P) (i : Fin NINODE) (h : Held) (r : Inode) : Ghost P :=
  { g with own := Function.update g.own i (some ⟨h.inum, r, h.att⟩) }

/-- What a step needs, and what it gives. -/
inductive Rule {P : Type} : (c : FsCmd P) → Ghost P → (c.R → Ghost P → Prop) → Prop
  /-- The root directory is always there. -/
  | igetRoot {g : Ghost P} : Rule (.iget ROOTINO) g fun i g' => g' = g.give i ROOTINO
  /-- A new inode is known to its process only. -/
  | igetKid {g : Ghost P} {n : Nat} {t : InodeType} (hk : g.kid = some (.fresh n t)) :
      Rule (.iget n) g fun i g' => g' = { g.give i n with kid := some (.born i n t) }
  | idupCwd {g : Ghost P} (ht : g.taken = false) (hk : g.kid = none) :
      Rule .idupCwd g fun i g' => ∃ n, g' = g.give i n
  | cwd {g : Ghost P} (ht : g.taken = false) (hk : g.kid = none) :
      Rule .cwd g fun i g' => ∃ n, g' = { g.give i n with taken := true }
  | setCwd {g : Ghost P} {i : Fin NINODE} {n : Nat} {T : Multiset (Fin NINODE × Nat)} (ht : g.taken = true)
      (hT : g.tok = (i, n) ::ₘ T) (ho : g.own i = none) (hk : g.kid = none) :
      Rule (.setCwd i) g fun _ g' => g' = { g with tok := T, taken := false }
  | ilock {g : Ghost P} {i : Fin NINODE} {n : Nat} (ht : (i, n) ∈ g.tok) (hk : g.kid = none) :
      Rule (.ilock i) g fun _ g' => g.own i = none ∧ ∃ r a, r.type ≠ .free ∧ g' = g.hold i ⟨n, r, a⟩
  | ilockKid {g : Ghost P} {i : Fin NINODE} {n : Nat} {t : InodeType} (hk : g.kid = some (.born i n t)) :
      Rule (.ilock i) g fun _ g' =>
        g.own i = none ∧ g' = { g.hold i ⟨n, ⟨t, 0, 0, []⟩, false⟩ with kid := some (.held i n) }
  /-- A directory is not unlocked before its name and its attachment agree. -/
  | iunlock {g : Ghost P} {i : Fin NINODE} {h : Held} (ho : g.own i = some h) (hf : g.flux = none)
      (hp : ∀ m, (m, false) ∈ g.pend → ∃ j k, j ≠ i ∧ g.own j = some k ∧ k.inum = m)
      (hk : ∀ n, g.kid ≠ some (.held i n)) : Rule (.iunlock i) g fun _ g' => g' = g.unhold i
  | read {g : Ghost P} {i : Fin NINODE} {h : Held} (ho : g.own i = some h) :
      Rule (.read i) g fun r g' => r = h.ino ∧ g' = g
  | inum {g : Ghost P} {i : Fin NINODE} {n : Nat} (ht : (i, n) ∈ g.tok) :
      Rule (.inum i) g fun m g' => m = n ∧ (0 < n ∧ n < NINODES) ∧ g' = g
  | dirlookupNone {g : Ghost P} {i : Fin NINODE} {h : Held} {name : Name} (ho : g.own i = some h)
      (hf : findEntry h.ino.ents name = none) : Rule (.dirlookup i name) g fun x g' => x = none ∧ g' = g
  /-- A complete directory has entries for `.` and `..`. What is found may be the directory itself, which is locked. -/
  | dirlookup {g : Ghost P} {i : Fin NINODE} {h : Held} {name : Name} (ho : g.own i = some h)
      (hk : g.kid = none) (hf : g.flux = none) (hp : (h.inum, false) ∉ g.pend)
      (ht : ∀ j k, g.own j = some k → (j, k.inum) ∈ g.tok) :
      Rule (.dirlookup i name) g fun x g' => h.ino.type = .dir ∧ match x with
        | none => findEntry h.ino.ents name = none ∧ isReal name = true ∧ g' = g
        | some (off, j) => ∃ e, findEntry h.ino.ents name = some off ∧ h.ino.ents[off]? = some e ∧
          (g.own j = none ∨ (j, e.inum) ∈ g.tok) ∧ g' = g.give j e.inum
  /-- A new name makes good a link that is counted. -/
  | addName {g : Ghost P} {i : Fin NINODE} {h : Held} {off n : Nat} {b : Bool} {name : Name} (ho : g.own i = some h)
      (hd : h.ino.type = .dir) (hp : g.pend = {(n, b)}) (hf : g.flux = none) (hname : isReal name = true)
      (hslot : ∀ e, h.ino.ents[off]? = some e → e.inum = 0) (hk : ∀ c, g.kid = some c → c.inum = n)
      (hdir : b = false → ∃ j kn, j ≠ i ∧ g.kid = some (.held j n) ∧ g.own j = some kn ∧ kn.ino.type = .dir ∧
        kn.ino.ents = [⟨n, dot⟩, ⟨h.inum, dotdot⟩]) :
      Rule (.writeDirent i off ⟨n, name⟩) g fun ok g' => g' = if ok then
        { g.set i h { h.ino with ents := putEntry h.ino.ents off ⟨n, name⟩ } with
          pend := 0, kid := none, flux := if b then none else some (n, true) } else g
  /-- The entries `.` and `..` of a new directory. -/
  | addKid {g : Ghost P} {i : Fin NINODE} {h : Held} {off n : Nat} {de : Dirent} (hk : g.kid = some (.held i n))
      (ho : g.own i = some h) (hd : h.ino.type = .dir) (hf : g.flux = none) (hde : isReal de.name = false) :
      Rule (.writeDirent i off de) g fun ok g' =>
        g' = if ok then g.set i h { h.ino with ents := putEntry h.ino.ents off de } else g
  /-- A name is removed, and its link is still counted. -/
  | removeName {g : Ghost P} {i j : Fin NINODE} {h kn : Held} {off : Nat} {e : Dirent} (ho : g.own i = some h)
      (hj : g.own j = some kn) (hij : i ≠ j) (he : h.ino.ents[off]? = some e) (h0 : e.inum ≠ 0)
      (hname : isReal e.name = true) (hn : e.inum = kn.inum) (hf : g.flux = none) (hk : g.kid = none) :
      Rule (.writeDirent i off ⟨0, []⟩) g fun ok g' => ok = true ∧ g' =
        { g.set i h { h.ino with ents := putEntry h.ino.ents off ⟨0, []⟩ } with
          pend := (kn.inum, decide (kn.ino.type ≠ .dir)) ::ₘ g.pend
          flux := if decide (kn.ino.type ≠ .dir) then none else some (kn.inum, false) }
  | ialloc {g : Ghost P} {n : Nat} {t : InodeType} (hn : 0 < n ∧ n < NINODES) (ht : t ≠ .free) (hk : g.kid = none) :
      Rule (.ialloc n t) g fun ok g' => g' = if ok then { g with kid := some (.fresh n t) } else g
  | setLink {g : Ghost P} {i : Fin NINODE} {n : Nat} {h : Held} {major : Int} (hk : g.kid = some (.held i n))
      (ho : g.own i = some h) (h0 : h.ino.nlink = 0) (hf : g.flux = none) :
      Rule (.setLink i major) g fun _ g' => g' =
        { g.set i h { h.ino with major := major, nlink := 1 } with
          pend := (n, decide (h.ino.type ≠ .dir)) ::ₘ g.pend }
  | incLink {g : Ghost P} {i : Fin NINODE} {h : Held} (ho : g.own i = some h) (hd : h.ino.type ≠ .dir)
      (hf : g.flux = none) (hk : g.kid = none) :
      Rule (.incLink i) g fun _ g' => g' =
        { g.set i h { h.ino with nlink := h.ino.nlink + 1 } with pend := (h.inum, true) ::ₘ g.pend }
  /-- The parent comes to count a new directory. -/
  | attach {g : Ghost P} {i j : Fin NINODE} {h kn : Held} (ho : g.own i = some h) (hj : g.own j = some kn)
      (hij : i ≠ j) (hf : g.flux = some (kn.inum, true)) (hpar : parentOf kn.ino = some h.inum) (hk : g.kid = none) :
      Rule (.incLink i) g fun _ g' => g' =
        { (g.set i h { h.ino with nlink := h.ino.nlink + 1 }).hold j ⟨kn.inum, kn.ino, true⟩ with flux := none }
  | decLink {g : Ghost P} {i : Fin NINODE} {h : Held} {b : Bool} {T : Multiset (Nat × Bool)} (ho : g.own i = some h)
      (hp : g.pend = (h.inum, b) ::ₘ T) (hf : g.flux = none) (hk : g.kid = none) :
      Rule (.decLink i) g fun _ g' => g' = { g.set i h { h.ino with nlink := h.ino.nlink - 1 } with pend := T }
  /-- The parent counts a removed directory no more. -/
  | detach {g : Ghost P} {i j : Fin NINODE} {h kn : Held} (ho : g.own i = some h) (hj : g.own j = some kn)
      (hij : i ≠ j) (hf : g.flux = some (kn.inum, false)) (hk : g.kid = none) (he : isdirempty kn.ino = true)
      (hown : ∀ c k, g.own c = some k → c = i ∨ c = j) :
      Rule (.decLink i) g fun _ g' => g' =
        { (g.set i h { h.ino with nlink := h.ino.nlink - 1 }).hold j ⟨kn.inum, kn.ino, false⟩ with flux := none }
  | zeroLink {g : Ghost P} {i : Fin NINODE} {n : Nat} {h : Held} {b : Bool} (hk : g.kid = some (.held i n))
      (ho : g.own i = some h) (hp : g.pend = {(n, b)}) (hf : g.flux = none) :
      Rule (.zeroLink i) g fun _ g' => g' =
        { g.set i h { h.ino with nlink := 0 } with pend := 0, kid := some (.gone i n) }
  | itrunc {g : Ghost P} {i : Fin NINODE} : Rule (.itrunc i) g fun _ g' => g' = g
  | iputTest {g : Ghost P} {i : Fin NINODE} {n : Nat} {T : Multiset (Fin NINODE × Nat)} (hT : g.tok = (i, n) ::ₘ T)
      (ho : g.own i = none ∨ (i, n) ∈ T) (hd : g.dead = none) (hk : g.kid = none ∨ g.kid = some (.gone i n)) :
      Rule (.iputTest i) g fun last g' => match last with
        | true => g.own i = none ∧ ∃ r, g' = { g.hold i ⟨n, r, false⟩ with kid := some (.gone i n) }
        | false => g' = { g with tok := T, kid := none }
  | ifree {g : Ghost P} {i : Fin NINODE} {n : Nat} {h : Held} {T : Multiset (Fin NINODE × Nat)}
      (hk : g.kid = some (.gone i n)) (ho : g.own i = some h) (hn : h.inum = n) (hT : g.tok = (i, n) ::ₘ T)
      (hd : g.dead = none) (hf : g.flux = none) :
      Rule (.ifree i) g fun _ g' => g' = { g.unhold i with tok := T, kid := none, dead := some i }
  | iputDrop {g : Ghost P} {i : Fin NINODE} (hd : g.dead = some i) :
      Rule (.iputDrop i) g fun _ g' => g' = { g with dead := none }
  | fopen {g : Ghost P} {i : Fin NINODE} {n : Nat} {T : Multiset (Fin NINODE × Nat)} (hu : g.up = true)
      (hT : g.tok = (i, n) ::ₘ T) (hk : g.kid = none) :
      Rule (.fopen i) g fun fd g' => match fd with
        | none => g' = g
        | some _ => g' = { g with tok := T, closed := [] }
  | fclose {g : Ghost P} {fd : Fin NOFILE} (hu : g.up = true) (ho : ∀ i, g.own i = none) (hk : g.kid = none) :
      Rule (.fclose fd) g fun x g' => match x with
        | none => g' = { g with closed := fd :: g.closed }
        | some i => ∃ n, g' = { g.give i n with closed := fd :: g.closed }
  | allocproc {g : Ghost P} {np : P} :
      Rule (.allocproc np) g fun ok g' => g' = if ok then { g with child := some (np, List.finRange NOFILE) } else g
  | filedup {g : Ghost P} {np : P} {fd : Fin NOFILE} {l : List (Fin NOFILE)} (hc : g.child = some (np, fd :: l)) :
      Rule (.filedup np fd) g fun _ g' => g' = { g with child := some (np, l) }
  | forkCwd {g : Ghost P} {np : P} {l : List (Fin NOFILE)} (hc : g.child = some (np, l)) (ht : g.taken = false)
      (hk : g.kid = none) : Rule (.forkCwd np) g fun _ g' => g' = { g with child := none }
  | exit {g : Ghost P} (hg : g = { Ghost.empty with taken := true, closed := g.closed, up := g.up })
      (hc : ∀ fd, fd ∈ g.closed) : Rule .exit g fun _ g' => g' = Ghost.empty
  /-- After a panic nothing happens. -/
  | panic {g : Ghost P} {x : FsPanic} (hx : x ≠ .ilockNoType) : Rule (.panic x) g fun _ _ => False

/-! ## The invariant -/

variable {P : Type} [DecidableEq P]

/-- The steps that go well: the `..` of a removed directory is not looked up, no name is written into one, and no count
of links overflows. Under `strict`, `ialloc` does not take a free inode that still has an entry in the inode table. -/
def FsCond (strict : Bool) (s : FsState P) (_ : P) : FsCmd P → Prop
  | .dirlookup dp name => namecmp name dotdot = true → 0 < (s.inode dp).nlink
  | .writeDirent dp _ de => de.inum ≠ 0 → 0 < (s.inode dp).nlink
  | .incLink ip => (s.inode ip).nlink < 2 ^ 15 - 1
  | .ialloc inum _ => strict = true → (s.ino inum).type = .free → ∀ i, (s.tab i).inum = inum → (s.tab i).ref = 0
  | _ => True

variable [Fintype P]

/-- **The invariant of the file system.** -/
structure FsInv (strict : Bool) (s : FsState P) (g : P → Ghost P) : Prop where
  refs : RefInv s g
  links : ∃ att, LinkInv strict s.ino g att (liveIno s g) (Cached s)
  quiet : s.panicked ≠ some .ilockNoType
  dead : strict = true → ∀ p i, (g p).dead = some i → (s.inode i).type = .free

section

variable {strict : Bool} {s s' : FsState P} {g : P → Ghost P} {p q : P} {x y : Ghost P} {i j : Fin NINODE} {n : Nat}
  {h : Held} {att : Nat → Bool} {V : Nat → Prop}

/-! ## References and locks -/

/-- The same references and locks, and the same for everything that is not about inodes. -/
structure Same (x y : Ghost P) : Prop where
  tok : x.tok = y.tok
  own : ∀ i, (x.own i).map Held.inum = (y.own i).map Held.inum
  dead : x.dead = y.dead
  taken : x.taken = y.taken
  child : x.child = y.child
  closed : x.closed = y.closed
  up : x.up = y.up

theorem Same.weight (h : Same x y) (s : FsState P) (p : P) (j : Fin NINODE) : weight s x p j = weight s y p j := by
  rw [Fs.weight, Fs.weight, h.tok, h.taken]

/-- What a process knows of two inodes it has locked changes. -/
theorem Ghost.set_hold_same {k kn : Held} (ho : y.own i = some k) (hj : y.own j = some kn) (hij : i ≠ j) (r : Inode)
    (b : Bool) : Same { (y.set i k r).hold j ⟨kn.inum, kn.ino, b⟩ with flux := none } y := by
  have hj' : (y.set i k r).own j = some kn := (update_of_ne (Ne.symm hij) _ _).trans hj
  have hset : ∀ c, ((y.set i k r).own c).map Held.inum = (y.own c).map Held.inum := LinkInv.own_map_update ho (by rfl)
  exact ⟨rfl, fun c => (LinkInv.own_map_update hj' (by rfl) c).trans (hset c), rfl, rfl, rfl, rfl, rfl⟩

/-- The references and locks are right whatever the process knows of inodes. -/
theorem RefInv.relabel (hr : RefInv s (update g p y)) (h : Same x y) : RefInv s (update g p x) := by
  have hself : update g p y p = y := update_self _ _ _
  have hidem : update (update g p y) p x = update g p x := update_idem _ _ _
  rw [← hidem]
  refine ⟨?_, ?_, hr.files, hr.procs.congr (fun _ _ => rfl) rfl rfl ?_ ?_ ?_⟩
  · apply hr.counts.move
    · exact fun _ _ => rfl
    · rfl
    · intro j
      rw [hself, h.weight]
    · rw [hself]
      exact h.dead
    · rw [h.tok]
      intro t ht
      exact hr.counts.tok p t (by rw [hself]; exact ht)
    · rw [h.taken]
      intro ht
      exact hr.counts.taken p (by rw [hself]; exact ht)
  · refine hr.locks.congr (fun _ => rfl) (fun _ _ _ _ => ⟨rfl, rfl⟩) (fun _ _ _ _ _ _ h1 h2 => ⟨h1, h2⟩) ?_ ?_
    · rw [hself]
      exact h.own
    · rw [hself, h.tok]
      exact fun _ ht _ => .inl ht
  · rw [hself]
    exact h.closed
  · rw [hself]
    exact h.up
  · rw [hself]
    exact h.child

theorem liveIno_relabel (h : Same x y) : liveIno s (update g p x) = liveIno s (update g p y) := by
  have hidem : update (update g p y) p x = update g p x := update_idem _ _ _
  funext m
  rw [← hidem]
  refine liveIno_same (fun _ _ => rfl) (fun _ => rfl) (fun j => ?_) m
  rw [update_self, h.weight]

/-- The contents of inodes and files do not matter for the references, nor does a panic. -/
theorem RefInv.frame (hr : RefInv s g) (ino : Nat → Inode) (data : Nat → List UInt8) (e : Option FsPanic) :
    RefInv { s with ino := ino, data := data, panicked := e } g :=
  ⟨⟨hr.counts.ref, hr.counts.uniq, hr.counts.tok, hr.counts.taken⟩, ⟨hr.locks.lock, hr.locks.own⟩,
    ⟨hr.files.ref, hr.files.ip⟩,
    ⟨hr.procs.idle, hr.procs.unused, hr.procs.closed, hr.procs.child, hr.procs.childOne⟩⟩

/-- An entry of which only `ref` is to be decremented is in use. -/
theorem RefInv.doomed_pos (hr : RefInv s g) (hd : (g p).dead = some i) : 0 < doomed g i ∧ 0 < (s.tab i).ref := by
  have h1 : (g p).deadAt i = 1 := if_pos hd
  have h2 := Finset.single_le_sum (f := fun q => (g q).deadAt i) (fun q _ => Nat.zero_le _) (Finset.mem_univ p)
  have h3 := hr.counts.ref i
  unfold doomed at h3 ⊢
  omega

theorem weight_cwd_pos (ht : (g p).taken = false) (hc : s.cwd p = some i) : 0 < weight s (g p) p i := by
  simp [weight, ht, hc]

theorem live_of_weight (hw : 0 < weight s (g p) p i) : 0 < live s g i := Nat.lt_of_lt_of_le hw (weight_le_live p i)

/-- An inode with a valid entry keeps it when entries in use keep their inode and stay valid. -/
theorem Cached.mono {m : Nat} (hc : Cached s m) (ht : ∀ j, (s.tab j).inum = m → 0 < (s.tab j).ref → (s.tab j).valid = true →
    (s'.tab j).inum = m ∧ 0 < (s'.tab j).ref ∧ (s'.tab j).valid = true) : Cached s' m := by
  obtain ⟨j, h1, h2, h3⟩ := hc
  exact ⟨j, ht j h1 h2 h3⟩

theorem KidOk.refs {ino : Nat → Inode} {L : Nat → Nat} {k : Kid} (hk : KidOk ino att L x k) :
    L k.inum = 0 ∨ L k.inum = 1 ∧ ∃ j, (j, k.inum) ∈ x.tok := by
  cases k with
  | fresh n t => exact .inl hk.2.2.1
  | born i n t | held i n | gone i n => exact .inr ⟨hk.2.2.2.1, i, hk.2.2.1⟩

/-- An inode to which a process has a reference is not a new one of another process. -/
theorem LinkInv.kid_ne_of_weight {ino : Nat → Inode} (hl : LinkInv strict ino g att (liveIno s g) V) (hr : RefInv s g)
    (hw : 0 < weight s (g p) p i) (hq : q ≠ p) {k : Kid} (hk : (g q).kid = some k) : k.inum ≠ (s.tab i).inum := by
  intro he
  have hlive := live_of_weight hw
  have hL := hr.liveIno_pos hlive
  rcases ((hl.part q).kid k hk).refs with h0 | ⟨h1, j, hj⟩
  · rw [he] at h0
    omega
  · rw [he] at h1 hj
    have hji : j = i := by
      refine hr.counts.uniq j i ?_ ?_ ?_
      · exact Nat.lt_of_lt_of_le (RefInv.live_of_tok hj) (hr.live_le j)
      · exact Nat.lt_of_lt_of_le hlive (hr.live_le i)
      · exact hr.counts.tok q _ hj
    subst hji
    have h2 := weight_pos_of_tok (s := s) hj
    have h3 := weight_add_le_live (s := s) (g := g) hq j
    omega

/-- An inode to which a process has a reference is allocated. -/
theorem LinkInv.alloc_of_weight {ino : Nat → Inode} (hl : LinkInv strict ino g att (liveIno s g) V) (hr : RefInv s g)
    (hw : 0 < weight s (g p) p i) : 0 < liveIno s g (s.tab i).inum ∧ (ino (s.tab i).inum).type ≠ .free := by
  have hlive := live_of_weight hw
  have hL := hr.liveIno_pos hlive
  have hpos : 0 < liveIno s g (s.tab i).inum := by omega
  exact ⟨hpos, (hl.node _).alloc hpos⟩

end

end Xv6.Fs
