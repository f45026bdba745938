import Mathlib.Logic.Function.Basic
import Xv6.Lib.Bytes
import Xv6.Lib.Chain
import Xv6.Lib.Index
import Xv6.Lib.Runs

/-!
# Physical pages

`kalloc.c`. The list of free pages runs through the first eight bytes of the pages themselves: it is intact as long as
nobody writes to a page that is not theirs. A step is what a call of `kalloc` or `kfree` does before, under and after
`kmem.lock`; between the steps of a call other processes run, and write to the pages they have.

- `kinit_list`: `kinit` puts every page on the list once;
- `pages_conserved`: in every run, each page is in one place: on the list, with a caller, or with one call;
- `pool_refined`: the callers see a pool of pages that keep what is written to them.
-/

namespace Xv6.Kalloc

open Lib
open Function (update update_self update_of_ne)

/-! ## The functions -/

abbrev PGSIZE : Nat := 4096
abbrev PHYSTOP : Nat := 0x88000000

/-- `PGROUNDUP(sz)`. -/
def PGROUNDUP (sz : Nat) : Nat := (sz + PGSIZE - 1) % 2 ^ 64 / PGSIZE * PGSIZE

/-- `memset(dst, c, n)`. -/
def memset (m : Bytes) (dst : Nat) (c : Byte) (n : Nat) : Bytes := splice m dst n fun _ => c

/-- The memory, and `kmem.freelist`. -/
structure Kmem where
  mem : Bytes
  freelist : Nat

/-- `r->next = kmem.freelist; kmem.freelist = r;` -/
def Kmem.push (k : Kmem) (r : Nat) : Kmem := ⟨put64 k.mem r (BitVec.ofNat 64 k.freelist), r⟩

/-- `r = kmem.freelist; if(r) kmem.freelist = r->next;` -/
def Kmem.pop (k : Kmem) : Kmem := if k.freelist ≠ 0 then ⟨k.mem, (get64 k.mem k.freelist).toNat⟩ else k

variable (kend : Nat)

/-- The test of `kfree`; `kend` is the end of the kernel. -/
def bad (pa : Nat) : Bool := pa % PGSIZE != 0 || decide (pa < kend) || decide (PHYSTOP ≤ pa)

/-- `kfree(pa)` of one processor alone, `none` if it panics. -/
def kfree (pa : Nat) (k : Kmem) : Option Kmem :=
  if bad kend pa then none else some (Kmem.push ⟨memset k.mem pa 1 PGSIZE, k.freelist⟩ pa)

/-- `for(; p + PGSIZE <= (char*)pa_end; p += PGSIZE) kfree(p);` -/
def freePages (pa_end p : Nat) (k : Kmem) : Option Kmem :=
  if p + PGSIZE ≤ pa_end then (kfree kend p k).bind (freePages pa_end (p + PGSIZE)) else some k
termination_by pa_end - p
decreasing_by
  have : PGSIZE = 4096 := rfl
  omega

/-- `freerange(pa_start, pa_end)`. -/
def freerange (pa_start pa_end : Nat) (k : Kmem) : Option Kmem := freePages kend pa_end (PGROUNDUP pa_start) k

/-- `kinit()`. -/
def kinit (mem : Bytes) : Option Kmem := freerange kend kend PHYSTOP ⟨mem, 0⟩

/-! ## The list -/

/-- A pointer, `none` if it is null. -/
def ptr (v : Nat) : Option Nat := if v = 0 then none else some v

/-- `r->next`. -/
def next (m : Bytes) (r : Nat) : Option Nat := ptr (get64 m r).toNat

variable {kend} {m m' : Bytes} {l : List Nat} {h : Option Nat} {r pa f : Nat}

theorem bad_iff : bad kend pa = false ↔ pa % 4096 = 0 ∧ kend ≤ pa ∧ pa < 0x88000000 := by
  simp [bad, and_assoc]

/-- The list depends on the first bytes of its pages only. -/
theorem list_congr (hc : Chain (next m) h l) (hm : ∀ r ∈ l, Agree m' m r 8) : Chain (next m') h l :=
  hc.congr fun r hr => by rw [next, next, get64_congr (hm r hr)]

/-- Filling another page. -/
theorem list_memset (hc : Chain (next m) h l) (hl : ∀ r ∈ l, bad kend r = false) (hpa : bad kend pa = false) (hn : pa ∉ l)
    (c : Byte) : Chain (next (memset m pa c PGSIZE)) h l := by
  refine list_congr hc fun r hr => agree_splice (n := 4096) _ ?_
  have h1 := bad_iff.mp (hl r hr)
  have h2 := bad_iff.mp hpa
  have hne : r ≠ pa := fun e => hn (e ▸ hr)
  omega

/-- The first page fits in a pointer. -/
theorem freelist_lt (hc : Chain (next m) (ptr f) l) (hl : ∀ r ∈ l, bad kend r = false) : f < 2 ^ 64 := by
  have hh := hc.head_eq
  cases l with
  | nil =>
    unfold ptr at hh
    split at hh
    · omega
    · cases hh
  | cons a l =>
    unfold ptr at hh
    split at hh
    · omega
    · cases hh
      have := bad_iff.mp (hl f List.mem_cons_self)
      omega

theorem list_push (hc : Chain (next m) (ptr f) l) (hl : ∀ r ∈ l, bad kend r = false) (hpa : bad kend pa = false)
    (h0 : pa ≠ 0) (hn : pa ∉ l) : Chain (next (Kmem.push ⟨m, f⟩ pa).mem) (ptr pa) (pa :: l) := by
  have hf : next (Kmem.push ⟨m, f⟩ pa).mem pa = ptr f := by
    rw [next, Kmem.push, get64_put64, BitVec.toNat_ofNat, Nat.mod_eq_of_lt (freelist_lt hc hl)]
  rw [show ptr pa = some pa from if_neg h0]
  refine .cons ?_
  rw [hf]
  refine list_congr hc fun r hr => agree_splice _ ?_
  have h1 := bad_iff.mp (hl r hr)
  have h2 := bad_iff.mp hpa
  have hne : r ≠ pa := fun e => hn (e ▸ hr)
  omega

theorem freePages_spec (h0 : 0 < kend) (hp : pa % 4096 = 0) (hlo : kend ≤ pa) (hc : Chain (next m) (ptr f) l)
    (hl : ∀ r, r ∈ l ↔ bad kend r = false ∧ r < pa) : ∃ k l', freePages kend PHYSTOP pa ⟨m, f⟩ = some k ∧
      Chain (next k.mem) (ptr k.freelist) l' ∧ ∀ r, r ∈ l' ↔ bad kend r = false := by
  induction hn : PHYSTOP - pa using Nat.strongRecOn generalizing pa m f l with
  | _ n ih =>
    have hP : PHYSTOP = 0x88000000 := rfl
    have hG : PGSIZE = 4096 := rfl
    rw [freePages]
    split
    · next hle =>
      have hpa : bad kend pa = false := bad_iff.mpr ⟨hp, hlo, by omega⟩
      have hmem : ∀ r ∈ l, bad kend r = false := fun r hr => ((hl r).mp hr).1
      have hnot : pa ∉ l := fun hr => Nat.lt_irrefl pa ((hl pa).mp hr).2
      have hc' := list_push (list_memset hc hmem hpa hnot 1) hmem hpa (by omega) hnot
      rw [kfree, hpa, if_neg Bool.false_ne_true, Option.bind_some]
      refine ih _ (by omega) (by omega) (by omega) hc' (fun r => ?_) rfl
      rw [List.mem_cons, hl]
      constructor
      · rintro (rfl | ⟨h1, h2⟩)
        · exact ⟨hpa, by omega⟩
        · exact ⟨h1, by omega⟩
      · rintro ⟨h1, h2⟩
        have := bad_iff.mp h1
        by_cases he : r = pa
        · exact .inl he
        · exact .inr ⟨h1, by omega⟩
    · next hle =>
      refine ⟨_, l, rfl, hc, fun r => ?_⟩
      rw [hl]
      refine ⟨And.left, fun h1 => ⟨h1, ?_⟩⟩
      have := bad_iff.mp h1
      omega

/-- `kinit` puts every page on the list, and does not panic. -/
theorem kinit_ok (h0 : 0 < kend) (hend : kend ≤ PHYSTOP) (mem : Bytes) : ∃ k l, kinit kend mem = some k ∧
    Chain (next k.mem) (ptr k.freelist) l ∧ ∀ pa, pa ∈ l ↔ bad kend pa = false := by
  have hup : kend ≤ PGROUNDUP kend ∧ PGROUNDUP kend < kend + 4096 ∧ PGROUNDUP kend % 4096 = 0 := by
    have hP : PHYSTOP = 0x88000000 := rfl
    have hmod : (kend + 4096 - 1) % 2 ^ 64 = kend + 4095 := Nat.mod_eq_of_lt (by omega)
    simp only [PGROUNDUP, PGSIZE, hmod]
    omega
  exact freePages_spec (l := []) (f := 0) (m := mem) h0 hup.2.2 hup.1 .nil fun r => by
    simp only [List.not_mem_nil, false_iff]
    rintro ⟨h1, h2⟩
    have := bad_iff.mp h1
    omega

/-! ## Calls of many processes -/

/-- Where a process is in a call: before the lock in `kfree`, after it in `kalloc`. -/
inductive Pc
  | idle
  | freeing (pa : Nat)
  | taking (r : Nat)
  deriving DecidableEq

def Pc.page : Pc → Option Nat
  | .idle => none
  | .freeing pa | .taking pa => some pa

/-- `held` are the pages that `kalloc` has returned and nobody has given to `kfree`. -/
structure State (P : Type) where
  kmem : Kmem
  pc : P → Pc
  held : Nat → Bool
  panicked : Bool

inductive Act (P : Type)
  /-- `kfree(pa)`, up to the lock. -/
  | kfree (p : P) (pa : Nat)
  /-- The rest of `kfree`. -/
  | insert (p : P)
  /-- `kalloc()`, up to the release of the lock. -/
  | kalloc (p : P)
  /-- The rest of `kalloc`, if there is a page. -/
  | fill (p : P)
  /-- Somebody writes to memory. -/
  | store (a : Nat) (v : Byte)

variable {P : Type} [DecidableEq P]

variable (kend) in
def step (s : State P) : Act P → Option (State P)
  | .kfree p pa =>
    if s.pc p = .idle then
      if bad kend pa then some { s with panicked := true }
      else some { s with kmem := ⟨memset s.kmem.mem pa 1 PGSIZE, s.kmem.freelist⟩, pc := update s.pc p (.freeing pa),
                         held := update s.held pa false }
    else none
  | .insert p =>
    match s.pc p with
    | .freeing pa => some { s with kmem := s.kmem.push pa, pc := update s.pc p .idle }
    | _ => none
  | .kalloc p =>
    if s.pc p = .idle then
      some { s with kmem := s.kmem.pop, pc := if s.kmem.freelist ≠ 0 then update s.pc p (.taking s.kmem.freelist) else s.pc }
    else none
  | .fill p =>
    match s.pc p with
    | .taking r => some { s with kmem := ⟨memset s.kmem.mem r 5 PGSIZE, s.kmem.freelist⟩, pc := update s.pc p .idle,
                                 held := update s.held r true }
    | _ => none
  | .store a v => some { s with kmem := ⟨update s.kmem.mem a v, s.kmem.freelist⟩ }

/-- The page that an address is in. -/
def pageOf (a : Nat) : Nat := a / PGSIZE * PGSIZE

variable (kend) in
/-- Only pages that `kalloc` returned are freed and written to; other memory is written to freely. -/
def Contract (s : State P) : Act P → Prop
  | .kfree _ pa => s.held pa = true
  | .store a _ => bad kend (pageOf a) = true ∨ s.held (pageOf a) = true
  | _ => True

variable (kend) in
/-- A run after `kinit`. -/
def Reachable (s : State P) : Prop :=
  ∃ mem k, kinit kend mem = some k ∧ Lib.Runs (step kend) (Contract kend) ⟨k, fun _ => .idle, fun _ => false, false⟩ s

/-- Where a page is. -/
inductive Where (P : Type)
  | free
  | held
  | busy (p : P)

def At (s : State P) (l : List Nat) (pa : Nat) : Where P → Prop
  | .free => pa ∈ l
  | .held => s.held pa = true
  | .busy p => (s.pc p).page = some pa

variable (kend) in
/-- **The invariant**: `w` says where each page is. -/
structure Inv (s : State P) (l : List Nat) (w : Nat → Where P) : Prop where
  chain : Chain (next s.kmem.mem) (ptr s.kmem.freelist) l
  place : ∀ pa x, At s l pa x ↔ bad kend pa = false ∧ w pa = x
  quiet : s.panicked = false

variable {s s' : State P} {w : Nat → Where P} {a : Act P} {p : P}

/-! ## A pool of pages -/

/-- The pages that callers have, with what is in them. -/
abbrev Pool := Nat → Option (Fin PGSIZE → Byte)

def State.pool (s : State P) : Pool := fun pa => if s.held pa then some fun i => s.kmem.mem (pa + i) else none

variable (kend) in
/-- What callers can do: get a new page full of 5s, give one back, and write to one. -/
inductive PoolStep : Pool → Pool → Prop
  | alloc {m : Pool} {pa : Nat} (hp : bad kend pa = false) (h : m pa = none) : PoolStep m (update m pa (some fun _ => 5))
  | free {m : Pool} {pa : Nat} {c : Fin PGSIZE → Byte} (h : m pa = some c) : PoolStep m (update m pa none)
  | store {m : Pool} {pa : Nat} {c : Fin PGSIZE → Byte} (i : Fin PGSIZE) (v : Byte) (h : m pa = some c) :
    PoolStep m (update m pa (some (update c i v)))

theorem pool_at (hh : s'.held pa = s.held pa) (hm : s.held pa = true → Agree s'.kmem.mem s.kmem.mem pa 4096) :
    s'.pool pa = s.pool pa := by
  unfold State.pool
  rw [hh]
  split
  · next h =>
    congr 1
    funext i
    exact hm h _ (Nat.le_add_right pa i) (Nat.add_lt_add_left i.isLt pa)
  · rfl

namespace Inv

variable (hi : Inv kend s l w)
include hi

theorem page_of_mem : ∀ r ∈ l, bad kend r = false := fun r hr => ((hi.place r .free).mp hr).1

/-- A page is in no other place. -/
theorem not_at {x y : Where P} (h : At s l pa x) (hxy : x ≠ y) : ¬At s l pa y := fun h' =>
  hxy (((hi.place pa x).mp h).2.symm.trans ((hi.place pa y).mp h').2)

/-- A call takes a page into its hands, or gives it away. -/
theorem move {c : Pc} {x y : Where P} {l' : List Nat} (hx : At s l pa x) (hpc : s'.pc = update s.pc p c)
    (h : (s.pc p).page = none ∧ c.page = some pa ∧ (∀ q, x ≠ .busy q) ∧ y = .busy p ∨
      x = .busy p ∧ c.page = none ∧ ∀ q, y ≠ .busy q)
    (hl : ∀ r ≠ pa, r ∈ l' ↔ r ∈ l) (hheld : ∀ r ≠ pa, s'.held r = s.held r) (hf : pa ∈ l' ↔ y = .free)
    (hh : s'.held pa = true ↔ y = .held) : ∀ pa' z, At s' l' pa' z ↔ bad kend pa' = false ∧ update w pa y pa' = z := by
  intro pa' z
  have h1 := hi.place pa' z
  have h2 := hi.place pa z
  have h3 := (hi.place pa x).mp hx
  cases z <;> simp only [At, hpc, Function.update_apply] at * <;> grind [At]

/-- What is done to one page does not touch the others. -/
theorem apart (hpa : bad kend pa = false) (hr : s.held r = true) (hne : r ≠ pa) {n : Nat}
    (hn : n ≤ 4096) (src : Bytes) : Agree (splice m pa n src) m r 4096 := by
  have h1 := bad_iff.mp hpa
  have h2 := bad_iff.mp ((hi.place r .held).mp hr).1
  exact agree_splice src (by omega)

/-- Each step keeps the invariant, and is a step of the pool or cannot be seen there. -/
theorem step_ok (h0 : 0 < kend) (hg : Contract kend s a) (hs : step kend s a = some s') :
    (∃ l' w', Inv kend s' l' w') ∧ (s'.pool = s.pool ∨ PoolStep kend s.pool s'.pool) := by
  have hmem := hi.page_of_mem
  cases a with
  | kfree p pa =>
    have hpa := ((hi.place pa .held).mp hg).1
    have hnot : pa ∉ l := hi.not_at (x := .held) (y := .free) hg (by simp)
    have he : s.pool pa = some fun (i : Fin PGSIZE) => s.kmem.mem (pa + i) := if_pos hg
    simp only [step, hpa] at hs
    split at hs
    · next hidle =>
      cases hs
      have hpc : (s.pc p).page = none := by rw [hidle]; rfl
      refine ⟨⟨l, _, list_memset hi.chain hmem hpa hnot 1, hi.move (x := .held) hg rfl (.inl ⟨hpc, rfl, by simp, rfl⟩)
        (fun _ _ => Iff.rfl) (fun r hr => update_of_ne hr _ _) (by simpa using hnot) (by simp), hi.quiet⟩, .inr ?_⟩
      convert PoolStep.free he using 1
      funext r
      by_cases hr : r = pa
      · simp [hr, State.pool]
      · rw [update_of_ne hr]
        exact pool_at (update_of_ne hr _ _) fun h => hi.apart hpa h hr (Nat.le_refl PGSIZE) fun _ => 1
    · cases hs
  | insert p =>
    simp only [step] at hs
    split at hs
    · next pa hpc =>
      cases hs
      have hp : At s l pa (.busy p) := by rw [At, hpc]; rfl
      have hpa := ((hi.place pa _).mp hp).1
      have := bad_iff.mp hpa
      have hheld : ¬s.held pa = true := hi.not_at (y := .held) hp (by simp)
      refine ⟨⟨pa :: l, _, list_push hi.chain hmem hpa (by omega) (hi.not_at (y := .free) hp (by simp)),
        hi.move (y := .free) hp rfl (.inr ⟨rfl, rfl, by simp⟩) (fun r hr => by simp [hr]) (fun _ _ => rfl) (by simp)
          (by simpa using hheld), hi.quiet⟩, .inl (funext fun r => pool_at rfl fun h => hi.apart hpa h ?_ (by omega) _)⟩
      rintro rfl
      exact hheld h
    · cases hs
  | kalloc p =>
    simp only [step, Kmem.pop] at hs
    split at hs
    · next hidle =>
      split at hs
      · next hf =>
        cases hs
        have hc := hi.chain
        rw [show ptr s.kmem.freelist = some s.kmem.freelist from if_neg hf] at hc
        obtain ⟨t, rfl, ht⟩ := Chain.some_iff.mp hc
        have hpc : (s.pc p).page = none := by rw [hidle]; rfl
        have hfirst : At s (s.kmem.freelist :: t) s.kmem.freelist .free := List.mem_cons_self
        have hheld : ¬s.held s.kmem.freelist = true := hi.not_at (y := .held) hfirst (by simp)
        exact ⟨⟨t, _, ht, hi.move hfirst rfl (.inl ⟨hpc, rfl, by simp, rfl⟩) (fun r hr => by simp [hr]) (fun _ _ => rfl)
          (by simpa using (List.nodup_cons.mp hc.nodup).1) (by simpa using hheld), hi.quiet⟩, .inl rfl⟩
      · cases hs
        exact ⟨⟨l, w, hi.chain, hi.place, hi.quiet⟩, .inl rfl⟩
    · cases hs
  | fill p =>
    simp only [step] at hs
    split at hs
    · next r hpc =>
      cases hs
      have hp : At s l r (.busy p) := by rw [At, hpc]; rfl
      have hpa := ((hi.place r _).mp hp).1
      have hnot : r ∉ l := hi.not_at (y := .free) hp (by simp)
      have hheld : ¬s.held r = true := hi.not_at (y := .held) hp (by simp)
      refine ⟨⟨l, _, list_memset hi.chain hmem hpa hnot 5, hi.move (y := .held) hp rfl (.inr ⟨rfl, rfl, by simp⟩)
        (fun _ _ => Iff.rfl) (fun r' hr => update_of_ne hr _ _) (by simpa using hnot) (by simp), hi.quiet⟩, .inr ?_⟩
      convert PoolStep.alloc hpa (show s.pool r = none from if_neg hheld) using 1
      funext r'
      by_cases hr : r' = r
      · simp [hr, State.pool, memset, splice]
      · rw [update_of_ne hr]
        exact pool_at (update_of_ne hr _ _) fun h => hi.apart hpa h hr (Nat.le_refl PGSIZE) fun _ => 5
    · cases hs
  | store a v =>
    cases hs
    -- a page with the byte is the page of the address
    have hpage : ∀ r, bad kend r = false → r ≤ a → a < r + 4096 → pageOf a = r := by
      intro r hr h1 h2
      have := bad_iff.mp hr
      simp only [pageOf, PGSIZE]
      omega
    have hother : ∀ r, s.held r = true → r ≠ pageOf a → Agree (update s.kmem.mem a v) s.kmem.mem r 4096 := by
      intro r hr hne j h1 h2
      refine update_of_ne ?_ _ _
      rintro rfl
      exact hne (hpage r ((hi.place r .held).mp hr).1 h1 h2).symm
    refine ⟨⟨l, w, list_congr hi.chain fun r hr j h1 h2 => update_of_ne ?_ _ _, hi.place, hi.quiet⟩, ?_⟩
    · rintro rfl
      have he := hpage r (hmem r hr) h1 (by omega)
      rcases hg with hg | hg
      · rw [he, hmem r hr] at hg
        cases hg
      · rw [he] at hg
        exact hi.not_at (x := .held) (y := .free) hg (by simp) hr
    · by_cases hheld : s.held (pageOf a) = true
      · have he : s.pool (pageOf a) = some fun (i : Fin PGSIZE) => s.kmem.mem (pageOf a + i) := if_pos hheld
        have hlt : a - pageOf a < PGSIZE := by
          simp only [pageOf, PGSIZE]
          omega
        right
        convert PoolStep.store ⟨a - pageOf a, hlt⟩ v he using 1
        funext r
        by_cases hr : r = pageOf a
        · have hle : pageOf a ≤ a := Nat.div_mul_le_self a PGSIZE
          rw [hr, update_self, State.pool, if_pos hheld]
          congr 1
          funext i
          have hiff : pageOf a + i = a ↔ i = ⟨a - pageOf a, hlt⟩ := by
            rw [Fin.ext_iff]
            dsimp only
            omega
          simp only [Function.update_apply, hiff]
        · rw [update_of_ne hr]
          exact pool_at rfl fun h => hother r h hr
      · exact .inl (funext fun r => pool_at rfl fun h => hother r h fun e => hheld (e ▸ h))

end Inv

/-! ## All runs -/

theorem Reachable.ok (h0 : 0 < kend) (hend : kend ≤ PHYSTOP) (h : Reachable kend s) :
    (∃ l w, Inv kend s l w) ∧ Relation.ReflTransGen (PoolStep kend) (fun _ => none) s.pool := by
  obtain ⟨mem, k, hk, hr⟩ := h
  refine hr.invariant (I := fun s => (∃ l w, Inv kend s l w) ∧ Relation.ReflTransGen (PoolStep kend) (fun _ => none) s.pool)
    ⟨?_, .refl⟩ ?_
  · obtain ⟨k', l, hk', hc, hl⟩ := kinit_ok h0 hend mem
    cases hk.symm.trans hk'
    refine ⟨l, fun _ => .free, hc, fun pa x => ?_, rfl⟩
    cases x <;> simp [At, Pc.page, hl]
  · rintro t t' a ⟨⟨l, w, hi⟩, ht⟩ hg hs
    obtain ⟨hi', he | hp⟩ := hi.step_ok h0 hg hs
    · exact ⟨hi', he ▸ ht⟩
    · exact ⟨hi', ht.tail hp⟩

end Xv6.Kalloc
