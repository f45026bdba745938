import Xv6.Fs.Calls

/-!
# Lookup and link counts

The file system from an image of `mkfs` on: every call meets its precondition (`FsCall.spec`), and the image satisfies
the invariant (`FsInit.inv`), so the invariant holds in every reachable configuration (`FsReachable.good`).

- `lookup_allocated`: no process comes to lock a free inode, if nobody looks up the `..` of a removed directory or
  writes a name into one;
- `link_counts_exact`: with no call in progress, the link counts are exact and no inode is leaked, if moreover `ialloc`
  does not take an inode that still has an entry in the inode table.

The conditions are needed: `lookup_reaches_free_inode` and `removed_directory_leaks_inode` are runs without them.
-/

namespace Xv6.Fs

open Lib (Prog Machine Logic)

variable {P : Type} [DecidableEq P] [Fintype P] {strict : Bool} {s s' : FsState P} {g : P → Ghost P} {p initproc : P}
  {x : Ghost P} {i : Fin NINODE} {n : Nat}

/-! ## Every call keeps the invariant -/

/-- A process that is in no call. -/
def Idle (x : Ghost P) : Prop := x = { Ghost.empty with closed := x.closed, up := x.up }

theorem Idle.ready (hx : Idle x) : Ready x := by
  rw [hx]
  exact ⟨rfl, rfl, rfl, rfl, fun _ => Multiset.notMem_zero _⟩

theorem FsCall.spec (c : FsCall P) (init : Bool) (hx : Idle x) (hu : x.up = true) :
    wp strict p (c.prog init) x fun _ x' => Idle x' := by
  have hr := hx.ready
  have hp : x.pend = 0 := by rw [hx]; rfl
  have ht : x.taken = false := by rw [hx]; rfl
  cases c with
  | «open» path omode => exact wp_bind (sysOpen_spec hr hp ht hu hx fun _ => by rw [hx]; rfl)
  | mkdir path | mknod path major => exact wp_bind (make_spec hr hp ht nofun fun _ => hx)
  | link old new => exact wp_bind (sysLink_spec hr hp ht fun _ => hx)
  | unlink path => exact wp_bind (sysUnlink_spec hr hp ht fun _ => hx)
  | chdir path => exact wp_bind (sysChdir_spec hr ht fun _ => hx)
  | exec path => exact kexec_spec hr ht hx
  | close fd => exact sysClose_spec hr hu (by rw [hx]; rfl)
  | fork np => exact wp_bind (kfork_spec hr ht (by rw [hx]; rfl) fun _ => hx)
  | exit => exact kexit_spec (by rw [← hu]; exact hx) rfl

theorem calls_start : (fsLogic P strict).Starts (Calls initproc) := by
  rintro s g p f h hidle ⟨hrun, c, rfl⟩
  refine ⟨{ g p with up := true }, ?_, ?_⟩
  · exact FsInv.keep h (h.refs.start hrun) rfl rfl (fun _ _ => rfl) rfl (fun _ => rfl) rfl rfl rfl rfl rfl
      (.inr fun _ ht => ht)
  · refine c.spec _ ?_ rfl
    rw [Idle, hidle]

/-! ## The image -/

namespace FsInit

/-- Nobody is in a call. -/
abbrev idle (P : Type) : P → Ghost P := fun _ => Ghost.empty

/-- The only reference is the current directory of the first process. -/
theorem live_eq (hi : FsInit initproc s) (i : Fin NINODE) : live s (idle P) i = if i = 0 then 1 else 0 := by
  have hw : ∀ p, weight s Ghost.empty p i = if p = initproc then if i = 0 then 1 else 0 else 0 := by
    intro p
    rw [weight, hi.cwd p]
    by_cases hp : p = initproc
    · simp [hp, Ghost.empty, eq_comm]
    · simp [hp, Ghost.empty]
  have hf : files s i = 0 := by
    refine Finset.card_eq_zero.mpr (Finset.filter_eq_empty_iff.mpr fun f _ => ?_)
    rw [hi.file f]
    exact Option.some_ne_none i |>.symm
  have hsum : ∑ p, weight s Ghost.empty p i = if i = 0 then 1 else 0 := by
    rw [Finset.sum_congr rfl fun p _ => hw p]
    simp
  rw [live, hf, hsum]
  rfl

theorem refs (hi : FsInit initproc s) : RefInv s (idle P) := by
  have hd : ∀ i, doomed (idle P) i = 0 := fun i => Finset.sum_eq_zero fun _ _ => rfl
  have hpos : ∀ i, 0 < (s.tab i).ref → i = 0 := by
    intro i h
    by_contra hne
    have := (hi.tab.2 i hne).1
    omega
  refine ⟨⟨fun i => ?_, fun i j hi' hj _ => ?_, fun p t ht => ?_, fun p ht => ?_⟩, ⟨fun i p => ?_, nofun⟩,
    ⟨fun f => ?_, fun f _ => ?_⟩, ⟨fun p hp => ?_, fun p _ fd => hi.ofile p fd, nofun, nofun, nofun⟩⟩
  · rw [hi.live_eq, hd]
    by_cases h0 : i = 0
    · rw [h0, hi.tab.1, if_pos rfl]
    · rw [(hi.tab.2 i h0).1, if_neg h0]
  · rw [hpos i hi', hpos j hj]
  · exact absurd ht (Multiset.notMem_zero t)
  · cases ht
  · have hlock : (s.tab i).lock = none := by
      by_cases h0 : i = 0
      · rw [h0, hi.tab.1]
      · exact (hi.tab.2 i h0).2
    rw [hlock]
    exact ⟨nofun, nofun⟩
  · rw [hi.file f]
    symm
    refine Finset.sum_eq_zero fun p _ => Finset.card_eq_zero.mpr (Finset.filter_eq_empty_iff.mpr fun fd _ => ?_)
    rw [hi.ofile p fd]
    exact Option.some_ne_none f |>.symm
  · rw [hi.file f]
  · refine ⟨?_, rfl, rfl⟩
    rw [hi.cwd p, if_neg]
    rintro rfl
    exact hp (by rw [hi.proc, if_pos rfl])

end FsInit

namespace MkfsImage

variable {ino : Nat → Inode}

/-- The root directory is attached to itself, and there is no other. -/
def att (n : Nat) : Bool := n == ROOTINO

variable (hm : MkfsImage ino)
include hm

theorem ents_eq {m : Nat} (hne : m ≠ ROOTINO) : (ino m).ents = [] ∧ (ino m).type ≠ .dir := by
  rcases hm.file m hne with h | ⟨h, -⟩ <;> rw [h] <;> exact ⟨rfl, nofun⟩

/-- Every name is that of a file. -/
theorem real_eq_zero (hn : (ino n).type ≠ .file) : real ino n = 0 := by
  obtain ⟨rest, hroot, hrest⟩ := hm.root
  rw [real_single (by decide) (fun d hd => (hm.ents_eq hd).1), hroot]
  refine List.countP_eq_zero.mpr fun e he hname => ?_
  obtain ⟨rfl, h0, hre⟩ := Dirent.names_iff.mp hname
  rcases List.mem_cons.mp he with rfl | he
  · cases hre
  · rcases List.mem_cons.mp he with rfl | he
    · cases hre
    · exact hn (hrest e he h0).1

/-- Every file has one name. -/
theorem real_eq_one (hn : 1 < n) (hc : (ino ROOTINO).ents.countP (fun e => e.inum == n) = 1) : real ino n = 1 := by
  obtain ⟨rest, hroot, hrest⟩ := hm.root
  have h1 : (ROOTINO == n) = false := beq_eq_false_iff_ne.mpr (Nat.ne_of_lt hn)
  rw [real_single (by decide) (fun d hd => (hm.ents_eq hd).1)]
  rw [hroot] at hc ⊢
  simp only [List.countP_cons, h1] at hc
  have hrest' : nameCount rest n = rest.countP fun e => e.inum == n := by
    refine List.countP_congr fun e he => ?_
    rw [Dirent.names_iff, beq_iff_eq]
    refine ⟨fun h => h.1, fun h => ?_⟩
    have h0 : e.inum ≠ 0 := by omega
    obtain ⟨-, h2, h3⟩ := hrest e he h0
    exact ⟨h, h0, by simp [isReal, h2, h3]⟩
  have hnames : nameCount (⟨ROOTINO, dot⟩ :: ⟨ROOTINO, dotdot⟩ :: rest) n = nameCount rest n := by
    simp [nameCount, List.countP_cons, Dirent.names, isReal, namecmp]
  rw [hnames, hrest']
  simpa using hc

theorem tree {F : Nat → Bool → Prop} : TreeInv ino att F := by
  obtain ⟨rest, hroot, hrest⟩ := hm.root
  have hatt : ∀ d, att d = true → d = ROOTINO := fun d h => eq_of_beq h
  have hpar : parentOf (ino ROOTINO) = some ROOTINO := by
    rw [hroot]
    rfl
  have hreal : real ino ROOTINO = 0 := hm.real_eq_zero (by rw [hroot]; exact nofun)
  have hdir : ∀ d, (ino d).type = .dir → d = ROOTINO := fun d hd => by
    by_contra hne
    exact (hm.ents_eq hne).2 hd
  constructor
  · intro n hn
    by_cases hne : n = ROOTINO
    · rw [hne]
      decide
    · rcases hm.file n hne with h | ⟨-, h1, h2, -⟩
      · rw [h] at hn
        exact absurd rfl hn
      · omega
  · intro n hn
    by_cases hne : n = ROOTINO
    · rw [hne, hroot] at hn
      exact absurd rfl hn
    · exact (hm.ents_eq hne).1
  · exact ⟨rfl, hpar, hreal⟩
  · intro d hd
    rw [hatt d hd, hroot]
    refine ⟨rfl, ROOTINO, rest, rfl, by decide, by decide, fun e he h0 => ?_⟩
    obtain ⟨-, h2, h3⟩ := hrest e he h0
    simp [isReal, h2, h3]
  · intro d e he h0 hre ht
    by_cases hne : d = ROOTINO
    · rw [hne, hroot] at he
      rcases List.mem_cons.mp he with rfl | he
      · cases hre
      · rcases List.mem_cons.mp he with rfl | he
        · cases hre
        · rw [(hrest e he h0).1] at ht
          cases ht
    · rw [(hm.ents_eq hne).1] at he
      cases he
  · intro n hn
    rw [hdir n hn, hreal]
    exact Nat.zero_le 1
  · exact fun n hn => .inl (hatt n hn)
  · intro d m hd hm
    rw [hatt d hd, hpar] at hm
    cases hm
    rfl
  · intro d hd e he
    have hne : d ≠ ROOTINO := by
      rintro rfl
      cases hd
    rw [(hm.ents_eq hne).1] at he
    cases he

theorem node {L : Nat → Nat} {V : Nat → Prop} (hL : ∀ m, 0 < L m → m = ROOTINO) (n : Nat) :
    Node strict ino (FsInit.idle P) att L V n := by
  have hpend : pending (FsInit.idle P) n = 0 := Finset.sum_eq_zero fun _ _ => rfl
  have hup : up ino att n = upAt ino att ROOTINO n := up_single (by decide) (fun d h => eq_of_beq h) n
  by_cases hne : n = ROOTINO
  · subst hne
    obtain ⟨rest, hroot, -⟩ := hm.root
    have hreal : real ino ROOTINO = 0 := hm.tree (F := fun _ _ => False).root.2.2
    have hup1 : upAt ino att ROOTINO ROOTINO = 1 := by
      rw [upAt, hroot]
      rfl
    constructor
    · rw [hroot]
      exact fun h => by cases h
    · rw [hroot]
      exact fun _ h => by cases h
    · rw [hroot, hreal, hup, hup1, hpend]
      rfl
    · rw [hroot]
      show (1 : Int) < 2 ^ 15
      decide
    · intro _
      exact .inl (hm.tree (F := fun _ _ => False).attDir ROOTINO rfl).2
    · rw [hroot]
      exact fun _ _ h => by cases h
  · have hup0 : upAt ino att ROOTINO n = 0 := by
      obtain ⟨rest, hroot, -⟩ := hm.root
      refine if_neg fun hc => hne ?_
      rw [hroot] at hc
      exact (Option.some.inj hc.2).symm
    have hLn : L n = 0 := by
      by_contra hn
      exact hne (hL n (by omega))
    rcases hm.file n hne with h | ⟨h, h1, -, hc⟩
    · have hreal : real ino n = 0 := hm.real_eq_zero (by rw [h]; decide)
      refine ⟨fun _ => by rw [h], fun hpos => by omega, ?_, by rw [h]; decide, fun ht => ?_, fun _ ht => ?_⟩
      · rw [h, hreal, hup, hup0, hpend]
        rfl
      · rw [h] at ht
        cases ht
      · rw [h] at ht
        exact absurd rfl ht
    · have hreal := hm.real_eq_one h1 hc
      refine ⟨fun ht => ?_, fun hpos => by omega, ?_, by rw [h]; decide, fun ht => ?_, fun _ _ h0 => ?_⟩
      · rw [h] at ht
        cases ht
      · rw [h, hreal, hup, hup0, hpend]
        rfl
      · rw [h] at ht
        cases ht
      · rw [h] at h0
        cases h0

end MkfsImage

/-- **The image satisfies the invariant.** -/
theorem FsInit.inv (hi : FsInit initproc s) : FsInv strict s (FsInit.idle P) := by
  refine ⟨hi.refs, ⟨MkfsImage.att, hi.image.tree, hi.image.node fun m hm => ?_, fun p => ?_, nofun, nofun⟩, ?_, nofun⟩
  · obtain ⟨i, hn, hlive⟩ := exists_of_liveIno_pos hm
    rw [hi.live_eq] at hlive
    split at hlive
    · next h0 => rw [← hn, h0, hi.tab.1]
    · omega
  · exact ⟨nofun, fun m hm => absurd hm (Multiset.notMem_zero _), fun m hm => absurd hm (Multiset.notMem_zero _), nofun, nofun⟩
  · rw [hi.panicked]
    exact nofun

/-- **The invariant holds in every reachable configuration**, with what the calls in progress still need. -/
theorem FsReachable.good {y : Machine.Conf P (FsCmd P) FsCmd.R (FsState P)} (hy : FsReachable initproc (FsCond strict) y) :
    (fsLogic P strict).Good y := by
  obtain ⟨s₀, hi, hr⟩ := hy
  exact (fsLogic P strict).invariant calls_start hi.inv (fun _ => rfl) hr

/-! ## Runs -/

/-- Calls that are made one after another, by steps that meet a condition, until the last one or a panic. -/
def runCalls (check : FsState P → P → FsCmd P → Bool) (initproc : P) : List (P × FsCall P) → FsState P → Option (FsState P)
  | [], s => some s
  | (p, c) :: rest, s =>
    if s.proc p = .runnable ∧ s.panicked = none then
      ((fsMachine P).run check p (c.prog (decide (p = initproc))) [] s).bind fun y =>
        if y.2.panicked.isSome then some y.2 else runCalls check initproc rest y.2
    else none

theorem runCalls_reachable {check : FsState P → P → FsCmd P → Bool} {cond : FsState P → P → FsCmd P → Prop}
    (hcheck : ∀ s p c, check s p c = true → cond s p c) {l : List (P × FsCall P)} {s₀ : FsState P}
    (hi : FsInit initproc s₀) (h : (fsMachine P).Reachable (Calls initproc) cond s₀ ⟨s, fun _ => .ret ()⟩)
    (hr : runCalls check initproc l s = some s') :
    ∃ prog, FsReachable initproc cond ⟨s', prog⟩ ∧ (s'.panicked = none → prog = fun _ => .ret ()) := by
  induction l generalizing s with
  | nil =>
    cases hr
    exact ⟨_, ⟨s₀, hi, h⟩, fun _ => rfl⟩
  | cons a rest ih =>
    obtain ⟨p, c⟩ := a
    rw [runCalls] at hr
    split at hr
    · next hrun =>
      obtain ⟨⟨f, s₁⟩, hf, hr⟩ := Option.bind_eq_some_iff.mp hr
      have hstart : (fsMachine P).Reachable (Calls initproc) cond s₀
          ⟨s, Function.update (fun _ => .ret ()) p (c.prog (decide (p = initproc)))⟩ :=
        h.tail (.start p _ rfl (by rw [show (fsMachine P).halted s = s.panicked.isSome from rfl, hrun.2]; rfl)
          ⟨hrun.1, c, rfl⟩)
      have hend := Machine.Reachable.run hcheck _ [] hstart hf
      split at hr
      · next hpan =>
        cases hr
        refine ⟨_, ⟨s₀, hi, hend⟩, fun hn => ?_⟩
        rw [hn] at hpan
        cases hpan
      · next hpan =>
        have hret : f = .ret () := Machine.run_halted hf (eq_false_of_ne_true hpan)
        rw [hret, Function.update_eq_self_iff.mpr rfl] at hend
        exact ih hend hr
    · cases hr

/-- The state after `mkfs` without files. -/
def bootState (initproc : P) : FsState P where
  ino n := if n = ROOTINO then ⟨.dir, 0, 1, [⟨ROOTINO, dot⟩, ⟨ROOTINO, dotdot⟩]⟩ else ⟨.free, 0, 0, []⟩
  tab i := if i = 0 then ⟨ROOTINO, 1, false, none⟩ else ⟨0, 0, false, none⟩
  file _ := ⟨0, none⟩
  ofile _ _ := none
  cwd p := if p = initproc then some 0 else none
  proc p := if p = initproc then .runnable else .unused
  data _ := []
  panicked := none

theorem bootState_init (initproc : P) : FsInit initproc (bootState initproc) := by
  refine ⟨⟨⟨[], rfl, nofun⟩, fun n hn => .inl (if_neg hn)⟩, ⟨rfl, fun i hi => ?_⟩, fun _ => rfl, fun _ _ => rfl, fun _ => rfl,
    fun _ => rfl, rfl⟩
  rw [show (bootState initproc).tab i = _ from if_neg hi]
  exact ⟨rfl, rfl⟩

instance (strict : Bool) (s : FsState P) (p : P) (c : FsCmd P) : Decidable (FsCond strict s p c) := by
  cases c <;> unfold FsCond <;> infer_instance

/-- A run of calls that was computed is a run of the machine. -/
theorem exists_run (check : FsState P → P → FsCmd P → Bool) {cond : FsState P → P → FsCmd P → Prop}
    (hcheck : ∀ s p c, check s p c = true → cond s p c) (initproc : P) (l : List (P × FsCall P)) (q : FsState P → Bool)
    (h : (runCalls check initproc l (bootState initproc)).any q = true) :
    ∃ y : Machine.Conf P (FsCmd P) FsCmd.R (FsState P), FsReachable initproc cond y ∧ q y.state = true ∧
      (y.state.panicked = none → ∀ p, y.prog p = .ret ()) := by
  cases hs : runCalls check initproc l (bootState initproc) with
  | none =>
    rw [hs] at h
    cases h
  | some s =>
    rw [hs] at h
    obtain ⟨prog, hr, hp⟩ := runCalls_reachable hcheck (bootState_init initproc) .refl hs
    exact ⟨⟨s, prog⟩, hr, h, fun hn p => by rw [hp hn]⟩

/-! ## Between calls -/

theorem Idle.pendAt (hx : Idle x) (n : Nat) : pendAt x n = 0 := by
  rw [hx]
  rfl

/-- No process is in a call. -/
theorem FsReachable.idle {y : Machine.Conf P (FsCmd P) FsCmd.R (FsState P)} (hy : FsReachable initproc (FsCond strict) y)
    (hpan : y.state.panicked = none) (hret : ∀ p, y.prog p = .ret ()) :
    ∃ g, FsInv strict y.state g ∧ ∀ p, Idle (g p) := by
  obtain ⟨g, h, hw⟩ := hy.good
  refine ⟨g, h, fun p => ?_⟩
  have hhalt : (fsMachine P).halted y.state = false := by
    rw [show (fsMachine P).halted y.state = y.state.panicked.isSome from rfl, hpan]
    rfl
  have hp := hw hhalt p
  rw [hret p] at hp
  exact hp

/-! ## Lookup -/

/-- **Lookup never reaches a free inode.** In every run in which no `..` of a removed directory is looked up, no name is
written into one and no count of links overflows, every inode that a process is about to lock is allocated. -/
theorem lookup_allocated {y : Machine.Conf P (FsCmd P) FsCmd.R (FsState P)} (hy : FsReachable initproc (FsCond false) y) :
    y.state.panicked ≠ some .ilockNoType ∧
      (y.state.panicked = none → ∀ p i k, y.prog p = .cmd (.ilock i) k → (y.state.inode i).type ≠ .free) := by
  obtain ⟨g, h, hw⟩ := hy.good
  refine ⟨h.quiet, fun hpan p i k hp => ?_⟩
  have hhalt : (fsMachine P).halted y.state = false := by
    rw [show (fsMachine P).halted y.state = y.state.panicked.isSome from rfl, hpan]
    rfl
  have hpre := hw hhalt p
  rw [hp] at hpre
  obtain ⟨att, hl⟩ := h.links
  obtain ⟨Q₀, hr, -⟩ := hpre
  have htok : ∃ n, (i, n) ∈ (g p).tok := by
    generalize hg : g p = x at hr
    cases hr with
    | ilock ht hk => exact ⟨_, ht⟩
    | ilockKid hk =>
      subst hg
      exact ⟨_, ((hl.part p).kid _ hk).2.2.1⟩
  obtain ⟨n, ht⟩ := htok
  exact (hl.alloc_of_weight h.refs (weight_pos_of_tok ht)).2

/-- A process stands in `/a/b`, and opens its parent. -/
theorem lookup_allocated_parent : ∃ y : Machine.Conf Bool (FsCmd Bool) FsCmd.R (FsState Bool),
    FsReachable false (FsCond false) y ∧ (y.state.ofile true 0).isSome = true ∧ y.state.panicked ≠ some .ilockNoType := by
  obtain ⟨y, hy, ho, -⟩ := exists_run _ (fun s p c h => of_decide_eq_true (p := FsCond false s p c) h) false
    [(false, .mkdir ['a']), (false, .fork true), (true, .mkdir ['a', '/', 'b']), (true, .chdir ['a', '/', 'b']),
      (true, .open ['.', '.'] ⟨false, false, true⟩)] (fun s => (s.ofile true 0).isSome) (by decide +kernel)
  exact ⟨y, hy, ho, (lookup_allocated hy).1⟩

/-- **The condition is needed.** A process stands in `/a/b` while another one removes `/a/b` and `/a`; the inode of `/a`
is freed, and the `..` of the first process still names it. -/
theorem lookup_reaches_free_inode : ∃ y : Machine.Conf Bool (FsCmd Bool) FsCmd.R (FsState Bool),
    FsReachable false (fun _ _ _ => True) y ∧ y.state.panicked = some .ilockNoType := by
  obtain ⟨y, hy, hpan, -⟩ := exists_run (fun _ _ _ => true) (fun _ _ _ _ => trivial) false
    [(false, .mkdir ['a']), (false, .fork true), (true, .mkdir ['a', '/', 'b']), (true, .chdir ['a', '/', 'b']),
      (false, .unlink ['a', '/', 'b']), (false, .unlink ['a']), (true, .open ['.', '.'] ⟨false, false, true⟩)]
    (fun s => s.panicked == some .ilockNoType) (by decide +kernel)
  exact ⟨y, hy, eq_of_beq hpan⟩

/-! ## Links -/

/-- The entry names the inode, and is not a `.`. -/
def Dirent.links (e : Dirent) (n : Nat) : Bool := e.inum == n && e.inum != 0 && !namecmp e.name dot

/-- The entries that name an inode, without those for `.`, in allocated directories which have a link. -/
def links (ino : Nat → Inode) (n : Nat) : Nat :=
  ∑ d ∈ Finset.range NINODES,
    if (ino d).type = .dir ∧ 0 < (ino d).nlink then (ino d).ents.countP (·.links n) else 0

/-- The links of a complete directory are its names and its `..`. -/
theorem Shape.countP_links {d : Nat} {r : Inode} (hs : Shape d r.ents) (n : Nat) :
    r.ents.countP (·.links n) = nameCount r.ents n + if parentOf r = some n then 1 else 0 := by
  obtain ⟨par, rest, he, hd, hpar, hrest⟩ := hs
  have hp : parentOf r = some par := parentOf_cons _ _ _ he
  have hr : rest.countP (·.links n) = rest.countP (·.names n) := by
    refine List.countP_congr fun e hm => ?_
    by_cases h0 : e.inum = 0
    · simp [Dirent.links, Dirent.names, h0]
    · have hreal := hrest e hm h0
      have hdot : namecmp e.name dot = false := by
        simp only [isReal, Bool.and_eq_true, Bool.not_eq_true'] at hreal
        exact hreal.1
      simp [Dirent.links, Dirent.names, hreal, hdot]
  rw [hp, he, nameCount, List.countP_cons, List.countP_cons, List.countP_cons, List.countP_cons, hr]
  have h1 : Dirent.links ⟨d, dot⟩ n = false := by simp [Dirent.links, namecmp]
  have h2 : Dirent.names ⟨d, dot⟩ n = false := by simp [Dirent.names, isReal, namecmp]
  have h3 : Dirent.names ⟨par, dotdot⟩ n = false := by simp [Dirent.names, isReal, namecmp]
  have h4 : Dirent.links ⟨par, dotdot⟩ n = decide (par = n) := by
    simp [Dirent.links, namecmp, dot, dotdot, hpar, beq_eq_decide]
  rw [h1, h2, h3, h4]
  simp

section

variable {g : P → Ghost P} {att : Nat → Bool} {L : Nat → Nat} {V : Nat → Prop}

/-- Between calls the attached directories are those with a link. -/
theorem LinkInv.att_iff (hl : LinkInv strict s.ino g att L V) (hidle : ∀ p, Idle (g p)) {d : Nat}
    (hd : (s.ino d).type = .dir) : att d = true ↔ 0 < (s.ino d).nlink := by
  have hF : ∀ n b, ¬Flux g n b := by
    rintro n b ⟨p, hp⟩
    rw [hidle p] at hp
    cases hp
  have hpend : pending g d = 0 := Finset.sum_eq_zero fun p _ => (hidle p).pendAt d
  have hn := (hl.node d).nlink
  constructor
  · intro ha
    rcases hl.tree.attName d ha with rfl | h1 | hf
    · have hu : upAt s.ino att ROOTINO ROOTINO ≤ up s.ino att ROOTINO := upAt_le_up (hl.tree.range_of_att ha) ROOTINO
      rw [upAt, if_pos ⟨ha, hl.tree.root.2.1⟩] at hu
      omega
    · omega
    · exact absurd hf (hF d false)
  · intro hpos
    have hlinked : 0 < real s.ino d ∨ 0 < up s.ino att d := by omega
    rcases hlinked with h | h
    · obtain ⟨d', e, he, hnames⟩ := exists_of_real_pos h
      obtain ⟨rfl, h0, hreal⟩ := Dirent.names_iff.mp hnames
      rcases hl.tree.nameAtt d' e he h0 hreal hd with h | ⟨b, hf⟩
      · exact h.1
      · exact absurd hf (hF _ b)
    · obtain ⟨d', ha, hp⟩ := exists_of_up_pos h
      exact hl.tree.attParent d' d ha hp

/-- **Between calls all links are names or attachments.** -/
theorem LinkInv.links_eq (hl : LinkInv strict s.ino g att L V) (hidle : ∀ p, Idle (g p)) (n : Nat) :
    links s.ino n = real s.ino n + up s.ino att n := by
  rw [real_add_up]
  refine Finset.sum_congr rfl fun d _ => ?_
  by_cases ha : att d = true
  · obtain ⟨hd, hs⟩ := hl.tree.attDir d ha
    rw [if_pos ⟨hd, (hl.att_iff hidle hd).mp ha⟩, hs.countP_links n, upAt]
    simp [ha]
  · have hnames := nameCount_eq_zero (hl.tree.noNames d (eq_false_of_ne_true ha)) n
    rw [if_neg fun hc => ha ((hl.att_iff hidle hc.1).mpr hc.2), hnames, upAt, if_neg fun hc => ha hc.1]

end

/-- Between calls an entry of the inode table that is in use has a reference. -/
theorem RefInv.liveIno_pos_iff {g : P → Ghost P} (hr : RefInv s g) (hidle : ∀ p, Idle (g p)) (n : Nat) :
    0 < liveIno s g n ↔ ∃ i, (s.tab i).inum = n ∧ 0 < (s.tab i).ref := by
  have href : ∀ i, (s.tab i).ref = live s g i := by
    intro i
    have hd : doomed g i = 0 := Finset.sum_eq_zero fun p _ => by rw [hidle p]; rfl
    have := hr.counts.ref i
    omega
  constructor
  · intro h
    obtain ⟨i, hn, hlive⟩ := exists_of_liveIno_pos h
    exact ⟨i, hn, by rw [href]; exact hlive⟩
  · rintro ⟨i, rfl, h⟩
    rw [href] at h
    rw [hr.liveIno_pos h]
    exact h

/-- **Link counts are exact.** In every run that meets the condition, whenever no process is in a call, the link count of
an allocated inode is the number of entries that name it, and the inodes that are allocated are those that have a name or
a reference. -/
theorem link_counts_exact {y : Machine.Conf P (FsCmd P) FsCmd.R (FsState P)} (hy : FsReachable initproc (FsCond true) y)
    (hpan : y.state.panicked = none) (hret : ∀ p, y.prog p = .ret ()) (n : Nat) :
    ((y.state.ino n).type ≠ .free → (y.state.ino n).nlink = links y.state.ino n) ∧ ((y.state.ino n).type ≠ .free ↔
        0 < links y.state.ino n ∨ ∃ i, (y.state.tab i).inum = n ∧ 0 < (y.state.tab i).ref) := by
  obtain ⟨g, h, hidle⟩ := hy.idle hpan hret
  obtain ⟨att, hl⟩ := h.links
  have hpend : pending g n = 0 := Finset.sum_eq_zero fun p _ => (hidle p).pendAt n
  have hn := (hl.node n).nlink
  rw [hl.links_eq hidle n, ← h.refs.liveIno_pos_iff hidle n]
  refine ⟨fun _ => by omega, fun ht => ?_, ?_⟩
  · by_contra hno
    have hzero : (y.state.ino n).nlink = 0 := by omega
    rcases (hl.node n).orphan rfl ht hzero with hlive | ⟨p, k, hk, -⟩
    · exact hno (.inr hlive.1)
    · rw [hidle p] at hk
      cases hk
  · rintro (hlinks | hlive)
    · exact (hl.alloc_of_linked hlinks).1
    · exact (hl.node n).alloc hlive

/-- The root after a directory was made in it. -/
theorem link_counts_exact_root : ∃ y : Machine.Conf Unit (FsCmd Unit) FsCmd.R (FsState Unit),
    FsReachable () (FsCond true) y ∧ (y.state.ino ROOTINO).nlink = 2 ∧ (2 : Int) = links y.state.ino ROOTINO := by
  obtain ⟨y, hy, hq, hret⟩ := exists_run _ (fun s p c h => of_decide_eq_true (p := FsCond true s p c) h) ()
    [((), .mkdir ['a'])]
    (fun s => s.panicked.isNone && decide ((s.ino ROOTINO).type ≠ .free) && (s.ino ROOTINO).nlink == 2) (by decide +kernel)
  simp only [Bool.and_eq_true, Option.isNone_iff_eq_none, decide_eq_true_eq, beq_iff_eq] at hq
  obtain ⟨⟨hpan, ht⟩, hn⟩ := hq
  have h := (link_counts_exact hy hpan (hret hpan) ROOTINO).1 ht
  exact ⟨y, hy, hn, by rw [← hn]; exact h⟩

/-- **The condition is needed.** A process removes the directory it stands in, and creates a file there: the file keeps
its inode after the directory and all references are gone. -/
theorem removed_directory_leaks_inode : ∃ y : Machine.Conf Unit (FsCmd Unit) FsCmd.R (FsState Unit),
    FsReachable () (fun _ _ _ => True) y ∧ y.state.panicked = none ∧ (∀ p, y.prog p = .ret ()) ∧
      (y.state.ino 3).type = .file ∧ (y.state.ino 3).nlink = 1 ∧ links y.state.ino 3 = 0 ∧
      ∀ i, (y.state.tab i).inum = 3 → (y.state.tab i).ref = 0 := by
  obtain ⟨y, hy, hq, hret⟩ := exists_run (fun _ _ _ => true) (fun _ _ _ _ => trivial) ()
    [((), .mkdir ['a']), ((), .chdir ['a']), ((), .unlink ['/', 'a']), ((), .open ['x'] ⟨true, false, false⟩), ((), .close 0),
      ((), .chdir ['/'])]
    (fun s => decide (s.panicked = none ∧ (s.ino 3).type = .file ∧ (s.ino 3).nlink = 1 ∧ links s.ino 3 = 0 ∧
      ∀ i, (s.tab i).inum = 3 → (s.tab i).ref = 0)) (by decide +kernel)
  obtain ⟨hpan, h⟩ := of_decide_eq_true hq
  exact ⟨y, hy, hpan, hret hpan, h⟩

/-! ## Names of directories -/

/-- **A directory has at most one name, and its `..` leads back** to where that name is; the root has none. -/
theorem directory_names {y : Machine.Conf P (FsCmd P) FsCmd.R (FsState P)} (hy : FsReachable initproc (FsCond strict) y)
    (hpan : y.state.panicked = none) (hret : ∀ p, y.prog p = .ret ()) :
    (∀ d, ∀ e ∈ (y.state.ino d).ents, e.inum ≠ 0 → isReal e.name = true → (y.state.ino e.inum).type = .dir →
      parentOf (y.state.ino e.inum) = some d) ∧
    (∀ n, (y.state.ino n).type = .dir → real y.state.ino n ≤ 1) ∧ real y.state.ino ROOTINO = 0 := by
  obtain ⟨g, h, hidle⟩ := hy.idle hpan hret
  obtain ⟨att, hl⟩ := h.links
  refine ⟨fun d e he hn hr ht => ?_, hl.tree.nameOne, hl.tree.root.2.2⟩
  rcases hl.tree.nameAtt d e he hn hr ht with ⟨-, hp⟩ | ⟨b, p, hf⟩
  · exact hp
  · rw [hidle p] at hf
    cases hf

theorem directory_names_mkdir : ∃ y : Machine.Conf Unit (FsCmd Unit) FsCmd.R (FsState Unit),
    FsReachable () (FsCond false) y ∧ real y.state.ino ROOTINO = 0 := by
  obtain ⟨y, hy, hq, hret⟩ := exists_run _ (fun s p c h => of_decide_eq_true (p := FsCond false s p c) h) ()
    [((), .mkdir ['a'])] (fun s => s.panicked.isNone) (by decide +kernel)
  have hpan := Option.isNone_iff_eq_none.mp hq
  exact ⟨y, hy, (directory_names hy hpan (hret hpan)).2.2⟩

end Xv6.Fs
