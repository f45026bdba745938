import Xv6.Pipe.Fifo

/-!
# Bytes stored in a pipe are announced

A call of `pipewrite` as the sequence of what it does to the pipe and to its lock: it stores bytes, it tries to wake
`&pi->nread`, and it gives up `pi->lock`, in `sleep` or for good. The call runs in stretches, one for each time it gets
the lock; the pipe it finds then is whatever the other processes have made of it.

- `pipewriteEvents`: the events of a call, from the stretches of `writeLoop`;
- `write_stretch`: the events of one stretch are what `PipeState.write` does to the pipe and to the sleeping readers;
- `stored_announced`: no byte is left unannounced when the lock is given up, if `killed` does not change within a stretch.
-/

namespace Xv6

/-! ## The events of a call -/

inductive WriteEvent
  | store (ch : BitVec 8)
  /-- `if(wq_has_sleeper(&pi->nread)) wakeup_one(&pi->nread)`. -/
  | wake
  /-- `sleep(&pi->nwrite, &pi->lock)`. -/
  | sleep
  | release
deriving DecidableEq

/-- What `pipewrite` does once its loop is left, up to the release of the lock. -/
def WriteEnd.events : WriteEnd → List WriteEvent
  | .dead => [.release]
  | .full _ => [.wake, .sleep]
  | .done _ => [.wake, .release]

/-- The events of the stretch of `pipewrite(pi, addr, n)` that starts with byte `i`. -/
def stretchEvents (n : Int) (i : Nat) (pi : Pipe) (e : PipeEnv) : List WriteEvent :=
  (writeBytes e (n.toNat - i) i pi).map .store ++ (writeLoop e (n.toNat - i) i pi).2.events

/-- The events of a call that has stored `i` bytes; the list has the pipe that each stretch finds and its inputs. A call
whose list ends is asleep. -/
def pipewriteEvents (n : Int) : (i : Nat) → List (Pipe × PipeEnv) → List WriteEvent
  | _, [] => []
  | i, (pi, e) :: rest =>
    stretchEvents n i pi e ++
      match (writeLoop e (n.toNat - i) i pi).2 with
      | .full j => pipewriteEvents n j rest
      | _ => []

/-- Is the lock only given up when every byte is announced? `pending` says that a byte was stored since the last try to
wake `&pi->nread`. -/
def announced (pending : Bool) : List WriteEvent → Bool
  | [] => true
  | .store _ :: tr => announced true tr
  | .wake :: tr => announced false tr
  | .sleep :: tr | .release :: tr => !pending && announced pending tr

/-! ## Stretches -/

section Stretch

variable {P : Type} [DecidableEq P]

/-- The loop of `pipewrite` stores the bytes it copies in, one after the other. -/
theorem writeLoop_puts (e : PipeEnv) (r i : Nat) (pi : Pipe) :
    (writeLoop e r i pi).1 = (writeBytes e r i pi).foldl Pipe.put pi := by
  induction r generalizing i pi with
  | zero => rfl
  | succ r ih =>
    simp only [writeLoop, writeBytes]
    split
    · rfl
    · split
      · rfl
      · cases e.copyin i with
        | none => rfl
        | some ch => exact ih (i + 1) (pi.put ch)

/-- **The events of a stretch are what it does**: the bytes go into the pipe, and a sleeping reader is taken off the wait
queue if the stretch tries to wake one. -/
theorem write_stretch (s : PipeState P) (p : P) (n : Int) (i : Nat) (e : PipeEnv) :
    (s.write p n i e).pi = (writeBytes e (n.toNat - i) i s.pi).foldl Pipe.put s.pi ∧
      (s.write p n i e).onRead = if .wake ∈ stretchEvents n i s.pi e then s.onRead.tail else s.onRead := by
  refine ⟨by rw [write_pi, writeLoop_puts], ?_⟩
  have hstore : .wake ∉ (writeBytes e (n.toNat - i) i s.pi).map WriteEvent.store := by simp
  simp only [stretchEvents, List.mem_append, hstore, false_or, PipeState.write]
  cases (writeLoop e (n.toNat - i) i s.pi).2 <;> rfl

end Stretch

/-- A stretch that finds the read end open, of a process that is not killed, does not end with `return -1`. -/
theorem writeLoop_alive {e : PipeEnv} {r i : Nat} {pi : Pipe} (ho : pi.readopen = true) (hk : ∀ j, e.killed j = false) :
    (writeLoop e r i pi).2 ≠ .dead := by
  induction r generalizing i pi with
  | zero =>
    intro h
    cases h
  | succ r ih =>
    have hlive : ¬(pi.readopen = false ∨ e.killed i = true) := by simp [ho, hk]
    simp only [writeLoop, if_neg hlive]
    split
    · intro h
      cases h
    · cases e.copyin i with
      | none =>
        intro h
        cases h
      | some ch => exact ih ho

/-- If `killed` does not change within a stretch, a stretch that ends with `return -1` has stored nothing: the read end
cannot be closed while the lock is held. -/
theorem writeBytes_dead {e : PipeEnv} {r i : Nat} {pi : Pipe} (hk : ∀ j k, e.killed j = e.killed k)
    (hd : (writeLoop e r i pi).2 = .dead) : writeBytes e r i pi = [] := by
  cases r with
  | zero => rfl
  | succ r =>
    by_cases h : pi.readopen = false ∨ e.killed i = true
    · simp only [writeBytes, if_pos h]
    · have ho : pi.readopen = true := by simpa using fun hc => h (.inl hc)
      have hf : ∀ j, e.killed j = false := fun j => by
        rw [hk j i]
        simpa using fun hc => h (.inr hc)
      exact absurd hd (writeLoop_alive ho hf)

/-! ## Calls -/

@[simp] theorem announced_stores (pending : Bool) (l : List (BitVec 8)) (tr : List WriteEvent) :
    announced pending (l.map .store ++ tr) = announced (pending || !l.isEmpty) tr := by
  induction l generalizing pending with
  | nil => simp
  | cons ch l ih =>
    rw [List.map_cons, List.cons_append, announced, ih]
    simp

/-- **Every byte is announced**: a call of `pipewrite` in which `killed` does not change while the lock is held never gives
up the lock with a byte stored since its last try to wake the readers. -/
theorem stored_announced (n : Int) (i : Nat) (stretches : List (Pipe × PipeEnv))
    (hk : ∀ x ∈ stretches, ∀ j k, x.2.killed j = x.2.killed k) :
    announced false (pipewriteEvents n i stretches) = true := by
  -- each stretch starts with nothing pending: the one before went to sleep, after a try to wake
  induction stretches generalizing i with
  | nil => rfl
  | cons x rest ih =>
    obtain ⟨pi, e⟩ := x
    have hrest := fun j => ih j fun y hy => hk y (List.mem_cons_of_mem _ hy)
    simp only [pipewriteEvents, stretchEvents, List.append_assoc, announced_stores]
    cases hend : (writeLoop e (n.toNat - i) i pi).2 with
    | dead =>
      rw [writeBytes_dead (hk _ List.mem_cons_self) hend]
      rfl
    | full j => exact hrest j
    | done j => rfl

/-- A process that finds its two bytes, killed after the first one if `late`. -/
def PipeEnv.twoBytes (late : Bool) : PipeEnv where
  killed i := late && i == 1
  copyin _ := some 7
  copyout _ := true

/-- A call that is not killed stores its bytes, wakes a reader and releases the lock. -/
theorem stored_announced_two : pipewriteEvents 2 0 [(.alloc, .twoBytes false)] = [.store 7, .store 7, .wake, .release] ∧
      announced false (pipewriteEvents 2 0 [(.alloc, .twoBytes false)]) = true := by
  refine ⟨by decide, stored_announced 2 0 _ fun x hx j k => ?_⟩
  rw [List.mem_singleton.mp hx]
  rfl

/-- A process that is killed after its first byte leaves without an announcement. -/
theorem killed_unannounced : pipewriteEvents 2 0 [(.alloc, .twoBytes true)] = [.store 7, .release] ∧
      announced false (pipewriteEvents 2 0 [(.alloc, .twoBytes true)]) = false := by
  decide

end Xv6
