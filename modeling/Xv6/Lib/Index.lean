import Mathlib.Algebra.GroupWithZero.Nat

/-!
# Index types

The tables of the kernel and the small machines of the examples have a fixed size. That it is not zero is stated once
here, so that all modules read a number of type `Fin n` in the same way.
-/

namespace Xv6.Lib

instance one_neZero : NeZero 1 := ⟨Nat.one_ne_zero⟩

instance two_neZero : NeZero 2 := ⟨Nat.succ_ne_zero 1⟩

instance three_neZero : NeZero 3 := ⟨Nat.succ_ne_zero 2⟩

instance eight_neZero : NeZero 8 := ⟨Nat.succ_ne_zero 7⟩

instance thirteen_neZero : NeZero 13 := ⟨Nat.succ_ne_zero 12⟩

instance fifty_neZero : NeZero 50 := ⟨Nat.succ_ne_zero 49⟩

instance inputBuf_neZero : NeZero 128 := ⟨Nat.succ_ne_zero 127⟩

end Xv6.Lib
