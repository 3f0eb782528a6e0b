import HazelOsal.Atomic.Linearize

/-! # Arrays of bits

`ATOMIC_DEFINE` makes an array of as many words as it takes to hold the bits. The operations on
these bits stay inside the array, and leave the bits alone that its last word has to spare. -/

namespace HazelOsal.Atomic

open TransitionSystem BitArray

variable {k : Nat} {n : Nat} {s s' s₀ : Nat → Bool} {l : List (Op k × Answer k)}
  {numBits : AtomicVal k} {addr : Nat}

end HazelOsal.Atomic
