/-! # Bounded counting semaphores

`Counting limit` is a count that cannot exceed `limit`: the bound is a field, so no operation
has to re-prove it. `give` saturates, `take?` fails on an empty semaphore. -/

/-- A count of at most `limit` tokens. -/
structure Counting (limit : Nat) where
  count : Nat
  bounded : count ≤ limit

namespace Counting

variable {limit : Nat}

/-- Add a token; a full semaphore stays full. -/
def give (c : Counting limit) : Counting limit := ⟨min (c.count + 1) limit, Nat.min_le_right _ _⟩

/-- Remove a token; undefined on an empty semaphore. -/
def take? (c : Counting limit) : Option (Counting limit) :=
  if 0 < c.count then some ⟨c.count - 1, Nat.le_trans (Nat.sub_le _ _) c.bounded⟩ else none

/-- The empty semaphore. -/
def zero : Counting limit := ⟨0, Nat.zero_le _⟩

/-- The full semaphore. -/
def full : Counting limit := ⟨limit, Nat.le_refl limit⟩

@[simp] theorem zero_count : (zero : Counting limit).count = 0 := rfl

theorem give_count (c : Counting limit) : c.give.count = min (c.count + 1) limit := rfl

theorem give_pos (h : 0 < limit) (c : Counting limit) : 0 < c.give.count := by
  simp only [give_count]; omega

theorem take?_eq_some {c c' : Counting limit} (h : c.take? = some c') :
    c.count = c'.count + 1 := by
  simp only [take?] at h
  split at h
  · cases h; simp only; omega
  · cases h

theorem take?_eq_none {c : Counting limit} (h : c.take? = none) : c.count = 0 := by
  simp only [take?] at h
  split at h
  · cases h
  · omega

end Counting
