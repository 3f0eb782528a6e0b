import Mathlib.Data.Nat.ModEq

/-! # Rings

A ring of `capacity` slots holds a list when its elements stand in the slots from the read index
on, modulo the capacity. An element is added in the first slot behind them, which is none of
theirs, and removed by moving the read index on. -/

/-- Of slots of one size that lie one behind the other, one ends where the next one begins. -/
theorem slot_disjoint {size i j : Nat} (hij : i ≠ j) :
    i * size + size ≤ j * size ∨ j * size + size ≤ i * size := by
  rw [← Nat.succ_mul, ← Nat.succ_mul]
  rcases Nat.lt_or_gt_of_ne hij with hlt | hlt
  · exact .inl (Nat.mul_le_mul_right size hlt)
  · exact .inr (Nat.mul_le_mul_right size hlt)

/-- The slots from `read` on hold the elements of `l`. -/
structure RingHolds (slot : Nat → α) (capacity read : Nat) (l : List α) : Prop where
  read_lt : read < capacity
  length_le : l.length ≤ capacity
  get : ∀ k (h : k < l.length), slot ((read + k) % capacity) = l[k]

namespace RingHolds

variable {α : Type} {slot slot' : Nat → α} {capacity read : Nat} {l : List α} {a : α}

theorem nil (h : 0 < capacity) : RingHolds slot capacity 0 [] :=
  ⟨h, Nat.zero_le _, fun _ hk => absurd hk (Nat.not_lt_zero _)⟩

/-- Slots at a distance below the capacity differ. -/
theorem slot_ne {i j : Nat} (hij : i < j) (hj : j < capacity) :
    (read + i) % capacity ≠ (read + j) % capacity := by
  intro he
  have hmod : i % capacity = j % capacity := Nat.ModEq.add_left_cancel' read he
  rw [Nat.mod_eq_of_lt (hij.trans hj), Nat.mod_eq_of_lt hj] at hmod
  exact hij.ne hmod

/-- The slot behind the elements holds none of them. -/
theorem slot_free (hlt : l.length < capacity) {k : Nat} (hk : k < l.length) :
    (read + k) % capacity ≠ (read + l.length) % capacity :=
  slot_ne hk hlt

theorem push (h : RingHolds slot capacity read l) (hlt : l.length < capacity)
    (hnew : slot' ((read + l.length) % capacity) = a)
    (hold : ∀ i < capacity, i ≠ (read + l.length) % capacity → slot' i = slot i) :
    RingHolds slot' capacity read (l ++ [a]) where
  read_lt := h.read_lt
  length_le := by rw [List.length_append]; exact hlt
  get k hk := by
    rw [List.length_append, List.length_singleton] at hk
    rcases Nat.lt_succ_iff_lt_or_eq.mp hk with hk | rfl
    · have hcap : 0 < capacity := (Nat.zero_le _).trans_lt h.read_lt
      rw [hold _ (Nat.mod_lt _ hcap) (slot_free hlt hk), h.get k hk, List.getElem_append_left hk]
    · rw [hnew, List.getElem_append_right (Nat.le_refl _)]
      simp

theorem head (h : RingHolds slot capacity read (a :: l)) : slot read = a := by
  have h₀ := h.get 0 (Nat.zero_lt_succ _)
  rwa [Nat.add_zero, Nat.mod_eq_of_lt h.read_lt] at h₀

theorem tail (h : RingHolds slot capacity read (a :: l)) :
    RingHolds slot capacity ((read + 1) % capacity) l where
  read_lt := Nat.mod_lt _ ((Nat.zero_le _).trans_lt h.read_lt)
  length_le := (Nat.le_succ _).trans h.length_le
  get k hk := by
    have hnext : ((read + 1) % capacity + k) % capacity = (read + (k + 1)) % capacity := by
      rw [Nat.mod_add_mod, Nat.add_assoc, Nat.add_comm 1 k]
    rw [hnext]
    exact h.get (k + 1) (Nat.succ_lt_succ hk)

end RingHolds
