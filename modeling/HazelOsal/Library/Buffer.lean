import Mathlib.Algebra.Ring.Nat
import Mathlib.Data.Set.BooleanAlgebra
import Mathlib.Order.CompletePartialOrder

/-! # Buffers in a flat memory

A memory maps the addresses, words of `w` bits, to cells. A buffer of `n` cells has addresses in a
row and does not wrap around. `Stored b l m m'` says that from `m` to `m'` the buffer `b` has been
overwritten by `l` and nothing else has changed: there is one such `m'`, and a later store into `b`
hides an earlier one. -/

structure Buffer (w n : Nat) where
  base : BitVec w
  fits : base.toNat + n ≤ 2 ^ w

namespace Buffer

variable {w n : Nat} {α : Type} {b c : Buffer w n} {m m' m₁ m₂ : BitVec w → α} {l l' : Vector α n}
  {i j : Nat}

def addr (b : Buffer w n) (i : Nat) : BitVec w := b.base + BitVec.ofNat w i

@[simp] theorem addr_zero (b : Buffer w n) : b.addr 0 = b.base := BitVec.add_zero _

theorem addr_succ (b : Buffer w n) (i : Nat) : b.addr (i + 1) = b.addr i + 1 := by
  rw [addr, BitVec.ofNat_add, ← BitVec.add_assoc]
  rfl

theorem addr_sub_base (b : Buffer w n) (i : Nat) : b.addr i - b.base = .ofNat w i := by
  rw [addr, BitVec.add_comm, BitVec.add_sub_cancel]

theorem addr_toNat (b : Buffer w n) (h : i < n) : (b.addr i).toNat = b.base.toNat + i := by
  have hfits := b.fits
  have hi : (BitVec.ofNat w i).toNat = i := Nat.mod_eq_of_lt (by omega)
  rw [addr, BitVec.toNat_add_of_lt (by omega), hi]

theorem addr_inj (hi : i < n) (hj : j < n) : b.addr i = b.addr j ↔ i = j := by
  rw [← BitVec.toNat_inj, addr_toNat b hi, addr_toNat b hj, Nat.add_left_cancel_iff]

/-- The addresses of the cells. -/
def range (b : Buffer w n) : Set (BitVec w) := {a | ∃ i < n, b.addr i = a}

theorem addr_mem (b : Buffer w n) (h : i < n) : b.addr i ∈ b.range := ⟨i, h, rfl⟩

theorem mem_range_iff {a : BitVec w} :
    a ∈ b.range ↔ b.base.toNat ≤ a.toNat ∧ a.toNat < b.base.toNat + n := by
  constructor
  · rintro ⟨i, hi, rfl⟩
    rw [addr_toNat b hi]
    omega
  · rintro ⟨hlow, hhigh⟩
    have hi : a.toNat - b.base.toNat < n := by omega
    refine ⟨a.toNat - b.base.toNat, hi, ?_⟩
    rw [← BitVec.toNat_inj, addr_toNat b hi]
    omega

theorem mem_range_iff_sub {a : BitVec w} : a ∈ b.range ↔ (a - b.base).toNat < n := by
  have hfits := b.fits
  have hlt := a.isLt
  rw [mem_range_iff, BitVec.toNat_sub]
  rcases Nat.lt_or_ge a.toNat b.base.toNat with h | h
  · rw [Nat.mod_eq_of_lt (by omega)]
    omega
  · have hsplit : 2 ^ w - b.base.toNat + a.toNat = a.toNat - b.base.toNat + 2 ^ w := by omega
    rw [hsplit, Nat.add_mod_right, Nat.mod_eq_of_lt (by omega)]
    omega

theorem addr_ne (h : Disjoint b.range c.range) (hi : i < n) (hj : j < n) : b.addr i ≠ c.addr j :=
  fun he => Set.disjoint_left.mp h (b.addr_mem hi) (he ▸ c.addr_mem hj)

/-- Of two disjoint buffers one ends where the other one begins, or before. -/
theorem disjoint_range_iff : Disjoint b.range c.range ↔
    b.base.toNat + n ≤ c.base.toNat ∨ c.base.toNat + n ≤ b.base.toNat := by
  constructor
  · intro h
    by_contra hover
    -- the higher of the two bases is in both
    rcases Nat.le_total b.base.toNat c.base.toNat with hle | hle
    · exact Set.disjoint_left.mp h (mem_range_iff.mpr (by omega))
        (mem_range_iff (a := c.base).mpr (by omega))
    · exact Set.disjoint_left.mp h (mem_range_iff (a := b.base).mpr (by omega))
        (mem_range_iff.mpr (by omega))
  · intro h
    apply Set.disjoint_left.mpr
    intro a hb hc
    rw [mem_range_iff] at hb hc
    omega

theorem lt_of_disjoint (h : Disjoint b.range c.range) : n < 2 ^ w := by
  have hb := b.base.isLt
  have hc := c.base.isLt
  rcases disjoint_range_iff.mp h with hle | hle <;> omega

/-- The contents of a buffer. -/
def read (b : Buffer w n) (m : BitVec w → α) : Vector α n := .ofFn fun i => m (b.addr i)

@[simp] theorem getElem_read (h : i < n) : (b.read m)[i] = m (b.addr i) := Vector.getElem_ofFn h

theorem read_eq_iff : b.read m = l ↔ ∀ i (h : i < n), m (b.addr i) = l[i] := by
  simp only [Vector.ext_iff, getElem_read]

/-- `m'` is `m` with `l` stored in `b`. -/
structure Stored (b : Buffer w n) (l : Vector α n) (m m' : BitVec w → α) : Prop where
  read : b.read m' = l
  frame : ∀ a ∉ b.range, m' a = m a

namespace Stored

theorem refl (b : Buffer w n) (m : BitVec w → α) : Stored b (b.read m) m m := ⟨rfl, fun _ _ => rfl⟩

theorem trans (h : Stored b l m m₁) (h' : Stored b l' m₁ m₂) : Stored b l' m m₂ :=
  ⟨h'.read, fun a ha => (h'.frame a ha).trans (h.frame a ha)⟩

/-- Two stores into one buffer agree exactly where they store the same. -/
theorem eq_iff (h : Stored b l m m₁) (h' : Stored b l' m m₂) : m₁ = m₂ ↔ l = l' := by
  constructor
  · rintro rfl
    exact h.read.symm.trans h'.read
  · rintro rfl
    funext a
    by_cases ha : a ∈ b.range
    · obtain ⟨i, hi, rfl⟩ := ha
      rw [read_eq_iff.mp h.read i hi, read_eq_iff.mp h'.read i hi]
    · rw [h.frame a ha, h'.frame a ha]

end Stored

end Buffer
