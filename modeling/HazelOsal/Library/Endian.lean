import Mathlib.Data.Nat.Digits.Lemmas
import Mathlib.Logic.Function.Basic

/-! # Numbers in a memory of bytes

`number big m p n` is the number that the `n` bytes at `p` hold, the highest or the lowest of them
first. A number is written in parts, one after the other, and read in parts. -/

namespace Endian

variable {w : Nat} {m m₁ m₂ : BitVec w → UInt8} {p : BitVec w} {a b n u v : Nat} {big : Bool}

/-- The bytes at `p`. -/
def cells (m : BitVec w → UInt8) (p : BitVec w) (n : Nat) : List Nat :=
  (List.range n).map fun i => (m (p + .ofNat w i)).toNat

def number (big : Bool) (m : BitVec w → UInt8) (p : BitVec w) (n : Nat) : Nat :=
  Nat.ofDigits 256 (if big then (cells m p n).reverse else cells m p n)

@[simp] theorem length_cells : (cells m p n).length = n := by
  rw [cells, List.length_map, List.length_range]

theorem cells_add : cells m p (a + b) = cells m p a ++ cells m (p + .ofNat w a) b := by
  rw [cells, List.range_add, List.map_append, List.map_map]
  congr 1
  refine List.map_congr_left fun i _ => ?_
  rw [Function.comp_apply, BitVec.ofNat_add, BitVec.add_assoc]

theorem cells_congr (h : ∀ i < n, m₁ (p + .ofNat w i) = m (p + .ofNat w i)) :
    cells m₁ p n = cells m p n :=
  List.map_congr_left fun i hi => by rw [h i (List.mem_range.mp hi)]

theorem lt_of_mem_cells (h : v ∈ cells m p n) : v < 256 := by
  obtain ⟨i, -, rfl⟩ := List.mem_map.mp h
  exact UInt8.toNat_lt _

/-! ## Numbers by their parts -/

theorem number_one : number big m p 1 = (m p).toNat := by
  have hp : p + .ofNat w 0 = p := BitVec.add_zero p
  cases big <;> simp [number, cells, hp]

theorem number_add_big :
    number true m p (a + b) = number true m p a * 256 ^ b + number true m (p + .ofNat w a) b := by
  simp only [number, if_true, cells_add, List.reverse_append, Nat.ofDigits_append,
    List.length_reverse, length_cells]
  rw [Nat.add_comm, Nat.mul_comm]

theorem number_add_little : number false m p (a + b) =
    number false m p a + 256 ^ a * number false m (p + .ofNat w a) b := by
  simp only [number, Bool.false_eq_true, if_false, cells_add, Nat.ofDigits_append, length_cells]

theorem number_lt : number big m p n < 256 ^ n := by
  have hmem : ∀ v ∈ if big then (cells m p n).reverse else cells m p n, v < 256 := by
    intro v hv
    cases big with
    | true => exact lt_of_mem_cells (List.mem_reverse.mp hv)
    | false => exact lt_of_mem_cells hv
  have hlt := Nat.ofDigits_lt_base_pow_length (by decide) hmem
  cases big with
  | true => rwa [if_pos rfl, List.length_reverse, length_cells] at hlt
  | false => rwa [if_neg Bool.false_ne_true, length_cells] at hlt

theorem number_congr (h : ∀ i < n, m₁ (p + .ofNat w i) = m (p + .ofNat w i)) :
    number big m₁ p n = number big m p n := by
  rw [number, number, cells_congr h]

/-- The place of a byte among the digits. -/
def place (big : Bool) (n i : Nat) : Nat := if big then n - 1 - i else i

theorem ofDigits_digit {l : List Nat} {j d : Nat} (hl : ∀ v ∈ l, v < 256) (hj : l[j]? = some d) :
    Nat.ofDigits 256 l / 256 ^ j % 256 = d := by
  obtain ⟨hlt, rfl⟩ := List.getElem?_eq_some_iff.mp hj
  rw [Nat.ofDigits_div_pow_eq_ofDigits_drop j (by decide) l hl, List.drop_eq_getElem_cons hlt,
    Nat.ofDigits_cons, Nat.add_mul_mod_self_left]
  exact Nat.mod_eq_of_lt (hl _ (List.getElem_mem hlt))

/-- **Each byte is a digit.** -/
theorem digit {i : Nat} (hi : i < n) :
    number big m p n / 256 ^ place big n i % 256 = (m (p + .ofNat w i)).toNat := by
  have hcell : (cells m p n)[i]? = some (m (p + .ofNat w i)).toNat := by
    simp [cells, hi]
  cases big with
  | true =>
    have hlt : n - 1 - i < (cells m p n).length := by
      rw [length_cells]
      omega
    have hrev : (cells m p n).reverse[n - 1 - i]? = some (m (p + .ofNat w i)).toNat := by
      rw [List.getElem?_reverse hlt, length_cells, ← hcell]
      congr 1
      omega
    exact ofDigits_digit (fun v hv => lt_of_mem_cells (List.mem_reverse.mp hv)) hrev
  | false => exact ofDigits_digit (fun v hv => lt_of_mem_cells hv) hcell

theorem place_lt {i : Nat} (hi : i < n) : place big n i < n := by
  cases big with
  | true => exact (Nat.sub_le ..).trans_lt (Nat.sub_one_lt_of_lt hi)
  | false => exact hi

/-- The digits of a number, the lowest one first. -/
def digits (n v : Nat) : List Nat := (List.range n).map fun j => v / 256 ^ j % 256

@[simp] theorem length_digits : (digits n v).length = n := by
  rw [digits, List.length_map, List.length_range]

theorem digits_ofDigits {l : List Nat} (hl : ∀ v ∈ l, v < 256) :
    digits l.length (Nat.ofDigits 256 l) = l := by
  apply List.ext_getElem length_digits
  intro j _ hj
  simp only [digits, List.getElem_map, List.getElem_range]
  exact ofDigits_digit hl (List.getElem?_eq_getElem hj)

theorem digits_number :
    digits n (number big m p n) = if big then (cells m p n).reverse else cells m p n := by
  cases big with
  | true =>
    have h := digits_ofDigits fun v (hv : v ∈ (cells m p n).reverse) =>
      lt_of_mem_cells (List.mem_reverse.mp hv)
    rwa [List.length_reverse, length_cells] at h
  | false =>
    have h := digits_ofDigits fun v (hv : v ∈ cells m p n) => lt_of_mem_cells hv
    rwa [length_cells] at h

/-- The number with its digits in the other order. -/
def swap (n v : Nat) : Nat := Nat.ofDigits 256 (digits n v).reverse

theorem swap_lt : swap n v < 256 ^ n := by
  have hlt := Nat.ofDigits_lt_base_pow_length (b := 256) (l := (digits n v).reverse) (by decide)
    fun d hd => by
      obtain ⟨j, -, rfl⟩ := List.mem_map.mp (List.mem_reverse.mp hd)
      exact Nat.mod_lt _ (by decide)
  rwa [List.length_reverse, length_digits] at hlt

/-- **To read the bytes in the other order is to swap the digits.** -/
theorem swap_number : swap n (number big m p n) = number (!big) m p n := by
  rw [swap, digits_number]
  cases big <;> simp [number]

/-- Two memories that agree in different orders agree in the other ones as well. -/
theorem number_comm {big' : Bool} (h : number big m₁ p n = number big' m p n) :
    number big' m₁ p n = number big m p n := by
  by_cases he : big = big'
  case pos => exact he ▸ h
  case neg =>
    have hnot := Bool.eq_not.mpr he
    rw [hnot] at h
    rw [hnot, ← swap_number, ← h, swap_number, Bool.not_not]

/-- The digits beyond the width do not matter. -/
theorem digit_mod {j : Nat} (hj : j < n) : v % 256 ^ n / 256 ^ j % 256 = v / 256 ^ j % 256 := by
  obtain ⟨d, rfl⟩ := Nat.exists_eq_add_of_lt hj
  rw [Nat.add_assoc, Nat.pow_add, Nat.mod_mul_right_div_self]
  exact Nat.mod_mod_of_dvd _ (Dvd.intro_left _ (Nat.pow_succ ..).symm)

/-- A number determines its bytes. -/
theorem number_inj (h : number big m p n = number big m₁ p n) :
    ∀ i < n, m (p + .ofNat w i) = m₁ (p + .ofNat w i) := by
  intro i hi
  rw [← UInt8.toNat_inj, ← digit hi, h, digit hi]

/-! ## Swapping the digits of a word -/

/-- `y` holds the lowest `i` digits of the swapped `x`. -/
def Swaps {k : Nat} (n : Nat) (x y : BitVec k) (i : Nat) : Prop :=
  y.toNat = Nat.ofDigits 256 ((digits n x.toNat).reverse.take i)

theorem Swaps.or {k i : Nat} {x y z : BitVec k} (h : Swaps n x y i) (hi : i < n)
    (hz : z.toNat = x.toNat / 256 ^ (n - 1 - i) % 256 * 256 ^ i) : Swaps n x (y ||| z) (i + 1) := by
  have hlen : ((digits n x.toNat).reverse.take i).length = i := by
    rw [List.length_take, List.length_reverse, length_digits]
    exact Nat.min_eq_left hi.le
  have hlt : y.toNat < 2 ^ (8 * i) := by
    rw [Nat.pow_mul, h]
    refine (Nat.ofDigits_lt_base_pow_length (by decide) fun d hd => ?_).trans_eq (by rw [hlen])
    obtain ⟨j, -, rfl⟩ := List.mem_map.mp (List.mem_reverse.mp (List.mem_of_mem_take hd))
    exact Nat.mod_lt _ (by decide)
  have hpow : 256 ^ i = 2 ^ (8 * i) := (Nat.pow_mul 2 8 i).symm
  have hdigit : (digits n x.toNat).reverse[i]? = some (x.toNat / 256 ^ (n - 1 - i) % 256) := by
    rw [List.getElem?_reverse (by rwa [length_digits]), length_digits, digits, List.getElem?_map,
      List.getElem?_range (by omega)]
    rfl
  rw [Swaps, List.take_add_one, hdigit, Option.toList_some, Nat.ofDigits_append, hlen, ← h,
    Nat.ofDigits_singleton, BitVec.toNat_or, hz, Nat.mul_comm (_ % _), hpow, Nat.or_comm,
    ← Nat.two_pow_add_eq_or_of_lt hlt, Nat.add_comm]

theorem Swaps.toNat {k : Nat} {x y : BitVec k} (h : Swaps n x y n) : y.toNat = swap n x.toNat := by
  rw [h, swap, List.take_of_length_le (by rw [List.length_reverse, length_digits])]

/-! ## Writing a number -/

/-- The `n` bytes at `p` have been overwritten, by the number `v`. -/
structure Wrote (big : Bool) (m m₁ : BitVec w → UInt8) (p : BitVec w) (n v : Nat) : Prop where
  number : number big m₁ p n = v
  frame : ∀ q, (∀ i < n, q ≠ p + .ofNat w i) → m₁ q = m q

namespace Wrote

theorem byte {d : UInt8} : Wrote big m (Function.update m p d) p 1 d.toNat where
  number := by rw [number_one, Function.update_self]
  frame q hq := by
    refine Function.update_of_ne ?_ ..
    have h := hq 0 Nat.one_pos
    rwa [show p + .ofNat w 0 = p from BitVec.add_zero p] at h

/-- The second part is not on top of the first one. -/
private theorem first_kept (h : Wrote big m₁ m₂ (p + .ofNat w a) b v) (hn : a + b ≤ 2 ^ w) :
    ∀ i < a, m₂ (p + .ofNat w i) = m₁ (p + .ofNat w i) := by
  intro i hi
  refine h.frame _ fun j hj he => ?_
  rw [BitVec.add_assoc, ← BitVec.ofNat_add, BitVec.add_right_inj] at he
  have := congrArg BitVec.toNat he
  rw [BitVec.toNat_ofNat, BitVec.toNat_ofNat, Nat.mod_eq_of_lt (by omega),
    Nat.mod_eq_of_lt (by omega)] at this
  omega

private theorem frame_append (h : Wrote big m m₁ p a u) (h' : Wrote big m₁ m₂ (p + .ofNat w a) b v)
    (q : BitVec w) (hq : ∀ i < a + b, q ≠ p + .ofNat w i) : m₂ q = m q := by
  refine (h'.frame q fun j hj => ?_).trans (h.frame q fun i hi => hq i (by omega))
  rw [BitVec.add_assoc, ← BitVec.ofNat_add]
  exact hq (a + j) (by omega)

/-- The high part of a number, and the low part after it. -/
theorem append_big (h : Wrote true m m₁ p a u) (h' : Wrote true m₁ m₂ (p + .ofNat w a) b v)
    (hn : a + b ≤ 2 ^ w) : Wrote true m m₂ p (a + b) (u * 256 ^ b + v) where
  number := by rw [number_add_big, h'.number, number_congr (first_kept h' hn), h.number]
  frame := frame_append h h'

/-- The low part of a number, and the high part after it. -/
theorem append_little (h : Wrote false m m₁ p a u) (h' : Wrote false m₁ m₂ (p + .ofNat w a) b v)
    (hn : a + b ≤ 2 ^ w) : Wrote false m m₂ p (a + b) (u + 256 ^ a * v) where
  number := by rw [number_add_little, h'.number, number_congr (first_kept h' hn), h.number]
  frame := frame_append h h'

theorem refl : Wrote big m m p n (Endian.number big m p n) := ⟨rfl, fun _ _ => rfl⟩

/-- A later number hides an earlier one. -/
theorem trans {big' : Bool} (h : Wrote big m m₁ p n u) (h' : Wrote big' m₁ m₂ p n v) :
    Wrote big' m m₂ p n v :=
  ⟨h'.number, fun q hq => (h'.frame q hq).trans (h.frame q hq)⟩

/-- A number and a frame determine the memory. -/
theorem unique (h : Wrote big m m₁ p n v) (h' : Wrote big m m₂ p n v) : m₁ = m₂ := by
  funext q
  by_cases hq : ∃ i < n, q = p + .ofNat w i
  case neg =>
    have hout : ∀ i < n, q ≠ p + .ofNat w i := fun i hi he => hq ⟨i, hi, he⟩
    rw [h.frame q hout, h'.frame q hout]
  case pos =>
    obtain ⟨i, hi, rfl⟩ := hq
    exact number_inj (h.number.trans h'.number.symm) i hi

/-- A number written in one order is the swapped one written in the other order. -/
theorem swap (h : Wrote big m m₁ p n v) : Wrote (!big) m m₁ p n (swap n v) :=
  ⟨by rw [← swap_number, h.number], h.frame⟩

end Wrote

end Endian
