import Mathlib.Data.Nat.ModEq
import Mathlib.Logic.Function.Basic

/-! # Invertible mixing of words

The steps of which hash functions are made that lose nothing: a word is changed by its own high bits
or multiplied by an odd constant. The digits of a word, highest first, cut off after some of them,
determine as much of it. -/

namespace Mixing

variable {w s : Nat}

/-- `x ^= x >> s`. -/
def xorShift (s : Nat) (x : BitVec w) : BitVec w := x ^^^ x >>> s

theorem getLsbD_xorShift {x : BitVec w} {i : Nat} :
    (xorShift s x).getLsbD i = (x.getLsbD i ^^ x.getLsbD (s + i)) := by
  rw [xorShift, BitVec.getLsbD_xor, BitVec.getLsbD_ushiftRight]

/-- The highest `s` bits are still there, and determine the others from above. -/
theorem xorShift_injective (hs : 0 < s) :
    Function.Injective (xorShift s : BitVec w → BitVec w) := by
  intro x y h
  have hbit (n i : Nat) (hi : w ≤ i + n) : x.getLsbD i = y.getLsbD i := by
    induction n generalizing i with
    | zero => rw [BitVec.getLsbD_of_ge x i hi, BitVec.getLsbD_of_ge y i hi]
    | succ n ih =>
      have hhigh := ih (s + i) (by omega)
      have hbits := congrArg (BitVec.getLsbD · i) h
      simp only [getLsbD_xorShift, hhigh] at hbits
      exact Bool.xor_left_inj.mp hbits
  exact BitVec.eq_of_getLsbD_eq fun i _ => hbit w i (Nat.le_add_left ..)

theorem mul_injective {c : BitVec w} (hc : c.toNat % 2 = 1) :
    Function.Injective fun x : BitVec w => x * c := by
  intro x y h
  have hcoprime : Nat.gcd (2 ^ w) c.toNat = 1 := by
    refine Nat.Coprime.pow_left w ?_
    rw [Nat.Coprime, Nat.gcd_rec, hc, Nat.gcd_one_left]
  have hmod : x.toNat * c.toNat ≡ y.toNat * c.toNat [MOD 2 ^ w] := by
    have := congrArg BitVec.toNat h
    rwa [BitVec.toNat_mul, BitVec.toNat_mul] at this
  have hxy := Nat.ModEq.cancel_right_of_coprime hcoprime hmod
  rw [Nat.ModEq, Nat.mod_eq_of_lt x.isLt, Nat.mod_eq_of_lt y.isLt] at hxy
  exact BitVec.toNat_inj.mp hxy

/-! ## Digits -/

variable {b n k u v : Nat}

/-- The `n` lowest digits of a number, highest first. -/
def digits (b n v : Nat) : List Nat := (List.range n).map fun i => v / b ^ (n - 1 - i) % b

@[simp] theorem length_digits : (digits b n v).length = n := by
  rw [digits, List.length_map, List.length_range]

theorem digits_succ : digits b (n + 1) v = digits b n (v / b) ++ [v % b] := by
  rw [digits, List.range_succ, List.map_append, List.map_singleton, digits]
  congr 1
  · refine List.map_congr_left fun i hi => ?_
    have hi := List.mem_range.mp hi
    rw [Nat.div_div_eq_div_mul, ← Nat.pow_succ', show n + 1 - 1 - i = n - 1 - i + 1 by omega]
  · rw [show n + 1 - 1 - n = 0 by omega, Nat.pow_zero, Nat.div_one]

theorem lt_of_mem_digits (hb : 0 < b) (h : u ∈ digits b n v) : u < b := by
  obtain ⟨i, -, rfl⟩ := List.mem_map.mp h
  exact Nat.mod_lt _ hb

/-- **The first `k` digits are those of the number without its `n` lowest ones.** -/
theorem take_digits {m : Nat} (hm : k + n = m) :
    (digits b m v).take k = digits b k (v / b ^ n) := by
  induction n generalizing m v with
  | zero =>
    subst hm
    rw [Nat.add_zero, Nat.pow_zero, Nat.div_one, List.take_of_length_le (by simp)]
  | succ n ih =>
    subst hm
    rw [← Nat.add_assoc, digits_succ, List.take_append_of_le_length (by simp), ih rfl,
      Nat.div_div_eq_div_mul, ← Nat.pow_succ']

theorem digits_inj (hu : u < b ^ n) (hv : v < b ^ n) : digits b n u = digits b n v ↔ u = v := by
  refine ⟨fun h => ?_, fun h => by rw [h]⟩
  induction n generalizing u v with
  | zero =>
    rw [Nat.pow_zero, Nat.lt_one_iff] at hu hv
    rw [hu, hv]
  | succ n ih =>
    rw [digits_succ, digits_succ] at h
    obtain ⟨hhigh, hlow⟩ := List.append_inj' h rfl
    have hdiv : u / b = v / b := by
      rw [Nat.pow_succ'] at hu hv
      exact ih (Nat.div_lt_of_lt_mul hu) (Nat.div_lt_of_lt_mul hv) hhigh
    rw [← Nat.div_add_mod u b, ← Nat.div_add_mod v b, hdiv, List.singleton_inj.mp hlow]

end Mixing
