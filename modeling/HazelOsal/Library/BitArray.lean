import Mathlib.Logic.Function.Basic

/-! # Bits in an array of words

An array of words of `w` bits is an array of bits: bit `n` is bit `n % w` of word `n / w`. A mask
with one bit set in it changes this bit of the array and no other. -/

namespace BitArray

variable {w : Nat} {m m' : Nat → BitVec w} {s : Nat → Bool} {v : BitVec w} {i j n : Nat}

/-- The bits of an array of words. -/
def bits (m : Nat → BitVec w) (n : Nat) : Bool := (m (n / w)).getLsbD (n % w)

/-- A word of an array of bits. -/
def word (w : Nat) (s : Nat → Bool) (i : Nat) : BitVec w :=
  (BitVec.iunfoldr (fun j (_ : Unit) => ((), s (w * i + j))) ()).2

/-- An array of bits after a store to one of its words. -/
def putWord (s : Nat → Bool) (i : Nat) (v : BitVec w) (n : Nat) : Bool :=
  if n / w = i then v.getLsbD (n % w) else s n

theorem bits_apply (h : j < w) : bits m (w * i + j) = (m i).getLsbD j := by
  have hw : 0 < w := Nat.zero_lt_of_lt h
  rw [bits, Nat.mul_add_div hw, Nat.div_eq_of_lt h, Nat.add_zero, Nat.mul_add_mod,
    Nat.mod_eq_of_lt h]

@[simp] theorem word_bits : word w (bits m) = m := by
  funext i
  refine BitVec.iunfoldr_replace_snd (fun _ => ()) (m i) () rfl fun j => ?_
  rw [bits_apply j.isLt, BitVec.getLsbD_eq_getElem j.isLt]

theorem bits_update : bits (Function.update m i v) = putWord (bits m) i v := by
  funext n
  rw [bits, putWord, Function.update_apply]
  split <;> rfl

/-- The bits of a mask. -/
theorem getLsbD_mask (h : j < w) : ((1#w) <<< i).getLsbD j = decide (j = i) := by
  rw [BitVec.getLsbD_shiftLeft, BitVec.getLsbD_one, decide_eq_true h,
    decide_eq_true (Nat.zero_lt_of_lt h), Bool.true_and, Bool.true_and, ← decide_not,
    ← Bool.decide_and, decide_eq_decide]
  omega

/-- Bit `n` is the one that the mask of bit `n` selects. -/
theorem mod_eq_iff (h : j / w = n / w) : j % w = n % w ↔ j = n := by
  constructor
  · intro hmod
    rw [← Nat.div_add_mod j w, h, hmod, Nat.div_add_mod]
  · exact fun he => he ▸ rfl

theorem bits_or_mask (hw : 0 < w) :
    bits (Function.update m (n / w) (m (n / w) ||| 1#w <<< (n % w))) =
      Function.update (bits m) n true := by
  funext j
  rw [bits_update, putWord, Function.update_apply]
  by_cases hj : j / w = n / w
  case neg => rw [if_neg hj, if_neg fun he : j = n => hj (he ▸ rfl)]
  case pos =>
    rw [if_pos hj, BitVec.getLsbD_or, getLsbD_mask (Nat.mod_lt _ hw), ← hj]
    by_cases he : j = n
    case pos => simp [he]
    case neg => simp [he, mod_eq_iff hj, bits]

theorem bits_and_not_mask (hw : 0 < w) :
    bits (Function.update m (n / w) (m (n / w) &&& ~~~(1#w <<< (n % w)))) =
      Function.update (bits m) n false := by
  funext j
  rw [bits_update, putWord, Function.update_apply]
  by_cases hj : j / w = n / w
  case neg => rw [if_neg hj, if_neg fun he : j = n => hj (he ▸ rfl)]
  case pos =>
    have hlt := Nat.mod_lt j hw
    rw [if_pos hj, BitVec.getLsbD_and, BitVec.getLsbD_not, getLsbD_mask hlt, ← hj]
    by_cases he : j = n
    case pos => simp [he]
    case neg => simp [he, mod_eq_iff hj, bits, hlt]

/-- A word meets a mask where it has the bit. -/
theorem and_mask_ne_zero (h : i < w) : (v &&& 1#w <<< i != 0#w) = v.getLsbD i := by
  rw [bne_eq, Bool.eq_iff_iff, Bool.not_eq_true', beq_eq_false_iff_ne]
  constructor
  · intro hne
    by_contra hv
    refine hne (BitVec.eq_of_getLsbD_eq fun j hj => ?_)
    rw [BitVec.getLsbD_and, getLsbD_mask hj, BitVec.getLsbD_zero]
    by_cases he : j = i
    case pos => rw [he, Bool.eq_false_iff.mpr hv, Bool.false_and]
    case neg => rw [decide_eq_false he, Bool.and_false]
  · intro hv h0
    have hbit := congrArg (fun v : BitVec w => v.getLsbD i) h0
    simp only [BitVec.getLsbD_and, getLsbD_mask h, hv, decide_true, Bool.and_self,
      BitVec.getLsbD_zero, Bool.true_eq_false] at hbit

/-- The low bit of a word that has been shifted, arithmetically, by less than its width. -/
theorem one_and_sshiftRight_ne_zero (h : i < w) :
    (1#w &&& v.sshiftRight i != 0#w) = v.getLsbD i := by
  have hone : 1#w = 1#w <<< 0 := (BitVec.shiftLeft_zero ..).symm
  rw [BitVec.and_comm, hone, and_mask_ne_zero (Nat.zero_lt_of_lt h),
    BitVec.getLsbD_sshiftRight, if_pos (by omega), Nat.add_zero,
    decide_eq_false (by omega : ¬ w ≤ 0), Bool.not_false, Bool.true_and]

end BitArray
