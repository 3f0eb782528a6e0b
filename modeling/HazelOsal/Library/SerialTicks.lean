import Mathlib.Algebra.Ring.Int.Defs
import Mathlib.Algebra.Ring.Nat

/-! # 32-bit tick arithmetic

A tick counter runs on the naturals and code sees its low 32 bits. `SerialTicks.ahead a b` is
the signed distance from `b` up to `a`, or zero where that distance is not positive. The
theorems relate it to the true distance of two ticks. -/

namespace SerialTicks

theorem toNat_succ {a : UInt32} (h : a.toNat + 1 < 2 ^ 32) : (a + 1).toNat = a.toNat + 1 := by
  rw [UInt32.toNat_add]
  exact Nat.mod_eq_of_lt h

theorem toNat_pred {a : UInt32} (h : 0 < a.toNat) : (a - 1).toNat = a.toNat - 1 := by
  have := a.toNat_lt
  rw [UInt32.toNat_sub, UInt32.toNat_one]
  omega

theorem eq_zero_iff {a : UInt32} : a = 0 ↔ a.toNat = 0 := UInt32.toNat_inj.symm

/-- How far `a` is ahead of `b` as a signed 32-bit difference; zero if it is not ahead. -/
def ahead (a b : UInt32) : UInt32 :=
  let distance := (a - b).toInt32
  if 0 < distance then distance.toUInt32 else 0

theorem toInt32_pos {a : UInt32} : 0 < a.toInt32 ↔ 0 < a.toNat ∧ a.toNat < 2 ^ 31 := by
  have h : a.toInt32.toInt = a.toBitVec.toInt := rfl
  have hlt := a.toNat_lt
  rw [Int32.lt_iff_toInt_lt, h, BitVec.toInt_eq_toNat_cond]
  simp only [UInt32.toNat_toBitVec, Int32.toInt_zero]
  split <;> omega

theorem ahead_toNat (a b : UInt32) :
    (ahead a b).toNat =
      if 0 < (a - b).toNat ∧ (a - b).toNat < 2 ^ 31 then (a - b).toNat else 0 := by
  simp only [ahead, toInt32_pos]
  split <;> rfl

private theorem toNat_sub_ofNat (due now : Nat) :
    (UInt32.ofNat due - UInt32.ofNat now).toNat =
      (2 ^ 32 - now % 2 ^ 32 + due % 2 ^ 32) % 2 ^ 32 := by
  simp [UInt32.toNat_sub]

/-- The distance to a tick is never overestimated. -/
theorem ahead_le {due now : Nat} (h : now ≤ due) :
    (ahead (UInt32.ofNat due) (UInt32.ofNat now)).toNat ≤ due - now := by
  rw [ahead_toNat, toNat_sub_ofNat]
  split <;> omega

/-- The distance to a tick less than half the range ahead is exact. -/
theorem ahead_of_lt {due now : Nat} (h : now ≤ due) (hr : due < now + 2 ^ 31) :
    (ahead (UInt32.ofNat due) (UInt32.ofNat now)).toNat = due - now := by
  rw [ahead_toNat, toNat_sub_ofNat]
  split <;> omega

/-- What is not ahead has passed, unless it is half the range ahead or more. -/
theorem le_of_ahead_eq_zero {due now : Nat} (h : ahead (UInt32.ofNat due) (UInt32.ofNat now) = 0)
    (hr : due < now + 2 ^ 31) : due ≤ now := by
  refine Nat.not_lt.mp fun hlt => ?_
  have hd := ahead_of_lt (Nat.le_of_lt hlt) hr
  rw [h, UInt32.toNat_zero] at hd
  omega

theorem toNat_ofInt (n : Int) : ((UInt32.ofInt n).toNat : Int) = n % 2 ^ 32 := by
  have hlow := Int.emod_nonneg n (b := 2 ^ 32) (by decide)
  have hhigh := Int.emod_lt_of_pos n (b := 2 ^ 32) (by decide)
  rw [UInt32.ofInt, UInt32.toNat_ofNat']
  omega

/-- The same of ticks that may have passed before the counter started. -/
theorem ahead_ofInt {due : Int} {now : Nat} (h : due < now + 2 ^ 31) (hp : now ≤ due + 2 ^ 31) :
    ((ahead (UInt32.ofInt due) (UInt32.ofNat now)).toNat : Int) = max (due - now) 0 := by
  have hdue := toNat_ofInt due
  have hnow : (UInt32.ofNat now).toNat = now % 2 ^ 32 := UInt32.toNat_ofNat'
  rw [ahead_toNat, UInt32.toNat_sub, hnow]
  split <;> omega

/-- Every deadline is that of a tick within half the range. -/
theorem exists_ofInt (deadline : UInt32) (now : Nat) :
    ∃ due : Int, deadline = UInt32.ofInt due ∧ due < now + 2 ^ 31 ∧ now ≤ due + 2 ^ 31 := by
  have hlt := deadline.toNat_lt
  refine ⟨now - 2 ^ 31 + (deadline.toNat - (now - 2 ^ 31)) % 2 ^ 32, ?_, ?_, ?_⟩
  · rw [← UInt32.toNat_inj]
    have hof := toNat_ofInt (now - 2 ^ 31 + (deadline.toNat - (now - 2 ^ 31)) % 2 ^ 32)
    omega
  · omega
  · omega

/-! ### Counting wraps

A counter of which only the remainder by `range` can be read is extended by an epoch that grows by
`range` whenever a reading is below the one before. -/

/-- The extension is right exactly where a reading is neither older than the one before nor a whole
range younger. -/
theorem extend_eq_iff {range last now : Nat} (hr : 0 < range) :
    range * (last / range) + (if now % range < last % range then range else 0) + now % range = now ↔
      last ≤ now ∧ now < last + range := by
  have hlast := Nat.div_add_mod last range
  have hnow := Nat.div_add_mod now range
  have hx := Nat.mod_lt last hr
  have hy := Nat.mod_lt now hr
  generalize last / range = a at *
  generalize now / range = b at *
  rcases Nat.lt_trichotomy b a with hlt | rfl | hgt
  · have hle : range * b + range ≤ range * a := by
      rw [← Nat.mul_succ]
      exact Nat.mul_le_mul_left range hlt
    split <;> omega
  · split <;> omega
  · rcases Nat.eq_or_lt_of_le (Nat.succ_le_of_lt hgt) with rfl | hgt
    · have heq : range * a.succ = range * a + range := Nat.mul_succ range a
      split <;> omega
    · have hle : range * a + range + range ≤ range * b := by
        rw [← Nat.mul_succ, ← Nat.mul_succ]
        exact Nat.mul_le_mul_left range hgt
      split <;> omega

/-- The extension in words: the epoch of a reading is carried on to the next one. -/
theorem extend_epoch {range last now : Nat} {low previous : UInt32}
    (hlow : low.toNat = now % range) (hprevious : previous.toNat = last % range)
    (hl : last ≤ now) (hr : now < last + range) :
    (if low < previous then UInt64.ofNat (range * (last / range)) + UInt64.ofNat range
      else UInt64.ofNat (range * (last / range))) = UInt64.ofNat (range * (now / range)) := by
  have hextend := (extend_eq_iff (by omega)).mpr ⟨hl, hr⟩
  have hsplit := Nat.div_add_mod now range
  have hless : low < previous ↔ now % range < last % range := by
    rw [UInt32.lt_iff_toNat_lt, hlow, hprevious]
  split
  case isTrue hlt =>
    rw [if_pos (hless.mp hlt)] at hextend
    rw [← UInt64.ofNat_add]
    congr 1
    omega
  case isFalse hge =>
    rw [if_neg fun hlt => hge (hless.mpr hlt)] at hextend
    congr 1
    omega

/-- The epoch and the reading make the counter. -/
theorem epoch_add_low {range now : Nat} {low : UInt32} (hlow : low.toNat = now % range) :
    UInt64.ofNat (range * (now / range)) + low.toUInt64 = UInt64.ofNat now := by
  conv_rhs => rw [← Nat.div_add_mod now range]
  rw [UInt64.ofNat_add, ← UInt64.ofNat_uInt32ToNat, hlow]

theorem ahead_lt (a b : UInt32) : (ahead a b).toNat < 2 ^ 31 := by
  rw [ahead_toNat]
  split <;> omega

end SerialTicks
