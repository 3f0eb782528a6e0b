import HazelOsal.Kernel.Basic
import HazelOsal.RtThread.Uptime
import Mathlib.Algebra.Order.Floor.Div
import Mathlib.Order.Bounds.Basic

/-! # Ticks and milliseconds

The conversions of `time.c`, which the FreeRTOS and the RT-Thread backend have word for word; the
rate is `configTICK_RATE_HZ` or `RT_TICK_PER_SECOND`. `os_ms_to_ticks_ceil` rounds up and is exact
to the limit. `os_ticks_to_ms` rounds down; its test for the limit looks at the whole seconds
only, and the rest of a second may carry the sum past it. -/

namespace HazelOsal.Time

open RtThread.Uptime

/-- `os_scale_ms_to_ticks_ceil`. -/
def osScaleMsToTicksCeil (milliseconds : UInt64) (ticksPerSecond : UInt32) : UInt32 :=
  let maxTicks := OS_WAIT_FOREVER.toUInt64 - 1
  let whole := milliseconds / 1000
  let remainder := milliseconds % 1000
  if whole > maxTicks / ticksPerSecond.toUInt64 then maxTicks.toUInt32
  else
    let ticks := whole * ticksPerSecond.toUInt64
    let ticks := ticks + (remainder * ticksPerSecond.toUInt64 + 999) / 1000
    if ticks > maxTicks then maxTicks.toUInt32 else ticks.toUInt32

/-- `os_ms_to_ticks_ceil`. -/
def osMsToTicksCeil (rate : TickRate) (milliseconds : UInt64) : UInt32 :=
  osScaleMsToTicksCeil milliseconds rate.perSecond

/-- The ticks, rounded up, that so many milliseconds take. -/
def ticksCeil (rate : TickRate) (milliseconds : Nat) : Nat :=
  (milliseconds * rate.perSecond.toNat) ⌈/⌉ 1000

section
variable {rate : TickRate} {ticks ticks' ms ms' : Nat}

/-! ## Rounding -/

/-- **The conversions are adjoint**: rounding up is the lower one. -/
theorem ticksCeil_le_iff : ticksCeil rate ms ≤ ticks ↔ ms ≤ milliseconds rate ticks := by
  rw [ticksCeil, ceilDiv_le_iff_le_mul (by decide), milliseconds, Nat.le_div_iff_mul_le rate.pos,
    Nat.mul_comm 1000]

theorem ticksCeil_mono (h : ms ≤ ms') : ticksCeil rate ms ≤ ticksCeil rate ms' := by
  apply ticksCeil_le_iff.mpr
  exact h.trans (ticksCeil_le_iff.mp (Nat.le_refl _))

/-- Seconds and the rest of a second, converted apart. -/
theorem ticksCeil_eq (rate : TickRate) (ms : Nat) :
    ticksCeil rate ms = ms / 1000 * rate.perSecond.toNat +
      (ms % 1000 * rate.perSecond.toNat + 999) / 1000 := by
  have hsplit : ms * rate.perSecond.toNat + 999 = ms % 1000 * rate.perSecond.toNat + 999 +
      ms / 1000 * rate.perSecond.toNat * 1000 := by
    conv_lhs => rw [← Nat.mod_add_div ms 1000]
    ring
  rw [ticksCeil, Nat.ceilDiv_eq_add_pred_div, Nat.add_sub_assoc (by decide), hsplit,
    Nat.add_mul_div_right _ _ (by decide), Nat.add_comm]

end

section
variable {rate : TickRate} {ticks ticks' ms ms' : UInt64}

/-! ## `os_ticks_to_ms` -/

/-- The last sum of `os_ticks_to_ms` passes `UINT64_MAX`: the whole seconds are the most that its
test lets through, and the rest of a second takes more milliseconds than are left. -/
def Overflows (rate : TickRate) (ticks : UInt64) : Prop :=
  ticks.toNat / rate.perSecond.toNat = 2 ^ 64 / 1000 ∧
    615 < ticks.toNat % rate.perSecond.toNat * 1000 / rate.perSecond.toNat

theorem subsecond_lt (rate : TickRate) (ticks : Nat) :
    ticks % rate.perSecond.toNat * 1000 / rate.perSecond.toNat < 1000 := by
  have := Nat.mod_lt ticks rate.pos
  apply (Nat.div_lt_iff_lt_mul rate.pos).mpr
  omega

/-- Up to `UINT64_MAX` the value is the exact one, but for the lost carry. -/
theorem osTicksToMs_toNat_eq (rate : TickRate) (ticks : UInt64) :
    (osTicksToMs rate ticks).toNat =
      if 2 ^ 64 / 1000 < ticks.toNat / rate.perSecond.toNat then 2 ^ 64 - 1
      else milliseconds rate ticks.toNat % 2 ^ 64 := by
  have hrest : ticks.toNat % rate.perSecond.toNat * 1000 < 2 ^ 64 := by
    have := Nat.mod_lt ticks.toNat rate.pos
    have := rate.perSecond.toNat_lt
    omega
  have hwhole : (ticks / rate.perSecond.toUInt64).toNat = ticks.toNat / rate.perSecond.toNat := by
    rw [UInt64.toNat_div, UInt32.toNat_toUInt64]
  have htest : ticks / rate.perSecond.toUInt64 > UINT64_MAX / 1000 ↔
      2 ^ 64 / 1000 < ticks.toNat / rate.perSecond.toNat := by
    rw [gt_iff_lt, UInt64.lt_iff_toNat_lt, hwhole]
    rfl
  have hthousand : (1000 : UInt64).toNat = 1000 := rfl
  simp only [osTicksToMs, htest]
  split
  case isTrue => rfl
  case isFalse =>
    rw [milliseconds_eq]
    simp only [UInt64.toNat_add, UInt64.toNat_mul, hwhole, UInt64.toNat_mod, UInt64.toNat_div,
      UInt32.toNat_toUInt64, hthousand, Nat.mod_eq_of_lt hrest, Nat.mod_add_mod]

/-- The milliseconds, where the whole seconds are below the limit of the test, at it or above. -/
theorem osTicksToMs_exact_iff : (osTicksToMs rate ticks).toNat =
    min (milliseconds rate ticks.toNat) (2 ^ 64 - 1) ↔ ¬ Overflows rate ticks := by
  have hrest := subsecond_lt rate ticks.toNat
  rw [osTicksToMs_toNat_eq, milliseconds_eq, Overflows]
  generalize ticks.toNat / rate.perSecond.toNat = whole
  generalize ticks.toNat % rate.perSecond.toNat * 1000 / rate.perSecond.toNat = rest at hrest ⊢
  split <;> omega

/-- What is not exact is too small. -/
theorem osTicksToMs_le (rate : TickRate) (ticks : UInt64) :
    (osTicksToMs rate ticks).toNat ≤ milliseconds rate ticks.toNat := by
  rw [osTicksToMs_toNat_eq]
  split
  case isTrue h =>
    rw [milliseconds_eq]
    apply Nat.le_add_right_of_le
    omega
  case isFalse => exact Nat.mod_le ..

/-- Below the last second that fits, and at every tick count of 32 bits, nothing overflows. -/
theorem osTicksToMs_of_lt (h : ticks.toNat < 2 ^ 32) :
    (osTicksToMs rate ticks).toNat = milliseconds rate ticks.toNat := by
  have hwhole := Nat.div_le_self ticks.toNat rate.perSecond.toNat
  have hrest := subsecond_lt rate ticks.toNat
  rw [osTicksToMs_exact_iff.mpr fun ho => ?_, milliseconds_eq]
  · generalize ticks.toNat / rate.perSecond.toNat = whole at hwhole ⊢
    omega
  · have := ho.1
    omega

/-- A rate at which no tick count overflows. -/
def ExactRate (rate : TickRate) : Prop := rate.perSecond ≤ 2 ∨ 1000 ≤ rate.perSecond

theorem exactRate_iff :
    ExactRate rate ↔ rate.perSecond.toNat ≤ 2 ∨ 1000 ≤ rate.perSecond.toNat := by
  rw [ExactRate, UInt32.le_iff_toNat_le, UInt32.le_iff_toNat_le]
  rfl

theorem ExactRate.not_overflows (h : ExactRate rate) : ¬ Overflows rate ticks := by
  rintro ⟨hwhole, hrest⟩
  have hticks := ticks.toNat_lt
  have hpos := rate.pos
  have hsplit := Nat.div_add_mod ticks.toNat rate.perSecond.toNat
  have hmod := Nat.mod_lt ticks.toNat rate.pos
  have hms := Nat.div_mul_le_self (ticks.toNat % rate.perSecond.toNat * 1000) rate.perSecond.toNat
  have hlow := (Nat.mul_le_mul_right rate.perSecond.toNat hrest).trans hms
  rw [hwhole] at hsplit
  rw [exactRate_iff] at h
  omega

/-- The last tick of the last second that the test lets through. -/
def lastTick (rate : TickRate) : UInt64 :=
  UInt64.ofNat (rate.perSecond.toNat * (2 ^ 64 / 1000) + (rate.perSecond.toNat - 1))

theorem lastTick_toNat (h : ¬ ExactRate rate) : (lastTick rate).toNat =
    rate.perSecond.toNat * (2 ^ 64 / 1000) + (rate.perSecond.toNat - 1) := by
  rw [exactRate_iff] at h
  rw [lastTick, UInt64.toNat_ofNat']
  apply Nat.mod_eq_of_lt
  omega

theorem overflows_lastTick (h : ¬ ExactRate rate) : Overflows rate (lastTick rate) := by
  have hlt : rate.perSecond.toNat - 1 < rate.perSecond.toNat := Nat.sub_one_lt_of_lt rate.pos
  rw [Overflows, lastTick_toNat h, Nat.mul_add_div rate.pos, Nat.mul_add_mod, Nat.div_eq_of_lt hlt,
    Nat.mod_eq_of_lt hlt]
  refine ⟨rfl, (Nat.le_div_iff_mul_le rate.pos).mpr ?_⟩
  rw [exactRate_iff] at h
  omega

/-- Where nothing overflows the conversion is monotonic. -/
theorem osTicksToMs_mono (h : ticks ≤ ticks') (he : ¬ Overflows rate ticks') :
    osTicksToMs rate ticks ≤ osTicksToMs rate ticks' := by
  rw [UInt64.le_iff_toNat_le, osTicksToMs_exact_iff.mpr he]
  apply Nat.le_min.mpr
  constructor
  · exact (osTicksToMs_le rate ticks).trans (milliseconds_mono (UInt64.le_iff_toNat_le.mp h))
  · exact Nat.le_sub_one_of_lt (osTicksToMs rate ticks).toNat_lt

/-- An overflow leaves less than a second. -/
theorem Overflows.osTicksToMs_lt (h : Overflows rate ticks) :
    (osTicksToMs rate ticks).toNat < 1000 := by
  have hrest := subsecond_lt rate ticks.toNat
  obtain ⟨hwhole, hover⟩ := h
  rw [osTicksToMs_toNat_eq, milliseconds_eq, hwhole, if_neg (Nat.lt_irrefl _)]
  omega

/-- **`os_ticks_to_ms` saturates** at the tick counts that do not overflow, and is monotonic exactly
at the rates that have no others. -/
theorem ticks_to_ms_saturates (rate : TickRate) :
    (∀ ticks, (osTicksToMs rate ticks).toNat = min (milliseconds rate ticks.toNat) (2 ^ 64 - 1) ↔
      ¬ Overflows rate ticks) ∧
    ((∀ ticks ticks', ticks ≤ ticks' → osTicksToMs rate ticks ≤ osTicksToMs rate ticks') ↔
      ExactRate rate) ∧
    (ExactRate rate ↔ ∀ ticks, ¬ Overflows rate ticks) := by
  refine ⟨fun ticks => osTicksToMs_exact_iff, ⟨fun hmono => ?_, fun h ticks ticks' hle => ?_⟩,
    fun h ticks => h.not_overflows, fun h => ?_⟩
  · by_contra hrate
    -- The first second takes more milliseconds than an overflow leaves.
    have hsecond : (osTicksToMs rate rate.perSecond.toUInt64).toNat = 1000 := by
      have hsmall : rate.perSecond.toUInt64.toNat < 2 ^ 32 := rate.perSecond.toNat_lt
      rw [osTicksToMs_of_lt hsmall, milliseconds, UInt32.toNat_toUInt64,
        Nat.mul_div_cancel_left _ rate.pos]
    have hle : rate.perSecond.toUInt64 ≤ lastTick rate := by
      rw [UInt64.le_iff_toNat_le, UInt32.toNat_toUInt64, lastTick_toNat hrate]
      omega
    have hless := UInt64.le_iff_toNat_le.mp (hmono _ _ hle)
    rw [hsecond] at hless
    exact absurd (overflows_lastTick hrate).osTicksToMs_lt (Nat.not_lt.mpr hless)
  · exact osTicksToMs_mono hle h.not_overflows
  · by_contra hrate
    exact h _ (overflows_lastTick hrate)

/-- At 100 ticks a second the sum wraps around in the last second. -/
theorem not_ticks_to_ms_saturates : ∃ rate ticks ticks', ticks ≤ ticks' ∧
    (osTicksToMs rate ticks).toNat = 18446744073709551610 ∧ (osTicksToMs rate ticks').toNat = 4 ∧
    min (milliseconds rate ticks'.toNat) (2 ^ 64 - 1) = 2 ^ 64 - 1 :=
  ⟨⟨100, by decide⟩, 1844674407370955161, 1844674407370955162, by decide⟩

/-! ## `os_ms_to_ticks_ceil` -/

/-- The values of the 64-bit operations of `os_scale_ms_to_ticks_ceil` behind its first test are
those over the natural numbers. -/
def NoOverflow (milliseconds : UInt64) (ticksPerSecond : UInt32) : Prop :=
  let maxTicks := OS_WAIT_FOREVER.toUInt64 - 1
  let whole := milliseconds / 1000
  let remainder := milliseconds % 1000
  ¬ whole > maxTicks / ticksPerSecond.toUInt64 →
    (whole * ticksPerSecond.toUInt64).toNat = whole.toNat * ticksPerSecond.toNat ∧
    (remainder * ticksPerSecond.toUInt64 + 999).toNat =
      remainder.toNat * ticksPerSecond.toNat + 999 ∧
    (whole * ticksPerSecond.toUInt64 +
        (remainder * ticksPerSecond.toUInt64 + 999) / 1000).toNat =
      whole.toNat * ticksPerSecond.toNat + (remainder.toNat * ticksPerSecond.toNat + 999) / 1000

/-- The first test asks whether the whole seconds alone are too many. -/
theorem whole_le_iff (rate : TickRate) (ms : UInt64) :
    ms / 1000 > (OS_WAIT_FOREVER.toUInt64 - 1) / rate.perSecond.toUInt64 ↔
      2 ^ 32 - 2 < ms.toNat / 1000 * rate.perSecond.toNat := by
  have hwhole : (ms / 1000).toNat = ms.toNat / 1000 := UInt64.toNat_div ms 1000
  have hmax : (OS_WAIT_FOREVER.toUInt64 - 1).toNat = 2 ^ 32 - 2 := rfl
  rw [gt_iff_lt, UInt64.lt_iff_toNat_lt, hwhole, UInt64.toNat_div, hmax, UInt32.toNat_toUInt64,
    Nat.div_lt_iff_lt_mul rate.pos]

theorem noOverflow (rate : TickRate) (ms : UInt64) : NoOverflow ms rate.perSecond := by
  intro hsmall
  have hrem : ms.toNat % 1000 * rate.perSecond.toNat ≤ 999 * 2 ^ 32 := by
    have hlt := Nat.mod_lt ms.toNat (show 0 < 1000 by decide)
    exact Nat.mul_le_mul (Nat.le_of_lt_succ hlt) (Nat.le_of_lt rate.perSecond.toNat_lt)
  rw [whole_le_iff, Nat.not_lt] at hsmall
  have hthousand : (1000 : UInt64).toNat = 1000 := rfl
  have hround : (999 : UInt64).toNat = 999 := rfl
  simp only [UInt64.toNat_add, UInt64.toNat_mul, UInt64.toNat_div, UInt64.toNat_mod,
    UInt32.toNat_toUInt64, hthousand, hround]
  generalize ms.toNat % 1000 * rate.perSecond.toNat = rest at hrem ⊢
  generalize ms.toNat / 1000 * rate.perSecond.toNat = ticks at hsmall ⊢
  omega

/-- The clamped ceiling. -/
theorem osMsToTicksCeil_toNat (rate : TickRate) (ms : UInt64) :
    (osMsToTicksCeil rate ms).toNat = min (ticksCeil rate ms.toNat) (2 ^ 32 - 2) := by
  have hmax : (OS_WAIT_FOREVER.toUInt64 - 1).toNat = 2 ^ 32 - 2 := rfl
  have hlimit : (OS_WAIT_FOREVER.toUInt64 - 1).toUInt32.toNat = 2 ^ 32 - 2 := rfl
  have hfits := noOverflow rate ms
  rw [osMsToTicksCeil, osScaleMsToTicksCeil]
  dsimp only [NoOverflow] at hfits ⊢
  rw [ticksCeil_eq]
  split
  case isTrue hlarge =>
    rw [whole_le_iff] at hlarge
    rw [hlimit]
    omega
  case isFalse hsmall =>
    have hticks := (hfits hsmall).2.2
    rw [UInt64.toNat_div, UInt64.toNat_mod] at hticks
    change _ = ms.toNat / 1000 * rate.perSecond.toNat +
      (ms.toNat % 1000 * rate.perSecond.toNat + 999) / 1000 at hticks
    split
    case isTrue h =>
      rw [gt_iff_lt, UInt64.lt_iff_toNat_lt, hticks, hmax] at h
      rw [hlimit]
      exact (Nat.min_eq_right (Nat.le_of_lt h)).symm
    case isFalse h =>
      rw [gt_iff_lt, UInt64.lt_iff_toNat_lt, hticks, hmax] at h
      rw [UInt64.toNat_toUInt32, hticks]
      omega

theorem osMsToTicksCeil_ne_forever (rate : TickRate) (ms : UInt64) :
    osMsToTicksCeil rate ms ≠ OS_WAIT_FOREVER := by
  intro he
  have hn := osMsToTicksCeil_toNat rate ms
  rw [he] at hn
  exact absurd (hn.le.trans (Nat.min_le_right ..)) (by decide)

/-- **`os_ms_to_ticks_ceil` is the clamped ceiling**, and where it does not saturate the least tick
count that `os_ticks_to_ms` takes to as many milliseconds or more. -/
theorem ms_to_ticks_ceil_exact (rate : TickRate) (ms : UInt64) :
    (osMsToTicksCeil rate ms).toNat = min (ticksCeil rate ms.toNat) (OS_WAIT_FOREVER.toNat - 1) ∧
    NoOverflow ms rate.perSecond ∧ osMsToTicksCeil rate ms ≠ OS_WAIT_FOREVER ∧
    (∀ ms', ms ≤ ms' → osMsToTicksCeil rate ms ≤ osMsToTicksCeil rate ms') ∧
    (ticksCeil rate ms.toNat ≤ OS_WAIT_FOREVER.toNat - 1 →
      IsLeast {ticks | ms ≤ osTicksToMs rate ticks} (osMsToTicksCeil rate ms).toUInt64) := by
  refine ⟨osMsToTicksCeil_toNat rate ms, noOverflow rate ms, osMsToTicksCeil_ne_forever rate ms,
    fun ms' hle => ?_, fun hfits => ⟨?_, fun ticks hticks => ?_⟩⟩
  · rw [UInt32.le_iff_toNat_le, osMsToTicksCeil_toNat, osMsToTicksCeil_toNat]
    apply min_le_min_right
    exact ticksCeil_mono (UInt64.le_iff_toNat_le.mp hle)
  all_goals
    have hresult : (osMsToTicksCeil rate ms).toUInt64.toNat = ticksCeil rate ms.toNat := by
      rw [UInt32.toNat_toUInt64, osMsToTicksCeil_toNat]
      exact Nat.min_eq_left hfits
    have hlt : (osMsToTicksCeil rate ms).toUInt64.toNat < 2 ^ 32 :=
      (osMsToTicksCeil rate ms).toNat_lt
  · show ms ≤ osTicksToMs rate (osMsToTicksCeil rate ms).toUInt64
    rw [UInt64.le_iff_toNat_le, osTicksToMs_of_lt hlt, hresult]
    exact ticksCeil_le_iff.mp (Nat.le_refl _)
  · have hticks := UInt64.le_iff_toNat_le.mp hticks
    rw [UInt64.le_iff_toNat_le, hresult]
    exact ticksCeil_le_iff.mpr (hticks.trans (osTicksToMs_le rate ticks))

theorem ms_to_ticks_ceil_exact_hundred :
    (osMsToTicksCeil ⟨100, by decide⟩ 42).toNat = 5 ∧
    osMsToTicksCeil ⟨100, by decide⟩ 42 ≤ osMsToTicksCeil ⟨100, by decide⟩ 51 ∧
    IsLeast {ticks | 42 ≤ osTicksToMs ⟨100, by decide⟩ ticks}
      (osMsToTicksCeil ⟨100, by decide⟩ 42).toUInt64 := by
  obtain ⟨hclamped, -, -, hmono, hleast⟩ := ms_to_ticks_ceil_exact ⟨100, by decide⟩ 42
  have hfits : ticksCeil ⟨100, by decide⟩ (42 : UInt64).toNat = 5 := by
    rw [ticksCeil_eq]
    decide
  rw [hfits] at hclamped hleast
  exact ⟨hclamped, hmono 51 (by decide), hleast (by decide)⟩

end

end HazelOsal.Time
