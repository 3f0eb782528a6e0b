import HazelOsal.ByteOrder.FixedWidth

/-! # The order of the host

`byteorder.h` converts in three ways between the order of the host and a fixed one: it swaps the
bytes of a value (the macros `BSWAP_…`), swaps them in a buffer in place, or puts and gets them one
by one. All three agree. -/

namespace HazelOsal.ByteOrder

open Endian

/-! ## Values -/

def bswap16 (x : BitVec 16) : BitVec 16 :=
  -- in `int`
  let x := x.setWidth 32
  (((x >>> 8) &&& 0xff) ||| ((x &&& 0xff) <<< 8)).setWidth 16

def bswap24 (x : BitVec 32) : BitVec 32 :=
  ((x >>> 16) &&& 0xff) ||| (x &&& 0xff00) ||| ((x &&& 0xff) <<< 16)

def bswap32 (x : BitVec 32) : BitVec 32 :=
  ((x >>> 24) &&& 0xff) ||| ((x >>> 8) &&& 0xff00) ||| ((x &&& 0xff00) <<< 8) |||
    ((x &&& 0xff) <<< 24)

def bswap40 (x : BitVec 64) : BitVec 64 :=
  ((x >>> 32) &&& 0xff) ||| ((x >>> 16) &&& 0xff00) ||| (x &&& 0xff0000) |||
    ((x &&& 0xff00) <<< 16) ||| ((x &&& 0xff) <<< 32)

def bswap48 (x : BitVec 64) : BitVec 64 :=
  ((x >>> 40) &&& 0xff) ||| ((x >>> 24) &&& 0xff00) ||| ((x >>> 8) &&& 0xff0000) |||
    ((x &&& 0xff0000) <<< 8) ||| ((x &&& 0xff00) <<< 24) ||| ((x &&& 0xff) <<< 40)

def bswap64 (x : BitVec 64) : BitVec 64 :=
  ((x >>> 56) &&& 0xff) ||| ((x >>> 40) &&& 0xff00) ||| ((x >>> 24) &&& 0xff0000) |||
    ((x >>> 8) &&& 0xff000000) ||| ((x &&& 0xff000000) <<< 8) ||| ((x &&& 0xff0000) <<< 24) |||
    ((x &&& 0xff00) <<< 40) ||| ((x &&& 0xff) <<< 56)

section
variable {k : Nat}

/-- The conversion between the order of the host and another one, or the same. -/
def orderSwap (bswap : BitVec k → BitVec k) (same : Bool) (val : BitVec k) : BitVec k :=
  if same then val else bswap val

end

/-! `littleEndian` is `CONFIG_LITTLE_ENDIAN`. -/

def sysLe16ToCpu (littleEndian : Bool) : BitVec 16 → BitVec 16 := orderSwap bswap16 littleEndian
def sysCpuToLe16 (littleEndian : Bool) : BitVec 16 → BitVec 16 := orderSwap bswap16 littleEndian
def sysLe24ToCpu (littleEndian : Bool) : BitVec 32 → BitVec 32 := orderSwap bswap24 littleEndian
def sysCpuToLe24 (littleEndian : Bool) : BitVec 32 → BitVec 32 := orderSwap bswap24 littleEndian
def sysLe32ToCpu (littleEndian : Bool) : BitVec 32 → BitVec 32 := orderSwap bswap32 littleEndian
def sysCpuToLe32 (littleEndian : Bool) : BitVec 32 → BitVec 32 := orderSwap bswap32 littleEndian
def sysLe40ToCpu (littleEndian : Bool) : BitVec 64 → BitVec 64 := orderSwap bswap40 littleEndian
def sysCpuToLe40 (littleEndian : Bool) : BitVec 64 → BitVec 64 := orderSwap bswap40 littleEndian
def sysLe48ToCpu (littleEndian : Bool) : BitVec 64 → BitVec 64 := orderSwap bswap48 littleEndian
def sysCpuToLe48 (littleEndian : Bool) : BitVec 64 → BitVec 64 := orderSwap bswap48 littleEndian
def sysLe64ToCpu (littleEndian : Bool) : BitVec 64 → BitVec 64 := orderSwap bswap64 littleEndian
def sysCpuToLe64 (littleEndian : Bool) : BitVec 64 → BitVec 64 := orderSwap bswap64 littleEndian
def sysBe16ToCpu (littleEndian : Bool) : BitVec 16 → BitVec 16 := orderSwap bswap16 !littleEndian
def sysCpuToBe16 (littleEndian : Bool) : BitVec 16 → BitVec 16 := orderSwap bswap16 !littleEndian
def sysBe24ToCpu (littleEndian : Bool) : BitVec 32 → BitVec 32 := orderSwap bswap24 !littleEndian
def sysCpuToBe24 (littleEndian : Bool) : BitVec 32 → BitVec 32 := orderSwap bswap24 !littleEndian
def sysBe32ToCpu (littleEndian : Bool) : BitVec 32 → BitVec 32 := orderSwap bswap32 !littleEndian
def sysCpuToBe32 (littleEndian : Bool) : BitVec 32 → BitVec 32 := orderSwap bswap32 !littleEndian
def sysBe40ToCpu (littleEndian : Bool) : BitVec 64 → BitVec 64 := orderSwap bswap40 !littleEndian
def sysCpuToBe40 (littleEndian : Bool) : BitVec 64 → BitVec 64 := orderSwap bswap40 !littleEndian
def sysBe48ToCpu (littleEndian : Bool) : BitVec 64 → BitVec 64 := orderSwap bswap48 !littleEndian
def sysCpuToBe48 (littleEndian : Bool) : BitVec 64 → BitVec 64 := orderSwap bswap48 !littleEndian
def sysBe64ToCpu (littleEndian : Bool) : BitVec 64 → BitVec 64 := orderSwap bswap64 !littleEndian
def sysCpuToBe64 (littleEndian : Bool) : BitVec 64 → BitVec 64 := orderSwap bswap64 !littleEndian

/-- The macros from a fixed order, with their argument and result converted. -/
def Width.toCpu (littleEndian : Bool) (val : BitVec 64) : Bool → Width → BitVec 64
  | true, .w16 => (sysBe16ToCpu littleEndian (val.setWidth 16)).setWidth 64
  | true, .w24 => (sysBe24ToCpu littleEndian (val.setWidth 32)).setWidth 64
  | true, .w32 => (sysBe32ToCpu littleEndian (val.setWidth 32)).setWidth 64
  | true, .w40 => sysBe40ToCpu littleEndian val
  | true, .w48 => sysBe48ToCpu littleEndian val
  | true, .w64 => sysBe64ToCpu littleEndian val
  | false, .w16 => (sysLe16ToCpu littleEndian (val.setWidth 16)).setWidth 64
  | false, .w24 => (sysLe24ToCpu littleEndian (val.setWidth 32)).setWidth 64
  | false, .w32 => (sysLe32ToCpu littleEndian (val.setWidth 32)).setWidth 64
  | false, .w40 => sysLe40ToCpu littleEndian val
  | false, .w48 => sysLe48ToCpu littleEndian val
  | false, .w64 => sysLe64ToCpu littleEndian val

/-- The macros to a fixed order, with their argument and result converted. -/
def Width.cpuTo (littleEndian : Bool) (val : BitVec 64) : Bool → Width → BitVec 64
  | true, .w16 => (sysCpuToBe16 littleEndian (val.setWidth 16)).setWidth 64
  | true, .w24 => (sysCpuToBe24 littleEndian (val.setWidth 32)).setWidth 64
  | true, .w32 => (sysCpuToBe32 littleEndian (val.setWidth 32)).setWidth 64
  | true, .w40 => sysCpuToBe40 littleEndian val
  | true, .w48 => sysCpuToBe48 littleEndian val
  | true, .w64 => sysCpuToBe64 littleEndian val
  | false, .w16 => (sysCpuToLe16 littleEndian (val.setWidth 16)).setWidth 64
  | false, .w24 => (sysCpuToLe24 littleEndian (val.setWidth 32)).setWidth 64
  | false, .w32 => (sysCpuToLe32 littleEndian (val.setWidth 32)).setWidth 64
  | false, .w40 => sysCpuToLe40 littleEndian val
  | false, .w48 => sysCpuToLe48 littleEndian val
  | false, .w64 => sysCpuToLe64 littleEndian val

section
variable {k j a : Nat} {x y mask : BitVec k}

theorem toNat_mask (hm : mask.toNat = 255 * 256 ^ j) :
    (x &&& mask).toNat = x.toNat / 256 ^ j % 256 * 256 ^ j := by
  have hpow : 256 ^ j = 2 ^ (8 * j) := (Nat.pow_mul 2 8 j).symm
  rw [BitVec.toNat_and, hm, hpow]
  apply Nat.eq_of_testBit_eq
  intro i
  have h255 (i : Nat) : Nat.testBit 255 i = decide (i < 8) := Nat.testBit_two_pow_sub_one 8 i
  rw [Nat.testBit_and, Nat.mul_comm, Nat.mul_comm (_ % _), Nat.testBit_two_pow_mul,
    Nat.testBit_two_pow_mul, h255, show 256 = 2 ^ 8 from rfl, Nat.testBit_mod_two_pow,
    Nat.testBit_div_two_pow]
  by_cases hi : 8 * j ≤ i
  · rw [Nat.sub_add_cancel hi]
    simp [hi, Bool.and_comm]
  · simp [hi]

/-- A digit that is moved down. -/
theorem swaps_down (a j : Nat) (h : Swaps (a + j + j + 1) x y j) (hm : mask.toNat = 255 * 256 ^ j) :
    Swaps (a + j + j + 1) x (y ||| ((x >>> (8 * a)) &&& mask)) (j + 1) := by
  have hpow : 256 ^ a = 2 ^ (8 * a) := (Nat.pow_mul 2 8 a).symm
  refine h.or (by omega) ?_
  rw [toNat_mask hm, BitVec.toNat_ushiftRight, Nat.shiftRight_eq_div_pow, Nat.div_div_eq_div_mul,
    ← hpow, ← Nat.pow_add, show a + j + j + 1 - 1 - j = a + j by omega]

/-- The highest digit. -/
theorem swaps_first (a : Nat) (hm : mask.toNat = 255 * 256 ^ 0) :
    Swaps (a + 1) x ((x >>> (8 * a)) &&& mask) 1 := by
  have hzero : Swaps (a + 1) x 0#k 0 := by
    rw [Swaps, List.take_zero, Nat.ofDigits_nil, BitVec.toNat_zero]
  have h := swaps_down a 0 hzero hm
  rwa [BitVec.zero_or] at h

/-- A digit that is moved up. -/
theorem swaps_up (a j : Nat) (h : Swaps (j + a + j + 1) x y (j + a))
    (hm : mask.toNat = 255 * 256 ^ j) (hk : 8 * (j + a + 1) ≤ k) :
    Swaps (j + a + j + 1) x (y ||| ((x &&& mask) <<< (8 * a))) (j + a + 1) := by
  have hpow : 256 ^ a = 2 ^ (8 * a) := (Nat.pow_mul 2 8 a).symm
  have hlt : x.toNat / 256 ^ j % 256 * 256 ^ (j + a) < 256 ^ (j + a + 1) := by
    rw [Nat.pow_succ', Nat.mul_lt_mul_right (Nat.pow_pos (by decide))]
    exact Nat.mod_lt _ (by decide)
  refine h.or (by omega) ?_
  rw [BitVec.toNat_shiftLeft, toNat_mask hm, Nat.shiftLeft_eq, Nat.mul_assoc, ← hpow, ← Nat.pow_add,
    show j + a + j + 1 - 1 - (j + a) = j by omega]
  exact Nat.mod_eq_of_lt (hlt.trans_le (pow_le hk))

end

theorem bswap16_eq {x : BitVec 16} : (bswap16 x).toNat = swap 2 x.toNat := by
  have h : Swaps 2 (x.setWidth 32)
      (((x.setWidth 32 >>> 8) &&& 0xff) ||| ((x.setWidth 32 &&& 0xff) <<< 8)) 2 := by
    refine swaps_up 1 0 ?_ (by decide) (by decide)
    exact swaps_first 1 (by decide)
  have hx : (x.setWidth 32).toNat = x.toNat := toNat_widen (by decide)
  rw [bswap16, BitVec.toNat_setWidth]
  exact (Nat.mod_eq_of_lt (h.toNat ▸ swap_lt)).trans (hx ▸ h.toNat)

section
variable {x : BitVec 32}

theorem bswap24_eq : (bswap24 x).toNat = swap 3 x.toNat := by
  have h : Swaps 3 x (bswap24 x) 3 := by
    refine swaps_up 2 0 ?_ (by decide) (by decide)
    refine swaps_down 0 1 ?_ (by decide)
    exact swaps_first 2 (by decide)
  exact h.toNat

theorem bswap32_eq : (bswap32 x).toNat = swap 4 x.toNat := by
  have h : Swaps 4 x (bswap32 x) 4 := by
    refine swaps_up 3 0 ?_ (by decide) (by decide)
    refine swaps_up 1 1 ?_ (by decide) (by decide)
    refine swaps_down 1 1 ?_ (by decide)
    exact swaps_first 3 (by decide)
  exact h.toNat

end

section
variable {x : BitVec 64}

theorem bswap40_eq : (bswap40 x).toNat = swap 5 x.toNat := by
  have h : Swaps 5 x (bswap40 x) 5 := by
    refine swaps_up 4 0 ?_ (by decide) (by decide)
    refine swaps_up 2 1 ?_ (by decide) (by decide)
    refine swaps_down 0 2 ?_ (by decide)
    refine swaps_down 2 1 ?_ (by decide)
    exact swaps_first 4 (by decide)
  exact h.toNat

theorem bswap48_eq : (bswap48 x).toNat = swap 6 x.toNat := by
  have h : Swaps 6 x (bswap48 x) 6 := by
    refine swaps_up 5 0 ?_ (by decide) (by decide)
    refine swaps_up 3 1 ?_ (by decide) (by decide)
    refine swaps_up 1 2 ?_ (by decide) (by decide)
    refine swaps_down 1 2 ?_ (by decide)
    refine swaps_down 3 1 ?_ (by decide)
    exact swaps_first 5 (by decide)
  exact h.toNat

theorem bswap64_eq : (bswap64 x).toNat = swap 8 x.toNat := by
  have h : Swaps 8 x (bswap64 x) 8 := by
    refine swaps_up 7 0 ?_ (by decide) (by decide)
    refine swaps_up 5 1 ?_ (by decide) (by decide)
    refine swaps_up 3 2 ?_ (by decide) (by decide)
    refine swaps_up 1 3 ?_ (by decide) (by decide)
    refine swaps_down 1 3 ?_ (by decide)
    refine swaps_down 3 2 ?_ (by decide)
    refine swaps_down 5 1 ?_ (by decide)
    exact swaps_first 7 (by decide)
  exact h.toNat

end

section
variable {k n : Nat} {val : BitVec 64} {bswap : BitVec k → BitVec k}

theorem orderSwap_eq (hswap : ∀ x, (bswap x).toNat = swap n x.toNat) (same : Bool) {x : BitVec k} :
    (orderSwap bswap same x).toNat = if same then x.toNat else swap n x.toNat := by
  cases same with
  | true => rfl
  | false => exact hswap x

/-- With the argument and the result converted. -/
theorem orderSwap_wide (hswap : ∀ x, (bswap x).toNat = swap n x.toNat) (same : Bool) (hk : k ≤ 64)
    (hval : val.toNat < 2 ^ k) : ((orderSwap bswap same (val.setWidth k)).setWidth 64).toNat =
      if same then val.toNat else swap n val.toNat := by
  have hlow : (val.setWidth k).toNat = val.toNat := by
    rw [BitVec.toNat_setWidth, Nat.mod_eq_of_lt hval]
  rw [toNat_widen hk, orderSwap_eq hswap, hlow]

end

/-- **The macros swap the bytes where the orders differ.** -/
theorem Width.toCpu_eq {val : BitVec 64} (little big : Bool) (width : Width)
    (hval : val.toNat < 256 ^ width.bytes) : (width.toCpu little val big).toNat =
      if big = !little then val.toNat else swap width.bytes val.toNat := by
  have hif (same : Bool) (hsame : same = true ↔ big = !little) :
      (if same then val.toNat else swap width.bytes val.toNat) =
        if big = !little then val.toNat else swap width.bytes val.toNat := if_congr hsame rfl rfl
  cases big with
  | false =>
    rw [← hif little (by cases little <;> decide)]
    cases width with
    | w16 => exact orderSwap_wide (fun _ => bswap16_eq) little (by decide) hval
    | w24 => exact orderSwap_wide (fun _ => bswap24_eq) little (by decide) (hval.trans (by decide))
    | w32 => exact orderSwap_wide (fun _ => bswap32_eq) little (by decide) hval
    | w40 => exact orderSwap_eq (fun _ => bswap40_eq) little
    | w48 => exact orderSwap_eq (fun _ => bswap48_eq) little
    | w64 => exact orderSwap_eq (fun _ => bswap64_eq) little
  | true =>
    rw [← hif (!little) (by cases little <;> decide)]
    cases width with
    | w16 => exact orderSwap_wide (fun _ => bswap16_eq) (!little) (by decide) hval
    | w24 =>
      exact orderSwap_wide (fun _ => bswap24_eq) (!little) (by decide) (hval.trans (by decide))
    | w32 => exact orderSwap_wide (fun _ => bswap32_eq) (!little) (by decide) hval
    | w40 => exact orderSwap_eq (fun _ => bswap40_eq) (!little)
    | w48 => exact orderSwap_eq (fun _ => bswap48_eq) (!little)
    | w64 => exact orderSwap_eq (fun _ => bswap64_eq) (!little)

/-- The two directions of a conversion are the same. -/
theorem Width.cpuTo_eq {val : BitVec 64} (little big : Bool) (width : Width) :
    width.cpuTo little val big = width.toCpu little val big := by
  cases big <;> cases width <;> rfl

/-! ## Buffers -/

section
variable {w n : Nat}

/-- The conversion of a buffer in place. -/
def orderConvert (swap : Bool) (m : Memory w) (buf length : BitVec w) : Memory w :=
  if swap then sysMemSwap m buf length else m

/-- `bigEndian` is `IS_ENABLED(CONFIG_BIG_ENDIAN)`. -/
def sysLeToCpu (bigEndian : Bool) : Memory w → BitVec w → BitVec w → Memory w :=
  orderConvert bigEndian

def sysCpuToLe (bigEndian : Bool) : Memory w → BitVec w → BitVec w → Memory w :=
  orderConvert bigEndian

/-- `littleEndian` is `IS_ENABLED(CONFIG_LITTLE_ENDIAN)`. -/
def sysBeToCpu (littleEndian : Bool) : Memory w → BitVec w → BitVec w → Memory w :=
  orderConvert littleEndian

def sysCpuToBe (littleEndian : Bool) : Memory w → BitVec w → BitVec w → Memory w :=
  orderConvert littleEndian

/-- `CONFIG_BIG_ENDIAN` beside `CONFIG_LITTLE_ENDIAN`: `toolchain.h` refuses the macro of an order
that is not the host's, and the conversions rely on the other one being defined. -/
def configBigEndian (littleEndian : Bool) : Bool := !littleEndian

/-- The conversion from a fixed order. -/
def bufferToCpu (littleEndian : Bool) (m : Memory w) (buf length : BitVec w) : Bool → Memory w
  | true => sysBeToCpu littleEndian m buf length
  | false => sysLeToCpu (configBigEndian littleEndian) m buf length

/-- The conversion to a fixed order. -/
def bufferCpuTo (littleEndian : Bool) (m : Memory w) (buf length : BitVec w) : Bool → Memory w
  | true => sysCpuToBe littleEndian m buf length
  | false => sysCpuToLe (configBigEndian littleEndian) m buf length

variable {m m₀ : Memory w} {b : Buffer w n}

/-- What one order reads before `sys_mem_swap`, the other one reads after it. -/
theorem sysMemSwap_wrote (big : Bool) (hn : n < 2 ^ w) :
    Wrote (!big) m (sysMemSwap m b.base (.ofNat w n)) b.base n (number big m b.base n) := by
  have hstored := sysMemSwap_stored (b := b) (m := m) hn
  have hcells : cells (sysMemSwap m b.base (.ofNat w n)) b.base n = (cells m b.base n).reverse := by
    apply List.ext_getElem (by simp)
    intro i hi _
    rw [length_cells] at hi
    have hread := Buffer.read_eq_iff.mp hstored.read i hi
    rw [Vector.getElem_reverse, Buffer.getElem_read] at hread
    simp only [cells, List.getElem_reverse, List.getElem_map, List.getElem_range, List.length_map,
      List.length_range]
    exact congrArg UInt8.toNat hread
  constructor
  case number => cases big <;> simp [number, hcells]
  case frame =>
    intro q hq
    apply hstored.frame
    rintro ⟨i, hi, rfl⟩
    exact hq i hi rfl

theorem orderConvert_wrote (big big' : Bool) (hn : n < 2 ^ w) :
    Wrote big' m (orderConvert (big != big') m b.base (.ofNat w n)) b.base n
      (number big m b.base n) := by
  by_cases h : big = big'
  case pos =>
    subst h
    rw [bne_self_eq_false]
    exact .refl
  case neg =>
    rw [bne_iff_ne.mpr h, Bool.eq_not.mpr (Ne.symm h)]
    exact sysMemSwap_wrote big hn

theorem bufferToCpu_wrote (little big : Bool) (hn : n < 2 ^ w) :
    Wrote (!little) m (bufferToCpu little m b.base (.ofNat w n) big) b.base n
      (number big m b.base n) := by
  have h : bufferToCpu little m b.base (.ofNat w n) big =
      orderConvert (big != (!little)) m b.base (.ofNat w n) := by
    cases little <;> cases big <;> rfl
  exact h ▸ orderConvert_wrote big (!little) hn

theorem bufferCpuTo_wrote (little big : Bool) (hn : n < 2 ^ w) :
    Wrote big m (bufferCpuTo little m b.base (.ofNat w n) big) b.base n
      (number (!little) m b.base n) := by
  have h : bufferCpuTo little m b.base (.ofNat w n) big =
      orderConvert ((!little) != big) m b.base (.ofNat w n) := by
    cases little <;> cases big <;> rfl
  exact h ▸ orderConvert_wrote (!little) big hn

end

section
variable {w : Nat} {m m₀ : Memory w} {val : BitVec 64} {little : Bool} {width : Width}

/-- The number that the host loads, read in another order. -/
theorem Width.toCpu_number {p : BitVec w} (big : Bool)
    (h : number (!little) m p width.bytes = val.toNat) :
    (width.toCpu little val big).toNat = number big m p width.bytes := by
  rw [width.toCpu_eq little big (h ▸ number_lt), ← h]
  split
  case isTrue he => rw [he]
  case isFalse he =>
    rw [swap_number]
    rw [← Bool.eq_not.mpr he]

/-- **The conversions of byte orders agree**, on a host of either order whose macro is defined. Let
the host store a value at `b`. To get it in some order is to convert the value from that order; to
convert the buffer in place and load it gives the same. To convert the buffer in place to some
order, to convert the value and store that, or to put the value there in that order, leaves the same
memory. -/
theorem host_order_conversions (big : Bool) (b : Buffer w width.bytes) (hw : width.bytes < 2 ^ w)
    (h : Wrote (!little) m₀ m b.base width.bytes val.toNat) :
    width.get m b.base big = width.toCpu little val big ∧
    number (!little) (bufferToCpu little m b.base (.ofNat w width.bytes) big) b.base width.bytes =
      (width.get m b.base big).toNat ∧
    bufferCpuTo little m b.base (.ofNat w width.bytes) big = width.put m₀ val b.base big ∧
    ∀ m₁, Wrote (!little) m₀ m₁ b.base width.bytes (width.cpuTo little val big).toNat →
      m₁ = width.put m₀ val b.base big := by
  have hget : (width.get m b.base big).toNat = number big m b.base width.bytes := width.get_eq big
  have hput : Wrote big m₀ (width.put m₀ val b.base big) b.base width.bytes val.toNat := by
    have hmod : val.toNat % 256 ^ width.bytes = val.toNat := Nat.mod_eq_of_lt (h.number ▸ number_lt)
    exact hmod ▸ width.put_wrote big hw.le
  refine ⟨?_, ?_, ?_, fun m₁ h₁ => ?_⟩
  · rw [← BitVec.toNat_inj, hget, width.toCpu_number big h.number]
  · rw [hget, (bufferToCpu_wrote little big hw).number]
  · have hconv := bufferCpuTo_wrote (m := m) (b := b) little big hw
    rw [h.number] at hconv
    exact (h.trans hconv).unique hput
  · rw [width.cpuTo_eq] at h₁
    -- what the host stores now is what it would load in the order `big`
    have hnumber : number big m₁ b.base width.bytes = val.toNat :=
      (number_comm (h₁.number.trans (width.toCpu_number big h.number))).trans h.number
    exact Wrote.unique ⟨hnumber, h₁.frame⟩ hput

/-- A host of the little order that stores a value of 24 bits. -/
theorem host_order_conversions_little :
    ∃ m : Memory 32, Wrote false (fun _ => 0) m 0x100#32 3 (0x112233#64).toNat ∧
      Width.w24.get m 0x100#32 true = 0x332211 ∧
      bufferCpuTo true m 0x100#32 3#32 true =
        Width.w24.put (fun _ => 0) 0x112233 0x100#32 true := by
  have h : Wrote (!true) (fun _ => 0) (Width.w24.put (fun _ => 0) 0x112233 0x100#32 false) 0x100#32
      Width.w24.bytes (0x112233#64).toNat := Width.w24.put_wrote false (by decide)
  obtain ⟨hget, -, hcpuTo, -⟩ :=
    host_order_conversions true ⟨0x100#32, by decide⟩ (by decide) h
  exact ⟨_, h, hget.trans (by decide), hcpuTo⟩

end

end HazelOsal.ByteOrder
