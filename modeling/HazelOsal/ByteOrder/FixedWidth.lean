import HazelOsal.ByteOrder.BufferCopy
import HazelOsal.Library.Endian

/-! # Numbers of a fixed width

The functions of `byteorder.h` that put a number of 16 to 64 bits into memory or get it from there,
each made from those of smaller widths. Whatever the order of the host, they write and read the
digits of the number in the order of their names. -/

namespace HazelOsal.ByteOrder

open Endian

section
variable {w : Nat}

/-- The conversion to `uint8_t`. -/
def toU8 {k : Nat} (val : BitVec k) : UInt8 := .ofBitVec (val.setWidth 8)

/-- The conversion of a byte to an unsigned type of `k` bits. -/
def ofU8 (k : Nat) (b : UInt8) : BitVec k := b.toBitVec.setWidth k

/-! ## `sys_put_be…` -/

def sysPutBe16 (m : Memory w) (val : BitVec 16) (dst : BitVec w) : Memory w :=
  let m := Function.update m dst (toU8 (val >>> 8))
  Function.update m (dst + 1) (toU8 val)

def sysPutBe24 (m : Memory w) (val : BitVec 32) (dst : BitVec w) : Memory w :=
  let m := Function.update m dst (toU8 (val >>> 16))
  sysPutBe16 m (val.setWidth 16) (dst + 1)

def sysPutBe32 (m : Memory w) (val : BitVec 32) (dst : BitVec w) : Memory w :=
  let m := sysPutBe16 m ((val >>> 16).setWidth 16) dst
  sysPutBe16 m (val.setWidth 16) (dst + 2)

def sysPutBe40 (m : Memory w) (val : BitVec 64) (dst : BitVec w) : Memory w :=
  let m := Function.update m dst (toU8 (val >>> 32))
  sysPutBe32 m (val.setWidth 32) (dst + 1)

def sysPutBe48 (m : Memory w) (val : BitVec 64) (dst : BitVec w) : Memory w :=
  let m := sysPutBe16 m ((val >>> 32).setWidth 16) dst
  sysPutBe32 m (val.setWidth 32) (dst + 2)

def sysPutBe64 (m : Memory w) (val : BitVec 64) (dst : BitVec w) : Memory w :=
  let m := sysPutBe32 m ((val >>> 32).setWidth 32) dst
  sysPutBe32 m (val.setWidth 32) (dst + 4)

/-! ## `sys_put_le…` -/

def sysPutLe16 (m : Memory w) (val : BitVec 16) (dst : BitVec w) : Memory w :=
  let m := Function.update m dst (toU8 val)
  Function.update m (dst + 1) (toU8 (val >>> 8))

def sysPutLe24 (m : Memory w) (val : BitVec 32) (dst : BitVec w) : Memory w :=
  let m := sysPutLe16 m (val.setWidth 16) dst
  Function.update m (dst + 2) (toU8 (val >>> 16))

def sysPutLe32 (m : Memory w) (val : BitVec 32) (dst : BitVec w) : Memory w :=
  let m := sysPutLe16 m (val.setWidth 16) dst
  sysPutLe16 m ((val >>> 16).setWidth 16) (dst + 2)

def sysPutLe40 (m : Memory w) (val : BitVec 64) (dst : BitVec w) : Memory w :=
  let m := sysPutLe32 m (val.setWidth 32) dst
  Function.update m (dst + 4) (toU8 (val >>> 32))

def sysPutLe48 (m : Memory w) (val : BitVec 64) (dst : BitVec w) : Memory w :=
  let m := sysPutLe32 m (val.setWidth 32) dst
  sysPutLe16 m ((val >>> 32).setWidth 16) (dst + 4)

def sysPutLe64 (m : Memory w) (val : BitVec 64) (dst : BitVec w) : Memory w :=
  let m := sysPutLe32 m (val.setWidth 32) dst
  sysPutLe32 m ((val >>> 32).setWidth 32) (dst + 4)

/-! ## `sys_get_be…` -/

def sysGetBe16 (m : Memory w) (src : BitVec w) : BitVec 16 :=
  ofU8 16 (m src) <<< 8 ||| ofU8 16 (m (src + 1))

def sysGetBe24 (m : Memory w) (src : BitVec w) : BitVec 32 :=
  ofU8 32 (m src) <<< 16 ||| (sysGetBe16 m (src + 1)).setWidth 32

def sysGetBe32 (m : Memory w) (src : BitVec w) : BitVec 32 :=
  (sysGetBe16 m src).setWidth 32 <<< 16 ||| (sysGetBe16 m (src + 2)).setWidth 32

def sysGetBe40 (m : Memory w) (src : BitVec w) : BitVec 64 :=
  (sysGetBe32 m src).setWidth 64 <<< 8 ||| ofU8 64 (m (src + 4))

def sysGetBe48 (m : Memory w) (src : BitVec w) : BitVec 64 :=
  (sysGetBe32 m src).setWidth 64 <<< 16 ||| (sysGetBe16 m (src + 4)).setWidth 64

def sysGetBe64 (m : Memory w) (src : BitVec w) : BitVec 64 :=
  (sysGetBe32 m src).setWidth 64 <<< 32 ||| (sysGetBe32 m (src + 4)).setWidth 64

/-! ## `sys_get_le…` -/

def sysGetLe16 (m : Memory w) (src : BitVec w) : BitVec 16 :=
  ofU8 16 (m (src + 1)) <<< 8 ||| ofU8 16 (m src)

def sysGetLe24 (m : Memory w) (src : BitVec w) : BitVec 32 :=
  ofU8 32 (m (src + 2)) <<< 16 ||| (sysGetLe16 m src).setWidth 32

def sysGetLe32 (m : Memory w) (src : BitVec w) : BitVec 32 :=
  (sysGetLe16 m (src + 2)).setWidth 32 <<< 16 ||| (sysGetLe16 m src).setWidth 32

def sysGetLe40 (m : Memory w) (src : BitVec w) : BitVec 64 :=
  (sysGetLe32 m (src + 1)).setWidth 64 <<< 8 ||| ofU8 64 (m src)

def sysGetLe48 (m : Memory w) (src : BitVec w) : BitVec 64 :=
  (sysGetLe32 m (src + 2)).setWidth 64 <<< 16 ||| (sysGetLe16 m src).setWidth 64

def sysGetLe64 (m : Memory w) (src : BitVec w) : BitVec 64 :=
  (sysGetLe32 m (src + 4)).setWidth 64 <<< 32 ||| (sysGetLe32 m src).setWidth 64

end

/-! ## The families -/

/-- The widths that there are functions for. -/
inductive Width where
  | w16
  | w24
  | w32
  | w40
  | w48
  | w64
  deriving DecidableEq

/-- The length of the buffer. -/
def Width.bytes : Width → Nat
  | .w16 => 2
  | .w24 => 3
  | .w32 => 4
  | .w40 => 5
  | .w48 => 6
  | .w64 => 8

section
variable {w : Nat}

/-- The put functions, `val` being converted to the type of the parameter. -/
def Width.put (m : Memory w) (val : BitVec 64) (dst : BitVec w) : Bool → Width → Memory w
  | true, .w16 => sysPutBe16 m (val.setWidth 16) dst
  | true, .w24 => sysPutBe24 m (val.setWidth 32) dst
  | true, .w32 => sysPutBe32 m (val.setWidth 32) dst
  | true, .w40 => sysPutBe40 m val dst
  | true, .w48 => sysPutBe48 m val dst
  | true, .w64 => sysPutBe64 m val dst
  | false, .w16 => sysPutLe16 m (val.setWidth 16) dst
  | false, .w24 => sysPutLe24 m (val.setWidth 32) dst
  | false, .w32 => sysPutLe32 m (val.setWidth 32) dst
  | false, .w40 => sysPutLe40 m val dst
  | false, .w48 => sysPutLe48 m val dst
  | false, .w64 => sysPutLe64 m val dst

/-- The get functions, with their result converted to 64 bits. -/
def Width.get (m : Memory w) (src : BitVec w) : Bool → Width → BitVec 64
  | true, .w16 => (sysGetBe16 m src).setWidth 64
  | true, .w24 => (sysGetBe24 m src).setWidth 64
  | true, .w32 => (sysGetBe32 m src).setWidth 64
  | true, .w40 => sysGetBe40 m src
  | true, .w48 => sysGetBe48 m src
  | true, .w64 => sysGetBe64 m src
  | false, .w16 => (sysGetLe16 m src).setWidth 64
  | false, .w24 => (sysGetLe24 m src).setWidth 64
  | false, .w32 => (sysGetLe32 m src).setWidth 64
  | false, .w40 => sysGetLe40 m src
  | false, .w48 => sysGetLe48 m src
  | false, .w64 => sysGetLe64 m src

end

section
variable {w a b i j k s : Nat} {m m' : Memory w} {p : BitVec w} {val : BitVec 64}

/-! ## Getting -/

theorem byte_eq {big : Bool} : (m p).toBitVec.toNat = number big m p 1 := number_one.symm

theorem pow_le {n : Nat} (h : 8 * n ≤ k) : 256 ^ n ≤ 2 ^ k := by
  have hpow : 256 ^ n = 2 ^ (8 * n) := (Nat.pow_mul 2 8 n).symm
  exact hpow ▸ Nat.pow_le_pow_right (by decide) h

/-- Two parts that do not overlap. -/
theorem toNat_join {hi : BitVec i} {lo : BitVec j} (hhi : hi.toNat < 256 ^ a)
    (hlo : lo.toNat < 256 ^ b) (hk : 8 * (a + b) ≤ k) :
    (hi.setWidth k <<< (8 * b) ||| lo.setWidth k).toNat = hi.toNat * 256 ^ b + lo.toNat := by
  have hpow : 2 ^ (8 * b) = 256 ^ b := Nat.pow_mul 2 8 b
  have hle := pow_le hk
  rw [Nat.pow_add] at hle
  have hb : 0 < 256 ^ b := Nat.pow_pos (by decide)
  have ha : 0 < 256 ^ a := Nat.pow_pos (by decide)
  have hi' : hi.toNat * 256 ^ b < 256 ^ a * 256 ^ b := Nat.mul_lt_mul_of_pos_right hhi hb
  have hilt : hi.toNat < 2 ^ k := (hhi.trans_le (Nat.le_mul_of_pos_right _ hb)).trans_le hle
  have hlolt : lo.toNat < 2 ^ k := (hlo.trans_le (Nat.le_mul_of_pos_left _ ha)).trans_le hle
  rw [BitVec.toNat_or, BitVec.toNat_shiftLeft, BitVec.toNat_setWidth, BitVec.toNat_setWidth,
    Nat.mod_eq_of_lt hilt, Nat.mod_eq_of_lt hlolt, Nat.shiftLeft_eq, hpow,
    Nat.mod_eq_of_lt (hi'.trans_le hle), Nat.mul_comm, ← hpow, Nat.two_pow_add_eq_or_of_lt]
  rwa [hpow]

theorem join_big (a b : Nat) {hi : BitVec i} {lo : BitVec j} (hhi : hi.toNat = number true m p a)
    (hlo : lo.toNat = number true m (p + .ofNat w a) b) (hk : 8 * (a + b) ≤ k) :
    (hi.setWidth k <<< (8 * b) ||| lo.setWidth k).toNat = number true m p (a + b) := by
  rw [toNat_join (hhi ▸ number_lt) (hlo ▸ number_lt) hk, number_add_big, hhi, hlo]

theorem join_little (a b : Nat) {hi : BitVec i} {lo : BitVec j}
    (hhi : hi.toNat = number false m (p + .ofNat w a) b) (hlo : lo.toNat = number false m p a)
    (hk : 8 * (b + a) ≤ k) :
    (hi.setWidth k <<< (8 * a) ||| lo.setWidth k).toNat = number false m p (a + b) := by
  rw [toNat_join (hhi ▸ number_lt) (hlo ▸ number_lt) hk, number_add_little, hhi, hlo, Nat.add_comm,
    Nat.mul_comm]

theorem sysGetBe16_eq : (sysGetBe16 m p).toNat = number true m p 2 :=
  join_big 1 1 byte_eq byte_eq (by decide)

theorem sysGetBe24_eq : (sysGetBe24 m p).toNat = number true m p 3 :=
  join_big 1 2 byte_eq sysGetBe16_eq (by decide)

theorem sysGetBe32_eq : (sysGetBe32 m p).toNat = number true m p 4 :=
  join_big 2 2 sysGetBe16_eq sysGetBe16_eq (by decide)

theorem sysGetBe40_eq : (sysGetBe40 m p).toNat = number true m p 5 :=
  join_big 4 1 sysGetBe32_eq byte_eq (by decide)

theorem sysGetBe48_eq : (sysGetBe48 m p).toNat = number true m p 6 :=
  join_big 4 2 sysGetBe32_eq sysGetBe16_eq (by decide)

theorem sysGetBe64_eq : (sysGetBe64 m p).toNat = number true m p 8 :=
  join_big 4 4 sysGetBe32_eq sysGetBe32_eq (by decide)

theorem sysGetLe16_eq : (sysGetLe16 m p).toNat = number false m p 2 :=
  join_little 1 1 byte_eq byte_eq (by decide)

theorem sysGetLe24_eq : (sysGetLe24 m p).toNat = number false m p 3 :=
  join_little 2 1 byte_eq sysGetLe16_eq (by decide)

theorem sysGetLe32_eq : (sysGetLe32 m p).toNat = number false m p 4 :=
  join_little 2 2 sysGetLe16_eq sysGetLe16_eq (by decide)

theorem sysGetLe40_eq : (sysGetLe40 m p).toNat = number false m p 5 :=
  join_little 1 4 sysGetLe32_eq byte_eq (by decide)

theorem sysGetLe48_eq : (sysGetLe48 m p).toNat = number false m p 6 :=
  join_little 2 4 sysGetLe32_eq sysGetLe16_eq (by decide)

theorem sysGetLe64_eq : (sysGetLe64 m p).toNat = number false m p 8 :=
  join_little 4 4 sysGetLe32_eq sysGetLe32_eq (by decide)

theorem toNat_widen {v : BitVec i} (hk : i ≤ k) : (v.setWidth k).toNat = v.toNat := by
  rw [BitVec.toNat_setWidth]
  exact Nat.mod_eq_of_lt (v.isLt.trans_le (Nat.pow_le_pow_right (by decide) hk))

/-- **The get functions read the digits in memory.** -/
theorem Width.get_eq (big : Bool) (width : Width) :
    (width.get m p big).toNat = number big m p width.bytes := by
  cases big <;> cases width
  case false.w16 => exact (toNat_widen (by decide)).trans sysGetLe16_eq
  case false.w24 => exact (toNat_widen (by decide)).trans sysGetLe24_eq
  case false.w32 => exact (toNat_widen (by decide)).trans sysGetLe32_eq
  case false.w40 => exact sysGetLe40_eq
  case false.w48 => exact sysGetLe48_eq
  case false.w64 => exact sysGetLe64_eq
  case true.w16 => exact (toNat_widen (by decide)).trans sysGetBe16_eq
  case true.w24 => exact (toNat_widen (by decide)).trans sysGetBe24_eq
  case true.w32 => exact (toNat_widen (by decide)).trans sysGetBe32_eq
  case true.w40 => exact sysGetBe40_eq
  case true.w48 => exact sysGetBe48_eq
  case true.w64 => exact sysGetBe64_eq

/-! ## Putting -/

theorem toNat_toU8 {v : BitVec k} : (toU8 v).toNat = v.toNat % 256 := BitVec.toNat_setWidth ..

/-- The part of a number above its low `s` bits, converted. -/
theorem toNat_high {v : BitVec k} : ((v >>> s).setWidth i).toNat = v.toNat / 2 ^ s % 2 ^ i := by
  rw [BitVec.toNat_setWidth, BitVec.toNat_ushiftRight, Nat.shiftRight_eq_div_pow]

theorem toNat_highU8 {v : BitVec k} : (toU8 (v >>> s)).toNat = v.toNat / 2 ^ s % 256 := toNat_high

section
variable {m₁ m₂ : Memory w} {u v n : Nat}

theorem wrote_big (a b : Nat) (h : Wrote true m m₁ p a u)
    (h' : Wrote true m₁ m₂ (p + .ofNat w a) b v) (hw : a + b ≤ 2 ^ w)
    (hn : u * 256 ^ b + v = n) : Wrote true m m₂ p (a + b) n :=
  hn ▸ h.append_big h' hw

theorem wrote_little (a b : Nat) (h : Wrote false m m₁ p a u)
    (h' : Wrote false m₁ m₂ (p + .ofNat w a) b v) (hw : a + b ≤ 2 ^ w)
    (hn : u + 256 ^ a * v = n) : Wrote false m m₂ p (a + b) n :=
  hn ▸ h.append_little h' hw

end

theorem sysPutBe16_wrote {val : BitVec 16} (hw : 2 ≤ 2 ^ w) :
    Wrote true m (sysPutBe16 m val p) p 2 val.toNat := by
  refine wrote_big 1 1 .byte .byte hw ?_
  have hlt := val.isLt
  rw [toNat_highU8, toNat_toU8]
  omega

theorem sysPutBe24_wrote {val : BitVec 32} (hw : 3 ≤ 2 ^ w) :
    Wrote true m (sysPutBe24 m val p) p 3 (val.toNat % 256 ^ 3) := by
  refine wrote_big 1 2 .byte (sysPutBe16_wrote (by omega)) hw ?_
  rw [toNat_highU8, BitVec.toNat_setWidth]
  omega

theorem sysPutBe32_wrote {val : BitVec 32} (hw : 4 ≤ 2 ^ w) :
    Wrote true m (sysPutBe32 m val p) p 4 val.toNat := by
  refine wrote_big 2 2 (sysPutBe16_wrote (by omega)) (sysPutBe16_wrote (by omega)) hw ?_
  have hlt := val.isLt
  rw [toNat_high, BitVec.toNat_setWidth]
  omega

theorem sysPutBe40_wrote (hw : 5 ≤ 2 ^ w) :
    Wrote true m (sysPutBe40 m val p) p 5 (val.toNat % 256 ^ 5) := by
  refine wrote_big 1 4 .byte (sysPutBe32_wrote (by omega)) hw ?_
  rw [toNat_highU8, BitVec.toNat_setWidth]
  omega

theorem sysPutBe48_wrote (hw : 6 ≤ 2 ^ w) :
    Wrote true m (sysPutBe48 m val p) p 6 (val.toNat % 256 ^ 6) := by
  refine wrote_big 2 4 (sysPutBe16_wrote (by omega)) (sysPutBe32_wrote (by omega)) hw ?_
  rw [toNat_high, BitVec.toNat_setWidth]
  omega

theorem sysPutBe64_wrote (hw : 8 ≤ 2 ^ w) :
    Wrote true m (sysPutBe64 m val p) p 8 (val.toNat % 256 ^ 8) := by
  refine wrote_big 4 4 (sysPutBe32_wrote (by omega)) (sysPutBe32_wrote (by omega)) hw ?_
  rw [toNat_high, BitVec.toNat_setWidth]
  omega

theorem sysPutLe16_wrote {val : BitVec 16} (hw : 2 ≤ 2 ^ w) :
    Wrote false m (sysPutLe16 m val p) p 2 val.toNat := by
  refine wrote_little 1 1 .byte .byte hw ?_
  have hlt := val.isLt
  rw [toNat_highU8, toNat_toU8]
  omega

theorem sysPutLe24_wrote {val : BitVec 32} (hw : 3 ≤ 2 ^ w) :
    Wrote false m (sysPutLe24 m val p) p 3 (val.toNat % 256 ^ 3) := by
  refine wrote_little 2 1 (sysPutLe16_wrote (by omega)) .byte hw ?_
  rw [toNat_highU8, BitVec.toNat_setWidth]
  omega

theorem sysPutLe32_wrote {val : BitVec 32} (hw : 4 ≤ 2 ^ w) :
    Wrote false m (sysPutLe32 m val p) p 4 val.toNat := by
  refine wrote_little 2 2 (sysPutLe16_wrote (by omega)) (sysPutLe16_wrote (by omega)) hw ?_
  have hlt := val.isLt
  rw [toNat_high, BitVec.toNat_setWidth]
  omega

theorem sysPutLe40_wrote (hw : 5 ≤ 2 ^ w) :
    Wrote false m (sysPutLe40 m val p) p 5 (val.toNat % 256 ^ 5) := by
  refine wrote_little 4 1 (sysPutLe32_wrote (by omega)) .byte hw ?_
  rw [toNat_highU8, BitVec.toNat_setWidth]
  omega

theorem sysPutLe48_wrote (hw : 6 ≤ 2 ^ w) :
    Wrote false m (sysPutLe48 m val p) p 6 (val.toNat % 256 ^ 6) := by
  refine wrote_little 4 2 (sysPutLe32_wrote (by omega)) (sysPutLe16_wrote (by omega)) hw ?_
  rw [toNat_high, BitVec.toNat_setWidth]
  omega

theorem sysPutLe64_wrote (hw : 8 ≤ 2 ^ w) :
    Wrote false m (sysPutLe64 m val p) p 8 (val.toNat % 256 ^ 8) := by
  refine wrote_little 4 4 (sysPutLe32_wrote (by omega)) (sysPutLe32_wrote (by omega)) hw ?_
  rw [toNat_high, BitVec.toNat_setWidth]
  omega

/-- **The put functions write the digits**, of as much of the number as there is room for. -/
theorem Width.put_wrote (big : Bool) (width : Width) (hw : width.bytes ≤ 2 ^ w) :
    Wrote big m (width.put m val p big) p width.bytes (val.toNat % 256 ^ width.bytes) := by
  have hlow (k : Nat) : (val.setWidth k).toNat = val.toNat % 2 ^ k := BitVec.toNat_setWidth ..
  have h24 : val.toNat % 256 ^ 3 = (val.setWidth 32).toNat % 256 ^ 3 := by
    rw [hlow]
    omega
  cases big <;> cases width
  case false.w16 => exact hlow 16 ▸ sysPutLe16_wrote hw
  case false.w24 => exact h24 ▸ sysPutLe24_wrote hw
  case false.w32 => exact hlow 32 ▸ sysPutLe32_wrote hw
  case false.w40 => exact sysPutLe40_wrote hw
  case false.w48 => exact sysPutLe48_wrote hw
  case false.w64 => exact sysPutLe64_wrote hw
  case true.w16 => exact hlow 16 ▸ sysPutBe16_wrote hw
  case true.w24 => exact h24 ▸ sysPutBe24_wrote hw
  case true.w32 => exact hlow 32 ▸ sysPutBe32_wrote hw
  case true.w40 => exact sysPutBe40_wrote hw
  case true.w48 => exact sysPutBe48_wrote hw
  case true.w64 => exact sysPutBe64_wrote hw

/-- What is put is got back, as far as there is room for it. -/
theorem Width.get_put (big : Bool) (width : Width) (hw : width.bytes ≤ 2 ^ w) :
    (width.get (width.put m val p big) p big).toNat = val.toNat % 256 ^ width.bytes := by
  rw [width.get_eq, (width.put_wrote big hw).number]

/-- To put what is there changes nothing. -/
theorem Width.put_get (big : Bool) (width : Width) (hw : width.bytes ≤ 2 ^ w) :
    width.put m (width.get m p big) p big = m := by
  have hwrote : Wrote big m (width.put m (width.get m p big) p big) p width.bytes _ :=
    width.put_wrote big hw
  rw [width.get_eq, Nat.mod_eq_of_lt number_lt] at hwrote
  exact hwrote.unique .refl

/-- **The functions of a fixed width are inverse to each other.** A number that is put is got back
without its digits beyond the width, a number that is got may be put back, each byte of the buffer
is the digit that its place says, whatever the order of the host, and no other byte changes. -/
theorem fixed_width_accessors (big : Bool) (width : Width) (hw : width.bytes ≤ 2 ^ w)
    (m : Memory w) (val : BitVec 64) (p : BitVec w) :
    (width.get (width.put m val p big) p big).toNat = val.toNat % 256 ^ width.bytes ∧
    width.put m (width.get m p big) p big = m ∧
    (∀ i < width.bytes, (width.put m val p big (p + .ofNat w i)).toNat =
      val.toNat / 256 ^ place big width.bytes i % 256) ∧
    ∀ q, (∀ i < width.bytes, q ≠ p + .ofNat w i) → width.put m val p big q = m q := by
  have hwrote : Wrote big m (width.put m val p big) p width.bytes _ := width.put_wrote big hw
  refine ⟨width.get_put big hw, width.put_get big hw, fun i hi => ?_, hwrote.frame⟩
  rw [← digit hi, hwrote.number, digit_mod (place_lt hi)]

/-- A number of 24 bits across the end of the address space. -/
theorem fixed_width_accessors_wrapping :
    3 ≤ 2 ^ 32 ∧
    (Width.w24.get (Width.w24.put (fun _ => 0xff) 0xaa112233 0xffffffff#32 true) 0xffffffff#32
      true).toNat = 0x112233 ∧
    Width.w24.put (fun _ => 0xff) 0xaa112233 0xffffffff#32 true 1#32 = 0x33 := by
  have h := fixed_width_accessors true .w24 (w := 32) (by decide) (fun _ => 0xff) 0xaa112233
    0xffffffff#32
  refine ⟨by decide, h.1, ?_⟩
  exact UInt8.toNat_inj.mp (h.2.2.1 2 (by decide))

end

end HazelOsal.ByteOrder
