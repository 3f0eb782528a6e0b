import HazelOsal.Library.Buffer
import Mathlib.Logic.Function.Basic

/-! # Copies into and out of a byte order

`byteorder.h` copies a value between the byte order of the host and a buffer in little- or
big-endian order. One of the two is the order of the host and takes a `memcpy`; the other one takes
`sys_memcpy_swap`, whose loop reverses the bytes. The test before the loop returns where the areas
do not overlap, and these are the only ones that the function is for. -/

namespace HazelOsal.ByteOrder

/-- The memory by address; a pointer and a `size_t` are words of `w` bits. -/
abbrev Memory (w : Nat) := BitVec w → UInt8

section
variable {w : Nat}

/-- `memcpy`; the areas do not overlap. -/
def memcpy (m : Memory w) (dst src length : BitVec w) : Memory w :=
  fun a => if a - dst < length then m (src + (a - dst)) else m a

/-- The loop of `sys_memcpy_swap`. -/
def sysMemcpySwapLoop (m : Memory w) (pdst psrc : BitVec w) : Nat → Memory w
  | 0 => m
  | length + 1 => sysMemcpySwapLoop (Function.update m pdst (m psrc)) (pdst + 1) (psrc - 1) length

/-- `sys_memcpy_swap`. -/
def sysMemcpySwap (m : Memory w) (dst src length : BitVec w) : Memory w :=
  if (src < dst ∧ src + length ≤ dst) ∨ (src > dst ∧ dst + length ≤ src) then m
  else sysMemcpySwapLoop m dst (src + (length - 1)) length.toNat

/-- A round of the loop of `sys_mem_swap`. -/
def sysMemSwapRound (buf length : BitVec w) (m : Memory w) (i : BitVec w) : Memory w :=
  let tmp := m (buf + i)
  let m := Function.update m (buf + i) (m (buf + (length - 1 - i)))
  Function.update m (buf + (length - 1 - i)) tmp

/-- `sys_mem_swap`. -/
def sysMemSwap (m : Memory w) (buf length : BitVec w) : Memory w :=
  (List.range (length.toNat / 2)).foldl (fun m i => sysMemSwapRound buf length m (.ofNat w i)) m

/-- A copy between the byte order of the host and another one, or the same. -/
def orderCopy (same : Bool) (m : Memory w) (dst src length : BitVec w) : Memory w :=
  if same then memcpy m dst src length else sysMemcpySwap m dst src length

/-- `sys_put_le`; `littleEndian` is `IS_ENABLED(CONFIG_LITTLE_ENDIAN)`. -/
def sysPutLe (littleEndian : Bool) : Memory w → BitVec w → BitVec w → BitVec w → Memory w :=
  orderCopy littleEndian

/-- `sys_put_be`. -/
def sysPutBe (littleEndian : Bool) : Memory w → BitVec w → BitVec w → BitVec w → Memory w :=
  orderCopy !littleEndian

/-- `sys_get_le`. -/
def sysGetLe (littleEndian : Bool) : Memory w → BitVec w → BitVec w → BitVec w → Memory w :=
  orderCopy littleEndian

/-- `sys_get_be`. -/
def sysGetBe (littleEndian : Bool) : Memory w → BitVec w → BitVec w → BitVec w → Memory w :=
  orderCopy !littleEndian

end

open Buffer

section
variable {w n : Nat} {m : Memory w} {dst src x wire out b : Buffer w n} {i j k : Nat}

theorem memcpy_stored (hn : n < 2 ^ w) :
    Stored dst (src.read m) m (memcpy m dst.base src.base (.ofNat w n)) := by
  have htest (a : BitVec w) : a - dst.base < .ofNat w n ↔ a ∈ dst.range := by
    rw [BitVec.lt_def, BitVec.toNat_ofNat, Nat.mod_eq_of_lt hn, mem_range_iff_sub]
  constructor
  case read =>
    apply read_eq_iff.mpr
    intro i hi
    rw [getElem_read, memcpy, if_pos ((htest _).mpr (dst.addr_mem hi)), addr_sub_base]
    rfl
  case frame =>
    intro a ha
    rw [memcpy, if_neg fun hin => ha ((htest a).mp hin)]

/-! ## The loops -/

/-- The loop fills the cells from `i` on: the bytes that it still reads are none that it has
written. -/
theorem sysMemcpySwapLoop_cells (h : Disjoint dst.range src.range) (hk : i + k = n) :
    (∀ j < n, i ≤ j →
      sysMemcpySwapLoop m (dst.addr i) (src.addr k - 1) k (dst.addr j) =
        m (src.addr (n - 1 - j))) ∧
    ∀ a, (∀ j < n, i ≤ j → dst.addr j ≠ a) →
      sysMemcpySwapLoop m (dst.addr i) (src.addr k - 1) k a = m a := by
  induction k generalizing m i with
  | zero => exact ⟨fun j hj hij => by omega, fun a _ => rfl⟩
  | succ k ih =>
    have hread : src.addr (k + 1) - 1 = src.addr k := by rw [addr_succ, BitVec.add_sub_cancel]
    obtain ⟨hcells, hframe⟩ := ih (m := Function.update m (dst.addr i) (m (src.addr k)))
      (i := i + 1) (by omega)
    rw [sysMemcpySwapLoop, hread, ← addr_succ]
    constructor
    · intro j hj hij
      rcases Nat.eq_or_lt_of_le hij with rfl | hlt
      · rw [hframe _ fun j' hj' hij' he => by have := (addr_inj hj' hj).mp he; omega,
          Function.update_self]
        congr 2
        omega
      · rw [hcells j hj hlt, Function.update_of_ne (addr_ne h (by omega) (by omega)).symm]
    · intro a ha
      rw [hframe a fun j hj hij => ha j hj (by omega),
        Function.update_of_ne (ha i (by omega) (Nat.le_refl i)).symm]

/-- **Past the test the loop is right**: it stores the bytes in reverse. -/
theorem sysMemcpySwapLoop_stored (h : Disjoint dst.range src.range) :
    Stored dst (src.read m).reverse m
      (sysMemcpySwapLoop m dst.base (src.base + (.ofNat w n - 1)) n) := by
  have hlast : src.base + (.ofNat w n - 1) = src.addr n - 1 := by
    rw [addr, BitVec.sub_eq_add_neg, BitVec.sub_eq_add_neg, BitVec.add_assoc]
  obtain ⟨hcells, hframe⟩ := sysMemcpySwapLoop_cells (m := m) (i := 0) h (Nat.zero_add n)
  rw [addr_zero, ← hlast] at hcells hframe
  constructor
  case read =>
    apply read_eq_iff.mpr
    intro i hi
    rw [hcells i hi (Nat.zero_le i), Vector.getElem_reverse, getElem_read]
  case frame =>
    intro a ha
    exact hframe a fun j hj _ he => ha ⟨j, hj, he⟩

/-- A round exchanges two cells. -/
theorem sysMemSwapRound_eq (hn : n < 2 ^ w) (hi : i < n) :
    sysMemSwapRound b.base (.ofNat w n) m (.ofNat w i) =
      Function.update (Function.update m (b.addr i) (m (b.addr (n - 1 - i))))
        (b.addr (n - 1 - i)) (m (b.addr i)) := by
  have hoff : BitVec.ofNat w n - 1 - .ofNat w i = .ofNat w (n - 1 - i) := by
    have hone : BitVec.ofNat w n - 1 = .ofNat w (n - 1) :=
      BitVec.ofNat_sub_ofNat_of_le n 1 (by omega) (by omega)
    rw [hone, BitVec.ofNat_sub_ofNat_of_le (n - 1) i (by omega) (by omega)]
  rw [sysMemSwapRound, hoff]
  rfl

/-- After `k` rounds the outermost `k` cells at either end are exchanged. -/
theorem sysMemSwap_cells (hn : n < 2 ^ w) (hk : k ≤ n / 2) :
    (∀ j < n, (List.range k).foldl
        (fun m i => sysMemSwapRound b.base (.ofNat w n) m (.ofNat w i)) m (b.addr j) =
      if j < k ∨ n - 1 - j < k then m (b.addr (n - 1 - j)) else m (b.addr j)) ∧
    ∀ a ∉ b.range, (List.range k).foldl
      (fun m i => sysMemSwapRound b.base (.ofNat w n) m (.ofNat w i)) m a = m a := by
  induction k with
  | zero => exact ⟨fun j _ => by simp, fun a _ => rfl⟩
  | succ k ih =>
    obtain ⟨hcells, hframe⟩ := ih (by omega)
    rw [List.range_succ, List.foldl_append, List.foldl_cons, List.foldl_nil,
      sysMemSwapRound_eq hn (by omega), hcells k (by omega), hcells (n - 1 - k) (by omega)]
    rw [if_neg (by omega), if_neg (by omega)]
    constructor
    · intro j hj
      by_cases hhigh : j = n - 1 - k
      · subst hhigh
        rw [Function.update_self, if_pos (by omega)]
        congr 2
        omega
      have hne := (addr_inj (b := b) hj (show n - 1 - k < n by omega)).not.mpr hhigh
      rw [Function.update_of_ne hne]
      by_cases hlow : j = k
      · subst hlow
        rw [Function.update_self, if_pos (by omega)]
      have hne := (addr_inj (b := b) hj (show k < n by omega)).not.mpr hlow
      rw [Function.update_of_ne hne, hcells j hj]
      have hiff : (j < k ∨ n - 1 - j < k) ↔ (j < k + 1 ∨ n - 1 - j < k + 1) := by omega
      simp only [hiff]
    · intro a ha
      have hne {i : Nat} (hi : i < n) : a ≠ b.addr i := fun he => ha ⟨i, hi, he.symm⟩
      rw [Function.update_of_ne (hne (by omega)), Function.update_of_ne (hne (by omega)),
        hframe a ha]

theorem sysMemSwap_stored (hn : n < 2 ^ w) :
    Stored b (b.read m).reverse m (sysMemSwap m b.base (.ofNat w n)) := by
  have hlength : (BitVec.ofNat w n).toNat = n := Nat.mod_eq_of_lt hn
  obtain ⟨hcells, hframe⟩ := sysMemSwap_cells (b := b) (m := m) hn (Nat.le_refl _)
  rw [sysMemSwap, hlength]
  refine ⟨?_, hframe⟩
  apply read_eq_iff.mpr
  intro i hi
  rw [hcells i hi, Vector.getElem_reverse, getElem_read]
  split
  case isTrue => rfl
  -- the cell in the middle
  case isFalse hmid =>
    congr 2
    omega

/-! ## The test -/

/-- **The test keeps out every pair of areas that do not overlap**: the call leaves the memory as it
is. -/
theorem sysMemcpySwap_of_disjoint (h : Disjoint dst.range src.range) :
    sysMemcpySwap m dst.base src.base (.ofNat w n) = m := by
  have hlength : (BitVec.ofNat w n).toNat = n := Nat.mod_eq_of_lt (lt_of_disjoint h)
  rw [sysMemcpySwap]
  split
  case isTrue => rfl
  case isFalse hover =>
    -- only empty areas at one address get past it
    have hzero : n = 0 := by
      by_contra hn
      have hdst := dst.base.isLt
      have hsrc := src.base.isLt
      simp only [gt_iff_lt, BitVec.lt_def, BitVec.le_def, BitVec.toNat_add, hlength] at hover
      rcases disjoint_range_iff.mp h with hle | hle
      · rw [Nat.mod_eq_of_lt (show dst.base.toNat + n < 2 ^ w by omega)] at hover
        omega
      · rw [Nat.mod_eq_of_lt (show src.base.toNat + n < 2 ^ w by omega)] at hover
        omega
    subst hzero
    rw [hlength]
    rfl

theorem orderCopy_of_disjoint (h : Disjoint dst.range src.range) (same : Bool) :
    orderCopy same m dst.base src.base (.ofNat w n) =
      if same then memcpy m dst.base src.base (.ofNat w n) else m := by
  rw [orderCopy, sysMemcpySwap_of_disjoint h]

/-- A value is read back where both copies are a `memcpy`, and else only if it is there already. -/
theorem orderCopy_round_trip_iff (hwire : Disjoint wire.range x.range)
    (hout : Disjoint out.range wire.range) (same : Bool) :
    out.read (orderCopy same (orderCopy same m wire.base x.base (.ofNat w n)) out.base wire.base
      (.ofNat w n)) = x.read m ↔ same = true ∨ out.read m = x.read m := by
  have hn := lt_of_disjoint hwire
  rw [orderCopy_of_disjoint hwire, orderCopy_of_disjoint hout]
  cases same with
  | false => simp
  | true =>
    simp only [if_true, true_or, iff_true]
    rw [(memcpy_stored hn).read, (memcpy_stored hn).read]

/-- What the copies promise of a value at `x` that is put into `wire` and got back into `out`. -/
structure CopiesInverse (littleEndian : Bool) (m : Memory w) (x wire out : Buffer w n) : Prop where
  swap : ∀ i < n,
    sysMemcpySwap m wire.base x.base (.ofNat w n) (wire.addr i) = m (x.addr (n - 1 - i))
  frame : ∀ a ∉ wire.range, sysMemcpySwap m wire.base x.base (.ofNat w n) a = m a
  be : out.read (sysGetBe littleEndian (sysPutBe littleEndian m wire.base x.base (.ofNat w n))
    out.base wire.base (.ofNat w n)) = x.read m
  le : out.read (sysGetLe littleEndian (sysPutLe littleEndian m wire.base x.base (.ofNat w n))
    out.base wire.base (.ofNat w n)) = x.read m
  put : sysPutBe littleEndian m wire.base x.base (.ofNat w n) =
    sysMemSwap (sysPutLe littleEndian m wire.base x.base (.ofNat w n)) wire.base (.ofNat w n)

theorem sysPutBe_eq_iff (h : Disjoint wire.range x.range) (littleEndian : Bool) :
    sysPutBe littleEndian m wire.base x.base (.ofNat w n) =
      sysMemSwap (sysPutLe littleEndian m wire.base x.base (.ofNat w n)) wire.base (.ofNat w n) ↔
      wire.read m = (x.read m).reverse := by
  have hn := lt_of_disjoint h
  have hcopy : Stored wire (x.read m) m (memcpy m wire.base x.base (.ofNat w n)) :=
    memcpy_stored hn
  rw [sysPutBe, sysPutLe, orderCopy_of_disjoint h, orderCopy_of_disjoint h]
  cases littleEndian with
  | true =>
    have hswap := hcopy.trans (sysMemSwap_stored hn)
    rw [hcopy.read] at hswap
    exact (Stored.refl wire m).eq_iff hswap
  | false =>
    have hswap := sysMemSwap_stored (b := wire) (m := m) hn
    exact (hcopy.eq_iff hswap).trans (eq_comm.trans Vector.reverse_eq_iff)

/-- Where there is nothing to copy the copies are inverse. -/
theorem copiesInverse_of_reversed (hwire : Disjoint wire.range x.range)
    (hout : Disjoint out.range wire.range) (littleEndian : Bool)
    (hreversed : wire.read m = (x.read m).reverse) (hvalue : out.read m = x.read m) :
    CopiesInverse littleEndian m x wire out := by
  refine ⟨fun i hi => ?_, fun a _ => ?_,
    (orderCopy_round_trip_iff hwire hout (!littleEndian)).mpr (.inr hvalue),
    (orderCopy_round_trip_iff hwire hout littleEndian).mpr (.inr hvalue),
    (sysPutBe_eq_iff hwire littleEndian).mpr hreversed⟩
  · rw [sysMemcpySwap_of_disjoint hwire, read_eq_iff.mp hreversed i hi, Vector.getElem_reverse,
      getElem_read]
  · rw [sysMemcpySwap_of_disjoint hwire]

/-- **The copies are inverse only where there is nothing to copy**: the buffer holds the bytes in
reverse before the call, and the value is where it is to be read back. -/
theorem buffer_copies_inverse (littleEndian : Bool) (hwire : Disjoint wire.range x.range)
    (hout : Disjoint out.range wire.range) :
    CopiesInverse littleEndian m x wire out ↔
      wire.read m = (x.read m).reverse ∧ out.read m = x.read m := by
  have hbe := orderCopy_round_trip_iff (m := m) hwire hout (!littleEndian)
  have hle := orderCopy_round_trip_iff (m := m) hwire hout littleEndian
  constructor
  · intro h
    refine ⟨(sysPutBe_eq_iff hwire littleEndian).mp h.put, ?_⟩
    -- one of the two orders is not that of the host
    cases littleEndian with
    | true => exact (hbe.mp h.be).resolve_left (by decide)
    | false => exact (hle.mp h.le).resolve_left (by decide)
  · rintro ⟨hreversed, hvalue⟩
    exact copiesInverse_of_reversed hwire hout littleEndian hreversed hvalue

/-- The two bytes are there in reverse, and the value is where it is read back. -/
theorem buffer_copies_inverse_there : CopiesInverse true
    (fun a => if a = 0 ∨ a = 3 ∨ a = 4 then 1 else 2)
    (⟨0, by decide⟩ : Buffer 32 2) ⟨2, by decide⟩ ⟨4, by decide⟩ := by
  apply (buffer_copies_inverse true (disjoint_range_iff.mpr (by decide))
    (disjoint_range_iff.mpr (by decide))).mpr
  refine ⟨read_eq_iff.mpr ?_, by decide⟩
  simp only [Vector.getElem_reverse, getElem_read]
  decide

/-- The two bytes of a value are neither put nor got. -/
theorem not_buffer_copies_inverse : ∃ (m : Memory 32) (x wire out : Buffer 32 2),
    Disjoint wire.range x.range ∧ Disjoint out.range wire.range ∧ x.read m = #v[1, 2] ∧
    wire.read (sysMemcpySwap m wire.base x.base 2) = #v[0, 0] ∧
    out.read (sysGetBe true (sysPutBe true m wire.base x.base 2) out.base wire.base 2) =
      #v[0, 0] ∧
    ∀ littleEndian, ¬ CopiesInverse littleEndian m x wire out :=
  ⟨fun a => if a = 0 then 1 else if a = 1 then 2 else 0, ⟨0, by decide⟩, ⟨2, by decide⟩,
    ⟨4, by decide⟩, disjoint_range_iff.mpr (by decide), disjoint_range_iff.mpr (by decide),
    by decide, by decide, by decide, fun _ h => absurd (h.swap 0 (by decide)) (by decide)⟩

/-- Whatever the memory holds, only empty values get through. -/
theorem forall_copiesInverse_iff (littleEndian : Bool) (hwire : Disjoint wire.range x.range)
    (hout : Disjoint out.range wire.range) :
    (∀ m, CopiesInverse littleEndian m x wire out) ↔ n = 0 := by
  constructor
  · intro h
    by_contra hn
    have hpos : 0 < n := Nat.pos_of_ne_zero hn
    have hlast : n - 1 < n := Nat.sub_one_lt hn
    -- a byte that is not zero at the start of the buffer, and none else
    have hread := (sysPutBe_eq_iff hwire littleEndian).mp
      (h fun a => if a = wire.addr 0 then 1 else 0).put
    have hfirst := read_eq_iff.mp hread 0 hpos
    rw [Vector.getElem_reverse, getElem_read, if_pos rfl,
      if_neg (addr_ne hwire hpos (by omega)).symm] at hfirst
    exact absurd hfirst (by decide)
  · rintro rfl m
    exact copiesInverse_of_reversed hwire hout littleEndian
      (Vector.ext fun i hi => absurd hi (Nat.not_lt_zero i))
      (Vector.ext fun i hi => absurd hi (Nat.not_lt_zero i))

end

end HazelOsal.ByteOrder
