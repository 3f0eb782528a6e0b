import HazelOsal.Library.Mixing

/-! # The names of the native objects

`name.c` names an object after a hash of a sequence number, the address of the object, the tick and
a salt. The sequence number is taken with the interrupts off and everything else belongs to the
caller, so that the names given are those of the calls in the order in which they take it. -/

namespace HazelOsal.RtThread

open Mixing

section
variable {w : Nat}

/-- `os_rt_hash_mix`. -/
def osRtHashMix (value : BitVec 32) : BitVec 32 :=
  let value := xorShift 16 value
  let value := value * 0x7feb352d
  let value := xorShift 15 value
  let value := value * 0x846ca68b
  xorShift 16 value

/-- The arguments of `os_rt_name_generate`, and what `rt_tick_get` returns to it; the salt is the
string up to its end, and empty where the pointer is null. -/
structure NameCall (w : Nat) where
  kind : List Char
  object : BitVec w
  salt : List UInt8
  tick : BitVec 32

/-- The hash that a name shows; an address has `w` bits. -/
def NameCall.hash (call : NameCall w) (sequence : BitVec 32) : BitVec 32 :=
  let hash := sequence ^^^ call.object.setWidth 32
  let hash := if w > 32 then hash ^^^ (call.object >>> 32).setWidth 32 else hash
  let hash := hash ^^^ call.tick
  let hash := call.salt.foldl (fun hash c => (hash ^^^ c.toBitVec.setWidth 32) * 16777619) hash
  osRtHashMix hash

/-- `%08x`. -/
def hex8 (value : BitVec 32) : List Char := (digits 16 8 value.toNat).map Nat.digitChar

/-- `rt_snprintf`, without the null byte at the end. -/
def rtSnprintf (size : Nat) (text : List Char) : List Char := text.take (size - 1)

/-- `os_rt_name_generate`: the sequence number after the call, and the name. -/
def osRtNameGenerate (nameMax : Nat) (sequence : BitVec 32) (call : NameCall w) :
    BitVec 32 × List Char :=
  let sequence := sequence + 1
  let hash := call.hash sequence
  (sequence, rtSnprintf nameMax <|
    if nameMax ≥ 20 then "osal-".toList ++ call.kind ++ ['-'] ++ hex8 hash
    else if nameMax ≥ 10 then 'o' :: hex8 hash
    else hex8 hash)

/-- The names of the calls. -/
def names (nameMax : Nat) : BitVec 32 → List (NameCall w) → List (List Char)
  | _, [] => []
  | sequence, call :: calls =>
    let (sequence, name) := osRtNameGenerate nameMax sequence call
    name :: names nameMax sequence calls

/-- The kinds of objects that the backend names. -/
def kinds : List (List Char) := ["thr", "wait", "done", "mutex", "event", "sem"].map String.toList

end

/-! ## The hash -/

theorem osRtHashMix_injective : Function.Injective osRtHashMix :=
  (xorShift_injective (by decide)).comp <| (mul_injective (by decide)).comp <|
    (xorShift_injective (by decide)).comp <| (mul_injective (by decide)).comp <|
      xorShift_injective (by decide)

section
variable {w : Nat} {call call' : NameCall w} {sequence sequence' : BitVec 32}

/-- What a call adds to the sequence number. -/
def NameCall.key (call : NameCall w) : BitVec 32 :=
  (call.object.setWidth 32 ^^^ if w > 32 then (call.object >>> 32).setWidth 32 else 0#32) ^^^
    call.tick

theorem salted_injective (salt : List UInt8) : Function.Injective fun hash : BitVec 32 =>
    salt.foldl (fun hash c => (hash ^^^ c.toBitVec.setWidth 32) * 16777619) hash := by
  induction salt with
  | nil => exact fun _ _ h => h
  | cons c salt ih =>
    intro x y h
    have hmul : Function.Injective fun hash : BitVec 32 => hash * 16777619 :=
      mul_injective (by decide)
    exact (BitVec.xor_left_inj _).mp (hmul (ih h))

/-- **No two hashes collide after the sequence number has been mixed with the address and the
tick.** -/
theorem hash_eq_iff (hsalt : call.salt = call'.salt) :
    call.hash sequence = call'.hash sequence' ↔
      sequence ^^^ call.key = sequence' ^^^ call'.key := by
  have hkey (call : NameCall w) (sequence : BitVec 32) :
      (if w > 32 then sequence ^^^ call.object.setWidth 32 ^^^ (call.object >>> 32).setWidth 32
        else sequence ^^^ call.object.setWidth 32) ^^^ call.tick = sequence ^^^ call.key := by
    rw [NameCall.key]
    split <;> simp only [BitVec.xor_assoc, BitVec.zero_xor]
  simp only [NameCall.hash, hkey, hsalt]
  exact (osRtHashMix_injective.comp (salted_injective call'.salt)).eq_iff

end

/-! ## The name -/

section
variable {x y : BitVec 32} {k n : Nat} {text : List Char}

theorem digitChar_map_inj {l l' : List Nat} (hl : ∀ d ∈ l, d < 16) (hl' : ∀ d ∈ l', d < 16) :
    l.map Nat.digitChar = l'.map Nat.digitChar ↔ l = l' := by
  refine ⟨fun h => ?_, fun h => by rw [h]⟩
  let value (c : Char) : Nat := if c.toNat < 97 then c.toNat - 48 else c.toNat - 87
  have hvalue : ∀ d < 16, value (Nat.digitChar d) = d := by decide
  have hback (l : List Nat) (hl : ∀ d ∈ l, d < 16) : (l.map Nat.digitChar).map value = l := by
    rw [List.map_map]
    exact (List.map_congr_left fun d hd => hvalue d (hl d hd)).trans (List.map_id l)
  rw [← hback l hl, ← hback l' hl', h]

theorem take_hex8 : (hex8 x).take k =
    (digits 16 (min k 8) (x.toNat / 16 ^ (8 - k))).map Nat.digitChar := by
  rw [hex8, ← List.map_take]
  rcases Nat.le_total k 8 with hk | hk
  · have htake : (digits 16 8 x.toNat).take k = digits 16 k (x.toNat / 16 ^ (8 - k)) :=
      take_digits (Nat.add_sub_cancel' hk)
    rw [htake, Nat.min_eq_left hk]
  · rw [List.take_of_length_le (by simpa using hk), Nat.min_eq_right hk, Nat.sub_eq_zero_of_le hk,
      Nat.pow_zero, Nat.div_one]

/-- The digits that are cut off do not matter, and the others do. -/
theorem take_hex8_inj : (hex8 x).take k = (hex8 y).take k ↔
    x.toNat / 16 ^ (8 - k) = y.toNat / 16 ^ (8 - k) := by
  have hlt (x : BitVec 32) : x.toNat / 16 ^ (8 - k) < 16 ^ min k 8 := by
    apply Nat.div_lt_of_lt_mul
    rw [← Nat.pow_add, show 8 - k + min k 8 = 8 by omega]
    exact x.isLt
  rw [take_hex8, take_hex8, digitChar_map_inj (fun _ => lt_of_mem_digits (by decide))
    fun _ => lt_of_mem_digits (by decide), digits_inj (hlt x) (hlt y)]

theorem rtSnprintf_inj (pre : List Char) :
    rtSnprintf n (pre ++ hex8 x) = rtSnprintf n (pre ++ hex8 y) ↔
    x.toNat / 16 ^ (8 - (n - 1 - pre.length)) = y.toNat / 16 ^ (8 - (n - 1 - pre.length)) := by
  rw [rtSnprintf, rtSnprintf, List.take_append, List.take_append, List.append_right_inj,
    take_hex8_inj]

end

section
variable {w nameMax : Nat} {call call' : NameCall w} {sequence sequence' : BitVec 32}
  {calls : List (NameCall w)}

/-- **A name shows the hash**, as far as there is room for its digits. -/
theorem osRtNameGenerate_eq_iff (hkind : call.kind = call'.kind) (hkinds : call.kind ∈ kinds) :
    (osRtNameGenerate nameMax sequence call).2 = (osRtNameGenerate nameMax sequence' call').2 ↔
      (call.hash (sequence + 1)).toNat / 16 ^ (8 - (nameMax - 1)) =
        (call'.hash (sequence' + 1)).toNat / 16 ^ (8 - (nameMax - 1)) := by
  have hall : ∀ kind ∈ kinds, kind.length ≤ 5 := by decide
  have hlength := hall _ hkinds
  simp only [osRtNameGenerate, ← hkind]
  split
  case isTrue hmax =>
    have hpre : ("osal-".toList ++ call.kind ++ ['-']).length = call.kind.length + 6 := by
      rw [List.length_append, List.length_append, Nat.add_comm "osal-".toList.length]
      rfl
    rw [rtSnprintf_inj, hpre, Nat.sub_eq_zero_of_le (show 8 ≤ nameMax - 1 by omega),
      Nat.sub_eq_zero_of_le (show 8 ≤ nameMax - 1 - (call.kind.length + 6) by omega)]
  case isFalse =>
    split
    case isTrue hmax =>
      have h := rtSnprintf_inj (n := nameMax) (x := call.hash (sequence + 1))
        (y := call'.hash (sequence' + 1)) ['o']
      rwa [List.length_singleton, Nat.sub_eq_zero_of_le (show 8 ≤ nameMax - 1 - 1 by omega),
        ← Nat.sub_eq_zero_of_le (show 8 ≤ nameMax - 1 by omega)] at h
    case isFalse => exact rtSnprintf_inj []

theorem names_getElem {i : Nat} : (names nameMax sequence calls)[i]? =
    calls[i]?.map fun call => (osRtNameGenerate nameMax (sequence + .ofNat 32 i) call).2 := by
  induction calls generalizing sequence i with
  | nil => rfl
  | cons call calls ih =>
    cases i with
    | zero =>
      have hzero : sequence + .ofNat 32 0 = sequence := BitVec.add_zero sequence
      rw [names, List.getElem?_cons_zero, List.getElem?_cons_zero, Option.map_some, hzero]
    | succ i =>
      have hsucc : sequence + 1 + .ofNat 32 i = sequence + .ofNat 32 (i + 1) := by
        rw [Nat.add_comm i, BitVec.ofNat_add, BitVec.add_assoc]
        rfl
      rw [names, List.getElem?_cons_succ, List.getElem?_cons_succ, ← hsucc]
      exact ih

/-- **When two objects of a kind get the same name.** They do exactly where the digits of their
hashes that there is room for agree. With room for all eight, which is from a length of 9 on, and
with one salt, they do exactly where the sequence number, the address and the tick add up to the
same; and two calls for one object in one tick get different names, unless the sequence number has
wrapped around in between. -/
theorem names_eq_iff {i j : Nat} (hi : calls[i]? = some call) (hj : calls[j]? = some call')
    (hkind : call.kind = call'.kind) (hkinds : call.kind ∈ kinds) :
    ((names nameMax sequence calls)[i]? = (names nameMax sequence calls)[j]? ↔
      (call.hash (sequence + .ofNat 32 (i + 1))).toNat / 16 ^ (8 - (nameMax - 1)) =
        (call'.hash (sequence + .ofNat 32 (j + 1))).toNat / 16 ^ (8 - (nameMax - 1))) ∧
    (9 ≤ nameMax → call.salt = call'.salt →
      ((names nameMax sequence calls)[i]? = (names nameMax sequence calls)[j]? ↔
        (sequence + .ofNat 32 (i + 1)) ^^^ call.key =
          (sequence + .ofNat 32 (j + 1)) ^^^ call'.key) ∧
      (call.object = call'.object → call.tick = call'.tick →
        ((names nameMax sequence calls)[i]? = (names nameMax sequence calls)[j]? ↔
          i ≡ j [MOD 2 ^ 32]))) := by
  have hsucc (i : Nat) : sequence + .ofNat 32 i + 1 = sequence + .ofNat 32 (i + 1) := by
    rw [BitVec.ofNat_add, ← BitVec.add_assoc]
    rfl
  have hnames : (names nameMax sequence calls)[i]? = (names nameMax sequence calls)[j]? ↔
      (call.hash (sequence + .ofNat 32 (i + 1))).toNat / 16 ^ (8 - (nameMax - 1)) =
        (call'.hash (sequence + .ofNat 32 (j + 1))).toNat / 16 ^ (8 - (nameMax - 1)) := by
    rw [names_getElem, names_getElem, hi, hj, Option.map_some, Option.map_some, Option.some_inj,
      osRtNameGenerate_eq_iff hkind hkinds, hsucc, hsucc]
  refine ⟨hnames, fun hmax hsalt => ?_⟩
  have hkeys : (names nameMax sequence calls)[i]? = (names nameMax sequence calls)[j]? ↔
      (sequence + .ofNat 32 (i + 1)) ^^^ call.key =
        (sequence + .ofNat 32 (j + 1)) ^^^ call'.key := by
    rw [hnames, Nat.sub_eq_zero_of_le (show 8 ≤ nameMax - 1 by omega), Nat.pow_zero, Nat.div_one,
      Nat.div_one, BitVec.toNat_inj, hash_eq_iff hsalt]
  refine ⟨hkeys, fun hobject htick => ?_⟩
  have hkey : call.key = call'.key := by rw [NameCall.key, NameCall.key, hobject, htick]
  rw [hkeys, hkey, BitVec.xor_left_inj, BitVec.add_right_inj, ← BitVec.toNat_inj,
    BitVec.toNat_ofNat, BitVec.toNat_ofNat]
  exact ⟨Nat.ModEq.add_right_cancel' 1, Nat.ModEq.add_right 1⟩

/-- A semaphore that is made twice in one tick. -/
theorem names_eq_iff_twice :
    let call : NameCall 32 := ⟨"sem".toList, 0x20000000, [], 7⟩
    (names 24 0 [call, call])[0]? ≠ (names 24 0 [call, call])[1]? := by
  intro call hname
  have hi : [call, call][0]? = some call := rfl
  have hj : [call, call][1]? = some call := rfl
  have hmod : 0 ≡ 1 [MOD 2 ^ 32] :=
    (((names_eq_iff hi hj rfl (by decide)).2 (show 9 ≤ 24 by decide) rfl).2 rfl rfl).mp hname
  exact absurd hmod (by decide)

end

end HazelOsal.RtThread
