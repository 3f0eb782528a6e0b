import HazelOsal.Library.Linked
import HazelOsal.Library.Parties
import HazelOsal.Library.Ring
import HazelOsal.Library.SerialTicks
import HazelOsal.MemSlab.System

/-! # The slab never hands out a block twice

The free list is a chain through exactly the blocks that nobody holds: the blocks do not overlap, so
what a holder writes cannot reach a link. The semaphore counts the blocks of the chain that no call
in flight is about to take or has yet to announce. -/

namespace HazelOsal.MemSlab

open TransitionSystem

variable {T N : Type} [DecidableEq T] [DecidableEq N]

/-- `a` is the address of a block of the buffer. -/
def IsBlock (buffer blockSize : Nat) (numBlocks : UInt32) (a : Nat) : Prop :=
  ∃ i < numBlocks.toNat, a = buffer + i * blockSize

/-- What the slab owes its users in a state. -/
structure Exact (port : Port) (buffer blockSize : Nat) (numBlocks : UInt32) (s : State T N) :
    Prop where
  /-- The free list is a chain through `free_blocks` blocks that ends in `NULL`; they are those that
  nobody holds. -/
  chain : ∃ l, Linked s.mem.memory NULL s.mem.slab.freeList l ∧ l.Nodup ∧
    l.length = s.mem.slab.freeBlocks.toNat ∧
    ∀ a, a ∈ l ↔ IsBlock buffer blockSize numBlocks a ∧ s.mem.held a = false
  held_block : ∀ a, s.mem.held a = true → IsBlock buffer blockSize numBlocks a
  /-- The next block to be handed out is one that nobody holds. -/
  alloc : ∀ c, s.call c = .allocCritical → s.mem.slab.freeList ≠ NULL ∧
    IsBlock buffer blockSize numBlocks s.mem.slab.freeList ∧
    s.mem.held s.mem.slab.freeList = false ∧
    ∃ m', (program port).act s (.step c) = some (s.set c m' (.allocated s.mem.slab.freeList)) ∧
      m'.held s.mem.slab.freeList = true
  /-- An address that is not one of a block is refused at once. -/
  free_foreign : ∀ c a, s.call c = .freeEnter a → ¬ IsBlock buffer blockSize numBlocks a →
    (program port).act s (.step c) = some (s.set c s.mem (.done (-EINVAL)))
  free_block : ∀ c a, s.call c = .freeEnter a → IsBlock buffer blockSize numBlocks a →
    (program port).act s (.step c) = some (s.set c s.mem (.freeCritical a))
  /-- A block that nobody holds is refused. -/
  free_unheld : ∀ c a, s.call c = .freeCritical a → s.mem.held a = false →
    (program port).act s (.step c) = some (s.set c s.mem (.done (-EINVAL)))
  /-- A block that is held is taken back. -/
  free_held : ∀ c a, s.call c = .freeCritical a → s.mem.held a = true →
    ∃ m', (program port).act s (.step c) = some (s.set c m' (.freeGive a)) ∧ m'.held a = false
  free_done : ∀ c a, s.call c = .freeGive a →
    ∃ m', (program port).act s (.step c) = some (s.set c m' (.done 0)) ∧
      m'.slab.available.count = s.mem.slab.available.count + 1
  /-- The available blocks and the calls in flight are the free blocks. -/
  available : Conserved s.mem.slab.available.count (s.phase Pc.inFlight) ()
    s.mem.slab.freeBlocks.toNat

/-- What `os_mem_slab_init` has accepted and no call changes. -/
structure Accepted (port : Port) (buffer blockSize : Nat) (numBlocks : UInt32) (slab : OsMemSlab) :
    Prop where
  buffer_pos : 0 < buffer
  blockSize_pos : 0 < blockSize
  numBlocks_pos : 0 < numBlocks.toNat
  fits : blockSize * numBlocks.toNat ≤ port.sizeMax
  buffer : slab.buffer = buffer
  blockSize : slab.blockSize = blockSize
  numBlocks : slab.numBlocks = numBlocks
  available : slab.available.handle = true
  initialized : slab.initialized = true

/-- The free list is the chain `l` of the blocks that nobody holds. -/
structure Chained (buffer blockSize : Nat) (numBlocks : UInt32) (m : Mem) (l : List Nat) :
    Prop where
  linked : Linked m.memory NULL m.slab.freeList l
  count : m.slab.freeBlocks.toNat = l.length
  mem : ∀ a, a ∈ l ↔ IsBlock buffer blockSize numBlocks a ∧ m.held a = false
  held : ∀ a, m.held a = true → IsBlock buffer blockSize numBlocks a

section
variable {port : Port} {buffer blockSize : Nat} {numBlocks : UInt32} {slab : OsMemSlab} {m m' : Mem}
  {a b : Nat} {l : List Nat} {links : Nat → Nat}

/-! ## Addresses of blocks -/

theorem Accepted.size_eq (h : Accepted port buffer blockSize numBlocks slab) {i : Nat}
    (hi : i ≤ numBlocks.toNat) : port.size (i * blockSize) = i * blockSize := by
  have hle := Nat.mul_le_mul_right blockSize hi
  rw [Nat.mul_comm numBlocks.toNat] at hle
  exact Nat.mod_eq_of_lt (Nat.lt_succ_of_le (hle.trans h.fits))

/-- The tests of `os_mem_slab_free` find out the blocks. -/
theorem Accepted.isBlock_iff (h : Accepted port buffer blockSize numBlocks slab) :
    osMemSlabIsBlock port slab a = true ↔ IsBlock buffer blockSize numBlocks a := by
  have htotal := h.size_eq (Nat.le_refl _)
  have hpos := h.blockSize_pos
  simp only [osMemSlabIsBlock, h.buffer, h.blockSize, h.numBlocks, Nat.mul_comm blockSize, htotal,
    Bool.not_eq_true', Bool.or_eq_false_iff, decide_eq_false_iff_not, not_lt, ge_iff_le, not_le,
    ne_eq, not_not]
  constructor
  · rintro ⟨⟨hle, hlt⟩, hmod⟩
    refine ⟨(a - buffer) / blockSize, Nat.div_lt_of_lt_mul (by rwa [Nat.mul_comm]), ?_⟩
    rw [Nat.div_mul_cancel (Nat.dvd_of_mod_eq_zero hmod)]
    omega
  · rintro ⟨i, hi, rfl⟩
    rw [Nat.add_sub_cancel_left]
    exact ⟨⟨Nat.le_add_right .., Nat.mul_lt_mul_of_pos_right hi hpos⟩, Nat.mul_mod_left ..⟩

/-- A block does not reach into another one. -/
theorem IsBlock.disjoint (ha : IsBlock buffer blockSize numBlocks a)
    (hb : IsBlock buffer blockSize numBlocks b) (hab : a ≠ b) :
    ¬ (b ≤ a ∧ a < b + blockSize) := by
  obtain ⟨i, -, rfl⟩ := ha
  obtain ⟨j, -, rfl⟩ := hb
  have hij : i ≠ j := fun he => hab (by rw [he])
  obtain hlt | hlt : i * blockSize + blockSize ≤ j * blockSize ∨ _ := slot_disjoint hij
  all_goals omega

theorem IsBlock.ne_null (h : Accepted port buffer blockSize numBlocks slab)
    (ha : IsBlock buffer blockSize numBlocks a) : a ≠ NULL := by
  obtain ⟨i, -, rfl⟩ := ha
  have := h.buffer_pos
  rw [NULL]
  omega

/-- There are no more than `numBlocks` blocks. -/
theorem length_le_of_isBlock (hl : l.Nodup) (hb : ∀ a ∈ l, IsBlock buffer blockSize numBlocks a) :
    l.length ≤ numBlocks.toNat := by
  have hsub : l ⊆ (List.range numBlocks.toNat).map fun i => buffer + i * blockSize := by
    intro a ha
    obtain ⟨i, hi, rfl⟩ := hb a ha
    exact List.mem_map.mpr ⟨i, List.mem_range.mpr hi, rfl⟩
  have hle := (List.subperm_of_subset hl hsub).length_le
  rwa [List.length_map, List.length_range] at hle

theorem Chained.count_le (h : Chained buffer blockSize numBlocks m l) :
    l.length ≤ numBlocks.toNat :=
  length_le_of_isBlock h.linked.nodup fun a ha => ((h.mem a).mp ha).1

/-- Where a block is held the free list is not full. -/
theorem Chained.count_lt (h : Chained buffer blockSize numBlocks m l) (ha : m.held a = true) :
    l.length < numBlocks.toNat := by
  have hnot : a ∉ l := fun hmem => by
    rw [((h.mem a).mp hmem).2] at ha
    cases ha
  have hblocks : ∀ b ∈ a :: l, IsBlock buffer blockSize numBlocks b := by
    intro b hb
    rcases List.mem_cons.mp hb with rfl | hb
    · exact h.held b ha
    · exact ((h.mem b).mp hb).1
  exact length_le_of_isBlock (List.nodup_cons.mpr ⟨hnot, h.linked.nodup⟩) hblocks

/-- The loop of `os_mem_slab_free` meets exactly the elements of the free list. -/
theorem scan_eq_true (h : Linked links NULL a l) {n : Nat} (hn : l.length ≤ n) :
    osMemSlabScan links b n a = true ↔ b ∈ l := by
  induction l generalizing a n with
  | nil =>
    obtain rfl : a = NULL := h
    cases n <;> simp [osMemSlabScan]
  | cons d l ih =>
    obtain ⟨rfl, hne, h⟩ := h
    cases n with
    | zero => exact absurd hn (Nat.not_succ_le_zero _)
    | succ n =>
      rw [osMemSlabScan, if_neg hne, List.mem_cons]
      split
      case isTrue he => simp [he]
      case isFalse he =>
        rw [ih h (Nat.le_of_succ_le_succ hn)]
        exact (or_iff_right (Ne.symm he)).symm

/-! ## The critical sections -/

/-- **`os_mem_slab_alloc` hands out the head of the free list.** -/
theorem Chained.alloc (h : Chained buffer blockSize numBlocks m (a :: l)) :
    m.slab.freeList = a ∧ Chained buffer blockSize numBlocks (osMemSlabAllocCritical m).1 l := by
  have hnodup := h.linked.nodup
  obtain ⟨hhead, hne, hlinked⟩ := h.linked
  have ha := (h.mem a).mp List.mem_cons_self
  have hcount := h.count
  rw [List.length_cons] at hcount
  refine ⟨hhead, hlinked, ?_, fun b => ?_, fun b hb => ?_⟩
  · refine (SerialTicks.toNat_pred (by omega)).trans ?_
    omega
  · simp only [osMemSlabAllocCritical, hhead, Function.update_apply]
    split
    case isTrue he =>
      subst he
      simpa using (List.nodup_cons.mp hnodup).1
    case isFalse hne => rw [← h.mem b, List.mem_cons, or_iff_right hne]
  · simp only [osMemSlabAllocCritical, hhead, Function.update_apply] at hb
    split at hb
    case isTrue he => exact he ▸ ha.1
    case isFalse => exact h.held b hb

/-- **`os_mem_slab_free` takes back a block that is held.** -/
theorem Chained.free (h : Chained buffer blockSize numBlocks m l)
    (hs : Accepted port buffer blockSize numBlocks m.slab) (ha : m.held a = true) :
    ∃ m', osMemSlabFreeCritical m a = some m' ∧ m'.held a = false ∧
      m'.slab = { m.slab with freeList := a, freeBlocks := m.slab.freeBlocks + 1 } ∧
      Chained buffer blockSize numBlocks m' (a :: l) := by
  have hblock := h.held a ha
  have hnot : a ∉ l := fun hmem => by
    rw [((h.mem a).mp hmem).2] at ha
    cases ha
  have hlt := h.count_lt ha
  have hroom : ¬ m.slab.freeBlocks ≥ m.slab.numBlocks := by
    rw [hs.numBlocks, ge_iff_le, UInt32.le_iff_toNat_le, h.count]
    exact Nat.not_le.mpr hlt
  have hscan : ¬ osMemSlabScan m.memory a m.slab.freeBlocks.toNat m.slab.freeList = true := by
    rw [scan_eq_true h.linked (Nat.le_of_eq h.count.symm)]
    exact hnot
  rw [osMemSlabFreeCritical, if_neg hroom, if_neg hscan]
  refine ⟨_, rfl, Function.update_self .., rfl, h.linked.push hnot (hblock.ne_null hs), ?_,
    fun b => ?_, fun b hb => ?_⟩
  · have hbound := numBlocks.toNat_lt
    have hcount := h.count
    refine (SerialTicks.toNat_succ (by omega)).trans ?_
    rw [hcount, List.length_cons]
  · rw [List.mem_cons, h.mem b]
    dsimp only
    rw [Function.update_apply]
    split
    case isTrue he => simp [he, hblock]
    case isFalse he => exact or_iff_right he
  · dsimp only at hb
    rw [Function.update_apply] at hb
    split at hb
    case isTrue => cases hb
    case isFalse => exact h.held b hb

/-- **`os_mem_slab_free` refuses a block that nobody holds.** -/
theorem Chained.free_refused (h : Chained buffer blockSize numBlocks m l)
    (hb : IsBlock buffer blockSize numBlocks a) (ha : m.held a = false) :
    osMemSlabFreeCritical m a = none := by
  rw [osMemSlabFreeCritical]
  split
  case isTrue => rfl
  case isFalse =>
    have hscan : osMemSlabScan m.memory a m.slab.freeBlocks.toNat m.slab.freeList = true :=
      (scan_eq_true h.linked (Nat.le_of_eq h.count.symm)).mpr ((h.mem a).mpr ⟨hb, ha⟩)
    rw [if_pos hscan]

/-- What the holder of a block writes does not reach the free list. -/
theorem Chained.write (h : Chained buffer blockSize numBlocks m l)
    (hs : Accepted port buffer blockSize numBlocks m.slab) (ha : m.held a = true)
    (content : Nat → Nat) : Chained buffer blockSize numBlocks (m.write a content) l := by
  refine ⟨h.linked.congr fun b hb => ?_, h.count, h.mem, h.held⟩
  obtain ⟨hblock, hfree⟩ := (h.mem b).mp hb
  have hne : b ≠ a := fun he => by rw [he, ha] at hfree; cases hfree
  rw [Mem.write, hs.blockSize]
  exact if_neg (hblock.disjoint (h.held a ha) hne)

/-! ## What the critical sections keep -/

theorem Accepted.setAvailable (h : Accepted port buffer blockSize numBlocks m.slab)
    {available : OsSem m.slab.numBlocks.toNat} (hav : available.handle = true) :
    Accepted port buffer blockSize numBlocks (m.setAvailable available).slab :=
  { h with available := hav }

theorem Accepted.allocCritical (h : Accepted port buffer blockSize numBlocks m.slab) :
    Accepted port buffer blockSize numBlocks (osMemSlabAllocCritical m).1.slab :=
  { h with }

theorem Accepted.free (h : Accepted port buffer blockSize numBlocks m.slab) {freeBlocks : UInt32}
    (hs : slab = { m.slab with freeList := a, freeBlocks }) :
    Accepted port buffer blockSize numBlocks slab := by
  subst hs
  exact { h with }

theorem Chained.setAvailable (h : Chained buffer blockSize numBlocks m l)
    {available : OsSem m.slab.numBlocks.toNat} :
    Chained buffer blockSize numBlocks (m.setAvailable available) l :=
  { h with }

/-! ## Initialization -/

/-- Each round of the loop links one block to the next. -/
theorem Accepted.link_block (h : Accepted port buffer blockSize numBlocks slab)
    (memory : Nat → Nat) {i k : Nat} (hi : i < k) (hk : k ≤ numBlocks.toNat) :
    osMemSlabLink port memory buffer blockSize numBlocks k (buffer + i * blockSize) =
      if i + 1 < numBlocks.toNat then buffer + (i + 1) * blockSize else NULL := by
  induction k with
  | zero => cases hi
  | succ k ih =>
    rw [osMemSlabLink, h.size_eq (Nat.le_of_succ_le hk)]
    rcases Nat.eq_or_lt_of_le (Nat.le_of_lt_succ hi) with rfl | hik
    · rw [Function.update_self, Nat.succ_mul, Nat.add_assoc]
    · have hne : buffer + i * blockSize ≠ buffer + k * blockSize := fun he =>
        Nat.ne_of_lt hik (Nat.mul_right_cancel h.blockSize_pos (Nat.add_left_cancel he))
      rw [Function.update_of_ne hne]
      exact ih hik (Nat.le_of_succ_le hk)

/-- From any block on, the loop has linked the rest of them. -/
theorem Accepted.linked (h : Accepted port buffer blockSize numBlocks slab) (memory : Nat → Nat)
    {i k : Nat} (hk : i + k = numBlocks.toNat) :
    Linked (osMemSlabLink port memory buffer blockSize numBlocks numBlocks.toNat) NULL
      (if i < numBlocks.toNat then buffer + i * blockSize else NULL)
      ((List.range' i k).map fun j => buffer + j * blockSize) := by
  induction k generalizing i with
  | zero => exact if_neg (by omega)
  | succ k ih =>
    have hi : i < numBlocks.toNat := by omega
    have hne : buffer + i * blockSize ≠ NULL := IsBlock.ne_null h ⟨i, hi, rfl⟩
    rw [if_pos hi, List.range'_succ, List.map_cons]
    refine ⟨rfl, hne, ?_⟩
    rw [h.link_block memory hi (Nat.le_refl _)]
    exact ih (by omega)

theorem Accepted.of_init {memory memory' : Nat → Nat}
    (h : osMemSlabInit port memory buffer blockSize numBlocks = .ok (slab, memory')) :
    Accepted port buffer blockSize numBlocks slab ∧
      slab = .full buffer blockSize numBlocks ∧
      memory' = osMemSlabLink port memory buffer blockSize numBlocks numBlocks.toNat := by
  simp only [osMemSlabInit] at h
  split at h
  case isTrue => cases h
  case isFalse harg =>
    split at h
    case isTrue => cases h
    case isFalse =>
      cases h
      simp only [not_or, not_lt, gt_iff_lt] at harg
      obtain ⟨hbuffer, hsize, hnum, -, -, hfits⟩ := harg
      have hpos : 0 < numBlocks.toNat :=
        Nat.pos_of_ne_zero fun h => hnum (SerialTicks.eq_zero_iff.mpr h)
      rw [Nat.le_div_iff_mul_le hpos] at hfits
      have hblock : 0 < blockSize := port.pointerSize_pos.trans_le hsize
      exact ⟨⟨Nat.pos_of_ne_zero hbuffer, hblock, hpos, hfits, rfl, rfl, rfl, rfl, rfl⟩, rfl, rfl⟩

end

/-! ## The invariant -/

/-- The invariant of the slab. -/
structure SlabInv (port : Port) (buffer blockSize : Nat) (numBlocks : UInt32) (s : State T N) :
    Prop where
  accepted : Accepted port buffer blockSize numBlocks s.mem.slab
  chained : ∃ l, Chained buffer blockSize numBlocks s.mem l
  available : Conserved s.mem.slab.available.count (s.phase Pc.inFlight) ()
    s.mem.slab.freeBlocks.toNat
  freeing : ∀ c a, s.call c = .freeCritical a → IsBlock buffer blockSize numBlocks a

section
variable {port : Port} {buffer blockSize : Nat} {numBlocks : UInt32} {s s' : State T N}
  {c : Caller T N} {m' : Mem} {p' : Pc} {a : Act T N}

omit [DecidableEq T] [DecidableEq N] in
theorem Init.inv (h : Init port buffer blockSize numBlocks s.mem) (hcall : ∀ c, s.call c = .idle) :
    SlabInv port buffer blockSize numBlocks s := by
  obtain ⟨memory, hinit⟩ := h.slab
  obtain ⟨ha, hslab, hmemory⟩ := Accepted.of_init hinit
  have hfree : s.mem.slab.freeBlocks = numBlocks := by rw [hslab]; rfl
  have hcount : s.mem.slab.available.count = numBlocks.toNat := by rw [hslab]; rfl
  have hchained : Chained buffer blockSize numBlocks s.mem
      ((List.range' 0 numBlocks.toNat).map fun j => buffer + j * blockSize) := by
    refine ⟨?_, ?_, fun b => ?_, fun b hb => ?_⟩
    · have hlinked := ha.linked memory (Nat.zero_add numBlocks.toNat)
      rw [if_pos ha.numBlocks_pos, Nat.zero_mul, Nat.add_zero] at hlinked
      have hhead : s.mem.slab.freeList = buffer := by rw [hslab]; rfl
      rw [hmemory, hhead]
      exact hlinked
    · rw [hfree, List.length_map, List.length_range']
    · rw [h.held b, List.mem_map, IsBlock]
      simp [eq_comm]
    · rw [h.held b] at hb
      cases hb
  refine ⟨ha, ⟨_, hchained⟩, ?_, fun c b hc => ?_⟩
  · rw [hfree, hcount]
    refine .of_none fun c hc => ?_
    rw [Callers.phase, hcall] at hc
    cases hc
  · rw [hcall] at hc
    cases hc

/-- The calls in the loop of `os_mem_slab_free`, after a step of a call that is not about to enter
it. -/
theorem SlabInv.freeing_set (h : SlabInv port buffer blockSize numBlocks s)
    (hp : ∀ b, p' = .freeCritical b → IsBlock buffer blockSize numBlocks b) (d : Caller T N)
    (b : Nat) (hd : (s.set c m' p').call d = .freeCritical b) :
    IsBlock buffer blockSize numBlocks b := by
  rw [Callers.set_call] at hd
  split at hd
  case isTrue => exact hp b hd
  case isFalse => exact h.freeing d b hd

/-- **One step of a call keeps the free list apart from the blocks that are held.** -/
theorem SlabInv.callStep (h : SlabInv port buffer blockSize numBlocks s)
    (hs : callStep port c s.mem (s.call c) = some (m', p')) :
    SlabInv port buffer blockSize numBlocks (s.set c m' p') := by
  have he := callStep_effect hs
  have ha := h.accepted
  have hav := h.available
  obtain ⟨l, hl⟩ := h.chained
  generalize hp : s.call c = p at he
  have hflight : s.phase Pc.inFlight c = p.inFlight := congrArg Pc.inFlight hp
  have hfreeing (hb : ∀ b, p' = .freeCritical b → IsBlock buffer blockSize numBlocks b) :
      ∀ d b, (s.set c m' p').call d = .freeCritical b → IsBlock buffer blockSize numBlocks b :=
    h.freeing_set hb
  cases he with
  | quiet hnone hnone' hm =>
    refine ⟨ha, ⟨l, hl⟩, ?_, hfreeing fun b hb => absurd hb (hm b)⟩
    rw [Callers.set_phase]
    exact hav.other (by simp [hflight, hnone]) (by simp [hnone'])
  | take hnone ht =>
    obtain ⟨hhandle, htaken⟩ := OsSem.tryTake_eq_some ht
    rw [htaken] at hav
    refine ⟨ha.setAvailable (hhandle.trans ha.available), ⟨l, hl.setAvailable⟩, ?_,
      hfreeing fun b hb => by cases hb⟩
    rw [Callers.set_phase]
    exact hav.take (by simp [hflight, hnone])
  | alloc =>
    have hpos := hl.count ▸ hav.lt hflight
    obtain ⟨b, l', rfl⟩ := List.exists_cons_of_length_pos (Nat.zero_lt_of_lt hpos)
    have hnext := hl.alloc.2
    refine ⟨ha.allocCritical, ⟨l', hnext⟩, ?_, hfreeing fun b hb => by cases hb⟩
    have huse := hav.use (b := none) hflight (by simp)
    rw [hl.count, List.length_cons, Nat.add_sub_cancel, ← hnext.count] at huse
    rw [Callers.set_phase]
    exact huse
  | enterFree hb =>
    refine ⟨ha, ⟨l, hl⟩, ?_, hfreeing fun b hb' => ?_⟩
    · rw [Callers.set_phase]
      exact hav.other (by simp [hflight, Pc.inFlight]) (by simp [Pc.inFlight])
    · cases hb'
      exact ha.isBlock_iff.mp hb
  | @free memory m' hf =>
    have hheld : s.mem.held memory = true := by
      by_contra hfree
      rw [hl.free_refused (h.freeing c memory hp) (Bool.not_eq_true _ ▸ hfree)] at hf
      cases hf
    obtain ⟨m₁, hf₁, -, hslab, hnext⟩ := hl.free ha hheld
    cases hf.symm.trans hf₁
    refine ⟨ha.free hslab, ⟨_, hnext⟩, ?_, hfreeing fun b hb => by cases hb⟩
    have hmake := hav.make (c := c) (by simp [hflight, Pc.inFlight])
    rw [hl.count, ← List.length_cons, ← hnext.count] at hmake
    have hcount : m'.slab.available.count = s.mem.slab.available.count := by rw [hslab]
    rw [Callers.set_phase, Callers.set_mem, hcount]
    exact hmake
  | refuse =>
    refine ⟨ha, ⟨l, hl⟩, ?_, hfreeing fun b hb => by cases hb⟩
    rw [Callers.set_phase]
    exact hav.other (by simp [hflight, Pc.inFlight]) (by simp [Pc.inFlight])
  | give =>
    have hlt := hav.lt hflight
    have hgive : s.mem.slab.available.give.count = s.mem.slab.available.count + 1 := by
      rw [OsSem.give_count_of_handle ha.available]
      have := hl.count_le
      rw [← hl.count, ← ha.numBlocks] at this
      omega
    refine ⟨ha.setAvailable ((OsSem.give_handle _).trans ha.available), ⟨l, hl.setAvailable⟩, ?_,
      hfreeing fun b hb => by cases hb⟩
    have hput := hav.give (b := none) hflight (by simp)
    rw [Callers.set_phase]
    rw [← hgive] at hput
    exact hput

theorem SlabInv.move (h : SlabInv port buffer blockSize numBlocks s)
    (hs : (program port).Move s a s') : SlabInv port buffer blockSize numBlocks s' := by
  have hmove {c p'} (hp : (s.call c).inFlight = none) (hp' : p'.inFlight = none)
      (hm : ∀ b, p' ≠ .freeCritical b) :
      SlabInv port buffer blockSize numBlocks (s.set c s.mem p') := by
    refine ⟨h.accepted, h.chained, ?_, h.freeing_set fun b hb => absurd hb (hm b)⟩
    rw [Callers.set_phase]
    exact h.available.other (by simp [Callers.phase, hp]) (by simp [hp'])
  cases hs with
  | @call c op hfree =>
    have hp : (s.call c).inFlight = none := by
      generalize s.call c = p at hfree
      cases p <;> first | rfl | cases hfree
    cases op <;> exact hmove hp rfl fun _ hb => by cases hb
  | step hstep => exact h.callStep hstep
  | expire hexpire =>
    obtain ⟨hp, rfl⟩ := callExpire_eq hexpire
    exact hmove hp rfl fun _ hb => by cases hb
  | @event e m hevent =>
    obtain ⟨hheld, hm⟩ := Option.ite_none_right_eq_some.mp hevent
    cases hm
    obtain ⟨l, hl⟩ := h.chained
    exact ⟨h.accepted, ⟨l, hl.write h.accepted hheld e.2⟩, h.available, h.freeing⟩

theorem inv_of_reachable (h : Reachable (system port buffer blockSize numBlocks) s) :
    SlabInv port buffer blockSize numBlocks s := by
  refine Program.invariant (fun s hm hcall => ?_) (fun _ _ _ hi _ hs => hi.move hs) h
  exact hm.inv hcall

/-! ## What the callers see -/

theorem SlabInv.exact (h : SlabInv port buffer blockSize numBlocks s) :
    Exact port buffer blockSize numBlocks s := by
  have ha := h.accepted
  obtain ⟨l, hl⟩ := h.chained
  refine ⟨⟨l, hl.linked, hl.linked.nodup, hl.count.symm, hl.mem⟩, hl.held, fun c hc => ?_,
    fun c b hc hb => ?_, fun c b hc hb => ?_, fun c b hc hb => ?_, fun c b hc hb => ?_,
    fun c b hc => ?_, h.available⟩
  case refine_1 =>
    have hpos := hl.count ▸ h.available.lt (congrArg Pc.inFlight hc)
    obtain ⟨b, l', rfl⟩ := List.exists_cons_of_length_pos (Nat.zero_lt_of_lt hpos)
    obtain ⟨hhead, -⟩ := hl.alloc
    obtain ⟨hblock, hfree⟩ := (hl.mem b).mp List.mem_cons_self
    rw [hhead]
    refine ⟨hblock.ne_null ha, hblock, hfree, (osMemSlabAllocCritical s.mem).1, ?_, ?_⟩
    · rw [← hhead]
      exact Program.act_step hc rfl
    · exact hhead ▸ Function.update_self ..
  case refine_2 =>
    refine Program.act_step hc ?_
    have hfalse : osMemSlabIsBlock port s.mem.slab b = false :=
      Bool.eq_false_iff.mpr fun hb' => hb (ha.isBlock_iff.mp hb')
    simp only [program, MemSlab.callStep, hfalse]
    split <;> rfl
  case refine_3 =>
    refine Program.act_step hc ?_
    simp [program, MemSlab.callStep, ha.initialized, hb.ne_null ha, ha.isBlock_iff.mpr hb]
  case refine_4 =>
    refine Program.act_step hc ?_
    simp only [program, MemSlab.callStep, hl.free_refused (h.freeing c b hc) hb]
  case refine_5 =>
    obtain ⟨m₁, hf, hnot, -⟩ := hl.free ha hb
    refine ⟨m₁, Program.act_step hc ?_, hnot⟩
    simp only [program, MemSlab.callStep, hf]
  case refine_6 =>
    refine ⟨_, Program.act_step hc rfl, ?_⟩
    have hlt := h.available.lt (congrArg Pc.inFlight hc)
    have hle := hl.count_le
    rw [← hl.count, ← ha.numBlocks] at hle
    exact (OsSem.give_count_of_handle ha.available).trans (by omega)

/-- **The free list is exactly the blocks that nobody holds.** `os_mem_slab_alloc` hands out one of
them, and `os_mem_slab_free` takes back exactly the blocks that are held and refuses every other
address. -/
theorem mem_slab_exact (h : Reachable (system port buffer blockSize numBlocks) s) :
    Exact port buffer blockSize numBlocks s :=
  (inv_of_reachable h).exact

end

/-! ## A concrete run -/

/-- The slab below: two blocks of two words at address 4096. -/
def twoBlocks : Port :=
  { sizeMax := 65535, semCreated := fun _ => true, pointerSize := 8, pointerSize_pos := by decide }

/-- Two callers take both blocks and one of them fills its block; the other frees its own one, and
then the first tries to free that one again. -/
def slabRun {T : Type} (t u : T) : List (Act T Unit) :=
  callSteps (Caller.thread t) (Op.alloc 0) 3 ++ callSteps (Caller.thread u) (Op.alloc 0) 3 ++
    [CallAct.event (4112, fun _ => 7)] ++ callSteps (Caller.thread t) (Op.free 4096) 3 ++
    callSteps (Caller.thread u) (Op.free 4096) 2

theorem mem_slab_exact_twoBlocks : ∃ s : State (Fin 2) Unit,
    exec (system twoBlocks 4096 16 2) ⟨.initial twoBlocks 4096 16 2, fun _ => .idle⟩
      (slabRun 0 1) = some s ∧
    s.call (.thread 1) = .done (-EINVAL) ∧ Exact twoBlocks 4096 16 2 s := by
  obtain ⟨s, hs, hc⟩ := exists_of_exec (slabRun (0 : Fin 2) 1)
    (M := system twoBlocks 4096 16 2) (s := ⟨.initial twoBlocks 4096 16 2, fun _ => .idle⟩)
    (P := fun s => s.call (.thread 1) = .done (-EINVAL)) (by decide +kernel)
  have hinit : Init twoBlocks 4096 16 2 (.initial twoBlocks 4096 16 2) :=
    ⟨⟨fun _ => 0, rfl⟩, fun _ => rfl⟩
  exact ⟨s, hs, hc,
    mem_slab_exact (reachable_of_exec (slabRun 0 1) ⟨hinit, fun _ => rfl⟩ hs)⟩

end HazelOsal.MemSlab
