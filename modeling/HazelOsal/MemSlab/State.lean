import HazelOsal.MessageQueue.State

/-! # Data model of the memory slab

`mem_slab.c`: the free list, which lies in the blocks themselves, the semaphore of available blocks,
and one definition for each `os_enter_critical` … `os_exit_critical` block. An address is a natural
number and `NULL` is zero; memory is the function from addresses to the pointers stored there, since
a block consists of whole pointers and nothing else of it is ever read. The null checks on the
`slab` and on the address of the result are left out with these pointers. -/

namespace HazelOsal.MemSlab

/-- What the configuration determines: besides that of the message queue, `sizeof(void *)`. -/
structure Port extends MessageQueue.Port where
  pointerSize : Nat
  pointerSize_pos : 0 < pointerSize

/-- A value of `size_t`. -/
def Port.size (port : Port) (n : Nat) : Nat := n % (port.sizeMax + 1)

def NULL : Nat := 0

/-- `struct os_mem_slab`. -/
structure OsMemSlab where
  buffer : Nat
  freeList : Nat
  blockSize : Nat
  numBlocks : UInt32
  freeBlocks : UInt32
  available : OsSem numBlocks.toNat
  initialized : Bool

/-- The first `i` rounds of the loop of `os_mem_slab_init`, which link the blocks. -/
def osMemSlabLink (port : Port) (memory : Nat → Nat) (buffer blockSize : Nat) (numBlocks : UInt32) :
    Nat → Nat → Nat
  | 0 => memory
  | i + 1 =>
    let block := buffer + port.size (i * blockSize)
    Function.update (osMemSlabLink port memory buffer blockSize numBlocks i) block
      (if i + 1 < numBlocks.toNat then block + blockSize else NULL)

/-- The slab as `os_mem_slab_init` leaves it on success. -/
def OsMemSlab.full (buffer blockSize : Nat) (numBlocks : UInt32) : OsMemSlab where
  buffer := buffer
  freeList := buffer
  blockSize := blockSize
  numBlocks := numBlocks
  freeBlocks := numBlocks
  available := .initFull
  initialized := true

/-- `os_mem_slab_init`: the slab and the memory, or the error. -/
def osMemSlabInit (port : Port) (memory : Nat → Nat) (buffer blockSize : Nat) (numBlocks : UInt32) :
    Except Int (OsMemSlab × (Nat → Nat)) :=
  if buffer = NULL ∨ blockSize < port.pointerSize ∨ numBlocks = 0 ∨
      buffer % port.pointerSize ≠ 0 ∨ blockSize % port.pointerSize ≠ 0 ∨
      blockSize > port.sizeMax / numBlocks.toNat then
    .error (-EINVAL)
  else if !port.osSemInit numBlocks numBlocks then .error (-ENOMEM)
  else
    .ok (.full buffer blockSize numBlocks,
      osMemSlabLink port memory buffer blockSize numBlocks numBlocks.toNat)

/-- The slab, the memory, and the record of the blocks that calls of `os_mem_slab_alloc` have handed
out and none of `os_mem_slab_free` has taken back. No modelled function reads the record. -/
structure Mem where
  slab : OsMemSlab
  memory : Nat → Nat
  held : Nat → Bool

namespace Mem

variable (m : Mem)

def setAvailable (available : OsSem m.slab.numBlocks.toNat) : Mem :=
  { m with slab := { m.slab with available } }

/-- The holder of a block writes to it. -/
def write (block : Nat) (content : Nat → Nat) : Mem :=
  { m with
    memory := fun address =>
      if block ≤ address ∧ address < block + m.slab.blockSize then content address
      else m.memory address }

end Mem

/-- The critical section of `os_mem_slab_alloc`, and the block it hands out. -/
def osMemSlabAllocCritical (m : Mem) : Mem × Nat :=
  let memory := m.slab.freeList
  ({ m with
      slab :=
        { m.slab with
          freeList := m.memory memory
          freeBlocks := m.slab.freeBlocks - 1 }
      held := Function.update m.held memory true },
    memory)

/-- The tests of `os_mem_slab_free` on the address: it is that of a block. -/
def osMemSlabIsBlock (port : Port) (slab : OsMemSlab) (memory : Nat) : Bool :=
  let total := port.size (slab.blockSize * slab.numBlocks.toNat)
  !(memory < slab.buffer || memory - slab.buffer ≥ total ||
    (memory - slab.buffer) % slab.blockSize ≠ 0)

/-- The loop of `os_mem_slab_free` from `freeBlock` on, with `n` rounds left: it meets `memory`. -/
def osMemSlabScan (links : Nat → Nat) (memory : Nat) : Nat → Nat → Bool
  | 0, _ => false
  | n + 1, freeBlock =>
    if freeBlock = NULL then false
    else if freeBlock = memory then true
    else osMemSlabScan links memory n (links freeBlock)

/-- The critical section of `os_mem_slab_free`; `none` where it fails with `-EINVAL`. -/
def osMemSlabFreeCritical (m : Mem) (memory : Nat) : Option Mem :=
  if m.slab.freeBlocks ≥ m.slab.numBlocks then none
  else if osMemSlabScan m.memory memory m.slab.freeBlocks.toNat m.slab.freeList then none
  else
    some
      { slab :=
          { m.slab with
            freeList := memory
            freeBlocks := m.slab.freeBlocks + 1 }
        memory := Function.update m.memory memory m.slab.freeList
        held := Function.update m.held memory false }

end HazelOsal.MemSlab
