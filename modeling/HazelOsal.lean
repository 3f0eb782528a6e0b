import HazelOsal.Library.SerialTicks
import HazelOsal.Library.Semaphore
import HazelOsal.Library.Transition
import HazelOsal.Library.Parties
import HazelOsal.Library.DeletionQueue
import HazelOsal.Library.Chains
import HazelOsal.Library.Inheritance
import HazelOsal.Library.PriorityOrder
import HazelOsal.Library.Located
import HazelOsal.Library.Parking
import HazelOsal.Library.Ring
import HazelOsal.Library.Fifo
import HazelOsal.Library.Linked
import HazelOsal.Library.Callers
import HazelOsal.Library.Mailbox
import HazelOsal.Library.Mealy
import HazelOsal.Library.Buffer
import HazelOsal.WorkQueue.Effects
import HazelOsal.WorkQueue.Invariant
import HazelOsal.WorkQueue.Refinement
import HazelOsal.WorkQueue.Identifiers
import HazelOsal.WorkQueue.Delayed
import HazelOsal.WorkQueue.CancelSync
import HazelOsal.WorkQueue.Reuse
import HazelOsal.WorkQueue.Drain
import HazelOsal.WorkQueue.Stop
import HazelOsal.WorkQueue.Wakeup
import HazelOsal.WorkQueue.SyncWait
import HazelOsal.WorkQueue.Promotion
import HazelOsal.WorkQueue.Flush
import HazelOsal.WorkQueue.Reschedule
import HazelOsal.WorkQueue.PromotionRun
import HazelOsal.Time.Conversion
import HazelOsal.FreeRtos.Invariant
import HazelOsal.FreeRtos.Deadlock
import HazelOsal.FreeRtos.Inheritance
import HazelOsal.FreeRtos.Order
import HazelOsal.FreeRtos.Ownership
import HazelOsal.FreeRtos.Deinit
import HazelOsal.FreeRtos.Slot
import HazelOsal.FreeRtos.Handover
import HazelOsal.FreeRtos.Notification
import HazelOsal.FreeRtos.Leftover
import HazelOsal.FreeRtos.Abort
import HazelOsal.FreeRtos.LockTimeout
import HazelOsal.FreeRtos.Arrival
import HazelOsal.FreeRtos.Uptime
import HazelOsal.RtThread.WaitQueue
import HazelOsal.RtThread.Slot
import HazelOsal.RtThread.Leftover
import HazelOsal.RtThread.Uptime
import HazelOsal.RtThread.Timeout
import HazelOsal.RtThread.AbortFailure
import HazelOsal.MessageQueue.Linearize
import HazelOsal.MessageQueue.Deinit
import HazelOsal.MemSlab.Blocks
import HazelOsal.Fifo.Exact
import HazelOsal.Signal.Delivery
import HazelOsal.Event.Adapters
import HazelOsal.Event.Reference
import HazelOsal.Thread.Reaping
import HazelOsal.Thread.Reuse
import HazelOsal.ByteOrder.BufferCopy
import HazelOsal.Library.DoublyLinked
import HazelOsal.Library.Calls
import HazelOsal.Library.Families
import HazelOsal.Dlist.Operations
import HazelOsal.Dlist.Refinement
import HazelOsal.Dlist.Traversal
import HazelOsal.Dlist.Clients
import HazelOsal.Fifo.Nodes
import HazelOsal.WorkQueue.Nodes
import HazelOsal.FreeRtos.Nodes
import HazelOsal.RtThread.Nodes
import HazelOsal.RtThread.Order
import HazelOsal.RtThread.Delivery
import HazelOsal.Library.BitArray
import HazelOsal.Library.Linearizable
import HazelOsal.Atomic.Operations
import HazelOsal.Atomic.Linearize
import HazelOsal.Atomic.Flags
import HazelOsal.Atomic.Bitmap
import HazelOsal.Atomic.Retries
import HazelOsal.Library.Endian
import HazelOsal.ByteOrder.FixedWidth
import HazelOsal.ByteOrder.HostOrder
import HazelOsal.Semaphore.Adapters
import HazelOsal.Semaphore.Contract
import HazelOsal.Library.Mixing
import HazelOsal.RtThread.Names
import HazelOsal.Library.SinglyLinked
import HazelOsal.Slist.Operations
import HazelOsal.Slist.Refinement
import HazelOsal.Slist.Traversal
