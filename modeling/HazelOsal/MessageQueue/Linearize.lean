import HazelOsal.Library.Parties
import HazelOsal.Library.Ring
import HazelOsal.Library.SerialTicks
import HazelOsal.MessageQueue.System

/-! # The message queue is a bounded FIFO

`Holds` relates the ring to the list of the messages in it; the critical sections carry it from one
state of the abstract queue to the next, so that each takes effect there. `TokenInv` says that no
critical section is entered without a token, which is a message to get or a slot to fill. -/

namespace HazelOsal.MessageQueue

open TransitionSystem

variable {T N : Type} [DecidableEq T] [DecidableEq N]

/-- The bytes of a slot of the ring. -/
def Mem.slot (m : Mem T N) (i : Nat) : List UInt8 :=
  bytes m.memory (i * m.msgq.messageSize) m.msgq.messageSize

/-- The messages in the ring, oldest first. -/
def Mem.contents (m : Mem T N) : List (List UInt8) :=
  (List.range m.msgq.count.toNat).map fun k =>
    m.slot ((m.msgq.readIndex.toNat + k) % m.msgq.capacity.toNat)

/-- The last event of a caller. -/
def lastEvent (hist : List (Caller T N × FifoEvent (List UInt8))) (c : Caller T N) :
    Option (FifoEvent (List UInt8)) :=
  ((hist.filter fun e => e.1 = c).getLast?).map Prod.snd

/-- What a state of the message queue has to do with a bounded FIFO. -/
structure BoundedFifo (port : Port) (messageSize : Nat) (capacity : UInt32) (s : State T N) :
    Prop where
  /-- The critical sections, in the order in which they have run, are a run of the FIFO that leaves
  the messages in the ring. -/
  legal : exec (boundedFifo capacity.toNat) [] (s.mem.hist.map Prod.snd) = some s.mem.contents
  /-- What has been got is a prefix of what has been put. -/
  fifo : (s.mem.hist.map Prod.snd).filterMap FifoEvent.get? <+:
    (s.mem.hist.map Prod.snd).filterMap FifoEvent.put?
  /-- A call that has passed its critical section has put or got what its event says. -/
  events : ∀ c e, (s.call c).event messageSize = some e → lastEvent s.mem.hist c = some e
  count_le : s.mem.msgq.count.toNat ≤ capacity.toNat
  write_eq : s.mem.msgq.writeIndex.toNat =
    (s.mem.msgq.readIndex.toNat + s.mem.msgq.count.toNat) % capacity.toNat
  read_lt : s.mem.msgq.readIndex < capacity
  write_lt : s.mem.msgq.writeIndex < capacity
  /-- A slot is within the buffer, and its offset is computed without overflow. -/
  in_buffer : ∀ i < capacity, s.mem.msgq.offset port i = i.toNat * messageSize ∧
    i.toNat * messageSize + messageSize ≤ capacity.toNat * messageSize ∧
    capacity.toNat * messageSize ≤ port.sizeMax
  /-- A put fills a slot that holds no unread message. -/
  put_free : ∀ c message, s.call c = .putCritical message → ∀ k < s.mem.msgq.count.toNat,
    (s.mem.msgq.readIndex.toNat + k) % capacity.toNat ≠ s.mem.msgq.writeIndex.toNat
  /-- A get reads the slot of the oldest unread message. -/
  get_oldest : ∀ c message, s.call c = .getCritical message →
    s.mem.contents.head? = some (s.mem.slot s.mem.msgq.readIndex.toNat)
  /-- Neither semaphore is full when it is given. -/
  give_items : ∀ c message, s.call c = .putGive message →
    s.mem.msgq.items.give.count = s.mem.msgq.items.count + 1
  give_spaces : ∀ c message, s.call c = .getGive message →
    s.mem.msgq.spaces.give.count = s.mem.msgq.spaces.count + 1

/-- What `os_msgq_init` has accepted and no call changes. -/
structure Accepted (port : Port) (messageSize : Nat) (capacity : UInt32) (msgq : OsMsgq) :
    Prop where
  messageSize : msgq.messageSize = messageSize
  capacity : msgq.capacity = capacity
  messageSize_pos : 0 < msgq.messageSize
  capacity_pos : 0 < msgq.capacity.toNat
  fits : msgq.capacity.toNat * msgq.messageSize ≤ port.sizeMax
  items : msgq.items.handle = true
  spaces : msgq.spaces.handle = true
  initialized : msgq.initialized = true

/-- The ring holds the messages `l`, which the critical sections so far have left in the queue. -/
structure Holds (m : Mem T N) (l : List (List UInt8)) : Prop where
  legal : exec (boundedFifo m.msgq.capacity.toNat) [] (m.hist.map Prod.snd) = some l
  ring : RingHolds m.slot m.msgq.capacity.toNat m.msgq.readIndex.toNat l
  count : m.msgq.count.toNat = l.length
  write : m.msgq.writeIndex.toNat =
    (m.msgq.readIndex.toNat + l.length) % m.msgq.capacity.toNat

section
variable {port : Port} {messageSize : Nat} {capacity : UInt32} {msgq : OsMsgq} {m m' : Mem T N}
  {c : Caller T N} {message : Bytes} {l : List (List UInt8)} {a : List UInt8}
omit [DecidableEq N] [DecidableEq T]

/-! ## Indices -/

/-- The offset of a slot does not wrap. -/
theorem Accepted.offset_eq (h : Accepted port messageSize capacity msgq) {i : UInt32}
    (hi : i.toNat < msgq.capacity.toNat) :
    msgq.offset port i = i.toNat * msgq.messageSize := by
  have hle := Nat.mul_le_mul_right msgq.messageSize hi.le
  exact Nat.mod_eq_of_lt (Nat.lt_succ_of_le (hle.trans h.fits))

/-- An index moves on by one slot. -/
theorem next_index {i n : UInt32} (hi : i.toNat < n.toNat) :
    ((i + 1) % n).toNat = (i.toNat + 1) % n.toNat := by
  have hn := n.toNat_lt
  rw [UInt32.toNat_mod, SerialTicks.toNat_succ (by omega)]

theorem Holds.count_le (h : Holds m l) : m.msgq.count.toNat ≤ m.msgq.capacity.toNat :=
  h.count ▸ h.ring.length_le

theorem Holds.write_lt (h : Holds m l) : m.msgq.writeIndex.toNat < m.msgq.capacity.toNat := by
  rw [h.write]
  exact Nat.mod_lt _ ((Nat.zero_le _).trans_lt h.ring.read_lt)

/-! ## The semaphore operations -/

theorem Accepted.setItems {items : OsSem m.msgq.capacity.toNat}
    (h : Accepted port messageSize capacity m.msgq) (hi : items.handle = true) :
    Accepted port messageSize capacity (m.setItems items).msgq :=
  { h with items := hi }

theorem Accepted.setSpaces {spaces : OsSem m.msgq.capacity.toNat}
    (h : Accepted port messageSize capacity m.msgq) (hs : spaces.handle = true) :
    Accepted port messageSize capacity (m.setSpaces spaces).msgq :=
  { h with spaces := hs }

theorem Holds.setItems {items : OsSem m.msgq.capacity.toNat} (h : Holds m l) :
    Holds (m.setItems items) l :=
  ⟨h.legal, h.ring, h.count, h.write⟩

theorem Holds.setSpaces {spaces : OsSem m.msgq.capacity.toNat} (h : Holds m l) :
    Holds (m.setSpaces spaces) l :=
  ⟨h.legal, h.ring, h.count, h.write⟩

/-! ## The critical sections -/

theorem osMsgqPutCritical_slot (ha : Accepted port messageSize capacity m.msgq)
    (hw : m.msgq.writeIndex.toNat < m.msgq.capacity.toNat) :
    (osMsgqPutCritical port c m message).slot =
      Function.update m.slot m.msgq.writeIndex.toNat (bytes message 0 m.msgq.messageSize) := by
  funext i
  rw [Mem.slot, osMsgqPutCritical, ha.offset_eq hw, Function.update_apply]
  split
  case isTrue he => rw [he]; exact bytes_osCommonCopy
  case isFalse hne => exact bytes_osCommonCopy_of_disjoint (slot_disjoint hne)

theorem Accepted.putCritical (h : Accepted port messageSize capacity m.msgq) :
    Accepted port messageSize capacity (osMsgqPutCritical port c m message).msgq :=
  { h with }

theorem Accepted.getCritical (h : Accepted port messageSize capacity m.msgq) :
    Accepted port messageSize capacity (osMsgqGetCritical port c m message).1.msgq :=
  { h with }

/-- **`os_msgq_put` adds its message to the queue.** -/
theorem Holds.put (h : Holds m l) (ha : Accepted port messageSize capacity m.msgq)
    (hlt : l.length < m.msgq.capacity.toNat) :
    Holds (osMsgqPutCritical port c m message) (l ++ [bytes message 0 m.msgq.messageSize]) where
  legal := by
    rw [osMsgqPutCritical, List.map_append]
    exact exec_fifo_snoc h.legal (fifoStep_put hlt)
  ring := by
    rw [osMsgqPutCritical_slot ha h.write_lt, h.write]
    exact h.ring.push hlt (Function.update_self ..) fun i _ hne => Function.update_of_ne hne ..
  count := by
    have hcap := m.msgq.capacity.toNat_lt
    have hcount := h.count
    rw [List.length_append]
    exact (SerialTicks.toNat_succ (by omega)).trans (congrArg (· + 1) h.count)
  write := by
    rw [List.length_append]
    refine (next_index h.write_lt).trans ?_
    rw [h.write, Nat.mod_add_mod]
    rfl

theorem osMsgqGetCritical_hist : (osMsgqGetCritical port c m message).1.hist = m.hist ++
    [(c, .get (bytes (osMsgqGetCritical port c m message).2 0 m.msgq.messageSize))] := rfl

/-- **`os_msgq_get` removes the head of the queue**, which it copies. -/
theorem Holds.get (h : Holds m (a :: l)) (ha : Accepted port messageSize capacity m.msgq) :
    Holds (osMsgqGetCritical port c m message).1 l ∧
      bytes (osMsgqGetCritical port c m message).2 0 m.msgq.messageSize = a := by
  have hcopy : bytes (osMsgqGetCritical port c m message).2 0 m.msgq.messageSize = a := by
    rw [← h.ring.head, osMsgqGetCritical, Mem.slot, ha.offset_eq h.ring.read_lt]
    exact bytes_osCommonCopy
  have hcount : m.msgq.count.toNat = l.length + 1 := h.count
  have hread : ((m.msgq.readIndex + 1) % m.msgq.capacity).toNat =
      (m.msgq.readIndex.toNat + 1) % m.msgq.capacity.toNat := next_index h.ring.read_lt
  refine ⟨⟨?_, ?_, ?_, ?_⟩, hcopy⟩
  case refine_1 =>
    rw [osMsgqGetCritical_hist, hcopy, List.map_append]
    exact exec_fifo_snoc h.legal fifoStep_get
  case refine_2 =>
    have htail := h.ring.tail
    rw [← hread] at htail
    exact htail
  case refine_3 =>
    refine (SerialTicks.toNat_pred (by omega)).trans ?_
    rw [hcount]
    rfl
  case refine_4 =>
    show m.msgq.writeIndex.toNat =
      (((m.msgq.readIndex + 1) % m.msgq.capacity).toNat + l.length) % m.msgq.capacity.toNat
    rw [h.write, hread, Nat.mod_add_mod, List.length_cons, Nat.add_assoc, Nat.add_comm 1]

theorem Accepted.of_init (h : osMsgqInit port messageSize capacity = .ok msgq) :
    Accepted port messageSize capacity msgq ∧ msgq.count = 0 ∧ msgq.readIndex = 0 ∧
      msgq.writeIndex = 0 ∧ msgq.items.count = 0 ∧ msgq.spaces.count = capacity.toNat := by
  simp only [osMsgqInit] at h
  split at h
  case isTrue => cases h
  case isFalse harg =>
    split at h
    case isTrue => cases h
    case isFalse =>
      split at h
      case isTrue => cases h
      case isFalse =>
        cases h
        simp only [not_or, gt_iff_lt, not_lt] at harg
        obtain ⟨hsize, hcap, hfits⟩ := harg
        have hpos : 0 < capacity.toNat :=
          Nat.pos_of_ne_zero fun h => hcap (SerialTicks.eq_zero_iff.mpr h)
        rw [Nat.le_div_iff_mul_le hpos, Nat.mul_comm] at hfits
        exact ⟨⟨rfl, rfl, Nat.pos_of_ne_zero hsize, hpos, hfits, rfl, rfl, rfl⟩, rfl, rfl, rfl, rfl,
          rfl⟩

end

/-! ## Tokens -/

/-- The items are the messages that nobody is about to get, and the spaces the free slots that
nobody is about to fill. -/
structure TokenInv (s : State T N) : Prop where
  items : Conserved s.mem.msgq.items.count s.held .item s.mem.msgq.count.toNat
  spaces : Conserved s.mem.msgq.spaces.count s.held .space
    (s.mem.msgq.capacity.toNat - s.mem.msgq.count.toNat)

/-- The invariant of the message queue. -/
structure MsgqInv (port : Port) (messageSize : Nat) (capacity : UInt32) (s : State T N) :
    Prop where
  accepted : Accepted port messageSize capacity s.mem.msgq
  holds : ∃ l, Holds s.mem l
  tokens : TokenInv s
  events : ∀ c e, (s.call c).event messageSize = some e → lastEvent s.mem.hist c = some e

section
variable {port : Port} {messageSize : Nat} {capacity : UInt32} {s s' : State T N} {c : Caller T N}
  {m' : Mem T N} {p' : Pc} {a : Act T N}

theorem Init.inv (h : Init port messageSize capacity s) : MsgqInv port messageSize capacity s := by
  obtain ⟨ha, hcount, hread, hwrite, hitems, hspaces⟩ := Accepted.of_init h.msgq
  have hheld (c k) : s.held c ≠ some k := by
    rw [State.held, h.call]
    exact fun h => by cases h
  refine ⟨ha, ⟨[], ?_, ?_, ?_, ?_⟩, ⟨?_, ?_⟩, fun c e he => ?_⟩
  · rw [h.hist]; rfl
  · rw [hread]; exact .nil ha.capacity_pos
  · rw [hcount]; rfl
  · rw [hwrite, hread]; simp
  · rw [hitems, hcount]; exact .of_none fun c => hheld c _
  · rw [hspaces, hcount, ← ha.capacity]; exact .of_none fun c => hheld c _
  · rw [h.call] at he; cases he

theorem lastEvent_snoc {hist : List (Caller T N × FifoEvent (List UInt8))}
    {e : FifoEvent (List UInt8)} (d : Caller T N) :
    lastEvent (hist ++ [(c, e)]) d = if d = c then some e else lastEvent hist d := by
  rw [lastEvent, lastEvent, List.filter_append]
  by_cases hd : c = d
  · simp [hd]
  · simp [hd, Ne.symm hd]

theorem TokenInv.setCall (hitems : Conserved m'.msgq.items.count
      (Function.update s.held c p'.held) .item m'.msgq.count.toNat)
    (hspaces : Conserved m'.msgq.spaces.count (Function.update s.held c p'.held) .space
      (m'.msgq.capacity.toNat - m'.msgq.count.toNat)) : TokenInv (s.setCall c m' p') := by
  constructor
  all_goals
    rw [State.setCall_held]
    assumption

/-- A caller that has no event to show keeps the record. -/
theorem MsgqInv.events_keep (h : MsgqInv port messageSize capacity s)
    (hm : m'.hist = s.mem.hist) (he : p'.event messageSize = none ∨
      p'.event messageSize = (s.call c).event messageSize) :
    ∀ d e, ((s.setCall c m' p').call d).event messageSize = some e →
      lastEvent (s.setCall c m' p').mem.hist d = some e := by
  intro d e hd
  rw [State.setCall_call] at hd
  rw [State.setCall_mem, hm]
  split at hd
  case isTrue hdc =>
    rcases he with hn | hs
    · rw [hn] at hd; cases hd
    · rw [hs, ← hdc] at hd; exact h.events d e hd
  case isFalse => exact h.events d e hd

/-- The caller records its event. -/
theorem MsgqInv.events_record (h : MsgqInv port messageSize capacity s)
    {e : FifoEvent (List UInt8)} (hm : m'.hist = s.mem.hist ++ [(c, e)])
    (he : p'.event messageSize = some e) :
    ∀ d e, ((s.setCall c m' p').call d).event messageSize = some e →
      lastEvent (s.setCall c m' p').mem.hist d = some e := by
  intro d e' hd
  rw [State.setCall_call] at hd
  rw [State.setCall_mem, hm, lastEvent_snoc]
  split at hd
  case isTrue hdc => rw [if_pos hdc, ← he, hd]
  case isFalse hdc => rw [if_neg hdc]; exact h.events d e' hd

/-- **A step of a call keeps the invariant.** -/
theorem MsgqInv.callStep (h : MsgqInv port messageSize capacity s)
    (hs : callStep port c s.mem (s.call c) = some (m', p')) :
    MsgqInv port messageSize capacity (s.setCall c m' p') := by
  have he := callStep_effect hs
  have ha := h.accepted
  obtain ⟨l, hl⟩ := h.holds
  obtain ⟨hitems, hspaces⟩ := h.tokens
  have hcount := hl.count_le
  generalize hp : s.call c = p at he
  have hheld : s.held c = p.held := congrArg Pc.held hp
  have hkeep : m'.hist = s.mem.hist → p'.event messageSize = none ∨
      p'.event messageSize = (s.call c).event messageSize → _ := h.events_keep
  have hrecord {e} : m'.hist = s.mem.hist ++ [(c, e)] → p'.event messageSize = some e → _ :=
    h.events_record
  rw [hp] at hkeep
  cases he with
  | quiet hnone hnone' hev =>
    refine ⟨ha, ⟨l, hl⟩, .setCall ?_ ?_, hkeep rfl (.inl (hev _))⟩
    · exact hitems.other (by simp [hheld, hnone]) (by simp [hnone'])
    · exact hspaces.other (by simp [hheld, hnone]) (by simp [hnone'])
  | takeSpace hnone ht =>
    obtain ⟨hhandle, htaken⟩ := OsSem.tryTake_eq_some ht
    rw [htaken] at hspaces
    refine ⟨ha.setSpaces (hhandle.trans ha.spaces), ⟨l, hl.setSpaces⟩, .setCall ?_ ?_,
      hkeep rfl (.inl rfl)⟩
    · exact hitems.other (by simp [hheld, hnone]) (by simp [Pc.held])
    · exact hspaces.take (by simp [hheld, hnone])
  | @put message =>
    have hlt : l.length < s.mem.msgq.capacity.toNat := by
      have hfree := hspaces.lt hheld
      rw [hl.count] at hfree
      omega
    have hput : Holds (osMsgqPutCritical port c s.mem message) _ := hl.put ha hlt
    have hnext : (osMsgqPutCritical port c s.mem message).msgq.count.toNat =
        s.mem.msgq.count.toNat + 1 := by rw [hput.count, hl.count, List.length_append]; rfl
    refine ⟨ha.putCritical, ⟨_, hput⟩, .setCall ?_ ?_, hrecord rfl ?_⟩
    · rw [hnext]
      exact hitems.make (by simp [hheld, Pc.held])
    · rw [hnext, Nat.sub_add_eq]
      exact hspaces.use hheld (by simp [Pc.held])
    · rw [ha.messageSize]; rfl
  | giveItem =>
    have hlt := hitems.lt hheld
    have hgive : s.mem.msgq.items.give.count = s.mem.msgq.items.count + 1 := by
      rw [OsSem.give_count_of_handle ha.items]
      omega
    refine ⟨ha.setItems ((OsSem.give_handle _).trans ha.items), ⟨l, hl.setItems⟩, .setCall ?_ ?_,
      hkeep rfl (.inl rfl)⟩
    · show Conserved s.mem.msgq.items.give.count _ _ _
      rw [hgive]
      exact hitems.give hheld (by simp [Pc.held])
    · exact hspaces.other (by simp [hheld, Pc.held]) (by simp [Pc.held])
  | takeItem hnone ht =>
    obtain ⟨hhandle, htaken⟩ := OsSem.tryTake_eq_some ht
    rw [htaken] at hitems
    refine ⟨ha.setItems (hhandle.trans ha.items), ⟨l, hl.setItems⟩, .setCall ?_ ?_,
      hkeep rfl (.inl rfl)⟩
    · exact hitems.take (by simp [hheld, hnone])
    · exact hspaces.other (by simp [hheld, hnone]) (by simp [Pc.held])
  | @get message =>
    have hlt := hitems.lt hheld
    rw [hl.count] at hlt
    obtain ⟨a, l, rfl⟩ := List.exists_cons_of_length_pos (Nat.zero_lt_of_lt hlt)
    obtain ⟨hget, hcopy⟩ : Holds (osMsgqGetCritical port c s.mem message).1 l ∧ _ := hl.get ha
    have hnext : s.mem.msgq.count.toNat =
        (osMsgqGetCritical port c s.mem message).1.msgq.count.toNat + 1 := by
      rw [hget.count, hl.count, List.length_cons]
    refine ⟨ha.getCritical, ⟨l, hget⟩, .setCall ?_ ?_, hrecord osMsgqGetCritical_hist ?_⟩
    · rw [hnext] at hitems
      exact hitems.use hheld (by simp [Pc.held])
    · have hmake := hspaces.make (c := c) (by simp [hheld, Pc.held])
      have htotal : s.mem.msgq.capacity.toNat - s.mem.msgq.count.toNat + 1 =
          s.mem.msgq.capacity.toNat -
            (osMsgqGetCritical port c s.mem message).1.msgq.count.toNat := by omega
      rw [htotal] at hmake
      exact hmake
    · rw [ha.messageSize]; rfl
  | giveSpace =>
    have hlt := hspaces.lt hheld
    have hgive : s.mem.msgq.spaces.give.count = s.mem.msgq.spaces.count + 1 := by
      rw [OsSem.give_count_of_handle ha.spaces]
      omega
    refine ⟨ha.setSpaces ((OsSem.give_handle _).trans ha.spaces), ⟨l, hl.setSpaces⟩, .setCall ?_ ?_,
      hkeep rfl (.inr ?_)⟩
    · exact hitems.other (by simp [hheld, Pc.held]) (by simp [Pc.held])
    · show Conserved s.mem.msgq.spaces.give.count _ _ _
      rw [hgive]
      exact hspaces.give hheld (by simp [Pc.held])
    · rw [ha.messageSize]; rfl

theorem MsgqInv.step (h : MsgqInv port messageSize capacity s)
    (hs : MessageQueue.step port s a = some s') : MsgqInv port messageSize capacity s' := by
  -- a step outside the critical sections, by a caller that holds no token
  have hmove {c p'} (hp : (s.call c).held = none) (hp' : p'.held = none)
      (he : p'.event messageSize = none) :
      MsgqInv port messageSize capacity (s.setCall c s.mem p') := by
    refine ⟨h.accepted, h.holds, .setCall ?_ ?_, h.events_keep rfl (.inl he)⟩
    · exact h.tokens.items.other (by simp [State.held, hp]) (by simp [hp'])
    · exact h.tokens.spaces.other (by simp [State.held, hp]) (by simp [hp'])
  cases a with
  | call c op =>
    obtain ⟨hfree, hs⟩ := Option.ite_none_right_eq_some.mp hs
    cases hs
    have hp : (s.call c).held = none := by
      generalize s.call c = p at hfree
      cases p <;> first | rfl | cases hfree
    cases op <;> exact hmove hp rfl rfl
  | step c =>
    obtain ⟨⟨m', p'⟩, hstep, hs⟩ := Option.map_eq_some_iff.mp hs
    cases hs
    exact h.callStep hstep
  | expire c =>
    obtain ⟨p', hexp, hs⟩ := Option.map_eq_some_iff.mp hs
    cases hs
    obtain ⟨hp, rfl⟩ := callExpire_eq hexp
    exact hmove hp rfl rfl

theorem inv_of_reachable (h : Reachable (system port messageSize capacity) s) :
    MsgqInv port messageSize capacity s :=
  h.induction (fun _ => Init.inv) fun _ _ _ _ hi _ hs => hi.step hs

/-! ## Calls that fail -/

/-- The call has taken a token, and returns 0 in the end or has done so. -/
def Pc.succeeds (p : Pc) : Prop := p.held ≠ none ∨ p = .done 0 ∨ ∃ message, p = .received message

omit [DecidableEq T] [DecidableEq N] in
/-- A step that changes the memory is one of a call that succeeds. -/
theorem Effect.succeeds {m : Mem T N} {p : Pc} (he : Effect port c m p m' p') :
    m' = m ∧ p.held = none ∨ p'.succeeds := by
  cases he with
  | quiet hp => exact .inl ⟨rfl, hp⟩
  | takeSpace | takeItem | put | get => exact .inr (.inl (by simp [Pc.held]))
  | giveItem => exact .inr (.inr (.inl rfl))
  | giveSpace => exact .inr (.inr (.inr ⟨_, rfl⟩))

theorem succeeds_step (hs : MessageQueue.step port s a = some s') (hc : (s.call c).succeeds)
    (ha : ∀ op, a ≠ .call c op) : (s'.call c).succeeds := by
  have hother {d m p} (hd : d ≠ c) : ((s.setCall d m p).call c).succeeds := by
    rwa [State.setCall_call, if_neg hd.symm]
  cases a with
  | call d op =>
    obtain ⟨-, hs⟩ := Option.ite_none_right_eq_some.mp hs
    cases hs
    exact hother fun he => ha op (by rw [he])
  | step d =>
    obtain ⟨⟨m', p'⟩, hstep, hs⟩ := Option.map_eq_some_iff.mp hs
    cases hs
    by_cases hd : d = c
    case neg => exact hother hd
    case pos =>
      subst hd
      rw [State.setCall_call, if_pos rfl]
      rcases (callStep_effect hstep).succeeds with ⟨-, hnone⟩ | hp'
      · rcases hc with hheld | hdone | ⟨message, hrec⟩
        · exact absurd hnone hheld
        · rw [hdone] at hstep; cases hstep
        · rw [hrec] at hstep; cases hstep
      · exact hp'
  | expire d =>
    obtain ⟨p', hexp, hs⟩ := Option.map_eq_some_iff.mp hs
    cases hs
    refine hother fun hd => ?_
    subst hd
    rcases hc with hheld | hdone | ⟨message, hrec⟩
    · exact hheld (callExpire_eq hexp).1
    · rw [hdone] at hexp; cases hexp
    · rw [hrec] at hexp; cases hexp

theorem succeeds_exec {acts : List (Act T N)} (hc : (s.call c).succeeds)
    (hs : exec (system port messageSize capacity) s acts = some s')
    (ha : ∀ op, .call c op ∉ acts) : (s'.call c).succeeds := by
  induction acts generalizing s with
  | nil => cases hs; exact hc
  | cons a acts ih =>
    obtain ⟨s₁, hstep, hs⟩ := Option.bind_eq_some_iff.mp hs
    refine ih (succeeds_step hstep hc fun op he => ?_) hs fun op hop =>
      ha op (List.mem_cons_of_mem a hop)
    exact ha op (he ▸ List.mem_cons_self)

/-- A call that returns an error has changed nothing: none of its steps has. -/
theorem failed_call_unchanged {acts pre post : List (Act T N)} {s₁ s₂ : State T N} {r : Int}
    (hs : exec (system port messageSize capacity) s acts = some s')
    (ha : ∀ op, .call c op ∉ acts) (hr : s'.call c = .done r) (hr₀ : r ≠ 0)
    (hacts : acts = pre ++ a :: post) (hcaller : a.caller = c)
    (h₁ : exec (system port messageSize capacity) s pre = some s₁)
    (h₂ : MessageQueue.step port s₁ a = some s₂) : s₂.mem = s₁.mem := by
  subst hacts
  have hpost : exec (system port messageSize capacity) s₂ post = some s' := by
    rw [exec_append, h₁, Option.bind_some, exec] at hs
    rwa [show (system port messageSize capacity).step s₁ a = some s₂ from h₂] at hs
  have hfails : ¬ (s₂.call c).succeeds := by
    intro hc
    obtain hheld | hdone | ⟨message, hrec⟩ := succeeds_exec hc hpost fun op hop =>
      ha op (List.mem_append_right pre (List.mem_cons_of_mem a hop))
    · rw [hr] at hheld; exact hheld rfl
    · rw [hr] at hdone; cases hdone; exact hr₀ rfl
    · rw [hr] at hrec; cases hrec
  cases a with
  | call d op =>
    obtain ⟨-, h₂⟩ := Option.ite_none_right_eq_some.mp h₂
    cases h₂
    rfl
  | step d =>
    obtain ⟨⟨m', p'⟩, hstep, h₂⟩ := Option.map_eq_some_iff.mp h₂
    cases h₂
    rw [← hcaller, Act.caller, State.setCall_call, if_pos rfl] at hfails
    exact ((callStep_effect hstep).succeeds.resolve_right hfails).1
  | expire d =>
    obtain ⟨p', -, h₂⟩ := Option.map_eq_some_iff.mp h₂
    cases h₂
    rfl

/-! ## The bounded FIFO -/

omit [DecidableEq T] [DecidableEq N] in
theorem Holds.contents_eq {m : Mem T N} {l : List (List UInt8)} (h : Holds m l) :
    m.contents = l := by
  refine List.ext_getElem (by simp [Mem.contents, h.count]) fun k _ hk => ?_
  simpa [Mem.contents] using h.ring.get k hk

theorem MsgqInv.boundedFifo (h : MsgqInv port messageSize capacity s) :
    BoundedFifo port messageSize capacity s := by
  have ha := h.accepted
  obtain ⟨l, hl⟩ := h.holds
  obtain ⟨hitems, hspaces⟩ := h.tokens
  have hcontents := hl.contents_eq
  have hcount := hl.count_le
  have hheld {c p} (hp : s.call c = p) : s.held c = p.held := congrArg Pc.held hp
  have hlegal : exec (TransitionSystem.boundedFifo capacity.toNat) []
      (s.mem.hist.map Prod.snd) = some s.mem.contents := by
    rw [hcontents, ← ha.capacity]
    exact hl.legal
  constructor
  case legal => exact hlegal
  case fifo => exact gets_prefix_puts hlegal
  case events => exact h.events
  case count_le => rw [← ha.capacity]; exact hcount
  case write_eq => rw [← ha.capacity, hl.count]; exact hl.write
  case read_lt => rw [← ha.capacity]; exact UInt32.lt_iff_toNat_lt.mpr hl.ring.read_lt
  case write_lt => rw [← ha.capacity]; exact UInt32.lt_iff_toNat_lt.mpr hl.write_lt
  case in_buffer =>
    intro i hi
    rw [← ha.capacity, ← ha.messageSize] at *
    have hi := UInt32.lt_iff_toNat_lt.mp hi
    refine ⟨ha.offset_eq hi, ?_, ha.fits⟩
    rw [← Nat.succ_mul]
    exact Nat.mul_le_mul_right _ hi
  case put_free =>
    intro c message hp k hk
    have hfree := hspaces.lt (hheld hp)
    rw [hl.count] at hk hfree
    rw [← ha.capacity, hl.write]
    exact RingHolds.slot_free (by omega) hk
  case get_oldest =>
    intro c message hp
    have hunread := hitems.lt (hheld hp)
    rw [hl.count] at hunread
    obtain ⟨a, l, rfl⟩ := List.exists_cons_of_length_pos (Nat.zero_lt_of_lt hunread)
    rw [hcontents, hl.ring.head]
    rfl
  case give_items =>
    intro c message hp
    have hlt := hitems.lt (hheld hp)
    rw [OsSem.give_count_of_handle ha.items]
    omega
  case give_spaces =>
    intro c message hp
    have hlt := hspaces.lt (hheld hp)
    rw [OsSem.give_count_of_handle ha.spaces]
    omega

/-- **The message queue is a linearizable bounded FIFO**, whose calls take effect in their critical
sections, and a call that fails changes nothing. -/
theorem msgq_linearizable
    (h : Reachable (system port messageSize capacity : System (State T N) _) s) :
    BoundedFifo port messageSize capacity s ∧
    ∀ c acts s' r, exec (system port messageSize capacity) s acts = some s' →
      (∀ op, .call c op ∉ acts) → s'.call c = .done r → r ≠ 0 →
      ∀ pre a post s₁ s₂, acts = pre ++ a :: post → a.caller = c →
        exec (system port messageSize capacity) s pre = some s₁ →
        step port s₁ a = some s₂ → s₂.mem = s₁.mem :=
  ⟨(inv_of_reachable h).boundedFifo, fun _ _ _ _ hs ha hr hr₀ _ _ _ _ _ hacts hcaller h₁ h₂ =>
    failed_call_unchanged hs ha hr hr₀ hacts hcaller h₁ h₂⟩

end

/-! ## A concrete run -/

/-- The bytes of a message, and zeros behind them. -/
def messageOf (l : List UInt8) : Bytes := fun i => l.getD i 0

/-- Two callers put three messages of two bytes in a queue of two, and a third one gets two of
them. -/
def ringRun {T : Type} (producer producer' consumer : T) : List (Act T Unit) :=
  callSteps (.thread producer) (.put (messageOf [1, 2]) 0) 4 ++
    callSteps (.thread producer') (.put (messageOf [3, 4]) 0) 4 ++
    callSteps (.thread consumer) (.get (messageOf []) 0) 4 ++
    callSteps (.thread producer) (.put (messageOf [5, 6]) 0) 4 ++
    callSteps (.thread consumer) (.get (messageOf []) 0) 3

theorem msgq_linearizable_ring : ∃ s : State (Fin 3) Unit,
    exec (system ⟨65535, fun _ => true⟩ 2 2) (.initial 2 2) (ringRun 0 1 2) = some s ∧
    s.mem.contents = [[5, 6]] ∧ BoundedFifo ⟨65535, fun _ => true⟩ 2 2 s := by
  obtain ⟨s, hs, hc⟩ := exists_of_exec (ringRun (0 : Fin 3) 1 2)
    (M := system ⟨65535, fun _ => true⟩ 2 2) (s := .initial 2 2)
    (P := fun s => s.mem.contents = [[5, 6]]) (by decide +kernel)
  have hinit : Init ⟨65535, fun _ => true⟩ 2 2 (.initial 2 2 : State (Fin 3) Unit) :=
    ⟨rfl, rfl, fun _ => rfl⟩
  exact ⟨s, hs, hc, (msgq_linearizable (reachable_of_exec (ringRun 0 1 2) hinit hs)).1⟩

end HazelOsal.MessageQueue
