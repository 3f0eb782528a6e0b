import HazelOsal.FreeRtos.State
import HazelOsal.Library.Callers
import HazelOsal.Time.Conversion

/-! # Uptime of the FreeRTOS backend

`os_uptime_get` of `time.c`. A thread reads the overflow count of the kernel together with the tick
and leaves the snapshot in a cache; an interrupt handler extends its own reading of the tick by the
cached epoch. A step is the entry of a call, a reading, or a critical section. Interrupt handlers
are not nested, and threads stand still while one of them runs; otherwise the steps interleave in
any order with the ticks, and a thread may overwrite the cache late.

Where an interrupt handler calls before the counter has gone round once since the cached snapshot,
both paths agree with the count of the ticks, up to the range of the kernel's overflow count. -/

namespace HazelOsal.FreeRtos.Uptime

open TransitionSystem
open RtThread.Uptime (TickRate osTicksToMs)
open Time (Overflows osTicksToMs_mono)

/-- The configuration of the port, with the width of `BaseType_t`. -/
structure Port extends FreeRtos.Port where
  baseBits : Nat

/-- The bits of a tick count that the overflow count and the tick hold together. -/
def Port.countBits (port : Port) : Nat := port.tickBits + port.baseBits

/-- `TimeOut_t`. -/
structure TimeOut where
  overflowCount : Int
  timeOnEntering : Nat

/-- `vTaskSetTimeOutState`, when `tick` ticks have passed. The overflow count is a `BaseType_t`. -/
def vTaskSetTimeOutState (port : Port) (tick : Nat) : TimeOut where
  overflowCount := Int.bmod (tick / 2 ^ port.tickBits : Nat) (2 ^ port.baseBits)
  timeOnEntering := tick % 2 ^ port.tickBits

/-- `(UBaseType_t)n`. -/
def toUBaseType (port : Port) (n : Int) : Nat := (n % 2 ^ port.baseBits).toNat

/-- `xTaskGetTickCountFromISR`, when `tick` ticks have passed. -/
def xTaskGetTickCountFromISR (port : Port) (tick : Nat) : Nat := tick % 2 ^ port.tickBits

/-- `(uint64_t)portMAX_DELAY + 1U`. -/
def tickRange (port : Port) : UInt64 := UInt64.ofNat port.portMAX_DELAY + 1

/-- A call of `os_uptime_get`: the ticks that had passed when it was invoked, when it read the tick
and when it returned, and what it returned. -/
structure Call where
  invoked : Nat
  sampled : Nat
  returned : Nat
  result : UInt64
  deriving DecidableEq

/-- `cachedEpoch` and `cachedTick` are the static variables of `os_uptime_get`, and `isr` is the
interrupt handler that is running. `cached` is the tick that the cache is a snapshot of, and `calls`
are the calls that have returned: no modelled function reads them. -/
structure Mem (C : Type) where
  ticks : Nat
  cachedEpoch : UInt64
  cachedTick : UInt32
  cached : Nat
  isr : Option C
  calls : List Call

/-- The value of `ticks` in a thread. -/
def taskTicks (port : Port) (state : TimeOut) : UInt64 :=
  UInt64.ofNat (toUBaseType port state.overflowCount) * tickRange port +
    (UInt32.ofNat state.timeOnEntering).toUInt64

/-- The critical section in a thread. -/
def taskCritical (port : Port) (m : Mem C) (state : TimeOut) : Mem C :=
  let tick := UInt32.ofNat state.timeOnEntering
  { m with cachedEpoch := taskTicks port state - tick.toUInt64, cachedTick := tick }

/-- The critical section in an interrupt handler, and the value of `ticks` behind it. -/
def isrCritical (port : Port) (m : Mem C) (tick : UInt32) : Mem C × UInt64 :=
  let epoch := if tick < m.cachedTick then m.cachedEpoch + tickRange port else m.cachedEpoch
  ({ m with cachedEpoch := epoch, cachedTick := tick }, epoch + tick.toUInt64)

/-- `sampled` is the tick of the reading. -/
inductive Pc where
  | idle
  | done (result : UInt64)
  | enter
  -- in a thread
  | setTimeOut (invoked : Nat)
  | publish (invoked sampled : Nat)
  -- in an interrupt handler
  | tickGet (invoked : Nat)
  | extend (invoked sampled : Nat)
  deriving DecidableEq

namespace Pc

/-- No call is in progress. -/
def free : Pc → Bool
  | .idle | .done _ => true
  | _ => false

/-- The call is in an interrupt handler that is running. -/
def interrupts : Pc → Bool
  | .tickGet _ | .extend _ _ => true
  | _ => false

end Pc

variable {C T N : Type} [DecidableEq T] [DecidableEq N]

/-- A call returns `result`. -/
def Mem.record (m : Mem C) (invoked sampled : Nat) (result : UInt64) : Mem C :=
  { m with
    cached := sampled
    calls := m.calls ++ [{ invoked, sampled, returned := m.ticks, result }] }

def callStep (port : Port) (rate : TickRate) (c : Caller T N) (m : Mem (Caller T N)) :
    Pc → Option (Mem (Caller T N) × Pc)
  | .idle | .done _ => none
  | .enter =>
    if m.isr ≠ none then none
    else if c.inIsr then some ({ m with isr := some c }, .tickGet m.ticks)
    else some (m, .setTimeOut m.ticks)
  | .setTimeOut invoked => if m.isr ≠ none then none else some (m, .publish invoked m.ticks)
  | .publish invoked sampled =>
    if m.isr ≠ none then none
    else
      let state := vTaskSetTimeOutState port sampled
      let result := osTicksToMs rate (taskTicks port state)
      some ((taskCritical port m state).record invoked sampled result, .done result)
  | .tickGet invoked => some (m, .extend invoked m.ticks)
  | .extend invoked sampled =>
    let (m, ticks) :=
      isrCritical port m (UInt32.ofNat (xTaskGetTickCountFromISR port sampled))
    let result := osTicksToMs rate ticks
    some ({ m.record invoked sampled result with isr := none }, .done result)

/-- What the users of the clock run; the event is the tick. -/
def program (T N : Type) [DecidableEq T] [DecidableEq N] (port : Port) (rate : TickRate) :
    Program (Caller T N) (Mem (Caller T N)) Pc Unit Unit where
  free := Pc.free
  entry _ := .enter
  step := callStep port rate
  expire _ _ := none
  event _ m := some { m with ticks := m.ticks + 1 }

/-- Nobody has called `os_uptime_get` yet. -/
def Init (m : Mem C) : Prop :=
  m.cachedEpoch = 0 ∧ m.cachedTick = 0 ∧ m.cached = 0 ∧ m.isr = none ∧ m.calls = []

abbrev State (T N : Type) := Callers (Caller T N) (Mem (Caller T N)) Pc

abbrev Act (T N : Type) := CallAct (Caller T N) Unit Unit

def system (port : Port) (rate : TickRate) : System (State T N) (Act T N) :=
  (program T N port rate).system Init .idle

/-- An interrupt handler calls while the counter has not gone round since the snapshot that is in
the cache. -/
def CacheFresh (port : Port) (s : State T N) (a : Act T N) : Prop :=
  ∀ c invoked sampled, a = .step c → s.call c = .extend invoked sampled →
    sampled < s.mem.cached + 2 ^ port.tickBits

/-- The check of `CacheFresh`. -/
def cacheFresh (port : Port) (s : State T N) : Act T N → Bool
  | .step c =>
    match s.call c with
    | .extend _ sampled => sampled < s.mem.cached + 2 ^ port.tickBits
    | _ => true
  | _ => true

omit [DecidableEq T] [DecidableEq N] in
theorem CacheFresh.of_cacheFresh {port : Port} {s : State T N} {a : Act T N}
    (h : cacheFresh port s a = true) : CacheFresh port s a := by
  rintro c invoked sampled rfl hc
  simpa [cacheFresh, hc] using h

/-! ## The critical sections -/

/-- `count` is what a call makes of the tick count `sampled`: the same number, as far as the
overflow count tells. -/
structure Reads (port : Port) (sampled count : Nat) : Prop where
  mod_eq : count % 2 ^ port.countBits = sampled % 2 ^ port.countBits
  eq : sampled < 2 ^ port.countBits → count = sampled

section
variable {port : Port} {m : Mem C} {sampled count : Nat}

/-- What a thread reads. -/
theorem Reads.mod (port : Port) (sampled : Nat) :
    Reads port sampled (sampled % 2 ^ port.countBits) :=
  ⟨Nat.mod_mod .., Nat.mod_eq_of_lt⟩

/-- What is read later, when the ticks in between are counted. -/
theorem Reads.add {cached : Nat} (h : Reads port cached count) (hl : cached ≤ sampled) :
    Reads port sampled (count + (sampled - cached)) := by
  constructor
  · rw [Nat.add_mod, h.mod_eq, ← Nat.add_mod, Nat.add_sub_cancel' hl]
  · intro hs
    rw [h.eq (hl.trans_lt hs), Nat.add_sub_cancel' hl]

theorem Reads.low (h : Reads port sampled count) :
    count % 2 ^ port.tickBits = sampled % 2 ^ port.tickBits := by
  have hdvd : 2 ^ port.tickBits ∣ 2 ^ port.countBits := Nat.pow_dvd_pow 2 (Nat.le_add_right ..)
  rw [← Nat.mod_mod_of_dvd count hdvd, h.mod_eq, Nat.mod_mod_of_dvd sampled hdvd]

theorem tickRange_eq (port : Port) : tickRange port = UInt64.ofNat (2 ^ port.tickBits) := by
  have hpos := Nat.two_pow_pos port.tickBits
  rw [tickRange, Port.portMAX_DELAY, ← UInt64.ofNat_one, ← UInt64.ofNat_add,
    Nat.sub_add_cancel hpos]

theorem ofNat_tick_toNat (h : port.Supported) (tick : Nat) :
    (UInt32.ofNat (tick % 2 ^ port.tickBits)).toNat = tick % 2 ^ port.tickBits := by
  rw [UInt32.toNat_ofNat']
  apply Nat.mod_eq_of_lt
  exact (Nat.mod_lt tick (Nat.two_pow_pos _)).trans_le h.two_pow_le

/-- The cast reads the overflow count without its sign. -/
theorem toUBaseType_bmod (n : Nat) :
    toUBaseType port (Int.bmod n (2 ^ port.baseBits)) = n % 2 ^ port.baseBits := by
  have hcast : ((2 ^ port.baseBits : Nat) : Int) = 2 ^ port.baseBits := Int.natCast_pow 2 _
  rw [toUBaseType, ← hcast, Int.bmod_emod, ← Int.natCast_emod, Int.toNat_natCast]

/-- A thread gets the tick count that it has read, up to the range of the overflow count. -/
theorem taskTicks_eq (h : port.Supported) (tick : Nat) :
    taskTicks port (vTaskSetTimeOutState port tick) =
      UInt64.ofNat (tick % 2 ^ port.countBits) := by
  have hlow : (UInt32.ofNat (tick % 2 ^ port.tickBits)).toNat =
      tick % 2 ^ port.countBits % 2 ^ port.tickBits :=
    (ofNat_tick_toNat h tick).trans (Reads.mod port tick).low.symm
  have hhigh : tick / 2 ^ port.tickBits % 2 ^ port.baseBits =
      tick % 2 ^ port.countBits / 2 ^ port.tickBits := by
    rw [Port.countBits, Nat.pow_add, Nat.mod_mul_right_div_self]
  rw [taskTicks, tickRange_eq, vTaskSetTimeOutState, toUBaseType_bmod, hhigh, ← UInt64.ofNat_mul,
    Nat.mul_comm]
  exact SerialTicks.epoch_add_low hlow

/-- The cache is a snapshot of the tick that it stands for. -/
def Snapshot (port : Port) (m : Mem C) : Prop :=
  ∃ count, Reads port m.cached count ∧
    m.cachedEpoch = UInt64.ofNat (2 ^ port.tickBits * (count / 2 ^ port.tickBits)) ∧
    m.cachedTick = UInt32.ofNat (m.cached % 2 ^ port.tickBits)

/-- A thread leaves its snapshot, however old. -/
theorem taskCritical_snapshot (h : port.Supported) (invoked sampled : Nat) (result : UInt64) :
    Snapshot port
      ((taskCritical port m (vTaskSetTimeOutState port sampled)).record
        invoked sampled result) := by
  refine ⟨_, .mod port sampled, ?_, rfl⟩
  have hlow := (ofNat_tick_toNat h sampled).trans (Reads.mod port sampled).low.symm
  show taskTicks port (vTaskSetTimeOutState port sampled) - _ = _
  rw [taskTicks_eq h, ← SerialTicks.epoch_add_low hlow]
  exact UInt64.add_sub_cancel ..

/-- **An interrupt handler extends its reading** where the counter has not gone round since the
cached snapshot. -/
theorem isrCritical_eq (h : port.Supported) (hm : Snapshot port m) (hl : m.cached ≤ sampled)
    (hr : sampled < m.cached + 2 ^ port.tickBits) : ∃ count, Reads port sampled count ∧
    isrCritical port m (UInt32.ofNat (xTaskGetTickCountFromISR port sampled)) =
      ({ m with
          cachedEpoch := UInt64.ofNat (2 ^ port.tickBits * (count / 2 ^ port.tickBits))
          cachedTick := UInt32.ofNat (sampled % 2 ^ port.tickBits) },
        UInt64.ofNat count) := by
  obtain ⟨last, hlast, hcachedEpoch, hcachedTick⟩ := hm
  have hcount := hlast.add hl
  refine ⟨_, hcount, ?_⟩
  have hlow := ofNat_tick_toNat h sampled
  rw [← hcount.low] at hlow
  have hprevious : m.cachedTick.toNat = last % 2 ^ port.tickBits := by
    rw [hcachedTick, hlast.low]
    exact ofNat_tick_toNat h m.cached
  have hepoch := SerialTicks.extend_epoch hlow hprevious (Nat.le_add_right ..) (by omega)
  rw [← hcachedEpoch, ← tickRange_eq, hcount.low] at hepoch
  have htick : xTaskGetTickCountFromISR port sampled = sampled % 2 ^ port.tickBits := rfl
  rw [htick, isrCritical, hepoch, ← hcount.low, SerialTicks.epoch_add_low hlow]

end

/-! ## The invariant -/

/-- What holds of a call at a point: it has read the tick since it was invoked, and the snapshot in
the cache is not younger than the reading of an interrupt handler. -/
def Timely (m : Mem C) : Pc → Prop
  | .idle | .enter => True
  | .done result => ∃ r ∈ m.calls, r.result = result
  | .setTimeOut invoked | .tickGet invoked => invoked ≤ m.ticks
  | .publish invoked sampled => invoked ≤ sampled ∧ sampled ≤ m.ticks
  | .extend invoked sampled => invoked ≤ sampled ∧ sampled ≤ m.ticks ∧ m.cached ≤ sampled

structure UptimeInv (port : Port) (rate : TickRate) (s : State T N) : Prop where
  snapshot : Snapshot port s.mem
  cached : s.mem.cached ≤ s.mem.ticks
  timely : ∀ c, Timely s.mem (s.call c)
  isr : ∀ c, (s.call c).interrupts = true → s.mem.isr = some c
  calls : ∀ r ∈ s.mem.calls, r.invoked ≤ r.sampled ∧ r.sampled ≤ r.returned ∧
    ∃ count, Reads port r.sampled count ∧ r.result = osTicksToMs rate (UInt64.ofNat count)

section
variable {port : Port} {rate : TickRate} {s s' : State T N} {a : Act T N} {c : Caller T N}
  {m m' : Mem C} {p : Pc}

/-- The steps of others make no call late. -/
theorem Timely.mono (h : Timely m p) (ht : m.ticks ≤ m'.ticks) (hcalls : m.calls ⊆ m'.calls)
    (hc : p.interrupts = true → m'.cached = m.cached) : Timely m' p := by
  cases p with
  | idle | enter => trivial
  | done =>
    obtain ⟨r, hr, he⟩ := h
    exact ⟨r, hcalls hr, he⟩
  | setTimeOut | tickGet => exact Nat.le_trans h ht
  | publish => exact ⟨h.1, h.2.trans ht⟩
  | extend =>
    refine ⟨h.1, h.2.1.trans ht, ?_⟩
    rw [hc rfl]
    exact h.2.2

/-- A step that leaves the cache and the calls alone. -/
theorem UptimeInv.set (h : UptimeInv port rate s) (isr : Option (Caller T N))
    (hp : Timely s.mem p) (hisr : isr = s.mem.isr ∨ s.mem.isr = none)
    (hi : p.interrupts = true → isr = some c) :
    UptimeInv port rate (s.set c { s.mem with isr } p) := by
  refine { h with timely := fun d => ?_, isr := fun d hd => ?_ }
  · rw [Callers.set_call]
    split
    case isTrue => exact hp.mono (Nat.le_refl _) (List.Subset.refl _) fun _ => rfl
    case isFalse => exact (h.timely d).mono (Nat.le_refl _) (List.Subset.refl _) fun _ => rfl
  · rw [Callers.set_call] at hd
    split at hd
    case isTrue he =>
      rw [he]
      exact hi hd
    case isFalse =>
      rcases hisr with rfl | hnone
      · exact h.isr d hd
      · cases hnone.symm.trans (h.isr d hd)

/-- A call that returns the milliseconds of its reading, and leaves that in the cache. -/
theorem UptimeInv.return {invoked sampled count : Nat} {m' : Mem (Caller T N)}
    (h : UptimeInv port rate s) (hcount : Reads port sampled count)
    (hticks : m'.ticks = s.mem.ticks) (hcached : m'.cached = sampled)
    (hcalls : m'.calls = s.mem.calls ++
      [⟨invoked, sampled, s.mem.ticks, osTicksToMs rate (UInt64.ofNat count)⟩])
    (hsnap : Snapshot port m') (hinvoked : invoked ≤ sampled) (hsampled : sampled ≤ s.mem.ticks)
    (halone : ∀ d, (s.call d).interrupts = true → d = c) :
    UptimeInv port rate (s.set c m' (.done (osTicksToMs rate (UInt64.ofNat count)))) := by
  constructor
  case snapshot => exact hsnap
  case cached => rwa [Callers.set_mem, hcached, hticks]
  case timely =>
    intro d
    rw [Callers.set_mem, Callers.set_call]
    split
    case isTrue =>
      exact ⟨_, by rw [hcalls]; exact List.mem_append_right _ (List.mem_singleton_self _), rfl⟩
    case isFalse hd =>
      apply (h.timely d).mono hticks.ge
      · rw [hcalls]
        exact List.subset_append_left ..
      · exact fun hi => absurd (halone d hi) hd
  case isr =>
    intro d hd
    rw [Callers.set_call] at hd
    split at hd
    case isTrue => cases hd
    case isFalse hne => exact absurd (halone d hd) hne
  case calls =>
    intro r hr
    rw [Callers.set_mem, hcalls] at hr
    rcases List.mem_append.mp hr with hr | hr
    · exact h.calls r hr
    · rw [List.mem_singleton.mp hr]
      exact ⟨hinvoked, hsampled, count, hcount, rfl⟩

theorem UptimeInv.move (h : UptimeInv port rate s) (hport : port.Supported)
    (hok : CacheFresh port s a) (hm : (program T N port rate).Move s a s') :
    UptimeInv port rate s' := by
  cases hm with
  | call => exact h.set s.mem.isr trivial (.inl rfl) fun hi => by cases hi
  | @step c m' p' hstep =>
    have hs : callStep port rate c s.mem (s.call c) = some (m', p') := hstep
    have htimely := h.timely c
    generalize hc : s.call c = p at hs htimely
    cases p with
    | idle | done => cases hs
    | enter =>
      simp only [callStep] at hs
      split at hs
      case isTrue => cases hs
      case isFalse hisr =>
        split at hs <;> cases hs
        · exact h.set (some c) (Nat.le_refl _) (.inr (not_not.mp hisr)) fun _ => rfl
        · exact h.set s.mem.isr (Nat.le_refl _) (.inl rfl) fun hi => by cases hi
    | setTimeOut invoked =>
      obtain ⟨-, hs⟩ := Option.ite_none_left_eq_some.mp hs
      cases hs
      exact h.set s.mem.isr ⟨htimely, Nat.le_refl _⟩ (.inl rfl) fun hi => by cases hi
    | publish invoked sampled =>
      obtain ⟨hisr, hs⟩ := Option.ite_none_left_eq_some.mp hs
      have hisr := not_not.mp hisr
      rw [taskTicks_eq hport] at hs
      cases hs
      have hsnap := taskCritical_snapshot (m := s.mem) hport invoked sampled
        (osTicksToMs rate (UInt64.ofNat (sampled % 2 ^ port.countBits)))
      refine h.return (.mod port sampled) rfl rfl rfl hsnap htimely.1 htimely.2 fun d hd => ?_
      cases hisr.symm.trans (h.isr d hd)
    | tickGet invoked =>
      cases hs
      refine h.set s.mem.isr ⟨htimely, Nat.le_refl _, h.cached⟩ (.inl rfl) fun _ => ?_
      apply h.isr
      rw [hc]
      rfl
    | extend invoked sampled =>
      have hisr := h.isr c (by rw [hc]; rfl)
      obtain ⟨count, hcount, hcritical⟩ :=
        isrCritical_eq hport h.snapshot htimely.2.2 (hok c invoked sampled rfl hc)
      simp only [callStep, hcritical] at hs
      cases hs
      refine UptimeInv.return h hcount ?_ ?_ ?_ ⟨count, hcount, ?_, ?_⟩ htimely.1 htimely.2.1
        fun d hd => ?_
      case refine_6 => exact Option.some.inj ((h.isr d hd).symm.trans hisr)
      all_goals rfl
  | expire hexpire => cases hexpire
  | event hevent =>
    cases hevent
    exact { h with
      cached := Nat.le_succ_of_le h.cached
      timely := fun d =>
        (h.timely d).mono (Nat.le_succ _) (List.Subset.refl _) fun _ => rfl }

theorem inv_of_reachableVia (hport : port.Supported)
    (h : ReachableVia (system port rate : System (State T N) _) (CacheFresh port) s) :
    UptimeInv port rate s := by
  refine Program.invariant (fun s ⟨he, ht, hcached, hisr, hcalls⟩ hidle => ?_)
    (fun s a s' hi hok hm => hi.move hport hok hm) h
  constructor
  case snapshot =>
    refine ⟨0, ⟨by rw [hcached], fun _ => hcached.symm⟩, ?_, ?_⟩
    · rw [he, Nat.zero_div]
      rfl
    · rw [ht, hcached, Nat.zero_mod]
      rfl
  case cached => exact hcached.le.trans (Nat.zero_le _)
  case timely => exact fun c => by rw [hidle c]; trivial
  case isr => exact fun c hc => by rw [hidle c] at hc; cases hc
  case calls => rw [hcalls]; exact fun r hr => by cases hr

/-- What the users of `os_uptime_get` may rely on in a state. -/
structure Agrees (port : Port) (rate : TickRate) (s : State T N) : Prop where
  /-- A call returns the milliseconds of a tick count of the time while it ran, up to a multiple of
  the range of the overflow count. -/
  result : ∀ r ∈ s.mem.calls, r.invoked ≤ r.sampled ∧ r.sampled ≤ r.returned ∧
    ∃ count, Reads port r.sampled count ∧ r.result = osTicksToMs rate (UInt64.ofNat count)
  /-- A call that starts after another one has returned does not return less, where its tick count
  is in that range, fits in 64 bits and does not make `os_ticks_to_ms` overflow. -/
  monotonic : ∀ r ∈ s.mem.calls, ∀ r' ∈ s.mem.calls, r.returned ≤ r'.invoked →
    r'.sampled < 2 ^ port.countBits → r'.sampled < 2 ^ 64 →
    ¬ Overflows rate (UInt64.ofNat r'.sampled) → r.result ≤ r'.result
  done : ∀ c result, s.call c = .done result → ∃ r ∈ s.mem.calls, r.result = result

/-- **Threads and interrupt handlers agree on the uptime**, however late a thread writes the
cache. -/
theorem uptime_agrees (hport : port.Supported)
    (h : ReachableVia (system port rate : System (State T N) _) (CacheFresh port) s) :
    Agrees port rate s := by
  have hi := inv_of_reachableVia hport h
  refine ⟨hi.calls, fun r hr r' hr' hle hrange hfits hover => ?_, fun c result hc => ?_⟩
  · obtain ⟨-, hreturned, count, hcount, he⟩ := hi.calls r hr
    obtain ⟨hinvoked', -, count', hcount', he'⟩ := hi.calls r' hr'
    have hsampled : r.sampled ≤ r'.sampled := hreturned.trans (hle.trans hinvoked')
    rw [he, he', hcount.eq (hsampled.trans_lt hrange), hcount'.eq hrange]
    apply osTicksToMs_mono ?_ hover
    rw [UInt64.le_iff_toNat_le, UInt64.toNat_ofNat', UInt64.toNat_ofNat', Nat.mod_eq_of_lt hfits,
      Nat.mod_eq_of_lt (hsampled.trans_lt hfits)]
    exact hsampled
  · have htimely := hi.timely c
    rwa [hc] at htimely

end

/-! ## Concrete runs -/

/-- A system that has run for so many ticks before the first call. -/
def State.initial (ticks : Nat) : State T N where
  mem := { ticks, cachedEpoch := 0, cachedTick := 0, cached := 0, isr := none, calls := [] }
  call := fun _ => .idle

def kilohertz : TickRate := ⟨1000, by decide⟩

/-- A thread reads the tick just before the counter wraps. An interrupt handler and another thread
call behind the wrap, the first thread writes its old snapshot, and the handler calls again. -/
def lateRun : List (Act Bool Unit) :=
  TransitionSystem.callSteps (Caller.thread false) () 2 ++ [CallAct.event ()] ++
    TransitionSystem.callSteps (Caller.thread true) () 3 ++
    TransitionSystem.callSteps (Caller.isr ()) () 3 ++
    [CallAct.step (Caller.thread false), .event ()] ++
    TransitionSystem.callSteps (Caller.isr ()) () 3

theorem uptime_agrees_late : ∃ s : State Bool Unit,
    exec (system ⟨⟨8, 16⟩, 32⟩ kilohertz) (.initial 65535) lateRun = some s ∧
    s.mem.calls.map Call.result = [65536, 65536, 65535, 65537] ∧
    Agrees ⟨⟨8, 16⟩, 32⟩ kilohertz s := by
  obtain ⟨s, hs, hcalls⟩ := exists_of_exec lateRun (M := system ⟨⟨8, 16⟩, 32⟩ kilohertz)
    (s := (.initial 65535 : State Bool Unit))
    (P := fun s => s.mem.calls.map Call.result = [65536, 65536, 65535, 65537])
    (by decide +kernel)
  have hagrees := uptime_agrees (.inl rfl) (reachableVia_of_execOk lateRun
    (fun _ _ => CacheFresh.of_cacheFresh) ⟨⟨rfl, rfl, rfl, rfl, rfl⟩, fun _ => rfl⟩
    (by decide +kernel) hs)
  exact ⟨s, hs, hcalls, hagrees⟩

/-- A thread calls, and again one tick later. -/
def wrapRun : List (Act Bool Unit) :=
  TransitionSystem.callSteps (Caller.thread false) () 3 ++ [CallAct.event ()] ++
    TransitionSystem.callSteps (Caller.thread false) () 3

/-- Where the tick count leaves 64 bits, a later call returns less. -/
theorem not_uptime_monotonic : ¬ ∀ (port : Port) (rate : TickRate) (s : State Bool Unit),
    port.Supported → ReachableVia (system port rate : System (State Bool Unit) _)
      (CacheFresh port) s →
    ∀ r ∈ s.mem.calls, ∀ r' ∈ s.mem.calls, r.returned ≤ r'.invoked → r.result ≤ r'.result := by
  intro h
  obtain ⟨s, hs, hcalls⟩ := exists_of_exec wrapRun (M := system ⟨⟨8, 32⟩, 32⟩ kilohertz)
    (s := (.initial (2 ^ 64 - 1) : State Bool Unit))
    (P := fun s => s.mem.calls =
      [⟨2 ^ 64 - 1, 2 ^ 64 - 1, 2 ^ 64 - 1, 18446744073709551615⟩, ⟨2 ^ 64, 2 ^ 64, 2 ^ 64, 0⟩])
    (by decide +kernel)
  have hle := h ⟨⟨8, 32⟩, 32⟩ kilohertz s (.inr rfl) (reachableVia_of_execOk wrapRun
    (fun _ _ => CacheFresh.of_cacheFresh) ⟨⟨rfl, rfl, rfl, rfl, rfl⟩, fun _ => rfl⟩
    (by decide +kernel) hs)
  rw [hcalls] at hle
  have hlast := hle _ List.mem_cons_self _ (List.mem_cons_of_mem _ List.mem_cons_self) (by decide)
  revert hlast
  decide

end HazelOsal.FreeRtos.Uptime
