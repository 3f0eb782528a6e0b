import HazelOsal.Library.Callers
import HazelOsal.Library.SerialTicks
import Mathlib.Tactic.Ring

/-! # Uptime

`time.c` of the RT-Thread backend. `rt_tick_get` returns the low 32 bits of a tick counter that
never stops, and `os_uptime_get` counts the wraps. A step of a call is the read of the tick, which
comes first, or the block with interrupts disabled. Any number of threads and interrupt handlers
interleave their steps in any order with the increments of the counter.

Where each block finds a sample that is neither older than that of the block before nor a whole
range younger, the uptime is exact and monotonic. -/

namespace HazelOsal.RtThread.Uptime

open TransitionSystem

/-- `RT_TICK_PER_SECOND`. -/
structure TickRate where
  perSecond : UInt32
  pos : 0 < perSecond.toNat

def UINT64_MAX : UInt64 := 18446744073709551615

/-- `os_ticks_to_ms`. -/
def osTicksToMs (rate : TickRate) (ticks : UInt64) : UInt64 :=
  let rate := rate.perSecond.toUInt64
  let whole := ticks / rate
  let remainder := ticks % rate
  if whole > UINT64_MAX / 1000 then UINT64_MAX
  else whole * 1000 + remainder * 1000 / rate

/-- The milliseconds, rounded down, that so many ticks take. -/
def milliseconds (rate : TickRate) (ticks : Nat) : Nat := ticks * 1000 / rate.perSecond.toNat

/-- A call of `os_uptime_get`: the ticks that had passed when it was invoked, when it read the tick
and when it returned, and what it returned. -/
structure Call where
  invoked : Nat
  sampled : Nat
  returned : Nat
  result : UInt64
  deriving DecidableEq

/-- `epoch` and `previous` are the static variables of `os_uptime_get`. `last` is the tick that
`previous` is a sample of, and `calls` are the calls that have returned: no modelled function reads
them. -/
structure Mem where
  ticks : Nat
  epoch : UInt64
  previous : UInt32
  last : Nat
  calls : List Call

/-- `os_tick_get`, when `tick` ticks have passed. -/
def osTickGet (tick : Nat) : UInt32 := UInt32.ofNat tick

/-- The block of `os_uptime_get` with interrupts disabled, and the value of `ticks` behind it. -/
def osUptimeBlock (m : Mem) (current : UInt32) : Mem × UInt64 :=
  let epoch := if current < m.previous then m.epoch + 4294967296 else m.epoch
  ({ m with epoch, previous := current }, epoch + current.toUInt64)

/-- `sampled` is the tick of which the code keeps the low 32 bits. -/
inductive Pc where
  | idle
  | done (result : UInt64)
  | enter
  | tickGet (invoked : Nat)
  | block (invoked sampled : Nat)
  deriving DecidableEq

/-- No call is in progress. -/
def Pc.free : Pc → Bool
  | .idle | .done _ => true
  | _ => false

def callStep (rate : TickRate) (m : Mem) : Pc → Option (Mem × Pc)
  | .idle | .done _ => none
  | .enter => some (m, .tickGet m.ticks)
  | .tickGet invoked => some (m, .block invoked m.ticks)
  | .block invoked sampled =>
    let (m, ticks) := osUptimeBlock m (osTickGet sampled)
    let result := osTicksToMs rate ticks
    let call : Call := { invoked, sampled, returned := m.ticks, result }
    some ({ m with last := sampled, calls := m.calls ++ [call] }, .done result)

/-- What the users of the clock run; the event is the tick. -/
def program (C : Type) (rate : TickRate) : Program C Mem Pc Unit Unit where
  free := Pc.free
  entry _ := .enter
  step _ m p := callStep rate m p
  expire _ _ := none
  event _ m := some { m with ticks := m.ticks + 1 }

/-- Nobody has called `os_uptime_get` yet. -/
def Init (m : Mem) : Prop :=
  m.epoch = 0 ∧ m.previous = 0 ∧ m.last = 0 ∧ m.calls = []

abbrev State (C : Type) := Callers C Mem Pc

abbrev Act (C : Type) := CallAct C Unit Unit

variable {C : Type} [DecidableEq C]

def system (rate : TickRate) : System (State C) (Act C) := (program C rate).system Init .idle

/-- A block finds a sample that is not older than that of the block before, and less than 2^32 ticks
younger. -/
def FreshSample (s : State C) (a : Act C) : Prop :=
  ∀ c invoked sampled, a = .step c → s.call c = .block invoked sampled →
    s.mem.last ≤ sampled ∧ sampled < s.mem.last + 2 ^ 32

/-- The check of `FreshSample`. -/
def freshSample (s : State C) : Act C → Bool
  | .step c =>
    match s.call c with
    | .block _ sampled => s.mem.last ≤ sampled && sampled < s.mem.last + 2 ^ 32
    | _ => true
  | _ => true

omit [DecidableEq C] in
theorem FreshSample.of_freshSample {s : State C} {a : Act C} (h : freshSample s a = true) :
    FreshSample s a := by
  rintro c invoked sampled rfl hc
  simpa [freshSample, hc] using h

/-! ## Milliseconds -/

section
variable {rate : TickRate} {ticks ticks' : Nat}

theorem milliseconds_mono (h : ticks ≤ ticks') :
    milliseconds rate ticks ≤ milliseconds rate ticks' :=
  Nat.div_le_div_right (Nat.mul_le_mul_right _ h)

/-- Seconds and the rest of a second, converted apart. -/
theorem milliseconds_eq (rate : TickRate) (ticks : Nat) :
    milliseconds rate ticks = ticks / rate.perSecond.toNat * 1000 +
      ticks % rate.perSecond.toNat * 1000 / rate.perSecond.toNat := by
  have hsplit : ticks * 1000 = ticks % rate.perSecond.toNat * 1000 +
      ticks / rate.perSecond.toNat * 1000 * rate.perSecond.toNat := by
    conv_lhs => rw [← Nat.mod_add_div ticks rate.perSecond.toNat]
    ring
  rw [milliseconds, hsplit, Nat.add_mul_div_right _ _ rate.pos, Nat.add_comm]

/-- The ticks and their milliseconds fit in 64 bits. -/
def Fits (rate : TickRate) (ticks : Nat) : Prop :=
  ticks < 2 ^ 64 ∧ milliseconds rate ticks < 2 ^ 64

theorem Fits.mono (h : Fits rate ticks') (hle : ticks ≤ ticks') : Fits rate ticks :=
  ⟨hle.trans_lt h.1, (milliseconds_mono hle).trans_lt h.2⟩

/-- `os_ticks_to_ms` is exact where the milliseconds fit. -/
theorem osTicksToMs_toNat (h : Fits rate ticks) :
    (osTicksToMs rate (UInt64.ofNat ticks)).toNat = milliseconds rate ticks := by
  obtain ⟨ht, hms⟩ := h
  have hticks : (UInt64.ofNat ticks).toNat = ticks := by
    rw [UInt64.toNat_ofNat']
    exact Nat.mod_eq_of_lt ht
  have hrest : ticks % rate.perSecond.toNat * 1000 < 2 ^ 64 := by
    have := Nat.mod_lt ticks rate.pos
    have := rate.perSecond.toNat_lt
    omega
  rw [milliseconds_eq] at hms ⊢
  have hwhole : (UInt64.ofNat ticks / rate.perSecond.toUInt64).toNat =
      ticks / rate.perSecond.toNat := by
    rw [UInt64.toNat_div, hticks, UInt32.toNat_toUInt64]
  have hmax : (UINT64_MAX / 1000).toNat = 18446744073709551 := rfl
  have hthousand : (1000 : UInt64).toNat = 1000 := rfl
  have hsmall : ¬ UInt64.ofNat ticks / rate.perSecond.toUInt64 > UINT64_MAX / 1000 := by
    rw [gt_iff_lt, UInt64.lt_iff_toNat_lt, hwhole, hmax]
    generalize ticks / rate.perSecond.toNat = whole at hms ⊢
    have := Nat.le_of_add_right_le (Nat.le_of_lt hms)
    omega
  simp only [osTicksToMs, hsmall, if_false, UInt64.toNat_add, UInt64.toNat_mul, hwhole,
    UInt64.toNat_mod, UInt64.toNat_div, hticks, UInt32.toNat_toUInt64, hthousand]
  rw [Nat.mod_eq_of_lt hrest, Nat.mod_eq_of_lt (Nat.lt_of_add_right_lt hms), Nat.mod_eq_of_lt hms]

/-! ## The block -/

/-- Where the sample is fresh, the block moves the epoch of the last sample on to the new one, and
`ticks` is the tick count that was sampled. -/
theorem osUptimeBlock_eq {m : Mem} {sampled : Nat}
    (he : m.epoch = UInt64.ofNat (2 ^ 32 * (m.last / 2 ^ 32)))
    (hp : m.previous = osTickGet m.last) (hl : m.last ≤ sampled)
    (hr : sampled < m.last + 2 ^ 32) :
    osUptimeBlock m (osTickGet sampled) =
      ({ m with
          epoch := UInt64.ofNat (2 ^ 32 * (sampled / 2 ^ 32))
          previous := osTickGet sampled },
        UInt64.ofNat sampled) := by
  have hlow (tick : Nat) : (osTickGet tick).toNat = tick % 2 ^ 32 := UInt32.toNat_ofNat'
  have hepoch := SerialTicks.extend_epoch (hlow sampled) (hlow m.last) hl hr
  have hrange : UInt64.ofNat (2 ^ 32) = 4294967296 := rfl
  rw [← he, ← hp, hrange] at hepoch
  simp only [osUptimeBlock, hepoch, SerialTicks.epoch_add_low (hlow sampled)]

end

/-! ## The invariant -/

/-- The static variables extend the last sample, and the calls in progress and those that have
returned read the tick while they ran. -/
structure UptimeInv (rate : TickRate) (s : State C) : Prop where
  epoch : s.mem.epoch = UInt64.ofNat (2 ^ 32 * (s.mem.last / 2 ^ 32))
  previous : s.mem.previous = osTickGet s.mem.last
  tickGet : ∀ c invoked, s.call c = .tickGet invoked → invoked ≤ s.mem.ticks
  block : ∀ c invoked sampled, s.call c = .block invoked sampled →
    invoked ≤ sampled ∧ sampled ≤ s.mem.ticks
  calls : ∀ r ∈ s.mem.calls, r.invoked ≤ r.sampled ∧ r.sampled ≤ r.returned ∧
    r.result = osTicksToMs rate (UInt64.ofNat r.sampled)
  done : ∀ c result, s.call c = .done result → ∃ r ∈ s.mem.calls, r.result = result

section
variable {rate : TickRate} {s s' : State C} {a : Act C} {c : C} {p' : Pc}

/-- A step of a call that does not touch the static variables. -/
theorem UptimeInv.set (h : UptimeInv rate s)
    (ht : ∀ invoked, p' = .tickGet invoked → invoked ≤ s.mem.ticks)
    (hb : ∀ invoked sampled, p' = .block invoked sampled →
      invoked ≤ sampled ∧ sampled ≤ s.mem.ticks)
    (hd : ∀ result, p' ≠ .done result) : UptimeInv rate (s.set c s.mem p') := by
  refine { h with tickGet := fun d invoked hc => ?_, block := fun d invoked sampled hc => ?_,
                  done := fun d result hc => ?_ }
  all_goals
    rw [Callers.set_call] at hc
    split at hc
  case refine_1.isTrue => exact ht invoked hc
  case refine_1.isFalse => exact h.tickGet d invoked hc
  case refine_2.isTrue => exact hb invoked sampled hc
  case refine_2.isFalse => exact h.block d invoked sampled hc
  case refine_3.isTrue => exact absurd hc (hd result)
  case refine_3.isFalse => exact h.done d result hc

/-- **The block keeps the invariant where its sample is fresh.** -/
theorem UptimeInv.blockStep {invoked sampled : Nat} {m' : Mem} (h : UptimeInv rate s)
    (hok : FreshSample s (.step c)) (hc : s.call c = .block invoked sampled)
    (hs : callStep rate s.mem (.block invoked sampled) = some (m', p')) :
    UptimeInv rate (s.set c m' p') := by
  obtain ⟨hl, hr⟩ := hok c invoked sampled rfl hc
  obtain ⟨hinvoked, hsampled⟩ := h.block c invoked sampled hc
  simp only [callStep, osUptimeBlock_eq h.epoch h.previous hl hr] at hs
  cases hs
  constructor
  case epoch | previous => rfl
  case tickGet =>
    intro d invoked hd
    rw [Callers.set_call] at hd
    split at hd
    case isTrue => cases hd
    case isFalse => exact h.tickGet d invoked hd
  case block =>
    intro d invoked sampled hd
    rw [Callers.set_call] at hd
    split at hd
    case isTrue => cases hd
    case isFalse => exact h.block d invoked sampled hd
  case calls =>
    intro r hr
    rcases List.mem_append.mp hr with hr | hr
    · exact h.calls r hr
    · rw [List.mem_singleton.mp hr]
      exact ⟨hinvoked, hsampled, rfl⟩
  case done =>
    intro d result hd
    rw [Callers.set_call] at hd
    split at hd
    case isTrue =>
      cases hd
      exact ⟨_, List.mem_append_right _ (List.mem_singleton_self _), rfl⟩
    case isFalse =>
      obtain ⟨r, hr, he⟩ := h.done d result hd
      exact ⟨r, List.mem_append_left _ hr, he⟩

theorem UptimeInv.move (h : UptimeInv rate s) (hok : FreshSample s a)
    (hm : (program C rate).Move s a s') : UptimeInv rate s' := by
  cases hm with
  | call =>
    exact h.set (fun _ he => by cases he) (fun _ _ he => by cases he) fun _ he => by cases he
  | @step c m' p' hstep =>
    have hs : callStep rate s.mem (s.call c) = some (m', p') := hstep
    generalize hc : s.call c = p at hs
    cases p with
    | idle | done => cases hs
    | enter =>
      cases hs
      refine h.set (fun invoked he => ?_) (fun _ _ he => by cases he) fun _ he => by cases he
      cases he
      exact Nat.le_refl _
    | tickGet invoked =>
      cases hs
      refine h.set (fun _ he => by cases he) (fun _ _ he => ?_) fun _ he => by cases he
      cases he
      exact ⟨h.tickGet c invoked hc, Nat.le_refl _⟩
    | block invoked sampled => exact h.blockStep hok hc hs
  | expire hexpire => cases hexpire
  | event hevent =>
    cases hevent
    exact { h with
      tickGet := fun d invoked hc => Nat.le_succ_of_le (h.tickGet d invoked hc)
      block := fun d invoked sampled hc =>
        (h.block d invoked sampled hc).imp_right Nat.le_succ_of_le }

theorem inv_of_reachableVia (h : ReachableVia (system rate : System (State C) _) FreshSample s) :
    UptimeInv rate s := by
  refine Program.invariant (fun s ⟨he, hp, hl, hcalls⟩ hidle => ?_)
    (fun s a s' hi hok hm => hi.move hok hm) h
  have hnot (c : C) {p : Pc} (hp : p ≠ .idle) (hc : s.call c = p) : False :=
    hp (hc.symm.trans (hidle c))
  constructor
  case epoch => rw [he, hl]; rfl
  case previous => rw [hp, hl]; rfl
  case tickGet => exact fun c _ hc => (hnot c (by simp) hc).elim
  case block => exact fun c _ _ hc => (hnot c (by simp) hc).elim
  case calls => rw [hcalls]; exact fun r hr => by cases hr
  case done => exact fun c _ hc => (hnot c (by simp) hc).elim

/-- What the users of `os_uptime_get` may rely on in a state. -/
structure Exact (rate : TickRate) (s : State C) : Prop where
  /-- A call returns the milliseconds of a tick count of the time while it ran. -/
  result : ∀ r ∈ s.mem.calls, ∃ tick, r.invoked ≤ tick ∧ tick ≤ r.returned ∧
    r.result = osTicksToMs rate (UInt64.ofNat tick)
  notAhead : ∀ r ∈ s.mem.calls, Fits rate r.returned →
    r.result.toNat ≤ milliseconds rate r.returned
  /-- A call that starts after another one has returned does not return less. -/
  monotonic : ∀ r ∈ s.mem.calls, ∀ r' ∈ s.mem.calls, r.returned ≤ r'.invoked →
    Fits rate r'.returned → r.result ≤ r'.result
  done : ∀ c result, s.call c = .done result → ∃ r ∈ s.mem.calls, r.result = result

/-- **The uptime is exact and monotonic** where each block finds a fresh sample. -/
theorem uptime_exact (h : ReachableVia (system rate : System (State C) _) FreshSample s) :
    Exact rate s := by
  have hi := inv_of_reachableVia h
  have hresult (r : Call) (hr : r ∈ s.mem.calls) {tick : Nat} (hle : r.sampled ≤ tick)
      (hf : Fits rate tick) : r.result.toNat = milliseconds rate r.sampled := by
    rw [(hi.calls r hr).2.2]
    exact osTicksToMs_toNat (hf.mono hle)
  refine ⟨fun r hr => ?_, fun r hr hf => ?_, fun r hr r' hr' hle hf => ?_, hi.done⟩
  · obtain ⟨hinvoked, hreturned, he⟩ := hi.calls r hr
    exact ⟨r.sampled, hinvoked, hreturned, he⟩
  · obtain ⟨-, hreturned, -⟩ := hi.calls r hr
    rw [hresult r hr hreturned hf]
    exact milliseconds_mono hreturned
  · obtain ⟨-, hreturned, -⟩ := hi.calls r hr
    obtain ⟨hinvoked', hreturned', -⟩ := hi.calls r' hr'
    have hsampled : r.sampled ≤ r'.sampled := hreturned.trans (hle.trans hinvoked')
    rw [UInt64.le_iff_toNat_le, hresult r hr (hsampled.trans hreturned') hf,
      hresult r' hr' hreturned' hf]
    exact milliseconds_mono hsampled

/-- A system that has run for so many ticks before the first call. -/
def State.initial (ticks : Nat) : State C where
  mem := { ticks, epoch := 0, previous := 0, last := 0, calls := [] }
  call := fun _ => .idle

def centisecond : TickRate := ⟨100, by decide⟩

/-- Two calls with a wrap of the counter between them. -/
def wrapRun : List (Act Bool) :=
  callSteps false () 3 ++ List.replicate 2 (.event ()) ++ callSteps true () 3

theorem uptime_exact_wrap : ∃ s : State Bool,
    exec (system centisecond) (.initial 4294967295) wrapRun = some s ∧
    s.call false = .done 42949672950 ∧ s.call true = .done 42949672970 ∧
    Exact centisecond s := by
  obtain ⟨s, hs, hfirst, hsecond⟩ := exists_of_exec wrapRun (M := system centisecond)
    (s := (.initial 4294967295 : State Bool))
    (P := fun s => s.call false = .done 42949672950 ∧ s.call true = .done 42949672970)
    (by decide +kernel)
  have hexact := uptime_exact (reachableVia_of_execOk wrapRun
    (fun _ _ => FreshSample.of_freshSample) ⟨⟨rfl, rfl, rfl, rfl⟩, fun _ => rfl⟩
    (by decide +kernel) hs)
  exact ⟨s, hs, hfirst, hsecond, hexact⟩

/-- A caller is preempted between its read of the tick and its block, and another one calls
meanwhile. -/
def staleRun : List (Act Bool) :=
  CallAct.event () :: callSteps false () 2 ++ [CallAct.event ()] ++ callSteps true () 3 ++
    [CallAct.step false]

/-- The stale sample is taken for a wrap: after 2 ticks the uptime is 497 days. -/
theorem not_uptime_exact :
    (¬ ∀ s : State Bool, Reachable (system centisecond) s → Exact centisecond s) ∧
    ∃ s : State Bool, exec (system centisecond) (.initial 0) staleRun = some s ∧
      s.mem.ticks = 2 ∧ s.mem.calls = [⟨2, 2, 2, 20⟩, ⟨1, 1, 2, 42949672970⟩] := by
  have hstale := exists_of_exec staleRun (M := system centisecond) (s := (.initial 0 : State Bool))
    (P := fun s => s.mem.ticks = 2 ∧ s.mem.calls = [⟨2, 2, 2, 20⟩, ⟨1, 1, 2, 42949672970⟩])
    (by decide +kernel)
  refine ⟨fun hall => ?_, hstale⟩
  obtain ⟨s, hs, -, hcalls⟩ := hstale
  have hexact := hall s (reachable_of_exec staleRun ⟨⟨rfl, rfl, rfl, rfl⟩, fun _ => rfl⟩ hs)
  obtain ⟨tick, hinvoked, hreturned, hresult⟩ := hexact.result ⟨1, 1, 2, 42949672970⟩
    (by rw [hcalls]; exact List.mem_cons_of_mem _ List.mem_cons_self)
  obtain rfl | rfl : tick = 1 ∨ tick = 2 := by
    dsimp only at hinvoked hreturned
    omega
  all_goals exact absurd hresult (by decide +kernel)

end

end HazelOsal.RtThread.Uptime
