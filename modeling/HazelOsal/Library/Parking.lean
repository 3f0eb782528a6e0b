import Mathlib.Logic.Basic

/-! # Parking

A thread joins a queue, waits natively for a notification, and then either leaves the queue or finds
that it has been removed. A wake removes it and sends it a value, which stays pending until a native
wait consumes it. `Wait V` is what one thread sees of this, and `Step` lists what may happen to it
where every wake finds the native wait still going on. With `shared` the pending value may change in
any way while the thread is outside its waits.

`Delivered` says that the value sent is the one that the native wait consumes, `Clean` in addition
that it consumes no other. -/

namespace Parking

/-- Where a thread is. -/
inductive Phase (V : Type) where
  | outside
  /-- From joining the queue until the native wait ends. -/
  | waiting
  /-- The native wait has ended, with the value that it has consumed, if it has not timed out. -/
  | ended (value : Option V)

theorem Phase.waiting_ne_outside {V : Type} : (.waiting : Phase V) ≠ .outside :=
  fun h => by cases h

/-- `sent` is the value of the wake that has removed the thread from the queue of this wait. -/
structure Wait (V : Type) where
  phase : Phase V
  queued : Bool
  sent : Option V
  pending : Option V

inductive Step {V : Type} (shared : Bool) (w : Wait V) : Wait V → Prop
  | stay : Step shared w w
  | elsewhere {w' : Wait V} (hp : w.phase = .outside) (hp' : w'.phase = .outside)
    (hv : shared = false → w'.pending = w.pending) : Step shared w w'
  | join (hp : w.phase = .outside) : Step shared w ⟨.waiting, true, none, w.pending⟩
  | consume {v : V} (hp : w.phase = .waiting) (hv : w.pending = some v) :
    Step shared w ⟨.ended (some v), w.queued, w.sent, none⟩
  | timeout (hp : w.phase = .waiting) (hv : w.pending = none) :
    Step shared w { w with phase := .ended none }
  | leave {w' : Wait V} {value : Option V} (hp : w.phase = .ended value)
    (hp' : w'.phase = .outside) (hv : w'.pending = w.pending) : Step shared w w'
  | wake {v : V} (hp : w.phase = .waiting) (hq : w.queued = true) :
    Step shared w ⟨.waiting, false, some v, some v⟩
  /-- Removed without a wake. -/
  | drop (hq : w.queued = true) : Step shared w { w with queued := false }

variable {V : Type} {w w' : Wait V} {shared : Bool}

/-- A value that has been sent is pending, or is the one consumed. -/
structure Delivered (w : Wait V) : Prop where
  waiting : w.phase = .waiting → ∀ v, w.sent = some v → w.pending = some v
  ended : ∀ value v, w.phase = .ended value → w.sent = some v → value = some v

/-- No value is pending but the one sent, nor consumed. -/
structure Clean (w : Wait V) : Prop where
  outside : w.phase = .outside → w.pending = none
  waiting : w.phase = .waiting → w.pending = w.sent
  ended : ∀ value, w.phase = .ended value → w.pending = none ∧ w.sent = value
  queued : w.phase ≠ .outside → w.queued = true → w.sent = none

theorem Delivered.of_outside (hp : w.phase = .outside) : Delivered w where
  waiting h := by rw [hp] at h; cases h
  ended _ _ h := by rw [hp] at h; cases h

theorem Delivered.of_waiting (hp : w.phase = .waiting)
    (hv : ∀ v, w.sent = some v → w.pending = some v) : Delivered w where
  waiting _ := hv
  ended _ _ h := by rw [hp] at h; cases h

theorem Delivered.of_ended {value : Option V} (hp : w.phase = .ended value)
    (hv : ∀ v, w.sent = some v → value = some v) : Delivered w where
  waiting h := by rw [hp] at h; cases h
  ended _ _ h := by rw [hp] at h; cases h; exact hv _

theorem Clean.of_outside (hp : w.phase = .outside) (hv : w.pending = none) : Clean w where
  outside _ := hv
  waiting h := by rw [hp] at h; cases h
  ended _ h := by rw [hp] at h; cases h
  queued h := absurd hp h

theorem Clean.of_waiting (hp : w.phase = .waiting) (hv : w.pending = w.sent)
    (hq : w.queued = true → w.sent = none) : Clean w where
  outside h := by rw [hp] at h; cases h
  waiting _ := hv
  ended _ h := by rw [hp] at h; cases h
  queued _ := hq

theorem Clean.of_ended {value : Option V} (hp : w.phase = .ended value) (hv : w.pending = none)
    (hs : w.sent = value) (hq : w.queued = true → w.sent = none) : Clean w where
  outside h := by rw [hp] at h; cases h
  waiting h := by rw [hp] at h; cases h
  ended _ h := by rw [hp] at h; cases h; exact ⟨hv, hs⟩
  queued _ := hq

/-- **What is sent is consumed.** -/
theorem Step.delivered (h : Step shared w w') (hd : Delivered w) : Delivered w' := by
  cases h with
  | stay => exact hd
  | elsewhere _ hp' | leave _ hp' => exact .of_outside hp'
  | join => exact .of_waiting rfl fun v h => by cases h
  | consume hp hv => exact .of_ended rfl fun v h => hv.symm.trans (hd.waiting hp v h)
  | timeout hp hv => exact .of_ended rfl fun v h => hv.symm.trans (hd.waiting hp v h)
  | wake => exact .of_waiting rfl fun _ h => h
  | drop => exact ⟨hd.waiting, hd.ended⟩

/-- **Nothing else is consumed**, if the pending value is not shared. -/
theorem Step.clean (h : Step false w w') (hc : Clean w) : Clean w' := by
  cases h with
  | stay => exact hc
  | elsewhere hp hp' hv => exact .of_outside hp' ((hv rfl).trans (hc.outside hp))
  | leave hp hp' hv => exact .of_outside hp' (hv.trans (hc.ended _ hp).1)
  | join hp => exact .of_waiting rfl (hc.outside hp) fun _ => rfl
  | consume hp hv =>
    refine .of_ended rfl rfl ((hc.waiting hp).symm.trans hv) (hc.queued ?_)
    exact hp ▸ Phase.waiting_ne_outside
  | timeout hp hv =>
    refine .of_ended rfl hv ((hc.waiting hp).symm.trans hv) (hc.queued ?_)
    exact hp ▸ Phase.waiting_ne_outside
  | wake => exact .of_waiting rfl rfl fun h => by cases h
  | drop => exact ⟨hc.outside, hc.waiting, hc.ended, fun _ h => by cases h⟩

end Parking
