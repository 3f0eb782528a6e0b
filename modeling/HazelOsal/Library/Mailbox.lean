import HazelOsal.Library.Transition
import Mathlib.Data.List.Induction
import Mathlib.Logic.Function.Basic

/-! # Mailboxes for one message

`mailbox` is the mailbox as its users see it: raising fills it when it is empty, a delivery empties
it, and so does a reset, which throws the message away. `Delivered log f` says that every delivery
of a history is that of an earlier raise, which `f` names, and of no other delivery's. Every legal
history of the mailbox has such an `f`. -/

namespace TransitionSystem

/-- What happens to a mailbox; `wait` is the beginning of a call that waits for a message. -/
inductive MailEvent (C α : Type) where
  | raise (a : α)
  | wait (c : C)
  | deliver (c : C) (a : α)
  | reset
  deriving DecidableEq

/-- The deliveries of a history come from its raises, by position. -/
structure Delivered (log : List (MailEvent C α)) (f : Nat → Nat) : Prop where
  raised : ∀ i c a, log[i]? = some (.deliver c a) → f i < i ∧ log[f i]? = some (.raise a)
  injective : ∀ i j c d a b, log[i]? = some (.deliver c a) → log[j]? = some (.deliver d b) →
    f i = f j → i = j
  /-- What a reset throws away is not delivered to who begins to wait after it. -/
  reset : ∀ i c a k b, log[i]? = some (.deliver c a) → f i < k → log[k]? = some .reset →
    k < b → log[b]? = some (.wait c) → i < b

variable {C α : Type}

/-- The message of the raise at position `k` is still in the mailbox. -/
structure Pending (log : List (MailEvent C α)) (f : Nat → Nat) (k : Nat) (a : α) : Prop where
  raised : log[k]? = some (.raise a)
  undelivered : ∀ i c b, log[i]? = some (.deliver c b) → f i ≠ k
  kept : ∀ j, log[j]? = some .reset → j < k

section
variable {log : List (MailEvent C α)} {e : MailEvent C α} {f : Nat → Nat} {k : Nat} {a : α} {c : C}

theorem getElem?_snoc {x : MailEvent C α} {i : Nat} :
    (log ++ [e])[i]? = some x ↔ log[i]? = some x ∨ i = log.length ∧ e = x := by
  rw [List.getElem?_append]
  split
  case isTrue hi => simp [Nat.ne_of_lt hi]
  case isFalse hi =>
    have hnone : log[i]? = none := List.getElem?_eq_none (Nat.le_of_not_lt hi)
    rw [hnone, List.getElem?_singleton]
    split <;> simp <;> omega

theorem lt_length {x : MailEvent C α} {i : Nat} (h : log[i]? = some x) : i < log.length :=
  (List.getElem?_eq_some_iff.mp h).1

/-- An event that is not a delivery. -/
theorem Delivered.snoc (h : Delivered log f) (he : ∀ c a, e ≠ .deliver c a) :
    Delivered (log ++ [e]) f := by
  have hold {i : Nat} {c a} (hi : (log ++ [e])[i]? = some (.deliver c a)) :
      log[i]? = some (.deliver c a) :=
    (getElem?_snoc.mp hi).resolve_right fun hx => he c a hx.2
  refine ⟨fun i c a hi => ?_, fun i j c d a b hi hj => h.injective i j c d a b (hold hi) (hold hj),
    fun i c a k b hi hk hreset hb hwait => ?_⟩
  · obtain ⟨hlt, hraise⟩ := h.raised i c a (hold hi)
    exact ⟨hlt, getElem?_snoc.mpr (.inl hraise)⟩
  · rcases getElem?_snoc.mp hwait with hwait | ⟨rfl, -⟩
    · rcases getElem?_snoc.mp hreset with hreset | ⟨rfl, -⟩
      · exact h.reset i c a k b (hold hi) hk hreset hb hwait
      · exact absurd (lt_length hwait) (Nat.lt_asymm hb)
    · exact lt_length (hold hi)

/-- The message that is still there is delivered. -/
theorem Delivered.snoc_deliver (h : Delivered log f) (hp : Pending log f k a) :
    Delivered (log ++ [.deliver c a]) (Function.update f log.length k) := by
  have hraise : k < log.length := lt_length hp.raised
  have hother {i : Nat} {d b} (hi : log[i]? = some (.deliver d b)) :
      Function.update f log.length k i = f i :=
    Function.update_of_ne (Nat.ne_of_lt (lt_length hi)) ..
  have hself : Function.update f log.length k log.length = k := Function.update_self ..
  refine ⟨fun i d b hi => ?_, fun i j d d' b b' hi hj hij => ?_,
    fun i d b j w hi hj hreset hw hwait => ?_⟩
  case refine_1 =>
    rw [getElem?_snoc]
    rcases getElem?_snoc.mp hi with hi | ⟨rfl, he⟩
    · rw [hother hi]
      obtain ⟨hlt, hraised⟩ := h.raised i d b hi
      exact ⟨hlt, .inl hraised⟩
    · cases he
      rw [hself]
      exact ⟨hraise, .inl hp.raised⟩
  case refine_2 =>
    rcases getElem?_snoc.mp hi with hi | ⟨rfl, -⟩
    · rw [hother hi] at hij
      rcases getElem?_snoc.mp hj with hj | ⟨rfl, -⟩
      · rw [hother hj] at hij
        exact h.injective i j d d' b b' hi hj hij
      · rw [hself] at hij
        exact absurd hij (hp.undelivered i d b hi)
    · rw [hself] at hij
      rcases getElem?_snoc.mp hj with hj | ⟨rfl, -⟩
      · rw [hother hj] at hij
        exact absurd hij.symm (hp.undelivered j d' b' hj)
      · rfl
  case refine_3 =>
    have hreset := (getElem?_snoc.mp hreset).resolve_right fun hx => by cases hx.2
    have hwait := (getElem?_snoc.mp hwait).resolve_right fun hx => by cases hx.2
    rcases getElem?_snoc.mp hi with hi | ⟨rfl, -⟩
    · rw [hother hi] at hj
      exact h.reset i d b j w hi hj hreset hw hwait
    · rw [hself] at hj
      exact absurd (hp.kept j hreset) (Nat.lt_asymm hj)

/-- An event that neither delivers nor throws the message away. -/
theorem Pending.snoc (h : Pending log f k a) (he : ∀ c a, e ≠ .deliver c a) (hr : e ≠ .reset) :
    Pending (log ++ [e]) f k a where
  raised := getElem?_snoc.mpr (.inl h.raised)
  undelivered i c b hi :=
    h.undelivered i c b ((getElem?_snoc.mp hi).resolve_right fun hx => he c b hx.2)
  kept j hj := h.kept j ((getElem?_snoc.mp hj).resolve_right fun hx => hr hx.2)

/-- A message that has just been raised. -/
theorem Pending.of_raise (h : Delivered log f) : Pending (log ++ [.raise a]) f log.length a where
  raised := getElem?_snoc.mpr (.inr ⟨rfl, rfl⟩)
  undelivered i c b hi := by
    have hi := (getElem?_snoc.mp hi).resolve_right fun hx => by cases hx.2
    have hlt := (h.raised i c b hi).1
    have := lt_length hi
    omega
  kept j hj := lt_length ((getElem?_snoc.mp hj).resolve_right fun hx => by cases hx.2)

variable [DecidableEq α]

def mailboxStep : Option α → MailEvent C α → Option (Option α)
  | none, .raise a => some (some a)
  | some _, .raise _ => none
  | p, .wait _ => some p
  | some a, .deliver _ b => if a = b then some none else none
  | none, .deliver _ _ => none
  | _, .reset => some none

/-- A mailbox, at first empty. -/
def mailbox (C α : Type) [DecidableEq α] : System (Option α) (MailEvent C α) where
  init p := p = none
  step := mailboxStep

@[simp] theorem mailboxStep_wait (p : Option α) : mailboxStep p (.wait c) = some p := by
  cases p <;> rfl

@[simp] theorem mailboxStep_reset (p : Option α) :
    mailboxStep p (.reset : MailEvent C α) = some none := by
  cases p <;> rfl

@[simp] theorem mailboxStep_deliver : mailboxStep (some a) (.deliver c a) = some none := if_pos rfl

/-- **Every legal history of a mailbox delivers each message at most once**, and only what has been
raised. -/
theorem exists_delivered {p : Option α} (h : exec (mailbox C α) none log = some p) :
    ∃ f, Delivered log f ∧ ∀ a, p = some a → ∃ k, Pending log f k a := by
  induction log using List.reverseRecOn generalizing p with
  | nil =>
    cases h
    exact ⟨id, ⟨fun _ _ _ h => by simp at h, fun _ _ _ _ _ _ h => by simp at h,
      fun _ _ _ _ _ h => by simp at h⟩, fun _ h => by cases h⟩
  | append_singleton log e ih =>
    rw [exec_append] at h
    obtain ⟨p₀, h₀, h⟩ := Option.bind_eq_some_iff.mp h
    obtain ⟨p₁, hs, h⟩ := Option.bind_eq_some_iff.mp h
    cases h
    obtain ⟨f, hf, hp⟩ := ih h₀
    cases e with
    | raise a =>
      cases p₀ with
      | some => cases hs
      | none =>
        cases hs
        refine ⟨f, hf.snoc (fun _ _ h => by cases h), fun b hb => ?_⟩
        cases hb
        exact ⟨_, .of_raise hf⟩
    | wait c =>
      have hsame : p₀ = p := by cases p₀ <;> cases hs <;> rfl
      refine ⟨f, hf.snoc (fun _ _ h => by cases h), fun b hb => ?_⟩
      obtain ⟨k, hk⟩ := hp b (hsame.trans hb)
      exact ⟨k, hk.snoc (fun _ _ h => by cases h) fun h => by cases h⟩
    | deliver c a =>
      cases p₀ with
      | none => cases hs
      | some b =>
        obtain ⟨rfl, hnone⟩ : b = a ∧ none = p := by simpa [mailbox, mailboxStep] using hs
        cases hnone
        obtain ⟨k, hk⟩ := hp b rfl
        exact ⟨_, hf.snoc_deliver hk, fun _ h => by cases h⟩
    | reset =>
      have hnone : p = none := by cases p₀ <;> cases hs <;> rfl
      refine ⟨f, hf.snoc (fun _ _ h => by cases h), fun b hb => ?_⟩
      rw [hnone] at hb
      cases hb

/-- An event that follows a legal history. -/
theorem exec_mailbox_snoc {p p' : Option α} (h : exec (mailbox C α) none log = some p)
    (he : mailboxStep p e = some p') : exec (mailbox C α) none (log ++ [e]) = some p' := by
  rw [exec_append, h, Option.bind_some, exec]
  show (mailboxStep p e).bind _ = _
  rw [he]
  rfl

end

end TransitionSystem
