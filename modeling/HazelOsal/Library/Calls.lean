import Mathlib.Init

/-! # Calls that may loop

A call runs on a state with as many rounds as its loops may take. `Executes exec h cs h'` says that
with enough of them the calls `cs` run and return the values they are listed with. What the state
stands for changes by `Step`; where every single call follows it, so does every sequence. -/

namespace Calls

variable {H F C V : Type}

section
variable (exec : Nat → H → C → Option (H × V))

/-- The calls one after the other, and the values they return. -/
def execAll (rounds : Nat) : H → List C → Option (H × List V)
  | h, [] => some (h, [])
  | h, c :: cs => do
    let (h, v) ← exec rounds h c
    let (h, vs) ← execAll rounds h cs
    return (h, v :: vs)

/-- The calls run on the state `h`, with enough rounds for every loop, return the values and leave
`h'`. -/
def Executes (h : H) (cs : List (C × V)) (h' : H) : Prop :=
  ∃ n, ∀ rounds, n ≤ rounds → execAll exec rounds h (cs.map Prod.fst) = some (h', cs.map Prod.snd)

end

/-- A list of calls, each with the value it returns. -/
inductive Steps (Step : F → C → V → F → Prop) : F → List (C × V) → F → Prop
  | nil {f : F} : Steps Step f [] f
  | cons {f f' f'' : F} {c : C} {v : V} {cs : List (C × V)} (hs : Step f c v f')
    (hrest : Steps Step f' cs f'') : Steps Step f ((c, v) :: cs) f''

section
variable {exec : Nat → H → C → Option (H × V)} {h h₁ h₂ : H} {c : C} {v : V} {cs cs' : List (C × V)}

namespace Executes

theorem nil : Executes exec h [] h := ⟨0, fun _ _ => rfl⟩

theorem cons (hc : ∃ n, ∀ rounds, n ≤ rounds → exec rounds h c = some (h₁, v))
    (hcs : Executes exec h₁ cs h₂) : Executes exec h ((c, v) :: cs) h₂ := by
  obtain ⟨n₁, hc⟩ := hc
  obtain ⟨n₂, hcs⟩ := hcs
  refine ⟨max n₁ n₂, fun rounds hrounds => ?_⟩
  have hc := hc rounds (Nat.le_trans (Nat.le_max_left ..) hrounds)
  have hcs := hcs rounds (Nat.le_trans (Nat.le_max_right ..) hrounds)
  rw [List.map_cons, List.map_cons, execAll]
  simp only [hc, hcs, Option.bind_eq_bind, Option.bind_some, Option.pure_def]

theorem execAll_append {rounds : Nat} {cs cs' : List C} :
    execAll exec rounds h (cs ++ cs') = (execAll exec rounds h cs).bind fun (h₁, vs) =>
      (execAll exec rounds h₁ cs').map fun (h₂, vs') => (h₂, vs ++ vs') := by
  induction cs generalizing h with
  | nil => cases h' : execAll exec rounds h cs' <;> simp [execAll, h']
  | cons c cs ih =>
    simp only [List.cons_append, execAll, Option.bind_eq_bind, Option.pure_def, ih]
    cases exec rounds h c with
    | none => rfl
    | some r =>
      simp only [Option.bind_some]
      cases execAll exec rounds r.1 cs with
      | none => rfl
      | some r' =>
        simp only [Option.bind_some]
        cases execAll exec rounds r'.1 cs' <;> rfl

theorem append (hcs : Executes exec h cs h₁) (hcs' : Executes exec h₁ cs' h₂) :
    Executes exec h (cs ++ cs') h₂ := by
  obtain ⟨n₁, hcs⟩ := hcs
  obtain ⟨n₂, hcs'⟩ := hcs'
  refine ⟨max n₁ n₂, fun rounds hrounds => ?_⟩
  have hcs := hcs rounds (Nat.le_trans (Nat.le_max_left ..) hrounds)
  have hcs' := hcs' rounds (Nat.le_trans (Nat.le_max_right ..) hrounds)
  rw [List.map_append, List.map_append, execAll_append]
  simp only [hcs, hcs', Option.bind_some, Option.map_some]

end Executes
end

section
variable {Step : F → C → V → F → Prop} {f f' f'' : F} {cs cs' : List (C × V)}

namespace Steps

theorem append (hs : Steps Step f cs f') (hs' : Steps Step f' cs' f'') :
    Steps Step f (cs ++ cs') f'' := by
  induction hs with
  | nil => exact hs'
  | cons hs _ ih => exact .cons hs (ih hs')

/-- **Every sequence follows the contract** when every call does. -/
theorem exec {exec : Nat → H → C → Option (H × V)} {R : H → F → Prop} {h : H}
    (hexec : ∀ {f c v f' h}, Step f c v f' → R h f →
      ∃ h' n, (∀ rounds, n ≤ rounds → exec rounds h c = some (h', v)) ∧ R h' f')
    (hs : Steps Step f cs f') (hR : R h f) : ∃ h', Executes exec h cs h' ∧ R h' f' := by
  induction hs generalizing h with
  | nil => exact ⟨h, .nil, hR⟩
  | cons hs _ ih =>
    obtain ⟨h₁, n₁, hexec₁, hR₁⟩ := hexec hs hR
    obtain ⟨h₂, hexec₂, hR₂⟩ := ih hR₁
    exact ⟨h₂, .cons ⟨n₁, hexec₁⟩ hexec₂, hR₂⟩

end Steps
end

end Calls
