import Mathlib.Data.Set.Basic

/-! Two fallible computations that succeed together: both give related values, or both
fail, each for its own reason. -/
namespace SesLabs.Fallible
variable {ε δ α β γ κ α' β' : Type}

def Together (relation : α → β → Prop) : Except ε α → Except δ β → Prop
  | .ok a,.ok b => relation a b
  | .error _,.error _ => True
  | _,_ => False

theorem bindOk {x : Except ε α} {f : α → Except ε β} {b : β} (done : (x >>= f) = .ok b) :
    ∃ a, x = .ok a ∧ f a = .ok b := by
  cases x with
  | error e => cases done
  | ok a => exact ⟨a,rfl,done⟩

theorem mapErrorOk {x : Except ε α} {f : ε → δ} {a : α} (done : x.mapError f = .ok a) : x = .ok a := by
  cases x with
  | error e => cases done
  | ok b =>
    cases done
    rfl

theorem mapOk {x : Except ε α} {f : α → β} {b : β} (done : x.map f = .ok b) : ∃ a, x = .ok a ∧ f a = b := by
  cases x with
  | error e => cases done
  | ok a => exact ⟨a,rfl,Except.ok.inj done⟩

section Rules
variable {relation : α → β → Prop} {goal : γ → κ → Prop} {x : Except ε α} {y : Except δ β}

theorem togetherBind {f : α → Except ε γ} {g : β → Except δ κ} (together : Together relation x y)
    (next : ∀ a b, relation a b → Together goal (f a) (g b)) : Together goal (x >>= f) (y >>= g) := by
  cases x with
  | error e =>
    cases y with
    | error f => trivial
    | ok b => exact together.elim
  | ok a =>
    cases y with
    | error f => exact together.elim
    | ok b => exact next a b together

theorem togetherSwap {second : α' → β' → Prop} {x' : Except ε α'} {y' : Except δ β'} {f : α → α' → Except ε γ}
    {g : β → β' → Except δ κ} (one : Together relation x y) (two : Together second x' y')
    (next : ∀ a b a' b', relation a b → second a' b' → Together goal (f a a') (g b b')) :
    Together goal (do let a ← x; let a' ← x'; f a a') (do let b' ← y'; let b ← y; g b b') := by
  cases x with
  | error e =>
    cases y with
    | error f =>
      cases y' with
      | error h => trivial
      | ok b' => trivial
    | ok b => exact one.elim
  | ok a =>
    cases y with
    | error f => exact one.elim
    | ok b =>
      cases x' with
      | error e =>
        cases y' with
        | error f => trivial
        | ok b' => exact two.elim
      | ok a' =>
        cases y' with
        | error f => exact two.elim
        | ok b' => exact next a b a' b' one two

theorem togetherSame (x : Except ε α) (f g : ε → δ) : Together Eq (x.mapError f) (x.mapError g) := by
  cases x with
  | error e => trivial
  | ok a => exact rfl

theorem togetherRefl (x : Except ε α) : Together Eq x x := by
  cases x with
  | error e => trivial
  | ok a => exact rfl

end Rules

end SesLabs.Fallible
