import Mathlib.Data.List.Infix

/-! Patterns with wildcards over any alphabet: a letter stands for itself, `any`
for one letter, `many` for any number of letters. The relation says what a
pattern matches; the function decides it by trying every split. -/
namespace SesLabs.Glob
variable {α : Type}

inductive Token (α : Type) where
  | one (a : α)
  | any
  | many
  deriving DecidableEq, Repr

inductive Matches : List (Token α) → List α → Prop where
  | done : Matches [] []
  | one {a p s} (rest : Matches p s) : Matches (.one a::p) (a::s)
  | any {a p s} (rest : Matches p s) : Matches (.any::p) (a::s)
  | skip {p s} (rest : Matches p s) : Matches (.many::p) s
  | more {a p s} (rest : Matches (.many::p) s) : Matches (.many::p) (a::s)

def accepts [DecidableEq α] : List (Token α) → List α → Bool
  | [], s => s.isEmpty
  | .one _::_, [] => false
  | .one a::p, b::s => decide (a = b) && accepts p s
  | .any::_, [] => false
  | .any::p, _::s => accepts p s
  | .many::p, s => s.tails.any (accepts p)

section Inversion
variable {a : α} {p : List (Token α)} {s : List α}

theorem matchesNil : Matches [] s ↔ s = [] := by
  refine ⟨?_,?_⟩
  · intro found
    cases found with
    | done => rfl
  · intro empty
    subst s
    exact .done

theorem matchesOne : Matches (.one a::p) s ↔ ∃ rest, s = a::rest ∧ Matches p rest := by
  refine ⟨?_,?_⟩
  · intro found
    cases found with
    | one rest => exact ⟨_,rfl,rest⟩
  · intro found
    obtain ⟨rest,rfl,found⟩ := found
    exact .one found

theorem matchesAny : Matches (.any::p) s ↔ ∃ b rest, s = b::rest ∧ Matches p rest := by
  refine ⟨?_,?_⟩
  · intro found
    cases found with
    | any rest => exact ⟨_,_,rfl,rest⟩
  · intro found
    obtain ⟨b,rest,rfl,found⟩ := found
    exact .any found

theorem matchesFrom {front : List α} (rest : Matches p s) : Matches (.many::p) (front ++ s) := by
  induction front with
  | nil => exact .skip rest
  | cons b front ih => exact .more ih

theorem matchesSplit {q : List (Token α)} (found : Matches q s) (many : q = .many::p) :
    ∃ rest, rest <:+ s ∧ Matches p rest := by
  induction found with
  | done => cases many
  | one rest ih => cases many
  | any rest ih => cases many
  | skip rest ih =>
    cases many
    exact ⟨_,List.suffix_refl _,rest⟩
  | more rest ih =>
    obtain ⟨tail,ends,found⟩ := ih many
    exact ⟨tail,ends.trans (List.suffix_cons _ _),found⟩

theorem matchesMany : Matches (.many::p) s ↔ ∃ rest, rest <:+ s ∧ Matches p rest := by
  refine ⟨fun found => matchesSplit found rfl,?_⟩
  intro found
  obtain ⟨rest,⟨front,rfl⟩,found⟩ := found
  exact matchesFrom found

theorem matchesManyMany : Matches (.many::.many::p) s ↔ Matches (.many::p) s := by
  refine ⟨?_,.skip⟩
  intro found
  obtain ⟨rest,ends,found⟩ := matchesMany.mp found
  obtain ⟨tail,last,found⟩ := matchesMany.mp found
  exact matchesMany.mpr ⟨tail,last.trans ends,found⟩

theorem matchesAll (s : List α) : Matches [.many] s :=
  matchesMany.mpr ⟨[],List.nil_suffix,.done⟩

end Inversion

theorem acceptsIff [DecidableEq α] (p : List (Token α)) (s : List α) : accepts p s = true ↔ Matches p s := by
  induction p generalizing s with
  | nil => simp [accepts,matchesNil]
  | cons token p ih =>
    cases token with
    | one a =>
      cases s with
      | nil => simp [accepts,matchesOne]
      | cons b s =>
        simp only [accepts,Bool.and_eq_true,decide_eq_true_eq,ih,matchesOne,List.cons.injEq]
        refine ⟨?_,?_⟩
        · intro found
          exact ⟨s,⟨found.1.symm,rfl⟩,found.2⟩
        · intro found
          obtain ⟨rest,⟨same,rfl⟩,found⟩ := found
          exact ⟨same.symm,found⟩
    | any =>
      cases s with
      | nil => simp [accepts,matchesAny]
      | cons b s => simp [accepts,matchesAny,ih]
    | many =>
      rw [matchesMany]
      simp [accepts,List.any_eq_true,List.mem_tails,ih]

instance [DecidableEq α] (p : List (Token α)) (s : List α) : Decidable (Matches p s) :=
  decidable_of_iff _ (acceptsIff p s)

end SesLabs.Glob
