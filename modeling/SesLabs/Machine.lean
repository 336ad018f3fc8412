import Mathlib.Data.List.TakeWhile

/-! A machine answers requests one after the other, until a request ends it; what it
is for is said by a relation, which may leave an answer open. If every step of the
machine from related states is one the relation allows, so is every run. -/
namespace SesLabs.Machine
variable {ι ο σ τ : Type}

def answers (step : σ → ι → Option (ο × σ)) : σ → List ι → List ο
  | _,[] => []
  | s,i::more => match step s i with
    | none => []
    | some (o,next) => o::answers step next more

def after (step : σ → ι → Option (ο × σ)) : σ → List ι → Option σ
  | s,[] => some s
  | s,i::more => match step s i with
    | none => none
    | some (_,next) => after step next more

def Throughout (step : σ → ι → Option (ο × σ)) (proper : σ → ι → Prop) : σ → List ι → Prop
  | _,[] => True
  | s,i::more => proper s i ∧ ∀ o next, step s i = some (o,next) → Throughout step proper next more

inductive Allowed (may : τ → ι → ο → τ → Prop) : τ → List ι → List ο → τ → Prop where
  | nil (t) : Allowed may t [] [] t
  | cons {t i o next more rest last} (here : may t i o next) (later : Allowed may next more rest last) :
      Allowed may t (i::more) (o::rest) last

def Simulates (relation : σ → τ → Prop) (proper : σ → ι → Prop) (step : σ → ι → Option (ο × σ))
    (may : τ → ι → ο → τ → Prop) : Prop :=
  ∀ s t i, relation s t → proper s i → ∃ o now next, step s i = some (o,now) ∧ may t i o next ∧ relation now next

section Runs
variable {step : σ → ι → Option (ο × σ)} {proper : σ → ι → Prop} {s now : σ}

theorem runAllowed {relation : σ → τ → Prop} {may : τ → ι → ο → τ → Prop}
    (simulates : Simulates relation proper step may) {t : τ} {run : List ι} (related : relation s t)
    (throughout : Throughout step proper s run) :
    ∃ now last, after step s run = some now ∧ Allowed may t run (answers step s run) last ∧ relation now last := by
  induction run generalizing s t with
  | nil => exact ⟨s,t,rfl,.nil t,related⟩
  | cons i more ih =>
    obtain ⟨here,later⟩ := throughout
    obtain ⟨o,middle,next,steps,may,still⟩ := simulates s t i related here
    obtain ⟨now,last,ends,allowed,kept⟩ := ih still (later o middle steps)
    refine ⟨now,last,?_,?_,kept⟩
    · rw [after,steps]
      exact ends
    · rw [answers,steps]
      exact .cons may allowed

theorem throughoutOr (s : σ) (run : List ι) : Throughout step proper s run ∨
    ∃ early i late now, run = early ++ i::late ∧ Throughout step proper s early ∧ after step s early = some now ∧
      ¬proper now i := by
  induction run generalizing s with
  | nil => exact .inl trivial
  | cons i more ih =>
    by_cases here : proper s i
    · cases steps : step s i with
      | none =>
        refine .inl ⟨here,?_⟩
        intro o next impossible
        cases steps.symm.trans impossible
      | some answer =>
        obtain ⟨o,next⟩ := answer
        have only : ∀ o' next', step s i = some (o',next') → next' = next := by
          intro o' next' same
          cases steps.symm.trans same
          rfl
        rcases ih next with later | ⟨early,j,late,now,rfl,kept,ends,broken⟩
        · exact .inl ⟨here,fun o' next' same => only o' next' same ▸ later⟩
        · refine .inr ⟨i::early,j,late,now,rfl,⟨here,fun o' next' same => only o' next' same ▸ kept⟩,?_,broken⟩
          rw [after,steps]
          exact ends
    · exact .inr ⟨[],i,more,s,rfl,trivial,rfl,here⟩

theorem afterAppend {early : List ι} (ends : after step s early = some now) (late : List ι) :
    answers step s (early ++ late) = answers step s early ++ answers step now late ∧
    after step s (early ++ late) = after step now late := by
  induction early generalizing s with
  | nil =>
    cases ends
    exact ⟨rfl,rfl⟩
  | cons i more ih =>
    rw [after] at ends
    rw [List.cons_append,answers,answers,after]
    split at ends
    · cases ends
    · rename_i o next steps
      obtain ⟨answered,rest⟩ := ih ends
      exact ⟨congrArg (o::·) answered,rest⟩

/- A state in which every request is answered alike and changes nothing, or is the end. -/
theorem afterDoomed {harmless : ι → Bool} {o : ο}
    (doomed : ∀ i, step s i = if harmless i then some (o,s) else none) (run : List ι) :
    answers step s run = (run.takeWhile harmless).map (fun _ => o) ∧
    (after step s run = none ↔ ∃ i ∈ run, harmless i = false) := by
  induction run with
  | nil => simp [answers,after]
  | cons i more ih =>
    rw [answers,after,doomed i]
    cases kept : harmless i with
    | true => simp [kept,ih]
    | false => simp [kept]

end Runs

end SesLabs.Machine
