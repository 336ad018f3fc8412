import Mathlib.Data.Set.Basic

/-! A message drawn into a picture by changing the values at a set of positions,
and read back by comparing with the original picture. Pictures are functions
over any positions and values; a view is the part of a value the reader looks at. -/
namespace SesLabs.MarkSet
variable {P V K : Type*} {change : V → V} {view : V → K} {marks : Set P} {picture received : P → V} {p : P}

open Classical in
noncomputable def embed (change : V → V) (marks : Set P) (picture : P → V) : P → V :=
  fun p => if p ∈ marks then change (picture p) else picture p

def detect (view : V → K) (original received : P → V) : Set P :=
  {p | view (original p) ≠ view (received p)}

open Classical in
noncomputable def reveal (ink paper : V) (marks : Set P) : P → V :=
  fun p => if p ∈ marks then ink else paper

def drawn (paper : V) (drawing : P → V) : Set P := {p | drawing p ≠ paper}

theorem embedMarked (mem : p ∈ marks) : embed change marks picture p = change (picture p) := by
  simp [embed,mem]

theorem embedUnmarked (mem : p ∉ marks) : embed change marks picture p = picture p := by
  simp [embed,mem]

theorem embedCongr {other : Set P} (same : p ∈ marks ↔ p ∈ other) :
    embed change marks picture p = embed change other picture p := by
  by_cases mem : p ∈ marks
  · rw [embedMarked mem,embedMarked (same.mp mem)]
  · rw [embedUnmarked mem,embedUnmarked (fun h => mem (same.mpr h))]

theorem detectEmbed (moves : ∀ v, view (change v) ≠ view v)
    (same : received p = embed change marks picture p) :
    p ∈ detect view picture received ↔ p ∈ marks := by
  by_cases mem : p ∈ marks
  · simp [detect,same,embedMarked mem,mem,(moves (picture p)).symm]
  · simp [detect,same,embedUnmarked mem,mem]

theorem detectCongr {original received original' received' : P → V} (left : original p = original' p)
    (right : received p = received' p) :
    p ∈ detect view original received ↔ p ∈ detect view original' received' := by
  simp [detect,left,right]

theorem revealCongr {ink paper : V} {other : Set P} (same : p ∈ marks ↔ p ∈ other) :
    reveal ink paper marks p = reveal ink paper other p := by
  by_cases mem : p ∈ marks
  · simp [reveal,mem,same.mp mem]
  · have absent : p ∉ other := fun h => mem (same.mpr h)
    simp [reveal,mem,absent]

theorem revealInk {ink paper : V} (differ : ink ≠ paper) :
    reveal ink paper marks p = ink ↔ p ∈ marks := by
  by_cases mem : p ∈ marks
  · simp [reveal,mem]
  · simp [reveal,mem,differ.symm]

theorem revealPaper {ink paper : V} (mem : p ∉ marks) : reveal ink paper marks p = paper := by
  simp [reveal,mem]

theorem drawnReveal {ink paper : V} (differ : ink ≠ paper) :
    drawn paper (reveal ink paper marks) = marks := by
  ext p
  by_cases mem : p ∈ marks
  · simp [drawn,reveal,mem,differ]
  · simp [drawn,reveal,mem]

end SesLabs.MarkSet
