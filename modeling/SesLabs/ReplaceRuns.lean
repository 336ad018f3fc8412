import SesLabs.ByteReplace
import Mathlib.Logic.Function.Iterate

/-! Replacing more than once. What several passes of one replacement leave of a
terminated word, two replacements that do not meet and so can change places, and
the counter that goes with a pass. Lengths never change. -/
namespace SesLabs.ReplaceRuns
open ByteReplace
variable {α : Type}

section Terminated
variable {v : List α} {z : α} (absent : z ∉ v) (data : List α)

section Letters
include absent

theorem lettersKept {u : List α} (letters : z ∉ u) {q : Nat} (found : OccursAt u data q)
    (next : OccursAt (v ++ [z]) data (q+u.length)) {k : Nat} (inside : k < u.length) :
    ¬ Covered (v ++ [z]) data (q+k) := by
  have size : (v ++ [z]).length = v.length+1 := by simp
  intro covered
  obtain ⟨p,occurs,low,high⟩ := covered
  rw [size] at high
  rcases Nat.lt_or_ge (q+u.length) (p+(v.length+1)) with overlaps | apart
  · obtain ⟨d,gap⟩ := Nat.exists_eq_add_of_le (by omega : p ≤ q+u.length)
    rw [gap] at next
    exact terminatedUnbordered absent d (by omega) (by omega) (occursFits occurs next)
  · obtain ⟨j,place⟩ := Nat.exists_eq_add_of_le (by omega : q ≤ p+v.length)
    have ends := ((occursBoth p).mp occurs).2 0 (by simp)
    rw [Nat.add_zero,place,found j (by omega)] at ends
    exact terminatorNotInside letters ends

end Letters

variable [DecidableEq α]

def wipe (v : List α) (z : α) (data : List α) : List α :=
  replace (v ++ [z]) (List.replicate (v ++ [z]).length z) data

theorem wipeLength (v : List α) (z : α) (data : List α) : (wipe v z data).length = data.length :=
  replaceLength (by simp) (by simp) data

include absent

theorem letterUncovered {i : Nat} {a : α} (other : a ≠ z) (after : (wipe v z data)[i]? = some a) :
    ¬ Covered (v ++ [z]) data i := by
  intro covered
  have erased := coveredErased absent data covered
  rw [wipe] at after
  exact other (Option.some.inj (after.symm.trans erased))

theorem lettersBefore {u : List α} (letters : z ∉ u) {q : Nat} (after : OccursAt u (wipe v z data) q) :
    (∀ k < u.length, ¬ Covered (v ++ [z]) data (q+k)) ∧ OccursAt u data q := by
  have free {k : Nat} (inside : k < u.length) : ¬ Covered (v ++ [z]) data (q+k) := by
    refine letterUncovered absent data (a := u[k]) ?_ ?_
    · intro same
      exact letters (same ▸ List.getElem_mem inside)
    · rw [after k inside,List.getElem?_eq_getElem inside]
  exact ⟨fun k inside => free inside,(occursAgree (fun k inside => uncoveredKept data (free inside))).mp after⟩

theorem residueIff {u : List α} (letters : z ∉ u) (word : v ≠ []) (ends : v <:+ u) (q : Nat) :
    OccursAt (u ++ [z]) (wipe v z data) q ↔ OccursAt (u ++ (v ++ [z])) data q := by
  have some := List.length_pos_iff.mpr word
  obtain ⟨front,rfl⟩ := ends
  refine ⟨?_,?_⟩
  · intro after
    obtain ⟨inner,terminator⟩ := (occursBoth q).mp after
    obtain ⟨free,before⟩ := lettersBefore absent data letters inner
    refine (occursBoth q).mpr ⟨before,?_⟩
    rw [List.length_append] at free terminator ⊢
    by_cases last : Covered (v ++ [z]) data (q+(front.length+v.length))
    · obtain ⟨p,occurs,low,high⟩ := last
      rcases Nat.lt_or_eq_of_le low with earlier | same
      · have shared : q+(front.length+v.length-1) < p+(v ++ [z]).length := by omega
        exact absurd ⟨p,occurs,by omega,shared⟩ (free (front.length+v.length-1) (by omega))
      · rwa [← same]
    · -- the terminator was there before: then so was a whole word with it
      have old : OccursAt [z] data (q+(front.length+v.length)) := by
        refine (occursAgree (fun k inside => ?_)).mp terminator
        obtain rfl : k = 0 := by simpa using inside
        exact uncoveredKept data last
      have tail := ((occursBoth q).mp before).2
      rw [← Nat.add_assoc] at old
      have whole := (occursBoth (q+front.length)).mpr ⟨tail,old⟩
      exact absurd ⟨q+front.length,whole,Nat.le_refl _,by rw [List.length_append]; omega⟩
        (free front.length (by omega))
  · intro before
    obtain ⟨inner,next⟩ := (occursBoth q).mp before
    refine (occursBoth q).mpr ⟨?_,?_⟩
    · exact (occursAgree (fun k inside => uncoveredKept data
        (lettersKept absent data letters inner next inside))).mpr inner
    · intro k inside
      obtain rfl : k = 0 := by simpa using inside
      exact coveredErased absent data ⟨_,next,Nat.le_refl _,by rw [List.length_append]; simp⟩

/- A pass changes letters of the word and nothing else: the terminators it
writes over terminators are no change. -/
theorem wipeOutside {i : Nat} (outside : ¬ Covered v data i) : (wipe v z data)[i]? = data[i]? := by
  by_cases covered : Covered (v ++ [z]) data i
  · have erased := coveredErased absent data covered
    obtain ⟨p,occurs,low,high⟩ := covered
    obtain ⟨word,terminator⟩ := (occursBoth p).mp occurs
    have last : i = p+v.length := by
      by_contra other
      rw [List.length_append,List.length_singleton] at high
      exact outside ⟨p,word,low,by omega⟩
    have old := terminator 0 (by simp)
    rw [Nat.add_zero,← last] at old
    exact erased.trans old.symm
  · exact uncoveredKept data covered

theorem coveredBefore {i : Nat} (after : Covered v (wipe v z data) i) : Covered v data i := by
  obtain ⟨p,occurs,low,high⟩ := after
  exact ⟨p,(lettersBefore absent data absent occurs).2,low,high⟩

theorem wipesOutside (k : Nat) {i : Nat} (outside : ¬ Covered v data i) :
    ((wipe v z)^[k] data)[i]? = data[i]? := by
  induction k generalizing data with
  | zero => rfl
  | succ k ih =>
    rw [Function.iterate_succ_apply,ih (wipe v z data) (fun after => outside (coveredBefore absent data after))]
    exact wipeOutside absent data outside

omit absent in
theorem wipesLength (k : Nat) : ((wipe v z)^[k] data).length = data.length := by
  induction k generalizing data with
  | zero => rfl
  | succ k ih => rw [Function.iterate_succ_apply,ih,wipeLength]

def repeated (n : Nat) (v : List α) : List α := (List.replicate n v).flatten

omit absent [DecidableEq α] in
theorem repeatedSucc (n : Nat) (v : List α) : repeated (n+1) v = repeated n v ++ v := by
  simp [repeated,List.replicate_succ']

omit [DecidableEq α] in
theorem repeatedLetters (n : Nat) : z ∉ repeated n v := by
  intro member
  obtain ⟨part,among,inside⟩ := List.mem_flatten.mp member
  rw [List.eq_of_mem_replicate among] at inside
  exact absent inside

theorem wipesIff (word : v ≠ []) (k m : Nat) :
    repeated (m+1) v ++ [z] <:+: (wipe v z)^[k] data ↔ repeated (m+1+k) v ++ [z] <:+: data := by
  induction k generalizing data with
  | zero => rfl
  | succ k ih =>
    have ends : v <:+ repeated (m+1+k) v := by
      rw [Nat.add_right_comm,repeatedSucc]
      exact List.suffix_append _ _
    rw [Function.iterate_succ_apply,ih,infixIff,infixIff,← Nat.add_assoc,repeatedSucc (m+1+k),List.append_assoc]
    exact exists_congr (residueIff absent data (repeatedLetters absent _) word ends)

end Terminated

/- Two replacements whose patterns and texts never share a position. -/
section Commuting
variable [DecidableEq α] {a a' b b' : List α}

structure Independent (a a' b b' : List α) : Prop where
  pattern : a ≠ []
  same : a'.length = a.length
  unbordered : Unbordered a
  old : Clash b a
  new : Clash b a'

theorem commuteCovered (first : Independent a a' b b') (second : Independent b b' a a') (data : List α) {i : Nat}
    (covered : Covered a data i) :
    (replace a a' (replace b b' data))[i]? = (replace b b' (replace a a' data))[i]? := by
  obtain ⟨p,occurs,low,high⟩ := covered
  obtain ⟨k,rfl⟩ := Nat.exists_eq_add_of_le low
  have inside : k < a'.length := by rw [first.same]; omega
  have stays := (replaceKeeps second.pattern second.same data second.unbordered second.old second.new p).mpr occurs
  have left := replaceInside first.pattern first.same (replace b b' data) first.unbordered stays k inside
  have right := replaceInside first.pattern first.same data first.unbordered occurs k inside
  have free : ¬ Covered b (replace a a' data) (p+k) := by
    intro other
    obtain ⟨q,hit,low',high'⟩ := other
    have before := (replaceKeeps first.pattern first.same data first.unbordered first.old first.new q).mp hit
    exact clashApart first.old before occurs low' high' low high
  rw [left,replaceOutside second.pattern second.same _ free,right]

theorem replaceCommute (first : Independent a a' b b') (second : Independent b b' a a') (data : List α) :
    replace a a' (replace b b' data) = replace b b' (replace a a' data) := by
  apply List.ext_getElem?
  intro i
  by_cases left : Covered a data i
  · exact commuteCovered first second data left
  · by_cases right : Covered b data i
    · exact (commuteCovered second first data right).symm
    · have keptLeft : ¬ Covered a (replace b b' data) i := by
        intro covered
        obtain ⟨p,hit,low,high⟩ := covered
        exact left ⟨p,(replaceKeeps second.pattern second.same data second.unbordered second.old second.new p).mp hit,
          low,high⟩
      have keptRight : ¬ Covered b (replace a a' data) i := by
        intro covered
        obtain ⟨p,hit,low,high⟩ := covered
        exact right ⟨p,(replaceKeeps first.pattern first.same data first.unbordered first.old first.new p).mp hit,
          low,high⟩
      rw [replaceOutside first.pattern first.same _ keptLeft,replaceOutside second.pattern second.same _ right,
        replaceOutside second.pattern second.same _ keptRight,replaceOutside first.pattern first.same _ left]

end Commuting

section Counting
variable [DecidableEq α] {old : List α}

def occurrences (old data : List α) : Nat := (List.range data.length).countP (fun p => decide (OccursAt old data p))

theorem occurrencesCons (x : α) (xs : List α) :
    occurrences old (x::xs) = (if old <+: x::xs then 1 else 0) + occurrences old xs := by
  rw [occurrences,List.length_cons,List.range_succ_eq_map,List.countP_cons,List.countP_map,Nat.add_comm]
  refine congrArg₂ (· + ·) ?_ (List.countP_congr (fun p _ => ?_))
  · simp only [occursPrefix,decide_eq_true_eq]
  · simp only [Function.comp,Nat.succ_eq_add_one,occursCons]

theorem occurrencesFree {front rest : List α} (free : ∀ p < front.length, ¬ OccursAt old (front ++ rest) p) :
    occurrences old (front ++ rest) = occurrences old rest := by
  induction front with
  | nil => rfl
  | cons x front ih =>
    have here : ¬ old <+: x::(front ++ rest) := by
      rw [← occursPrefix]
      exact free 0 (Nat.succ_pos _)
    rw [List.cons_append,occurrencesCons,if_neg here,Nat.zero_add]
    refine ih (fun p inside => ?_)
    rw [← occursCons x]
    exact free (p+1) (Nat.succ_lt_succ inside)

theorem countFromSkip (skip : Nat) (data : List α) : countFrom old skip data = countFrom old 0 (data.drop skip) := by
  induction data generalizing skip with
  | nil => cases skip <;> rfl
  | cons x xs ih =>
    cases skip with
    | zero => rfl
    | succ skip => exact ih skip

theorem scanCount (pattern : old ≠ []) (unbordered : Unbordered old) (n : Nat) (data : List α)
    (bound : data.length ≤ n) : countFrom old 0 data = occurrences old data := by
  induction n generalizing data with
  | zero =>
    cases List.length_eq_zero_iff.mp (Nat.le_zero.mp bound)
    rfl
  | succ n ih =>
    cases data with
    | nil => rfl
    | cons x xs =>
      rw [countFrom,occurrencesCons]
      split
      · rename_i hit
        obtain ⟨rest,split⟩ := hit
        cases old with
        | nil => contradiction
        | cons y old =>
          obtain ⟨same,tail⟩ := List.cons.inj ((List.cons_append ..).symm.trans split)
          subst x xs
          have free : ∀ p < old.length, ¬ OccursAt (y::old) (old ++ rest) p := by
            intro p inside occurs
            have front : OccursAt (y::old) (y::(old ++ rest)) 0 := occursPrefix.mpr ⟨rest,rfl⟩
            have later := (occursCons y p).mpr occurs
            rw [← Nat.zero_add (p+1)] at later
            exact unbordered (p+1) (Nat.succ_lt_succ inside) (Nat.succ_pos p) (occursFits front later)
          rw [countFromSkip,List.length_cons,Nat.add_sub_cancel,List.drop_left,occurrencesFree free,Nat.add_comm]
          refine congrArg (1 + ·) (ih rest ?_)
          simp only [List.length_cons,List.length_append] at bound
          omega
      · rename_i miss
        rw [Nat.zero_add]
        exact ih xs (by simpa using bound)

theorem countOccurrences (pattern : old ≠ []) (unbordered : Unbordered old) (data : List α) :
    count old data = occurrences old data := by
  rw [count,if_neg pattern]
  exact scanCount pattern unbordered data.length data (Nat.le_refl _)

theorem occurrencesCongr {data result : List α} (size : result.length = data.length)
    (same : ∀ p, OccursAt old result p ↔ OccursAt old data p) : occurrences old result = occurrences old data := by
  rw [occurrences,occurrences,size]
  exact List.countP_congr (fun p _ => by simp only [same])

theorem occurrencesNone {data : List α} (none : ¬ old <:+: data) : occurrences old data = 0 := by
  refine List.countP_eq_zero.mpr (fun p _ => ?_)
  simp only [decide_eq_true_eq]
  exact fun occurs => none (infixIff.mpr ⟨p,occurs⟩)

end Counting
end SesLabs.ReplaceRuns
