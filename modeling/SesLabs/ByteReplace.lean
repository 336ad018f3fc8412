import Mathlib.Data.List.Infix

/-! Replacement of all leftmost non-overlapping occurrences of a pattern, and what
it leaves behind when pattern and replacement have the same length. Occurrences
are located by their first position; the relation of one pass to its result is
an inductive trace, and every fact about the result is proved on the trace. -/
namespace SesLabs.ByteReplace
variable {α : Type}

/- The first `skip` elements still belong to the occurrence replaced last. -/
def replaceFrom [DecidableEq α] (old new : List α) : Nat → List α → List α
  | _, [] => []
  | skip+1, _::xs => replaceFrom old new skip xs
  | 0, x::xs => if old <+: x::xs then new ++ replaceFrom old new (old.length-1) xs
    else x :: replaceFrom old new 0 xs

-- An empty pattern is found before every element and at the end.
def replace [DecidableEq α] (old new data : List α) : List α :=
  if old = [] then new ++ data.flatMap (fun x => x :: new) else replaceFrom old new 0 data

def countFrom [DecidableEq α] (old : List α) : Nat → List α → Nat
  | _, [] => 0
  | skip+1, _::xs => countFrom old skip xs
  | 0, x::xs => if old <+: x::xs then countFrom old (old.length-1) xs + 1 else countFrom old 0 xs

def count [DecidableEq α] (old data : List α) : Nat :=
  if old = [] then data.length+1 else countFrom old 0 data

inductive Trace (old new : List α) : List α → List α → Prop where
  | done : Trace old new [] []
  | keep {x xs ys} (miss : ¬ old <+: x::xs) (rest : Trace old new xs ys) : Trace old new (x::xs) (x::ys)
  | swap {xs ys} (rest : Trace old new xs ys) : Trace old new (old ++ xs) (new ++ ys)

def OccursAt (a s : List α) (p : Nat) : Prop := ∀ k < a.length, s[p+k]? = a[k]?
instance [DecidableEq α] (a s : List α) (p) : Decidable (OccursAt a s p) := by unfold OccursAt; infer_instance

def Covered (old data : List α) (i : Nat) : Prop :=
  ∃ p, OccursAt old data p ∧ p ≤ i ∧ i < p+old.length

def Fits (a b : List α) (d : Nat) : Prop := ∀ k < b.length, d+k < a.length → a[d+k]? = b[k]?
instance [DecidableEq α] (a b : List α) (d) : Decidable (Fits a b d) := by unfold Fits; infer_instance

def Clash (a b : List α) : Prop := (∀ d < a.length, ¬ Fits a b d) ∧ ∀ d < b.length, ¬ Fits b a d
instance [DecidableEq α] (a b : List α) : Decidable (Clash a b) := by unfold Clash; infer_instance

def Unbordered (a : List α) : Prop := ∀ d < a.length, 0 < d → ¬ Fits a a d
instance [DecidableEq α] (a : List α) : Decidable (Unbordered a) := by unfold Unbordered; infer_instance

section Occurrences
variable {a b s : List α}

theorem occursPrefix : OccursAt a s 0 ↔ a <+: s := by
  rw [List.prefix_iff_getElem?]
  refine ⟨?_,?_⟩
  · intro occurs k inside
    have here := occurs k inside
    rwa [Nat.zero_add,List.getElem?_eq_getElem inside] at here
  · intro found k inside
    rw [Nat.zero_add,List.getElem?_eq_getElem inside]
    exact found k inside

theorem occursAppend (front : List α) (p : Nat) :
    OccursAt a (front ++ s) (front.length+p) ↔ OccursAt a s p := by
  unfold OccursAt
  refine forall_congr' (fun k => forall_congr' (fun _ => ?_))
  rw [Nat.add_assoc,List.getElem?_append_right (Nat.le_add_right _ _),Nat.add_sub_cancel_left]

theorem occursCons (x : α) (p : Nat) : OccursAt a (x::s) (p+1) ↔ OccursAt a s p := by
  have shifted := occursAppend (a := a) (s := s) [x] p
  rwa [List.singleton_append,List.length_singleton,Nat.add_comm 1 p] at shifted

theorem infixIff : a <:+: s ↔ ∃ p, OccursAt a s p := by
  refine ⟨?_,?_⟩
  · intro found
    obtain ⟨front,back,rfl⟩ := found
    rw [List.append_assoc]
    exact ⟨front.length+0,(occursAppend front 0).mpr (occursPrefix.mpr (List.prefix_append a back))⟩
  · intro found
    obtain ⟨p,occurs⟩ := found
    have start : OccursAt a (s.drop p) 0 := by
      intro k inside
      rw [List.getElem?_drop,Nat.zero_add]
      exact occurs k inside
    exact (occursPrefix.mp start).isInfix.trans (List.drop_suffix p s).isInfix

theorem occursBoth (p : Nat) : OccursAt (a ++ b) s p ↔ OccursAt a s p ∧ OccursAt b s (p+a.length) := by
  refine ⟨?_,?_⟩
  · intro occurs
    refine ⟨fun k inside => ?_,fun k inside => ?_⟩
    · rw [occurs k (by rw [List.length_append]; omega),List.getElem?_append_left inside]
    · rw [Nat.add_assoc,occurs _ (by rw [List.length_append]; omega),
        List.getElem?_append_right (Nat.le_add_right _ _),Nat.add_sub_cancel_left]
  · intro occurs k inside
    obtain ⟨first,second⟩ := occurs
    rw [List.length_append] at inside
    rcases Nat.lt_or_ge k a.length with early | late
    · rw [first k early,List.getElem?_append_left early]
    · obtain ⟨j,rfl⟩ := Nat.exists_eq_add_of_le late
      rw [← Nat.add_assoc,second j (by omega),List.getElem?_append_right late,Nat.add_sub_cancel_left]

theorem occursAgree {t : List α} {p : Nat} (agree : ∀ k < a.length, s[p+k]? = t[p+k]?) :
    OccursAt a s p ↔ OccursAt a t p := by
  refine forall_congr' (fun k => forall_congr' (fun inside => ?_))
  rw [agree k inside]

theorem occursFits {p d : Nat} (first : OccursAt a s p) (second : OccursAt b s (p+d)) : Fits a b d := by
  intro k inside shared
  rw [← first _ shared,← second k inside,Nat.add_assoc]

theorem clashApart {p q i : Nat} (clash : Clash a b) (first : OccursAt a s p) (second : OccursAt b s q)
    (low : p ≤ i) (high : i < p+a.length) (low' : q ≤ i) (high' : i < q+b.length) : False := by
  rcases Nat.le_total p q with before | after
  · obtain ⟨d,rfl⟩ := Nat.exists_eq_add_of_le before
    exact clash.1 d (by omega) (occursFits first second)
  · obtain ⟨d,rfl⟩ := Nat.exists_eq_add_of_le after
    exact clash.2 d (by omega) (occursFits second first)

end Occurrences

section Scan
variable [DecidableEq α] {old new : List α}

theorem replaceFromSkip (skip : Nat) (data : List α) :
    replaceFrom old new skip data = replaceFrom old new 0 (data.drop skip) := by
  induction data generalizing skip with
  | nil => cases skip <;> rfl
  | cons x xs ih =>
    cases skip with
    | zero => rfl
    | succ skip => exact ih skip

theorem scanTrace (pattern : old ≠ []) (n : Nat) (data : List α) (bound : data.length ≤ n) :
    Trace old new data (replaceFrom old new 0 data) := by
  induction n generalizing data with
  | zero =>
    cases List.length_eq_zero_iff.mp (Nat.le_zero.mp bound)
    exact .done
  | succ n ih =>
    cases data with
    | nil => exact .done
    | cons x xs =>
      rw [replaceFrom]
      split
      · rename_i hit
        obtain ⟨rest,split⟩ := hit
        cases old with
        | nil => contradiction
        | cons y old =>
          obtain ⟨same,tail⟩ := List.cons.inj ((List.cons_append ..).symm.trans split)
          subst x xs
          rw [replaceFromSkip,List.length_cons,Nat.add_sub_cancel,List.drop_left]
          refine .swap (ih rest ?_)
          simp only [List.length_cons,List.length_append] at bound
          omega
      · rename_i miss
        exact .keep miss (ih xs (by simpa using bound))

theorem replaceTrace (pattern : old ≠ []) (data : List α) : Trace old new data (replace old new data) := by
  rw [replace,if_neg pattern]
  exact scanTrace pattern data.length data (Nat.le_refl _)

end Scan

section Trace
variable {old new data result : List α} (same : new.length = old.length) (trace : Trace old new data result)
include same trace

theorem traceLength : result.length = data.length := by
  induction trace with
  | done => rfl
  | keep miss rest ih => rw [List.length_cons,List.length_cons,ih]
  | swap rest ih => rw [List.length_append,List.length_append,same,ih]

theorem traceOutside {i : Nat} (outside : ¬ Covered old data i) : result[i]? = data[i]? := by
  induction trace generalizing i with
  | done => rfl
  | keep miss rest ih =>
    cases i with
    | zero => rfl
    | succ i =>
      rw [List.getElem?_cons_succ,List.getElem?_cons_succ]
      refine ih (fun covered => outside ?_)
      obtain ⟨p,occurs,low,high⟩ := covered
      exact ⟨p+1,(occursCons _ p).mpr occurs,by omega,by omega⟩
  | @swap xs ys rest ih =>
    rcases Nat.lt_or_ge i old.length with inside | behind
    · exact absurd ⟨0,occursPrefix.mpr (List.prefix_append old xs),Nat.zero_le i,by omega⟩ outside
    · obtain ⟨j,rfl⟩ := Nat.exists_eq_add_of_le behind
      rw [List.getElem?_append_right behind,List.getElem?_append_right (by omega),same]
      refine ih (fun covered => outside ?_)
      obtain ⟨p,occurs,low,high⟩ := covered
      exact ⟨old.length+p,(occursAppend old p).mpr occurs,by omega,by omega⟩

theorem traceInside (pattern : old ≠ []) (unbordered : Unbordered old) {p : Nat} (occurs : OccursAt old data p) :
    OccursAt new result p := by
  induction trace generalizing p with
  | done =>
    have first := occurs 0 (List.length_pos_iff.mpr pattern)
    rw [List.getElem?_nil,eq_comm,List.getElem?_eq_none_iff] at first
    exact absurd (List.eq_nil_of_length_eq_zero (by omega)) pattern
  | @keep x xs ys miss rest ih =>
    cases p with
    | zero => exact absurd (occursPrefix.mp occurs) miss
    | succ p => exact (occursCons x p).mpr (ih ((occursCons x p).mp occurs))
  | @swap xs ys rest ih =>
    rcases Nat.lt_or_ge p old.length with inside | behind
    · rcases Nat.eq_zero_or_pos p with start | later
      · subst p
        exact occursPrefix.mpr (List.prefix_append new ys)
      · have front : OccursAt old (old ++ xs) 0 := occursPrefix.mpr (List.prefix_append old xs)
        rw [← Nat.zero_add p] at occurs
        exact absurd (occursFits front occurs) (unbordered p inside later)
    · obtain ⟨j,rfl⟩ := Nat.exists_eq_add_of_le behind
      rw [← same]
      exact (occursAppend new j).mpr (ih ((occursAppend old j).mp occurs))

end Trace

section Replace
variable [DecidableEq α] {old new : List α} (pattern : old ≠ []) (same : new.length = old.length)
  (data : List α)
include pattern same

theorem replaceLength : (replace old new data).length = data.length :=
  traceLength same (replaceTrace pattern data)

theorem replaceOutside {i : Nat} (outside : ¬ Covered old data i) : (replace old new data)[i]? = data[i]? :=
  traceOutside same (replaceTrace pattern data) outside

variable (unbordered : Unbordered old)
include unbordered

theorem replaceInside {p : Nat} (occurs : OccursAt old data p) : OccursAt new (replace old new data) p :=
  traceInside same (replaceTrace pattern data) pattern unbordered occurs

theorem replaceKeeps {v : List α} (clashOld : Clash v old) (clashNew : Clash v new) (q : Nat) :
    OccursAt v (replace old new data) q ↔ OccursAt v data q := by
  refine ⟨?_,?_⟩
  · intro occurs
    refine (occursAgree (fun k inside => ?_)).mp occurs
    refine replaceOutside pattern same data (fun covered => ?_)
    obtain ⟨p,hit,low,high⟩ := covered
    have swapped := replaceInside pattern same data unbordered hit
    exact clashApart clashNew occurs swapped (Nat.le_add_right q k) (by omega) low (by omega)
  · intro occurs
    refine (occursAgree (fun k inside => ?_)).mpr occurs
    refine replaceOutside pattern same data (fun covered => ?_)
    obtain ⟨p,hit,low,high⟩ := covered
    exact clashApart clashOld occurs hit (Nat.le_add_right q k) (by omega) low high

theorem replaceClears (clash : Clash old new) : ¬ old <:+: replace old new data := by
  rw [infixIff]
  intro found
  obtain ⟨q,occurs⟩ := found
  have apart {p k : Nat} (hit : OccursAt old data p) (inside : k < old.length) (low : p ≤ q+k)
      (high : q+k < p+old.length) : False :=
    clashApart clash occurs (replaceInside pattern same data unbordered hit) (Nat.le_add_right q k)
      (by omega) low (by omega)
  have before : OccursAt old data q := by
    refine (occursAgree (fun k inside => ?_)).mp occurs
    refine replaceOutside pattern same data (fun covered => ?_)
    obtain ⟨p,hit,low,high⟩ := covered
    exact apart hit inside low high
  have some := List.length_pos_iff.mpr pattern
  exact apart before some (Nat.le_refl q) (by omega)

end Replace

/- A word with its terminator, overwritten by terminators. What is left of it is
exactly the word before an occurrence: there the first new terminator ends it. -/
section Terminated
variable {v : List α} {z : α}

theorem uncoveredKept [DecidableEq α] (data : List α) {i : Nat} (outside : ¬ Covered (v ++ [z]) data i) :
    (replace (v ++ [z]) (List.replicate (v ++ [z]).length z) data)[i]? = data[i]? :=
  replaceOutside (by simp) (by simp) data outside

variable (absent : z ∉ v)
include absent

theorem terminatorNotInside {k : Nat} : v[k]? ≠ some z := fun found => absent (List.mem_of_getElem? found)

theorem terminatedUnbordered : Unbordered (v ++ [z]) := by
  intro d inside later fits
  rw [List.length_append,List.length_singleton] at inside
  have last := fits (v.length-d) (by rw [List.length_append]; omega)
    (by rw [List.length_append,List.length_singleton]; omega)
  rw [Nat.add_sub_cancel' (by omega : d ≤ v.length),List.getElem?_concat_length,
    List.getElem?_append_left (by omega)] at last
  exact terminatorNotInside absent last.symm

variable [DecidableEq α] (data : List α)

theorem coveredErased {i : Nat} (covered : Covered (v ++ [z]) data i) :
    (replace (v ++ [z]) (List.replicate (v ++ [z]).length z) data)[i]? = some z := by
  obtain ⟨p,occurs,low,high⟩ := covered
  obtain ⟨k,rfl⟩ := Nat.exists_eq_add_of_le low
  have swapped : OccursAt (List.replicate (v ++ [z]).length z)
      (replace (v ++ [z]) (List.replicate (v ++ [z]).length z) data) p :=
    replaceInside (by simp) (by simp) data (terminatedUnbordered absent) occurs
  rw [swapped k (by rw [List.length_replicate]; omega),List.getElem?_replicate,if_pos (by omega)]

theorem residueFollowed (word : v ≠ []) {q : Nat}
    (left : OccursAt (v ++ [z]) (replace (v ++ [z]) (List.replicate (v ++ [z]).length z) data) q) :
    OccursAt v data q ∧ OccursAt (v ++ [z]) data (q+v.length) := by
  obtain ⟨letters,terminator⟩ := (occursBoth q).mp left
  have some := List.length_pos_iff.mpr word
  have kept {k : Nat} (inside : k < v.length) : ¬ Covered (v ++ [z]) data (q+k) := by
    intro covered
    have erased := coveredErased absent data covered
    rw [letters k inside] at erased
    exact terminatorNotInside absent erased
  have before : OccursAt v data q :=
    (occursAgree (fun k inside => uncoveredKept data (kept inside))).mp letters
  refine ⟨before,?_⟩
  by_cases last : Covered (v ++ [z]) data (q+v.length)
  · -- an occurrence that covers the terminator but no letter starts there
    obtain ⟨p,occurs,low,high⟩ := last
    rcases Nat.lt_or_eq_of_le low with earlier | same
    · exfalso
      exact kept (k := v.length-1) (by omega) ⟨p,occurs,by omega,by omega⟩
    · rwa [← same]
  · have ends : OccursAt [z] data (q+v.length) := by
      refine (occursAgree (fun k inside => ?_)).mp terminator
      obtain rfl : k = 0 := by simpa using inside
      exact uncoveredKept data last
    have whole := (occursBoth q).mpr ⟨before,ends⟩
    exact absurd ⟨q,whole,Nat.le_add_right q 0,by rw [List.length_append]; omega⟩ (kept some)

theorem followedResidue (word : v ≠ []) {q : Nat} (letters : OccursAt v data q)
    (next : OccursAt (v ++ [z]) data (q+v.length)) :
    OccursAt (v ++ [z]) (replace (v ++ [z]) (List.replicate (v ++ [z]).length z) data) q := by
  have some := List.length_pos_iff.mpr word
  have size : (v ++ [z]).length = v.length+1 := by simp
  have kept {k : Nat} (inside : k < v.length) : ¬ Covered (v ++ [z]) data (q+k) := by
    intro covered
    obtain ⟨p,occurs,low,high⟩ := covered
    rw [size] at high
    rcases Nat.lt_or_ge (q+v.length) (p+(v.length+1)) with overlaps | apart
    · -- it would overlap the occurrence that follows the word
      obtain ⟨d,gap⟩ := Nat.exists_eq_add_of_le (by omega : p ≤ q+v.length)
      rw [gap] at next
      exact terminatedUnbordered absent d (by omega) (by omega) (occursFits occurs next)
    · -- its terminator would lie inside the word
      obtain ⟨j,place⟩ := Nat.exists_eq_add_of_le (by omega : q ≤ p+v.length)
      have ends := ((occursBoth p).mp occurs).2 0 (by simp)
      rw [Nat.add_zero,place,letters j (by omega)] at ends
      exact terminatorNotInside absent ends
  refine (occursBoth q).mpr ⟨?_,?_⟩
  · exact (occursAgree (fun k inside => uncoveredKept data (kept inside))).mpr letters
  · intro k inside
    obtain rfl : k = 0 := by simpa using inside
    exact coveredErased absent data ⟨_,next,Nat.le_refl _,by omega⟩

theorem terminatedLeft (word : v ≠ []) :
    v ++ [z] <:+: replace (v ++ [z]) (List.replicate (v ++ [z]).length z) data ↔ v ++ (v ++ [z]) <:+: data := by
  rw [infixIff,infixIff]
  refine exists_congr (fun q => ?_)
  rw [occursBoth (a := v) (b := v ++ [z]) q]
  refine ⟨residueFollowed absent data word,?_⟩
  intro both
  exact followedResidue absent data word both.1 both.2

end Terminated

end SesLabs.ByteReplace
