import Mathlib.Algebra.Group.Nat.Defs
import SesLabs.Bytes
import SesLabs.Glob
import SesLabs.Fields

/-! match.c of the OpenSSH sources: patterns with * and ?, and lists of patterns with
negation. A C string is the list of its bytes before the terminator. -/
namespace SesLabs.SshMatch
open Glob Fields

def star : UInt8 := 0x2A
def question : UInt8 := 0x3F
def comma : UInt8 := 0x2C
def bang : UInt8 := 0x21

/- `for (; *s; s++) if (test(s)) return 1; return 0`. -/
def anyFrom (test : Bytes → Bool) : Bytes → Bool
  | [] => false
  | c::s => test (c::s) || anyFrom test s

def skipStars : Bytes → Bytes
  | [] => []
  | p::pattern => if p = star then skipStars pattern else p::pattern

theorem skipStarsLength (pattern : Bytes) : (skipStars pattern).length ≤ pattern.length := by
  induction pattern with
  | nil => exact Nat.le_refl _
  | cons p pattern ih =>
    rw [skipStars]
    split
    · exact Nat.le_succ_of_le ih
    · exact Nat.le_refl _

def matchPattern (s pattern : Bytes) : Bool :=
  match pattern with
  | [] => s.isEmpty
  | p::pattern =>
    if p = star then
      match _skipped : skipStars pattern with
      | [] => true
      | q::rest =>
        if q ≠ question ∧ q ≠ star then
          anyFrom (fun t => decide (t.head? = some q) && matchPattern t.tail rest) s
        else anyFrom (fun t => matchPattern t (q::rest)) s
    else
      match s with
      | [] => false
      | c::s => if p ≠ question ∧ p ≠ c then false else matchPattern s pattern
termination_by pattern.length
decreasing_by
  all_goals
    first
    | exact Nat.lt_succ_self _
    | have shorter := skipStarsLength pattern
      rw [_skipped] at shorter
      simp only [List.length_cons] at shorter ⊢
      omega

def token (p : UInt8) : Token UInt8 := if p = star then .many else if p = question then .any else .one p

theorem anyFromIff {test : Bytes → Bool} {s : Bytes} :
    anyFrom test s = true ↔ ∃ t, t ≠ [] ∧ t <:+ s ∧ test t = true := by
  induction s with
  | nil =>
    simp only [anyFrom,Bool.false_eq_true,List.suffix_nil,false_iff]
    intro found
    obtain ⟨t,some,none,_⟩ := found
    exact some none
  | cons c s ih =>
    rw [anyFrom,Bool.or_eq_true,ih]
    refine ⟨?_,?_⟩
    · intro found
      rcases found with here | later
      · exact ⟨c::s,List.cons_ne_nil _ _,List.suffix_refl _,here⟩
      · obtain ⟨t,some,ends,hit⟩ := later
        exact ⟨t,some,ends.trans (List.suffix_cons _ _),hit⟩
    · intro found
      obtain ⟨t,some,ends,hit⟩ := found
      rcases List.suffix_cons_iff.mp ends with whole | later
      · exact .inl (whole ▸ hit)
      · exact .inr ⟨t,some,later,hit⟩

theorem skipStarsMatches (pattern s : Bytes) :
    Matches (.many::pattern.map token) s ↔ Matches (.many::(skipStars pattern).map token) s := by
  induction pattern with
  | nil => rfl
  | cons p pattern ih =>
    rw [skipStars]
    split
    · rename_i same
      rw [List.map_cons,token,if_pos same,matchesManyMany]
      exact ih
    · rfl

theorem skipStarsHead {pattern rest : Bytes} {q : UInt8} (skipped : skipStars pattern = q::rest) : q ≠ star := by
  induction pattern with
  | nil => cases skipped
  | cons p pattern ih =>
    rw [skipStars] at skipped
    split at skipped
    · exact ih skipped
    · rename_i other
      cases skipped
      exact other

theorem starIff {s rest : Bytes} {q : UInt8} (other : q ≠ star)
    (ih : ∀ t, matchPattern t rest = true ↔ Matches (rest.map token) t)
    (again : ∀ t, matchPattern t (q::rest) = true ↔ Matches ((q::rest).map token) t) :
    (if q ≠ question ∧ q ≠ star then
        anyFrom (fun t => decide (t.head? = some q) && matchPattern t.tail rest) s
      else anyFrom (fun t => matchPattern t (q::rest)) s) = true ↔
      Matches (.many::(q::rest).map token) s := by
  rw [matchesMany]
  split
  · rename_i letter
    have meaning : token q = .one q := by rw [token,if_neg other,if_neg letter.1]
    rw [anyFromIff,List.map_cons,meaning]
    simp only [Bool.and_eq_true,decide_eq_true_eq,ih,matchesOne]
    refine ⟨?_,?_⟩
    · intro found
      obtain ⟨t,some,ends,head,tail⟩ := found
      cases t with
      | nil => contradiction
      | cons c t =>
        have same : c = q := Option.some.inj head
        rw [same] at ends
        exact ⟨q::t,ends,t,rfl,tail⟩
    · intro found
      obtain ⟨t,ends,tail,rfl,hit⟩ := found
      exact ⟨q::tail,List.cons_ne_nil _ _,ends,rfl,hit⟩
  · rename_i wild
    have same : q = question := by
      by_contra letter
      exact wild ⟨letter,other⟩
    rw [anyFromIff]
    simp only [again]
    refine ⟨?_,?_⟩
    · intro found
      obtain ⟨t,_,ends,hit⟩ := found
      exact ⟨t,ends,hit⟩
    · intro found
      obtain ⟨t,ends,hit⟩ := found
      refine ⟨t,?_,ends,hit⟩
      intro empty
      rw [List.map_cons,token,if_neg other,if_pos same,matchesAny,empty] at hit
      obtain ⟨b,rest,impossible,_⟩ := hit
      cases impossible

theorem matchStar (s pattern : Bytes) : matchPattern s (star::pattern) =
    match skipStars pattern with
    | [] => true
    | q::rest =>
      if q ≠ question ∧ q ≠ star then
        anyFrom (fun t => decide (t.head? = some q) && matchPattern t.tail rest) s
      else anyFrom (fun t => matchPattern t (q::rest)) s := by
  rw [matchPattern.eq_def]
  simp only [if_true]
  split
  · rename_i none
    rw [none]
  · rename_i q rest skipped
    rw [skipped]

theorem matchNil (p : UInt8) (pattern : Bytes) (other : p ≠ star) : matchPattern [] (p::pattern) = false := by
  rw [matchPattern.eq_def]
  simp only [if_neg other]

theorem matchLetter {p : UInt8} (other : p ≠ star) (c : UInt8) (s pattern : Bytes) :
    matchPattern (c::s) (p::pattern) = if p ≠ question ∧ p ≠ c then false else matchPattern s pattern := by
  rw [matchPattern.eq_def]
  simp only [if_neg other]

/- Looking for the next letter of the pattern first, and never trying the empty
end of the text, loses nothing. -/
theorem matchPatternIff (s pattern : Bytes) : matchPattern s pattern = true ↔ Matches (pattern.map token) s := by
  induction size : pattern.length using Nat.strong_induction_on generalizing s pattern with
  | h n ih =>
    cases pattern with
    | nil => rw [matchPattern.eq_def,List.map_nil,matchesNil,List.isEmpty_iff]
    | cons p pattern =>
      rw [List.length_cons] at size
      by_cases wild : p = star
      · have shorter := skipStarsLength pattern
        rw [wild,matchStar,List.map_cons,token,if_pos rfl,skipStarsMatches]
        split
        · rename_i none
          rw [none]
          exact iff_of_true rfl (matchesAll s)
        · rename_i q rest skipped
          rw [skipped,List.length_cons] at shorter
          rw [skipped]
          exact starIff (skipStarsHead skipped) (fun t => ih rest.length (by omega) t rest rfl)
            (fun t => ih (q::rest).length (by simp only [List.length_cons]; omega) t (q::rest) rfl)
      · have rest (s : Bytes) := ih pattern.length (by omega) s pattern rfl
        rw [List.map_cons,token,if_neg wild]
        cases s with
        | nil =>
          rw [matchNil p pattern wild]
          split
          · simp [matchesAny]
          · simp [matchesOne]
        | cons c s =>
          rw [matchLetter wild]
          by_cases single : p = question
          · simp [single,matchesAny,rest]
          · by_cases same : p = c
            · subst c
              simp [single,matchesOne,rest]
            · simp [single,same,matchesOne,Ne.symm same]

/- isupper and tolower of the C locale. -/
def toLower (c : UInt8) : UInt8 := if 0x41 ≤ c ∧ c ≤ 0x5A then c+0x20 else c

/- sizeof(sub) - 1. -/
def subRoom : Nat := 1023

def copied (dolower : Bool) (c : UInt8) : UInt8 := if dolower then toLower c else c

def copySub (dolower : Bool) : Nat → Bytes → Bytes × Bytes
  | _,[] => ([],[])
  | 0,c::rest => ([],c::rest)
  | room+1,c::rest =>
    if c = comma then ([],c::rest) else
      let (sub,left) := copySub dolower room rest
      (copied dolower c::sub,left)

def skipComma : Bytes → Bytes
  | [] => []
  | c::rest => if c = comma then rest else c::rest

theorem copySubLength (dolower : Bool) (room : Nat) (text : Bytes) :
    (copySub dolower room text).1.length + (copySub dolower room text).2.length = text.length := by
  induction text generalizing room with
  | nil => simp [copySub]
  | cons c rest ih =>
    cases room with
    | zero => simp [copySub]
    | succ room =>
      rw [copySub]
      split
      · simp
      · have := ih room
        simp only [List.length_cons]
        omega

theorem skipCommaLength (text : Bytes) : (skipComma text).length ≤ text.length := by
  cases text with
  | nil => exact Nat.le_refl _
  | cons c rest =>
    rw [skipComma]
    split
    · exact Nat.le_succ _
    · exact Nat.le_refl _

theorem copySubProgress (dolower : Bool) (room : Nat) (c : UInt8) (rest : Bytes) :
    (skipComma (copySub dolower (room+1) (c::rest)).2).length ≤ rest.length := by
  rw [copySub]
  split
  · rename_i same
    simp [skipComma,same]
  · have total := copySubLength dolower room rest
    have skipped := skipCommaLength (copySub dolower room rest).2
    simp only
    omega

/- The loop over the list, with what is left of the pattern; `u_int len` keeps the
low 32 bits of the length. -/
def patternLoop (string : Bytes) (dolower gotPositive : Bool) : Bytes → Int
  | [] => if gotPositive then 1 else 0
  | c::rest =>
    let negated := decide (c = bang)
    let copy := copySub dolower subRoom (if negated then rest else c::rest)
    if subRoom ≤ copy.1.length then 0
    else if matchPattern string copy.1 then
      if negated then -1 else patternLoop string dolower true (skipComma copy.2)
    else patternLoop string dolower gotPositive (skipComma copy.2)
termination_by pattern => pattern.length
decreasing_by
  all_goals
    simp only [List.length_cons]
    have stepped := copySubProgress dolower 1022 c rest
    have total := copySubLength dolower subRoom rest
    have skipped := skipCommaLength (copySub dolower subRoom rest).2
    split
    · omega
    · exact Nat.lt_succ_of_le stepped

def matchPatternList (string pattern : Bytes) (dolower : Bool) : Int :=
  patternLoop string dolower false (pattern.take (pattern.length % 2^32))

def negated (entry : Bytes) : Bool := decide (entry.head? = some bang)
def body (entry : Bytes) : Bytes := if negated entry then entry.tail else entry

def Hit (string : Bytes) (dolower : Bool) (entry : Bytes) : Prop :=
  Matches (((body entry).map (copied dolower)).map token) string

def Short (entry : Bytes) : Prop := (body entry).length < subRoom

instance (entry : Bytes) : Decidable (Short entry) := inferInstanceAs (Decidable (_ < _))
instance (string : Bytes) (dolower : Bool) (entry : Bytes) : Decidable (Hit string dolower entry) :=
  inferInstanceAs (Decidable (Matches _ _))

def listed (pattern : Bytes) : List Bytes := entries comma (pattern.take (pattern.length % 2^32))

def verdict (string : Bytes) (dolower gotPositive : Bool) : List Bytes → Int
  | [] => if gotPositive then 1 else 0
  | entry::more =>
    if ¬Short entry then 0
    else if Hit string dolower entry then
      if negated entry then -1 else verdict string dolower true more
    else verdict string dolower gotPositive more

theorem copySubField {dolower : Bool} {room : Nat} {field tail : Bytes} (clean : comma ∉ field)
    (ends : tail = [] ∨ ∃ rest, tail = comma::rest) (fits : field.length ≤ room) :
    copySub dolower room (field ++ tail) = (field.map (copied dolower),tail) := by
  induction field generalizing room with
  | nil =>
    rcases ends with empty | cut
    · subst tail
      simp [copySub]
    · obtain ⟨rest,rfl⟩ := cut
      cases room with
      | zero => rfl
      | succ room => simp [copySub]
  | cons c field ih =>
    rw [List.mem_cons,not_or] at clean
    cases room with
    | zero => simp at fits
    | succ room =>
      rw [List.cons_append,copySub,if_neg (Ne.symm clean.1),ih clean.2 (Nat.le_of_succ_le_succ fits)]
      rfl

theorem copySubFull {dolower : Bool} {room : Nat} {field tail : Bytes} (clean : comma ∉ field)
    (long : room ≤ field.length) : room ≤ (copySub dolower room (field ++ tail)).1.length := by
  induction field generalizing room with
  | nil =>
    rw [Nat.le_zero.mp long]
    exact Nat.zero_le _
  | cons c field ih =>
    rw [List.mem_cons,not_or] at clean
    cases room with
    | zero => exact Nat.zero_le _
    | succ room =>
      rw [List.cons_append,copySub,if_neg (Ne.symm clean.1)]
      exact Nat.succ_le_succ (ih clean.2 (Nat.le_of_succ_le_succ long))

theorem bodyClean {entry : Bytes} (clean : comma ∉ entry) : comma ∉ body entry := by
  rw [body]
  split
  · exact fun member => clean (List.mem_of_mem_tail member)
  · exact clean

theorem loopStart {c : UInt8} {rest entry tail : Bytes} (text : c::rest = entry ++ tail) (clean : comma ∉ entry)
    (ends : tail = [] ∨ ∃ rest, tail = comma::rest) :
    decide (c = bang) = negated entry ∧ (if decide (c = bang) then rest else c::rest) = body entry ++ tail := by
  cases entry with
  | nil =>
    rcases ends with empty | cut
    · subst tail
      cases text
    · obtain ⟨rest,rfl⟩ := cut
      cases text
      exact ⟨rfl,rfl⟩
  | cons d entry =>
    cases text
    have head : negated (c::entry) = decide (c = bang) := by simp [negated]
    rw [body,head]
    refine ⟨rfl,?_⟩
    split
    · rfl
    · rfl

theorem loopStep {string text entry tail : Bytes} {dolower gotPositive : Bool} (some : text ≠ [])
    (cut : text = entry ++ tail) (clean : comma ∉ entry) (ends : tail = [] ∨ ∃ rest, tail = comma::rest) :
    patternLoop string dolower gotPositive text =
      if ¬Short entry then 0
      else if Hit string dolower entry then
        if negated entry then -1 else patternLoop string dolower true (skipComma tail)
      else patternLoop string dolower gotPositive (skipComma tail) := by
  obtain ⟨c,rest,rfl⟩ := List.exists_cons_of_ne_nil some
  obtain ⟨sign,start⟩ := loopStart cut clean ends
  rw [sign] at start
  rw [patternLoop]
  simp only [sign,start]
  by_cases short : Short entry
  · have copy : copySub dolower subRoom (body entry ++ tail) = _ :=
      copySubField (bodyClean clean) ends (Nat.le_of_lt short)
    have room : ¬subRoom ≤ ((body entry).map (copied dolower)).length := by
      rw [List.length_map]
      exact Nat.not_le.mpr short
    rw [copy,if_neg room,if_neg (not_not.mpr short)]
    by_cases hit : Hit string dolower entry
    · rw [if_pos ((matchPatternIff _ _).mpr hit),if_pos hit]
    · rw [if_neg (fun found => hit ((matchPatternIff _ _).mp found)),if_neg hit]
  · have full : subRoom ≤ (copySub dolower subRoom (body entry ++ tail)).1.length :=
      copySubFull (bodyClean clean) (Nat.not_lt.mp short)
    rw [if_pos full,if_pos short]

theorem loopVerdict (string : Bytes) (dolower gotPositive : Bool) (text : Bytes) :
    patternLoop string dolower gotPositive text = verdict string dolower gotPositive (entries comma text) := by
  induction size : text.length using Nat.strong_induction_on generalizing text gotPositive with
  | h n ih =>
    by_cases empty : text = []
    · rw [empty,patternLoop]
      rfl
    · obtain ⟨entry,tail,cut,clean,ends⟩ := firstCut comma text
      have shorter : (skipComma tail).length < n ∧ entries comma text = entry::entries comma (skipComma tail) := by
        rcases ends with none | later
        · subst tail
          rw [List.append_nil] at cut
          subst cut
          have := List.length_pos_iff.mpr empty
          exact ⟨by simp only [skipComma,List.length_nil]; omega,entriesLast clean empty⟩
        · obtain ⟨rest,rfl⟩ := later
          rw [cut,entriesFirst clean]
          rw [cut,List.length_append,List.length_cons] at size
          simp only [skipComma,if_true]
          exact ⟨by omega,trivial⟩
      rw [loopStep empty cut clean ends,shorter.2,verdict,ih _ shorter.1 true _ rfl,
        ih _ shorter.1 gotPositive _ rfl]

/- A listed entry that is too long ends the walk: nothing after it counts, and no
earlier hit does either. -/
def Denies (string : Bytes) (dolower : Bool) (list : List Bytes) : Prop :=
  ∃ before entry after, list = before ++ entry::after ∧ (∀ short ∈ before ++ [entry], Short short) ∧
    negated entry ∧ Hit string dolower entry

def Allows (string : Bytes) (dolower : Bool) (list : List Bytes) : Prop :=
  (∀ entry ∈ list, Short entry ∧ ¬(negated entry ∧ Hit string dolower entry)) ∧
    ∃ entry ∈ list, Hit string dolower entry

theorem deniesCons {string entry : Bytes} {dolower : Bool} {more : List Bytes} :
    Denies string dolower (entry::more) ↔
      Short entry ∧ (negated entry ∧ Hit string dolower entry ∨ Denies string dolower more) := by
  refine ⟨?_,?_⟩
  · intro denied
    obtain ⟨before,hit,after,split,short,sign,found⟩ := denied
    cases before with
    | nil =>
      cases split
      exact ⟨short entry (by simp),.inl ⟨sign,found⟩⟩
    | cons first before =>
      cases split
      exact ⟨short entry (by simp),.inr ⟨before,hit,after,rfl,fun e member => short e (List.mem_cons_of_mem _ member),
        sign,found⟩⟩
  · intro denied
    obtain ⟨short,found⟩ := denied
    rcases found with here | later
    · exact ⟨[],entry,more,rfl,by simpa using short,here⟩
    · obtain ⟨before,hit,after,split,rest,found⟩ := later
      refine ⟨entry::before,hit,after,by rw [split,List.cons_append],?_,found⟩
      intro e member
      rcases List.mem_cons.mp member with same | later
      · exact same ▸ short
      · exact rest e later

theorem verdictNegative (string : Bytes) (dolower gotPositive : Bool) (list : List Bytes) :
    verdict string dolower gotPositive list = -1 ↔ Denies string dolower list := by
  induction list generalizing gotPositive with
  | nil =>
    refine iff_of_false ?_ ?_
    · rw [verdict]
      split <;> decide
    · intro denied
      obtain ⟨before,entry,after,split,_⟩ := denied
      cases before <;> cases split
  | cons entry more ih =>
    rw [verdict,deniesCons]
    by_cases short : Short entry
    · by_cases hit : Hit string dolower entry
      · cases sign : negated entry <;> simp [short,hit,ih]
      · simp [short,hit,ih]
    · simp [short]

theorem verdictPositive (string : Bytes) (dolower gotPositive : Bool) (list : List Bytes) :
    verdict string dolower gotPositive list = 1 ↔
      (∀ entry ∈ list, Short entry ∧ ¬(negated entry ∧ Hit string dolower entry)) ∧
        (gotPositive = true ∨ ∃ entry ∈ list, Hit string dolower entry) := by
  induction list generalizing gotPositive with
  | nil => cases gotPositive <;> simp [verdict]
  | cons entry more ih =>
    rw [verdict]
    by_cases short : Short entry
    · by_cases hit : Hit string dolower entry
      · cases sign : negated entry <;> simp [short,hit,sign,ih]
      · simp [short,hit,ih]
    · simp [short]

theorem verdictRange (string : Bytes) (dolower gotPositive : Bool) (list : List Bytes) :
    verdict string dolower gotPositive list ∈ [-1,0,1] := by
  induction list generalizing gotPositive with
  | nil => cases gotPositive <;> simp [verdict]
  | cons entry more ih =>
    rw [verdict]
    split
    · simp
    · split
      · split
        · simp
        · exact ih true
      · exact ih gotPositive

theorem matchPatternListAllows (string pattern : Bytes) (dolower : Bool) :
    matchPatternList string pattern dolower = 1 ↔ Allows string dolower (listed pattern) := by
  rw [matchPatternList,loopVerdict,verdictPositive]
  simp [Allows,listed]

theorem matchPatternListIff (string pattern : Bytes) (dolower : Bool) :
    (matchPatternList string pattern dolower = -1 ↔ Denies string dolower (listed pattern)) ∧
    (matchPatternList string pattern dolower = 1 ↔ Allows string dolower (listed pattern)) ∧
    matchPatternList string pattern dolower ∈ [-1,0,1] := by
  refine ⟨?_,matchPatternListAllows string pattern dolower,?_⟩
  · rw [matchPatternList,loopVerdict]
    exact verdictNegative _ _ _ _
  · rw [matchPatternList,loopVerdict]
    exact verdictRange _ _ _ _

end SesLabs.SshMatch
