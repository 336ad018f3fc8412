import Mathlib.Algebra.GroupWithZero.Nat
import Mathlib.Algebra.Order.BigOperators.Group.List
import Mathlib.Algebra.Order.Group.Nat
import Mathlib.Data.List.DropRight
import SesLabs.SshMatch

/-! Lists of algorithm names: match_list and filter_list of match.c, kex_names_cat and
kex_assemble_names of kex.c. strsep hands out the fields of a text one after the
other; buffers have the sizes the source gives them. -/
namespace SesLabs.SshNames
open Glob Fields SshMatch

def plus : UInt8 := 0x2B
def minus : UInt8 := 0x2D
def caret : UInt8 := 0x5E

/- `for (p = strsep(..); p && *p != '\0'; ..)`: an empty field ends the list. -/
def namesOf (text : Bytes) : List Bytes := (fields comma text).takeWhile (· ≠ [])

/- MAX_PROP. -/
def maxProp : Nat := 40

def sproposals (server : Bytes) : List Bytes := (namesOf server).take maxProp

/- The loop over the client's names. `offset` is where the name stands in the client's
text, `first` what strlen sees of that text: strsep has cut it at its first comma. -/
def matchLoop (supported : List Bytes) (first : Nat) : Nat → List Bytes → Option Bytes × Nat
  | _,[] => (none,first)
  | offset,p::more =>
    if p = [] then (none,first)
    else if p ∈ supported then (some p,if more = [] then first else offset+p.length+1)
    else matchLoop supported first (offset+p.length+1) more

def matchList (client server : Bytes) : Option Bytes × Nat :=
  let found := matchLoop (sproposals server) (client.takeWhile (· ≠ comma)).length 0 (fields comma client)
  (found.1,found.2 % 2^32)

/- What dst holds afterwards, and the length that was asked for. -/
def strlcat (dst src : Bytes) (size : Nat) : Bytes × Nat :=
  if size ≤ dst.length then (dst,size+src.length)
  else (dst ++ src.take (size-dst.length-1),dst.length+src.length)

def strlcpy (src : Bytes) (size : Nat) : Bytes := src.take (size-1)

def keeps (filter : Bytes) (denylist : Bool) (name : Bytes) : Bool :=
  let r := matchPatternList name filter false
  denylist && decide (r ≠ 1) || !denylist && decide (r = 1)

def filterLoop (filter : Bytes) (denylist : Bool) (len : Nat) : Bytes → List Bytes → Bytes
  | fixProp,[] => fixProp
  | fixProp,cp::more =>
    if keeps filter denylist cp then
      let fixProp := if fixProp ≠ [] then (strlcat fixProp [comma] len).1 else fixProp
      filterLoop filter denylist len (strlcat fixProp cp len).1 more
    else filterLoop filter denylist len fixProp more

def filterList (proposal filter : Bytes) (denylist : Bool) : Bytes :=
  filterLoop filter denylist (proposal.length+1) [] (fields comma proposal)

def matchFilterDenylist (proposal filter : Bytes) : Bytes := filterList proposal filter true
def matchFilterAllowlist (proposal filter : Bytes) : Bytes := filterList proposal filter false

def catLoop (len : Nat) : Bytes → List Bytes → Option Bytes
  | ret,[] => some ret
  | ret,p::more =>
    if p = [] then some ret
    else if (matchList ret p).1.isSome then catLoop len ret more
    else
      let first := strlcat ret [comma] len
      if len ≤ first.2 then none
      else
        let second := strlcat first.1 p len
        if len ≤ second.2 then none else catLoop len second.1 more

def kexNamesCat (a : Option Bytes) (b : Bytes) : Option Bytes :=
  match a with
  | none => some b
  | some a =>
    if a = [] then some b
    else if b = [] then some a
    else if 1024*1024 < b.length then none
    else
      let len := a.length+b.length+2
      catLoop len (strlcpy a len) (fields comma b)

inductive AssembleError where
  | invalidArgument
  | allocFail
  deriving DecidableEq, Repr

def assembleLoop (all : Bytes) : Option Bytes → List Bytes → Except AssembleError (Option Bytes)
  | ret,[] => .ok ret
  | ret,cp::more =>
    if cp.head? = some bang then .error .invalidArgument
    else
      match kexNamesCat ret (matchFilterAllowlist all cp) with
      | none => .error .allocFail
      | some ret => assembleLoop all (some ret) more

def applyPatterns (all list : Bytes) : Except AssembleError Bytes := do
  let ret ← assembleLoop all none (fields comma list)
  match ret with
  | none => .error .invalidArgument
  | some ret => if ret = [] then .error .invalidArgument else .ok ret

def kexAssembleNames (list : Option Bytes) (defaults all : Bytes) : Except AssembleError Bytes :=
  match list with
  | none => .ok defaults
  | some [] => .ok defaults
  | some (c::rest) =>
    if c = plus then
      match kexNamesCat (some defaults) rest with
      | none => .error .allocFail
      | some list => applyPatterns all list
    else if c = minus then .ok (matchFilterDenylist defaults rest)
    else if c = caret then
      match kexNamesCat (some rest) defaults with
      | none => .error .allocFail
      | some list => applyPatterns all list
    else applyPatterns all (c::rest)

section MatchList

theorem matchLoopFirst (supported : List Bytes) (first offset : Nat) (list : List Bytes) :
    (matchLoop supported first offset list).1 = (list.takeWhile (· ≠ [])).find? (· ∈ supported) := by
  induction list generalizing offset with
  | nil => rfl
  | cons p more ih =>
    rw [matchLoop]
    by_cases empty : p = []
    · simp [empty]
    · by_cases common : p ∈ supported
      · simp [empty,common]
      · simp [empty,common,ih]

theorem matchListFirst (client server : Bytes) :
    (matchList client server).1 = (namesOf client).find? (· ∈ sproposals server) :=
  matchLoopFirst _ _ _ _

theorem leftBehind {client p : Bytes} {more : List Bytes} {offset : Nat}
    (left : client.drop offset = joined comma (p::more)) (some : more ≠ []) :
    client.drop (offset+p.length+1) = joined comma more ∧ offset+p.length+1 ≤ client.length := by
  rw [joinedCons _ some] at left
  have size := congrArg List.length left
  simp only [List.length_drop,List.length_append,List.length_cons] at size
  refine ⟨?_,by omega⟩
  rw [Nat.add_assoc,← List.drop_drop,left,← List.drop_drop]
  simp

theorem matchLoopNext {supported list : List Bytes} {client name : Bytes} {first offset : Nat}
    (left : client.drop offset = joined comma list)
    (found : (matchLoop supported first offset list).1 = some name) :
    ∃ before after, list = before ++ name::after ∧ (∀ p ∈ before, p ≠ [] ∧ p ∉ supported) ∧
      name ≠ [] ∧ name ∈ supported ∧
      (after = [] ∧ (matchLoop supported first offset list).2 = first ∨
        after ≠ [] ∧ (matchLoop supported first offset list).2 ≤ client.length ∧
          client.drop (matchLoop supported first offset list).2 = joined comma after) := by
  induction list generalizing offset with
  | nil => simp [matchLoop] at found
  | cons p more ih =>
    rw [matchLoop] at found ⊢
    by_cases empty : p = []
    · simp [empty] at found
    · simp only [empty,if_false] at found ⊢
      by_cases common : p ∈ supported
      · simp only [common,if_true] at found ⊢
        cases found
        refine ⟨[],more,rfl,by simp,empty,common,?_⟩
        split
        · rename_i last
          exact .inl ⟨last,rfl⟩
        · rename_i some
          exact .inr ⟨some,(leftBehind left some).symm⟩
      · simp only [common,if_false] at found ⊢
        cases more with
        | nil => simp [matchLoop] at found
        | cons q more =>
          obtain ⟨before,after,cut,passed,rest⟩ := ih (leftBehind left (List.cons_ne_nil _ _)).1 found
          refine ⟨p::before,after,by rw [cut,List.cons_append],?_,rest⟩
          intro other member
          rcases List.mem_cons.mp member with same | later
          · exact same ▸ ⟨empty,common⟩
          · exact passed other later

theorem namesJoined {list : List Bytes} (clean : ∀ name ∈ list, comma ∉ name) (some : list ≠ []) :
    namesOf (joined comma list) = list.takeWhile (· ≠ []) := by
  rw [namesOf,fieldsJoined clean some]

theorem namesAtComma (text : Bytes) : namesOf (text.drop (text.takeWhile (· ≠ comma)).length) = [] := by
  obtain ⟨field,tail,rfl,clean,ends⟩ := firstCut comma text
  have each : ∀ c ∈ field, decide (c ≠ comma) = true := by
    intro c member
    rw [decide_eq_true_eq]
    exact fun same => clean (same ▸ member)
  have stop : tail.takeWhile (· ≠ comma) = [] := by
    rcases ends with rfl | ⟨rest,rfl⟩
    · rfl
    · simp
  rw [List.takeWhile_append_of_pos each,stop,List.append_nil,List.drop_left]
  rcases ends with rfl | ⟨rest,rfl⟩
  · rfl
  · rw [namesOf,fieldsSep]
    rfl

theorem matchListRest {client server name : Bytes} (small : client.length < 2^32)
    (found : (matchList client server).1 = some name) :
    ∃ before, namesOf client = before ++ name::namesOf (client.drop (matchList client server).2) ∧
      (∀ p ∈ before, p ∉ sproposals server) ∧ name ∈ sproposals server := by
  have start : client.drop 0 = joined comma (fields comma client) := (joinedFields client).symm
  obtain ⟨before,after,cut,passed,named,common,rest⟩ := matchLoopNext start found
  have clean : ∀ field ∈ after, comma ∉ field := by
    intro field member
    refine fieldsClean client field ?_
    rw [cut]
    exact List.mem_append_right _ (List.mem_cons_of_mem _ member)
  have names : namesOf client = before ++ name::after.takeWhile (· ≠ []) := by
    have each : ∀ p ∈ before, decide (p ≠ []) = true := fun p member => decide_eq_true (passed p member).1
    rw [namesOf,cut,List.takeWhile_append_of_pos each,List.takeWhile_cons_of_pos (by simpa using named)]
  refine ⟨before,?_,fun p member => (passed p member).2,common⟩
  rw [names,matchList]
  simp only
  rcases rest with ⟨last,stops⟩ | ⟨more,bound,left⟩
  · have short : (client.takeWhile (· ≠ comma)).length ≤ client.length := (List.takeWhile_sublist _).length_le
    rw [stops,Nat.mod_eq_of_lt (Nat.lt_of_le_of_lt short small),namesAtComma,last]
    rfl
  · rw [Nat.mod_eq_of_lt (Nat.lt_of_le_of_lt bound small),left,namesJoined clean more]

end MatchList

section Filter

theorem strlcatFits {dst src : Bytes} {size : Nat} (room : dst.length+src.length < size) :
    strlcat dst src size = (dst ++ src,dst.length+src.length) := by
  rw [strlcat,if_neg (by omega),List.take_of_length_le (by omega)]

def extended (text name : Bytes) : Bytes := if text = [] then name else text ++ comma::name

def cost (list : List Bytes) : Nat := (list.map (fun name => name.length+1)).sum

theorem costJoined {list : List Bytes} (some : list ≠ []) : cost list = (joined comma list).length+1 := by
  induction list with
  | nil => contradiction
  | cons name more ih =>
    cases more with
    | nil => simp [cost,joined]
    | cons next more =>
      rw [joinedCons _ (List.cons_ne_nil _ _),cost,List.map_cons,List.sum_cons]
      have rest := ih (List.cons_ne_nil _ _)
      rw [cost] at rest
      rw [rest,List.length_append,List.length_cons]
      omega

theorem costFields (text : Bytes) : cost (fields comma text) = text.length+1 := by
  rw [costJoined (fieldsSome text),joinedFields]

theorem filterLoopRoom {filter fixProp : Bytes} {denylist : Bool} {size : Nat} {list : List Bytes}
    (room : fixProp.length+cost list ≤ size+if fixProp = [] then 1 else 0) :
    filterLoop filter denylist (size+1) fixProp list = (list.filter (keeps filter denylist)).foldl extended fixProp := by
  induction list generalizing fixProp with
  | nil => rfl
  | cons cp more ih =>
    simp only [cost,List.map_cons,List.sum_cons] at room
    rw [filterLoop]
    by_cases kept : keeps filter denylist cp = true
    · rw [if_pos kept,List.filter_cons_of_pos kept,List.foldl_cons,extended]
      by_cases empty : fixProp = []
      · subst fixProp
        simp only [List.length_nil,if_true] at room
        have copied : strlcat [] cp (size+1) = ([] ++ cp,_) := strlcatFits (by rw [List.length_nil]; omega)
        simp only [ne_eq,not_true_eq_false,if_false,if_true,copied,List.nil_append]
        apply ih
        rw [cost]
        split <;> omega
      · simp only [empty,if_false] at room
        have first : strlcat fixProp [comma] (size+1) = (fixProp ++ [comma],_) :=
          strlcatFits (by rw [List.length_singleton]; omega)
        have second : strlcat (fixProp ++ [comma]) cp (size+1) = (fixProp ++ [comma] ++ cp,_) :=
          strlcatFits (by rw [List.length_append,List.length_singleton]; omega)
        have same : fixProp ++ [comma] ++ cp = fixProp ++ comma::cp := by simp
        simp only [ne_eq,empty,not_false_eq_true,if_true,if_false,first,second,same]
        apply ih
        rw [cost,List.length_append,List.length_cons]
        omega
    · rw [if_neg kept,List.filter_cons_of_neg kept]
      apply ih
      rw [cost]
      omega

theorem extendedJoined {text : Bytes} (list : List Bytes) (some : text ≠ []) :
    list.foldl extended text = joined comma (text::list) := by
  induction list generalizing text with
  | nil => rfl
  | cons name more ih =>
    have longer : text ++ comma::name ≠ [] := by simp
    rw [List.foldl_cons,extended,if_neg some,ih longer,joinedCons _ (List.cons_ne_nil _ _)]
    cases more with
    | nil => rfl
    | cons next more =>
      rw [joinedCons _ (List.cons_ne_nil _ _),joinedCons _ (List.cons_ne_nil _ _)]
      simp

theorem extendedEmpty (list : List Bytes) :
    list.foldl extended [] = joined comma (list.dropWhile (· = [])) := by
  induction list with
  | nil => rfl
  | cons name more ih =>
    rw [List.foldl_cons,extended,if_pos rfl]
    by_cases empty : name = []
    · rw [empty,ih]
      simp
    · rw [extendedJoined more empty]
      simp [empty]

theorem keepsIff (filter name : Bytes) (denylist : Bool) :
    keeps filter denylist name = true ↔ (denylist = true ↔ ¬Allows name false (listed filter)) := by
  rw [← matchPatternListAllows,keeps]
  cases denylist <;> simp

def kept (proposal filter : Bytes) (denylist : Bool) : List Bytes :=
  ((fields comma proposal).filter (keeps filter denylist)).dropWhile (· = [])

theorem filterListKept (proposal filter : Bytes) (denylist : Bool) :
    filterList proposal filter denylist = joined comma (kept proposal filter denylist) := by
  rw [filterList,filterLoopRoom (by rw [costFields]; simp),extendedEmpty]
  rfl

def present (text : Bytes) : List Bytes := (fields comma text).filter (· ≠ [])

theorem filterDropWhile (list : List Bytes) : (list.dropWhile (· = [])).filter (· ≠ []) = list.filter (· ≠ []) := by
  induction list with
  | nil => rfl
  | cons name more ih =>
    by_cases empty : name = []
    · subst name
      simpa using ih
    · simp [empty]

theorem fieldsKept {list : List Bytes} (clean : ∀ name ∈ list, comma ∉ name) :
    fields comma (joined comma list) = if list = [] then [[]] else list := by
  split
  · rename_i none
    rw [none]
    rfl
  · rename_i some
    exact fieldsJoined clean some

theorem keptMem {proposal filter name : Bytes} {denylist : Bool} (member : name ∈ kept proposal filter denylist) :
    name ∈ fields comma proposal ∧ keeps filter denylist name = true :=
  List.mem_filter.mp ((List.dropWhile_sublist _).subset member)

theorem fieldsFiltered (proposal filter : Bytes) (denylist : Bool) :
    fields comma (filterList proposal filter denylist) =
      if kept proposal filter denylist = [] then [[]] else kept proposal filter denylist := by
  rw [filterListKept]
  exact fieldsKept (fun name member => fieldsClean proposal name (keptMem member).1)

theorem keptAgain (proposal filter : Bytes) (denylist : Bool) :
    kept (filterList proposal filter denylist) filter denylist = kept proposal filter denylist := by
  have all : (kept proposal filter denylist).filter (keeps filter denylist) = kept proposal filter denylist :=
    List.filter_eq_self.mpr (fun name member => (keptMem member).2)
  rw [kept,fieldsFiltered]
  split
  · rename_i none
    rw [none]
    cases empty : keeps filter denylist [] <;> simp [empty]
  · rw [all]
    exact List.dropWhile_idempotent _ _

theorem presentFiltered (proposal filter : Bytes) (denylist : Bool) :
    present (filterList proposal filter denylist) = (present proposal).filter (keeps filter denylist) := by
  have names : (kept proposal filter denylist).filter (· ≠ []) = (present proposal).filter (keeps filter denylist) := by
    rw [kept,filterDropWhile,List.filter_comm]
    rfl
  rw [present,fieldsFiltered,← names]
  split
  · rename_i none
    rw [none]
    rfl
  · rfl

theorem filterListNames (proposal filter : Bytes) (denylist : Bool) :
    present (filterList proposal filter denylist) = (present proposal).filter (keeps filter denylist) ∧
    (∀ name, keeps filter denylist name = true ↔ (denylist = true ↔ ¬Allows name false (listed filter))) ∧
    (∀ len, proposal.length+1 ≤ len →
      filterLoop filter denylist len [] (fields comma proposal) = filterList proposal filter denylist) ∧
    filterList (filterList proposal filter denylist) filter denylist = filterList proposal filter denylist := by
  refine ⟨presentFiltered proposal filter denylist,fun name => keepsIff filter name denylist,?_,?_⟩
  · intro len larger
    obtain ⟨size,rfl⟩ : ∃ size, len = size+1 := ⟨len-1,by omega⟩
    have room : proposal.length ≤ size := Nat.le_of_succ_le_succ larger
    have enough : ([] : Bytes).length+cost (fields comma proposal) ≤ size+if ([] : Bytes) = [] then 1 else 0 := by
      rw [costFields,List.length_nil,if_pos rfl]
      omega
    rw [filterLoopRoom enough,extendedEmpty,filterListKept]
    rfl
  · rw [filterListKept,keptAgain,← filterListKept]

end Filter

section Cat

def Full (text : Bytes) : Prop := [] ∉ fields comma text

instance (text : Bytes) : Decidable (Full text) := inferInstanceAs (Decidable (_ ∉ _))

theorem namesFull {text : Bytes} (full : Full text) : namesOf text = fields comma text := by
  rw [namesOf,List.takeWhile_eq_self_iff]
  intro name member
  rw [decide_eq_true_eq]
  intro empty
  exact full (empty ▸ member)

theorem sproposalsOne {name : Bytes} (clean : comma ∉ name) (some : name ≠ []) : sproposals name = [name] := by
  rw [sproposals,namesOf,fieldsLast clean]
  simp [some,maxProp]

theorem nameFound {text name : Bytes} (clean : comma ∉ name) (some : name ≠ []) :
    (matchList text name).1.isSome = true ↔ name ∈ namesOf text := by
  rw [matchListFirst,sproposalsOne clean some,List.find?_isSome]
  simp

/- The branch the source marks with "Shouldn't happen" is not taken when the name
fits. -/
theorem appended {ret name : Bytes} {len : Nat} {more : List Bytes} (room : ret.length+name.length+1 < len) :
    (let first := strlcat ret [comma] len
     if len ≤ first.2 then none
     else
       let second := strlcat first.1 name len
       if len ≤ second.2 then none else catLoop len second.1 more) = catLoop len (ret ++ comma::name) more := by
  have first : strlcat ret [comma] len = (ret ++ [comma],_) := strlcatFits (by rw [List.length_singleton]; omega)
  have second : strlcat (ret ++ [comma]) name len = (ret ++ [comma] ++ name,_) :=
    strlcatFits (by rw [List.length_append,List.length_singleton]; omega)
  have whole : ret ++ [comma] ++ name = ret ++ comma::name := by simp
  simp only [first,second,List.length_append,List.length_singleton]
  rw [if_neg (by omega),if_neg (by omega),whole]

theorem fullAppend {text name : Bytes} (full : Full text) (clean : comma ∉ name) (some : name ≠ []) :
    Full (text ++ comma::name) := by
  rw [Full,fieldsAppend,fieldsLast clean,List.mem_append,not_or]
  exact ⟨full,by simpa using Ne.symm some⟩

theorem catLoopFresh {len : Nat} {ret : Bytes} {list : List Bytes} (full : Full ret)
    (clean : ∀ name ∈ list, comma ∉ name) (room : ret.length+cost list < len) :
    ∃ result, catLoop len ret list = some result ∧
      fields comma result = fields comma ret ++ fresh (fields comma ret) (list.takeWhile (· ≠ [])) := by
  induction list generalizing ret with
  | nil => exact ⟨ret,rfl,by simp [fresh]⟩
  | cons name more ih =>
    have later : ∀ other ∈ more, comma ∉ other := fun other member => clean other (List.mem_cons_of_mem _ member)
    have alone : comma ∉ name := clean name List.mem_cons_self
    simp only [cost,List.map_cons,List.sum_cons] at room
    rw [catLoop]
    by_cases empty : name = []
    · exact ⟨ret,by rw [if_pos empty],by simp [empty,fresh]⟩
    · have found : (matchList ret name).1.isSome = true ↔ name ∈ namesOf ret := nameFound alone empty
      rw [namesFull full] at found
      rw [if_neg empty,List.takeWhile_cons_of_pos (by simpa using empty),fresh]
      by_cases known : name ∈ fields comma ret
      · rw [if_pos (found.mpr known),if_pos known]
        exact ih full later (by rw [cost]; omega)
      · rw [if_neg (fun seen => known (found.mp seen)),if_neg known,appended (by omega)]
        obtain ⟨result,done,names⟩ := ih (fullAppend full alone empty) later
          (by rw [List.length_append,List.length_cons,cost]; omega)
        refine ⟨result,done,?_⟩
        rw [names,fieldsAppend,fieldsLast alone,List.append_assoc]
        rfl

theorem namesHole {text : Bytes} (hole : ¬Full text) (rest : Bytes) :
    namesOf (text ++ comma::rest) = namesOf text ∧ ¬Full (text ++ comma::rest) := by
  rw [Full,not_not] at hole
  rw [namesOf,fieldsAppend,Full,fieldsAppend,not_not,List.mem_append]
  refine ⟨?_,.inl hole⟩
  rw [List.takeWhile_append,if_neg]
  · rfl
  · intro whole
    have same := (List.takeWhile_prefix (· ≠ [])).eq_of_length whole
    have every := List.takeWhile_eq_self_iff.mp same [] hole
    simp at every

theorem catLoopHole {len : Nat} {ret : Bytes} {list : List Bytes} (hole : ¬Full ret)
    (clean : ∀ name ∈ list, comma ∉ name) (room : ret.length+cost list < len) :
    ∃ result, catLoop len ret list = some result ∧
      fields comma result = fields comma ret ++ (list.takeWhile (· ≠ [])).filter (· ∉ namesOf ret) := by
  induction list generalizing ret with
  | nil => exact ⟨ret,rfl,by simp⟩
  | cons name more ih =>
    have later : ∀ other ∈ more, comma ∉ other := fun other member => clean other (List.mem_cons_of_mem _ member)
    have alone : comma ∉ name := clean name List.mem_cons_self
    simp only [cost,List.map_cons,List.sum_cons] at room
    rw [catLoop]
    by_cases empty : name = []
    · exact ⟨ret,by rw [if_pos empty],by simp [empty]⟩
    · rw [if_neg empty,List.takeWhile_cons_of_pos (by simpa using empty)]
      by_cases known : name ∈ namesOf ret
      · rw [if_pos ((nameFound alone empty).mpr known),List.filter_cons_of_neg (by simpa using known)]
        exact ih hole later (by rw [cost]; omega)
      · rw [if_neg (fun found => known ((nameFound alone empty).mp found)),
          List.filter_cons_of_pos (by simpa using known),appended (by omega)]
        obtain ⟨same,still⟩ := namesHole hole name
        obtain ⟨result,done,names⟩ := ih still later (by rw [List.length_append,List.length_cons,cost]; omega)
        refine ⟨result,done,?_⟩
        rw [names,fieldsAppend,fieldsLast alone,List.append_assoc,same]
        rfl

/- The names of b that a gains: without an empty field in a those it lacks, each
once; else those not found in front of the empty field, as often as b has them. -/
def added (a b : Bytes) : List Bytes :=
  if Full a then fresh (fields comma a) (namesOf b) else (namesOf b).filter (· ∉ namesOf a)

theorem addedNone (a : Bytes) : added a [] = [] := by
  rw [added]
  split <;> rfl

theorem kexNamesCatAdded {a b : Bytes} (nonempty : a ≠ []) (small : b.length ≤ 1024*1024) :
    ∃ result, kexNamesCat (some a) b = some result ∧ fields comma result = fields comma a ++ added a b := by
  rw [kexNamesCat]
  simp only [nonempty,if_false]
  by_cases none : b = []
  · subst b
    rw [if_pos rfl,addedNone,List.append_nil]
    exact ⟨a,rfl,rfl⟩
  · have copy : strlcpy a (a.length+b.length+2) = a := List.take_of_length_le (by omega)
    have room : a.length+cost (fields comma b) < a.length+b.length+2 := by
      rw [costFields]
      omega
    rw [if_neg none,if_neg (Nat.not_lt.mpr small),copy,added]
    split
    · rename_i full
      exact catLoopFresh full (fieldsClean b) room
    · rename_i hole
      exact catLoopHole hole (fieldsClean b) room

end Cat

section Assemble

def selected (all cp : Bytes) : List Bytes := (fields comma all).filter (keeps cp false)

def resolve (all : Bytes) (patterns : List Bytes) : Except AssembleError (List Bytes) :=
  if ∃ cp ∈ patterns, cp.head? = some bang then .error .invalidArgument
  else
    let names := fresh [] (patterns.flatMap (selected all))
    if names = [] then .error .invalidArgument else .ok names

def assembled (list : Option Bytes) (defaults all : Bytes) : Except AssembleError (List Bytes) :=
  match list with
  | none => .ok (fields comma defaults)
  | some [] => .ok (fields comma defaults)
  | some (c::rest) =>
    if c = plus then
      if 1024*1024 < rest.length then .error .allocFail
      else resolve all (fields comma defaults ++ added defaults rest)
    else if c = minus then .ok ((fields comma defaults).filter (keeps rest true))
    else if c = caret then
      resolve all (if rest = [] then fields comma defaults else fields comma rest ++ added rest defaults)
    else resolve all (fields comma (c::rest))

structure Table (text : Bytes) : Prop where
  full : Full text
  once : (fields comma text).Nodup
  small : text.length ≤ 1024*1024

theorem filterListLength (proposal filter : Bytes) (denylist : Bool) :
    (filterList proposal filter denylist).length ≤ proposal.length := by
  have fewer : cost (kept proposal filter denylist) ≤ cost (fields comma proposal) :=
    List.Sublist.sum_le_sum (((List.dropWhile_sublist _).trans List.filter_sublist).map _) (fun _ _ => Nat.zero_le _)
  rw [filterListKept]
  by_cases none : kept proposal filter denylist = []
  · rw [none]
    exact Nat.zero_le _
  · rw [costJoined none,costFields] at fewer
    exact Nat.le_of_succ_le_succ fewer

theorem presentFull {text : Bytes} (full : Full text) : present text = fields comma text := by
  rw [present,List.filter_eq_self]
  intro name member
  rw [decide_eq_true_eq]
  intro empty
  exact full (empty ▸ member)

def Sound (ret : Option Bytes) : Prop := ∀ text, ret = some text → text = [] ∨ Full text

def known (ret : Option Bytes) : List Bytes := match ret with
  | none => []
  | some text => present text

theorem soundNames {text : Bytes} (sound : Sound (some text)) : namesOf text = present text := by
  rcases sound text rfl with empty | full
  · rw [empty]
    rfl
  · rw [namesFull full,presentFull full]

theorem soundOfNames {text : Bytes} (full : ∀ name ∈ fields comma text, name ≠ []) : Sound (some text) := by
  intro other same
  cases same
  exact .inr (fun member => full [] member rfl)

section Selected
variable {all : Bytes} (table : Table all)
include table

theorem selectedOnce (cp : Bytes) : (selected all cp).Nodup :=
  table.once.filter _

theorem selectedSome {cp name : Bytes} (member : name ∈ selected all cp) : name ≠ [] := by
  intro empty
  exact table.full (empty ▸ (List.mem_filter.mp member).1)

theorem selectedFiltered (cp : Bytes) :
    present (matchFilterAllowlist all cp) = selected all cp ∧ Sound (some (matchFilterAllowlist all cp)) := by
  have names := presentFiltered all cp false
  rw [presentFull table.full] at names
  refine ⟨names,?_⟩
  by_cases none : kept all cp false = []
  · intro text same
    cases same
    exact .inl (by rw [matchFilterAllowlist,filterListKept,none]; rfl)
  · apply soundOfNames
    rw [matchFilterAllowlist,fieldsFiltered,if_neg none]
    intro name member empty
    exact table.full (empty ▸ (keptMem member).1)

theorem catKnown {ret : Option Bytes} (sound : Sound ret) (cp : Bytes) :
    ∃ text, kexNamesCat ret (matchFilterAllowlist all cp) = some text ∧ Sound (some text) ∧
      present text = known ret ++ fresh (known ret) (selected all cp) := by
  obtain ⟨names,filtered⟩ := selectedFiltered table cp
  have alone : present (matchFilterAllowlist all cp) = [] ++ fresh [] (selected all cp) := by
    rw [names,List.nil_append,freshAll (selectedOnce table cp) (by simp)]
  cases ret with
  | none => exact ⟨_,rfl,filtered,alone⟩
  | some text =>
    by_cases empty : text = []
    · subst text
      exact ⟨_,rfl,filtered,alone⟩
    · have full : Full text := (sound text rfl).resolve_left empty
      have small := (filterListLength all cp false).trans table.small
      obtain ⟨result,done,gained⟩ := kexNamesCatAdded empty small
      rw [added,if_pos full] at gained
      rw [← matchFilterAllowlist,soundNames filtered,names] at gained
      have every : ∀ name ∈ fields comma result, name ≠ [] := by
        intro name member
        rw [gained,List.mem_append] at member
        rcases member with old | new
        · exact fun none => full (none ▸ old)
        · exact selectedSome table (freshMem.mp new).1
      have whole := soundOfNames every
      refine ⟨result,done,whole,?_⟩
      rw [known,presentFull full,← gained,presentFull (fun member => every [] member rfl)]

theorem assembleLoopNames {ret : Option Bytes} (sound : Sound ret) (patterns : List Bytes) :
    (∃ cp ∈ patterns, cp.head? = some bang) ∧ assembleLoop all ret patterns = .error .invalidArgument ∨
    (¬∃ cp ∈ patterns, cp.head? = some bang) ∧ ∃ last, assembleLoop all ret patterns = .ok last ∧ Sound last ∧
      known last = known ret ++ fresh (known ret) (patterns.flatMap (selected all)) := by
  induction patterns generalizing ret with
  | nil => exact .inr ⟨by simp,ret,rfl,sound,by simp [fresh]⟩
  | cons cp more ih =>
    rw [assembleLoop]
    by_cases refused : cp.head? = some bang
    · exact .inl ⟨⟨cp,List.mem_cons_self,refused⟩,by rw [if_pos refused]⟩
    · obtain ⟨text,done,whole,names⟩ := catKnown table sound cp
      have same : (∃ other ∈ cp::more, other.head? = some bang) ↔ ∃ other ∈ more, other.head? = some bang := by
        simp [refused]
      rw [if_neg refused,done,same]
      rcases ih whole with fails | succeeds
      · exact .inl fails
      · obtain ⟨accepted,last,ok,good,all⟩ := succeeds
        refine .inr ⟨accepted,last,ok,good,?_⟩
        rw [all,known,names,List.flatMap_cons,freshAppend,List.append_assoc]

theorem applyPatternsNames (list : Bytes) :
    (applyPatterns all list).map present = resolve all (fields comma list) := by
  have start : Sound none := by
    intro text impossible
    cases impossible
  rw [applyPatterns,resolve]
  rcases assembleLoopNames table start (fields comma list) with fails | succeeds
  · rw [if_pos fails.1,fails.2]
    rfl
  · obtain ⟨accepted,last,ok,sound,names⟩ := succeeds
    have every : known last = fresh [] ((fields comma list).flatMap (selected all)) := names
    rw [if_neg accepted,ok,← every]
    cases last with
    | none => rfl
    | some text =>
      rcases sound text rfl with empty | full
      · subst text
        rfl
      · have some : fields comma text ≠ [] := fieldsSome text
        have nonempty : text ≠ [] := by
          intro empty
          subst text
          exact full List.mem_cons_self
        simp only [known,presentFull full,some,if_false]
        show Except.map present (if text = [] then .error AssembleError.invalidArgument else .ok text) = _
        rw [if_neg nonempty]
        exact congrArg Except.ok (presentFull full)

end Selected

theorem kexAssembleNamesPresent {list : Option Bytes} {defaults all : Bytes} (known : Table defaults)
    (table : Table all) : (kexAssembleNames list defaults all).map present = assembled list defaults all := by
  have defaultsSome : defaults ≠ [] := by
    intro empty
    subst defaults
    exact known.full List.mem_cons_self
  have names := presentFull known.full
  cases list with
  | none => exact congrArg Except.ok names
  | some list =>
    cases list with
    | nil => exact congrArg Except.ok names
    | cons c rest =>
      rw [kexAssembleNames,assembled]
      by_cases append : c = plus
      · rw [if_pos append,if_pos append]
        by_cases large : 1024*1024 < rest.length
        · have fails : kexNamesCat (some defaults) rest = none := by
            have nonempty : rest ≠ [] := by
              intro empty
              rw [empty] at large
              simp at large
            rw [kexNamesCat]
            simp only [defaultsSome,nonempty,large,if_true,if_false]
          rw [fails,if_pos large]
          rfl
        · obtain ⟨text,done,gained⟩ := kexNamesCatAdded defaultsSome (Nat.not_lt.mp large)
          rw [done,if_neg large,← gained]
          exact applyPatternsNames table text
      · rw [if_neg append,if_neg append]
        by_cases remove : c = minus
        · rw [if_pos remove,if_pos remove,← names]
          exact congrArg Except.ok (presentFiltered defaults rest true)
        · rw [if_neg remove,if_neg remove]
          by_cases front : c = caret
          · rw [if_pos front,if_pos front]
            by_cases empty : rest = []
            · subst rest
              exact applyPatternsNames table defaults
            · obtain ⟨text,done,gained⟩ := kexNamesCatAdded empty known.small
              rw [done,if_neg empty,← gained]
              exact applyPatternsNames table text
          · rw [if_neg front,if_neg front]
            exact applyPatternsNames table (c::rest)

theorem resolveNames {all : Bytes} {patterns names : List Bytes} (done : resolve all patterns = .ok names) :
    names.Nodup ∧ ∀ name ∈ names, name ∈ fields comma all := by
  rw [resolve] at done
  split at done
  · cases done
  · simp only at done
    split at done
    · cases done
    · cases done
      refine ⟨freshNodup _ _,?_⟩
      intro name member
      obtain ⟨cp,_,chosen⟩ := List.mem_flatMap.mp (freshMem.mp member).1
      exact (List.mem_filter.mp chosen).1

theorem assembledNames {list : Option Bytes} {defaults all : Bytes} {names : List Bytes} (known : Table defaults)
    (done : assembled list defaults all = .ok names) :
    names.Nodup ∧ ∀ name ∈ names, name ∈ fields comma all ∨ name ∈ fields comma defaults := by
  have patterns {patterns : List Bytes} (done : resolve all patterns = .ok names) :
      names.Nodup ∧ ∀ name ∈ names, name ∈ fields comma all ∨ name ∈ fields comma defaults := by
    obtain ⟨once,inside⟩ := resolveNames done
    exact ⟨once,fun name member => .inl (inside name member)⟩
  rw [assembled.eq_def] at done
  split at done
  · cases done
    exact ⟨known.once,fun _ member => .inr member⟩
  · cases done
    exact ⟨known.once,fun _ member => .inr member⟩
  · split at done
    · split at done
      · cases done
      · exact patterns done
    · split at done
      · cases done
        exact ⟨known.once.filter _,fun _ member => .inr (List.mem_filter.mp member).1⟩
      · split at done
        · exact patterns done
        · exact patterns done

theorem kexAssembleNamesIff {list : Option Bytes} {defaults all : Bytes} (known : Table defaults) (table : Table all) :
    (kexAssembleNames list defaults all).map present = assembled list defaults all ∧
    ∀ text, kexAssembleNames list defaults all = .ok text →
      (present text).Nodup ∧ ∀ name ∈ present text, name ∈ fields comma all ∨ name ∈ fields comma defaults := by
  refine ⟨kexAssembleNamesPresent known table,?_⟩
  intro text done
  refine @assembledNames list _ _ _ known ?_
  rw [← kexAssembleNamesPresent known table,done]
  rfl

theorem tableSmall : Table (ascii "a,b") ∧ Table (ascii "a,b,c*,cd") := by
  refine ⟨⟨by decide,by decide,by decide⟩,⟨by decide,by decide,by decide⟩⟩

theorem kexAssembleNamesIffSmall :
    (kexAssembleNames (some (ascii "^c*")) (ascii "a,b") (ascii "a,b,c*,cd")).map present =
      .ok [ascii "c*",ascii "cd",ascii "a",ascii "b"] :=
  (kexAssembleNamesIff tableSmall.1 tableSmall.2).1.trans (by decide +kernel)

end Assemble

end SesLabs.SshNames
