import Mathlib.Data.List.Basic

/-! Lists written with a separator. Cutting at every separator gives at least one
field; fields without the separator, written one after the other, are read back. -/
namespace SesLabs.Fields
variable {α : Type}

/- What strsep hands out one after the other, empty fields included. -/
def fields [DecidableEq α] (sep : α) : List α → List (List α)
  | [] => [[]]
  | a::rest => if a = sep then []::fields sep rest else
    match fields sep rest with
    | [] => [[a]]
    | field::more => (a::field)::more

def joined (sep : α) : List (List α) → List α
  | [] => []
  | [field] => field
  | field::more => field ++ sep::joined sep more

variable {sep : α}

theorem joinedCons (field : List α) {more : List (List α)} (some : more ≠ []) :
    joined sep (field::more) = field ++ sep::joined sep more := by
  cases more with
  | nil => contradiction
  | cons next more => rfl

variable [DecidableEq α]

theorem fieldsSep (rest : List α) : fields sep (sep::rest) = []::fields sep rest := by
  simp [fields]

theorem fieldsSome (text : List α) : fields sep text ≠ [] := by
  cases text with
  | nil => simp [fields]
  | cons a rest =>
    rw [fields]
    split
    · simp
    · split <;> simp

theorem fieldsFirst {field : List α} (clean : sep ∉ field) (rest : List α) :
    fields sep (field ++ sep::rest) = field::fields sep rest := by
  induction field with
  | nil => exact fieldsSep rest
  | cons a field ih =>
    rw [List.mem_cons,not_or] at clean
    obtain ⟨other,clean⟩ := clean
    rw [List.cons_append,fields,if_neg (Ne.symm other),ih clean]

theorem fieldsAppend (text rest : List α) : fields sep (text ++ sep::rest) = fields sep text ++ fields sep rest := by
  induction text with
  | nil => exact fieldsSep rest
  | cons a text ih =>
    rw [List.cons_append,fields,fields,ih]
    split
    · rfl
    · obtain ⟨first,more,cut⟩ := List.exists_cons_of_ne_nil (fieldsSome text)
      rw [cut]
      rfl

theorem fieldsLast {field : List α} (clean : sep ∉ field) : fields sep field = [field] := by
  induction field with
  | nil => rfl
  | cons a field ih =>
    rw [List.mem_cons,not_or] at clean
    obtain ⟨other,clean⟩ := clean
    rw [fields,if_neg (Ne.symm other),ih clean]

theorem fieldsJoined {list : List (List α)} (clean : ∀ field ∈ list, sep ∉ field) (some : list ≠ []) :
    fields sep (joined sep list) = list := by
  induction list with
  | nil => contradiction
  | cons field more ih =>
    cases more with
    | nil => exact fieldsLast (clean field List.mem_cons_self)
    | cons next more =>
      rw [joinedCons _ (List.cons_ne_nil _ _),fieldsFirst (clean field List.mem_cons_self),
        ih (fun other member => clean other (List.mem_cons_of_mem _ member)) (List.cons_ne_nil _ _)]

theorem fieldsClean (text : List α) : ∀ field ∈ fields sep text, sep ∉ field := by
  induction text with
  | nil => simp [fields]
  | cons a rest ih =>
    intro field member
    rw [fields] at member
    split at member
    · rcases List.mem_cons.mp member with empty | later
      · simp [empty]
      · exact ih field later
    · rename_i other
      split at member
      · rename_i none
        exact absurd none (fieldsSome rest)
      · rename_i first more cut
        rw [cut] at ih
        rcases List.mem_cons.mp member with same | later
        · rw [same,List.mem_cons,not_or]
          exact ⟨Ne.symm other,ih first List.mem_cons_self⟩
        · exact ih field (List.mem_cons_of_mem _ later)

theorem joinedFields (text : List α) : joined sep (fields sep text) = text := by
  induction text with
  | nil => rfl
  | cons a rest ih =>
    rw [fields]
    split
    · rename_i same
      rw [joinedCons _ (fieldsSome rest),ih,same]
      rfl
    · split
      · rename_i none
        exact absurd none (fieldsSome rest)
      · rename_i first more cut
        rw [cut] at ih
        cases more with
        | nil => exact congrArg (a :: ·) ih
        | cons next more =>
          rw [joinedCons _ (List.cons_ne_nil _ _)] at ih ⊢
          exact congrArg (a :: ·) ih

def entries (sep : α) (text : List α) : List (List α) :=
  if (fields sep text).getLast? = some [] then (fields sep text).dropLast else fields sep text

theorem entriesFirst {field : List α} (clean : sep ∉ field) (rest : List α) :
    entries sep (field ++ sep::rest) = field::entries sep rest := by
  have some : fields sep rest ≠ [] := fieldsSome rest
  obtain ⟨next,more,cut⟩ := List.exists_cons_of_ne_nil some
  rw [entries,entries,fieldsFirst clean,cut,List.getLast?_cons_cons]
  split
  · rfl
  · rfl

theorem entriesLast {field : List α} (clean : sep ∉ field) (some : field ≠ []) : entries sep field = [field] := by
  rw [entries,fieldsLast clean,if_neg (by simpa using some)]

theorem firstCut (sep : α) (text : List α) :
    ∃ field tail, text = field ++ tail ∧ sep ∉ field ∧ (tail = [] ∨ ∃ rest, tail = sep::rest) := by
  induction text with
  | nil => exact ⟨[],[],rfl,List.not_mem_nil,.inl rfl⟩
  | cons a rest ih =>
    by_cases same : a = sep
    · subst a
      exact ⟨[],sep::rest,rfl,List.not_mem_nil,.inr ⟨rest,rfl⟩⟩
    · obtain ⟨field,tail,rfl,clean,ends⟩ := ih
      refine ⟨a::field,tail,rfl,?_,ends⟩
      rw [List.mem_cons,not_or]
      exact ⟨Ne.symm same,clean⟩

def fresh (known : List (List α)) : List (List α) → List (List α)
  | [] => []
  | field::more => if field ∈ known then fresh known more else field::fresh (known ++ [field]) more

theorem freshMem {known list : List (List α)} {field : List α} :
    field ∈ fresh known list ↔ field ∈ list ∧ field ∉ known := by
  induction list generalizing known with
  | nil => simp [fresh]
  | cons first more ih =>
    rw [fresh]
    split
    · rename_i before
      rw [ih,List.mem_cons]
      refine ⟨fun found => ⟨.inr found.1,found.2⟩,?_⟩
      intro found
      rcases found.1 with same | later
      · exact absurd (same ▸ before) found.2
      · exact ⟨later,found.2⟩
    · rename_i new
      rw [List.mem_cons,List.mem_cons,ih,List.mem_append,List.mem_singleton,not_or]
      by_cases same : field = first
      · simp [same,new]
      · simp [same]

theorem freshNodup (known list : List (List α)) : (fresh known list).Nodup := by
  induction list generalizing known with
  | nil => exact List.nodup_nil
  | cons first more ih =>
    rw [fresh]
    split
    · exact ih known
    · rw [List.nodup_cons,freshMem]
      exact ⟨by simp,ih _⟩

theorem freshAppend (known first second : List (List α)) :
    fresh known (first ++ second) = fresh known first ++ fresh (known ++ fresh known first) second := by
  induction first generalizing known with
  | nil => simp [fresh]
  | cons field more ih =>
    rw [List.cons_append,fresh,fresh]
    split
    · exact ih known
    · rw [ih,List.cons_append,List.append_assoc,List.singleton_append]

theorem freshAll {known list : List (List α)} (once : list.Nodup) (new : ∀ field ∈ list, field ∉ known) :
    fresh known list = list := by
  induction list generalizing known with
  | nil => rfl
  | cons field more ih =>
    rw [List.nodup_cons] at once
    rw [fresh,if_neg (new field List.mem_cons_self),ih once.2]
    intro other member
    rw [List.mem_append,List.mem_singleton,not_or]
    refine ⟨new other (List.mem_cons_of_mem _ member),?_⟩
    intro same
    exact once.1 (same ▸ member)

end SesLabs.Fields
