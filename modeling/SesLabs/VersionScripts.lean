import SesLabs.ByteReplace
import SesLabs.Bytes

/-! rmVer.py and q7.py, which overwrite version strings in the sshd binary. Both
read the binary, print how often each string occurs in it, replace in a loop and
write the result of the loop. A binary is the list of its bytes; the files are
there and can be opened. -/
namespace SesLabs.VersionScripts
open ByteReplace

inductive Failure where
  | assertionError (message : String)
  | nameError (name : String)
  deriving DecidableEq, Repr

structure Output where
  occurrences : List (Bytes × Nat)
  newFile : Bytes
  deriving DecidableEq, Repr

/- `for old, new in zip(old_text, new_text)`. Every pass starts again from data,
which the loop does not change; newData is the name new_data, unbound at first. -/
def replaceLoop (data : Bytes) : List (Bytes × Bytes) → Option Bytes → Except Failure (Option Bytes)
  | [], newData => .ok newData
  | (old,new)::rest, _ =>
    if old.length = new.length then replaceLoop data rest (some (replace old new data))
    else .error (.assertionError "wrong size")

def replaceTexts (oldText newText : List Bytes) (data : Bytes) : Except Failure Output := do
  let occurrences := oldText.map (fun old => (old,count old data))
  let newData ← replaceLoop data (oldText.zip newText) none
  match newData with
  | none => .error (.nameError "new_data")
  | some written => .ok ⟨occurrences,written⟩

def version : Bytes := ascii "OpenSSH_8.8"

def rmVerOldText : List Bytes := [version,ascii "SSH-%d"]
def rmVerNewText : List Bytes := [List.replicate version.length 0,ascii "SSH-XX"]

def rmVer (data : Bytes) : Except Failure Output := replaceTexts rmVerOldText rmVerNewText data

def q7OldText : List Bytes := [version ++ [0]]
def q7NewText : List Bytes := [List.replicate (version ++ [0]).length 0]

def q7 (keepOriginal : Bool) (data : Bytes) : Except Failure Output :=
  if keepOriginal then .ok ⟨[],data⟩ else replaceTexts q7OldText q7NewText data

def Removes (oldText : List Bytes) (data result : Bytes) : Prop :=
  result.length = data.length ∧ (∀ old ∈ oldText, ¬ old <:+: result) ∧
  ∀ i, (∀ old ∈ oldText, ¬ Covered old data i) → result[i]? = data[i]?

theorem replaceLoopLast (data : Bytes) {pairs : List (Bytes × Bytes)} {old new : Bytes}
    (sizes : ∀ pair ∈ pairs ++ [(old,new)], pair.1.length = pair.2.length) (newData : Option Bytes) :
    replaceLoop data (pairs ++ [(old,new)]) newData = .ok (some (replace old new data)) := by
  induction pairs generalizing newData with
  | nil =>
    have size := sizes (old,new) (List.mem_append_right _ (List.mem_singleton_self _))
    simp only [List.nil_append,replaceLoop,if_pos size]
  | cons pair pairs ih =>
    obtain ⟨first,second⟩ := pair
    have size := sizes (first,second) List.mem_cons_self
    rw [List.cons_append,replaceLoop,if_pos size]
    exact ih (fun pair member => sizes pair (List.mem_cons_of_mem _ member)) _

theorem replaceTextsLast (data : Bytes) {oldText newText : List Bytes} (pairs : List (Bytes × Bytes))
    {old new : Bytes} (texts : oldText.zip newText = pairs ++ [(old,new)])
    (sizes : ∀ pair ∈ pairs ++ [(old,new)], pair.1.length = pair.2.length) :
    replaceTexts oldText newText data =
      .ok ⟨oldText.map (fun old => (old,count old data)),replace old new data⟩ := by
  rw [replaceTexts,texts,replaceLoopLast data sizes]
  rfl

theorem rmVerResult (data : Bytes) : rmVer data =
    .ok ⟨rmVerOldText.map (fun old => (old,count old data)),replace (ascii "SSH-%d") (ascii "SSH-XX") data⟩ :=
  replaceTextsLast data [(version,List.replicate version.length 0)] rfl (by decide)

theorem q7Result (data : Bytes) : q7 false data =
    .ok ⟨q7OldText.map (fun old => (old,count old data)),
      replace (version ++ [0]) (List.replicate (version ++ [0]).length 0) data⟩ :=
  replaceTextsLast data [] rfl (by decide)

theorem writtenIff {script : Except Failure Output} {out : Output} (ran : script = .ok out)
    (oldText : List Bytes) (data : Bytes) :
    (∃ out, script = .ok out ∧ Removes oldText data out.newFile) ↔ Removes oldText data out.newFile := by
  refine ⟨?_,?_⟩
  · intro written
    obtain ⟨other,same,removes⟩ := written
    cases Except.ok.inj (ran.symm.trans same)
    exact removes
  · intro removes
    exact ⟨out,ran,removes⟩

section RmVer
variable (data : Bytes)

theorem protocolPattern : ascii "SSH-%d" ≠ [] := by decide
theorem protocolSize : (ascii "SSH-XX").length = (ascii "SSH-%d").length := by decide
theorem protocolUnbordered : Unbordered (ascii "SSH-%d") := by decide
theorem protocolClash : Clash (ascii "SSH-%d") (ascii "SSH-XX") := by decide

theorem versionKept (q : Nat) :
    OccursAt version (replace (ascii "SSH-%d") (ascii "SSH-XX") data) q ↔ OccursAt version data q :=
  replaceKeeps protocolPattern protocolSize data protocolUnbordered (by decide) (by decide) q

theorem versionInfixKept :
    version <:+: replace (ascii "SSH-%d") (ascii "SSH-XX") data ↔ version <:+: data := by
  rw [infixIff,infixIff]
  exact exists_congr (versionKept data)

end RmVer

/- The second pass starts from the binary again and so undoes the first: rmVer.py
does what it lists exactly when the version was not there. -/
theorem rmVerRemovesIff (data : Bytes) :
    (∃ out, rmVer data = .ok out ∧ Removes rmVerOldText data out.newFile) ↔ ¬ version <:+: data := by
  rw [writtenIff (rmVerResult data)]
  refine ⟨?_,?_⟩
  · intro removes found
    obtain ⟨_,gone,_⟩ := removes
    exact gone version List.mem_cons_self ((versionInfixKept data).mpr found)
  · intro absent
    refine ⟨?_,?_,?_⟩
    · exact replaceLength protocolPattern protocolSize data
    · intro old member found
      rcases List.mem_cons.mp member with same | other
      · rw [same] at found
        exact absent ((versionInfixKept data).mp found)
      · rw [List.mem_singleton.mp other] at found
        exact replaceClears protocolPattern protocolSize data protocolUnbordered protocolClash found
    · intro i outside
      have member : ascii "SSH-%d" ∈ rmVerOldText := List.mem_cons_of_mem _ List.mem_cons_self
      exact replaceOutside protocolPattern protocolSize data (outside _ member)

theorem versionSurvives :
    ¬ ∃ out, rmVer (ascii "OpenSSH_8.8") = .ok out ∧
      Removes rmVerOldText (ascii "OpenSSH_8.8") out.newFile := by
  rw [writtenIff (rmVerResult _)]
  intro removes
  obtain ⟨_,gone,_⟩ := removes
  exact absurd ((versionInfixKept _).mpr (List.infix_refl version)) (gone version List.mem_cons_self)

theorem terminatedSize : (List.replicate (version ++ [0]).length (0 : UInt8)).length = (version ++ [0]).length := by
  decide

/- The filler is the byte that ends the string: a version directly before an
occurrence gets its terminator from the overwritten bytes. -/
theorem q7RemovesIff (data : Bytes) :
    (∃ out, q7 false data = .ok out ∧ Removes q7OldText data out.newFile) ↔
      ¬ version ++ (version ++ [0]) <:+: data := by
  have left := terminatedLeft (v := version) (z := 0) (by decide) data (by decide)
  have member : version ++ [0] ∈ q7OldText := List.mem_cons_self
  rw [writtenIff (q7Result data),← left]
  refine ⟨?_,?_⟩
  · intro removes
    obtain ⟨_,gone,_⟩ := removes
    exact gone _ member
  · intro gone
    refine ⟨?_,?_,?_⟩
    · exact replaceLength (by decide) terminatedSize data
    · intro old only
      rw [List.mem_singleton.mp only]
      exact gone
    · intro i outside
      exact replaceOutside (by decide) terminatedSize data (outside _ member)

theorem versionLeftBehind :
    ¬ ∃ out, q7 false (ascii "OpenSSH_8.8OpenSSH_8.8" ++ [0]) = .ok out ∧
      Removes q7OldText (ascii "OpenSSH_8.8OpenSSH_8.8" ++ [0]) out.newFile := by
  rw [writtenIff (q7Result _)]
  intro removes
  obtain ⟨_,gone,_⟩ := removes
  exact absurd (by decide) (gone (version ++ [0]) List.mem_cons_self)

end SesLabs.VersionScripts
