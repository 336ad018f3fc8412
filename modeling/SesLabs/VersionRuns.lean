import SesLabs.ReplaceRuns
import SesLabs.VersionScripts

/-! The two scripts run more than once and after each other. q7.py leaves a version
behind when another one follows it directly; run again on its own output it takes
one more off, so the number of runs that is needed can be read off the binary. The
two scripts touch different places and can be run in either order. -/
namespace SesLabs.VersionRuns
open ByteReplace ReplaceRuns VersionScripts

def q7Times : Nat → Bytes → Except Failure Bytes
  | 0, data => .ok data
  | k+1, data => do
    let out ← q7 false data
    q7Times k out.newFile

theorem q7TimesResult (k : Nat) (data : Bytes) : q7Times k data = .ok ((wipe version 0)^[k] data) := by
  induction k generalizing data with
  | zero => rfl
  | succ k ih =>
    rw [q7Times,q7Result,Function.iterate_succ_apply]
    exact ih (wipe version 0 data)

theorem versionWord : version ≠ [] := by decide
theorem versionLetters : (0 : UInt8) ∉ version := by decide
theorem versionLength : version.length = 11 := by decide

theorem versionWipesIff (k : Nat) (data : Bytes) :
    version ++ [0] <:+: (wipe version 0)^[k] data ↔ repeated (k+1) version ++ [0] <:+: data := by
  have passes := wipesIff versionLetters data versionWord k 0
  rwa [repeatedSucc,Nat.zero_add,Nat.add_comm 1 k] at passes

theorem q7TimesLeavesIff (k : Nat) (data : Bytes) :
    ∃ out, q7Times k data = .ok out ∧
      (version ++ [0] <:+: out ↔ repeated (k+1) version ++ [0] <:+: data) :=
  ⟨_,q7TimesResult k data,versionWipesIff k data⟩

theorem repeatedLength (n : Nat) : (repeated n version).length = 11*n := by
  induction n with
  | zero => rfl
  | succ n ih => rw [repeatedSucc,List.length_append,ih,versionLength,Nat.mul_succ]

theorem q7TimesEnough (data : Bytes) :
    ∃ out, q7Times (data.length/11) data = .ok out ∧ out.length = data.length ∧
      ¬ version ++ [0] <:+: out ∧ ∀ i, ¬ Covered version data i → out[i]? = data[i]? := by
  refine ⟨_,q7TimesResult _ data,wipesLength ..,?_,?_⟩
  · rw [versionWipesIff]
    intro found
    have size := found.length_le
    rw [List.length_append,repeatedLength,List.length_singleton] at size
    omega
  · intro i outside
    exact wipesOutside versionLetters data _ outside

theorem versionIndependent : Independent (version ++ [0]) (List.replicate (version ++ [0]).length 0)
    (ascii "SSH-%d") (ascii "SSH-XX") :=
  ⟨by decide,by decide,by decide,by decide,by decide⟩

theorem protocolIndependent : Independent (ascii "SSH-%d") (ascii "SSH-XX")
    (version ++ [0]) (List.replicate (version ++ [0]).length 0) :=
  ⟨by decide,by decide,by decide,by decide,by decide⟩

theorem scriptsCommute (data : Bytes) :
    ∃ patched, (do
        let first ← rmVer data
        let second ← q7 false first.newFile
        return second.newFile) = .ok patched ∧
      (do
        let first ← q7 false data
        let second ← rmVer first.newFile
        return second.newFile) = .ok patched := by
  refine ⟨replace (version ++ [0]) (List.replicate (version ++ [0]).length 0)
    (replace (ascii "SSH-%d") (ascii "SSH-XX") data),?_,?_⟩
  · rw [rmVerResult]
    simp only [bind,Except.bind,q7Result]
    rfl
  · rw [replaceCommute versionIndependent protocolIndependent,q7Result]
    simp only [bind,Except.bind,rmVerResult]
    rfl

theorem replaceAbsent {old new data : Bytes} (pattern : old ≠ []) (same : new.length = old.length)
    (absent : ¬ old <:+: data) : replace old new data = data := by
  apply List.ext_getElem?
  intro i
  refine replaceOutside pattern same data (fun covered => ?_)
  obtain ⟨p,occurs,_⟩ := covered
  exact absent (infixIff.mpr ⟨p,occurs⟩)

theorem rmVerAgain (data : Bytes) :
    ∃ first second, rmVer data = .ok first ∧ rmVer first.newFile = .ok second ∧
      second.newFile = first.newFile ∧
      first.occurrences = [(version,occurrences version data),(ascii "SSH-%d",occurrences (ascii "SSH-%d") data)] ∧
      second.occurrences = [(version,occurrences version data),(ascii "SSH-%d",0)] := by
  have cleared := replaceClears protocolPattern protocolSize data protocolUnbordered protocolClash
  have size := replaceLength protocolPattern protocolSize data
  have printed (data : Bytes) : rmVerOldText.map (fun old => (old,count old data)) =
      [(version,occurrences version data),(ascii "SSH-%d",occurrences (ascii "SSH-%d") data)] := by
    simp only [rmVerOldText,List.map_cons,List.map_nil]
    rw [countOccurrences versionWord (by decide),countOccurrences protocolPattern protocolUnbordered]
  refine ⟨_,_,rmVerResult data,rmVerResult _,?_,?_,?_⟩
  · exact replaceAbsent protocolPattern protocolSize cleared
  · exact printed data
  · have again := printed (replace (ascii "SSH-%d") (ascii "SSH-XX") data)
    rw [occurrencesCongr size (versionKept data),occurrencesNone cleared] at again
    exact again

end SesLabs.VersionRuns
