import Mathlib.Init

/-! The content of a file, a buffer or a C string, and the texts of the sources. -/
namespace SesLabs

abbrev Bytes := List UInt8

def ascii (s : String) : Bytes := s.toList.map (fun c => UInt8.ofNat c.toNat)

end SesLabs
