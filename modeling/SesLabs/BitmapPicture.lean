import SesLabs.MarkSet
import SesLabs.BitmapDecrypt

/-! The two functions as operations on pictures. A file whose header announces
its rows is a picture of RGB values; steganographyEncrypt embeds a set of marks
into it and steganographyDecrypt reveals the marks it detects, in the sense of
the abstract model of marked pictures. -/
namespace SesLabs.BitmapPicture
open RowBuffer BitmapFormat BitmapProgram BitmapEncrypt BitmapDecrypt MarkSet

def picture (cells : Nat → Nat → UInt8) (p : Nat × Nat) : RGB :=
  ⟨cells p.1 (3*p.2),cells p.1 (3*p.2+1),cells p.1 (3*p.2+2)⟩

def Laid (f : Bytes) (cells : Nat → Nat → UInt8) : Prop :=
  ∀ r < heightOf f, ∀ k < stride (widthOf f), f[54 + r*stride (widthOf f)+k]? = some (cells r k)

theorem laidPixel {f cells} (laid : Laid f cells) {r c : Nat} (row : r < heightOf f)
    (column : c < widthOf f) : pixelAt f r c = some (picture cells (r,c)) := by
  have bound := strideBounds (widthOf f)
  have cell (k : Nat) (hk : k < 3) := laid r row (3*c+k) (by omega)
  exact pixelAtOf (cell 0 (by omega)) (cell 1 (by omega)) (cell 2 (by omega))

theorem shiftNat (v : UInt8) :
    (shift v).toNat = if 100 ≤ v.toNat then v.toNat-100 else v.toNat+100 := by
  have bound := v.toNat_lt
  have order : v ≥ DELTA ↔ 100 ≤ v.toNat := UInt8.le_iff_toNat_le
  unfold shift
  split
  · rename_i high
    rw [if_pos (order.mp high),UInt8.toNat_sub_of_le _ _ high]
    rfl
  · rename_i low
    rw [if_neg (fun h => low (order.mpr h)),UInt8.toNat_add]
    have small : v.toNat < 100 := by
      rw [order] at low
      omega
    have delta : DELTA.toNat = 100 := rfl
    omega

theorem shiftMoves (v : UInt8) : shift v ≠ v := by
  intro same
  have value := shiftNat v
  rw [same] at value
  split at value <;> omega

def shiftRGB (p : RGB) : RGB := ⟨shift p.blue,shift p.green,shift p.red⟩

theorem shiftSeen (colour : Colour) (p : RGB) : (shiftRGB p).get colour ≠ p.get colour := by
  cases colour with
  | blue => exact shiftMoves p.blue
  | green => exact shiftMoves p.green
  | red => exact shiftMoves p.red

theorem pictureGet (cells : Nat → Nat → UInt8) (r c : Nat) (colour : Colour) :
    (picture cells (r,c)).get colour = cells r (3*c+colour.offset) := by
  cases colour <;> rfl

theorem colouredPicture (cells : Nat → Nat → UInt8) (r c : Nat) :
    Coloured (cells r) c ↔ picture cells (r,c) ≠ RGB.white := by
  simp only [Coloured,picture,RGB.white,ne_eq,RGB.mk.injEq]
  tauto

def marks (v : Version) (mem : Memory) (d : Dims) (hiddenSource : Bytes) : Set (Nat × Nat) :=
  {p | Marked v mem d hiddenSource p.1 p.2}

/- Encrypt refines embedding: pixel by pixel, also for the pixels a short
cover did not contain. -/
theorem stegoEmbeds (v : Version) (mem : Memory) (d : Dims) (src hiddenSource : Bytes) :
    picture (stegoByte v mem d src hiddenSource) =
      embed shiftRGB (marks v mem d hiddenSource) (picture (coverByte d src)) := by
  funext p
  have first : 3*p.2/3 = p.2 := by omega
  have second : (3*p.2+1)/3 = p.2 := by omega
  have third : (3*p.2+2)/3 = p.2 := by omega
  by_cases hit : Marked v mem d hiddenSource p.1 p.2
  · have member : p ∈ marks v mem d hiddenSource := hit
    rw [embedMarked member]
    simp only [picture,stegoByte,first,second,third,if_pos hit]
    rfl
  · have member : p ∉ marks v mem d hiddenSource := hit
    rw [embedUnmarked member]
    simp only [picture,stegoByte,first,second,third,if_neg hit]

theorem foundReveals (colour : Colour) (mem : Memory) (s : Sides) {r c : Nat} (column : c < s.width) :
    picture (foundByte colour mem s) (r,c) =
      reveal RGB.black RGB.white
        (detect (fun p => p.get colour) (picture (oriLine mem s)) (picture (modifiedLine mem s))) (r,c) := by
  have first : 3*c/3 = c := by omega
  have second : (3*c+1)/3 = c := by omega
  have third : (3*c+2)/3 = c := by omega
  have test : (r,c) ∈ detect (fun p : RGB => p.get colour) (picture (oriLine mem s)) (picture (modifiedLine mem s)) ↔
      Differs colour (oriLine mem s r) (modifiedLine mem s r) c := by
    simp only [detect,Set.mem_ofPred_eq,pictureGet,Differs]
  by_cases differs : Differs colour (oriLine mem s r) (modifiedLine mem s r) c
  · rw [(revealInk (by decide)).mpr (test.mpr differs)]
    simp only [picture,foundByte,foundLine,first,second,third,column,differs,and_self,if_true]
    rfl
  · rw [revealPaper (fun h => differs (test.mp h))]
    simp only [picture,foundByte,foundLine,first,second,third,column,differs,and_false,if_false]
    rfl

end SesLabs.BitmapPicture
