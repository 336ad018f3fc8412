import SesLabs.BitmapPicture

/-! The files the two functions write, as functions of the files they read:
when a run ends, what the written file starts with, how long it is and which
rows it holds. -/
namespace SesLabs.BitmapOutputs
open EventRun EventRun.Run RowBuffer BitmapFormat BitmapProgram BitmapEncrypt BitmapDecrypt BitmapPicture
  MarkSet

def Encrypts (v : Version) (mem : Memory) (cover hidden dst : Bytes) : Prop :=
  ∃ fuel, (steganographyEncrypt v fuel mem cover hidden).result = some dst

def Decrypts (mem : Memory) (ori modified text : Bytes) : Prop :=
  (steganographyDecrypt mem ori modified).result = some text

def Writes (v : Version) (mem : Memory) (cover hidden img2 text2 : Bytes) : Prop :=
  ∃ fuel, (main v fuel mem cover hidden).result = some (img2,text2)

def Leaves (v : Version) (d : Dims) : Prop := d.heightLoop = 0 ∨ columns v d.widthLoop ≤ 65535
instance (v d) : Decidable (Leaves v d) := by unfold Leaves; infer_instance

theorem sufficesLeaves {v fuel d} (enough : Suffices v fuel d) : Leaves v d := enough.imp_right And.left

theorem leavesSuffices {v d} (leaves : Leaves v d) : ∃ fuel, Suffices v fuel d :=
  ⟨columns v d.widthLoop+1,leaves.imp_right (fun fits => ⟨fits,Nat.lt_succ_self _⟩)⟩

theorem leavesIff {d : Dims} (bound : d.width < 65536) :
    Leaves .corrected d ↔ d.heightLoop = 0 ∨ d.widthLoop ≠ 65535 := by
  simp only [Leaves,columns,Dims.widthLoop]
  omega

theorem encryptsIff {v mem cover hidden dst} : Encrypts v mem cover hidden dst ↔
    Leaves v (dims mem cover hidden) ∧ dst = stegoFile v mem cover hidden := by
  unfold Encrypts
  simp only [encryptResult]
  refine ⟨?_,?_⟩
  · intro ran
    obtain ⟨fuel,ran⟩ := ran
    split at ran
    · rename_i enough
      exact ⟨sufficesLeaves enough,(Option.some.inj ran).symm⟩
    · contradiction
  · intro written
    obtain ⟨leaves,same⟩ := written
    obtain ⟨fuel,enough⟩ := leavesSuffices leaves
    exact ⟨fuel,by rw [if_pos enough,same]⟩

theorem decryptsIff {mem ori modified text} :
    Decrypts mem ori modified text ↔ text = textFile .red mem ori modified := by
  rw [Decrypts,steganographyDecrypt,decryptResult,Option.some.injEq,eq_comm]

theorem writesIff {v mem cover hidden img2 text2} : Writes v mem cover hidden img2 text2 ↔
    Encrypts v mem cover hidden img2 ∧ Decrypts mem cover img2 text2 := by
  unfold Writes Encrypts Decrypts
  simp only [main,bindResult,pureResult]
  refine ⟨?_,?_⟩
  · intro ran
    obtain ⟨fuel,ran⟩ := ran
    obtain ⟨dst,first,ran⟩ := Option.bind_eq_some_iff.mp ran
    obtain ⟨text,second,ran⟩ := Option.bind_eq_some_iff.mp ran
    cases Option.some.inj ran
    exact ⟨⟨fuel,first⟩,second⟩
  · intro runs
    obtain ⟨⟨fuel,first⟩,second⟩ := runs
    exact ⟨fuel,by simp [first,second]⟩

theorem mainResult (v : Version) (fuel : Nat) (mem : Memory) (cover hidden : Bytes) :
    (main v fuel mem cover hidden).result =
      if Suffices v fuel (dims mem cover hidden) then
        some (stegoFile v mem cover hidden,textFile .red mem cover (stegoFile v mem cover hidden)) else none := by
  simp only [main,bindResult,pureResult,encryptResult,steganographyDecrypt,decryptResult]
  split
  · rfl
  · rfl

section Dims
variable (mem : Memory) {cover : Bytes} (complete : 54 ≤ cover.length) (hidden : Bytes)
include complete

theorem dimsWidth : (dims mem cover hidden).width = widthOf cover := readWidth _ complete
theorem dimsHeight : (dims mem cover hidden).height = heightOf cover := readHeight _ complete
theorem dimsHiddenWidth (src) : (dims mem src cover).hiddenWidth = widthOf cover := readWidth _ complete
theorem dimsHiddenHeight (src) : (dims mem src cover).hiddenHeight = heightOf cover := readHeight _ complete

end Dims

theorem dimsFiles {cover hidden : Bytes} (mem : Memory) (complete : 54 ≤ cover.length)
    (completeHidden : 54 ≤ hidden.length) :
    dims mem cover hidden = ⟨widthOf cover,heightOf cover,widthOf hidden,heightOf hidden⟩ := by
  rw [← dimsWidth mem complete hidden,← dimsHeight mem complete hidden,
    ← dimsHiddenWidth mem completeHidden cover,← dimsHiddenHeight mem completeHidden cover]

theorem leavesFiles {cover hidden : Bytes} :
    Leaves .corrected ⟨widthOf cover,heightOf cover,widthOf hidden,heightOf hidden⟩ ↔
      min (heightOf cover) (heightOf hidden) = 0 ∨ min (widthOf cover) (widthOf hidden) ≠ 65535 :=
  leavesIff (wordLt cover 18)

theorem encryptEndsIff (mem : Memory) {cover hidden} (complete : 54 ≤ cover.length)
    (completeHidden : 54 ≤ hidden.length) :
    (∃ fuel dst, (steganographyEncrypt .corrected fuel mem cover hidden).result = some dst) ↔
      min (heightOf cover) (heightOf hidden) = 0 ∨ min (widthOf cover) (widthOf hidden) ≠ 65535 := by
  rw [← leavesFiles,← dimsFiles mem complete completeHidden]
  refine ⟨?_,?_⟩
  · intro ends
    obtain ⟨fuel,dst,ran⟩ := ends
    exact (encryptsIff.mp ⟨fuel,ran⟩).1
  · intro leaves
    obtain ⟨fuel,ran⟩ := encryptsIff.mpr ⟨leaves,rfl⟩
    exact ⟨fuel,_,ran⟩

theorem encryptEndsSmall :
    (∃ fuel dst, (steganographyEncrypt .corrected fuel (constantMemory 0 0) (smallHeader 1 1 ++ [1,2,3,0])
      (smallHeader 2 1)).result = some dst) ↔
    min (heightOf (smallHeader 1 1 ++ [1,2,3,0])) (heightOf (smallHeader 2 1)) = 0 ∨
      min (widthOf (smallHeader 1 1 ++ [1,2,3,0])) (widthOf (smallHeader 2 1)) ≠ 65535 :=
  encryptEndsIff _ (by decide) (by decide)

def widestHeader : Bytes :=
  [0x42,0x4D,0,0,0,0,0,0,0,0,54,0,0,0,40,0,0,0,255,255,0,0,1,0,0,0,1,0,24,0] ++ List.replicate 24 0

def widestPicture : Bytes := widestHeader ++ List.replicate 196608 0

theorem widestLength : widestPicture.length = 196662 := by
  rw [widestPicture,List.length_append,List.length_replicate]
  rfl

theorem widestDims : widthOf widestPicture = 65535 ∧ heightOf widestPicture = 1 := by
  have start : widestPicture.take 54 = widestHeader.take 54 := by
    rw [widestPicture,List.take_append_of_le_length (by decide)]
  rw [widthOf,heightOf,wordOfPrefix start (by omega),wordOfPrefix start (by omega)]
  decide

/- Hiding it in itself never ends: the counter goes from 65535 back to 0. -/
theorem widestNeverEnds : FullLength widestPicture ∧
    ¬ ∃ fuel dst, (steganographyEncrypt .corrected fuel (constantMemory 0 0) widestPicture widestPicture).result =
      some dst := by
  obtain ⟨width,height⟩ := widestDims
  have complete : 54 ≤ widestPicture.length := by
    rw [widestLength]
    decide
  refine ⟨?_,?_⟩
  · rw [FullLength,width,height,widestLength]
    decide
  · intro ends
    obtain ⟨fuel,dst,ran⟩ := ends
    have leaves := (encryptsIff.mp ⟨fuel,ran⟩).1
    rw [dimsFiles _ complete complete,leavesFiles,width,height] at leaves
    omega

theorem fullComplete {f : Bytes} (full : FullLength f) : 54 ≤ f.length := by
  unfold FullLength at full
  omega

theorem laidGrid {f g head : Bytes} {cells : Nat → Nat → UInt8} (same : head = g.take 54)
    (complete : 54 ≤ g.length)
    (shape : f = head ++ grid (heightOf g) (stride (widthOf g)) cells) :
    f.take 54 = g.take 54 ∧ widthOf f = widthOf g ∧ heightOf f = heightOf g ∧ Laid f cells := by
  have size : head.length = 54 := by rw [same,List.length_take]; omega
  have start : f.take 54 = g.take 54 := by rw [shape,← same,List.take_left' size]
  have width : widthOf f = widthOf g := wordOfPrefix start (by omega)
  have height : heightOf f = heightOf g := wordOfPrefix start (by omega)
  refine ⟨start,width,height,?_⟩
  intro r hr k hk
  rw [height] at hr
  rw [width] at hk ⊢
  have place : 54 + r*stride (widthOf g)+k - head.length = r*stride (widthOf g)+k := by omega
  rw [shape,List.getElem?_append_right (by omega),place]
  exact gridAt hr hk

theorem laidFull {f : Bytes} (full : FullLength f) :
    Laid f (fun r k => ((f.drop pixelData)[r*stride (widthOf f)+k]?).getD 0) := by
  intro r hr k hk
  have inside := positionInside hr hk
  have available : 54 + r*stride (widthOf f)+k < f.length := by
    unfold FullLength at full
    omega
  simp only [rowByte,List.getElem?_eq_getElem available,Option.getD_some]

theorem laidShown {f cells} (laid : Laid f cells) (mem : Memory) (image : Image) (moment : Nat) {r k : Nat}
    (row : r < heightOf f) (column : k < stride (widthOf f)) :
    shown mem image (stride (widthOf f)) (f.drop pixelData) moment r k = cells r k := by
  rw [shown,if_pos column]
  exact refillAvailable (by rw [rowByte]; exact laid r row k column)

theorem oriPicture {ori cells} (laid : Laid ori cells) (complete : 54 ≤ ori.length) (mem : Memory)
    (modified : Bytes) {r c : Nat} (row : r < heightOf ori) (column : c < widthOf ori) :
    picture (oriLine mem (sides mem ori modified)) (r,c) = picture cells (r,c) := by
  have bound := strideBounds (widthOf ori)
  have size : (sides mem ori modified).n = stride (widthOf ori) := congrArg stride (readWidth _ complete)
  have cell {k : Nat} (inside : k < stride (widthOf ori)) :
      oriLine mem (sides mem ori modified) r k = cells r k := by
    rw [oriLine,size]
    exact laidShown laid mem .bitmapOri _ row inside
  simp only [picture]
  rw [cell (by omega),cell (by omega),cell (by omega)]

theorem modifiedPicture {modified cells} (laid : Laid modified cells) (complete : 54 ≤ modified.length)
    (mem : Memory) (ori : Bytes) {r c : Nat} (row : r < heightOf modified) (column : c < widthOf modified) :
    picture (modifiedLine mem (sides mem ori modified)) (r,c) = picture cells (r,c) := by
  have bound := strideBounds (widthOf modified)
  have size : (sides mem ori modified).m = stride (widthOf modified) := congrArg stride (readWidth _ complete)
  have cell {k : Nat} (inside : k < stride (widthOf modified)) :
      modifiedLine mem (sides mem ori modified) r k = cells r k := by
    rw [modifiedLine,size]
    exact laidShown laid mem .bitmapModified _ row inside
  simp only [picture]
  rw [cell (by omega),cell (by omega),cell (by omega)]

section Stego
variable (v : Version) (mem : Memory) {cover : Bytes} (complete : 54 ≤ cover.length) (hidden : Bytes)
include complete

theorem stegoShape : (stegoFile v mem cover hidden).take 54 = cover.take 54 ∧
    widthOf (stegoFile v mem cover hidden) = widthOf cover ∧
    heightOf (stegoFile v mem cover hidden) = heightOf cover ∧
    Laid (stegoFile v mem cover hidden) (stegoByte v mem (dims mem cover hidden) cover hidden) := by
  apply laidGrid (readBytes _ complete) complete
  rw [stegoFile,dimsWidth mem complete,dimsHeight mem complete]

theorem stegoLength : (stegoFile v mem cover hidden).length =
    54 + heightOf cover*stride (widthOf cover) := by
  rw [stegoFile,List.length_append,headersLength,gridLength,dimsWidth mem complete,dimsHeight mem complete]

theorem stegoSplit : stegoFile v mem cover hidden = cover.take 54 ++ grid (heightOf cover)
    (stride (widthOf cover)) (stegoByte v mem (dims mem cover hidden) cover hidden) := by
  rw [stegoFile,readBytes _ complete,dimsWidth mem complete,dimsHeight mem complete]

theorem stegoReceived (mem' : Memory) {r c : Nat} (row : r < heightOf cover) (column : c < widthOf cover) :
    picture (modifiedLine mem' (sides mem' cover (stegoFile v mem cover hidden))) (r,c) =
      picture (stegoByte v mem (dims mem cover hidden) cover hidden) (r,c) := by
  obtain ⟨_,width,height,laid⟩ := stegoShape v mem complete hidden
  have size : 54 ≤ (stegoFile v mem cover hidden).length := by
    rw [stegoLength v mem complete]
    omega
  generalize stegoFile v mem cover hidden = img2 at *
  exact modifiedPicture laid size mem' cover (by rw [height]; exact row) (by rw [width]; exact column)

end Stego

theorem markedFiles {cover hidden : Bytes} (mem : Memory) (complete : 54 ≤ cover.length)
    (completeHidden : 54 ≤ hidden.length) (r c : Nat) :
    Marked .corrected mem (dims mem cover hidden) hidden r c ↔
      r < min (heightOf cover) (heightOf hidden) ∧ c ≤ min (widthOf cover) (widthOf hidden) ∧
      Coloured (shown mem .hiddenText (stride (widthOf hidden)) (hidden.drop pixelData) r r) c := by
  rw [dimsFiles mem complete completeHidden,Marked,Dims.heightLoop,Dims.widthLoop,columns,Nat.lt_succ_iff]

theorem shiftEqIff {p q : Prop} [Decidable p] [Decidable q] (v : UInt8) :
    ((if p then shift v else v) = if q then shift v else v) ↔ (p ↔ q) := by
  have moves := shiftMoves v
  split <;> split <;> simp [*,moves.symm]

theorem stegoEqIff {v v' : Version} {mem mem' : Memory} {cover hidden : Bytes} (complete : 54 ≤ cover.length) :
    stegoFile v mem cover hidden = stegoFile v' mem' cover hidden ↔
      ∀ r < heightOf cover, ∀ c, 3*c < stride (widthOf cover) →
        (Marked v mem (dims mem cover hidden) hidden r c ↔
          Marked v' mem' (dims mem' cover hidden) hidden r c) := by
  have width := dimsWidth mem complete hidden
  have width' := dimsWidth mem' complete hidden
  rw [stegoSplit v mem complete,stegoSplit v' mem' complete,List.append_cancel_left_eq,gridEqIff]
  generalize dims mem cover hidden = d at *
  generalize dims mem' cover hidden = d' at *
  simp only [stegoByte,coverByte,width,width',shiftEqIff]
  refine ⟨?_,?_⟩
  · intro same r row c column
    have index : 3*c/3 = c := by omega
    have here := same r row (3*c) column
    rwa [index] at here
  · intro same r row k column
    exact same r row (k/3) (by omega)

section Text
variable (colour : Colour) (mem : Memory) {cover : Bytes} (complete : 54 ≤ cover.length) (modified : Bytes)
include complete

theorem sidesWidth : (sides mem cover modified).width = widthOf cover := readWidth _ complete
theorem sidesHeight : (sides mem cover modified).height = heightOf cover := readHeight _ complete
theorem sidesOri : (sides mem cover modified).n = stride (widthOf cover) :=
  congrArg stride (readWidth _ complete)
theorem sidesModified (ori) : (sides mem ori cover).m = stride (widthOf cover) :=
  congrArg stride (readWidth _ complete)

theorem textShape : (textFile colour mem cover modified).take 54 = cover.take 54 ∧
    widthOf (textFile colour mem cover modified) = widthOf cover ∧
    heightOf (textFile colour mem cover modified) = heightOf cover ∧
    Laid (textFile colour mem cover modified) (foundByte colour mem (sides mem cover modified)) := by
  apply laidGrid (readBytes _ complete) complete
  rw [textFile,sidesHeight mem complete,sidesOri mem complete]

theorem textPixel {r c : Nat} (row : r < heightOf cover) (column : c < widthOf cover) :
    pixelAt (textFile colour mem cover modified) r c = some (reveal RGB.black RGB.white
      (detect (fun p => p.get colour) (picture (oriLine mem (sides mem cover modified)))
        (picture (modifiedLine mem (sides mem cover modified)))) (r,c)) := by
  obtain ⟨_,width,height,laid⟩ := textShape colour mem complete modified
  have inside : c < (sides mem cover modified).width := by
    rw [sidesWidth mem complete]
    exact column
  rw [laidPixel laid (by rw [height]; exact row) (by rw [width]; exact column),
    foundReveals colour mem _ inside]

theorem textLength : (textFile colour mem cover modified).length =
    54 + heightOf cover*stride (widthOf cover) := by
  rw [textFile,List.length_append,headersLength,gridLength,sidesHeight mem complete,sidesOri mem complete]

theorem textSplit : textFile colour mem cover modified = cover.take 54 ++ grid (heightOf cover)
    (stride (widthOf cover)) (foundByte colour mem (sides mem cover modified)) := by
  rw [textFile,readBytes _ complete,sidesHeight mem complete,sidesOri mem complete]

end Text

end SesLabs.BitmapOutputs
