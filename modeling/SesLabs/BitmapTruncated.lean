import SesLabs.BitmapTrace
import SesLabs.BitmapOutputs

/-! Covers that end before their last row. steganographyEncrypt loads them into
zeroed rows; steganographyDecrypt goes through them with one buffer that it does
not clear, so that behind the end of the file it still shows the row before. -/
namespace SesLabs.BitmapTruncated
open EventRun EventRun.Run RowBuffer BitmapFormat BitmapProgram BitmapEncrypt BitmapDecrypt BitmapTrace
  BitmapPicture BitmapOutputs MarkSet

theorem modifyNotRead {n r c t : Nat} {row : Nat → UInt8} : Event.modifyPixel r c ∉ readEvents n row t := by
  unfold readEvents
  split
  · simp
  · split <;> simp

theorem modifyInColumn {n s h r c pRow t : Nat} {row : Nat → UInt8} :
    .modifyPixel r c ∈ columnEvents n s h row pRow t ↔ Coloured row t ∧ r = pRow ∧ c = t%65536 := by
  rw [columnEvents,List.mem_append,or_iff_right modifyNotRead]
  split
  · rename_i coloured
    simp [modifyEvents,coloured]
  · rename_i blank
    simp [blank]

/- The pixels passed to modifyPixel are the marked ones, each in its own column:
a loop that ends has not used a value of its counter twice. -/
theorem modifyIffMarked {v fuel mem src hidden} (enough : Suffices v fuel (dims mem src hidden)) (r c : Nat) :
    .modifyPixel r c ∈ (steganographyEncrypt v fuel mem src hidden).log ↔
      Marked v mem (dims mem src hidden) hidden r c := by
  rw [memEncryptLines v fuel mem src hidden enough (e := .modifyPixel r c) (fun ordinary => ordinary)]
  generalize dims mem src hidden = d at *
  have once {r' c' : Nat} (row : r' < d.heightLoop) (column : c' < columns v d.widthLoop) : c'%65536 = c' := by
    rcases enough with none | ⟨fits,_⟩
    · omega
    · omega
  simp only [columnTrace,modifyInColumn,Marked]
  refine ⟨?_,?_⟩
  · intro found
    obtain ⟨r',row,c',column,coloured,same,counter⟩ := found
    rw [once row column] at counter
    subst r' c'
    exact ⟨row,column,coloured⟩
  · intro marked
    obtain ⟨row,column,coloured⟩ := marked
    exact ⟨r,row,c,column,coloured,rfl,(once row column).symm⟩

def staleRed (mem : Memory) (cover : Bytes) (r c : Nat) : UInt8 :=
  refill (stride (widthOf cover)) (cover.drop pixelData) (mem.heap .bitmapOri 0) (r+1) (3*c+Colour.red.offset)

/- Behind the end of the cover a marked pixel must not show DELTA there by chance,
and any other must show zero. -/
def TailAgrees (mem : Memory) (cover hidden : Bytes) : Prop :=
  ∀ r < heightOf cover, ∀ c < widthOf cover,
    cover.length ≤ 54 + r*stride (widthOf cover) + 3*c+Colour.red.offset →
      if Marked .corrected mem (dims mem cover hidden) hidden r c then staleRed mem cover r c ≠ DELTA
      else staleRed mem cover r c = 0
instance (mem cover hidden) : Decidable (TailAgrees mem cover hidden) := by
  unfold TailAgrees; infer_instance

def PaintsModified (fuel : Nat) (mem : Memory) (cover hidden text2 : Bytes) : Prop :=
  ∀ r < heightOf cover, ∀ c < widthOf cover, (pixelAt text2 r c = some RGB.black ↔
    .modifyPixel r c ∈ (steganographyEncrypt .corrected fuel mem cover hidden).log)
instance (fuel mem cover hidden text2) : Decidable (PaintsModified fuel mem cover hidden text2) := by
  unfold PaintsModified; infer_instance

theorem seenIff {marked : Prop} [Decidable marked] {stale : UInt8} {cell : Option UInt8}
    (reads : ∀ v, cell = some v → stale = v) :
    ((stale ≠ if marked then shift (cell.getD 0) else cell.getD 0) ↔ marked) ↔
      (cell = none → if marked then stale ≠ DELTA else stale = 0) := by
  cases cell with
  | some v =>
    have same := reads v rfl
    subst stale
    split
    · rename_i hit
      simp [hit,(shiftMoves v).symm]
    · rename_i miss
      simp [miss]
  | none =>
    split
    · rename_i hit
      simp [hit]
      rfl
    · rename_i miss
      simp [miss]

section Red
variable (mem : Memory) {cover : Bytes} (complete : 54 ≤ cover.length) (hidden : Bytes) (r : Nat)
include complete

theorem oriRed (modified : Bytes) {c : Nat} (column : c < widthOf cover) :
    oriLine mem (sides mem cover modified) r (3*c+Colour.red.offset) = staleRed mem cover r c := by
  have bound := strideBounds (widthOf cover)
  have inside : 3*c+Colour.red.offset < stride (widthOf cover) := by
    simp only [Colour.offset]
    omega
  rw [oriLine,sidesOri mem complete,shown,if_pos inside]
  rfl

theorem stegoRed (c : Nat) :
    stegoByte .corrected mem (dims mem cover hidden) cover hidden r (3*c+Colour.red.offset) =
      if Marked .corrected mem (dims mem cover hidden) hidden r c then
        shift ((cover[54 + r*stride (widthOf cover) + 3*c+Colour.red.offset]?).getD 0)
      else (cover[54 + r*stride (widthOf cover) + 3*c+Colour.red.offset]?).getD 0 := by
  have index : (3*c+Colour.red.offset)/3 = c := by
    simp only [Colour.offset]
    omega
  rw [stegoByte,index,coverByte,dimsWidth mem complete,rowByte,← Nat.add_assoc]

end Red

section Pixel
variable {mem : Memory} {cover hidden : Bytes} (complete : 54 ≤ cover.length) {r c : Nat}
  (row : r < heightOf cover) (column : c < widthOf cover)
include complete row column

theorem paintedIff (modified : Bytes) : pixelAt (textFile .red mem cover modified) r c = some RGB.black ↔
    Differs .red (oriLine mem (sides mem cover modified) r) (modifiedLine mem (sides mem cover modified) r) c := by
  rw [textPixel .red mem complete modified row column,Option.some.injEq,revealInk (by decide)]
  simp only [detect,Set.mem_ofPred_eq,pictureGet,Differs]

theorem modifiedRed :
    modifiedLine mem (sides mem cover (stegoFile .corrected mem cover hidden)) r (3*c+Colour.red.offset) =
      stegoByte .corrected mem (dims mem cover hidden) cover hidden r (3*c+Colour.red.offset) := by
  have received := stegoReceived .corrected mem complete hidden mem row column
  have red := congrArg (fun p : RGB => p.get .red) received
  simpa only [pictureGet] using red

/- A pixel the cover holds is read back as it was loaded; one it does not hold
was loaded as zero and is read back as whatever the buffer shows. -/
theorem paintedAgrees :
    (pixelAt (textFile .red mem cover (stegoFile .corrected mem cover hidden)) r c = some RGB.black ↔
      Marked .corrected mem (dims mem cover hidden) hidden r c) ↔
    (cover.length ≤ 54 + r*stride (widthOf cover) + 3*c+Colour.red.offset →
      if Marked .corrected mem (dims mem cover hidden) hidden r c then staleRed mem cover r c ≠ DELTA
      else staleRed mem cover r c = 0) := by
  rw [paintedIff complete row column,Differs,oriRed mem complete r _ column,
    modifiedRed complete row column,stegoRed mem complete]
  have reads : ∀ v, cover[54 + r*stride (widthOf cover) + 3*c+Colour.red.offset]? = some v →
      staleRed mem cover r c = v := by
    intro v found
    exact refillAvailable (by rw [rowByte,← Nat.add_assoc]; exact found)
  rw [seenIff reads,List.getElem?_eq_none_iff]

end Pixel

theorem paintsModifiedIff {fuel mem cover hidden img2 text2} (complete : 54 ≤ cover.length)
    (ran : (main .corrected fuel mem cover hidden).result = some (img2,text2)) :
    PaintsModified fuel mem cover hidden text2 ↔ TailAgrees mem cover hidden := by
  rw [mainResult] at ran
  split at ran
  · rename_i enough
    obtain ⟨_,rfl⟩ := Prod.mk.inj (Option.some.inj ran)
    unfold PaintsModified TailAgrees
    refine forall_congr' (fun r => forall_congr' (fun row => forall_congr' (fun c => forall_congr'
      (fun column => ?_))))
    rw [modifyIffMarked enough]
    exact paintedAgrees complete row column
  · cases ran

theorem paintsModifiedTruncated :
    PaintsModified 3 (constantMemory 0 0) (smallHeader 1 2 ++ [1,2,0]) (smallHeader 1 1 ++ [7,7,7,7])
      (smallHeader 1 2 ++ [0,0,0,255,255,255,255,255]) ↔
    TailAgrees (constantMemory 0 0) (smallHeader 1 2 ++ [1,2,0]) (smallHeader 1 1 ++ [7,7,7,7]) :=
  @paintsModifiedIff 3 (constantMemory 0 0) (smallHeader 1 2 ++ [1,2,0]) (smallHeader 1 1 ++ [7,7,7,7])
    (smallHeader 1 2 ++ [101,102,100,100,0,0,0,0]) _ (by decide) (by rfl)

theorem missingRowPainted :
    (main .corrected 1 (constantMemory 0 0) (smallHeader 1 2 ++ [1,2,3,0]) (smallHeader 0 0)).result =
      some (smallHeader 1 2 ++ [1,2,3,0,0,0,0,0],smallHeader 1 2 ++ [255,255,255,255,0,0,0,255]) ∧
    ¬ PaintsModified 1 (constantMemory 0 0) (smallHeader 1 2 ++ [1,2,3,0]) (smallHeader 0 0)
      (smallHeader 1 2 ++ [255,255,255,255,0,0,0,255]) := by
  refine ⟨by rfl,by decide⟩

end SesLabs.BitmapTruncated
