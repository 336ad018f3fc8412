import SesLabs.BitmapTruncated

/-! What the memory handed out by new can do to the written files. The rows of
the cover and the recovered row are cleared before use; the buffer of the hidden
image and the decoder's buffer of the cover are not, and a file that ends inside
its first row leaves them partly unset. -/
namespace SesLabs.BitmapLeak
open RowBuffer BitmapFormat BitmapProgram BitmapEncrypt BitmapDecrypt BitmapPicture BitmapOutputs
  BitmapTruncated

def withHeap (mem : Memory) (heap : Image → Nat → Nat → UInt8) : Memory := ⟨heap,mem.past,mem.stack⟩

def Unset (hidden : Bytes) (k : Nat) : Prop := k < stride (widthOf hidden) ∧ hidden.length ≤ 54+k
instance (hidden k) : Decidable (Unset hidden k) := by unfold Unset; infer_instance

def settledRow (mem : Memory) (hidden : Bytes) (r k : Nat) : UInt8 :=
  if k < stride (widthOf hidden) then (hidden[54+k]?).getD WHITE else mem.past .hiddenText r k

/- Every column with an unset byte that the marking loop looks at and that the
cover has a byte for is coloured by another byte. -/
def HiddenSettled (mem : Memory) (cover hidden : Bytes) : Prop :=
  ∀ r < min (heightOf cover) (heightOf hidden), ∀ c ≤ min (widthOf cover) (widthOf hidden),
    3*c < stride (widthOf cover) → (∃ k < 3, Unset hidden (3*c+k)) → Coloured (settledRow mem hidden r) c
instance (mem cover hidden) : Decidable (HiddenSettled mem cover hidden) := by
  unfold HiddenSettled; infer_instance

def CoverSettled (cover : Bytes) : Prop := heightOf cover = 0 ∨ 54 + 3*widthOf cover ≤ cover.length
instance (cover) : Decidable (CoverSettled cover) := by unfold CoverSettled; infer_instance

def Endless (cover hidden : Bytes) : Prop :=
  0 < min (heightOf cover) (heightOf hidden) ∧ min (widthOf cover) (widthOf hidden) = 65535
instance (cover hidden) : Decidable (Endless cover hidden) := by unfold Endless; infer_instance

section Hidden
variable (mem : Memory) {hidden : Bytes} (heap heap' : Image → Nat → Nat → UInt8)

def hiddenSeen (mem : Memory) (hidden : Bytes) (r : Nat) : Nat → UInt8 :=
  shown mem .hiddenText (stride (widthOf hidden)) (hidden.drop pixelData) r r

theorem seenWhenSet (complete : 54 ≤ hidden.length) {r k : Nat} (set : ¬ Unset hidden k) :
    hiddenSeen (withHeap mem heap) hidden r k = hiddenSeen (withHeap mem heap') hidden r k := by
  unfold hiddenSeen shown
  split
  · rename_i inside
    have reached : k < (hidden.drop pixelData).length := by
      have present : 54+k < hidden.length := by
        by_contra missing
        exact set ⟨inside,Nat.not_lt.mp missing⟩
      rw [rowsLength]
      omega
    exact refillSettled _ reached
  · rfl

theorem seenWhenShort {r j k : Nat} (unset : Unset hidden j) :
    hiddenSeen (withHeap mem heap) hidden r k =
      if k < stride (widthOf hidden) then (hidden[54+k]?).getD (heap .hiddenText 0 k)
      else mem.past .hiddenText r k := by
  have short : (hidden.drop pixelData).length ≤ stride (widthOf hidden) := by
    rw [rowsLength]
    obtain ⟨inside,missing⟩ := unset
    omega
  rw [hiddenSeen,shown,refillShort short,List.getElem?_drop]
  rfl

theorem colouredSettled {r c j : Nat} (unset : Unset hidden j) (coloured : Coloured (settledRow mem hidden r) c) :
    Coloured (hiddenSeen (withHeap mem heap) hidden r) c := by
  have keeps {k : Nat} (other : settledRow mem hidden r k ≠ WHITE) :
      hiddenSeen (withHeap mem heap) hidden r k ≠ WHITE := by
    rw [seenWhenShort mem heap unset]
    unfold settledRow at other
    split
    · rename_i inside
      rw [if_pos inside] at other
      cases found : hidden[54+k]? with
      | none => simp [found] at other
      | some v => simpa [found] using other
    · rename_i behind
      rw [if_neg behind] at other
      exact other
  rcases coloured with blue | green | red
  · exact .inl (keeps blue)
  · exact .inr (.inl (keeps green))
  · exact .inr (.inr (keeps red))

theorem colouredIndependent (complete : 54 ≤ hidden.length) (r c : Nat) :
    (∀ heap heap', Coloured (hiddenSeen (withHeap mem heap) hidden r) c ↔
      Coloured (hiddenSeen (withHeap mem heap') hidden r) c) ↔
    ((∃ k < 3, Unset hidden (3*c+k)) → Coloured (settledRow mem hidden r) c) := by
  refine ⟨?_,?_⟩
  · intro same missing
    obtain ⟨k,small,unset⟩ := missing
    have white : hiddenSeen (withHeap mem (fun _ _ _ => WHITE)) hidden r = settledRow mem hidden r := by
      funext j
      exact seenWhenShort mem _ unset
    have black : Coloured (hiddenSeen (withHeap mem (fun _ _ _ => BLACK)) hidden r) c := by
      by_contra blank
      have byte := (blankIff _ c).mp blank k small
      rw [seenWhenShort mem _ unset,if_pos unset.1,List.getElem?_eq_none unset.2] at byte
      exact absurd byte (by decide)
    rw [← white]
    exact (same _ _).mp black
  · intro settled heap heap'
    rcases Classical.em (∃ k < 3, Unset hidden (3*c+k)) with ⟨k,small,unset⟩ | set
    · have coloured := settled ⟨k,small,unset⟩
      exact iff_of_true (colouredSettled mem heap unset coloured) (colouredSettled mem heap' unset coloured)
    · have byte {k : Nat} (small : k < 3) := seenWhenSet mem heap heap' complete (r := r)
        (fun unset => set ⟨k,small,unset⟩)
      unfold Coloured
      rw [byte (by omega : 1 < 3),byte (by omega : 2 < 3)]
      have first := byte (by omega : 0 < 3)
      rw [Nat.add_zero] at first
      rw [first]

end Hidden

section Files
variable (mem : Memory) {cover hidden : Bytes} (complete : 54 ≤ cover.length)
  (completeHidden : 54 ≤ hidden.length)
include complete completeHidden

theorem stegoIndependent :
    (∀ heap heap', stegoFile .corrected (withHeap mem heap) cover hidden =
      stegoFile .corrected (withHeap mem heap') cover hidden) ↔ HiddenSettled mem cover hidden := by
  have marked (heap) := markedFiles (withHeap mem heap) complete completeHidden
  simp only [stegoEqIff complete,marked]
  refine ⟨?_,?_⟩
  · intro same r row c column inside
    refine (colouredIndependent mem completeHidden r c).mp (fun heap heap' => ?_)
    have here := same heap heap' r (Nat.lt_of_lt_of_le row (Nat.min_le_left _ _)) c inside
    simp only [row,column,true_and] at here
    exact here
  · intro settled heap heap' r _ c inside
    refine and_congr_right (fun row => and_congr_right (fun column => ?_))
    exact (colouredIndependent mem completeHidden r c).mpr (settled r row c column inside) heap heap'

end Files

/- Memory that only the decoder's buffer of the cover is taken from. -/
def probe (ori : UInt8) : Image → Nat → Nat → UInt8
  | .bitmapOri, _, _ => ori
  | _, _, _ => BLACK

theorem probeStego (mem : Memory) (cover hidden : Bytes) (b b' : UInt8) (r k : Nat) :
    stegoByte .corrected (withHeap mem (probe b)) (dims (withHeap mem (probe b)) cover hidden) cover hidden r k =
      stegoByte .corrected (withHeap mem (probe b')) (dims (withHeap mem (probe b')) cover hidden)
        cover hidden r k := rfl

section Text
variable (mem : Memory) {cover : Bytes} (hidden : Bytes) (complete : 54 ≤ cover.length)
include complete

theorem staleSettled (heap heap' : Image → Nat → Nat → UInt8) (reached : 54 + 3*widthOf cover ≤ cover.length)
    (r : Nat) {c : Nat} (column : c < widthOf cover) :
    staleRed (withHeap mem heap) cover r c = staleRed (withHeap mem heap') cover r c := by
  refine refillSettled _ ?_
  rw [rowsLength]
  simp only [Colour.offset]
  omega

theorem staleUnset (heap : Image → Nat → Nat → UInt8) (r : Nat) {c : Nat}
    (missing : cover.length ≤ 54 + 3*c+Colour.red.offset) :
    staleRed (withHeap mem heap) cover r c = heap .bitmapOri 0 (3*c+Colour.red.offset) := by
  refine refillUntouched ?_
  rw [rowsLength]
  omega

theorem foundRed {r k : Nat} (row : r < heightOf cover) :
    foundByte .red mem (sides mem cover (stegoFile .corrected mem cover hidden)) r k =
      if k/3 < widthOf cover ∧ staleRed mem cover r (k/3) ≠ stegoByte .corrected mem (dims mem cover hidden)
        cover hidden r (3*(k/3)+Colour.red.offset) then BLACK else WHITE := by
  unfold foundByte foundLine
  rw [sidesWidth mem complete]
  rcases Nat.lt_or_ge (k/3) (widthOf cover) with column | padding
  · simp only [column,true_and,Differs]
    rw [oriRed mem complete r _ column,modifiedRed complete row column]
  · have outside : ¬ k/3 < widthOf cover := Nat.not_lt.mpr padding
    simp [outside]

theorem textSettled {heap heap' : Image → Nat → Nat → UInt8} (settled : CoverSettled cover)
    (same : stegoFile .corrected (withHeap mem heap) cover hidden =
      stegoFile .corrected (withHeap mem heap') cover hidden) :
    textFile .red (withHeap mem heap) cover (stegoFile .corrected (withHeap mem heap) cover hidden) =
      textFile .red (withHeap mem heap') cover (stegoFile .corrected (withHeap mem heap') cover hidden) := by
  rw [stegoSplit _ _ complete,stegoSplit _ _ complete,List.append_cancel_left_eq,gridEqIff] at same
  have bound := strideBounds (widthOf cover)
  rw [textSplit _ _ complete,textSplit _ _ complete]
  refine congrArg (cover.take 54 ++ ·) (gridCongr (fun r row k _ => ?_))
  rw [foundRed (withHeap mem heap) hidden complete row,foundRed (withHeap mem heap') hidden complete row]
  rcases settled with none | reached
  · omega
  · refine if_congr (and_congr_right (fun column => ?_)) rfl rfl
    rw [staleSettled mem complete heap heap' reached r column,
      same r row _ (by simp only [Colour.offset]; omega)]

theorem probeFound (b : UInt8) (lines : 0 < heightOf cover) {c : Nat} (column : c < widthOf cover)
    (missing : cover.length ≤ 54 + 3*c+Colour.red.offset) :
    foundByte .red (withHeap mem (probe b)) (sides (withHeap mem (probe b)) cover
      (stegoFile .corrected (withHeap mem (probe b)) cover hidden)) 0 (3*c) =
      if b ≠ stegoByte .corrected (withHeap mem (probe 0)) (dims (withHeap mem (probe 0)) cover hidden)
        cover hidden 0 (3*c+Colour.red.offset) then BLACK else WHITE := by
  have index : 3*c/3 = c := by omega
  rw [foundRed (withHeap mem (probe b)) hidden complete lines,index,staleUnset mem complete (probe b) 0 missing,
    probeStego mem cover hidden b 0]
  simp only [column,true_and]
  rfl

theorem settledWhenText (same : ∀ b b', textFile .red (withHeap mem (probe b)) cover
      (stegoFile .corrected (withHeap mem (probe b)) cover hidden) =
    textFile .red (withHeap mem (probe b')) cover (stegoFile .corrected (withHeap mem (probe b')) cover hidden)) :
    CoverSettled cover := by
  rcases Nat.eq_zero_or_pos (heightOf cover) with none | lines
  · exact .inl none
  · right
    by_contra short
    have bound := strideBounds (widthOf cover)
    obtain ⟨c,last⟩ : ∃ c, widthOf cover = c+1 := ⟨widthOf cover-1,by omega⟩
    have column : c < widthOf cover := by omega
    have found (b : UInt8) := probeFound mem hidden complete b lines column
      (by simp only [Colour.offset]; omega)
    generalize stegoByte .corrected (withHeap mem (probe 0)) (dims (withHeap mem (probe 0)) cover hidden)
      cover hidden 0 (3*c+Colour.red.offset) = written at found
    have cells := same written (written+1)
    rw [textSplit _ _ complete,textSplit _ _ complete,List.append_cancel_left_eq,gridEqIff] at cells
    have here := cells 0 lines (3*c) (by omega)
    rw [found,found,if_neg (not_not.mpr rfl),if_pos (by simp)] at here
    exact absurd here (by decide)

end Text

section Ends
variable {cover hidden : Bytes}

theorem endlessStuck (endless : Endless cover hidden) (fuel : Nat) :
    ¬ Suffices .corrected fuel ⟨widthOf cover,heightOf cover,widthOf hidden,heightOf hidden⟩ := by
  intro enough
  obtain ⟨lines,widest⟩ := endless
  rcases leavesFiles.mp (sufficesLeaves enough) with none | narrow
  · exact Nat.ne_of_gt lines none
  · exact narrow widest

theorem endingSuffices (ending : ¬ Endless cover hidden) : ∃ fuel,
    Suffices .corrected fuel ⟨widthOf cover,heightOf cover,widthOf hidden,heightOf hidden⟩ := by
  refine leavesSuffices (leavesFiles.mpr ?_)
  unfold Endless at ending
  omega

end Ends

theorem memoryIrrelevantIff (mem : Memory) {cover hidden} (complete : 54 ≤ cover.length)
    (completeHidden : 54 ≤ hidden.length) :
    (∀ heap heap' fuel, (main .corrected fuel (withHeap mem heap) cover hidden).result =
      (main .corrected fuel (withHeap mem heap') cover hidden).result) ↔
    Endless cover hidden ∨ (CoverSettled cover ∧ HiddenSettled mem cover hidden) := by
  have ran (heap) (fuel : Nat) := mainResult .corrected fuel (withHeap mem heap) cover hidden
  simp only [dimsFiles _ complete completeHidden] at ran
  rcases Classical.em (Endless cover hidden) with endless | ending
  · refine ⟨fun _ => .inl endless,fun _ heap heap' fuel => ?_⟩
    rw [ran,ran,if_neg (endlessStuck endless fuel),if_neg (endlessStuck endless fuel)]
  · refine ⟨?_,?_⟩
    · intro same
      obtain ⟨fuel,enough⟩ := endingSuffices ending
      have pairs (heap heap') := same heap heap' fuel
      simp only [ran,if_pos enough,Option.some.injEq,Prod.mk.injEq] at pairs
      exact .inr ⟨settledWhenText mem hidden complete (fun b b' => (pairs _ _).2),
        (stegoIndependent mem complete completeHidden).mp (fun heap heap' => (pairs heap heap').1)⟩
    · intro settled heap heap' fuel
      obtain ⟨settledCover,settledHidden⟩ := settled.resolve_left ending
      have same := (stegoIndependent mem complete completeHidden).mpr settledHidden heap heap'
      rw [ran,ran,textSettled mem hidden complete settledCover same,same]

theorem memoryIrrelevantSmall :
    (∀ heap heap' fuel, (main .corrected fuel (withHeap (constantMemory 0 0) heap)
        (smallHeader 1 1 ++ [1,2,3]) (smallHeader 1 1 ++ [7,7,7,7])).result =
      (main .corrected fuel (withHeap (constantMemory 0 0) heap')
        (smallHeader 1 1 ++ [1,2,3]) (smallHeader 1 1 ++ [7,7,7,7])).result) ↔
    Endless (smallHeader 1 1 ++ [1,2,3]) (smallHeader 1 1 ++ [7,7,7,7]) ∨
      (CoverSettled (smallHeader 1 1 ++ [1,2,3]) ∧
        HiddenSettled (constantMemory 0 0) (smallHeader 1 1 ++ [1,2,3]) (smallHeader 1 1 ++ [7,7,7,7])) :=
  memoryIrrelevantIff _ (by decide) (by decide)

theorem memoryDecidesMarks :
    54 ≤ (smallHeader 1 1).length ∧
    (main .corrected 3 (withHeap (constantMemory 0 0) (fun _ _ _ => WHITE)) (smallHeader 1 1 ++ [1,2,3,0])
      (smallHeader 1 1)).result ≠
    (main .corrected 3 (withHeap (constantMemory 0 0) (fun _ _ _ => BLACK)) (smallHeader 1 1 ++ [1,2,3,0])
      (smallHeader 1 1)).result := by
  decide

end SesLabs.BitmapLeak
