import SesLabs.BitmapOutputs

/-! What comes back: the hidden picture inside the overlap of the two images, the
same file whatever colour is compared, and the same marks when the recovered
picture is hidden again. -/
namespace SesLabs.BitmapRecovery
open RowBuffer BitmapFormat BitmapProgram BitmapEncrypt BitmapDecrypt BitmapPicture BitmapOutputs MarkSet

def revealed (w : Nat) (marked : Nat → Nat → Prop) [∀ r c, Decidable (marked r c)] (r k : Nat) : UInt8 :=
  if k/3 < w ∧ marked r (k/3) then BLACK else WHITE

theorem revealedCongr {w r k : Nat} {a b : Nat → Nat → Prop} [∀ r c, Decidable (a r c)]
    [∀ r c, Decidable (b r c)] (same : k/3 < w → (a r (k/3) ↔ b r (k/3))) :
    revealed w a r k = revealed w b r k := by
  unfold revealed
  by_cases column : k/3 < w
  · simp only [same column]
  · simp [column]

section Decode
variable (v : Version) (mem mem' : Memory) {cover : Bytes} (hidden : Bytes)

def coverPicture (cover : Bytes) : Nat × Nat → RGB :=
  picture (fun r k => ((cover.drop pixelData)[r*stride (widthOf cover)+k]?).getD 0)

theorem stegoPixel (complete : 54 ≤ cover.length) {r c : Nat} (row : r < heightOf cover)
    (column : c < widthOf cover) : pixelAt (stegoFile v mem cover hidden) r c =
      some (embed shiftRGB (marks v mem (dims mem cover hidden) hidden) (coverPicture cover) (r,c)) := by
  obtain ⟨_,width,height,laid⟩ := stegoShape v mem complete hidden
  rw [laidPixel laid (by rw [height]; exact row) (by rw [width]; exact column),stegoEmbeds,coverPicture,
    ← dimsWidth mem complete hidden]
  rfl

theorem coverLaid (full : FullLength cover) :
    Laid cover (coverByte (dims mem cover hidden) cover) := by
  have laid := laidFull full
  rw [← dimsWidth mem (fullComplete full) hidden] at laid
  exact laid

/- A full-length cover is read back as it was loaded, the written file as it was
written; so the comparison finds the marks, in any colour. -/
theorem detectsMarks (full : FullLength cover) (colour : Colour) {r c : Nat} (row : r < heightOf cover)
    (column : c < widthOf cover) :
    (r,c) ∈ detect (fun p : RGB => p.get colour)
      (picture (oriLine mem' (sides mem' cover (stegoFile v mem cover hidden))))
      (picture (modifiedLine mem' (sides mem' cover (stegoFile v mem cover hidden)))) ↔
    Marked v mem (dims mem cover hidden) hidden r c := by
  have complete := fullComplete full
  have embeds := congrFun (stegoEmbeds v mem (dims mem cover hidden) cover hidden) (r,c)
  have received := stegoReceived v mem complete hidden mem' row column
  generalize stegoFile v mem cover hidden = img2 at *
  have original := oriPicture (coverLaid mem hidden full) complete mem' img2 row column
  rw [detectCongr original received,detectEmbed (shiftSeen colour) embeds]
  rfl

theorem foundMarked (full : FullLength cover) (colour : Colour) {r k : Nat} (row : r < heightOf cover) :
    foundByte colour mem' (sides mem' cover (stegoFile v mem cover hidden)) r k =
      revealed (widthOf cover) (Marked v mem (dims mem cover hidden) hidden) r k := by
  unfold foundByte foundLine revealed
  rw [sidesWidth mem' (fullComplete full)]
  by_cases column : k/3 < widthOf cover
  · have test := detectsMarks v mem mem' hidden full colour row column
    simp only [detect,Set.mem_ofPred_eq,pictureGet] at test
    simp only [column,true_and,Differs,test]
  · simp [column]

theorem textMarked (full : FullLength cover) (colour : Colour) :
    textFile colour mem' cover (stegoFile v mem cover hidden) = cover.take 54 ++
      grid (heightOf cover) (stride (widthOf cover))
        (revealed (widthOf cover) (Marked v mem (dims mem cover hidden) hidden)) := by
  have complete := fullComplete full
  have cells {r k : Nat} (row : r < heightOf cover) := foundMarked v mem mem' hidden full colour (k := k) row
  generalize stegoFile v mem cover hidden = img2 at *
  rw [textSplit colour mem' complete,gridCongr (fun r hr k _ => cells hr)]

theorem recoveredPixel (full : FullLength cover) (colour : Colour) {r c : Nat} (row : r < heightOf cover)
    (column : c < widthOf cover) :
    pixelAt (textFile colour mem' cover (stegoFile v mem cover hidden)) r c =
      some (reveal RGB.black RGB.white (marks v mem (dims mem cover hidden) hidden) (r,c)) := by
  have complete := fullComplete full
  have test := detectsMarks v mem mem' hidden full colour row column
  generalize stegoFile v mem cover hidden = img2 at *
  have same : (r,c) ∈ detect (fun p : RGB => p.get colour) (picture (oriLine mem' (sides mem' cover img2)))
      (picture (modifiedLine mem' (sides mem' cover img2))) ↔
      (r,c) ∈ marks v mem (dims mem cover hidden) hidden := test
  rw [textPixel colour mem' complete img2 row column,revealCongr same]

end Decode

theorem overlapMarked (v : Version) (mem : Memory) {cover hidden : Bytes} (complete : 54 ≤ cover.length)
    (full : FullLength hidden) {r c : Nat} (row : r < min (heightOf cover) (heightOf hidden))
    (column : c < min (widthOf cover) (widthOf hidden)) :
    ∃ p, pixelAt hidden r c = some p ∧ (Marked v mem (dims mem cover hidden) hidden r c ↔ p ≠ RGB.white) := by
  have completeHidden := fullComplete full
  have bound := strideBounds (widthOf hidden)
  have laid := laidFull full
  have cell {k : Nat} (inside : k < stride (widthOf hidden)) :=
    laidShown laid mem .hiddenText r (Nat.lt_of_lt_of_le row (Nat.min_le_right _ _)) inside
  refine ⟨_,laidPixel laid (by omega) (by omega),?_⟩
  rw [← colouredPicture,Marked,Dims.heightLoop,Dims.widthLoop,dimsWidth mem complete,
    dimsHeight mem complete,dimsHiddenWidth mem completeHidden,dimsHiddenHeight mem completeHidden]
  have early : c < columns v (min (widthOf cover) (widthOf hidden)) := by
    cases v <;> simp only [columns] <;> omega
  simp only [row,early,true_and,Coloured]
  rw [cell (by omega),cell (by omega),cell (by omega)]

theorem recoveredInsideOverlap {mem cover hidden img2 text2} (fullCover : FullLength cover)
    (fullHidden : FullLength hidden) (ran : Writes .corrected mem cover hidden img2 text2) {r c : Nat}
    (row : r < min (heightOf cover) (heightOf hidden))
    (column : c < min (widthOf cover) (widthOf hidden)) :
    ∃ p, pixelAt hidden r c = some p ∧
      pixelAt text2 r c = some (if p = RGB.white then RGB.white else RGB.black) := by
  obtain ⟨encrypts,decrypts⟩ := writesIff.mp ran
  obtain ⟨_,stego⟩ := encryptsIff.mp encrypts
  have text := decryptsIff.mp decrypts
  obtain ⟨p,found,test⟩ := overlapMarked .corrected mem (fullComplete fullCover) fullHidden row column
  refine ⟨p,found,?_⟩
  rw [text,stego,recoveredPixel .corrected mem mem hidden fullCover .red (by omega) (by omega)]
  rcases eq_or_ne p RGB.white with white | coloured
  · have absent : (r,c) ∉ marks .corrected mem (dims mem cover hidden) hidden := fun h => test.mp h white
    rw [revealPaper absent,if_pos white]
  · have present : (r,c) ∈ marks .corrected mem (dims mem cover hidden) hidden := test.mpr coloured
    rw [(revealInk (by decide)).mpr present,if_neg coloured]

theorem recoveredInsideSmallOverlap :
    ∃ p, pixelAt (smallHeader 1 2 ++ [255,7,255,0,255,255,255,0]) 0 0 = some p ∧
      pixelAt (smallHeader 2 1 ++ [0,0,0,0,0,0,255,255]) 0 0 =
        some (if p = RGB.white then RGB.white else RGB.black) :=
  @recoveredInsideOverlap (constantMemory 9 9) (smallHeader 2 1 ++ [1,2,3,250,251,252,0,0])
    (smallHeader 1 2 ++ [255,7,255,0,255,255,255,0])
    (smallHeader 2 1 ++ [101,102,103,150,151,152,0,0]) (smallHeader 2 1 ++ [0,0,0,0,0,0,255,255])
    (by decide) (by decide) ⟨3,by rfl⟩ 0 0 (by decide) (by decide)

def Apart (a b : UInt8) : Prop := b.toNat = a.toNat+100 ∨ a.toNat = b.toNat+100
instance (a b) : Decidable (Apart a b) := by unfold Apart; infer_instance

theorem shiftApart (v : UInt8) : Apart v (shift v) := by
  have value := shiftNat v
  unfold Apart
  split at value <;> omega

theorem anyColourDecodes {mem cover hidden dst} (full : FullLength cover)
    (ran : Encrypts .corrected mem cover hidden dst) :
    (∀ r < heightOf cover, ∀ c < widthOf cover, ∃ p q, pixelAt cover r c = some p ∧
      pixelAt dst r c = some q ∧ (q = p ∨ ∀ colour, Apart (p.get colour) (q.get colour))) ∧
    ∀ mem', ∃ text, ∀ colour, (decryptBy colour mem' cover dst).result = some text := by
  obtain ⟨_,stego⟩ := encryptsIff.mp ran
  subst dst
  refine ⟨?_,?_⟩
  · intro r row c column
    refine ⟨_,_,laidPixel (laidFull full) row column,
      stegoPixel .corrected mem hidden (fullComplete full) row column,?_⟩
    by_cases hit : (r,c) ∈ marks .corrected mem (dims mem cover hidden) hidden
    · rw [embedMarked hit]
      refine .inr (fun colour => ?_)
      cases colour <;> exact shiftApart _
    · rw [embedUnmarked hit]
      exact .inl rfl
  · intro mem'
    exact ⟨_,fun colour => (decryptResult colour mem' _ _).trans
      (congrArg some (textMarked .corrected mem mem' hidden full colour))⟩

theorem anyColourDecodesSmall :
    (∀ r < heightOf (smallHeader 1 1 ++ [1,100,200,0]), ∀ c < widthOf (smallHeader 1 1 ++ [1,100,200,0]),
      ∃ p q, pixelAt (smallHeader 1 1 ++ [1,100,200,0]) r c = some p ∧
        pixelAt (smallHeader 1 1 ++ [101,0,100,100]) r c = some q ∧
        (q = p ∨ ∀ colour, Apart (p.get colour) (q.get colour))) ∧
    ∀ mem', ∃ text, ∀ colour, (decryptBy colour mem' (smallHeader 1 1 ++ [1,100,200,0])
      (smallHeader 1 1 ++ [101,0,100,100])).result = some text :=
  @anyColourDecodes (constantMemory 9 9) (smallHeader 1 1 ++ [1,100,200,0])
    (smallHeader 1 1 ++ [5,5,5]) (smallHeader 1 1 ++ [101,0,100,100]) (by decide) ⟨3,by rfl⟩

theorem markedAgain (v : Version) (m1 m2 m3 : Memory) {cover : Bytes} (hidden : Bytes) (full : FullLength cover)
    {r c : Nat} (row : r < heightOf cover) (column : c < widthOf cover) :
    (Marked v m3 (dims m3 cover (textFile .red m2 cover (stegoFile v m1 cover hidden)))
      (textFile .red m2 cover (stegoFile v m1 cover hidden)) r c ↔
    Marked v m1 (dims m1 cover hidden) hidden r c) := by
  have complete := fullComplete full
  have pixel := recoveredPixel v m1 m2 hidden full .red row column
  obtain ⟨_,width,height,_⟩ := textShape .red m2 complete (stegoFile v m1 cover hidden)
  have size := textLength .red m2 complete (stegoFile v m1 cover hidden)
  generalize textFile .red m2 cover (stegoFile v m1 cover hidden) = text at *
  have fullText : FullLength text := by
    rw [FullLength,width,height,size]
  obtain ⟨p,found,test⟩ := overlapMarked v m3 complete fullText
    (by rw [height]; omega : r < min (heightOf cover) (heightOf text))
    (by rw [width]; omega : c < min (widthOf cover) (widthOf text))
  have value : p = reveal RGB.black RGB.white (marks v m1 (dims m1 cover hidden) hidden) (r,c) :=
    Option.some.inj (found.symm.trans pixel)
  have again : (r,c) ∈ drawn RGB.white (reveal RGB.black RGB.white
      (marks v m1 (dims m1 cover hidden) hidden)) ↔ (r,c) ∈ marks v m1 (dims m1 cover hidden) hidden := by
    rw [drawnReveal (by decide)]
  rw [test,value]
  exact again

theorem leavesNarrow (mem : Memory) {cover : Bytes} (hidden : Bytes) (complete : 54 ≤ cover.length)
    (narrow : widthOf cover ≤ 65534) : Leaves .corrected (dims mem cover hidden) := by
  have width := dimsWidth mem complete hidden
  refine (leavesIff (by omega)).mpr (.inr ?_)
  rw [Dims.widthLoop,width]
  omega

theorem reencodingIsStable {cover} (hidden : Bytes) (m1 m2 m3 m4 : Memory) (fullCover : FullLength cover)
    (narrow : widthOf cover ≤ 65534) :
    ∃ stego text stego2, Encrypts .corrected m1 cover hidden stego ∧ Decrypts m2 cover stego text ∧
      Encrypts .corrected m3 cover text stego2 ∧ stego2.take 54 = stego.take 54 ∧
      (∀ r < heightOf cover, ∀ c < widthOf cover,
        ∃ p, pixelAt stego r c = some p ∧ pixelAt stego2 r c = some p) ∧
      Decrypts m4 cover stego2 text := by
  have complete := fullComplete fullCover
  refine ⟨_,_,_,encryptsIff.mpr ⟨leavesNarrow m1 hidden complete narrow,rfl⟩,decryptsIff.mpr rfl,
    encryptsIff.mpr ⟨leavesNarrow m3 _ complete narrow,rfl⟩,?_,?_,decryptsIff.mpr ?_⟩
  · rw [(stegoShape .corrected m3 complete _).1,(stegoShape .corrected m1 complete _).1]
  · intro r row c column
    refine ⟨_,stegoPixel .corrected m1 hidden complete row column,?_⟩
    rw [stegoPixel .corrected m3 _ complete row column]
    exact congrArg some (embedCongr (markedAgain .corrected m1 m2 m3 hidden fullCover row column))
  · refine (textMarked .corrected m1 m2 hidden fullCover .red).trans
      (Eq.trans ?_ (textMarked .corrected m3 m4 _ fullCover .red).symm)
    exact congrArg (cover.take 54 ++ ·) (gridCongr (fun r row k _ =>
      revealedCongr (fun column => (markedAgain .corrected m1 m2 m3 hidden fullCover row column).symm)))

theorem reencodingSmall : ∃ stego text stego2,
    Encrypts .corrected (constantMemory 9 9) (smallHeader 2 1 ++ [1,2,3,4,5,6,0,0])
      (smallHeader 1 1 ++ [7,7,7,7]) stego ∧
    Decrypts (constantMemory 1 1) (smallHeader 2 1 ++ [1,2,3,4,5,6,0,0]) stego text ∧
    Encrypts .corrected (constantMemory 2 2) (smallHeader 2 1 ++ [1,2,3,4,5,6,0,0]) text stego2 ∧
    stego2.take 54 = stego.take 54 ∧
    (∀ r < heightOf (smallHeader 2 1 ++ [1,2,3,4,5,6,0,0]),
      ∀ c < widthOf (smallHeader 2 1 ++ [1,2,3,4,5,6,0,0]),
        ∃ p, pixelAt stego r c = some p ∧ pixelAt stego2 r c = some p) ∧
    Decrypts (constantMemory 3 3) (smallHeader 2 1 ++ [1,2,3,4,5,6,0,0]) stego2 text :=
  reencodingIsStable _ _ _ _ _ (by decide) (by decide)

end SesLabs.BitmapRecovery
