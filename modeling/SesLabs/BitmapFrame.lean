import SesLabs.BitmapBounds

/-! What steganographyEncrypt leaves alone. The marking loop of bitmap_corr.C
visits one column more than the two images share; the bytes it finds there are
taken for a pixel, and the bytes there, in the cover row or behind it, change with them. -/
namespace SesLabs.BitmapFrame
open EventRun EventRun.Run RowBuffer BitmapFormat BitmapProgram BitmapEncrypt BitmapTrace BitmapPicture BitmapOutputs
  BitmapRecovery BitmapBounds

def TouchesOnlyOverlap (cover hidden dst : Bytes) : Prop :=
  dst.length = 54 + heightOf cover*stride (widthOf cover) ∧
  ∀ i < dst.length, dst[i]? = cover[i]? ∨
    ∃ r < min (heightOf cover) (heightOf hidden), ∃ c < min (widthOf cover) (widthOf hidden),
      pixelAt hidden r c ≠ some RGB.white ∧
      54 + r*stride (widthOf cover) + 3*c ≤ i ∧ i < 54 + r*stride (widthOf cover) + 3*c + 3
instance (cover hidden dst) : Decidable (TouchesOnlyOverlap cover hidden dst) := by
  unfold TouchesOnlyOverlap; infer_instance

/- modifyPixel changes every byte of the cover it reads: behind a row, an access is a
write to other memory, after which nothing is known of the file. -/
def InCover : Event → Prop
  | .access .bitmap offset count size => offset+count ≤ size
  | _ => True

def TouchesNothingElse (mem : Memory) (cover hidden : Bytes) : Prop :=
  (∀ fuel, (steganographyEncrypt .corrected fuel mem cover hidden).Always InCover) ∧
  ∃ dst, Encrypts .corrected mem cover hidden dst ∧ TouchesOnlyOverlap cover hidden dst

def WhiteBehindOverlap (cover hidden : Bytes) : Prop :=
  3*min (widthOf cover) (widthOf hidden) + 3 ≤ stride (widthOf hidden) ∧
  ∀ r < min (heightOf cover) (heightOf hidden), ∀ k < 3,
    hidden[54 + r*stride (widthOf hidden) + (3*min (widthOf cover) (widthOf hidden) + k)]? = some WHITE
instance (cover hidden) : Decidable (WhiteBehindOverlap cover hidden) := by
  unfold WhiteBehindOverlap; infer_instance

def ExtraColumnHarmless (cover hidden : Bytes) : Prop :=
  min (heightOf cover) (heightOf hidden) = 0 ∨
  (min (widthOf cover) (widthOf hidden) ≠ 65535 ∧ WhiteBehindOverlap cover hidden)
instance (cover hidden) : Decidable (ExtraColumnHarmless cover hidden) := by
  unfold ExtraColumnHarmless; infer_instance

section Files
variable {cover hidden : Bytes}

theorem stegoChanged (v : Version) (mem : Memory) (full : FullLength cover) (hidden : Bytes) {r k : Nat}
    (row : r < heightOf cover) (column : k < stride (widthOf cover)) :
    (stegoFile v mem cover hidden)[54 + r*stride (widthOf cover)+k]? ≠
      cover[54 + r*stride (widthOf cover)+k]? ↔ Marked v mem (dims mem cover hidden) hidden r (k/3) := by
  obtain ⟨_,width,height,laid⟩ := stegoShape v mem (fullComplete full) hidden
  have here := laid r (by rw [height]; exact row) k (by rw [width]; exact column)
  rw [width] at here
  rw [here,coverLaid mem hidden full r row k column]
  unfold stegoByte
  split
  · rename_i marked
    simp [marked,shiftMoves]
  · rename_i unmarked
    simp [unmarked]

theorem extraColumnBlank (mem : Memory) (hidden' : FullLength hidden) {r w : Nat}
    (row : r < heightOf hidden) (inside : 3*w+3 ≤ stride (widthOf hidden)) :
    ¬ Coloured (shown mem .hiddenText (stride (widthOf hidden)) (hidden.drop pixelData) r r) w ↔
      ∀ k < 3, hidden[54 + r*stride (widthOf hidden) + (3*w+k)]? = some WHITE := by
  have laid := laidFull hidden'
  have cell {k : Nat} (small : k < 3) : hidden[54 + r*stride (widthOf hidden) + (3*w+k)]? =
      some (shown mem .hiddenText (stride (widthOf hidden)) (hidden.drop pixelData) r r (3*w+k)) := by
    rw [laidShown laid mem .hiddenText r row (by omega)]
    exact laid r row _ (by omega)
  rw [blankIff]
  refine ⟨?_,?_⟩
  · intro white k small
    rw [cell small,white k small]
  · intro white k small
    exact Option.some.inj ((cell small).symm.trans (white k small))

theorem harmlessLeaves (mem : Memory) (complete : 54 ≤ cover.length) (completeHidden : 54 ≤ hidden.length)
    (harmless : ExtraColumnHarmless cover hidden) : Leaves .corrected (dims mem cover hidden) := by
  rw [dimsFiles mem complete completeHidden]
  exact leavesFiles.mpr (harmless.imp_right And.left)

theorem harmlessUnlessSpurious (mem : Memory) (complete : 54 ≤ cover.length) (completeHidden : 54 ≤ hidden.length)
    (leaves : Leaves .corrected (dims mem cover hidden))
    (white : 0 < min (heightOf cover) (heightOf hidden) → WhiteBehindOverlap cover hidden) :
    ExtraColumnHarmless cover hidden := by
  rw [dimsFiles mem complete completeHidden,leavesFiles] at leaves
  rcases Nat.eq_zero_or_pos (min (heightOf cover) (heightOf hidden)) with none | shared
  · exact .inl none
  · exact leaves.imp_right (fun narrow => ⟨narrow,white shared⟩)

theorem changedInOverlap (mem : Memory) (fullCover : FullLength cover) (fullHidden : FullLength hidden)
    (harmless : ExtraColumnHarmless cover hidden) {r k : Nat} (row : r < heightOf cover)
    (column : k < stride (widthOf cover))
    (changed : (stegoFile .corrected mem cover hidden)[54 + r*stride (widthOf cover)+k]? ≠
      cover[54 + r*stride (widthOf cover)+k]?) :
    r < min (heightOf cover) (heightOf hidden) ∧ k/3 < min (widthOf cover) (widthOf hidden) ∧
      pixelAt hidden r (k/3) ≠ some RGB.white := by
  have complete := fullComplete fullCover
  have marked := (stegoChanged .corrected mem fullCover hidden row column).mp changed
  obtain ⟨shared,last,coloured⟩ := (markedFiles mem complete (fullComplete fullHidden) r (k/3)).mp marked
  rcases Nat.lt_or_eq_of_le last with inner | extra
  · obtain ⟨p,found,test⟩ := overlapMarked .corrected mem complete fullHidden shared inner
    refine ⟨shared,inner,?_⟩
    rw [found]
    exact fun white => test.mp marked (Option.some.inj white)
  · exfalso
    rcases harmless with none | ⟨_,room,white⟩
    · omega
    · rw [extra] at coloured
      exact (extraColumnBlank mem fullHidden (by omega) room).mpr (white r shared) coloured

theorem touchesWhenHarmless (mem : Memory) (fullCover : FullLength cover) (fullHidden : FullLength hidden)
    (harmless : ExtraColumnHarmless cover hidden) :
    ∃ dst, Encrypts .corrected mem cover hidden dst ∧ TouchesOnlyOverlap cover hidden dst := by
  have complete := fullComplete fullCover
  have leaves := harmlessLeaves mem complete (fullComplete fullHidden) harmless
  refine ⟨_,encryptsIff.mpr ⟨leaves,rfl⟩,stegoLength .corrected mem complete hidden,?_⟩
  intro i inside
  rw [stegoLength .corrected mem complete] at inside
  rcases Nat.lt_or_ge i 54 with header | body
  · left
    have start := (stegoShape .corrected mem complete hidden).1
    rw [← List.getElem?_take_of_lt header,start,List.getElem?_take_of_lt header]
  · obtain ⟨r,row,k,column,place⟩ := position (by omega : i-54 < heightOf cover*stride (widthOf cover))
    obtain rfl : i = 54 + r*stride (widthOf cover)+k := by omega
    by_cases same : (stegoFile .corrected mem cover hidden)[54 + r*stride (widthOf cover)+k]? =
        cover[54 + r*stride (widthOf cover)+k]?
    · exact .inl same
    · obtain ⟨shared,inner,pixel⟩ := changedInOverlap mem fullCover fullHidden harmless row column same
      exact .inr ⟨r,shared,k/3,inner,pixel,by omega,by omega⟩

/- Memory that is nowhere white makes a coloured pixel of every column that
reaches behind the hidden row. -/
theorem extraColumnShows (fullHidden : FullLength hidden)
    (spurious : ¬ WhiteBehindOverlap cover hidden) (shared : 0 < min (heightOf cover) (heightOf hidden)) :
    ∃ r < min (heightOf cover) (heightOf hidden),
      Coloured (shown (constantMemory 0 0) .hiddenText (stride (widthOf hidden)) (hidden.drop pixelData) r r)
        (min (widthOf cover) (widthOf hidden)) := by
  by_cases room : 3*min (widthOf cover) (widthOf hidden)+3 ≤ stride (widthOf hidden)
  · by_contra blank
    apply spurious
    refine ⟨room,fun r row => ?_⟩
    exact (extraColumnBlank (constantMemory 0 0) fullHidden (by omega) room).mp (fun h => blank ⟨r,row,h⟩)
  · refine ⟨0,shared,.inr (.inr ?_)⟩
    rw [shown,if_neg (by omega)]
    exact (by decide : (0 : UInt8) ≠ WHITE)

theorem extraColumnApart {s w c : Nat} (r r' : Nat) (column : 3*w < s) (inner : c < w)
    (low : r'*s+3*c ≤ r*s+3*w) (high : r*s+3*w < r'*s+3*c+3) : False := by
  obtain ⟨j,small,place⟩ : ∃ j < 3, r*s+3*w = r'*s+(3*c+j) :=
    ⟨r*s+3*w-(r'*s+3*c),by omega,by omega⟩
  have unique := positionUnique column (by omega) place
  omega

theorem extraColumnChanges (fullCover : FullLength cover) (fullHidden : FullLength hidden)
    (spurious : ¬ WhiteBehindOverlap cover hidden) (shared : 0 < min (heightOf cover) (heightOf hidden))
    (column : 3*min (widthOf cover) (widthOf hidden) < stride (widthOf cover)) :
    ∃ r < heightOf cover, (stegoFile .corrected (constantMemory 0 0) cover hidden)[54 +
      r*stride (widthOf cover)+3*min (widthOf cover) (widthOf hidden)]? ≠
      cover[54 + r*stride (widthOf cover)+3*min (widthOf cover) (widthOf hidden)]? := by
  obtain ⟨r,row,coloured⟩ := extraColumnShows fullHidden spurious shared
  have index : 3*min (widthOf cover) (widthOf hidden)/3 = min (widthOf cover) (widthOf hidden) := by omega
  have marked := (markedFiles (constantMemory 0 0) (fullComplete fullCover) (fullComplete fullHidden) r _).mpr
    ⟨row,Nat.le_refl _,coloured⟩
  have inRows : r < heightOf cover := Nat.lt_of_lt_of_le row (Nat.min_le_left _ _)
  exact ⟨r,inRows,(stegoChanged .corrected (constantMemory 0 0) fullCover hidden inRows column).mpr
    (by rw [index]; exact marked)⟩

theorem blankInside {n s w : Nat} {row : Nat → UInt8} (room : 3*w+3 ≤ n) (blank : ¬ Coloured row w) :
    ColumnInside n s row w :=
  ⟨⟨by omega,.inr ⟨by omega,.inr (by omega)⟩⟩,fun coloured => absurd coloured blank⟩

theorem coverWhenHarmless (mem : Memory) (fullCover : FullLength cover) (fullHidden : FullLength hidden)
    (harmless : ExtraColumnHarmless cover hidden) (fuel : Nat) :
    (steganographyEncrypt .corrected fuel mem cover hidden).Always InCover := by
  have files := dimsFiles mem (fullComplete fullCover) (fullComplete fullHidden)
  have extra : ExtraColumnInside (dims mem cover hidden) (hiddenRow mem (dims mem cover hidden) hidden) := by
    rcases harmless with none | ⟨narrow,room,white⟩
    · refine .inl ?_
      rw [files]
      exact none
    · refine .inr ⟨by rw [files]; exact narrow,?_⟩
      intro r row
      rw [← extraColumnIff,files]
      rw [files] at row
      have shared : r < heightOf hidden := Nat.lt_of_lt_of_le row (Nat.min_le_right _ _)
      have blank := (extraColumnBlank mem fullHidden shared room).mpr (white r row)
      exact blankInside room blank
  intro e found
  have inside := insideWhenExtra extra fuel e found
  cases e with
  | access owner offset count size =>
    cases owner with
    | bitmap => exact inside
    | _ => trivial
  | _ => trivial

theorem whiteWhenTouches (fullCover : FullLength cover) (fullHidden : FullLength hidden)
    (column : 3*min (widthOf cover) (widthOf hidden) < stride (widthOf cover))
    (touches : ∃ dst, Encrypts .corrected (constantMemory 0 0) cover hidden dst ∧
      TouchesOnlyOverlap cover hidden dst) : ExtraColumnHarmless cover hidden := by
  have complete := fullComplete fullCover
  obtain ⟨dst,ran,_,frame⟩ := touches
  obtain ⟨leaves,written⟩ := encryptsIff.mp ran
  rw [written] at frame
  refine harmlessUnlessSpurious _ complete (fullComplete fullHidden) leaves (fun shared => ?_)
  by_contra spurious
  obtain ⟨r,row,changed⟩ := extraColumnChanges fullCover fullHidden spurious shared column
  have inside : 54 + r*stride (widthOf cover)+3*min (widthOf cover) (widthOf hidden) <
      (stegoFile .corrected (constantMemory 0 0) cover hidden).length := by
    rw [stegoLength _ _ complete,Nat.add_assoc]
    exact Nat.add_lt_add_left (positionInside row column) 54
  rcases frame _ inside with same | ⟨r',_,c,inner,_,low,high⟩
  · exact changed same
  · exact extraColumnApart r r' column inner (by omega) (by omega)

theorem whiteWhenInCover (fullCover : FullLength cover) (fullHidden : FullLength hidden)
    (ends : stride (widthOf cover) ≤ 3*min (widthOf cover) (widthOf hidden))
    (leaves : Leaves .corrected (dims (constantMemory 0 0) cover hidden))
    (inside : ∀ fuel, (steganographyEncrypt .corrected fuel (constantMemory 0 0) cover hidden).Always InCover) :
    ExtraColumnHarmless cover hidden := by
  have files := dimsFiles (constantMemory 0 0) (fullComplete fullCover) (fullComplete fullHidden)
  refine harmlessUnlessSpurious _ (fullComplete fullCover) (fullComplete fullHidden) leaves (fun shared => ?_)
  by_contra spurious
  obtain ⟨fuel,enough⟩ := leavesSuffices leaves
  obtain ⟨r,row,coloured⟩ := extraColumnShows fullHidden spurious shared
  have counter : min (widthOf cover) (widthOf hidden)%65536 = min (widthOf cover) (widthOf hidden) := by
    have bound := wordLt cover 18
    have small : min (widthOf cover) (widthOf hidden) ≤ widthOf cover := Nat.min_le_left _ _
    exact Nat.mod_eq_of_lt (Nat.lt_of_le_of_lt small bound)
  have outside : ¬ 3*min (widthOf cover) (widthOf hidden)+1 ≤ stride (widthOf cover) := by omega
  have logged := @memEncryptLines .corrected fuel (constantMemory 0 0) cover hidden enough
    (.access .bitmap (3*min (widthOf cover) (widthOf hidden)) 1 (stride (widthOf cover))) outside
  rw [files] at logged
  refine outside (inside fuel _ (logged.mpr ⟨r,row,_,Nat.lt_succ_self _,?_⟩))
  rw [columnTrace,columnEvents,Dims.widthLoop,if_pos coloured,counter,modifyEvents]
  simp

theorem harmlessWhenTouches (fullCover : FullLength cover) (fullHidden : FullLength hidden)
    (touches : TouchesNothingElse (constantMemory 0 0) cover hidden) : ExtraColumnHarmless cover hidden := by
  obtain ⟨inside,dst,ran,frame⟩ := touches
  rcases Nat.lt_or_ge (3*min (widthOf cover) (widthOf hidden)) (stride (widthOf cover)) with column | ends
  · exact whiteWhenTouches fullCover fullHidden column ⟨dst,ran,frame⟩
  · exact whiteWhenInCover fullCover fullHidden ends (encryptsIff.mp ran).1 inside

end Files

theorem touchesOnlyOverlapIff {cover hidden} (fullCover : FullLength cover) (fullHidden : FullLength hidden) :
    (∀ mem, TouchesNothingElse mem cover hidden) ↔ ExtraColumnHarmless cover hidden :=
  ⟨fun touches => harmlessWhenTouches fullCover fullHidden (touches _),
    fun harmless mem => ⟨coverWhenHarmless mem fullCover fullHidden harmless,
      touchesWhenHarmless mem fullCover fullHidden harmless⟩⟩

theorem touchesOnlyOverlapWide :
    (∀ mem, TouchesNothingElse mem (smallHeader 1 1 ++ [1,2,3,0]) (smallHeader 2 1 ++ [7,7,7,255,255,255,0,0])) ↔
    ExtraColumnHarmless (smallHeader 1 1 ++ [1,2,3,0]) (smallHeader 2 1 ++ [7,7,7,255,255,255,0,0]) :=
  touchesOnlyOverlapIff (by decide) (by decide)

/- A white hidden picture of one pixel changes the second pixel of the cover: the
padding byte of its row is taken for a pixel. -/
theorem paddingTakenForPixel :
    FullLength (smallHeader 2 1 ++ [1,2,3,4,5,6,0,0]) ∧ FullLength (smallHeader 1 1 ++ [255,255,255,0]) ∧
    ¬ ∃ dst, Encrypts .corrected (constantMemory 0 0) (smallHeader 2 1 ++ [1,2,3,4,5,6,0,0])
        (smallHeader 1 1 ++ [255,255,255,0]) dst ∧
      TouchesOnlyOverlap (smallHeader 2 1 ++ [1,2,3,4,5,6,0,0]) (smallHeader 1 1 ++ [255,255,255,0]) dst := by
  refine ⟨by decide,by decide,?_⟩
  intro touches
  exact absurd (whiteWhenTouches (by decide) (by decide) (by decide) touches) (by decide)

/- The container as the format describes it: offset of the pixel array at byte 10,
32-bit width at byte 18, signed 32-bit height at byte 22, negative for top-down. -/
def dataOffset (f : Bytes) : Nat := dwordAt f 10
def fullWidth (f : Bytes) : Nat := dwordAt f 18
def fullHeight (f : Bytes) : Int :=
  if dwordAt f 22 < 0x80000000 then (dwordAt f 22 : Int) else (dwordAt f 22 : Int) - 0x100000000

def WellFormedBmp (f : Bytes) : Prop :=
  wordAt f 0 = 0x4D42 ∧ 40 ≤ dwordAt f 14 ∧ 14 + dwordAt f 14 ≤ dataOffset f ∧
  wordAt f 26 = 1 ∧ wordAt f 28 = 24 ∧ dwordAt f 30 = 0 ∧
  f.length = dataOffset f + (fullHeight f).natAbs*(4*((3*fullWidth f+3)/4))
instance (f) : Decidable (WellFormedBmp f) := by unfold WellFormedBmp; infer_instance

def RespectsContainer (cover dst : Bytes) : Prop :=
  dst.length = cover.length ∧ dst.take (dataOffset cover) = cover.take (dataOffset cover)
instance (cover dst) : Decidable (RespectsContainer cover dst) := by
  unfold RespectsContainer; infer_instance

theorem encryptsShape {v mem cover hidden dst} (complete : 54 ≤ cover.length)
    (ran : Encrypts v mem cover hidden dst) :
    dst.take 54 = cover.take 54 ∧ dst.length = 54 + heightOf cover*stride (widthOf cover) := by
  obtain ⟨_,written⟩ := encryptsIff.mp ran
  rw [written]
  exact ⟨(stegoShape v mem complete hidden).1,stegoLength v mem complete hidden⟩

theorem fullWidthRead {f : Bytes} (narrow : fullWidth f ≤ 65535) : fullWidth f = widthOf f := by
  unfold fullWidth dwordAt at *
  unfold widthOf
  omega

theorem fullHeightRead {f : Bytes} (upright : 0 ≤ fullHeight f) (low : fullHeight f ≤ 65535) :
    (fullHeight f).natAbs = heightOf f := by
  have first := wordLt f 22
  have second := wordLt f (22+2)
  have value : fullHeight f = dwordAt f 22 := by
    unfold fullHeight at upright ⊢
    unfold dwordAt at *
    split
    · rfl
    · rename_i large
      rw [if_neg large] at upright
      omega
  rw [value] at low ⊢
  rw [Int.natAbs_natCast]
  unfold dwordAt at *
  unfold heightOf
  omega

/- The header structures have fixed size and 16-bit dimensions. Their bytes are
always kept; for dimensions that fit, the container is kept exactly when the
pixel array follows the structures directly. -/
theorem containerKeptIff {mem cover hidden dst} (formed : WellFormedBmp cover)
    (ran : Encrypts .corrected mem cover hidden dst) :
    dst.take 54 = cover.take 54 ∧
    (fullWidth cover ≤ 65535 → 0 ≤ fullHeight cover → fullHeight cover ≤ 65535 →
      (RespectsContainer cover dst ↔ dataOffset cover = 54)) := by
  obtain ⟨_,header,offset,_,_,_,length⟩ := formed
  have complete : 54 ≤ cover.length := by omega
  obtain ⟨start,size⟩ := encryptsShape complete ran
  refine ⟨start,?_⟩
  intro width upright height
  rw [fullWidthRead width,fullHeightRead upright height,← strideRule] at length
  refine ⟨?_,?_⟩
  · intro kept
    have equal := kept.1
    omega
  · intro direct
    refine ⟨by omega,?_⟩
    rw [direct]
    exact start

theorem containerKeptSmall :
    (smallHeader 1 1 ++ [101,102,103,100]).take 54 = (smallHeader 1 1 ++ [1,2,3,0]).take 54 ∧
    (RespectsContainer (smallHeader 1 1 ++ [1,2,3,0]) (smallHeader 1 1 ++ [101,102,103,100]) ↔
      dataOffset (smallHeader 1 1 ++ [1,2,3,0]) = 54) := by
  have kept := @containerKeptIff (constantMemory 0 0) (smallHeader 1 1 ++ [1,2,3,0])
    (smallHeader 1 1 ++ [7,7,7,7]) (smallHeader 1 1 ++ [101,102,103,100]) (by decide) ⟨3,by rfl⟩
  exact ⟨kept.1,kept.2 (by decide) (by decide) (by decide)⟩

theorem lengthNotKept {cover : Bytes} (complete : 54 ≤ cover.length)
    (other : cover.length ≠ 54 + heightOf cover*stride (widthOf cover)) :
    ∃ dst, Encrypts .corrected (constantMemory 0 0) cover (smallHeader 0 0) dst ∧
      ¬ RespectsContainer cover dst := by
  have ran : Encrypts .corrected (constantMemory 0 0) cover (smallHeader 0 0)
      (stegoFile .corrected (constantMemory 0 0) cover (smallHeader 0 0)) := by
    refine encryptsIff.mpr ⟨.inl ?_,rfl⟩
    rw [dimsFiles _ complete (by decide)]
    exact Nat.min_zero _
  refine ⟨_,ran,fun kept => other ?_⟩
  rw [← (encryptsShape complete ran).2,kept.1]

def wideHeader : Bytes :=
  [0x42,0x4D,0,0,0,0,0,0,0,0,54,0,0,0,40,0,0,0,1,0,1,0,1,0,0,0,1,0,24,0] ++ List.replicate 24 0

def gapCover : Bytes :=
  [0x42,0x4D,0,0,0,0,0,0,0,0,58,0,0,0,40,0,0,0,1,0,0,0,1,0,0,0,1,0,24,0] ++ List.replicate 32 0

def topDownCover : Bytes :=
  [0x42,0x4D,0,0,0,0,0,0,0,0,54,0,0,0,40,0,0,0,1,0,0,0,255,255,255,255,1,0,24,0] ++ List.replicate 28 0

def wideCover : Bytes := wideHeader ++ List.replicate 196612 0

theorem wideStart : wideCover.take 54 = wideHeader.take 54 := by
  rw [wideCover,List.take_append_of_le_length (by decide)]

theorem wideFields {i : Nat} (inside : i+3 < 54) : dwordAt wideCover i = dwordAt wideHeader i := by
  rw [dwordAt,dwordAt,wordOfPrefix wideStart (by omega),wordOfPrefix wideStart (by omega)]

theorem wideLength : wideCover.length = 196666 := by
  rw [wideCover,List.length_append,List.length_replicate]
  rfl

theorem wideFormed : WellFormedBmp wideCover := by
  rw [WellFormedBmp,dataOffset,fullHeight,fullWidth,wideFields (by omega),wideFields (by omega),
    wideFields (by omega),wideFields (by omega),wideFields (by omega),wordOfPrefix wideStart (by omega),
    wordOfPrefix wideStart (by omega),wordOfPrefix wideStart (by omega),wideLength]
  decide

theorem containerNotKept :
    (WellFormedBmp gapCover ∧ ∃ dst, Encrypts .corrected (constantMemory 0 0) gapCover (smallHeader 0 0) dst ∧
      ¬ RespectsContainer gapCover dst) ∧
    (WellFormedBmp topDownCover ∧ ∃ dst, Encrypts .corrected (constantMemory 0 0) topDownCover
      (smallHeader 0 0) dst ∧ ¬ RespectsContainer topDownCover dst) ∧
    (WellFormedBmp wideCover ∧ ∃ dst, Encrypts .corrected (constantMemory 0 0) wideCover
      (smallHeader 0 0) dst ∧ ¬ RespectsContainer wideCover dst) := by
  refine ⟨⟨by decide,lengthNotKept (by decide) (by decide)⟩,
    ⟨by decide,lengthNotKept (by decide) (by decide)⟩,wideFormed,lengthNotKept ?_ ?_⟩
  · rw [wideLength]
    decide
  · rw [wideLength,heightOf,widthOf,wordOfPrefix wideStart (by omega),wordOfPrefix wideStart (by omega)]
    decide

end SesLabs.BitmapFrame
