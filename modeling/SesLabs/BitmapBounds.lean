import SesLabs.BitmapTrace
import SesLabs.BitmapRecovery

/-! Which accesses leave their buffers. Inside the overlap none does; the column
behind it, which bitmap_corr.C still visits and bitmap.C visits together with a
further one, depends on the widths, the padding and the data. -/
namespace SesLabs.BitmapBounds
open EventRun EventRun.Run RowBuffer BitmapFormat BitmapProgram BitmapEncrypt BitmapDecrypt BitmapTrace
  BitmapPicture BitmapOutputs BitmapRecovery

def ReadsInside (n : Nat) (row : Nat → UInt8) (c : Nat) : Prop :=
  3*c < n ∧ (row (3*c) ≠ WHITE ∨ (3*c+1 < n ∧ (row (3*c+1) ≠ WHITE ∨ 3*c+2 < n)))

def ColumnInside (n s : Nat) (row : Nat → UInt8) (c : Nat) : Prop :=
  ReadsInside n row c ∧ (Coloured row c → 3*(c%65536)+2 < s)

section Columns
variable {n s h : Nat} {row : Nat → UInt8}

theorem accessInside (owner : Image) (k n : Nat) : (Event.access owner k 1 n).InBounds ↔ k < n := Iff.rfl

theorem readsInsideIff (c : Nat) : (∀ e ∈ readEvents n row c, e.InBounds) ↔ ReadsInside n row c := by
  unfold readEvents ReadsInside
  split
  · rename_i blue
    simp [accessInside,blue]
  · rename_i blue
    split
    · rename_i green
      simp [accessInside,not_not.mp blue,green]
    · rename_i green
      simp [accessInside,not_not.mp blue,not_not.mp green]

theorem modifyInside (c : Nat) : (∀ e ∈ modifyEvents s c, e.InBounds) ↔ 3*c+2 < s := by
  simp only [modifyEvents,List.forall_mem_cons,Event.InBounds]
  simp
  omega

theorem columnInsideIff {pRow : Nat} (table : pRow < h) (c : Nat) :
    (∀ e ∈ columnEvents n s h row pRow c, e.InBounds) ↔ ColumnInside n s row c := by
  rw [columnEvents,List.forall_mem_append,readsInsideIff,ColumnInside]
  split
  · rename_i coloured
    rw [List.forall_mem_cons,List.forall_mem_cons,modifyInside]
    simp [Event.InBounds,table,coloured]
  · rename_i blank
    simp [blank]

end Columns

def FileInside (mem : Memory) (d : Dims) (hidden : Bytes) (r c : Nat) : Prop :=
  ColumnInside (stride d.hiddenWidth) (stride d.width)
    (shown mem .hiddenText (stride d.hiddenWidth) (hidden.drop pixelData) r r) c

section Encrypt
variable {v : Version} {fuel : Nat} {mem : Memory} {src hidden : Bytes}

theorem columnTraceIff (d : Dims) {r : Nat} (row : r < d.heightLoop) (c : Nat) :
    (∀ e ∈ columnTrace mem hidden d r c, e.InBounds) ↔ FileInside mem d hidden r c :=
  columnInsideIff (Nat.lt_of_lt_of_le row (Nat.min_le_left _ _)) c

theorem alwaysInside {α : Type} {x : Run Event α} {Q : Event → Prop}
    (trace : ∀ e, ¬ Ordinary e → (e ∈ x.log ↔ Q e)) :
    x.Always Event.InBounds ↔ ∀ e, Q e → e.InBounds := by
  refine ⟨?_,?_⟩
  · intro all e found
    by_contra out
    exact out (all e ((trace e (fun plain => out (ordinaryInBounds plain))).mpr found))
  · intro inside e found
    by_contra out
    exact out (inside e ((trace e (fun plain => out (ordinaryInBounds plain))).mp found))

theorem encryptInside (enough : Suffices v fuel (dims mem src hidden)) :
    (steganographyEncrypt v fuel mem src hidden).Always Event.InBounds ↔
      ∀ r < (dims mem src hidden).heightLoop, ∀ c < columns v (dims mem src hidden).widthLoop,
        FileInside mem (dims mem src hidden) hidden r c := by
  rw [alwaysInside (fun e unusual => memEncryptLines v fuel mem src hidden enough unusual)]
  refine ⟨?_,?_⟩
  · intro all r row c column
    exact (columnTraceIff _ row c).mp (fun e found => all e ⟨r,row,c,column,found⟩)
  · intro inside e found
    obtain ⟨r,row,c,column,found⟩ := found
    exact (columnTraceIff _ row c).mpr (inside r row c column) e found

theorem encryptStuckInside (stuck : ¬ Suffices v fuel (dims mem src hidden)) :
    (steganographyEncrypt v fuel mem src hidden).Always Event.InBounds ↔
      ∀ c < fuel, (65535 < columns v (dims mem src hidden).widthLoop ∨
        c < columns v (dims mem src hidden).widthLoop) →
        FileInside mem (dims mem src hidden) hidden 0 c := by
  have lines := Nat.pos_of_ne_zero (not_or.mp stuck).1
  rw [alwaysInside (fun e unusual => memEncryptStuck v fuel mem src hidden stuck unusual)]
  refine ⟨?_,?_⟩
  · intro all c fueled column
    exact (columnTraceIff _ lines c).mp (fun e found => all e ⟨c,fueled,column,found⟩)
  · intro inside e found
    obtain ⟨c,fueled,column,found⟩ := found
    exact (columnTraceIff _ lines c).mpr (inside c fueled column) e found

end Encrypt

/- The hidden row r as the program gets it: the bytes of the file, where it ends
early the last byte read at the same index, and before that what memory held. -/
def hiddenRow (mem : Memory) (d : Dims) (hidden : Bytes) (r : Nat) : Nat → UInt8 :=
  refill (stride d.hiddenWidth) (hidden.drop pixelData) (mem.heap .hiddenText 0) (r+1)

/- Equal widths: three bytes of padding hold the extra column. A wider hidden
image: its pixel there is white or the padding of the cover holds it. A wider
cover: the white test ends inside the padding of the hidden row. -/
def RowInside (d : Dims) (row : Nat → UInt8) : Prop :=
  (d.width = d.hiddenWidth ∧ d.width%4 = 3) ∨
  (d.width < d.hiddenWidth ∧ (d.width%4 = 3 ∨ ∀ k < 3, row (3*d.width+k) = WHITE)) ∨
  (d.hiddenWidth < d.width ∧ (d.hiddenWidth%4 = 3 ∨ ∃ k < d.hiddenWidth%4, row (3*d.hiddenWidth+k) ≠ WHITE))
instance (d row) : Decidable (RowInside d row) := by unfold RowInside; infer_instance

def ExtraColumnInside (d : Dims) (rows : Nat → Nat → UInt8) : Prop :=
  d.heightLoop = 0 ∨ (d.widthLoop ≠ 65535 ∧ ∀ r < d.heightLoop, RowInside d (rows r))
instance (d rows) : Decidable (ExtraColumnInside d rows) := by unfold ExtraColumnInside; infer_instance

section Extra
variable {d : Dims} {row f : Nat → UInt8}

theorem innerInside (bound : d.width < 65536) {c : Nat} (column : c < d.widthLoop) :
    ColumnInside (stride d.hiddenWidth) (stride d.width) row c := by
  have first := strideBounds d.width
  have second := strideBounds d.hiddenWidth
  unfold Dims.widthLoop at column
  refine ⟨⟨by omega,.inr ⟨by omega,.inr (by omega)⟩⟩,fun _ => by omega⟩

theorem insideWider (wider : d.width < d.hiddenWidth) (reads : ∀ k < stride d.hiddenWidth, row k = f k) :
    (ReadsInside (stride d.hiddenWidth) row d.width ∧ (Coloured row d.width → 3*d.width+2 < stride d.width)) ↔
      RowInside d f := by
  have bound := strideBounds d.hiddenWidth
  have room : 3*d.width+2 < stride d.width ↔ d.width%4 = 3 := by
    unfold stride
    omega
  have inside : ReadsInside (stride d.hiddenWidth) row d.width :=
    ⟨by omega,.inr ⟨by omega,.inr (by omega)⟩⟩
  have blank : ¬ Coloured row d.width ↔ ∀ k < 3, f (3*d.width+k) = WHITE := by
    rw [blankIff]
    refine forall_congr' (fun k => ?_)
    refine ⟨fun white small => ?_,fun white small => ?_⟩
    · rw [← reads _ (by omega)]
      exact white small
    · rw [reads _ (by omega)]
      exact white small
  have only : RowInside d f ↔ d.width%4 = 3 ∨ ∀ k < 3, f (3*d.width+k) = WHITE := by
    simp [RowInside,wider,Nat.ne_of_lt wider,Nat.not_lt.mpr (Nat.le_of_lt wider)]
  rw [only,← blank,room]
  simp only [inside,true_and]
  tauto

theorem insideEqual (same : d.width = d.hiddenWidth) :
    (ReadsInside (stride d.hiddenWidth) row d.width ∧ (Coloured row d.width → 3*d.width+2 < stride d.width)) ↔
      RowInside d f := by
  have room : 3*d.width+2 < stride d.width ↔ d.width%4 = 3 := by
    unfold stride
    omega
  have only : RowInside d f ↔ d.width%4 = 3 := by
    simp [RowInside,same]
  rw [only,← room,← same]
  refine ⟨?_,?_⟩
  · intro inside
    obtain ⟨⟨_,reads⟩,hit⟩ := inside
    rcases reads with blue | ⟨_,green | last⟩
    · exact hit (.inl blue)
    · exact hit (.inr (.inl green))
    · exact last
  · intro enough
    exact ⟨⟨by omega,.inr ⟨by omega,.inr enough⟩⟩,fun _ => enough⟩

theorem insideNarrower (narrower : d.hiddenWidth < d.width)
    (reads : ∀ k < stride d.hiddenWidth, row k = f k) :
    (ReadsInside (stride d.hiddenWidth) row d.hiddenWidth ∧
      (Coloured row d.hiddenWidth → 3*d.hiddenWidth+2 < stride d.width)) ↔ RowInside d f := by
  have bound := strideBounds d.width
  have padding : stride d.hiddenWidth = 3*d.hiddenWidth + d.hiddenWidth%4 := rfl
  have room : 3*d.hiddenWidth+2 < stride d.width := by omega
  have only : RowInside d f ↔ d.hiddenWidth%4 = 3 ∨
      ∃ k < d.hiddenWidth%4, f (3*d.hiddenWidth+k) ≠ WHITE := by
    simp [RowInside,narrower,Nat.ne_of_gt narrower,Nat.not_lt.mpr (Nat.le_of_lt narrower)]
  rw [only]
  refine ⟨?_,?_⟩
  · intro inside
    obtain ⟨⟨first,test⟩,_⟩ := inside
    rcases test with blue | ⟨second,green | third⟩
    · exact .inr ⟨0,by omega,by rw [← reads _ (by omega)]; exact blue⟩
    · exact .inr ⟨1,by omega,by rw [← reads _ (by omega)]; exact green⟩
    · exact .inl (by omega)
  · intro ends
    refine ⟨?_,fun _ => room⟩
    rcases ends with three | ⟨k,small,coloured⟩
    · exact ⟨by omega,.inr ⟨by omega,.inr (by omega)⟩⟩
    · rw [← reads _ (by omega)] at coloured
      obtain rfl | rfl | three : k = 0 ∨ k = 1 ∨ d.hiddenWidth%4 = 3 := by omega
      · exact ⟨by omega,.inl coloured⟩
      · exact ⟨by omega,.inr ⟨by omega,.inl coloured⟩⟩
      · exact ⟨by omega,.inr ⟨by omega,.inr (by omega)⟩⟩

theorem rowInsideIff (bound : d.width < 65536) (reads : ∀ k < stride d.hiddenWidth, row k = f k) :
    ColumnInside (stride d.hiddenWidth) (stride d.width) row d.widthLoop ↔ RowInside d f := by
  have counter : d.widthLoop%65536 = d.widthLoop := by
    unfold Dims.widthLoop
    omega
  rw [ColumnInside,counter]
  rcases Nat.lt_trichotomy d.width d.hiddenWidth with wider | same | narrower
  · rw [Dims.widthLoop,Nat.min_eq_left (Nat.le_of_lt wider)]
    exact insideWider wider reads
  · rw [Dims.widthLoop,Nat.min_eq_left (Nat.le_of_eq same)]
    exact insideEqual same
  · rw [Dims.widthLoop,Nat.min_eq_right (Nat.le_of_lt narrower)]
    exact insideNarrower narrower reads

theorem farOutside (bound : d.hiddenWidth < 65536) :
    ¬ ColumnInside (stride d.hiddenWidth) (stride d.width) row 65536 := by
  intro inside
  have least := inside.1.1
  have most := strideBounds d.hiddenWidth
  omega

end Extra

theorem dimsBound (mem : Memory) (src hidden : Bytes) :
    (dims mem src hidden).width < 65536 ∧ (dims mem src hidden).hiddenWidth < 65536 :=
  ⟨UInt16.toNat_lt _,UInt16.toNat_lt _⟩

theorem extraColumnIff (mem : Memory) (src hidden : Bytes) (r : Nat) :
    FileInside mem (dims mem src hidden) hidden r (dims mem src hidden).widthLoop ↔
    RowInside (dims mem src hidden) (hiddenRow mem (dims mem src hidden) hidden r) :=
  rowInsideIff (dimsBound mem src hidden).1 (fun _ inside => if_pos inside)

theorem extraWhenInside {mem src hidden}
    (all : ∀ fuel, (steganographyEncrypt .corrected fuel mem src hidden).Always Event.InBounds) :
    ExtraColumnInside (dims mem src hidden) (hiddenRow mem (dims mem src hidden) hidden) := by
  obtain ⟨short,bound⟩ := dimsBound mem src hidden
  have extra := extraColumnIff mem src hidden
  have whole (fuel : Nat) := @encryptInside .corrected fuel mem src hidden
  have cut (fuel : Nat) := @encryptStuckInside .corrected fuel mem src hidden
  generalize dims mem src hidden = d at *
  rcases Nat.eq_zero_or_pos d.heightLoop with none | lines
  · exact .inl none
  · have limit : d.widthLoop ≤ d.hiddenWidth := Nat.min_le_right _ _
    have narrow : d.widthLoop ≠ 65535 := by
      intro widest
      have stuck : ¬ Suffices .corrected 65537 d := by
        simp only [Suffices,columns]
        omega
      have wraps : 65535 < columns .corrected d.widthLoop := by
        simp only [columns]
        omega
      exact farOutside bound ((cut _ stuck).mp (all _) 65536 (by omega) (.inl wraps))
    obtain ⟨fuel,enough⟩ := leavesSuffices ((leavesIff short).mpr (.inr narrow))
    exact .inr ⟨narrow,fun r row =>
      (extra r).mp ((whole _ enough).mp (all _) r row d.widthLoop (Nat.lt_succ_self _))⟩

theorem insideWhenExtra {mem src hidden}
    (inside : ExtraColumnInside (dims mem src hidden) (hiddenRow mem (dims mem src hidden) hidden)) (fuel : Nat) :
    (steganographyEncrypt .corrected fuel mem src hidden).Always Event.InBounds := by
  obtain ⟨bound,_⟩ := dimsBound mem src hidden
  have extra := extraColumnIff mem src hidden
  have whole := @encryptInside .corrected fuel mem src hidden
  have cut := @encryptStuckInside .corrected fuel mem src hidden
  generalize dims mem src hidden = d at *
  -- every column of a shared row: the inner ones always, the extra one by assumption
  have columnsInside (r : Nat) (row : r < d.heightLoop) (c : Nat) (column : c < columns .corrected d.widthLoop) :
      FileInside mem d hidden r c := by
    rcases Nat.lt_or_eq_of_le (Nat.le_of_lt_succ column) with inner | last
    · exact innerInside bound inner
    · rw [last,extra]
      rcases inside with none | ⟨_,rows⟩
      · omega
      · exact rows r row
  rcases Classical.em (Suffices .corrected fuel d) with enough | stuck
  · exact (whole enough).mpr columnsInside
  · have limit : d.widthLoop ≤ d.width := Nat.min_le_left _ _
    have lines := (not_or.mp stuck).1
    rcases inside with none | ⟨narrow,_⟩
    · exact absurd none lines
    · refine (cut stuck).mpr (fun c _ column => columnsInside 0 (Nat.pos_of_ne_zero lines) c ?_)
      simp only [columns] at *
      omega

theorem encryptInsideIff (mem : Memory) (src hidden : Bytes) :
    (∀ fuel, (steganographyEncrypt .corrected fuel mem src hidden).Always Event.InBounds) ↔
      ExtraColumnInside (dims mem src hidden) (hiddenRow mem (dims mem src hidden) hidden) :=
  ⟨extraWhenInside,insideWhenExtra⟩

theorem encryptLeavesBuffer : FullLength (smallHeader 1 1 ++ [1,2,3,0]) ∧
    FullLength (smallHeader 1 1 ++ [255,255,255,255]) ∧
    ¬ (steganographyEncrypt .corrected 3 (constantMemory 0 0) (smallHeader 1 1 ++ [1,2,3,0])
      (smallHeader 1 1 ++ [255,255,255,255])).Always Event.InBounds := by
  decide

theorem originalInside {d : Dims} {row : Nat → UInt8} (bound : d.widthLoop+1 < 65536)
    (inside : ColumnInside (stride d.hiddenWidth) (stride d.width) row (d.widthLoop+1)) :
    d.widthLoop = d.width ∧ 3*d.width+3 < stride d.hiddenWidth ∧ ¬ Coloured row (d.widthLoop+1) := by
  have first := strideBounds d.width
  have second := strideBounds d.hiddenWidth
  obtain ⟨⟨least,_⟩,hit⟩ := inside
  rw [Nat.mod_eq_of_lt bound] at hit
  have shared : d.widthLoop = d.width := by
    unfold Dims.widthLoop at *
    omega
  refine ⟨shared,by omega,fun coloured => ?_⟩
  have most := hit coloured
  omega

section Correction
variable {fuel : Nat} {mem mem' : Memory} {cover hidden : Bytes}

theorem shownAgree (full : FullLength hidden) (mem mem' : Memory) {r k : Nat} (row : r < heightOf hidden)
    (inside : k < stride (widthOf hidden)) :
    shown mem .hiddenText (stride (widthOf hidden)) (hidden.drop pixelData) r r k =
      shown mem' .hiddenText (stride (widthOf hidden)) (hidden.drop pixelData) r r k := by
  rw [laidShown (laidFull full) mem .hiddenText r row inside,
    laidShown (laidFull full) mem' .hiddenText r row inside]

theorem conservativeColumns (full : FullLength hidden) {d : Dims} (mem' : Memory)
    (width : d.hiddenWidth = widthOf hidden) (bound : d.widthLoop+1 < 65536) {r : Nat}
    (row : r < heightOf hidden)
    (inside : ∀ c < columns .original d.widthLoop, FileInside mem d hidden r c) :
    ¬ Coloured (shown mem .hiddenText (stride d.hiddenWidth) (hidden.drop pixelData) r r) (d.widthLoop+1) ∧
    ∀ c < columns .corrected d.widthLoop,
      (Coloured (shown mem .hiddenText (stride d.hiddenWidth) (hidden.drop pixelData) r r) c ↔
        Coloured (shown mem' .hiddenText (stride d.hiddenWidth) (hidden.drop pixelData) r r) c) ∧
      FileInside mem' d hidden r c := by
  obtain ⟨shared,room,blank⟩ := originalInside bound (inside _ (Nat.lt_succ_self _))
  refine ⟨blank,?_⟩
  intro c column
  have early : c ≤ d.widthLoop := Nat.le_of_lt_succ column
  have agree {k : Nat} (within : k < stride d.hiddenWidth) :
      shown mem .hiddenText (stride d.hiddenWidth) (hidden.drop pixelData) r r k =
        shown mem' .hiddenText (stride d.hiddenWidth) (hidden.drop pixelData) r r k := by
    rw [width] at *
    exact shownAgree full mem mem' row within
  have same : Coloured (shown mem .hiddenText (stride d.hiddenWidth) (hidden.drop pixelData) r r) c ↔
      Coloured (shown mem' .hiddenText (stride d.hiddenWidth) (hidden.drop pixelData) r r) c := by
    unfold Coloured
    rw [agree (by omega),agree (by omega),agree (by omega)]
  refine ⟨same,⟨by omega,.inr ⟨by omega,.inr (by omega)⟩⟩,fun coloured => ?_⟩
  exact (inside c (Nat.lt_succ_of_lt column)).2 (same.mpr coloured)

theorem conservativeMarks (fullHidden : FullLength hidden) (complete : 54 ≤ cover.length)
    (enough : Suffices .original fuel (dims mem cover hidden))
    (inside : (steganographyEncrypt .original fuel mem cover hidden).Always Event.InBounds) (mem' : Memory) :
    Suffices .corrected fuel (dims mem' cover hidden) ∧
    (steganographyEncrypt .corrected fuel mem' cover hidden).Always Event.InBounds ∧
    ∀ r c, (Marked .original mem (dims mem cover hidden) hidden r c ↔
      Marked .corrected mem' (dims mem' cover hidden) hidden r c) := by
  have sameDims : dims mem cover hidden = dims mem' cover hidden := by
    rw [dimsFiles mem complete (fullComplete fullHidden),dimsFiles mem' complete (fullComplete fullHidden)]
  have within := (encryptInside enough).mp inside
  have width := dimsHiddenWidth mem' (fullComplete fullHidden) cover
  have height := dimsHiddenHeight mem' (fullComplete fullHidden) cover
  rw [sameDims] at within enough ⊢
  have whole := @encryptInside .corrected fuel mem' cover hidden
  generalize dims mem' cover hidden = d at *
  have rows {r : Nat} (row : r < d.heightLoop) : r < heightOf hidden := by
    rw [← height]
    exact Nat.lt_of_lt_of_le row (Nat.min_le_right _ _)
  have runs : Suffices .corrected fuel d := by
    simp only [Suffices,columns] at *
    omega
  have learned {r : Nat} (row : r < d.heightLoop) :=
    conservativeColumns fullHidden mem' width
      (by simp only [Suffices,columns] at enough; omega) (rows row) (within r row)
  refine ⟨runs,(whole runs).mpr (fun r row c column => ((learned row).2 c column).2),?_⟩
  intro r c
  simp only [Marked]
  refine and_congr_right (fun row => ?_)
  obtain ⟨blank,inner⟩ := learned row
  rcases Nat.lt_trichotomy c (d.widthLoop+1) with early | last | late
  · have first : c < columns .original d.widthLoop := Nat.lt_succ_of_lt early
    have second : c < columns .corrected d.widthLoop := early
    simp only [first,second,true_and]
    exact (inner c early).1
  · subst c
    simp [blank,columns]
  · have first : ¬ c < columns .original d.widthLoop := by simp only [columns]; omega
    have second : ¬ c < columns .corrected d.widthLoop := by simp only [columns]; omega
    simp [first,second]

end Correction

theorem correctionConservative {fuel mem cover hidden dst} (mem' : Memory) (fullCover : FullLength cover)
    (fullHidden : FullLength hidden)
    (ran : (steganographyEncrypt .original fuel mem cover hidden).result = some dst)
    (inside : (steganographyEncrypt .original fuel mem cover hidden).Always Event.InBounds) :
    (steganographyEncrypt .corrected fuel mem' cover hidden).result = some dst ∧
    (steganographyEncrypt .corrected fuel mem' cover hidden).Always Event.InBounds ∧
    ∃ text, (main .original fuel mem cover hidden).result = some (dst,text) ∧
      (main .corrected fuel mem' cover hidden).result = some (dst,text) := by
  have complete := fullComplete fullCover
  have stego := encryptResult .original fuel mem cover hidden
  rw [ran] at stego
  split at stego
  · rename_i enough
    obtain ⟨runs,safe,marks⟩ := conservativeMarks fullHidden complete enough inside mem'
    have same : dst = stegoFile .corrected mem' cover hidden :=
      (Option.some.inj stego).trans ((stegoEqIff complete).mpr (fun r _ c _ => marks r c))
    have ran' : (steganographyEncrypt .corrected fuel mem' cover hidden).result = some dst := by
      rw [encryptResult,if_pos runs,same]
    have text (m : Memory) : (steganographyDecrypt m cover dst).result = some (textFile .red mem cover dst) := by
      rw [steganographyDecrypt,decryptResult,same,textMarked .corrected mem' m hidden fullCover,
        textMarked .corrected mem' mem hidden fullCover]
    refine ⟨ran',safe,textFile .red mem cover dst,?_,?_⟩
    · simp [main,ran,text mem]
    · simp [main,ran',text mem']
  · cases stego

theorem correctionConservativeSmall :
    (steganographyEncrypt .corrected 4 (constantMemory 9 9) (smallHeader 1 1 ++ [1,2,3,0])
      (smallHeader 3 1 ++ [7,7,7,255,255,255,255,255,255,0,0,0])).result =
        some (smallHeader 1 1 ++ [101,102,103,0]) ∧
    (steganographyEncrypt .corrected 4 (constantMemory 9 9) (smallHeader 1 1 ++ [1,2,3,0])
      (smallHeader 3 1 ++ [7,7,7,255,255,255,255,255,255,0,0,0])).Always Event.InBounds ∧
    ∃ text, (main .original 4 (constantMemory 0 0) (smallHeader 1 1 ++ [1,2,3,0])
        (smallHeader 3 1 ++ [7,7,7,255,255,255,255,255,255,0,0,0])).result =
          some (smallHeader 1 1 ++ [101,102,103,0],text) ∧
      (main .corrected 4 (constantMemory 9 9) (smallHeader 1 1 ++ [1,2,3,0])
        (smallHeader 3 1 ++ [7,7,7,255,255,255,255,255,255,0,0,0])).result =
          some (smallHeader 1 1 ++ [101,102,103,0],text) :=
  correctionConservative _ (by decide) (by decide) (by rfl) (by decide)

def CompleteFor (cover f : Bytes) : Prop :=
  f.take 54 = cover.take 54 ∧ f.length = 54 + heightOf cover*(4*((3*widthOf cover+3)/4))
instance (cover f) : Decidable (CompleteFor cover f) := by unfold CompleteFor; infer_instance

theorem decryptSafe {cover modified : Bytes} (complete : 54 ≤ cover.length)
    (whole : CompleteFor cover modified) (mem : Memory) :
    (steganographyDecrypt mem cover modified).Always Complete := by
  obtain ⟨start,length⟩ := whole
  rw [← strideRule] at length
  have received : 54 ≤ modified.length := by omega
  have bound := strideBounds (widthOf cover)
  have same : widthOf modified = widthOf cover := wordOfPrefix start (by omega)
  have available : (modified.drop pixelData).length = heightOf cover*stride (widthOf cover) := by
    rw [rowsLength,length,Nat.add_sub_cancel_left]
  refine decryptComplete .red mem ?_ ?_ ?_
  · rw [sidesWidth mem complete,sidesOri mem complete]
    exact bound.1
  · rw [sidesWidth mem complete,sidesModified mem received,same]
    exact bound.1
  · rw [sidesHeight mem complete,sidesModified mem received,same,available]

theorem outputsComplete {mem cover hidden img2 text2} (complete : 54 ≤ cover.length)
    (ran : Writes .corrected mem cover hidden img2 text2) :
    CompleteFor cover img2 ∧ CompleteFor cover text2 ∧
    ∀ mem', (steganographyDecrypt mem' cover img2).Always Complete := by
  obtain ⟨encrypts,decrypts⟩ := writesIff.mp ran
  obtain ⟨_,stego⟩ := encryptsIff.mp encrypts
  have text := decryptsIff.mp decrypts
  have written : CompleteFor cover img2 := by
    rw [stego,CompleteFor,← strideRule]
    exact ⟨(stegoShape .corrected mem complete hidden).1,stegoLength .corrected mem complete hidden⟩
  refine ⟨written,?_,decryptSafe complete written⟩
  rw [text,CompleteFor,← strideRule]
  exact ⟨(textShape .red mem complete img2).1,textLength .red mem complete img2⟩

theorem outputsCompleteTruncated :
    CompleteFor (smallHeader 1 2 ++ [1,2,3,0,4]) (smallHeader 1 2 ++ [101,102,103,100,4,0,0,0]) ∧
    CompleteFor (smallHeader 1 2 ++ [1,2,3,0,4]) (smallHeader 1 2 ++ [0,0,0,255,0,0,0,255]) ∧
    ∀ mem', (steganographyDecrypt mem' (smallHeader 1 2 ++ [1,2,3,0,4])
      (smallHeader 1 2 ++ [101,102,103,100,4,0,0,0])).Always Complete :=
  @outputsComplete (constantMemory 0 0) (smallHeader 1 2 ++ [1,2,3,0,4]) (smallHeader 1 1 ++ [7,7,7,7])
    (smallHeader 1 2 ++ [101,102,103,100,4,0,0,0]) (smallHeader 1 2 ++ [0,0,0,255,0,0,0,255])
    (by decide) ⟨3,by rfl⟩

end SesLabs.BitmapBounds
