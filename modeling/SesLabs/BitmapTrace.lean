import SesLabs.BitmapDecrypt

/-! Which events the two functions log. The loops that allocate, load and write
rows log ordinary events only; what else happens, happens in the columns of the
marking loop, one list of events a column. -/
namespace SesLabs.BitmapTrace
open EventRun EventRun.Run RowBuffer BitmapFormat BitmapProgram BitmapEncrypt BitmapDecrypt

def Ordinary : Event → Prop
  | .access _ offset count size => offset+count ≤ size
  | .rowTable index size => index < size
  | .rowRead _ _ _ => True
  | .modifyPixel _ _ => False

theorem ordinaryInBounds {e : Event} (ordinary : Ordinary e) : e.InBounds := by
  cases e with
  | access owner offset count size => exact ordinary
  | rowTable index size => exact ordinary
  | rowRead file wanted got => trivial
  | modifyPixel row column => trivial

theorem shortRead (wanted available : Nat) : 0 + min wanted available ≤ wanted := by omega

section Primitives
variable {n s h : Nat} {P : Event → Prop} (owner : Image) (past : Nat → UInt8)

@[simp] theorem alwaysLoad (b : Vector UInt8 n) (k : Nat) :
    (loadByte owner past b k).Always P ↔ P (.access owner k 1 n) := by
  simp [loadByte,alwaysBind]

@[simp] theorem alwaysStore (b : Vector UInt8 n) (k : Nat) (v : UInt8) :
    (storeByte owner b k v).Always P ↔ P (.access owner k 1 n) := by
  simp [storeByte,alwaysBind]

@[simp] theorem alwaysMemset (b : Vector UInt8 n) (v : UInt8) :
    (memset owner b v).Always P ↔ P (.access owner 0 n n) := by
  simp [memset,alwaysBind]

@[simp] theorem alwaysFread (b : Vector UInt8 n) (stream : Bytes) :
    (fread owner b stream).Always P ↔
      P (.rowRead owner n (min n stream.length)) ∧ P (.access owner 0 (min n stream.length) n) := by
  simp [fread,alwaysBind]

theorem freadOrdinary (b : Vector UInt8 n) (stream : Bytes) : (fread owner b stream).Always Ordinary :=
  (alwaysFread owner b stream).mpr ⟨trivial,shortRead _ _⟩

@[simp] theorem alwaysFwrite (b : Vector UInt8 n) (out : Bytes) :
    (fwrite owner b out).Always P ↔ P (.access owner 0 n n) := by
  simp [fwrite,alwaysBind]

@[simp] theorem alwaysDeref (table : RowTable s h) (r : Nat) :
    (derefRow table r).Always P ↔ P (.rowTable r h) := by
  simp [derefRow,Always]

@[simp] theorem alwaysSetRow (table : RowTable s h) (r : Nat) (row : Vector UInt8 s) :
    (setRow table r row).Always P ↔ P (.rowTable r h) := by
  simp [setRow,alwaysBind]

end Primitives

section Rows
variable {s h : Nat}

theorem newRowsOrdinary (mem : Memory) : (newRows mem s h).Always Ordinary := by
  refine alwaysBind.mpr ⟨?_,fun _ _ => alwaysPure _ _⟩
  rw [← allocatingStart,alwaysCountdown (allocating s h) (fun t ht => newRowStep mem ht)]
  intro t ht
  simp [newRow,alwaysBind,Ordinary,allocating,ht]

theorem loadRowsOrdinary (data : Bytes) (cells : Nat → Nat → UInt8) :
    (loadRows (tableOf s h cells) data).Always Ordinary := by
  refine alwaysBind.mpr ⟨?_,fun _ _ => alwaysPure _ _⟩
  rw [← loadingStart,alwaysCountdown (loading s h data cells) (fun t ht => loadRowStep data cells ht)]
  intro t ht
  refine alwaysBind.mpr ⟨by simpa [Ordinary,loading] using ht,fun row _ => ?_⟩
  exact alwaysBind.mpr ⟨freadOrdinary _ _ _,fun _ _ => alwaysPure _ _⟩

theorem writeRowsOrdinary (dst : Bytes) (cells : Nat → Nat → UInt8) :
    (writeRows (tableOf s h cells) dst).Always Ordinary := by
  refine alwaysBind.mpr ⟨?_,fun _ _ => alwaysPure _ _⟩
  rw [← writingStart dst cells,alwaysCountdown (writing s dst cells) (fun t ht => writeRowStep dst cells ht)]
  intro t ht
  simp [writeRow,alwaysBind,Ordinary,writing,ht]

end Rows

def readEvents (n : Nat) (row : Nat → UInt8) (c : Nat) : List Event :=
  .access .hiddenText (3*c) 1 n :: if row (3*c) ≠ WHITE then [] else
    .access .hiddenText (3*c+1) 1 n :: if row (3*c+1) ≠ WHITE then [] else
      [.access .hiddenText (3*c+2) 1 n]

def modifyEvents (s c : Nat) : List Event :=
  [.access .bitmap (3*c) 1 s,.access .bitmap (3*c) 1 s,.access .bitmap (3*c+1) 1 s,
    .access .bitmap (3*c+1) 1 s,.access .bitmap (3*c+2) 1 s,.access .bitmap (3*c+2) 1 s]

/- One pass of the marking loop. The counter has 16 bits, the pointer into the
hidden row has not. -/
def columnEvents (n s h : Nat) (row : Nat → UInt8) (pRow t : Nat) : List Event :=
  readEvents n row t ++ if Coloured row t then
    .rowTable pRow h :: .modifyPixel pRow (t%65536) :: modifyEvents s (t%65536) else []

section Columns
variable {n s h : Nat}

theorem notWhiteLog (past f : Nat → UInt8) (p : Nat) :
    (notWhite past (tabulate n f) p).log = readEvents n (fun k => if k < n then f k else past k) p := by
  have reads (k : Nat) : load past (tabulate n f) k = (fun k => if k < n then f k else past k) k :=
    loadTabulate past f k
  generalize (fun k => if k < n then f k else past k) = row at *
  simp only [notWhite,loadByte,bind,emit,pure,reads,Colour.offset,Nat.add_zero,readEvents]
  split
  · simp
  · simp only [List.append_nil,List.singleton_append]
    split
    · simp
    · simp

theorem modifyPixelLog (past g : Nat → UInt8) (p : Nat) :
    (modifyPixel past (tabulate s g) p).log = modifyEvents s p := by
  simp [modifyPixel,modifyColour,loadByte,storeByte,bind,emit,pure,Colour.offset,modifyEvents]

theorem markPixelLog (mem : Memory) (f : Nat → UInt8) (cells : Nat → Nat → UInt8) {pRow : Nat}
    (inside : pRow < h) (t : Nat) :
    (markPixel mem (tabulate n f) pRow (markState s h
      (fun k => if k < n then f k else mem.past .hiddenText pRow k) pRow cells t)).log =
      columnEvents n s h (fun k => if k < n then f k else mem.past .hiddenText pRow k) pRow t := by
  rw [markPixel,bindLog (notWhiteResult _ _ _),notWhiteLog,columnEvents,markState]
  simp only [decide_eq_true_eq]
  split
  · rw [bindLog (derefTable _ inside),bindLog (emitResult _),bindLog (modifyPixelResult _ _ _),
      modifyPixelLog]
    simp [derefRow]
  · rfl

/- The columns the loop gets to: all of them once, or, when the counter cannot
exceed the bound, as many as there is fuel for. -/
theorem memMarkLine (v : Version) (fuel : Nat) (mem : Memory) (widthLoop : Nat) (f : Nat → UInt8)
    (cells : Nat → Nat → UInt8) {pRow : Nat} (inside : pRow < h) {e : Event} :
    e ∈ (markLine v fuel mem widthLoop (tabulate n f) pRow (tableOf s h cells)).log ↔
      ∃ t < fuel, (65535 < columns v widthLoop ∨ t < columns v widthLoop) ∧
        e ∈ columnEvents n s h (fun k => if k < n then f k else mem.past .hiddenText pRow k) pRow t := by
  have steps := markPixelStep (n := n) (s := s) mem f cells inside
  have logs := markPixelLog (n := n) (s := s) mem f cells inside
  rcases Nat.lt_or_ge 65535 (columns v widthLoop) with wraps | fits
  · refine (memLoopForever (markState s h _ pRow cells) (fun t => guardRuns (.inl wraps)) steps fuel).trans ?_
    simp only [logs,wraps,true_or,true_and]
  · refine (memLoopExit (markState s h _ pRow cells) (fun t ht => guardRuns (.inr ht)) (guardStops fits)
      (fun t _ => steps t) fuel).trans ?_
    have none : ¬ 65535 < columns v widthLoop := Nat.not_lt.mpr fits
    simp only [logs,Nat.lt_min,none,false_or]
    refine ⟨?_,?_⟩
    · intro found
      obtain ⟨t,⟨early,fueled⟩,found⟩ := found
      exact ⟨t,fueled,early,found⟩
    · intro found
      obtain ⟨t,fueled,early,found⟩ := found
      exact ⟨t,⟨early,fueled⟩,found⟩

end Columns

section Lines
variable {n s h : Nat}

theorem memHideLine (v : Version) (fuel : Nat) (mem : Memory) (widthLoop : Nat) (data : Bytes)
    (cells : Nat → Nat → UInt8) {i t : Nat} (inside : t < h) {e : Event} (unusual : ¬ Ordinary e) :
    e ∈ (hideLine v fuel mem widthLoop i (hideState v widthLoop n s h data mem cells t)).log ↔
      ∃ c < fuel, (65535 < columns v widthLoop ∨ c < columns v widthLoop) ∧
        e ∈ columnEvents n s h (shown mem .hiddenText n data t t) t c := by
  have plain : (fread .hiddenText (hideState v widthLoop n s h data mem cells t).buffer
      (hideState v widthLoop n s h data mem cells t).stream).Always Ordinary := freadOrdinary _ _ _
  have line := memMarkLine (n := n) (s := s) (e := e) v fuel mem widthLoop
    (refill n data (mem.heap .hiddenText 0) (t+1)) (hideCells v widthLoop n data mem cells t) inside
  rw [hideLine,memReturned (hideFread v widthLoop data mem cells t),memBind]
  simp only [pureLog,List.not_mem_nil,and_false,exists_false,or_false]
  refine ⟨?_,?_⟩
  · intro found
    rcases found with early | marked
    · exact absurd (plain e early) unusual
    · exact line.mp marked
  · intro found
    exact .inr (line.mpr found)

theorem memHideLines (v : Version) (fuel : Nat) (mem : Memory) (widthLoop : Nat) {heightLoop : Nat}
    (data : Bytes) (cells : Nat → Nat → UInt8) (fits : heightLoop ≤ h)
    (exits : columns v widthLoop ≤ 65535 ∧ columns v widthLoop < fuel) {e : Event} (unusual : ¬ Ordinary e) :
    e ∈ (hideLines v fuel mem widthLoop heightLoop (tabulate n (mem.heap .hiddenText 0)) data
      (tableOf s h cells)).log ↔
      ∃ r < heightLoop, ∃ c < columns v widthLoop,
        e ∈ columnEvents n s h (shown mem .hiddenText n data r r) r c := by
  have line {i t : Nat} (ht : t < heightLoop) := hideLineResult (n := n) (s := s) (i := i) v fuel mem
    widthLoop data cells (Nat.lt_of_lt_of_le ht fits)
  rw [hideLines,← hideStart v widthLoop data mem cells,memBind]
  simp only [pureLog,List.not_mem_nil,and_false,exists_false,or_false]
  rw [memCountdown (hideState v widthLoop n s h data mem cells) (fun t ht => by rw [line ht,if_pos exits])]
  refine ⟨?_,?_⟩
  · intro found
    obtain ⟨r,row,found⟩ := found
    obtain ⟨c,_,column,found⟩ := (memHideLine v fuel mem widthLoop data cells
      (Nat.lt_of_lt_of_le row fits) unusual).mp found
    exact ⟨r,row,c,by omega,found⟩
  · intro found
    obtain ⟨r,row,c,column,found⟩ := found
    refine ⟨r,row,(memHideLine v fuel mem widthLoop data cells (Nat.lt_of_lt_of_le row fits) unusual).mpr ?_⟩
    exact ⟨c,by omega,.inr column,found⟩

theorem memHideStuck (v : Version) (fuel : Nat) (mem : Memory) (widthLoop : Nat) {heightLoop : Nat}
    (data : Bytes) (cells : Nat → Nat → UInt8) (fits : heightLoop ≤ h) (lines : 0 < heightLoop)
    (stuck : ¬ (columns v widthLoop ≤ 65535 ∧ columns v widthLoop < fuel)) {e : Event}
    (unusual : ¬ Ordinary e) :
    e ∈ (hideLines v fuel mem widthLoop heightLoop (tabulate n (mem.heap .hiddenText 0)) data
      (tableOf s h cells)).log ↔
      ∃ c < fuel, (65535 < columns v widthLoop ∨ c < columns v widthLoop) ∧
        e ∈ columnEvents n s h (shown mem .hiddenText n data 0 0) 0 c := by
  obtain ⟨m,rfl⟩ : ∃ m, heightLoop = m+1 := ⟨heightLoop-1,by omega⟩
  have line := hideLineResult (n := n) (s := s) (i := m+1) v fuel mem widthLoop data cells
    (Nat.lt_of_lt_of_le lines fits)
  have blocked := countdownBlocked (line.trans (if_neg stuck))
  rw [hideLines,← hideStart v widthLoop data mem cells,memBind,blocked.2]
  simp only [pureLog,List.not_mem_nil,and_false,exists_false,or_false]
  exact memHideLine v fuel mem widthLoop data cells (Nat.lt_of_lt_of_le lines fits) unusual

end Lines

section Encrypt
variable (v : Version) (fuel : Nat) (mem : Memory) (src hiddenSource : Bytes)

def columnTrace (d : Dims) (r c : Nat) : List Event :=
  columnEvents (stride d.hiddenWidth) (stride d.width) d.height
    (shown mem .hiddenText (stride d.hiddenWidth) (hiddenSource.drop pixelData) r r) r c

theorem memEncrypt {e : Event} (unusual : ¬ Ordinary e) :
    e ∈ (steganographyEncrypt v fuel mem src hiddenSource).log ↔
      e ∈ (hideLines v fuel mem (dims mem src hiddenSource).widthLoop (dims mem src hiddenSource).heightLoop
        (tabulate (stride (dims mem src hiddenSource).hiddenWidth) (mem.heap .hiddenText 0))
        (hiddenSource.drop pixelData) (tableOf (stride (dims mem src hiddenSource).width)
          (dims mem src hiddenSource).height (coverByte (dims mem src hiddenSource) src))).log := by
  rw [encryptStages]
  generalize dims mem src hiddenSource = d
  have lines := encryptHidden v fuel mem d src hiddenSource
  have loaded := loadRowsResult (s := stride d.width) (h := d.height) (src.drop pixelData) (fun _ _ => 0)
  rw [memReturned (newRowsResult mem),memReturned loaded,memBind]
  refine ⟨?_,fun found => .inr (.inr (.inl found))⟩
  intro found
  rcases found with new | load | marked | ⟨table,returned,written⟩
  · exact absurd (newRowsOrdinary mem e new) unusual
  · exact absurd (loadRowsOrdinary _ _ e load) unusual
  · exact marked
  · -- nothing but the loop over the rows follows, on the table the marking left
    have same := returned.symm.trans lines
    split at same
    · cases same
      exact absurd (writeRowsOrdinary _ _ e written) unusual
    · contradiction

theorem memEncryptLines (enough : Suffices v fuel (dims mem src hiddenSource)) {e : Event}
    (unusual : ¬ Ordinary e) :
    e ∈ (steganographyEncrypt v fuel mem src hiddenSource).log ↔
      ∃ r < (dims mem src hiddenSource).heightLoop, ∃ c < columns v (dims mem src hiddenSource).widthLoop,
        e ∈ columnTrace mem hiddenSource (dims mem src hiddenSource) r c := by
  rw [memEncrypt v fuel mem src hiddenSource unusual]
  generalize dims mem src hiddenSource = d at *
  rcases enough with none | exits
  · rw [none]
    simp [hideLines,countdown,memBind]
  · exact memHideLines v fuel mem d.widthLoop _ _ (Nat.min_le_left _ _) exits unusual

theorem memEncryptStuck (stuck : ¬ Suffices v fuel (dims mem src hiddenSource)) {e : Event}
    (unusual : ¬ Ordinary e) :
    e ∈ (steganographyEncrypt v fuel mem src hiddenSource).log ↔
      ∃ c < fuel, (65535 < columns v (dims mem src hiddenSource).widthLoop ∨
        c < columns v (dims mem src hiddenSource).widthLoop) ∧
        e ∈ columnTrace mem hiddenSource (dims mem src hiddenSource) 0 c := by
  rw [memEncrypt v fuel mem src hiddenSource unusual]
  generalize dims mem src hiddenSource = d at *
  obtain ⟨lines,stuck⟩ := not_or.mp stuck
  exact memHideStuck v fuel mem d.widthLoop _ _ (Nat.min_le_left _ _) (Nat.pos_of_ne_zero lines) stuck unusual

end Encrypt

def Complete : Event → Prop
  | .rowRead .bitmapModified wanted got => got = wanted
  | e => e.InBounds

section Decrypt
variable {n m : Nat}

theorem checkPixelComplete (colour : Colour) (mem : Memory) (i : Nat) (ori : Vector UInt8 n)
    (modified : Vector UInt8 m) (j : Nat) {st : CheckState n} (left : 3*st.pRgb+3 ≤ n)
    (right : 3*st.pRgb+3 ≤ m) : (checkPixel colour mem i ori modified j st).Always Complete := by
  have small : colour.offset < 3 := by cases colour <;> decide
  have first : 3*st.pRgb+colour.offset+1 ≤ n := by omega
  have second : 3*st.pRgb+colour.offset+1 ≤ m := by omega
  refine alwaysBind.mpr ⟨by simpa [Complete,Event.InBounds] using first,fun a _ => ?_⟩
  refine alwaysBind.mpr ⟨by simpa [Complete,Event.InBounds] using second,fun b _ => ?_⟩
  split
  · simp only [alwaysBind,alwaysStore,alwaysPure,Complete,Event.InBounds,Colour.offset]
    refine ⟨by omega,fun _ _ => ⟨by omega,fun _ _ => ⟨by omega,fun _ _ => trivial⟩⟩⟩
  · exact alwaysPure _ _

theorem checkedLineComplete (colour : Colour) (mem : Memory) (i : Nat) (ori : Vector UInt8 n)
    (modified : Vector UInt8 m) {width : Nat} (left : 3*width ≤ n) (right : 3*width ≤ m) :
    (countdown (checkPixel colour mem i ori modified) width ⟨0,Vector.replicate n WHITE⟩).Always Complete := by
  rw [← checkingStart colour (load (mem.past .bitmapOri i) ori) (load (mem.past .bitmapModified i) modified),
    alwaysCountdown (checking n colour _ _)
      (fun t _ => checkPixelStep colour mem (fun _ => rfl) (fun _ => rfl) _ t)]
  intro t column
  exact checkPixelComplete colour mem i ori modified _ (by simp only [checking]; omega)
    (by simp only [checking]; omega)

theorem checkLineComplete (colour : Colour) (mem : Memory) (s : Sides) (head : Bytes) {t : Nat}
    (row : t < s.height) (left : 3*s.width ≤ s.n) (right : 3*s.width ≤ s.m)
    (rows : s.height*s.m ≤ s.modified.length) :
    (checkLine colour mem s.width (s.height-t) (lineState colour mem s head t)).Always Complete := by
  have filled : min s.m (s.modified.length - t*s.m) = s.m := by
    have next := Nat.mul_le_mul_right s.m (Nat.succ_le_of_lt row)
    rw [Nat.succ_mul] at next
    omega
  refine alwaysBind.mpr ⟨(alwaysFread _ _ _).mpr ⟨trivial,shortRead _ _⟩,fun ori _ => ?_⟩
  refine alwaysBind.mpr ⟨by simp [Complete,Event.InBounds,lineState,filled],fun modified _ => ?_⟩
  refine alwaysBind.mpr ⟨by simp [Complete,Event.InBounds],fun found cleared => ?_⟩
  have white : found = Vector.replicate s.n WHITE := by
    simpa [memset,eq_comm] using cleared
  rw [white]
  refine alwaysBind.mpr ⟨checkedLineComplete colour mem _ _ _ left right,fun line _ => ?_⟩
  exact alwaysBind.mpr ⟨by simp [Complete,Event.InBounds],fun _ _ => alwaysPure _ _⟩

theorem decryptComplete (colour : Colour) (mem : Memory) {pOri pModified : Bytes}
    (left : 3*(sides mem pOri pModified).width ≤ (sides mem pOri pModified).n)
    (right : 3*(sides mem pOri pModified).width ≤ (sides mem pOri pModified).m)
    (rows : (sides mem pOri pModified).height*(sides mem pOri pModified).m ≤ (pModified.drop pixelData).length) :
    (decryptBy colour mem pOri pModified).Always Complete := by
  rw [decryptStages]
  refine alwaysBind.mpr ⟨?_,fun _ _ => alwaysPure _ _⟩
  rw [alwaysCountdown (lineState colour mem (sides mem pOri pModified) _)
    (fun _ _ => checkLineStep colour mem _ _)]
  intro t row
  exact checkLineComplete colour mem _ _ row left right rows

end Decrypt

end SesLabs.BitmapTrace
