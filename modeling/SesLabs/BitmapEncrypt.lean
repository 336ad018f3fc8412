import SesLabs.BitmapProgram

/-! What steganographyEncrypt returns, in closed form. The table of rows is
described by a function of row and byte index throughout; each loop gets the
sequence of states it runs through. -/
namespace SesLabs.BitmapEncrypt
open EventRun EventRun.Run RowBuffer BitmapFormat BitmapProgram

theorem rowByte (f : Bytes) (s r k : Nat) : (f.drop pixelData)[r*s+k]? = f[54 + r*s+k]? := by
  rw [List.getElem?_drop,← Nat.add_assoc]
  rfl

theorem rowsLength (f : Bytes) : (f.drop pixelData).length = f.length-54 := by
  rw [List.length_drop]
  rfl

section Rows
variable {s h : Nat}

def tableOf (s h : Nat) (cells : Nat → Nat → UInt8) : RowTable s h :=
  tabulate h (fun r => some (tabulate s (cells r)))

theorem tableCongr {a b : Nat → Nat → UInt8} (same : ∀ r < h, ∀ k < s, a r k = b r k) :
    tableOf s h a = tableOf s h b :=
  tabulateCongr (fun r hr => congrArg some (tabulateCongr (same r hr)))

theorem derefTable (cells : Nat → Nat → UInt8) {r : Nat} (inside : r < h) :
    (derefRow (tableOf s h cells) r).result = some (tabulate s (cells r)) := by
  simp only [derefRow,tableOf]
  rw [tabulateAt,if_pos inside]
  rfl

theorem updateTable (cells : Nat → Nat → UInt8) (r : Nat) (g : Nat → UInt8) :
    updateRow (tableOf s h cells) r (tabulate s g) = tableOf s h (Function.update cells r g) := by
  have stored := storeTabulate (n := h) (fun r => some (tabulate s (cells r))) r (some (tabulate s g))
  unfold store at stored
  rw [updateRow,tableOf,stored]
  apply tabulateCongr
  intro i _
  rcases eq_or_ne i r with same | other
  · subst i
    simp
  · simp [other]

-- The rows allocated so far are zero, the other entries are still NULL.
def allocating (s h t : Nat) : RowState s h :=
  ⟨t,tabulate h (fun r => if r < t then some (tabulate s (fun _ => 0)) else none)⟩

theorem newRowStep (mem : Memory) {i t : Nat} (inside : t < h) :
    (newRow mem i (allocating s h t)).result = some (allocating s h (t+1)) := by
  have stored (f : Nat → Option (Vector UInt8 s)) (row : Vector UInt8 s) :
      (tabulate h f).setIfInBounds t (some row) = tabulate h (Function.update f t (some row)) :=
    storeTabulate f t (some row)
  have entry (f : Nat → Option (Vector UInt8 s)) (row : Vector UInt8 s) :
      (tabulate h (Function.update f t (some row)))[t]? = some (some row) := by
    rw [tabulateAt,if_pos inside,Function.update_self]
  simp only [newRow,allocating,setRow,derefRow,memset,updateRow,stored,entry,bindResult,emitResult,
    pureResult,Option.bind_some,Option.join_some,Function.update_idem,replicateTabulate]
  congr 2
  apply tabulateCongr
  intro r _
  rcases eq_or_ne r t with same | other
  · subst r
    simp
  · have order : r < t+1 ↔ r < t := by omega
    simp [other,order]

theorem allocatingStart : allocating s h 0 = ⟨0,Vector.replicate h none⟩ := by
  rw [allocating,replicateTabulate]
  congr 1

theorem newRowsResult (mem : Memory) :
    (newRows mem s h).result = some (tableOf s h (fun _ _ => 0)) := by
  have all : (allocating s h h).table = tableOf s h (fun _ _ => 0) := by
    simp only [allocating,tableOf]
    apply tabulateCongr
    intro r hr
    simp [hr]
  rw [newRows,← allocatingStart,bindResult,
    countdownResult (allocating s h) (fun t ht => newRowStep mem ht)]
  exact congrArg some all

def loading (s h : Nat) (data : Bytes) (cells : Nat → Nat → UInt8) (t : Nat) : LoadState s h :=
  ⟨t,tableOf s h (fun r k => if r < t then (data[r*s+k]?).getD (cells r k) else cells r k),
    data.drop (t*s)⟩

theorem loadRowStep (data : Bytes) (cells : Nat → Nat → UInt8) {i t : Nat} (inside : t < h) :
    (loadRow i (loading s h data cells t)).result = some (loading s h data cells (t+1)) := by
  simp only [loadRow,loading,fread,bindResult,derefTable _ inside,emitResult,pureResult,
    Option.bind_some,refilledTabulate,updateTable,List.drop_drop,Nat.succ_mul]
  congr 2
  apply tableCongr
  intro r _ k _
  rcases eq_or_ne r t with same | other
  · subst r
    simp
  · have order : r < t+1 ↔ r < t := by omega
    simp [other,order]

theorem loadingStart (data : Bytes) (cells : Nat → Nat → UInt8) :
    loading s h data cells 0 = ⟨0,tableOf s h cells,data⟩ := by
  simp [loading]

theorem loadRowsResult (data : Bytes) (cells : Nat → Nat → UInt8) :
    (loadRows (tableOf s h cells) data).result =
      some (tableOf s h (fun r k => (data[r*s+k]?).getD (cells r k))) := by
  have all : (loading s h data cells h).table =
      tableOf s h (fun r k => (data[r*s+k]?).getD (cells r k)) := by
    simp only [loading]
    apply tableCongr
    intro r hr k _
    simp [hr]
  rw [loadRows,← loadingStart,bindResult,
    countdownResult (loading s h data cells) (fun t ht => loadRowStep data cells ht)]
  exact congrArg some all

def writing (s : Nat) (dst : Bytes) (cells : Nat → Nat → UInt8) (t : Nat) : WriteState :=
  ⟨t,dst ++ grid t s cells⟩

theorem writeRowStep (dst : Bytes) (cells : Nat → Nat → UInt8) {i t : Nat} (inside : t < h) :
    (writeRow (tableOf s h cells) i (writing s dst cells t)).result =
      some (writing s dst cells (t+1)) := by
  simp [writeRow,writing,fwrite,derefTable _ inside,gridSucc]

theorem writingStart (dst : Bytes) (cells : Nat → Nat → UInt8) : writing s dst cells 0 = ⟨0,dst⟩ := by
  simp [writing,grid]

theorem writeRowsResult (dst : Bytes) (cells : Nat → Nat → UInt8) :
    (writeRows (tableOf s h cells) dst).result = some (dst ++ grid h s cells) := by
  rw [writeRows,← writingStart dst cells,bindResult,
    countdownResult (writing s dst cells) (fun t ht => writeRowStep dst cells ht)]
  rfl

end Rows

def Coloured (row : Nat → UInt8) (c : Nat) : Prop :=
  row (3*c) ≠ WHITE ∨ row (3*c+1) ≠ WHITE ∨ row (3*c+2) ≠ WHITE
instance (row c) : Decidable (Coloured row c) := by unfold Coloured; infer_instance

theorem blankIff (row : Nat → UInt8) (c : Nat) : ¬ Coloured row c ↔ ∀ k < 3, row (3*c+k) = WHITE := by
  simp only [Coloured,not_or,not_not]
  refine ⟨?_,fun all => ⟨all 0 (by omega),all 1 (by omega),all 2 (by omega)⟩⟩
  intro white k small
  obtain ⟨blue,green,red⟩ := white
  obtain rfl | rfl | rfl : k = 0 ∨ k = 1 ∨ k = 2 := by omega
  · exact blue
  · exact green
  · exact red

def columns : Version → Nat → Nat
  | .original, widthLoop => widthLoop+2
  | .corrected, widthLoop => widthLoop+1

theorem guardColumns (v : Version) (widthLoop t : Nat) :
    v.guard (UInt16.ofNat t) widthLoop = decide (t%65536 < columns v widthLoop) := by
  have counter : (UInt16.ofNat t).toNat = t%65536 := UInt16.toNat_ofNat'
  cases v with
  | original => rw [Version.guard,columns,counter]
  | corrected => rw [Version.guard,columns,counter,decide_eq_decide,Nat.lt_succ_iff]

section Pixels
variable {n s h : Nat}

theorem notWhiteResult (past f : Nat → UInt8) (p : Nat) :
    (notWhite past (tabulate n f) p).result =
      some (decide (Coloured (fun k => if k < n then f k else past k) p)) := by
  have reads (k : Nat) : load past (tabulate n f) k = (fun k => if k < n then f k else past k) k :=
    loadTabulate past f k
  generalize (fun k => if k < n then f k else past k) = row at *
  simp only [notWhite,loadByte,bindResult,emitResult,pureResult,Option.bind_some,reads,
    Colour.offset,Nat.add_zero]
  split
  · rename_i blue
    simp [Coloured,blue]
  · rename_i blue
    simp only [bindResult,emitResult,pureResult,Option.bind_some]
    split
    · rename_i green
      simp [Coloured,green]
    · rename_i green
      simp [Coloured,not_not.mp blue,not_not.mp green]

theorem modifyColourResult (past g : Nat → UInt8) (k : Nat) :
    (modifyColour past (tabulate s g) k).result =
      some (tabulate s (Function.update g k (shift (g k)))) := by
  simp only [modifyColour,loadByte,storeByte,bindResult,emitResult,pureResult,Option.bind_some,
    loadTabulate,storeTabulate]
  congr 1
  apply tabulateCongr
  intro i hi
  rcases eq_or_ne i k with same | other
  · subst i
    simp [hi]
  · simp [other]

theorem modifyPixelResult (past g : Nat → UInt8) (p : Nat) :
    (modifyPixel past (tabulate s g) p).result =
      some (tabulate s (fun k => if k/3 = p then shift (g k) else g k)) := by
  simp only [modifyPixel,bindResult,modifyColourResult,Option.bind_some,Colour.offset,Nat.add_zero]
  congr 2
  funext k
  simp only [Function.update_apply]
  have cell : k/3 = p ↔ k = 3*p ∨ k = 3*p+1 ∨ k = 3*p+2 := by omega
  by_cases red : k = 3*p+2
  · subst k
    simp [cell]
  · by_cases green : k = 3*p+1
    · subst k
      simp [cell]
    · by_cases blue : k = 3*p
      · subst k
        simp
      · simp [cell,red,green,blue]

/- The rows after t passes of the marking loop over row pRow. The counter is
taken modulo 65536, the pointer into the hidden row is not. -/
def marking (row : Nat → UInt8) (pRow : Nat) (cells : Nat → Nat → UInt8) : Nat → Nat → Nat → UInt8
  | 0 => cells
  | t+1 => if Coloured row t then
      Function.update (marking row pRow cells t) pRow (fun k =>
        if k/3 = t%65536 then shift (marking row pRow cells t pRow k) else marking row pRow cells t pRow k)
    else marking row pRow cells t

def markState (s h : Nat) (row : Nat → UInt8) (pRow : Nat) (cells : Nat → Nat → UInt8) (t : Nat) :
    MarkState s h :=
  ⟨UInt16.ofNat t,t,tableOf s h (marking row pRow cells t)⟩

theorem markPixelStep (mem : Memory) (f : Nat → UInt8) (cells : Nat → Nat → UInt8) {pRow : Nat}
    (inside : pRow < h) (t : Nat) :
    (markPixel mem (tabulate n f) pRow (markState s h
      (fun k => if k < n then f k else mem.past .hiddenText pRow k) pRow cells t)).result =
      some (markState s h (fun k => if k < n then f k else mem.past .hiddenText pRow k) pRow cells (t+1)) := by
  simp only [markPixel,markState,bindResult,notWhiteResult,Option.bind_some,decide_eq_true_eq]
  split
  · rename_i coloured
    simp only [bindResult,derefTable _ inside,emitResult,modifyPixelResult,Option.bind_some,pureResult,
      updateTable,marking,if_pos coloured,UInt16.toNat_ofNat',UInt16.ofNat_add]
    rfl
  · rename_i blank
    simp only [pureResult,marking,if_neg blank,UInt16.ofNat_add]
    rfl

theorem markingClosed (row : Nat → UInt8) (pRow : Nat) (cells : Nat → Nat → UInt8) {t : Nat}
    (bound : t ≤ 65536) (r k : Nat) :
    marking row pRow cells t r k =
      if r = pRow ∧ k/3 < t ∧ Coloured row (k/3) then shift (cells r k) else cells r k := by
  induction t with
  | zero => simp [marking]
  | succ t ih =>
    have earlier := ih (by omega)
    have counter : t%65536 = t := Nat.mod_eq_of_lt (by omega)
    have order : k/3 < t+1 ↔ k/3 < t ∨ k/3 = t := by omega
    rw [marking,counter]
    split
    · rename_i coloured
      rcases eq_or_ne r pRow with same | other
      · subst r
        rw [Function.update_self,earlier]
        rcases eq_or_ne (k/3) t with last | before
        · simp [last,coloured]
        · simp [order,before]
      · simp [other,earlier]
    · rename_i blank
      rw [earlier]
      rcases eq_or_ne (k/3) t with last | before
      · simp [last,blank]
      · simp [order,before]

theorem guardRuns {v : Version} {widthLoop t : Nat}
    (early : 65535 < columns v widthLoop ∨ t < columns v widthLoop) :
    v.guard (UInt16.ofNat t) widthLoop = true := by
  have below := Nat.mod_lt t (by decide : 0 < 65536)
  have least := Nat.mod_le t 65536
  rw [guardColumns,decide_eq_true_eq]
  omega

theorem guardStops {v : Version} {widthLoop : Nat} (fits : columns v widthLoop ≤ 65535) :
    v.guard (UInt16.ofNat (columns v widthLoop)) widthLoop = false := by
  rw [guardColumns,decide_eq_false_iff_not]
  omega

theorem markLineResult (v : Version) (fuel : Nat) (mem : Memory) (widthLoop : Nat) (f : Nat → UInt8)
    (cells : Nat → Nat → UInt8) {pRow : Nat} (inside : pRow < h) :
    (markLine v fuel mem widthLoop (tabulate n f) pRow (tableOf s h cells)).result =
      if columns v widthLoop ≤ 65535 ∧ columns v widthLoop < fuel then
        some (markState s h (fun k => if k < n then f k else mem.past .hiddenText pRow k) pRow cells
          (columns v widthLoop))
      else none := by
  have steps := markPixelStep (n := n) (s := s) mem f cells inside
  rcases Nat.lt_or_ge 65535 (columns v widthLoop) with wraps | fits
  · rw [if_neg (fun both => Nat.not_le.mpr wraps both.1)]
    exact loopForever (markState s h _ pRow cells) (fun t => guardRuns (.inl wraps)) steps fuel
  · simp only [fits,true_and]
    exact loopExit (markState s h _ pRow cells) (fun t ht => guardRuns (.inr ht))
      (guardStops fits) (fun t _ => steps t) fuel

end Pixels

section Lines
variable {n s h : Nat}

/- Row r of an image that is read through one reused buffer, as a loop sees it:
the buffer after r+1 reads, then whatever lies behind it at that moment. -/
def shown (mem : Memory) (image : Image) (n : Nat) (data : Bytes) (moment r : Nat) : Nat → UInt8 :=
  fun k => if k < n then refill n data (mem.heap image 0) (r+1) k else mem.past image moment k

def hideCells (v : Version) (widthLoop n : Nat) (data : Bytes) (mem : Memory)
    (cells : Nat → Nat → UInt8) (t : Nat) : Nat → Nat → UInt8 :=
  fun r k => if r < t ∧ k/3 < columns v widthLoop ∧ Coloured (shown mem .hiddenText n data r r) (k/3) then
    shift (cells r k) else cells r k

def hideState (v : Version) (widthLoop n s h : Nat) (data : Bytes) (mem : Memory)
    (cells : Nat → Nat → UInt8) (t : Nat) : HideState n s h :=
  ⟨t,tabulate n (refill n data (mem.heap .hiddenText 0) t),data.drop (t*n),
    tableOf s h (hideCells v widthLoop n data mem cells t)⟩

theorem hideFread (v : Version) (widthLoop : Nat) (data : Bytes) (mem : Memory)
    (cells : Nat → Nat → UInt8) (t : Nat) :
    (fread .hiddenText (hideState v widthLoop n s h data mem cells t).buffer
      (hideState v widthLoop n s h data mem cells t).stream).result =
      some (tabulate n (refill n data (mem.heap .hiddenText 0) (t+1)),data.drop ((t+1)*n)) := by
  simp only [fread,hideState,bindResult,emitResult,pureResult,Option.bind_some,refillStep,
    List.drop_drop,Nat.succ_mul]

theorem hideLineResult (v : Version) (fuel : Nat) (mem : Memory) (widthLoop : Nat) (data : Bytes)
    (cells : Nat → Nat → UInt8) {i t : Nat} (inside : t < h) :
    (hideLine v fuel mem widthLoop i (hideState v widthLoop n s h data mem cells t)).result =
      if columns v widthLoop ≤ 65535 ∧ columns v widthLoop < fuel then
        some (hideState v widthLoop n s h data mem cells (t+1)) else none := by
  simp only [hideLine,bindResult,hideFread,Option.bind_some]
  simp only [hideState]
  rw [markLineResult v fuel mem widthLoop _ _ inside]
  split
  · rename_i exits
    simp only [Option.bind_some,pureResult,markState]
    congr 2
    apply tableCongr
    intro r _ k _
    rw [markingClosed _ _ _ (by omega)]
    rcases eq_or_ne r t with same | other
    · subst r
      simp [hideCells]
      rfl
    · have order : r < t+1 ↔ r < t := by omega
      simp [hideCells,other,order]
  · rfl

theorem hideStart (v : Version) (widthLoop : Nat) (data : Bytes) (mem : Memory)
    (cells : Nat → Nat → UInt8) : hideState v widthLoop n s h data mem cells 0 =
      ⟨0,tabulate n (mem.heap .hiddenText 0),data,tableOf s h cells⟩ := by
  have rows : hideCells v widthLoop n data mem cells 0 = cells := by
    funext r k
    simp [hideCells]
  rw [hideState,rows,Nat.zero_mul,List.drop_zero]
  rfl

theorem hideLinesResult (v : Version) (fuel : Nat) (mem : Memory) (widthLoop : Nat) {heightLoop : Nat}
    (data : Bytes) (cells : Nat → Nat → UInt8) (fits : heightLoop ≤ h) :
    (hideLines v fuel mem widthLoop heightLoop (tabulate n (mem.heap .hiddenText 0)) data
      (tableOf s h cells)).result =
      if heightLoop = 0 ∨ (columns v widthLoop ≤ 65535 ∧ columns v widthLoop < fuel) then
        some (tableOf s h (hideCells v widthLoop n data mem cells heightLoop)) else none := by
  have line {i t : Nat} (ht : t < heightLoop) :=
    hideLineResult (n := n) (s := s) (i := i) v fuel mem widthLoop data cells (Nat.lt_of_lt_of_le ht fits)
  rw [hideLines,← hideStart v widthLoop data mem cells,bindResult]
  by_cases exits : columns v widthLoop ≤ 65535 ∧ columns v widthLoop < fuel
  · rw [countdownResult (hideState v widthLoop n s h data mem cells) (fun t ht => by rw [line ht,if_pos exits]),
      if_pos (.inr exits)]
    rfl
  · cases heightLoop with
    | zero =>
      rw [if_pos (.inl rfl)]
      rfl
    | succ m =>
      have blocked := countdownBlocked ((line (i := m+1) (Nat.succ_pos m)).trans (if_neg exits))
      rw [blocked.1,if_neg (by simp [exits])]
      rfl

end Lines

theorem nbByteLineStride (w : UInt16) : (nbByteLine w).toNat = stride w.toNat := by
  have bound := w.toNat_lt
  simp [nbByteLine,stride]
  omega

theorem nbByteLine32Stride (w : UInt16) : (nbByteLine32 w).toNat = stride w.toNat := by
  have bound := w.toNat_lt
  have rule := strideBounds w.toNat
  rw [nbByteLine32,UInt64.toNat_toUInt32,nbByteLineStride]
  omega

theorem overlapMin (a b : UInt16) : overlap a b = min b.toNat a.toNat := by
  unfold overlap
  split
  · rename_i le
    exact (Nat.min_eq_right (UInt16.le_iff_toNat_le.mp le)).symm
  · rename_i gt
    have other := Nat.le_of_not_le (fun le => gt (UInt16.le_iff_toNat_le.mpr le))
    exact (Nat.min_eq_left other).symm

structure Dims where
  width : Nat
  height : Nat
  hiddenWidth : Nat
  hiddenHeight : Nat
  deriving DecidableEq, Repr

def Dims.widthLoop (d : Dims) : Nat := min d.width d.hiddenWidth
def Dims.heightLoop (d : Dims) : Nat := min d.height d.hiddenHeight

def dims (mem : Memory) (src hiddenSource : Bytes) : Dims :=
  ⟨(readHeaders (mem.stack .bitmap) src).imageWidth.toNat,
    (readHeaders (mem.stack .bitmap) src).imageHeight.toNat,
    (readHeaders (mem.stack .hiddenText) hiddenSource).imageWidth.toNat,
    (readHeaders (mem.stack .hiddenText) hiddenSource).imageHeight.toNat⟩

def coverByte (d : Dims) (src : Bytes) (r k : Nat) : UInt8 :=
  ((src.drop pixelData)[r*stride d.width+k]?).getD 0

def Marked (v : Version) (mem : Memory) (d : Dims) (hiddenSource : Bytes) (r c : Nat) : Prop :=
  r < d.heightLoop ∧ c < columns v d.widthLoop ∧
    Coloured (shown mem .hiddenText (stride d.hiddenWidth) (hiddenSource.drop pixelData) r r) c
instance (v mem d hiddenSource r c) : Decidable (Marked v mem d hiddenSource r c) := by
  unfold Marked; infer_instance

def stegoByte (v : Version) (mem : Memory) (d : Dims) (src hiddenSource : Bytes) (r k : Nat) : UInt8 :=
  if Marked v mem d hiddenSource r (k/3) then shift (coverByte d src r k) else coverByte d src r k

def stegoFile (v : Version) (mem : Memory) (src hiddenSource : Bytes) : Bytes :=
  (readHeaders (mem.stack .bitmap) src).bytes ++
    grid (dims mem src hiddenSource).height (stride (dims mem src hiddenSource).width)
      (stegoByte v mem (dims mem src hiddenSource) src hiddenSource)

def Suffices (v : Version) (fuel : Nat) (d : Dims) : Prop :=
  d.heightLoop = 0 ∨ (columns v d.widthLoop ≤ 65535 ∧ columns v d.widthLoop < fuel)
instance (v fuel d) : Decidable (Suffices v fuel d) := by unfold Suffices; infer_instance

theorem encryptStages (v : Version) (fuel : Nat) (mem : Memory) (src hiddenSource : Bytes) :
    steganographyEncrypt v fuel mem src hiddenSource = (do
      let table ← newRows mem (stride (dims mem src hiddenSource).width) (dims mem src hiddenSource).height
      let table ← loadRows table (src.drop pixelData)
      let table ← hideLines v fuel mem (dims mem src hiddenSource).widthLoop
        (dims mem src hiddenSource).heightLoop
        (tabulate (stride (dims mem src hiddenSource).hiddenWidth) (mem.heap .hiddenText 0))
        (hiddenSource.drop pixelData) table
      writeRows table (readHeaders (mem.stack .bitmap) src).bytes) := by
  unfold steganographyEncrypt
  dsimp only
  rw [overlapMin,overlapMin]
  have cover := nbByteLineStride (readHeaders (mem.stack .bitmap) src).imageWidth
  have buffer := nbByteLineStride (readHeaders (mem.stack .hiddenText) hiddenSource).imageWidth
  generalize (nbByteLine (readHeaders (mem.stack .bitmap) src).imageWidth).toNat = s at cover ⊢
  generalize (nbByteLine (readHeaders (mem.stack .hiddenText) hiddenSource).imageWidth).toNat = n at buffer ⊢
  subst s n
  simp only [dims,Dims.widthLoop,Dims.heightLoop]

theorem encryptHidden (v : Version) (fuel : Nat) (mem : Memory) (d : Dims) (src hiddenSource : Bytes) :
    (hideLines v fuel mem d.widthLoop d.heightLoop
      (tabulate (stride d.hiddenWidth) (mem.heap .hiddenText 0)) (hiddenSource.drop pixelData)
      (tableOf (stride d.width) d.height (coverByte d src))).result =
      if Suffices v fuel d then
        some (tableOf (stride d.width) d.height (stegoByte v mem d src hiddenSource)) else none := by
  have fits : d.heightLoop ≤ d.height := Nat.min_le_left _ _
  have lines := hideLinesResult (n := stride d.hiddenWidth) (s := stride d.width) v fuel mem d.widthLoop
    (hiddenSource.drop pixelData) (coverByte d src) fits
  by_cases enough : Suffices v fuel d
  · rw [if_pos enough,lines.trans (if_pos enough)]
    rfl
  · rw [if_neg enough,lines.trans (if_neg enough)]

theorem encryptResult (v : Version) (fuel : Nat) (mem : Memory) (src hiddenSource : Bytes) :
    (steganographyEncrypt v fuel mem src hiddenSource).result =
      if Suffices v fuel (dims mem src hiddenSource) then some (stegoFile v mem src hiddenSource)
      else none := by
  rw [encryptStages,stegoFile]
  generalize dims mem src hiddenSource = d
  have lines := encryptHidden v fuel mem d src hiddenSource
  unfold coverByte at lines
  simp only [bindResult,newRowsResult,loadRowsResult,Option.bind_some,lines]
  split
  · rw [Option.bind_some,writeRowsResult]
  · rfl

end SesLabs.BitmapEncrypt
