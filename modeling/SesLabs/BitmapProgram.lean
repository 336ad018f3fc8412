import SesLabs.EventRun
import SesLabs.BitmapFormat

/-! steganographyEncrypt, steganographyDecrypt and main, of bitmap_corr.C and of
bitmap.C, which differs in the guard of one loop. A file is the list of its
bytes; the files are there and can be opened. Row buffers are arrays of the
allocated length: a read behind one yields an unknown byte, a write behind one
changes no row buffer, and what else it changes is not followed; every access is
logged. Releasing memory and closing files change neither a row nor a written byte
and are left out. -/
namespace SesLabs.BitmapProgram
open EventRun EventRun.Run RowBuffer BitmapFormat

inductive Image where
  | bitmap | hiddenText | bitmapOri | bitmapModified | bitmapFoundHiddenText
  deriving DecidableEq, Repr

inductive Event where
  | access (owner : Image) (offset count size : Nat)
  | rowTable (index size : Nat)
  | rowRead (file : Image) (wanted got : Nat)
  | modifyPixel (row column : Nat)
  deriving DecidableEq, Repr

def Event.InBounds : Event → Prop
  | .access _ offset count size => offset+count ≤ size
  | .rowTable index size => index < size
  | .rowRead _ _ _ => True
  | .modifyPixel _ _ => True
instance : DecidablePred Event.InBounds := fun e => by
  cases e <;> unfold Event.InBounds <;> infer_instance

/- The bytes a run may read without having set them: what `new` hands out, what
lies behind a row buffer, and the header structures on the stack. -/
structure Memory where
  heap : Image → Nat → Nat → UInt8
  past : Image → Nat → Nat → UInt8
  stack : Image → Headers

def constantMemory (heap past : UInt8) : Memory :=
  ⟨fun _ _ _ => heap,fun _ _ _ => past,fun _ => ⟨Vector.replicate _ 0,Vector.replicate _ 0⟩⟩

section Buffers
variable {n : Nat} (owner : Image) (past : Nat → UInt8)

def loadByte (b : Vector UInt8 n) (k : Nat) : Run Event UInt8 := do
  emit (.access owner k 1 n)
  return load past b k

def storeByte (b : Vector UInt8 n) (k : Nat) (v : UInt8) : Run Event (Vector UInt8 n) := do
  emit (.access owner k 1 n)
  return store b k v

def memset (_ : Vector UInt8 n) (v : UInt8) : Run Event (Vector UInt8 n) := do
  emit (.access owner 0 n n)
  return Vector.replicate n v

def fread (b : Vector UInt8 n) (stream : Bytes) : Run Event (Vector UInt8 n × Bytes) := do
  emit (.rowRead owner n (min n stream.length))
  emit (.access owner 0 (min n stream.length) n)
  return (refilled b stream,stream.drop n)

def fwrite (b : Vector UInt8 n) (out : Bytes) : Run Event Bytes := do
  emit (.access owner 0 n n)
  return out ++ b.toList

end Buffers

def shift (v : UInt8) : UInt8 := if v ≥ DELTA then v - DELTA else v + DELTA

def modifyColour {n : Nat} (past : Nat → UInt8) (row : Vector UInt8 n) (k : Nat) :
    Run Event (Vector UInt8 n) := do
  let v ← loadByte .bitmap past row k
  storeByte .bitmap row k (shift v)

/- `modifyPixel (row + p)`: the pixel pointer is an index into the row. -/
def modifyPixel {n : Nat} (past : Nat → UInt8) (row : Vector UInt8 n) (p : Nat) :
    Run Event (Vector UInt8 n) := do
  let row ← modifyColour past row (3*p+Colour.blue.offset)
  let row ← modifyColour past row (3*p+Colour.green.offset)
  modifyColour past row (3*p+Colour.red.offset)

abbrev RowTable (s h : Nat) := Vector (Option (Vector UInt8 s)) h

section Rows
variable {s h : Nat}

-- Following a NULL or a wild pointer has no defined continuation.
def derefRow (table : RowTable s h) (pRow : Nat) : Run Event (Vector UInt8 s) :=
  ⟨[.rowTable pRow h],(table[pRow]?).join⟩

def setRow (table : RowTable s h) (pRow : Nat) (row : Vector UInt8 s) : Run Event (RowTable s h) := do
  emit (.rowTable pRow h)
  return table.setIfInBounds pRow (some row)

/- The row an entry points to gets new content; the pointer stays. -/
def updateRow (table : RowTable s h) (pRow : Nat) (row : Vector UInt8 s) : RowTable s h :=
  table.setIfInBounds pRow (some row)

structure RowState (s h : Nat) where
  pRow : Nat
  table : RowTable s h

def newRow (mem : Memory) (_ : Nat) (st : RowState s h) : Run Event (RowState s h) := do
  let table ← setRow st.table st.pRow (tabulate s (mem.heap .bitmap st.pRow))
  let row ← derefRow table st.pRow
  let row ← memset .bitmap row 0
  return ⟨st.pRow+1,updateRow table st.pRow row⟩

def newRows (mem : Memory) (s h : Nat) : Run Event (RowTable s h) := do
  let st ← countdown (newRow mem) h ⟨0,Vector.replicate h none⟩
  return st.table

structure LoadState (s h : Nat) where
  pRow : Nat
  table : RowTable s h
  stream : Bytes

def loadRow (_ : Nat) (st : LoadState s h) : Run Event (LoadState s h) := do
  let row ← derefRow st.table st.pRow
  let (row,stream) ← fread .bitmap row st.stream
  return ⟨st.pRow+1,updateRow st.table st.pRow row,stream⟩

def loadRows (table : RowTable s h) (stream : Bytes) : Run Event (RowTable s h) := do
  let st ← countdown loadRow h ⟨0,table,stream⟩
  return st.table

structure WriteState where
  pRow : Nat
  dst : Bytes

def writeRow (table : RowTable s h) (_ : Nat) (st : WriteState) : Run Event WriteState := do
  let row ← derefRow table st.pRow
  let dst ← fwrite .bitmap row st.dst
  return ⟨st.pRow+1,dst⟩

def writeRows (table : RowTable s h) (dst : Bytes) : Run Event Bytes := do
  let st ← countdown (writeRow table) h ⟨0,dst⟩
  return st.dst

end Rows

inductive Version where
  | original | corrected
  deriving DecidableEq, Repr

/- The guard of the marking loop. The counter is an unsigned short, widthLoop an int. -/
def Version.guard : Version → UInt16 → Nat → Bool
  | .original, j, widthLoop => decide (j.toNat < widthLoop+2)
  | .corrected, j, widthLoop => decide (j.toNat ≤ widthLoop)

/- The white test with its short circuit: a later colour is read only when the
earlier ones are white. -/
def notWhite {n : Nat} (past : Nat → UInt8) (b : Vector UInt8 n) (p : Nat) : Run Event Bool := do
  let blue ← loadByte .hiddenText past b (3*p+Colour.blue.offset)
  if blue ≠ WHITE then return true else do
    let green ← loadByte .hiddenText past b (3*p+Colour.green.offset)
    if green ≠ WHITE then return true else do
      let red ← loadByte .hiddenText past b (3*p+Colour.red.offset)
      return decide (red ≠ WHITE)

section Mark
variable {n s h : Nat}

structure MarkState (s h : Nat) where
  j : UInt16
  pRgb : Nat
  table : RowTable s h

def markPixel (mem : Memory) (buffer : Vector UInt8 n) (pRow : Nat) (st : MarkState s h) :
    Run Event (MarkState s h) := do
  let hit ← notWhite (mem.past .hiddenText pRow) buffer st.pRgb
  if hit then do
    let row ← derefRow st.table pRow
    emit (.modifyPixel pRow st.j.toNat)
    let row ← modifyPixel (mem.past .bitmap pRow) row st.j.toNat
    return ⟨st.j+1,st.pRgb+1,updateRow st.table pRow row⟩
  else return ⟨st.j+1,st.pRgb+1,st.table⟩

def markLine (v : Version) (fuel : Nat) (mem : Memory) (widthLoop : Nat) (buffer : Vector UInt8 n)
    (pRow : Nat) (table : RowTable s h) : Run Event (MarkState s h) :=
  loop (fun st => v.guard st.j widthLoop) (markPixel mem buffer pRow) fuel ⟨0,0,table⟩

structure HideState (n s h : Nat) where
  pRow : Nat
  buffer : Vector UInt8 n
  stream : Bytes
  table : RowTable s h

def hideLine (v : Version) (fuel : Nat) (mem : Memory) (widthLoop : Nat) (_ : Nat)
    (st : HideState n s h) : Run Event (HideState n s h) := do
  let (buffer,stream) ← fread .hiddenText st.buffer st.stream
  let line ← markLine v fuel mem widthLoop buffer st.pRow st.table
  return ⟨st.pRow+1,buffer,stream,line.table⟩

def hideLines (v : Version) (fuel : Nat) (mem : Memory) (widthLoop heightLoop : Nat)
    (buffer : Vector UInt8 n) (stream : Bytes) (table : RowTable s h) : Run Event (RowTable s h) := do
  let st ← countdown (hideLine v fuel mem widthLoop) heightLoop ⟨0,buffer,stream,table⟩
  return st.table

end Mark

/- `unsigned long nb_byte_line` of steganographyEncrypt. -/
def nbByteLine (width : UInt16) : UInt64 := width.toUInt64*3 + (width%4).toUInt64

/- `uint32_t nb_byte_line` of IMAGE_BMP: the same expression, stored in 32 bits. -/
def nbByteLine32 (width : UInt16) : UInt32 := (nbByteLine width).toUInt32

def overlap (hiddenText bitmap : UInt16) : Nat :=
  if hiddenText ≤ bitmap then hiddenText.toNat else bitmap.toNat

def pixelData : Nat := structSize header1 + structSize header2

def steganographyEncrypt (v : Version) (fuel : Nat) (mem : Memory) (src hiddenSource : Bytes) :
    Run Event Bytes := do
  let bitmap := readHeaders (mem.stack .bitmap) src
  let table ← newRows mem (nbByteLine bitmap.imageWidth).toNat bitmap.imageHeight.toNat
  let table ← loadRows table (src.drop pixelData)
  let hiddenText := readHeaders (mem.stack .hiddenText) hiddenSource
  let buffer := tabulate (nbByteLine hiddenText.imageWidth).toNat (mem.heap .hiddenText 0)
  let heightLoop := overlap hiddenText.imageHeight bitmap.imageHeight
  let widthLoop := overlap hiddenText.imageWidth bitmap.imageWidth
  let table ← hideLines v fuel mem widthLoop heightLoop buffer (hiddenSource.drop pixelData) table
  writeRows table bitmap.bytes

section Decrypt
variable {n m : Nat}

structure CheckState (n : Nat) where
  pRgb : Nat
  found : Vector UInt8 n

def checkPixel (colour : Colour) (mem : Memory) (i : Nat) (ori : Vector UInt8 n)
    (modified : Vector UInt8 m) (_ : Nat) (st : CheckState n) : Run Event (CheckState n) := do
  let o := 3*st.pRgb
  let left ← loadByte .bitmapOri (mem.past .bitmapOri i) ori (o+colour.offset)
  let right ← loadByte .bitmapModified (mem.past .bitmapModified i) modified (o+colour.offset)
  if left ≠ right then do
    let found ← storeByte .bitmapFoundHiddenText st.found (o+Colour.red.offset) BLACK
    let found ← storeByte .bitmapFoundHiddenText found (o+Colour.green.offset) BLACK
    let found ← storeByte .bitmapFoundHiddenText found (o+Colour.blue.offset) BLACK
    return ⟨st.pRgb+1,found⟩
  else return ⟨st.pRgb+1,st.found⟩

structure LineState (n m : Nat) where
  ori : Vector UInt8 n
  modified : Vector UInt8 m
  found : Vector UInt8 n
  oriStream : Bytes
  modifiedStream : Bytes
  text : Bytes

def checkLine (colour : Colour) (mem : Memory) (width : Nat) (i : Nat) (st : LineState n m) :
    Run Event (LineState n m) := do
  let (ori,oriStream) ← fread .bitmapOri st.ori st.oriStream
  let (modified,modifiedStream) ← fread .bitmapModified st.modified st.modifiedStream
  let found ← memset .bitmapFoundHiddenText st.found WHITE
  let line ← countdown (checkPixel colour mem i ori modified) width ⟨0,found⟩
  let text ← fwrite .bitmapFoundHiddenText line.found st.text
  return ⟨ori,modified,line.found,oriStream,modifiedStream,text⟩

/- The source compares Red; its comment says any one colour will do. -/
def decryptBy (colour : Colour) (mem : Memory) (pOri pModified : Bytes) : Run Event Bytes := do
  let bitmapOri := readHeaders (mem.stack .bitmapOri) pOri
  let bitmapModified := readHeaders (mem.stack .bitmapModified) pModified
  let n := (nbByteLine32 bitmapOri.imageWidth).toNat
  let m := (nbByteLine32 bitmapModified.imageWidth).toNat
  let start : LineState n m :=
    ⟨tabulate n (mem.heap .bitmapOri 0),tabulate m (mem.heap .bitmapModified 0),
      tabulate n (mem.heap .bitmapFoundHiddenText 0),pOri.drop pixelData,
      pModified.drop pixelData,bitmapOri.bytes⟩
  let st ← countdown (checkLine colour mem bitmapOri.imageWidth.toNat)
    bitmapOri.imageHeight.toNat start
  return st.text

end Decrypt

def steganographyDecrypt (mem : Memory) (pOri pModified : Bytes) : Run Event Bytes :=
  decryptBy .red mem pOri pModified

def main (v : Version) (fuel : Nat) (mem : Memory) (img1 hiddenText : Bytes) :
    Run Event (Bytes × Bytes) := do
  let img2 ← steganographyEncrypt v fuel mem img1 hiddenText
  let hiddenText2 ← steganographyDecrypt mem img1 img2
  return (img2,hiddenText2)

end SesLabs.BitmapProgram
