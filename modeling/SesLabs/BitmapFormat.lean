import SesLabs.Bytes
import SesLabs.RowBuffer

/-! The packed header structures of bitmap_corr.C and bitmap.C, the fields the
code reads from them, and the pixels of a file as a reader of the file sees them.
Header fields are little endian. -/
namespace SesLabs.BitmapFormat
open RowBuffer

def WHITE : UInt8 := 0xFF
def BLACK : UInt8 := 0x0
def DELTA : UInt8 := 100

inductive Field1 where
  | imageFileType | fileSize | reserved1 | reserved2 | imageDataOffset
  deriving DecidableEq, Repr

inductive Field2 where
  | headerSize | reserved1 | imageWidth | reserved2 | imageHeight | reserved3
  | numberOfImagePlanes | bitPerPixel | compressionMethod | sizeOfBitmap
  | horzResolution | vertResolution | numColorsUsed | numSignificantColors
  deriving DecidableEq, Repr

def header1 : List (Field1 × Nat) :=
  [(.imageFileType,2),(.fileSize,4),(.reserved1,2),(.reserved2,2),(.imageDataOffset,4)]

def header2 : List (Field2 × Nat) :=
  [(.headerSize,2),(.reserved1,2),(.imageWidth,2),(.reserved2,2),(.imageHeight,2),(.reserved3,2),
    (.numberOfImagePlanes,2),(.bitPerPixel,2),(.compressionMethod,4),(.sizeOfBitmap,4),
    (.horzResolution,4),(.vertResolution,4),(.numColorsUsed,4),(.numSignificantColors,4)]

def structSize {F : Type} (layout : List (F × Nat)) : Nat :=
  layout.foldr (fun field size => field.2+size) 0

-- The structures are packed: a field starts where the fields before it end.
def offsetOf {F : Type} [DecidableEq F] (layout : List (F × Nat)) (field : F) : Nat :=
  structSize (layout.takeWhile (fun e => e.1 ≠ field))

@[simp] theorem structSizeHeader1 : structSize header1 = 14 := rfl
@[simp] theorem structSizeHeader2 : structSize header2 = 40 := rfl

structure Headers where
  h1 : Vector UInt8 (structSize header1)
  h2 : Vector UInt8 (structSize header2)

def Headers.bytes (h : Headers) : Bytes := h.h1.toList ++ h.h2.toList

def word {n : Nat} (h : Vector UInt8 n) (o : Nat) : UInt16 :=
  UInt16.ofNat (((h[o]?).getD 0).toNat + 256*((h[o+1]?).getD 0).toNat)

def Headers.imageWidth (h : Headers) : UInt16 := word h.h2 (offsetOf header2 .imageWidth)
def Headers.imageHeight (h : Headers) : UInt16 := word h.h2 (offsetOf header2 .imageHeight)

def readHeaders (h : Headers) (f : Bytes) : Headers :=
  ⟨refilled h.h1 f,refilled h.h2 (f.drop (structSize header1))⟩

/-! The same fields as offsets in the file. -/
def byteAt (f : Bytes) (i : Nat) : Nat := ((f[i]?).getD 0).toNat
def wordAt (f : Bytes) (i : Nat) : Nat := byteAt f i + 256*byteAt f (i+1)
def dwordAt (f : Bytes) (i : Nat) : Nat := wordAt f i + 65536*wordAt f (i+2)

def widthOf (f : Bytes) : Nat := wordAt f 18
def heightOf (f : Bytes) : Nat := wordAt f 22
def stride (w : Nat) : Nat := 3*w + w%4

def FullLength (f : Bytes) : Prop := 54 + heightOf f*stride (widthOf f) ≤ f.length
instance (f) : Decidable (FullLength f) := by unfold FullLength; infer_instance

structure RGB where
  blue : UInt8
  green : UInt8
  red : UInt8
  deriving DecidableEq, Repr

def RGB.white : RGB := ⟨WHITE,WHITE,WHITE⟩
def RGB.black : RGB := ⟨BLACK,BLACK,BLACK⟩

inductive Colour where
  | blue | green | red
  deriving DecidableEq, Repr

def Colour.offset : Colour → Nat
  | .blue => 0
  | .green => 1
  | .red => 2

def RGB.get (p : RGB) : Colour → UInt8
  | .blue => p.blue
  | .green => p.green
  | .red => p.red

def pixelAt (f : Bytes) (r c : Nat) : Option RGB := do
  let o := 54 + r*stride (widthOf f) + 3*c
  let blue ← f[o]?
  let green ← f[o+1]?
  let red ← f[o+2]?
  some ⟨blue,green,red⟩

theorem byteLt (f i) : byteAt f i < 256 := UInt8.toNat_lt _

theorem wordLt (f i) : wordAt f i < 65536 := by
  have low := byteLt f i
  have high := byteLt f (i+1)
  unfold wordAt
  omega

/- The stride is the length the BMP rule gives: rows are padded to four bytes. -/
theorem strideRule (w : Nat) : stride w = 4*((3*w+3)/4) := by
  unfold stride
  omega

theorem strideBounds (w : Nat) : 3*w ≤ stride w ∧ stride w ≤ 3*w+3 := by
  unfold stride
  omega

theorem headerByte (h : Headers) {f : Bytes} (complete : 54 ≤ f.length) {o : Nat} (inside : o < 40) :
    (readHeaders h f).h2[o]? = f[14+o]? := by
  have available : o < (f.drop (structSize header1)).length := by simp; omega
  have same := refilledAt h.h2 (by simpa using inside) available
  simpa [readHeaders] using same

theorem headerWord (h : Headers) {f : Bytes} (complete : 54 ≤ f.length) {o : Nat} (inside : o+1 < 40) :
    (word (readHeaders h f).h2 o).toNat = wordAt f (14+o) := by
  have bound := wordLt f (14+o)
  unfold wordAt byteAt at *
  rw [word,headerByte h complete (by omega),headerByte h complete inside,
    UInt16.toNat_ofNat_of_lt' (by simpa [Nat.add_assoc] using bound)]
  simp [Nat.add_assoc]

theorem readWidth (h : Headers) {f : Bytes} (complete : 54 ≤ f.length) :
    (readHeaders h f).imageWidth.toNat = widthOf f := by
  exact headerWord h complete (o := 4) (by omega)

theorem readHeight (h : Headers) {f : Bytes} (complete : 54 ≤ f.length) :
    (readHeaders h f).imageHeight.toNat = heightOf f := by
  exact headerWord h complete (o := 8) (by omega)

theorem readBytes (h : Headers) {f : Bytes} (complete : 54 ≤ f.length) :
    (readHeaders h f).bytes = f.take 54 := by
  have first := refilledList (n := structSize header1) h.h1 (by rw [structSizeHeader1]; omega : _ ≤ f.length)
  have second := refilledList (n := structSize header2) h.h2
    (by rw [List.length_drop,structSizeHeader1,structSizeHeader2]; omega : _ ≤ (f.drop (structSize header1)).length)
  rw [Headers.bytes,readHeaders,first,second,← List.take_add]
  simp

theorem headersLength (h : Headers) : h.bytes.length = 54 := by
  rw [Headers.bytes,List.length_append,Vector.length_toList,Vector.length_toList]
  rfl

theorem wordOfPrefix {f g : Bytes} (same : f.take 54 = g.take 54) {i : Nat} (inside : i+1 < 54) :
    wordAt f i = wordAt g i := by
  have cell (k : Nat) (hk : k < 54) : f[k]? = g[k]? := by
    rw [← List.getElem?_take_of_lt hk,same,List.getElem?_take_of_lt hk]
  simp [wordAt,byteAt,cell i (by omega),cell (i+1) inside]

theorem pixelAtOf {f : Bytes} {r c : Nat} {b g d : UInt8}
    (blue : f[54 + r*stride (widthOf f) + 3*c]? = some b)
    (green : f[54 + r*stride (widthOf f) + 3*c+1]? = some g)
    (red : f[54 + r*stride (widthOf f) + 3*c+2]? = some d) :
    pixelAt f r c = some ⟨b,g,d⟩ := by
  simp [pixelAt,blue,green,red]

def smallHeader (width height : UInt8) : Bytes :=
  [0x42,0x4D,0,0,0,0,0,0,0,0,54,0,0,0,40,0,0,0,width,0,0,0,height,0,0,0,1,0,24,0] ++ List.replicate 24 0

end SesLabs.BitmapFormat
