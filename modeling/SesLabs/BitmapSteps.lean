import SesLabs.RunMonitor
import SesLabs.BitmapProgram

/-! bitmap.C and bitmap_corr.C with the files they open and the memory they take
from new. The two functions are written again with every fopen, fclose, new and
delete at its place; without these steps they are the functions of the model. The
functions are static and get their file names from main. -/
namespace SesLabs.BitmapSteps
open EventRun EventRun.Run RowBuffer BitmapFormat BitmapProgram RunMonitor

inductive Path where
  | img1 | img2 | hiddenText | hiddenText2
  deriving DecidableEq, Repr

inductive Resource where
  | file (path : Path)
  | pBuffer
  | row (index : Nat)
  | buffer (image : Image)
  deriving DecidableEq, Repr

inductive Step where
  | acquire (r : Resource)
  | use (r : Resource)
  | release (r : Resource)
  | touch (e : Event)
  deriving DecidableEq, Repr

def Step.event : Step → Option Event
  | .touch e => some e
  | _ => none

def track {α : Type} (x : Run Event α) : Run Step α := relabel .touch x

section Encrypt
variable {s h : Nat}

def newRowSteps (mem : Memory) (i : Nat) (st : RowState s h) : Run Step (RowState s h) := do
  emit (.acquire (.row st.pRow))
  track (newRow mem i st)

def newRowsSteps (mem : Memory) (s h : Nat) : Run Step (RowTable s h) := do
  emit (.acquire .pBuffer)
  emit (.use .pBuffer)
  let st ← countdown (newRowSteps mem) h ⟨0,Vector.replicate h none⟩
  return st.table

def writeRowSteps (table : RowTable s h) (i : Nat) (st : WriteState) : Run Step WriteState := do
  let st ← track (writeRow table i st)
  emit (.use (.file .img2))
  return st

def writeRowsSteps (table : RowTable s h) (dst : Bytes) : Run Step Bytes := do
  let st ← countdown (writeRowSteps table) h ⟨0,dst⟩
  return st.dst

def deleteRow (_ : Nat) (pRow : Nat) : Run Step Nat := do
  emit (.use .pBuffer)
  emit (.release (.row pRow))
  return pRow+1

end Encrypt

/- `delete[] bitmap.p_buffer` is what bitmap_corr.C adds. -/
def deleteTable : Version → Run Step Unit
  | .original => pure ()
  | .corrected => emit (.release .pBuffer)

def encryptSteps (v : Version) (fuel : Nat) (mem : Memory) (src hiddenSource : Bytes) : Run Step Bytes := do
  emit (.acquire (.file .img1))
  emit (.acquire (.file .img2))
  emit (.use (.file .img1))
  emit (.use (.file .img2))
  emit (.use (.file .img1))
  emit (.use (.file .img2))
  let bitmap := readHeaders (mem.stack .bitmap) src
  let table ← newRowsSteps mem (nbByteLine bitmap.imageWidth).toNat bitmap.imageHeight.toNat
  let table ← track (loadRows table (src.drop pixelData))
  emit (.acquire (.file .hiddenText))
  emit (.use (.file .hiddenText))
  emit (.use (.file .hiddenText))
  let hiddenText := readHeaders (mem.stack .hiddenText) hiddenSource
  emit (.acquire (.buffer .hiddenText))
  let buffer := tabulate (nbByteLine hiddenText.imageWidth).toNat (mem.heap .hiddenText 0)
  let heightLoop := overlap hiddenText.imageHeight bitmap.imageHeight
  let widthLoop := overlap hiddenText.imageWidth bitmap.imageWidth
  let table ← track (hideLines v fuel mem widthLoop heightLoop buffer (hiddenSource.drop pixelData) table)
  emit (.release (.buffer .hiddenText))
  emit (.release (.file .hiddenText))
  let dst ← writeRowsSteps table bitmap.bytes
  let _ ← countdown deleteRow bitmap.imageHeight.toNat 0
  deleteTable v
  emit (.release (.file .img1))
  emit (.release (.file .img2))
  return dst

def checkLineSteps {n m : Nat} (mem : Memory) (width i : Nat) (st : LineState n m) :
    Run Step (LineState n m) := do
  let st ← track (checkLine .red mem width i st)
  emit (.use (.file .hiddenText2))
  return st

def decryptSteps (mem : Memory) (pOri pModified : Bytes) : Run Step Bytes := do
  emit (.acquire (.file .img1))
  emit (.acquire (.file .img2))
  emit (.acquire (.file .hiddenText2))
  emit (.use (.file .img1))
  emit (.use (.file .img1))
  emit (.use (.file .img2))
  emit (.use (.file .img2))
  emit (.use (.file .hiddenText2))
  emit (.use (.file .hiddenText2))
  let bitmapOri := readHeaders (mem.stack .bitmapOri) pOri
  let bitmapModified := readHeaders (mem.stack .bitmapModified) pModified
  let n := (nbByteLine32 bitmapOri.imageWidth).toNat
  let m := (nbByteLine32 bitmapModified.imageWidth).toNat
  emit (.acquire (.buffer .bitmapOri))
  emit (.acquire (.buffer .bitmapModified))
  emit (.acquire (.buffer .bitmapFoundHiddenText))
  let start : LineState n m :=
    ⟨tabulate n (mem.heap .bitmapOri 0),tabulate m (mem.heap .bitmapModified 0),
      tabulate n (mem.heap .bitmapFoundHiddenText 0),pOri.drop pixelData,
      pModified.drop pixelData,bitmapOri.bytes⟩
  let st ← countdown (checkLineSteps mem bitmapOri.imageWidth.toNat) bitmapOri.imageHeight.toNat start
  emit (.release (.buffer .bitmapOri))
  emit (.release (.buffer .bitmapModified))
  emit (.release (.buffer .bitmapFoundHiddenText))
  emit (.release (.file .img1))
  emit (.release (.file .img2))
  emit (.release (.file .hiddenText2))
  return st.text

def mainSteps (v : Version) (fuel : Nat) (mem : Memory) (img1 hiddenText : Bytes) : Run Step (Bytes × Bytes) := do
  let img2 ← encryptSteps v fuel mem img1 hiddenText
  let hiddenText2 ← decryptSteps mem img1 img2
  return (img2,hiddenText2)

section Erase

theorem eraseTrack {α : Type} (x : Run Event α) : erase Step.event (track x) = x :=
  eraseRelabel Step.event (fun _ => rfl) x

theorem eraseAcquire (r : Resource) : erase Step.event (emit (.acquire r)) = pure () := eraseEmit _ rfl
theorem eraseUse (r : Resource) : erase Step.event (emit (.use r)) = pure () := eraseEmit _ rfl
theorem eraseRelease (r : Resource) : erase Step.event (emit (.release r)) = pure () := eraseEmit _ rfl

theorem eraseNewRows (mem : Memory) (s h : Nat) :
    erase Step.event (newRowsSteps mem s h) = newRows mem s h := by
  simp only [newRowsSteps,newRowSteps,eraseBind,eraseAcquire,eraseUse,eraseCountdown,eraseTrack,erasePure,
    pure_bind]
  rfl

theorem eraseWriteRows {s h : Nat} (table : RowTable s h) (dst : Bytes) :
    erase Step.event (writeRowsSteps table dst) = writeRows table dst := by
  simp only [writeRowsSteps,writeRowSteps,eraseBind,eraseUse,eraseCountdown,eraseTrack,erasePure,
    pure_bind,bind_pure]
  rfl

theorem eraseDeleteRows (n pRow : Nat) : erase Step.event (countdown deleteRow n pRow) = pure (pRow+n) := by
  induction n generalizing pRow with
  | zero => rfl
  | succ n ih =>
    simp only [countdown,deleteRow,eraseBind,eraseUse,eraseRelease,erasePure,pure_bind,ih]
    rw [Nat.add_right_comm,Nat.add_assoc]

theorem eraseDeleteTable (v : Version) : erase Step.event (deleteTable v) = pure () := by
  cases v with
  | original => rfl
  | corrected => exact eraseRelease .pBuffer

theorem eraseEncrypt (v : Version) (fuel : Nat) (mem : Memory) (src hiddenSource : Bytes) :
    erase Step.event (encryptSteps v fuel mem src hiddenSource) =
      steganographyEncrypt v fuel mem src hiddenSource := by
  simp only [encryptSteps,steganographyEncrypt,eraseBind,eraseAcquire,eraseUse,eraseRelease,eraseTrack,erasePure,eraseNewRows,
    eraseWriteRows,eraseDeleteRows,eraseDeleteTable,pure_bind,bind_pure]

theorem eraseDecrypt (mem : Memory) (pOri pModified : Bytes) :
    erase Step.event (decryptSteps mem pOri pModified) = steganographyDecrypt mem pOri pModified := by
  simp only [decryptSteps,checkLineSteps,steganographyDecrypt,decryptBy,eraseBind,eraseAcquire,eraseUse,eraseRelease,eraseCountdown,eraseTrack,
    erasePure,pure_bind,bind_pure]

theorem eraseMain (v : Version) (fuel : Nat) (mem : Memory) (img1 hiddenText : Bytes) :
    erase Step.event (mainSteps v fuel mem img1 hiddenText) = main v fuel mem img1 hiddenText := by
  simp only [mainSteps,main,eraseBind,eraseEncrypt,eraseDecrypt,erasePure]

end Erase
end SesLabs.BitmapSteps
