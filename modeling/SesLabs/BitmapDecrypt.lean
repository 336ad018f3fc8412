import SesLabs.BitmapEncrypt

/-! What steganographyDecrypt returns, in closed form, for any colour the
comparison may look at and any pair of files. -/
namespace SesLabs.BitmapDecrypt
open EventRun EventRun.Run RowBuffer BitmapFormat BitmapProgram BitmapEncrypt

def Differs (colour : Colour) (left right : Nat → UInt8) (c : Nat) : Prop :=
  left (3*c+colour.offset) ≠ right (3*c+colour.offset)
instance (colour left right c) : Decidable (Differs colour left right c) := by
  unfold Differs; infer_instance

def foundLine (colour : Colour) (left right : Nat → UInt8) (t : Nat) : Nat → UInt8 :=
  fun k => if k/3 < t ∧ Differs colour left right (k/3) then BLACK else WHITE

section Line
variable {n m : Nat}

def checking (n : Nat) (colour : Colour) (left right : Nat → UInt8) (t : Nat) : CheckState n :=
  ⟨t,tabulate n (foundLine colour left right t)⟩

theorem checkPixelStep (colour : Colour) (mem : Memory) {ori : Vector UInt8 n} {modified : Vector UInt8 m}
    {left right : Nat → UInt8} {i : Nat} (reads : ∀ k, load (mem.past .bitmapOri i) ori k = left k)
    (reads' : ∀ k, load (mem.past .bitmapModified i) modified k = right k) (j t : Nat) :
    (checkPixel colour mem i ori modified j (checking n colour left right t)).result =
      some (checking n colour left right (t+1)) := by
  simp only [checkPixel,checking,loadByte,bindResult,emitResult,pureResult,Option.bind_some,reads,reads']
  split
  · rename_i differs
    simp only [storeByte,bindResult,emitResult,pureResult,Option.bind_some,storeTabulate,Colour.offset,
      Nat.add_zero]
    congr 3
    funext k
    have cell : k/3 = t ↔ k = 3*t ∨ k = 3*t+1 ∨ k = 3*t+2 := by omega
    have order : k/3 < t+1 ↔ k/3 < t ∨ k/3 = t := by omega
    rcases eq_or_ne (k/3) t with last | before
    · have hit : Differs colour left right (k/3) := by rw [last]; exact differs
      have painted : foundLine colour left right (t+1) k = BLACK := if_pos ⟨order.mpr (.inr last),hit⟩
      rw [painted]
      rcases cell.mp last with blue | green | red
      · simp [blue]
      · simp [green]
      · simp [red]
    · obtain ⟨blue,green,red⟩ : k ≠ 3*t ∧ k ≠ 3*t+1 ∧ k ≠ 3*t+2 := by omega
      simp [foundLine,order,before,blue,green,red]
  · rename_i same
    rw [pureResult]
    congr 3
    funext k
    have order : k/3 < t+1 ↔ k/3 < t ∨ k/3 = t := by omega
    rcases eq_or_ne (k/3) t with last | before
    · have miss : ¬ Differs colour left right (k/3) := by rw [last]; exact same
      simp [foundLine,miss]
    · simp [foundLine,order,before]

theorem checkingStart (colour : Colour) (left right : Nat → UInt8) :
    checking n colour left right 0 = ⟨0,Vector.replicate n WHITE⟩ := by
  rw [checking,replicateTabulate]
  congr 2

theorem checkedLine (colour : Colour) (mem : Memory) {ori : Vector UInt8 n} {modified : Vector UInt8 m}
    (left right : Nat → UInt8) {i : Nat} (reads : ∀ k, load (mem.past .bitmapOri i) ori k = left k)
    (reads' : ∀ k, load (mem.past .bitmapModified i) modified k = right k) (width : Nat) :
    (countdown (checkPixel colour mem i ori modified) width ⟨0,Vector.replicate n WHITE⟩).result =
      some (checking n colour left right width) := by
  rw [← checkingStart colour left right]
  exact countdownResult (checking n colour left right) (fun t _ => checkPixelStep colour mem reads reads' _ t)

/- The streams and buffers after t lines. Line r is compared when the counter
of the loop stands at h-r. -/
structure Sides where
  n : Nat
  m : Nat
  width : Nat
  height : Nat
  ori : Bytes
  modified : Bytes

def oriLine (mem : Memory) (s : Sides) (r : Nat) : Nat → UInt8 :=
  shown mem .bitmapOri s.n s.ori (s.height-r) r

def modifiedLine (mem : Memory) (s : Sides) (r : Nat) : Nat → UInt8 :=
  shown mem .bitmapModified s.m s.modified (s.height-r) r

def foundByte (colour : Colour) (mem : Memory) (s : Sides) (r : Nat) : Nat → UInt8 :=
  foundLine colour (oriLine mem s r) (modifiedLine mem s r) s.width

def lineState (colour : Colour) (mem : Memory) (s : Sides) (head : Bytes) (t : Nat) : LineState s.n s.m :=
  ⟨tabulate s.n (refill s.n s.ori (mem.heap .bitmapOri 0) t),
    tabulate s.m (refill s.m s.modified (mem.heap .bitmapModified 0) t),
    tabulate s.n (match t with
      | 0 => mem.heap .bitmapFoundHiddenText 0
      | r+1 => foundByte colour mem s r),
    s.ori.drop (t*s.n),s.modified.drop (t*s.m),head ++ grid t s.n (foundByte colour mem s)⟩

theorem lineStart (colour : Colour) (mem : Memory) (s : Sides) (head : Bytes) :
    lineState colour mem s head 0 = ⟨tabulate s.n (mem.heap .bitmapOri 0),
      tabulate s.m (mem.heap .bitmapModified 0),tabulate s.n (mem.heap .bitmapFoundHiddenText 0),
      s.ori,s.modified,head⟩ := by
  simp only [lineState,grid,Nat.zero_mul,List.drop_zero,List.range_zero,List.flatMap_nil,List.append_nil]
  rfl

theorem checkLineStep (colour : Colour) (mem : Memory) (s : Sides) (head : Bytes) {t : Nat} :
    (checkLine colour mem s.width (s.height-t) (lineState colour mem s head t)).result =
      some (lineState colour mem s head (t+1)) := by
  have line := checkedLine colour mem (oriLine mem s t) (modifiedLine mem s t)
    (loadTabulate (mem.past .bitmapOri (s.height-t)) (refill s.n s.ori (mem.heap .bitmapOri 0) (t+1)))
    (loadTabulate (mem.past .bitmapModified (s.height-t))
      (refill s.m s.modified (mem.heap .bitmapModified 0) (t+1))) s.width
  simp only [checkLine,lineState,fread,memset,fwrite,bindResult,emitResult,pureResult,Option.bind_some,
    refillStep,line,checking,tabulateList,List.drop_drop,Nat.succ_mul,gridSucc,List.append_assoc]
  rfl

theorem decryptLines (colour : Colour) (mem : Memory) (s : Sides) (head : Bytes) :
    (countdown (checkLine colour mem s.width) s.height (lineState colour mem s head 0)).result =
      some (lineState colour mem s head s.height) :=
  countdownResult (lineState colour mem s head) (fun _ _ => checkLineStep colour mem s head)

end Line

def sides (mem : Memory) (pOri pModified : Bytes) : Sides :=
  ⟨stride (readHeaders (mem.stack .bitmapOri) pOri).imageWidth.toNat,
    stride (readHeaders (mem.stack .bitmapModified) pModified).imageWidth.toNat,
    (readHeaders (mem.stack .bitmapOri) pOri).imageWidth.toNat,
    (readHeaders (mem.stack .bitmapOri) pOri).imageHeight.toNat,
    pOri.drop pixelData,pModified.drop pixelData⟩

def textFile (colour : Colour) (mem : Memory) (pOri pModified : Bytes) : Bytes :=
  (readHeaders (mem.stack .bitmapOri) pOri).bytes ++
    grid (sides mem pOri pModified).height (sides mem pOri pModified).n
      (foundByte colour mem (sides mem pOri pModified))

theorem decryptStages (colour : Colour) (mem : Memory) (pOri pModified : Bytes) :
    decryptBy colour mem pOri pModified = (do
      let st ← countdown (checkLine colour mem (sides mem pOri pModified).width)
        (sides mem pOri pModified).height (lineState colour mem (sides mem pOri pModified)
          (readHeaders (mem.stack .bitmapOri) pOri).bytes 0)
      return st.text) := by
  rw [lineStart]
  unfold decryptBy
  dsimp only
  have left := nbByteLine32Stride (readHeaders (mem.stack .bitmapOri) pOri).imageWidth
  have right := nbByteLine32Stride (readHeaders (mem.stack .bitmapModified) pModified).imageWidth
  generalize (nbByteLine32 (readHeaders (mem.stack .bitmapOri) pOri).imageWidth).toNat = n at left ⊢
  generalize (nbByteLine32 (readHeaders (mem.stack .bitmapModified) pModified).imageWidth).toNat = m
    at right ⊢
  subst n m
  simp only [sides]

theorem decryptResult (colour : Colour) (mem : Memory) (pOri pModified : Bytes) :
    (decryptBy colour mem pOri pModified).result = some (textFile colour mem pOri pModified) := by
  rw [decryptStages,bindResult,decryptLines,Option.bind_some]
  rfl

end SesLabs.BitmapDecrypt
