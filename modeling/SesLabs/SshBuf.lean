import Mathlib.Data.List.TakeWhile
import SesLabs.Bytes
import SesLabs.Machine

/-! sshbuf.c and sshbuf-getput-basic.c: a buffer that grows in steps, drops what was
read from its front now and then, and never holds more than its limit. Memory can
always be had. -/
namespace SesLabs.SshBuf

/- SSHBUF_SIZE_MAX, SSHBUF_SIZE_INIT, SSHBUF_SIZE_INC, SSHBUF_PACK_MIN, SSHBUF_REFS_MAX. -/
def sizeMax : Nat := 0x8000000
def sizeInit : Nat := 256
def sizeInc : Nat := 256
def packMin : Nat := 8192
def refsMax : Nat := 0x100000

structure Sshbuf where
  d : Bytes
  off : Nat
  size : Nat
  maxSize : Nat
  readonly : Bool
  refcount : Nat
  deriving DecidableEq, Repr

/- `killed` is none of the error codes: sshbuf_check_sanity has raised SIGSEGV under its
default action, and the process ends. -/
inductive BufError where
  | killed
  | internalError
  | readOnly
  | noBufferSpace
  | messageIncomplete
  | stringTooLarge
  | invalidFormat
  | allocFail
  deriving DecidableEq, Repr

namespace Sshbuf

def alloc (buf : Sshbuf) : Nat := buf.d.length

structure Sane (buf : Sshbuf) : Prop where
  owned : 1 ≤ buf.refcount ∧ buf.refcount ≤ refsMax
  limited : buf.maxSize ≤ sizeMax
  allocated : buf.alloc ≤ buf.maxSize
  inside : buf.size ≤ buf.alloc
  ordered : buf.off ≤ buf.size

def checkSanity (buf : Sshbuf) : Bool :=
  decide (1 ≤ buf.refcount ∧ buf.refcount ≤ refsMax ∧ buf.maxSize ≤ sizeMax ∧ buf.alloc ≤ buf.maxSize ∧
    buf.size ≤ buf.alloc ∧ buf.off ≤ buf.size)

def content (buf : Sshbuf) : Bytes := (buf.d.drop buf.off).take (buf.size-buf.off)

def fixed (buf : Sshbuf) : Bool := buf.readonly || decide (1 < buf.refcount)

end Sshbuf

def sshbufNew : Sshbuf := ⟨List.replicate sizeInit 0,0,0,sizeMax,false,1⟩

def sshbufFrom (blob : Bytes) : Option Sshbuf :=
  if sizeMax < blob.length then none else some ⟨blob,0,blob.length,blob.length,true,1⟩

def sshbufFromb (buf : Sshbuf) : Except BufError (Option Sshbuf) :=
  if buf.checkSanity = false then .error .killed else .ok (sshbufFrom buf.content)

def sshbufLen (buf : Sshbuf) : Except BufError Nat :=
  if buf.checkSanity = false then .error .killed else .ok (buf.size-buf.off)

def sshbufMaybePack (buf : Sshbuf) (force : Bool) : Sshbuf :=
  if buf.off = 0 ∨ buf.fixed then buf
  else if force ∨ packMin ≤ buf.off ∧ buf.size/2 ≤ buf.off then
    { buf with
      d := buf.content ++ buf.d.drop (buf.size-buf.off)
      size := buf.size-buf.off
      off := 0 }
  else buf

def recallocarray (d : Bytes) (count : Nat) : Bytes := d.take count ++ List.replicate (count-d.length) 0

def sshbufReset (buf : Sshbuf) : Except BufError Sshbuf :=
  if buf.fixed then .ok { buf with off := buf.size }
  else if buf.checkSanity = false then .error .killed
  else .ok { buf with d := List.replicate sizeInit 0, off := 0, size := 0 }

def sshbufCheckReserve (buf : Sshbuf) (len : Nat) : Except BufError Unit :=
  if buf.checkSanity = false then .error .killed
  else if buf.fixed then .error .readOnly
  else if buf.maxSize < len ∨ buf.maxSize-len < buf.size-buf.off then .error .noBufferSpace
  else .ok ()

def roundUp (x y : Nat) : Nat := (x+(y-1))/y*y

def sshbufAllocate (buf : Sshbuf) (len : Nat) : Except BufError Sshbuf := do
  sshbufCheckReserve buf len
  let buf := sshbufMaybePack buf (decide (buf.maxSize < buf.size+len))
  if len+buf.size ≤ buf.alloc then return buf
  let need := len+buf.size-buf.alloc
  let rounded := roundUp (buf.alloc+need) sizeInc
  let rlen := if buf.maxSize < rounded then buf.alloc+need else rounded
  let buf := { buf with d := recallocarray buf.d rlen }
  sshbufCheckReserve buf len
  return buf

def sshbufReserve (buf : Sshbuf) (len : Nat) : Except BufError (Sshbuf × Nat) := do
  let buf ← sshbufAllocate buf len
  return ({ buf with size := buf.size+len },buf.size)

def poke (d : Bytes) (place : Nat) (v : Bytes) : Bytes := d.take place ++ v ++ d.drop (place+v.length)

def sshbufPut (buf : Sshbuf) (v : Bytes) : Except BufError Sshbuf := do
  let (buf,p) ← sshbufReserve buf v.length
  return { buf with d := poke buf.d p v }

def sshbufPutU8 (buf : Sshbuf) (val : UInt8) : Except BufError Sshbuf := sshbufPut buf [val]

def u32Bytes (val : UInt32) : Bytes :=
  [(val >>> 24).toUInt8,(val >>> 16).toUInt8,(val >>> 8).toUInt8,val.toUInt8]

def peekU32 : Bytes → UInt32
  | a::b::c::d::_ => a.toUInt32 <<< 24 ||| b.toUInt32 <<< 16 ||| c.toUInt32 <<< 8 ||| d.toUInt32
  | _ => 0

def stringBytes (v : Bytes) : Bytes := u32Bytes v.length.toUInt32 ++ v

def sshbufPutU32 (buf : Sshbuf) (val : UInt32) : Except BufError Sshbuf := sshbufPut buf (u32Bytes val)

def sshbufPutString (buf : Sshbuf) (v : Bytes) : Except BufError Sshbuf := do
  if sizeMax-4 < v.length then throw .noBufferSpace
  let (buf,d) ← sshbufReserve buf (v.length+4)
  return { buf with d := poke buf.d d (stringBytes v) }

def sshbufConsume (buf : Sshbuf) (len : Nat) : Except BufError Sshbuf :=
  if buf.checkSanity = false then .error .killed
  else if len = 0 then .ok buf
  else do
    let available ← sshbufLen buf
    if available < len then .error .messageIncomplete
    else
      let buf := { buf with off := buf.off+len }
      .ok (if buf.off = buf.size then { buf with off := 0, size := 0 } else buf)

def sshbufConsumeEnd (buf : Sshbuf) (len : Nat) : Except BufError Sshbuf :=
  if buf.checkSanity = false then .error .killed
  else if len = 0 then .ok buf
  else do
    let available ← sshbufLen buf
    if available < len then .error .messageIncomplete else .ok { buf with size := buf.size-len }

def sshbufGet (buf : Sshbuf) (len : Nat) : Except BufError (Bytes × Sshbuf) := do
  let left ← sshbufConsume buf len
  return (buf.content.take len,left)

def sshbufGetU8 (buf : Sshbuf) : Except BufError (UInt8 × Sshbuf) := do
  let (p,buf) ← sshbufGet buf 1
  return (p.headD 0,buf)

def sshbufGetU32 (buf : Sshbuf) : Except BufError (UInt32 × Sshbuf) := do
  let (p,buf) ← sshbufGet buf 4
  return (peekU32 p,buf)

def sshbufPeekStringDirect (buf : Sshbuf) : Except BufError Bytes := do
  let available ← sshbufLen buf
  if available < 4 then .error .messageIncomplete
  else
    let len := (peekU32 buf.content).toNat
    if sizeMax-4 < len then .error .stringTooLarge
    else if available-4 < len then .error .messageIncomplete
    else .ok ((buf.content.drop 4).take len)

def sshbufGetStringDirect (buf : Sshbuf) : Except BufError (Bytes × Sshbuf) := do
  let p ← sshbufPeekStringDirect buf
  match sshbufConsume buf (p.length+4) with
  | .error .killed => throw .killed
  | .error _ => throw .internalError
  | .ok buf => return (p,buf)

/- A NUL is let through at the end of the string only; what comes back is read as a C
string, up to the first NUL. -/
def sshbufGetCstring (buf : Sshbuf) : Except BufError (Bytes × Sshbuf) := do
  let p ← sshbufPeekStringDirect buf
  if 0 ∈ p.dropLast then throw .invalidFormat
  let (p,buf) ← sshbufGetStringDirect buf
  return (p.takeWhile (· ≠ 0),buf)

def sshbufSetMaxSize (buf : Sshbuf) (maxSize : Nat) : Except BufError Unit × Sshbuf :=
  if buf.checkSanity = false then (.error .killed,buf)
  else if maxSize = buf.maxSize then (.ok (),buf)
  else if buf.fixed then (.error .readOnly,buf)
  else if sizeMax < maxSize then (.error .noBufferSpace,buf)
  else
    -- the buffer stays packed, and maybe smaller, also when the call fails
    let buf := sshbufMaybePack buf (decide (maxSize < buf.size))
    let buf := if maxSize < buf.alloc ∧ buf.size < maxSize then
        let rlen := if buf.size < sizeInit then sizeInit else roundUp buf.size sizeInc
        { buf with d := recallocarray buf.d (if maxSize < rlen then maxSize else rlen) }
      else buf
    if maxSize < buf.alloc then (.error .noBufferSpace,buf) else (.ok (),{ buf with maxSize })

section Parts
variable {buf : Sshbuf}

theorem saneIff : buf.checkSanity = true ↔ buf.Sane := by
  rw [Sshbuf.checkSanity,decide_eq_true_eq]
  refine ⟨?_,?_⟩
  · intro sane
    obtain ⟨positive,few,limited,allocated,inside,ordered⟩ := sane
    exact ⟨⟨positive,few⟩,limited,allocated,inside,ordered⟩
  · intro sane
    exact ⟨sane.owned.1,sane.owned.2,sane.limited,sane.allocated,sane.inside,sane.ordered⟩

theorem lenSane (sane : buf.Sane) : sshbufLen buf = .ok (buf.size-buf.off) := by
  rw [sshbufLen,saneIff.mpr sane]
  rfl

theorem contentTaken (buf : Sshbuf) : buf.content = (buf.d.take buf.size).drop buf.off := by
  rw [Sshbuf.content,List.drop_take]

theorem contentLength (sane : buf.Sane) : buf.content.length = buf.size-buf.off := by
  have inside := sane.inside
  rw [Sshbuf.alloc] at inside
  rw [contentTaken,List.length_drop,List.length_take,Nat.min_eq_left inside]

structure Kept (before now : Sshbuf) : Prop where
  content : now.content = before.content
  maxSize : now.maxSize = before.maxSize
  readonly : now.readonly = before.readonly
  refcount : now.refcount = before.refcount

theorem Kept.fixed {before now : Sshbuf} (kept : Kept before now) : now.fixed = before.fixed := by
  rw [Sshbuf.fixed,Sshbuf.fixed,kept.readonly,kept.refcount]

theorem Kept.trans {before now later : Sshbuf} (first : Kept before now) (second : Kept now later) :
    Kept before later :=
  ⟨second.content.trans first.content,second.maxSize.trans first.maxSize,
    second.readonly.trans first.readonly,second.refcount.trans first.refcount⟩

theorem packSane (sane : buf.Sane) (force : Bool) : (sshbufMaybePack buf force).Sane ∧
    Kept buf (sshbufMaybePack buf force) ∧ (sshbufMaybePack buf force).alloc = buf.alloc := by
  rw [sshbufMaybePack]
  split
  · exact ⟨sane,⟨rfl,rfl,rfl,rfl⟩,rfl⟩
  · split
    · have length := contentLength sane
      have inside := sane.inside
      have same : (buf.content ++ buf.d.drop (buf.size-buf.off)).length = buf.d.length := by
        rw [List.length_append,List.length_drop,length]
        rw [Sshbuf.alloc] at inside
        omega
      refine ⟨⟨sane.owned,sane.limited,?_,?_,Nat.zero_le _⟩,⟨?_,rfl,rfl,rfl⟩,same⟩
      · exact same.le.trans sane.allocated
      · exact (Nat.sub_le _ _).trans (inside.trans same.ge)
      · rw [contentTaken]
        simp only [List.drop_zero]
        rw [← length,List.take_left]
    · exact ⟨sane,⟨rfl,rfl,rfl,rfl⟩,rfl⟩

theorem packSmaller (buf : Sshbuf) (force : Bool) : (sshbufMaybePack buf force).size ≤ buf.size := by
  rw [sshbufMaybePack]
  split
  · exact Nat.le_refl _
  · split
    · exact Nat.sub_le _ _
    · exact Nat.le_refl _

theorem packForced (free : buf.fixed = false) (sane : buf.Sane) :
    (sshbufMaybePack buf true).size = buf.content.length := by
  rw [contentLength sane,sshbufMaybePack,free]
  split
  · rename_i start
    simp only [Bool.false_eq_true,or_false] at start
    rw [start,Nat.sub_zero]
  · simp

theorem recallocTake {d : Bytes} {size count : Nat} (inside : size ≤ d.length) (fits : size ≤ count) :
    (recallocarray d count).take size = d.take size := by
  have short : size ≤ (d.take count).length := by
    rw [List.length_take]
    exact Nat.le_min.mpr ⟨fits,inside⟩
  rw [recallocarray,List.take_append_of_le_length short,List.take_take,Nat.min_eq_left fits]

theorem recallocLength (d : Bytes) (count : Nat) : (recallocarray d count).length = count := by
  rw [recallocarray,List.length_append,List.length_take,List.length_replicate]
  omega

theorem resized (sane : buf.Sane) {count : Nat} (fits : buf.size ≤ count) (small : count ≤ buf.maxSize) :
    ({ buf with d := recallocarray buf.d count } : Sshbuf).Sane ∧
      Kept buf { buf with d := recallocarray buf.d count } := by
  have length := recallocLength buf.d count
  refine ⟨⟨sane.owned,sane.limited,?_,?_,sane.ordered⟩,⟨?_,rfl,rfl,rfl⟩⟩
  · exact length.le.trans small
  · exact fits.trans length.ge
  · rw [contentTaken,contentTaken]
    exact congrArg (List.drop buf.off) (recallocTake sane.inside fits)

theorem reserveChecked (sane : buf.Sane) (free : buf.fixed = false) (len : Nat) :
    sshbufCheckReserve buf len =
      if buf.maxSize < buf.content.length+len then .error .noBufferSpace else .ok () := by
  have length := contentLength sane
  rw [sshbufCheckReserve,saneIff.mpr sane,free]
  simp only [Bool.true_eq_false,if_false,Bool.false_eq_true]
  refine if_congr ?_ rfl rfl
  omega

theorem packRoom (sane : buf.Sane) (free : buf.fixed = false) {len : Nat}
    (fits : buf.content.length+len ≤ buf.maxSize) :
    (sshbufMaybePack buf (decide (buf.maxSize < buf.size+len))).size+len ≤ buf.maxSize := by
  by_cases force : buf.maxSize < buf.size+len
  · rw [decide_eq_true force,packForced free sane]
    exact fits
  · have smaller := packSmaller buf (decide (buf.maxSize < buf.size+len))
    omega

theorem roundUpLe (x : Nat) : x ≤ roundUp x sizeInc := by
  rw [roundUp,sizeInc]
  omega

theorem allocated (sane : buf.Sane) (free : buf.fixed = false) {len : Nat}
    (fits : buf.content.length+len ≤ buf.maxSize) :
    ∃ now, sshbufAllocate buf len = .ok now ∧ now.Sane ∧ Kept buf now ∧ now.size+len ≤ now.alloc := by
  obtain ⟨packedSane,packedKept,packedAlloc⟩ := packSane sane (decide (buf.maxSize < buf.size+len))
  have room := packRoom sane free fits
  rw [sshbufAllocate,reserveChecked sane free,if_neg (Nat.not_lt.mpr fits)]
  generalize sshbufMaybePack buf (decide (buf.maxSize < buf.size+len)) = packed at *
  simp only [bind,Except.bind,pure,Except.pure]
  split
  · rename_i enough
    exact ⟨packed,rfl,packedSane,packedKept,by omega⟩
  · rename_i short
    have grown := roundUpLe (packed.alloc+(len+packed.size-packed.alloc))
    have limit := packedKept.maxSize
    generalize count : (if packed.maxSize < roundUp (packed.alloc+(len+packed.size-packed.alloc)) sizeInc then
        packed.alloc+(len+packed.size-packed.alloc)
      else roundUp (packed.alloc+(len+packed.size-packed.alloc)) sizeInc) = rlen
    have bounds : packed.size+len ≤ rlen ∧ rlen ≤ packed.maxSize := by
      rw [← count]
      split <;> omega
    obtain ⟨resizedSane,resizedKept⟩ := resized packedSane (by omega) bounds.2
    have kept := packedKept.trans resizedKept
    have checked : sshbufCheckReserve { packed with d := recallocarray packed.d rlen } len = .ok () := by
      rw [reserveChecked resizedSane (kept.fixed.trans free),kept.content,kept.maxSize,if_neg (Nat.not_lt.mpr fits)]
    rw [checked]
    refine ⟨_,rfl,resizedSane,kept,?_⟩
    exact bounds.1.trans (recallocLength packed.d rlen).ge

theorem allocateFull (sane : buf.Sane) (free : buf.fixed = false) {len : Nat}
    (full : buf.maxSize < buf.content.length+len) : sshbufAllocate buf len = .error .noBufferSpace := by
  rw [sshbufAllocate,reserveChecked sane free,if_pos full]
  rfl

theorem pokedContent {now : Sshbuf} (sane : now.Sane) {v : Bytes} (room : now.size+v.length ≤ now.alloc) :
    ({ now with size := now.size+v.length, d := poke now.d now.size v } : Sshbuf).Sane ∧
    ({ now with size := now.size+v.length, d := poke now.d now.size v } : Sshbuf).content = now.content ++ v := by
  rw [Sshbuf.alloc] at room
  have front : (now.d.take now.size).length = now.size := by
    rw [List.length_take]
    omega
  have length : (poke now.d now.size v).length = now.d.length := by
    rw [poke,List.length_append,List.length_append,front,List.length_drop]
    omega
  refine ⟨⟨sane.owned,sane.limited,?_,?_,?_⟩,?_⟩
  · exact length.le.trans sane.allocated
  · exact room.trans length.ge
  · exact sane.ordered.trans (Nat.le_add_right _ _)
  · have written : (poke now.d now.size v).take (now.size+v.length) = now.d.take now.size ++ v := by
      rw [poke,List.take_left']
      rw [List.length_append,front]
    have ordered := sane.ordered
    rw [contentTaken,contentTaken]
    simp only [written]
    exact List.drop_append_of_le_length (by omega)

theorem pokedFront (sane : buf.Sane) {v : Bytes} (short : v.length ≤ buf.content.length) :
    ({ buf with d := poke buf.d buf.off v } : Sshbuf).Sane ∧
    ({ buf with d := poke buf.d buf.off v } : Sshbuf).content = v ++ buf.content.drop v.length := by
  have inside := sane.inside
  have ordered := sane.ordered
  have allocated := sane.allocated
  rw [contentLength sane] at short
  rw [Sshbuf.alloc] at inside
  have front : (buf.d.take buf.off).length = buf.off := by
    rw [List.length_take]
    omega
  have length : (poke buf.d buf.off v).length = buf.d.length := by
    rw [poke,List.length_append,List.length_append,front,List.length_drop]
    omega
  have behind : (poke buf.d buf.off v).drop buf.off = v ++ buf.d.drop (buf.off+v.length) := by
    rw [poke,List.append_assoc,List.drop_left' front]
  refine ⟨⟨sane.owned,sane.limited,?_,?_,ordered⟩,?_⟩
  · exact length.le.trans allocated
  · exact inside.trans length.ge
  · rw [Sshbuf.content,Sshbuf.content]
    simp only [behind]
    rw [List.take_append,List.take_of_length_le short,List.drop_take,List.drop_drop]

theorem putSpec (sane : buf.Sane) (free : buf.fixed = false) (v : Bytes) :
    (buf.content.length+v.length ≤ buf.maxSize → ∃ now, sshbufPut buf v = .ok now ∧ now.Sane ∧ now.fixed = false ∧
      now.maxSize = buf.maxSize ∧ now.content = buf.content ++ v) ∧
    (buf.maxSize < buf.content.length+v.length → sshbufPut buf v = .error .noBufferSpace) := by
  refine ⟨?_,?_⟩
  · intro fits
    obtain ⟨now,done,nowSane,kept,room⟩ := allocated sane free fits
    obtain ⟨putSane,added⟩ := pokedContent nowSane room
    rw [sshbufPut,sshbufReserve,done]
    exact ⟨_,rfl,putSane,kept.fixed.trans free,kept.maxSize,added.trans (congrArg (· ++ v) kept.content)⟩
  · intro full
    rw [sshbufPut,sshbufReserve,allocateFull sane free full]
    rfl

theorem stringLength (v : Bytes) : (stringBytes v).length = v.length+4 := by
  rw [stringBytes,u32Bytes,List.length_append,Nat.add_comm]
  rfl

theorem putStringEq (buf : Sshbuf) (v : Bytes) : sshbufPutString buf v =
    if sizeMax-4 < v.length then .error .noBufferSpace else sshbufPut buf (stringBytes v) := by
  rw [sshbufPutString,sshbufPut,stringLength]
  split
  · rfl
  · rfl

theorem consumeSpec (sane : buf.Sane) (len : Nat) :
    (len ≤ buf.content.length → ∃ now, sshbufConsume buf len = .ok now ∧ now.Sane ∧ now.fixed = buf.fixed ∧
      now.maxSize = buf.maxSize ∧ now.content = buf.content.drop len) ∧
    (buf.content.length < len → sshbufConsume buf len = .error .messageIncomplete) := by
  have inside := sane.inside
  have ordered := sane.ordered
  rw [contentLength sane,sshbufConsume,lenSane sane,saneIff.mpr sane,if_neg (by decide)]
  simp only [bind,Except.bind]
  refine ⟨?_,?_⟩
  · intro fits
    by_cases zero : len = 0
    · rw [if_pos zero,zero]
      exact ⟨buf,rfl,sane,rfl,rfl,rfl⟩
    · rw [if_neg zero,if_neg (Nat.not_lt.mpr fits)]
      by_cases all : buf.off+len = buf.size
      · refine ⟨_,rfl,?_,?_,?_,?_⟩ <;> simp only [all,if_true]
        · exact ⟨sane.owned,sane.limited,sane.allocated,Nat.zero_le _,Nat.le_refl _⟩
        · rfl
        · have none : buf.content.drop len = [] := by
            rw [List.drop_eq_nil_iff,contentLength sane]
            omega
          rw [none]
          simp [Sshbuf.content]
      · refine ⟨_,rfl,?_,?_,?_,?_⟩ <;> simp only [all,if_false]
        · exact ⟨sane.owned,sane.limited,sane.allocated,inside,by simp only; omega⟩
        · rfl
        · rw [contentTaken,contentTaken,List.drop_drop]
  · intro short
    rw [if_neg (by omega),if_pos short]

theorem consumeEndSpec (sane : buf.Sane) (len : Nat) :
    (len ≤ buf.content.length → ∃ now, sshbufConsumeEnd buf len = .ok now ∧ now.Sane ∧ now.fixed = buf.fixed ∧
      now.maxSize = buf.maxSize ∧ now.content = buf.content.take (buf.content.length-len)) ∧
    (buf.content.length < len → sshbufConsumeEnd buf len = .error .messageIncomplete) := by
  have inside := sane.inside
  have ordered := sane.ordered
  have length := contentLength sane
  rw [length,sshbufConsumeEnd,lenSane sane,saneIff.mpr sane,if_neg (by decide)]
  simp only [bind,Except.bind]
  refine ⟨?_,?_⟩
  · intro fits
    by_cases zero : len = 0
    · rw [if_pos zero,zero]
      exact ⟨buf,rfl,sane,rfl,rfl,(List.take_of_length_le (by omega)).symm⟩
    · rw [if_neg zero,if_neg (Nat.not_lt.mpr fits)]
      refine ⟨_,rfl,⟨sane.owned,sane.limited,sane.allocated,?_,?_⟩,rfl,rfl,?_⟩
      · exact (Nat.sub_le _ _).trans inside
      · simp only
        omega
      · rw [Sshbuf.content,Sshbuf.content,List.take_take]
        congr 1
        simp only
        omega
  · intro short
    rw [if_neg (by omega),if_pos short]

theorem resetSpec (sane : buf.Sane) (free : buf.fixed = false) :
    ∃ now, sshbufReset buf = .ok now ∧ now.fixed = false ∧ now.maxSize = buf.maxSize ∧ now.content = [] ∧
    (now.Sane ↔ sizeInit ≤ buf.maxSize) := by
  rw [sshbufReset,free,if_neg (by decide),saneIff.mpr sane,if_neg (by decide)]
  refine ⟨_,rfl,free,rfl,by simp [Sshbuf.content],?_⟩
  refine ⟨?_,?_⟩
  · intro still
    have allocated := still.allocated
    rw [Sshbuf.alloc,List.length_replicate] at allocated
    exact allocated
  · intro large
    refine ⟨sane.owned,sane.limited,?_,Nat.zero_le _,Nat.le_refl _⟩
    rw [Sshbuf.alloc,List.length_replicate]
    exact large

theorem cappedBetween {size maxSize : Nat} (fits : size < maxSize) :
    size ≤ (if maxSize < (if size < sizeInit then sizeInit else roundUp size sizeInc) then maxSize
      else if size < sizeInit then sizeInit else roundUp size sizeInc) ∧
    (if maxSize < (if size < sizeInit then sizeInit else roundUp size sizeInc) then maxSize
      else if size < sizeInit then sizeInit else roundUp size sizeInc) ≤ maxSize := by
  have rounded : size ≤ if size < sizeInit then sizeInit else roundUp size sizeInc := by
    split
    · omega
    · exact roundUpLe size
  generalize (if size < sizeInit then sizeInit else roundUp size sizeInc) = rlen at *
  split <;> omega

theorem setMaxSizeSpec (sane : buf.Sane) (free : buf.fixed = false) (maxSize : Nat) :
    (sshbufSetMaxSize buf maxSize).2.Sane ∧ (sshbufSetMaxSize buf maxSize).2.fixed = false ∧
    (sshbufSetMaxSize buf maxSize).2.content = buf.content ∧
    ((sshbufSetMaxSize buf maxSize).1 = .ok () ∧ (sshbufSetMaxSize buf maxSize).2.maxSize = maxSize ∨
      (sshbufSetMaxSize buf maxSize).1 = .error .noBufferSpace ∧
        (sshbufSetMaxSize buf maxSize).2.maxSize = buf.maxSize) := by
  rw [sshbufSetMaxSize,saneIff.mpr sane,if_neg (by decide)]
  by_cases same : maxSize = buf.maxSize
  · rw [if_pos same]
    exact ⟨sane,free,rfl,.inl ⟨rfl,same.symm⟩⟩
  · rw [if_neg same,free,if_neg (by decide)]
    by_cases huge : sizeMax < maxSize
    · rw [if_pos huge]
      exact ⟨sane,free,rfl,.inr ⟨rfl,rfl⟩⟩
    · rw [if_neg huge]
      obtain ⟨packedSane,packedKept,_⟩ := packSane sane (decide (maxSize < buf.size))
      generalize sshbufMaybePack buf (decide (maxSize < buf.size)) = packed at *
      simp only
      generalize cut : (if maxSize < packed.alloc ∧ packed.size < maxSize then
          { packed with d := recallocarray packed.d (if maxSize < (if packed.size < sizeInit then sizeInit
            else roundUp packed.size sizeInc) then maxSize else if packed.size < sizeInit then sizeInit
            else roundUp packed.size sizeInc) }
        else packed) = small
      have smallSane : small.Sane ∧ Kept packed small := by
        rw [← cut]
        split
        · rename_i shrinks
          have allocated := packedSane.allocated
          have between := cappedBetween shrinks.2
          exact resized packedSane between.1 (by omega)
        · exact ⟨packedSane,⟨rfl,rfl,rfl,rfl⟩⟩
      have kept := packedKept.trans smallSane.2
      split
      · exact ⟨smallSane.1,kept.fixed.trans free,kept.content,.inr ⟨rfl,kept.maxSize⟩⟩
      · rename_i fits
        refine ⟨⟨smallSane.1.owned,Nat.not_lt.mp huge,Nat.not_lt.mp fits,smallSane.1.inside,smallSane.1.ordered⟩,
          kept.fixed.trans free,kept.content,.inl ⟨rfl,rfl⟩⟩

end Parts

structure Queue where
  bytes : Bytes
  limit : Nat
  deriving DecidableEq, Repr

inductive Op where
  | put (v : Bytes)
  | putString (v : Bytes)
  | get (len : Nat)
  | getCstring
  | consumeEnd (len : Nat)
  | reset
  | setMaxSize (maxSize : Nat)
  deriving DecidableEq, Repr

abbrev Answer := Except BufError Bytes

def cutString (bytes : Bytes) : Except BufError (Bytes × Bytes) :=
  if bytes.length < 4 then .error .messageIncomplete
  else
    let len := (peekU32 bytes).toNat
    if sizeMax-4 < len then .error .stringTooLarge
    else if bytes.length-4 < len then .error .messageIncomplete
    else .ok ((bytes.drop 4).take len,bytes.drop (len+4))

def cutCstring (bytes : Bytes) : Except BufError (Bytes × Bytes) := do
  let (p,rest) ← cutString bytes
  if 0 ∈ p.dropLast then throw .invalidFormat
  return (p.takeWhile (· ≠ 0),rest)

namespace Queue

def put (queue : Queue) (v : Bytes) : Answer × Queue :=
  if queue.limit < queue.bytes.length+v.length then (.error .noBufferSpace,queue)
  else (.ok [],{ queue with bytes := queue.bytes ++ v })

def get (queue : Queue) (cut : Except BufError (Bytes × Bytes)) : Answer × Queue :=
  match cut with
  | .error e => (.error e,queue)
  | .ok (v,rest) => (.ok v,{ queue with bytes := rest })

def cut (bytes : Bytes) (len : Nat) : Except BufError (Bytes × Bytes) :=
  if bytes.length < len then .error .messageIncomplete else .ok (bytes.take len,bytes.drop len)

def cutEnd (bytes : Bytes) (len : Nat) : Except BufError (Bytes × Bytes) :=
  if bytes.length < len then .error .messageIncomplete else .ok ([],bytes.take (bytes.length-len))

/- Only a new limit may be refused at will. -/
def May (queue : Queue) (op : Op) (answer : Answer) (next : Queue) : Prop :=
  match op with
  | .put v => (answer,next) = queue.put v
  | .putString v => (answer,next) = queue.put (stringBytes v)
  | .get len => (answer,next) = queue.get (cut queue.bytes len)
  | .getCstring => (answer,next) = queue.get (cutCstring queue.bytes)
  | .consumeEnd len => (answer,next) = queue.get (cutEnd queue.bytes len)
  | .reset => (answer,next) = (.ok [],{ queue with bytes := [] })
  | .setMaxSize maxSize =>
    answer = .ok [] ∧ next = { queue with limit := maxSize } ∨ answer = .error .noBufferSpace ∧ next = queue

end Queue

def stored (buf : Sshbuf) (result : Except BufError Sshbuf) : Answer × Sshbuf :=
  match result with
  | .error e => (.error e,buf)
  | .ok now => (.ok [],now)

def fetched (buf : Sshbuf) (result : Except BufError (Bytes × Sshbuf)) : Answer × Sshbuf :=
  match result with
  | .error e => (.error e,buf)
  | .ok (v,now) => (.ok v,now)

def reply (buf : Sshbuf) : Op → Answer × Sshbuf
  | .put v => stored buf (sshbufPut buf v)
  | .putString v => stored buf (sshbufPutString buf v)
  | .get len => fetched buf (sshbufGet buf len)
  | .getCstring => fetched buf (sshbufGetCstring buf)
  | .consumeEnd len => stored buf (sshbufConsumeEnd buf len)
  | .reset => stored buf (sshbufReset buf)
  | .setMaxSize maxSize => ((sshbufSetMaxSize buf maxSize).1.map (fun _ => []),(sshbufSetMaxSize buf maxSize).2)

def call (buf : Sshbuf) (op : Op) : Option (Answer × Sshbuf) :=
  match reply buf op with
  | (.error .killed,_) => none
  | answered => some answered

structure Holds (buf : Sshbuf) (queue : Queue) : Prop where
  sane : buf.Sane
  free : buf.fixed = false
  content : buf.content = queue.bytes
  limit : buf.maxSize = queue.limit

/- A reset gives the buffer the memory of a new one, whatever its limit is. -/
def ResetFits (buf : Sshbuf) (op : Op) : Prop := op = .reset → sizeInit ≤ buf.maxSize

section Calls
variable {buf : Sshbuf} {queue : Queue}

theorem putMay (holds : Holds buf queue) (v : Bytes) :
    (stored buf (sshbufPut buf v)).1 = (queue.put v).1 ∧ Holds (stored buf (sshbufPut buf v)).2 (queue.put v).2 := by
  obtain ⟨fits,full⟩ := putSpec holds.sane holds.free v
  rw [holds.content,holds.limit] at fits full
  rw [Queue.put]
  split
  · rename_i overflow
    rw [full overflow]
    exact ⟨rfl,holds⟩
  · rename_i room
    obtain ⟨now,done,sane,free,limit,content⟩ := fits (Nat.not_lt.mp room)
    rw [done]
    exact ⟨rfl,sane,free,content,limit⟩

def Fetches (buf : Sshbuf) (result : Except BufError (Bytes × Sshbuf)) (cut : Except BufError (Bytes × Bytes)) : Prop :=
  match cut with
  | .error e => result = .error e
  | .ok (v,rest) => ∃ now, result = .ok (v,now) ∧ now.Sane ∧ now.fixed = buf.fixed ∧ now.maxSize = buf.maxSize ∧
      now.content = rest

theorem fetchMay {result : Except BufError (Bytes × Sshbuf)} {cut : Except BufError (Bytes × Bytes)}
    (holds : Holds buf queue) (fetches : Fetches buf result cut) :
    (fetched buf result).1 = (queue.get cut).1 ∧ Holds (fetched buf result).2 (queue.get cut).2 := by
  cases cut with
  | error e =>
    rw [Fetches] at fetches
    rw [fetches]
    exact ⟨rfl,holds⟩
  | ok parts =>
    obtain ⟨now,done,sane,free,limit,content⟩ := fetches
    rw [done]
    exact ⟨rfl,sane,free.trans holds.free,content,limit.trans holds.limit⟩

theorem getFetches (sane : buf.Sane) (len : Nat) : Fetches buf (sshbufGet buf len) (Queue.cut buf.content len) := by
  obtain ⟨fits,short⟩ := consumeSpec sane len
  rw [sshbufGet,Queue.cut]
  split
  · rename_i missing
    rw [short missing]
    rfl
  · rename_i enough
    obtain ⟨now,done,kept⟩ := fits (Nat.not_lt.mp enough)
    rw [done]
    exact ⟨now,rfl,kept⟩

theorem peekCut (sane : buf.Sane) : sshbufPeekStringDirect buf = (cutString buf.content).map Prod.fst := by
  rw [sshbufPeekStringDirect,cutString,lenSane sane,← contentLength sane]
  simp only [bind,Except.bind]
  split
  · rfl
  · split
    · rfl
    · split
      · rfl
      · rfl

theorem cutStringFits {bytes p rest : Bytes} (cut : cutString bytes = .ok (p,rest)) :
    p.length+4 ≤ bytes.length ∧ rest = bytes.drop (p.length+4) := by
  rw [cutString] at cut
  split at cut
  · cases cut
  · simp only at cut
    split at cut
    · cases cut
    · split at cut
      · cases cut
      · cases cut
        rw [List.length_take,List.length_drop]
        have same : min (peekU32 bytes).toNat (bytes.length-4) = (peekU32 bytes).toNat := by omega
        rw [same]
        exact ⟨by omega,rfl⟩

theorem getStringFetches (sane : buf.Sane) : Fetches buf (sshbufGetStringDirect buf) (cutString buf.content) := by
  rw [sshbufGetStringDirect,peekCut sane]
  cases cut : cutString buf.content with
  | error e => rfl
  | ok parts =>
    obtain ⟨p,rest⟩ := parts
    obtain ⟨fits,left⟩ := cutStringFits cut
    obtain ⟨now,done,nowSane,fixed,limit,content⟩ := (consumeSpec sane (p.length+4)).1 fits
    simp only [Except.map,bind,Except.bind,done]
    exact ⟨now,rfl,nowSane,fixed,limit,content.trans left.symm⟩

theorem getCstringFetches (sane : buf.Sane) : Fetches buf (sshbufGetCstring buf) (cutCstring buf.content) := by
  have direct := getStringFetches sane
  rw [sshbufGetCstring,peekCut sane,cutCstring]
  cases cut : cutString buf.content with
  | error e => rfl
  | ok parts =>
    obtain ⟨p,rest⟩ := parts
    rw [cut] at direct
    obtain ⟨now,done,kept⟩ := direct
    simp only [Except.map,bind,Except.bind,done]
    split
    · rfl
    · exact ⟨now,rfl,kept⟩

theorem consumeEndMay (holds : Holds buf queue) (len : Nat) :
    (stored buf (sshbufConsumeEnd buf len)).1 = (queue.get (Queue.cutEnd queue.bytes len)).1 ∧
      Holds (stored buf (sshbufConsumeEnd buf len)).2 (queue.get (Queue.cutEnd queue.bytes len)).2 := by
  obtain ⟨fits,short⟩ := consumeEndSpec holds.sane len
  rw [holds.content] at fits short
  rw [Queue.cutEnd]
  split
  · rename_i missing
    rw [short missing]
    exact ⟨rfl,holds⟩
  · rename_i enough
    obtain ⟨now,done,sane,free,limit,content⟩ := fits (Nat.not_lt.mp enough)
    rw [done]
    exact ⟨rfl,sane,free.trans holds.free,content,limit.trans holds.limit⟩

theorem replyMay (holds : Holds buf queue) (op : Op) (fits : ResetFits buf op) :
    ∃ next, queue.May op (reply buf op).1 next ∧ Holds (reply buf op).2 next := by
  cases op with
  | put v =>
    obtain ⟨answer,next⟩ := putMay holds v
    exact ⟨_,Prod.ext answer rfl,next⟩
  | putString v =>
    rw [reply,putStringEq]
    obtain ⟨answer,next⟩ := putMay holds (stringBytes v)
    split
    · rename_i long
      have full : queue.limit < queue.bytes.length+(stringBytes v).length := by
        have limited := holds.sane.limited
        rw [holds.limit] at limited
        rw [stringLength]
        omega
      refine ⟨queue,?_,holds⟩
      rw [Queue.May,Queue.put,if_pos full]
      rfl
    · exact ⟨_,Prod.ext answer rfl,next⟩
  | get len =>
    have fetches := getFetches holds.sane len
    rw [holds.content] at fetches
    obtain ⟨answer,next⟩ := fetchMay holds fetches
    exact ⟨_,Prod.ext answer rfl,next⟩
  | getCstring =>
    have fetches := getCstringFetches holds.sane
    rw [holds.content] at fetches
    obtain ⟨answer,next⟩ := fetchMay holds fetches
    exact ⟨_,Prod.ext answer rfl,next⟩
  | consumeEnd len =>
    obtain ⟨answer,next⟩ := consumeEndMay holds len
    exact ⟨_,Prod.ext answer rfl,next⟩
  | reset =>
    obtain ⟨now,done,free,limit,empty,sane⟩ := resetSpec holds.sane holds.free
    rw [reply,done]
    exact ⟨_,rfl,sane.mpr (fits rfl),free,empty,limit.trans holds.limit⟩
  | setMaxSize maxSize =>
    obtain ⟨sane,free,content,outcome⟩ := setMaxSizeSpec holds.sane holds.free maxSize
    rcases outcome with done | refused
    · refine ⟨{ queue with limit := maxSize },.inl ⟨?_,rfl⟩,sane,free,content.trans holds.content,done.2⟩
      rw [reply,done.1]
      rfl
    · refine ⟨queue,.inr ⟨?_,rfl⟩,sane,free,content.trans holds.content,refused.2.trans holds.limit⟩
      rw [reply,refused.1]
      rfl

theorem putLives (queue : Queue) (v : Bytes) : (queue.put v).1 ≠ .error .killed := by
  rw [Queue.put]
  split
  · simp
  · simp

theorem getLives {cut : Except BufError (Bytes × Bytes)} (lives : cut ≠ .error .killed) (queue : Queue) :
    (queue.get cut).1 ≠ .error .killed := by
  cases cut with
  | error e =>
    intro same
    exact lives (congrArg Except.error (Except.error.inj same))
  | ok parts =>
    intro same
    cases same

theorem cutCstringLives (bytes : Bytes) : cutCstring bytes ≠ .error .killed := by
  rw [cutCstring,cutString]
  split
  · simp [bind,Except.bind]
  · simp only
    split
    · simp [bind,Except.bind]
    · split
      · simp [bind,Except.bind]
      · simp only [bind,Except.bind]
        split
        · simp [throw,throwThe,MonadExceptOf.throw]
        · simp [pure,Except.pure]

theorem mayLives {op : Op} {answer : Answer} {next : Queue} (may : queue.May op answer next) :
    answer ≠ .error .killed := by
  cases op with
  | put v => exact (congrArg Prod.fst may).trans_ne (putLives queue v)
  | putString v => exact (congrArg Prod.fst may).trans_ne (putLives queue _)
  | get len =>
    refine (congrArg Prod.fst may).trans_ne (getLives ?_ queue)
    rw [Queue.cut]
    split
    · simp
    · simp
  | getCstring => exact (congrArg Prod.fst may).trans_ne (getLives (cutCstringLives _) queue)
  | consumeEnd len =>
    refine (congrArg Prod.fst may).trans_ne (getLives ?_ queue)
    rw [Queue.cutEnd]
    split
    · simp
    · simp
  | reset =>
    cases may
    simp
  | setMaxSize maxSize =>
    rcases may with ⟨rfl,_⟩ | ⟨rfl,_⟩
    · simp
    · simp

theorem callLives {op : Op} (lives : (reply buf op).1 ≠ .error .killed) : call buf op = some (reply buf op) := by
  rw [call]
  split
  · rename_i dead
    rw [dead] at lives
    exact absurd rfl lives
  · rfl

theorem callMay : Machine.Simulates Holds ResetFits call Queue.May := by
  intro buf queue op holds fits
  obtain ⟨next,may,kept⟩ := replyMay holds op fits
  exact ⟨_,_,next,callLives (mayLives may),may,kept⟩

/- A string too long for any buffer is refused before the buffer is looked at. -/
def tooLong : Op → Bool
  | .putString v => decide (sizeMax-4 < v.length)
  | _ => false

theorem brokenCall (broken : buf.checkSanity = false) (free : buf.fixed = false) (op : Op) :
    call buf op = if tooLong op then some (.error .noBufferSpace,buf) else none := by
  have reserve (len : Nat) : sshbufReserve buf len = .error .killed := by
    rw [sshbufReserve,sshbufAllocate,sshbufCheckReserve,if_pos broken]
    rfl
  cases op with
  | put v =>
    rw [call,reply,sshbufPut,reserve]
    rfl
  | putString v =>
    rw [call,reply,sshbufPutString,reserve,tooLong]
    by_cases long : sizeMax-4 < v.length
    · rw [if_pos long,decide_eq_true long]
      rfl
    · rw [if_neg long,decide_eq_false long]
      rfl
  | get len =>
    rw [call,reply,sshbufGet,sshbufConsume,if_pos broken]
    rfl
  | getCstring =>
    rw [call,reply,sshbufGetCstring,sshbufPeekStringDirect,sshbufLen,if_pos broken]
    rfl
  | consumeEnd len =>
    rw [call,reply,sshbufConsumeEnd,if_pos broken]
    rfl
  | reset =>
    rw [call,reply,sshbufReset,free,if_neg (by decide),if_pos broken]
    rfl
  | setMaxSize maxSize =>
    rw [call,reply,sshbufSetMaxSize,if_pos broken]
    rfl

theorem misfitBreaks (holds : Holds buf queue) {op : Op} (misfit : ¬ResetFits buf op) :
    op = .reset ∧ queue.limit < sizeInit ∧ ∃ now, call buf op = some (.ok [],now) ∧ now.checkSanity = false ∧
      now.fixed = false := by
  rw [ResetFits,Classical.not_imp,holds.limit] at misfit
  obtain ⟨rfl,small⟩ := misfit
  obtain ⟨now,done,free,_,_,sane⟩ := resetSpec holds.sane holds.free
  rw [holds.limit,← saneIff] at sane
  have answered : reply buf .reset = (.ok [],now) := by rw [reply,done]; rfl
  refine ⟨rfl,Nat.not_le.mp small,now,?_,Bool.eq_false_iff.mpr (fun still => small (sane.mp still)),free⟩
  rw [call,answered]

theorem newSane : sshbufNew.Sane := by
  have memory : sshbufNew.alloc = sizeInit := List.length_replicate
  refine ⟨⟨Nat.le_refl 1,by decide⟩,Nat.le_refl _,?_,Nat.zero_le _,Nat.le_refl _⟩
  rw [memory]
  decide

structure Served (run : List Op) (now : Sshbuf) (queue : Queue) : Prop where
  ends : Machine.after call sshbufNew run = some now
  answered : Machine.Allowed Queue.May ⟨[],sizeMax⟩ run (Machine.answers call sshbufNew run) queue
  holds : Holds now queue

/- Every order of calls. After a reset under a limit below 256 only strings that are
too long are still answered; the first other call ends the process. -/
theorem sshbufRuns (run : List Op) :
    (Machine.Throughout call ResetFits sshbufNew run ∧ ∃ now queue, Served run now queue) ∨
    ∃ early late now queue, run = early ++ .reset::late ∧ Served early now queue ∧ queue.limit < sizeInit ∧
      Machine.answers call sshbufNew run = Machine.answers call sshbufNew early ++
        .ok []::(late.takeWhile tooLong).map (fun _ => .error .noBufferSpace) ∧
      (Machine.after call sshbufNew run = none ↔ ∃ op ∈ late, tooLong op = false) := by
  have start : Holds sshbufNew ⟨[],sizeMax⟩ := ⟨newSane,rfl,rfl,rfl⟩
  rcases @Machine.throughoutOr _ _ _ call ResetFits sshbufNew run with fits | ⟨early,op,late,now,rfl,fits,ends,misfit⟩
  · obtain ⟨now,queue,ends,allowed,holds⟩ := Machine.runAllowed callMay start fits
    exact .inl ⟨fits,now,queue,ends,allowed,holds⟩
  · obtain ⟨same,queue,ends',allowed,holds⟩ := Machine.runAllowed callMay start fits
    cases ends.symm.trans ends'
    obtain ⟨rfl,small,broken,resets,insane,free⟩ := misfitBreaks holds misfit
    obtain ⟨answered,left⟩ := Machine.afterDoomed (brokenCall insane free) late
    obtain ⟨before,rest⟩ := Machine.afterAppend ends (.reset::late)
    refine .inr ⟨early,late,now,queue,rfl,⟨ends,allowed,holds⟩,small,?_,?_⟩
    · rw [before,Machine.answers,resets]
      exact congrArg (fun tail => _ ++ .ok []::tail) answered
    · rw [rest,Machine.after,resets]
      exact left

end Calls

section Strings

theorem peekBytes (val : UInt32) (rest : Bytes) : peekU32 (u32Bytes val ++ rest) = val := by
  apply UInt32.toNat_inj.mp
  apply Nat.eq_of_testBit_eq
  intro i
  simp only [u32Bytes,List.cons_append,peekU32,UInt32.toNat_or,UInt32.toNat_shiftLeft,UInt8.toNat_toUInt32,
    UInt32.toNat_toUInt8,UInt32.toNat_shiftRight,UInt32.reduceToNat,Nat.reduceMod,Nat.testBit_or,
    Nat.testBit_mod_two_pow,Nat.testBit_shiftLeft,Nat.testBit_shiftRight]
  have high (k : Nat) (reached : k ≤ i) : k+(i-k) = i := Nat.add_sub_of_le reached
  by_cases beyond : 32 ≤ i
  · have none : val.toNat.testBit i = false :=
      Nat.testBit_lt_two_pow (val.toNat_lt.trans_le (Nat.pow_le_pow_right (by decide) beyond))
    rw [none,high 24 (by omega),high 16 (by omega),high 8 (by omega),none]
    simp
  · have byte : i < 8 ∨ (8 ≤ i ∧ i < 16) ∨ (16 ≤ i ∧ i < 24) ∨ (24 ≤ i ∧ i < 32) := by omega
    rcases byte with first | ⟨low,up⟩ | ⟨low,up⟩ | ⟨low,up⟩
    · simp [first,show ¬8 ≤ i by omega,show ¬16 ≤ i by omega,show ¬24 ≤ i by omega]
    · simp [low,high 8 low,show ¬i < 8 by omega,show i-8 < 8 by omega,show i < 32 by omega,show ¬16 ≤ i by omega,
        show ¬24 ≤ i by omega]
    · simp [low,high 16 low,show ¬i < 8 by omega,show ¬i-8 < 8 by omega,show i-16 < 8 by omega,show i < 32 by omega,
        show ¬24 ≤ i by omega]
    · simp [low,up,high 24 low,show ¬i < 8 by omega,show ¬i-8 < 8 by omega,show ¬i-16 < 8 by omega,
        show i-24 < 8 by omega]

theorem testBitAbove (x : UInt8) {i : Nat} (large : 8 ≤ i) : x.toNat.testBit i = false :=
  Nat.testBit_lt_two_pow (x.toNat_lt.trans_le (Nat.pow_le_pow_right (by decide) large))

theorem byteExt {x y : UInt8} (same : ∀ i < 8, x.toNat.testBit i = y.toNat.testBit i) : x = y := by
  apply UInt8.toNat_inj.mp
  apply Nat.eq_of_testBit_eq
  intro i
  by_cases small : i < 8
  · exact same i small
  · rw [testBitAbove x (Nat.not_lt.mp small),testBitAbove y (Nat.not_lt.mp small)]

theorem bytesPeek (a b c d : UInt8) (rest : Bytes) : u32Bytes (peekU32 (a::b::c::d::rest)) = [a,b,c,d] := by
  simp only [u32Bytes,peekU32,List.cons.injEq,and_true]
  refine ⟨byteExt ?_,byteExt ?_,byteExt ?_,byteExt ?_⟩
  all_goals
    intro i small
    simp only [UInt32.toNat_or,UInt32.toNat_shiftLeft,UInt8.toNat_toUInt32,UInt32.toNat_toUInt8,
      UInt32.toNat_shiftRight,UInt32.reduceToNat,Nat.reduceMod,Nat.testBit_or,Nat.testBit_mod_two_pow,
      Nat.testBit_shiftLeft,Nat.testBit_shiftRight]
  · rw [testBitAbove b (by omega),testBitAbove c (by omega),testBitAbove d (by omega)]
    simp [small,show 24+i < 32 by omega]
  · rw [testBitAbove c (by omega),testBitAbove d (by omega)]
    simp [small,show 16+i < 32 by omega,show ¬24 ≤ 16+i by omega]
  · rw [testBitAbove d (by omega)]
    simp [small,show 8+i < 32 by omega,show ¬16 ≤ 8+i by omega,show ¬24 ≤ 8+i by omega]
  · simp [small,show ¬8 ≤ i by omega,show ¬16 ≤ i by omega,show ¬24 ≤ i by omega]

theorem cutStringBytes {v : Bytes} (small : v.length ≤ sizeMax-4) (rest : Bytes) :
    cutString (stringBytes v ++ rest) = .ok (v,rest) := by
  have len : (peekU32 (stringBytes v ++ rest)).toNat = v.length := by
    rw [stringBytes,List.append_assoc,peekBytes,Nat.toUInt32_eq,UInt32.toNat_ofNat']
    exact Nat.mod_eq_of_lt (Nat.lt_of_le_of_lt small (by decide))
  have total : (stringBytes v ++ rest).length = v.length+4+rest.length := by
    rw [List.length_append,stringLength]
  have front : (stringBytes v ++ rest).drop 4 = v ++ rest := rfl
  rw [cutString,total,if_neg (by omega)]
  simp only [len,front]
  rw [if_neg (Nat.not_lt.mpr small),if_neg (by omega),List.take_left,Nat.add_comm v.length 4,← List.drop_drop,front,
    List.drop_left]

theorem cutStringSource {bytes p rest : Bytes} (cut : cutString bytes = .ok (p,rest)) :
    bytes = stringBytes p ++ rest ∧ p.length ≤ sizeMax-4 := by
  obtain ⟨fits,left⟩ := cutStringFits cut
  obtain ⟨a,b,c,d,tail,rfl⟩ : ∃ a b c d tail, bytes = a::b::c::d::tail := by
    match bytes with
    | a::b::c::d::tail => exact ⟨a,b,c,d,tail,rfl⟩
    | [] | [_] | [_,_] | [_,_,_] => simp at fits
  rw [cutString] at cut
  simp only [List.length_cons] at cut
  split at cut
  · omega
  · split at cut
    · cases cut
    · split at cut
      · cases cut
      · rename_i small enough
        cases cut
        have length : ((List.drop 4 (a::b::c::d::tail)).take (peekU32 (a::b::c::d::tail)).toNat).length =
            (peekU32 (a::b::c::d::tail)).toNat := by
          rw [List.length_take,List.length_drop]
          simp only [List.length_cons]
          omega
        refine ⟨?_,by omega⟩
        rw [stringBytes,length,Nat.toUInt32_eq,UInt32.ofNat_toNat,bytesPeek,Nat.add_comm,← List.drop_drop]
        simp

structure Sent (bytes text : Bytes) : Prop where
  small : bytes.length ≤ sizeMax-4
  clean : 0 ∉ text
  ends : bytes = text ∨ bytes = text ++ [0]

theorem takeText {text : Bytes} (clean : 0 ∉ text) (rest : Bytes) :
    (text ++ 0::rest).takeWhile (· ≠ 0) = text ∧ text.takeWhile (· ≠ 0) = text := by
  have each : ∀ c ∈ text, decide (c ≠ 0) = true := by
    intro c member
    rw [decide_eq_true_eq]
    exact fun zero => clean (zero ▸ member)
  refine ⟨?_,List.takeWhile_eq_self_iff.mpr each⟩
  rw [List.takeWhile_append_of_pos each]
  simp

theorem cutCstringIff {bytes text rest : Bytes} :
    cutCstring bytes = .ok (text,rest) ↔ ∃ p, bytes = stringBytes p ++ rest ∧ Sent p text := by
  refine ⟨?_,?_⟩
  · intro cut
    rw [cutCstring] at cut
    cases found : cutString bytes with
    | error e =>
      rw [found] at cut
      cases cut
    | ok parts =>
      obtain ⟨p,left⟩ := parts
      obtain ⟨whole,small⟩ := cutStringSource found
      rw [found] at cut
      simp only [bind,Except.bind] at cut
      split at cut
      · cases cut
      · rename_i inner
        cases cut
        refine ⟨p,whole,small,?_,?_⟩
        · intro member
          have := List.mem_takeWhile_imp member
          simp at this
        · rcases List.eq_nil_or_concat p with empty | last
          · rw [empty]
            exact .inl rfl
          · obtain ⟨front,c,rfl⟩ := last
            rw [List.concat_eq_append,List.dropLast_concat] at inner
            rw [List.concat_eq_append]
            by_cases zero : c = 0
            · subst c
              rw [(takeText inner []).1]
              exact .inr rfl
            · refine .inl (List.takeWhile_eq_self_iff.mpr ?_).symm
              intro d member
              rw [decide_eq_true_eq]
              rcases List.mem_append.mp member with before | here
              · exact fun none => inner (none ▸ before)
              · exact List.mem_singleton.mp here ▸ zero
  · intro source
    obtain ⟨p,rfl,small,clean,ends⟩ := source
    have inner : 0 ∉ p.dropLast := by
      rcases ends with rfl | rfl
      · exact fun member => clean (List.dropLast_subset _ member)
      · rwa [List.dropLast_concat]
    have taken : p.takeWhile (· ≠ 0) = text := by
      rcases ends with rfl | rfl
      · exact (takeText clean []).2
      · exact (takeText clean []).1
    rw [cutCstring,cutStringBytes small]
    simp only [bind,Except.bind,inner,if_false,taken]
    rfl

end Strings

end SesLabs.SshBuf
