import SesLabs.BitmapSteps
import Mathlib.Data.Set.Insert

/-! What main holds while it runs. A watch follows the files and blocks that are
held: nothing is taken twice, and nothing is used or given back that is not held.
It never objects, in any run of either version, and in the end bitmap_corr.C has
given everything back, while bitmap.C still holds the table of row pointers. -/
namespace SesLabs.BitmapResources
open EventRun EventRun.Run RowBuffer BitmapFormat BitmapProgram RunMonitor BitmapSteps

def fileOf : Image → Path
  | .bitmap => .img1
  | .hiddenText => .hiddenText
  | .bitmapOri => .img1
  | .bitmapModified => .img2
  | .bitmapFoundHiddenText => .hiddenText2

/- The rows of bitmap are blocks of their own; the others have one row buffer. -/
def blockOf (pRow : Nat) : Image → Resource
  | .bitmap => .row pRow
  | image => .buffer image

structure Holding where
  held : Set Resource
  pRow : Nat

-- Following an entry of the table decides which row is accessed next.
def resources : Watch Step Holding where
  Allows h
    | .acquire r => r ∉ h.held
    | .use r => r ∈ h.held
    | .release r => r ∈ h.held
    | .touch (.access owner _ _ _) => blockOf h.pRow owner ∈ h.held
    | .touch (.rowTable _ _) => .pBuffer ∈ h.held
    | .touch (.rowRead file _ _) => .file (fileOf file) ∈ h.held
    | .touch (.modifyPixel row _) => .row row ∈ h.held
  next h
    | .acquire r => ⟨insert r h.held,h.pRow⟩
    | .release r => ⟨h.held \ {r},h.pRow⟩
    | .touch (.rowTable index _) => ⟨h.held,index⟩
    | _ => h

def rowsBetween (p n : Nat) : Set Resource := {r | ∃ i, p ≤ i ∧ i < n ∧ r = .row i}

def leftBehind : Version → Set Resource
  | .original => {.pBuffer}
  | .corrected => ∅

section Pieces
variable {S : Set Resource} {c : Nat}

theorem wpDeref {s h : Nat} (table : RowTable s h) (pRow : Nat) {Q : Vector UInt8 s → Holding → Prop}
    (held : .pBuffer ∈ S) (returns : ∀ row, Q row ⟨S,pRow⟩) :
    resources.wp (track (derefRow table pRow)) Q ⟨S,c⟩ :=
  Watch.wpStuck held (fun row _ => returns row)

theorem trackBind {α β : Type} (x : Run Event α) (f : α → Run Event β) :
    track (x >>= f) = track x >>= fun a => track (f a) := relabelBind _ x f

theorem wpReturn {α : Type} {a : α} {Q : α → Holding → Prop} (returns : Q a ⟨S,c⟩) :
    resources.wp (track (pure a)) Q ⟨S,c⟩ := (Watch.wpPure a Q).mpr returns

theorem wpAccess {α : Type} {owner : Image} {offset count size : Nat} {a : α} {Q : α → Holding → Prop}
    (block : blockOf c owner ∈ S) (returns : Q a ⟨S,c⟩) :
    resources.wp (track (do emit (.access owner offset count size); return a)) Q ⟨S,c⟩ := by
  rw [trackBind,Watch.wpBind,track,relabelEmit,Watch.wpEmit]
  exact ⟨block,wpReturn returns⟩

section Buffers
variable {n : Nat} {owner : Image} {b : Vector UInt8 n} (block : blockOf c owner ∈ S)
include block

theorem wpLoad {past : Nat → UInt8} {k : Nat} {Q : UInt8 → Holding → Prop} (returns : ∀ v, Q v ⟨S,c⟩) :
    resources.wp (track (loadByte owner past b k)) Q ⟨S,c⟩ := wpAccess block (returns _)

theorem wpStore {k : Nat} {v : UInt8} {Q : Vector UInt8 n → Holding → Prop} (returns : ∀ b, Q b ⟨S,c⟩) :
    resources.wp (track (storeByte owner b k v)) Q ⟨S,c⟩ := wpAccess block (returns _)

theorem wpMemset {v : UInt8} {Q : Vector UInt8 n → Holding → Prop} (returns : ∀ b, Q b ⟨S,c⟩) :
    resources.wp (track (memset owner b v)) Q ⟨S,c⟩ := wpAccess block (returns _)

theorem wpFwrite {out : Bytes} {Q : Bytes → Holding → Prop} (returns : ∀ out, Q out ⟨S,c⟩) :
    resources.wp (track (fwrite owner b out)) Q ⟨S,c⟩ := wpAccess block (returns _)

theorem wpFread {stream : Bytes} {Q : Vector UInt8 n × Bytes → Holding → Prop}
    (file : .file (fileOf owner) ∈ S) (returns : ∀ r, Q r ⟨S,c⟩) :
    resources.wp (track (fread owner b stream)) Q ⟨S,c⟩ := by
  rw [fread,trackBind,Watch.wpBind,track,relabelEmit,Watch.wpEmit]
  exact ⟨file,wpAccess block (returns _)⟩

end Buffers

theorem wpNewRow {s h : Nat} (mem : Memory) (i : Nat) (st : RowState s h) (table : .pBuffer ∈ S)
    (row : .row st.pRow ∈ S) :
    resources.wp (track (newRow mem i st)) (fun st' held => st'.pRow = st.pRow+1 ∧ held.held = S) ⟨S,c⟩ := by
  rw [newRow,setRow,bind_assoc,trackBind,Watch.wpBind,track,relabelEmit,Watch.wpEmit]
  refine ⟨table,?_⟩
  rw [pure_bind,trackBind,Watch.wpBind]
  refine wpDeref _ _ table (fun cells => ?_)
  rw [trackBind,Watch.wpBind]
  exact wpMemset row (fun cells => wpReturn ⟨rfl,rfl⟩)

theorem wpLoadRow {s h : Nat} (i : Nat) (st : LoadState s h) (table : .pBuffer ∈ S) (row : .row st.pRow ∈ S)
    (file : .file .img1 ∈ S) :
    resources.wp (track (loadRow i st)) (fun st' held => st'.pRow = st.pRow+1 ∧ held.held = S) ⟨S,c⟩ := by
  rw [loadRow,trackBind,Watch.wpBind]
  refine wpDeref _ _ table (fun cells => ?_)
  rw [trackBind,Watch.wpBind]
  exact wpFread row file (fun r => wpReturn ⟨rfl,rfl⟩)

theorem wpWriteRow {s h : Nat} (table : RowTable s h) (i : Nat) (st : WriteState) (held : .pBuffer ∈ S)
    (row : .row st.pRow ∈ S) (file : .file .img2 ∈ S) :
    resources.wp (writeRowSteps table i st) (fun st' held => st'.pRow = st.pRow+1 ∧ held.held = S) ⟨S,c⟩ := by
  rw [writeRowSteps,Watch.wpBind,writeRow,trackBind,Watch.wpBind]
  refine wpDeref _ _ held (fun cells => ?_)
  rw [trackBind,Watch.wpBind]
  refine wpFwrite row (fun dst => wpReturn ?_)
  rw [Watch.wpBind,Watch.wpEmit,Watch.wpPure]
  exact ⟨file,rfl,rfl⟩

theorem wpNotWhite {n : Nat} {past : Nat → UInt8} {b : Vector UInt8 n} {p : Nat} {Q : Bool → Holding → Prop}
    (block : .buffer .hiddenText ∈ S) (returns : ∀ hit, Q hit ⟨S,c⟩) :
    resources.wp (track (notWhite past b p)) Q ⟨S,c⟩ := by
  rw [notWhite,trackBind,Watch.wpBind]
  refine wpLoad block (fun blue => ?_)
  split
  · exact wpReturn (returns true)
  · rw [trackBind,Watch.wpBind]
    refine wpLoad block (fun green => ?_)
    split
    · exact wpReturn (returns true)
    · rw [trackBind,Watch.wpBind]
      exact wpLoad block (fun red => wpReturn (returns _))

theorem wpModifyColour {n : Nat} {past : Nat → UInt8} {row : Vector UInt8 n} {k : Nat}
    {Q : Vector UInt8 n → Holding → Prop} (block : .row c ∈ S) (returns : ∀ row, Q row ⟨S,c⟩) :
    resources.wp (track (modifyColour past row k)) Q ⟨S,c⟩ := by
  rw [modifyColour,trackBind,Watch.wpBind]
  exact wpLoad block (fun v => wpStore block returns)

theorem wpModifyPixel {n : Nat} {past : Nat → UInt8} {row : Vector UInt8 n} {p : Nat}
    {Q : Vector UInt8 n → Holding → Prop} (block : .row c ∈ S) (returns : ∀ row, Q row ⟨S,c⟩) :
    resources.wp (track (modifyPixel past row p)) Q ⟨S,c⟩ := by
  rw [modifyPixel,trackBind,Watch.wpBind]
  refine wpModifyColour block (fun row => ?_)
  rw [trackBind,Watch.wpBind]
  exact wpModifyColour block (fun row => wpModifyColour block returns)

theorem wpMarkPixel {n s h : Nat} (mem : Memory) (buffer : Vector UInt8 n) (pRow : Nat) (st : MarkState s h)
    (block : .buffer .hiddenText ∈ S) (table : .pBuffer ∈ S) (row : .row pRow ∈ S) :
    resources.wp (track (markPixel mem buffer pRow st)) (fun _ held => held.held = S) ⟨S,c⟩ := by
  rw [markPixel,trackBind,Watch.wpBind]
  refine wpNotWhite block (fun hit => ?_)
  split
  · rw [trackBind,Watch.wpBind]
    refine wpDeref _ _ table (fun cells => ?_)
    rw [trackBind,Watch.wpBind,track,relabelEmit,Watch.wpEmit]
    refine ⟨row,?_⟩
    rw [trackBind,Watch.wpBind]
    exact wpModifyPixel row (fun cells => wpReturn rfl)
  · exact wpReturn rfl

theorem wpMarkLine {n s h : Nat} (v : Version) (fuel : Nat) (mem : Memory) (widthLoop : Nat)
    (buffer : Vector UInt8 n) (pRow : Nat) (table : RowTable s h) (block : .buffer .hiddenText ∈ S)
    (pointers : .pBuffer ∈ S) (row : .row pRow ∈ S) :
    resources.wp (track (markLine v fuel mem widthLoop buffer pRow table)) (fun _ held => held.held = S)
      ⟨S,c⟩ := by
  rw [markLine,track,relabelLoop]
  refine Watch.wpLoop (fun _ (held : Holding) => held.held = S) ?_ fuel rfl
  intro st held kept _
  obtain ⟨_,cursor⟩ := held
  subst kept
  exact wpMarkPixel mem buffer pRow st block pointers row

theorem wpHideLine {n s h : Nat} (v : Version) (fuel : Nat) (mem : Memory) (widthLoop i : Nat)
    (st : HideState n s h) (block : .buffer .hiddenText ∈ S) (file : .file .hiddenText ∈ S)
    (table : .pBuffer ∈ S) (row : .row st.pRow ∈ S) :
    resources.wp (track (hideLine v fuel mem widthLoop i st))
      (fun st' held => st'.pRow = st.pRow+1 ∧ held.held = S) ⟨S,c⟩ := by
  rw [hideLine,trackBind,Watch.wpBind]
  refine wpFread block file (fun r => ?_)
  rw [trackBind,Watch.wpBind]
  refine Watch.wpMono (fun line held kept => ?_) (wpMarkLine v fuel mem widthLoop r.1 st.pRow st.table block table row)
  obtain ⟨_,cursor⟩ := held
  exact wpReturn ⟨rfl,kept⟩

theorem wpRows {τ : Type} (pRow : τ → Nat) {body : Nat → τ → Run Step τ} {n : Nat} {st : τ}
    (start : pRow st = 0) (rows : ∀ i < n, .row i ∈ S)
    (step : ∀ i st c, .row (pRow st) ∈ S → resources.wp (body i st)
      (fun st' held => pRow st' = pRow st+1 ∧ held.held = S) ⟨S,c⟩) :
    resources.wp (countdown body n st) (fun _ held => held.held = S) ⟨S,c⟩ := by
  refine Watch.wpMono (fun _ held kept => kept.2)
    (Watch.wpCountdown (fun i st (held : Holding) => pRow st+i = n ∧ held.held = S) ?_ ⟨by omega,rfl⟩)
  intro i _ st held kept
  obtain ⟨left,same⟩ := kept
  obtain ⟨_,cursor⟩ := held
  subst same
  refine Watch.wpMono (fun st' held kept => ?_) (step (i+1) st cursor (rows _ (by omega)))
  exact ⟨by omega,kept.2⟩

theorem rowsTaken (n : Nat) : insert (.row n) (S ∪ rowsBetween 0 n) = S ∪ rowsBetween 0 (n+1) := by
  ext r
  simp only [rowsBetween,Set.mem_insert_iff,Set.mem_union,Set.mem_ofPred_eq,Nat.zero_le,true_and]
  refine ⟨?_,?_⟩
  · intro member
    rcases member with last | member | found
    · exact .inr ⟨n,Nat.lt_succ_self n,last⟩
    · exact .inl member
    · obtain ⟨i,inside,same⟩ := found
      exact .inr ⟨i,Nat.lt_succ_of_lt inside,same⟩
  · intro member
    rcases member with member | found
    · exact .inr (.inl member)
    · obtain ⟨i,inside,same⟩ := found
      rcases Nat.lt_succ_iff_lt_or_eq.mp inside with earlier | last
      · exact .inr (.inr ⟨i,earlier,same⟩)
      · exact .inl (last ▸ same)

theorem rowsGiven {p n : Nat} (apart : .row p ∉ S) :
    (S ∪ rowsBetween p n) \ {.row p} = S ∪ rowsBetween (p+1) n := by
  ext r
  simp only [rowsBetween,Set.mem_sdiff,Set.mem_union,Set.mem_ofPred_eq,Set.mem_singleton_iff]
  refine ⟨?_,?_⟩
  · intro member
    obtain ⟨held,other⟩ := member
    rcases held with member | found
    · exact .inl member
    · obtain ⟨i,low,high,same⟩ := found
      rcases Nat.lt_or_eq_of_le low with later | first
      · exact .inr ⟨i,later,high,same⟩
      · exact absurd (first ▸ same) other
  · intro member
    rcases member with member | found
    · exact ⟨.inl member,fun same => apart (same ▸ member)⟩
    · obtain ⟨i,low,high,same⟩ := found
      refine ⟨.inr ⟨i,by omega,high,same⟩,fun first => ?_⟩
      have index := Resource.row.inj (same.symm.trans first)
      omega

theorem noRows (n : Nat) : S ∪ rowsBetween n n = S := by
  have none : rowsBetween n n = ∅ := by
    ext r
    simp only [rowsBetween,Set.mem_ofPred_eq,Set.mem_empty_iff_false,iff_false]
    intro found
    obtain ⟨i,low,high,_⟩ := found
    omega
  rw [none,Set.union_empty]

theorem rowFresh {p n : Nat} (behind : n ≤ p) (apart : .row p ∉ S) : .row p ∉ S ∪ rowsBetween 0 n := by
  intro member
  rcases member with member | found
  · exact apart member
  · obtain ⟨i,_,high,same⟩ := found
    have index := Resource.row.inj same
    omega

theorem wpNewRows (mem : Memory) (s h : Nat) (fresh : .pBuffer ∉ S) (apart : ∀ i, .row i ∉ S) :
    resources.wp (newRowsSteps mem s h)
      (fun _ held => held.held = insert .pBuffer S ∪ rowsBetween 0 h) ⟨S,c⟩ := by
  rw [newRowsSteps,Watch.wpBind,Watch.wpEmit,Watch.wpBind,Watch.wpEmit]
  refine ⟨fresh,Set.mem_insert _ _,?_⟩
  rw [Watch.wpBind]
  have start : (⟨0,Vector.replicate h none⟩ : RowState s h).pRow+h = h := Nat.zero_add h
  refine Watch.wpMono (fun st held kept => (Watch.wpPure _ _).mpr ?_) (Watch.wpCountdown
    (fun i (st : RowState s h) (held : Holding) => st.pRow+i = h ∧
      held.held = insert .pBuffer S ∪ rowsBetween 0 st.pRow) ?_ ⟨start,(noRows 0).symm⟩)
  · obtain ⟨all,same⟩ := kept
    exact same.trans (congrArg (fun n => insert .pBuffer S ∪ rowsBetween 0 n) all)
  · intro i _ st held kept
    obtain ⟨left,same⟩ := kept
    obtain ⟨held,cursor⟩ := held
    subst same
    have free : .row st.pRow ∉ insert .pBuffer S := by
      simpa using apart st.pRow
    rw [newRowSteps,Watch.wpBind,Watch.wpEmit]
    refine ⟨rowFresh (Nat.le_refl _) free,?_⟩
    refine Watch.wpMono (fun st' held kept => ?_) (wpNewRow mem (i+1) st
      (Set.mem_insert_of_mem _ (.inl (Set.mem_insert _ _))) (Set.mem_insert _ _))
    obtain ⟨next,same⟩ := kept
    refine ⟨by omega,?_⟩
    rw [same,next]
    exact rowsTaken st.pRow

theorem wpDeleteRows (h : Nat) (table : .pBuffer ∈ S) (apart : ∀ i, .row i ∉ S) :
    resources.wp (countdown deleteRow h 0) (fun _ held => held.held = S) ⟨S ∪ rowsBetween 0 h,c⟩ := by
  refine Watch.wpMono (fun pRow held kept => ?_) (Watch.wpCountdown
    (fun i pRow (held : Holding) => pRow+i = h ∧ held.held = S ∪ rowsBetween pRow h) ?_ ⟨Nat.zero_add h,rfl⟩)
  · obtain ⟨all,same⟩ := kept
    rw [same,← all]
    exact noRows pRow
  · intro i _ pRow held kept
    obtain ⟨left,same⟩ := kept
    obtain ⟨held,cursor⟩ := held
    subst same
    rw [deleteRow,Watch.wpBind,Watch.wpEmit,Watch.wpBind,Watch.wpEmit,Watch.wpPure]
    exact ⟨.inl table,.inr ⟨pRow,Nat.le_refl _,by omega,rfl⟩,by omega,rowsGiven (apart pRow)⟩

structure Comparing (S : Set Resource) : Prop where
  files : ∀ path ≠ .hiddenText, .file path ∈ S
  buffers : ∀ image ≠ .bitmap, image ≠ .hiddenText → .buffer image ∈ S

theorem wpCheckPixel {n m : Nat} (mem : Memory) (i j : Nat) (ori : Vector UInt8 n) (modified : Vector UInt8 m)
    (st : CheckState n) (comparing : Comparing S) :
    resources.wp (track (checkPixel .red mem i ori modified j st)) (fun _ held => held.held = S) ⟨S,c⟩ := by
  have found : blockOf c .bitmapFoundHiddenText ∈ S := comparing.buffers _ (by decide) (by decide)
  rw [checkPixel,trackBind,Watch.wpBind]
  refine wpLoad (comparing.buffers .bitmapOri (by decide) (by decide)) (fun left => ?_)
  rw [trackBind,Watch.wpBind]
  refine wpLoad (comparing.buffers .bitmapModified (by decide) (by decide)) (fun right => ?_)
  split
  · rw [trackBind,Watch.wpBind]
    refine wpStore found (fun cells => ?_)
    rw [trackBind,Watch.wpBind]
    refine wpStore found (fun cells => ?_)
    rw [trackBind,Watch.wpBind]
    exact wpStore found (fun cells => wpReturn rfl)
  · exact wpReturn rfl

theorem wpCheckLine {n m : Nat} (mem : Memory) (width i : Nat) (st : LineState n m) (comparing : Comparing S) :
    resources.wp (checkLineSteps mem width i st) (fun _ held => held.held = S) ⟨S,c⟩ := by
  have found {c : Nat} : blockOf c .bitmapFoundHiddenText ∈ S := comparing.buffers _ (by decide) (by decide)
  rw [checkLineSteps,Watch.wpBind,checkLine,trackBind,Watch.wpBind]
  refine wpFread (comparing.buffers .bitmapOri (by decide) (by decide)) (comparing.files _ (by decide))
    (fun ori => ?_)
  rw [trackBind,Watch.wpBind]
  refine wpFread (comparing.buffers .bitmapModified (by decide) (by decide)) (comparing.files _ (by decide))
    (fun modified => ?_)
  rw [trackBind,Watch.wpBind]
  refine wpMemset found (fun cells => ?_)
  rw [trackBind,Watch.wpBind,track,relabelCountdown]
  refine Watch.wpMono (fun line held kept => ?_) (Watch.wpCountdown
    (fun _ _ (held : Holding) => held.held = S) (fun j _ line held kept => ?_) rfl)
  · obtain ⟨_,cursor⟩ := held
    subst kept
    rw [trackBind,Watch.wpBind]
    refine wpFwrite found (fun text => wpReturn ?_)
    rw [Watch.wpBind,Watch.wpEmit,Watch.wpPure]
    exact ⟨comparing.files _ (by decide),rfl⟩
  · obtain ⟨_,cursor⟩ := held
    subst kept
    exact wpCheckPixel mem i (j+1) _ _ line comparing

end Pieces

theorem givenBack {S : Set Resource} {r : Resource} (fresh : r ∉ S) : insert r S \ {r} = S := by
  ext other
  simp only [Set.mem_sdiff,Set.mem_insert_iff,Set.mem_singleton_iff]
  refine ⟨?_,?_⟩
  · intro member
    exact member.1.resolve_left member.2
  · intro member
    exact ⟨.inr member,fun same => fresh (same ▸ member)⟩

section Steps
variable {S : Set Resource} {c : Nat} {r : Resource} {α : Type} {f : Unit → Run Step α} {Q : α → Holding → Prop}

theorem wpAcquire (fresh : r ∉ S) (rest : resources.wp (f ()) Q ⟨insert r S,c⟩) :
    resources.wp (emit (.acquire r) >>= f) Q ⟨S,c⟩ := by
  rw [Watch.wpBind,Watch.wpEmit]
  exact ⟨fresh,rest⟩

theorem wpUse (held : r ∈ S) (rest : resources.wp (f ()) Q ⟨S,c⟩) :
    resources.wp (emit (.use r) >>= f) Q ⟨S,c⟩ := by
  rw [Watch.wpBind,Watch.wpEmit]
  exact ⟨held,rest⟩

theorem wpRelease (held : r ∈ S) (rest : resources.wp (f ()) Q ⟨S \ {r},c⟩) :
    resources.wp (emit (.release r) >>= f) Q ⟨S,c⟩ := by
  rw [Watch.wpBind,Watch.wpEmit]
  exact ⟨held,rest⟩

theorem wpStage {β : Type} {x : Run Step β} {g : β → Run Step α} (T : Set Resource)
    (stage : resources.wp x (fun _ held => held.held = T) ⟨S,c⟩)
    (rest : ∀ b c, resources.wp (g b) Q ⟨T,c⟩) : resources.wp (x >>= g) Q ⟨S,c⟩ := by
  rw [Watch.wpBind]
  refine Watch.wpMono (fun b held kept => ?_) stage
  obtain ⟨_,cursor⟩ := held
  subst kept
  exact rest b cursor

end Steps

section Stages
variable {c : Nat}

def opened : Set Resource := {.file .img2,.file .img1}
def inMemory (h : Nat) : Set Resource := insert .pBuffer opened ∪ rowsBetween 0 h
def withHidden (h : Nat) : Set Resource := insert (.buffer .hiddenText) (insert (.file .hiddenText) (inMemory h))

theorem inMemoryRow {h i : Nat} (inside : i < h) : .row i ∈ inMemory h := .inr ⟨i,Nat.zero_le i,inside,rfl⟩
theorem inMemoryTable (h : Nat) : .pBuffer ∈ inMemory h := .inl (Set.mem_insert _ _)
theorem inMemoryFile (h : Nat) : .file .img1 ∈ inMemory h ∧ .file .img2 ∈ inMemory h :=
  ⟨.inl (by simp [opened]),.inl (by simp [opened])⟩

theorem inMemoryHidden (h : Nat) : .file .hiddenText ∉ inMemory h ∧ .buffer .hiddenText ∉ inMemory h := by
  simp [inMemory,opened,rowsBetween]

theorem wpLoadRows {s h : Nat} (table : RowTable s h) (stream : Bytes) :
    resources.wp (track (loadRows table stream)) (fun _ held => held.held = inMemory h) ⟨inMemory h,c⟩ := by
  rw [loadRows,trackBind,track,relabelCountdown]
  refine wpStage (inMemory h) (wpRows LoadState.pRow rfl (fun i inside => inMemoryRow inside) ?_)
    (fun st c => wpReturn rfl)
  intro i st c row
  exact wpLoadRow i st (inMemoryTable h) row (inMemoryFile h).1

theorem wpHideLines {n s h : Nat} (v : Version) (fuel : Nat) (mem : Memory) (widthLoop : Nat) {heightLoop : Nat}
    (shared : heightLoop ≤ h) (buffer : Vector UInt8 n) (stream : Bytes) (table : RowTable s h) :
    resources.wp (track (hideLines v fuel mem widthLoop heightLoop buffer stream table))
      (fun _ held => held.held = withHidden h) ⟨withHidden h,c⟩ := by
  rw [hideLines,trackBind,track,relabelCountdown]
  refine wpStage (withHidden h) (wpRows HideState.pRow rfl (fun i inside => ?_) ?_) (fun st c => wpReturn rfl)
  · exact .inr (.inr (inMemoryRow (Nat.lt_of_lt_of_le inside shared)))
  · intro i st c row
    exact wpHideLine v fuel mem widthLoop i st (Set.mem_insert _ _) (.inr (Set.mem_insert _ _))
      (.inr (.inr (inMemoryTable h))) row

theorem wpWriteRows {s h : Nat} (table : RowTable s h) (dst : Bytes) :
    resources.wp (writeRowsSteps table dst) (fun _ held => held.held = inMemory h) ⟨inMemory h,c⟩ := by
  rw [writeRowsSteps]
  refine wpStage (inMemory h) (wpRows WriteState.pRow rfl (fun i inside => inMemoryRow inside) ?_)
    (fun st c => (Watch.wpPure _ _).mpr rfl)
  intro i st c row
  exact wpWriteRow table i st (inMemoryTable h) row (inMemoryFile h).2

theorem wpDeleteTable (v : Version) :
    resources.wp (deleteTable v) (fun _ held => held.held = leftBehind v ∪ opened) ⟨insert .pBuffer opened,c⟩ := by
  cases v with
  | original => exact (Watch.wpPure _ _).mpr rfl
  | corrected =>
    rw [deleteTable,Watch.wpEmit]
    refine ⟨Set.mem_insert _ _,?_⟩
    ext r
    cases r <;> simp [resources,leftBehind,opened]

end Stages

theorem leftTable {v : Version} {r : Resource} (left : r ∈ leftBehind v) : r = .pBuffer := by
  cases v with
  | original => exact left
  | corrected => exact absurd left (Set.notMem_empty r)

theorem leftOther {v : Version} {r other : Resource} (left : r ∈ leftBehind v) (differs : other ≠ .pBuffer) :
    r ≠ other := fun same => differs (same.symm.trans (leftTable left))

theorem filesClosed (v : Version) : ((leftBehind v ∪ opened) \ {.file .img1}) \ {.file .img2} = leftBehind v := by
  ext r
  refine ⟨?_,?_⟩
  · intro kept
    obtain ⟨⟨held,notOne⟩,notTwo⟩ := kept
    rcases held with left | two | one
    · exact left
    · exact absurd two notTwo
    · exact absurd one notOne
  · intro left
    exact ⟨⟨.inl left,leftOther left (by simp)⟩,leftOther left (by simp)⟩

theorem overlapShared (hiddenText bitmap : UInt16) : overlap hiddenText bitmap ≤ bitmap.toNat := by
  unfold overlap
  split
  · rename_i smaller
    exact UInt16.le_iff_toNat_le.mp smaller
  · exact Nat.le_refl _

theorem wpEncrypt (v : Version) (fuel : Nat) (mem : Memory) (src hiddenSource : Bytes) (c : Nat) :
    resources.wp (encryptSteps v fuel mem src hiddenSource) (fun _ held => held.held = leftBehind v) ⟨∅,c⟩ := by
  unfold encryptSteps
  refine wpAcquire (Set.notMem_empty _) (wpAcquire (by simp) ?_)
  refine wpUse (by simp) (wpUse (by simp) (wpUse (by simp) (wpUse (by simp) ?_)))
  have start : (insert (.file .img2) (insert (.file .img1) ∅) : Set Resource) = opened := by
    simp [opened]
  rw [start]
  generalize readHeaders (mem.stack .bitmap) src = bitmap
  refine wpStage (inMemory bitmap.imageHeight.toNat) (wpNewRows mem _ _ (by simp [opened]) (by simp [opened])) ?_
  intro table c
  refine wpStage (inMemory bitmap.imageHeight.toNat) (wpLoadRows table _) ?_
  intro table c
  obtain ⟨noFile,noBuffer⟩ := inMemoryHidden bitmap.imageHeight.toNat
  refine wpAcquire noFile (wpUse (Set.mem_insert _ _) (wpUse (Set.mem_insert _ _) (wpAcquire ?_ ?_)))
  · simpa using noBuffer
  generalize readHeaders (mem.stack .hiddenText) hiddenSource = hiddenText
  refine wpStage (withHidden bitmap.imageHeight.toNat) (wpHideLines v fuel mem _ (overlapShared _ _) _ _ table) ?_
  intro table c
  have restored : (withHidden bitmap.imageHeight.toNat \ {.buffer .hiddenText}) \ {.file .hiddenText} =
      inMemory bitmap.imageHeight.toNat := by
    rw [withHidden,givenBack (by simpa using noBuffer),givenBack noFile]
  refine wpRelease (Set.mem_insert _ _) (wpRelease ?_ ?_)
  · rw [withHidden,givenBack (by simpa using noBuffer)]
    exact Set.mem_insert _ _
  rw [restored]
  refine wpStage (inMemory bitmap.imageHeight.toNat) (wpWriteRows table _) ?_
  intro dst c
  refine wpStage (insert .pBuffer opened) (wpDeleteRows _ (Set.mem_insert _ _) (by simp [opened])) ?_
  intro _ c
  refine wpStage (leftBehind v ∪ opened) (wpDeleteTable v) ?_
  intro _ c
  refine wpRelease (.inr (by simp [opened])) (wpRelease ⟨.inr (by simp [opened]),by simp⟩ ?_)
  rw [Watch.wpPure]
  exact filesClosed v

def compared (v : Version) : Set Resource :=
  insert (.buffer .bitmapFoundHiddenText) (insert (.buffer .bitmapModified) (insert (.buffer .bitmapOri)
    (insert (.file .hiddenText2) (insert (.file .img2) (insert (.file .img1) (leftBehind v))))))

theorem comparedComparing (v : Version) : Comparing (compared v) := by
  refine ⟨?_,?_⟩
  · intro path other
    cases path with
    | img1 => simp [compared]
    | img2 => simp [compared]
    | hiddenText => exact absurd rfl other
    | hiddenText2 => simp [compared]
  · intro image cover hidden
    cases image with
    | bitmap => exact absurd rfl cover
    | hiddenText => exact absurd rfl hidden
    | bitmapOri => simp [compared]
    | bitmapModified => simp [compared]
    | bitmapFoundHiddenText => simp [compared]

theorem comparedClosed (v : Version) :
    (((((compared v \ {.buffer .bitmapOri}) \ {.buffer .bitmapModified}) \ {.buffer .bitmapFoundHiddenText})
      \ {.file .img1}) \ {.file .img2}) \ {.file .hiddenText2} = leftBehind v := by
  ext r
  refine ⟨?_,?_⟩
  · intro kept
    obtain ⟨⟨⟨⟨⟨⟨held,notOri⟩,notModified⟩,notFound⟩,notOne⟩,notTwo⟩,notText⟩ := kept
    rcases held with found | modified | ori | text | two | one | left
    · exact absurd found notFound
    · exact absurd modified notModified
    · exact absurd ori notOri
    · exact absurd text notText
    · exact absurd two notTwo
    · exact absurd one notOne
    · exact left
  · intro left
    have other {s : Resource} (differs : s ≠ .pBuffer) : r ∉ ({s} : Set Resource) := leftOther left differs
    refine ⟨⟨⟨⟨⟨⟨?_,other (by simp)⟩,other (by simp)⟩,other (by simp)⟩,other (by simp)⟩,other (by simp)⟩,other (by simp)⟩
    exact .inr (.inr (.inr (.inr (.inr (.inr left)))))

theorem wpDecrypt (v : Version) (mem : Memory) (pOri pModified : Bytes) (c : Nat) :
    resources.wp (decryptSteps mem pOri pModified) (fun _ held => held.held = leftBehind v) ⟨leftBehind v,c⟩ := by
  have free : (∀ path, .file path ∉ leftBehind v) ∧ ∀ image, .buffer image ∉ leftBehind v :=
    ⟨fun path left => leftOther left (by simp) rfl,fun image left => leftOther left (by simp) rfl⟩
  unfold decryptSteps
  refine wpAcquire (free.1 _) (wpAcquire ?_ (wpAcquire ?_ ?_))
  · simpa using free.1 .img2
  · simpa using free.1 .hiddenText2
  refine wpUse (by simp) (wpUse (by simp) (wpUse (by simp) (wpUse (by simp) (wpUse (by simp) (wpUse (by simp) ?_)))))
  refine wpAcquire ?_ (wpAcquire ?_ (wpAcquire ?_ ?_))
  · simpa using free.2 .bitmapOri
  · simpa using free.2 .bitmapModified
  · simpa using free.2 .bitmapFoundHiddenText
  refine wpStage (compared v) (Watch.wpCountdown (fun _ _ (held : Holding) => held.held = compared v)
    (fun i _ st held kept => ?_) rfl) ?_
  · obtain ⟨_,cursor⟩ := held
    subst kept
    exact wpCheckLine mem _ (i+1) st (comparedComparing v)
  · intro st c
    refine wpRelease ?_ (wpRelease ?_ (wpRelease ?_ (wpRelease ?_ (wpRelease ?_ (wpRelease ?_ ?_)))))
    · simp [compared]
    · simp [compared]
    · simp [compared]
    · simp [compared]
    · simp [compared]
    · simp [compared]
    · rw [Watch.wpPure]
      exact comparedClosed v

theorem wpMain (v : Version) (fuel : Nat) (mem : Memory) (img1 hiddenText : Bytes) (c : Nat) :
    resources.wp (mainSteps v fuel mem img1 hiddenText) (fun _ held => held.held = leftBehind v) ⟨∅,c⟩ := by
  unfold mainSteps
  refine wpStage (leftBehind v) (wpEncrypt v fuel mem img1 hiddenText c) ?_
  intro img2 c
  refine wpStage (leftBehind v) (wpDecrypt v mem img1 img2 c) ?_
  intro hiddenText2 c
  exact (Watch.wpPure _ _).mpr rfl

theorem nothingUsedUnheld (v : Version) (fuel : Nat) (mem : Memory) (img1 hiddenText : Bytes) :
    erase Step.event (mainSteps v fuel mem img1 hiddenText) = main v fuel mem img1 hiddenText ∧
      resources.Accepts ⟨∅,0⟩ (mainSteps v fuel mem img1 hiddenText).log := by
  refine ⟨eraseMain v fuel mem img1 hiddenText,?_⟩
  have whole := wpMain v fuel mem img1 hiddenText 0
  generalize mainSteps v fuel mem img1 hiddenText = x at whole ⊢
  exact Watch.wpAccepts whole

theorem heldAtTheEnd {v fuel mem img1 hiddenText out}
    (returned : (main v fuel mem img1 hiddenText).result = some out) :
    (resources.after ⟨∅,0⟩ (mainSteps v fuel mem img1 hiddenText).log).held = leftBehind v := by
  have whole := wpMain v fuel mem img1 hiddenText 0
  rw [← eraseMain] at returned
  generalize mainSteps v fuel mem img1 hiddenText = x at whole returned ⊢
  exact Watch.wpReturns whole returned

theorem smallRuns (v : Version) : (main v 4 (constantMemory 0 0) (smallHeader 1 1 ++ [1,2,3,0])
    (smallHeader 1 1 ++ [7,7,7,7])).result =
      some (smallHeader 1 1 ++ [101,102,103,100],smallHeader 1 1 ++ [0,0,0,255]) := by
  cases v <;> rfl

theorem heldAtTheEndSmall :
    (resources.after ⟨∅,0⟩ (mainSteps .original 4 (constantMemory 0 0) (smallHeader 1 1 ++ [1,2,3,0])
      (smallHeader 1 1 ++ [7,7,7,7])).log).held = {.pBuffer} ∧
    (resources.after ⟨∅,0⟩ (mainSteps .corrected 4 (constantMemory 0 0) (smallHeader 1 1 ++ [1,2,3,0])
      (smallHeader 1 1 ++ [7,7,7,7])).log).held = ∅ :=
  ⟨heldAtTheEnd (smallRuns .original),heldAtTheEnd (smallRuns .corrected)⟩

end SesLabs.BitmapResources
