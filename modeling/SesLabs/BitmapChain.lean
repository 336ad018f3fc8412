import SesLabs.BitmapRecovery

/-! Several pictures hidden in one cover, one call of steganographyEncrypt after
the other. What a byte is in the end depends only on how often its pixel was
marked: the order of the calls does not matter, and what steganographyDecrypt
shows against the first cover can be said from the counts. DELTA is added below
DELTA and taken away above, so a second mark takes the first one back unless the
value was 200 or more. -/
namespace SesLabs.BitmapChain
open RowBuffer BitmapFormat BitmapProgram BitmapEncrypt BitmapDecrypt BitmapPicture BitmapOutputs
  BitmapRecovery MarkSet

structure Job where
  mem : Memory
  hidden : Bytes

def HidesAll (v : Version) : Bytes → List Job → Bytes → Prop
  | cover, [], out => out = cover
  | cover, job::jobs, out => ∃ mid, Encrypts v job.mem cover job.hidden mid ∧ HidesAll v mid jobs out

def marksPixel (v : Version) (cover : Bytes) (r c : Nat) (job : Job) : Bool :=
  decide (Marked v job.mem (dims job.mem cover job.hidden) job.hidden r c)

def markCount (v : Version) (cover : Bytes) (jobs : List Job) (r c : Nat) : Nat :=
  jobs.countP (marksPixel v cover r c)

def cell (f : Bytes) (r k : Nat) : UInt8 := ((f.drop pixelData)[r*stride (widthOf f)+k]?).getD 0

def chainFile (v : Version) (cover : Bytes) (jobs : List Job) : Bytes :=
  cover.take 54 ++ grid (heightOf cover) (stride (widthOf cover))
    (fun r k => shift^[markCount v cover jobs r (k/3)] (cell cover r k))

section Step
variable {v : Version} {mem : Memory} {cover hidden mid : Bytes} (complete : 54 ≤ cover.length)
  (ran : Encrypts v mem cover hidden mid)
include complete ran

theorem stepComplete : 54 ≤ mid.length := by
  obtain ⟨_,written⟩ := encryptsIff.mp ran
  rw [written,stegoLength v mem complete]
  omega

theorem stepStart : mid.take 54 = cover.take 54 := by
  obtain ⟨_,written⟩ := encryptsIff.mp ran
  rw [written]
  exact (stegoShape v mem complete hidden).1

theorem stepWidth : widthOf mid = widthOf cover := wordOfPrefix (stepStart complete ran) (by omega)
theorem stepHeight : heightOf mid = heightOf cover := wordOfPrefix (stepStart complete ran) (by omega)

theorem stepDims (mem' : Memory) (hidden' : Bytes) : dims mem' mid hidden' = dims mem' cover hidden' := by
  have width : (dims mem' mid hidden').width = (dims mem' cover hidden').width := by
    rw [dimsWidth mem' (stepComplete complete ran),dimsWidth mem' complete,stepWidth complete ran]
  have height : (dims mem' mid hidden').height = (dims mem' cover hidden').height := by
    rw [dimsHeight mem' (stepComplete complete ran),dimsHeight mem' complete,stepHeight complete ran]
  exact congrArg₂ (fun w h => Dims.mk w h (dims mem' mid hidden').hiddenWidth (dims mem' mid hidden').hiddenHeight)
    width height

theorem stepCount (jobs : List Job) (r c : Nat) : markCount v mid jobs r c = markCount v cover jobs r c := by
  refine List.countP_congr (fun job _ => ?_)
  rw [marksPixel,marksPixel,stepDims complete ran]

theorem stepCell {r k : Nat} (row : r < heightOf cover) (column : k < stride (widthOf cover)) :
    cell mid r k = shift^[markCount v cover [⟨mem,hidden⟩] r (k/3)] (cell cover r k) := by
  have written := (encryptsIff.mp ran).2
  obtain ⟨_,width,height,laid⟩ := stegoShape v mem complete hidden
  have here := laid r (by rw [height]; exact row) k (by rw [width]; exact column)
  rw [← written,stepWidth complete ran] at here
  rw [cell,rowByte,stepWidth complete ran,here,Option.getD_some,stegoByte,coverByte,dimsWidth mem complete,cell]
  by_cases hit : Marked v mem (dims mem cover hidden) hidden r (k/3)
  · simp [markCount,marksPixel,hit]
  · simp [markCount,marksPixel,hit]

end Step

theorem countCons (v : Version) (cover : Bytes) (job : Job) (jobs : List Job) (r c : Nat) :
    markCount v cover (job::jobs) r c = markCount v cover jobs r c + markCount v cover [job] r c := by
  rw [markCount,markCount,markCount,← List.singleton_append,List.countP_append,Nat.add_comm]

theorem chainLength (v : Version) {cover : Bytes} (complete : 54 ≤ cover.length) (jobs : List Job) :
    (chainFile v cover jobs).length = 54 + heightOf cover*stride (widthOf cover) := by
  rw [chainFile,List.length_append,List.length_take,gridLength,Nat.min_eq_left complete]

theorem stegoChain (v : Version) (mem : Memory) {cover : Bytes} (hidden : Bytes) (complete : 54 ≤ cover.length) :
    stegoFile v mem cover hidden = chainFile v cover [⟨mem,hidden⟩] := by
  rw [stegoSplit v mem complete,chainFile]
  refine congrArg (cover.take 54 ++ ·) (gridCongr (fun r _ k _ => ?_))
  rw [stegoByte,coverByte,dimsWidth mem complete,cell]
  by_cases hit : Marked v mem (dims mem cover hidden) hidden r (k/3)
  · simp [markCount,marksPixel,hit]
  · simp [markCount,marksPixel,hit]

theorem chainStep {v : Version} {mem : Memory} {cover hidden mid : Bytes} (complete : 54 ≤ cover.length)
    (ran : Encrypts v mem cover hidden mid) (jobs : List Job) :
    chainFile v mid jobs = chainFile v cover (⟨mem,hidden⟩::jobs) := by
  rw [chainFile,chainFile,stepStart complete ran,stepWidth complete ran,stepHeight complete ran]
  refine congrArg (cover.take 54 ++ ·) (gridCongr (fun r row k column => ?_))
  rw [stepCount complete ran,stepCell complete ran row column,countCons v cover _ jobs,Function.iterate_add_apply]

/- The closed form of a chain of calls; one call writes its rows as a grid, and
every further call adds one to the counts of the pixels it marks. -/
theorem hidesAllIff {v : Version} {cover out : Bytes} (complete : 54 ≤ cover.length) (job : Job) (jobs : List Job) :
    HidesAll v cover (job::jobs) out ↔
      (∀ j ∈ job::jobs, Leaves v (dims j.mem cover j.hidden)) ∧ out = chainFile v cover (job::jobs) := by
  induction jobs generalizing cover job with
  | nil =>
    obtain ⟨mem,hidden⟩ := job
    simp only [HidesAll,List.mem_singleton,forall_eq,encryptsIff,← stegoChain v mem hidden complete]
    refine ⟨?_,?_⟩
    · intro ran
      obtain ⟨mid,⟨leaves,written⟩,last⟩ := ran
      exact ⟨leaves,last.trans written⟩
    · intro ran
      exact ⟨out,ran,rfl⟩
  | cons next jobs ih =>
    obtain ⟨mem,hidden⟩ := job
    rw [HidesAll,List.forall_mem_cons]
    refine ⟨?_,?_⟩
    · intro ran
      obtain ⟨mid,first,rest⟩ := ran
      obtain ⟨leaves,last⟩ := (ih (stepComplete complete first) next).mp rest
      refine ⟨⟨(encryptsIff.mp first).1,fun j member => ?_⟩,last.trans (chainStep complete first _)⟩
      have here := leaves j member
      rwa [stepDims complete first] at here
    · intro ran
      obtain ⟨⟨first,leaves⟩,last⟩ := ran
      have wrote : Encrypts v mem cover hidden (stegoFile v mem cover hidden) := encryptsIff.mpr ⟨first,rfl⟩
      refine ⟨_,wrote,(ih (stepComplete complete wrote) next).mpr ⟨fun j member => ?_,?_⟩⟩
      · rw [stepDims complete wrote]
        exact leaves j member
      · rw [chainStep complete wrote]
        exact last

theorem orderIrrelevant {v : Version} {cover out : Bytes} (complete : 54 ≤ cover.length) {jobs jobs' : List Job}
    (same : jobs.Perm jobs') (ran : HidesAll v cover jobs out) : HidesAll v cover jobs' out := by
  cases jobs with
  | nil =>
    rw [same.symm.eq_nil]
    exact ran
  | cons job rest =>
    cases jobs' with
    | nil => exact absurd same.eq_nil (List.cons_ne_nil job rest)
    | cons job' rest' =>
      obtain ⟨leaves,last⟩ := (hidesAllIff complete job rest).mp ran
      refine (hidesAllIff complete job' rest').mpr ⟨fun j member => leaves j (same.mem_iff.mpr member),?_⟩
      have counts (r c : Nat) : markCount v cover (job::rest) r c = markCount v cover (job'::rest') r c :=
        same.countP_eq _
      rw [last,chainFile,chainFile]
      exact congrArg (cover.take 54 ++ ·) (gridCongr (fun r _ k _ => by rw [counts]))

def twoJobs : List Job :=
  [⟨constantMemory 0 255,smallHeader 2 1 ++ [7,7,7,7,7,7,255,255]⟩,
    ⟨constantMemory 0 255,smallHeader 2 1 ++ [255,255,255,7,7,7,255,255]⟩]

theorem twoJobsRun : HidesAll .corrected (smallHeader 2 1 ++ [1,2,3,4,5,210,0,0]) twoJobs
    (smallHeader 2 1 ++ [101,102,103,4,5,10,0,0]) :=
  ⟨smallHeader 2 1 ++ [101,102,103,104,105,110,0,0],⟨4,by rfl⟩,_,⟨4,by rfl⟩,rfl⟩

theorem orderIrrelevantSmall : HidesAll .corrected (smallHeader 2 1 ++ [1,2,3,4,5,210,0,0]) twoJobs.reverse
    (smallHeader 2 1 ++ [101,102,103,4,5,10,0,0]) :=
  orderIrrelevant (by decide) (List.reverse_perm twoJobs).symm twoJobsRun

/- A value below 200 comes back with every second mark; from 200 on it goes down
to v-100 and then changes between v-100 and v-200. -/
theorem shiftTwice {v : UInt8} (low : v.toNat < 200) : shift (shift v) = v := by
  have first := shiftNat v
  have second := shiftNat (shift v)
  apply UInt8.toNat_inj.mp
  rw [second,first]
  split <;> split <;> omega

theorem shiftEven {v : UInt8} (low : v.toNat < 200) (n : Nat) : shift^[2*n] v = v := by
  induction n with
  | zero => rfl
  | succ n ih =>
    rw [Nat.mul_succ,Function.iterate_add_apply]
    exact (congrArg (shift^[2*n]) (shiftTwice low)).trans ih

theorem shiftHigh {v : UInt8} (high : 200 ≤ v.toNat) (n : Nat) : (shift^[n+1] v).toNat < 200 := by
  have bound := v.toNat_lt
  induction n with
  | zero =>
    have value := shiftNat v
    simp only [Function.iterate_one,Nat.zero_add]
    split at value <;> omega
  | succ n ih =>
    rw [Function.iterate_succ_apply']
    have value := shiftNat (shift^[n+1] v)
    split at value <;> omega

theorem shiftedIff (v : UInt8) (n : Nat) : shift^[n] v = v ↔ (v.toNat < 200 ∧ n%2 = 0) ∨ n = 0 := by
  rcases Nat.lt_or_ge v.toNat 200 with low | high
  · rcases Nat.mod_two_eq_zero_or_one n with even | odd
    · obtain ⟨k,rfl⟩ : ∃ k, n = 2*k := ⟨n/2,by omega⟩
      simp [shiftEven low,low]
    · obtain ⟨k,rfl⟩ : ∃ k, n = 2*k+1 := ⟨n/2,by omega⟩
      rw [Function.iterate_succ_apply',shiftEven low]
      have moves := shiftMoves v
      simp [moves]
  · cases n with
    | zero => simp
    | succ n =>
      have value := shiftHigh high n
      have moved : shift^[n+1] v ≠ v := by
        intro same
        rw [same] at value
        omega
      have above : ¬ v.toNat < 200 := Nat.not_lt.mpr high
      exact iff_of_false moved (by simp [above])

theorem chainLaid {v : Version} {cover out : Bytes} {jobs : List Job} (full : FullLength cover)
    (ran : HidesAll v cover jobs out) :
    54 ≤ out.length ∧ widthOf out = widthOf cover ∧ heightOf out = heightOf cover ∧
      Laid out (fun r k => shift^[markCount v cover jobs r (k/3)] (cell cover r k)) := by
  have complete := fullComplete full
  cases jobs with
  | nil =>
    have same : out = cover := ran
    rw [same]
    exact ⟨complete,rfl,rfl,laidFull full⟩
  | cons job jobs =>
    have written := ((hidesAllIff complete job jobs).mp ran).2
    obtain ⟨_,width,height,laid⟩ := laidGrid rfl complete written
    refine ⟨?_,width,height,laid⟩
    rw [written,chainLength v complete]
    omega

theorem chainShown {v cover jobs out mem text} (full : FullLength cover) (ran : HidesAll v cover jobs out)
    (decoded : Decrypts mem cover out text) {r c : Nat} (row : r < heightOf cover) (column : c < widthOf cover) :
    ∃ p, pixelAt cover r c = some p ∧ pixelAt text r c = some
      (if (p.red.toNat < 200 ∧ markCount v cover jobs r c%2 = 0) ∨ markCount v cover jobs r c = 0
        then RGB.white else RGB.black) := by
  have complete := fullComplete full
  obtain ⟨completeOut,width,height,laid⟩ := chainLaid full ran
  have original := oriPicture (laidFull full) complete mem out row column
  have received := modifiedPicture laid completeOut mem cover (by rw [height]; exact row)
    (by rw [width]; exact column)
  have index : (3*c+2)/3 = c := by omega
  refine ⟨_,laidPixel (laidFull full) row column,?_⟩
  rw [decryptsIff.mp decoded,textPixel .red mem complete out row column]
  refine congrArg some ?_
  have test : (r,c) ∈ detect (fun p : RGB => p.get .red) (picture (oriLine mem (sides mem cover out)))
      (picture (modifiedLine mem (sides mem cover out))) ↔
      ¬ ((((picture (cell cover) (r,c)).red.toNat < 200 ∧ markCount v cover jobs r c%2 = 0) ∨
        markCount v cover jobs r c = 0)) := by
    rw [detectCongr original received,← shiftedIff]
    simp only [detect,Set.mem_ofPred_eq,picture,RGB.get,index]
    exact not_congr eq_comm
  by_cases quiet : ((picture (cell cover) (r,c)).red.toNat < 200 ∧ markCount v cover jobs r c%2 = 0) ∨
      markCount v cover jobs r c = 0
  · rw [revealPaper (fun h => test.mp h quiet)]
    exact (if_pos quiet).symm
  · rw [(revealInk (by decide)).mpr (test.mpr quiet)]
    exact (if_neg quiet).symm

theorem chainShownSmall :
    ∃ p, pixelAt (smallHeader 2 1 ++ [1,2,3,4,5,210,0,0]) 0 1 = some p ∧
      pixelAt (smallHeader 2 1 ++ [0,0,0,0,0,0,255,255]) 0 1 = some
        (if (p.red.toNat < 200 ∧ markCount .corrected (smallHeader 2 1 ++ [1,2,3,4,5,210,0,0]) twoJobs 0 1%2 = 0) ∨
            markCount .corrected (smallHeader 2 1 ++ [1,2,3,4,5,210,0,0]) twoJobs 0 1 = 0
          then RGB.white else RGB.black) :=
  @chainShown .corrected _ twoJobs _ (constantMemory 0 0) _ (by decide) twoJobsRun (by unfold Decrypts; rfl) 0 1
    (by decide) (by decide)

end SesLabs.BitmapChain
