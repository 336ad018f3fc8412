import Mathlib.Data.List.Basic
import Mathlib.Logic.Function.Basic
import SesLabs.Fallible
import SesLabs.SshBuf

/-! The KEXINIT message of kex.c: a cookie, ten lists of names, a flag and a reserved
word. kex_prop2buf writes it, kex_buf2prop reads it back. -/
namespace SesLabs.SshKexinit
open SshBuf Fallible

/- PROPOSAL_KEX_ALGS to PROPOSAL_LANG_STOC. -/
inductive Slot where
  | kexAlgs
  | serverHostKeyAlgs
  | encAlgsCtos
  | encAlgsStoc
  | macAlgsCtos
  | macAlgsStoc
  | compAlgsCtos
  | compAlgsStoc
  | langCtos
  | langStoc
  deriving DecidableEq, Repr

def slots : List Slot :=
  [.kexAlgs,.serverHostKeyAlgs,.encAlgsCtos,.encAlgsStoc,.macAlgsCtos,.macAlgsStoc,.compAlgsCtos,.compAlgsStoc,
    .langCtos,.langStoc]

abbrev Proposal := Slot → Bytes

/- KEX_COOKIE_LEN. -/
def cookieLen : Nat := 16

/- strlen stops at the first NUL. -/
def sshbufPutCstring (buf : Sshbuf) (v : Bytes) : Except BufError Sshbuf := sshbufPutString buf (v.takeWhile (· ≠ 0))

def kexProp2buf (b : Sshbuf) (proposal : Proposal) : Except BufError Sshbuf := do
  let b ← sshbufReset b
  let b ← (List.replicate cookieLen 0).foldlM sshbufPutU8 b
  let b ← slots.foldlM (fun b i => sshbufPutCstring b (proposal i)) b
  let b ← sshbufPutU8 b 0
  sshbufPutU32 b 0

def readProposal : List Slot → Proposal → Sshbuf → Except BufError (Proposal × Sshbuf)
  | [],proposal,b => .ok (proposal,b)
  | i::more,proposal,b => do
    let (name,b) ← sshbufGetCstring b
    readProposal more (Function.update proposal i name) b

def kexBuf2prop (raw : Sshbuf) : Except BufError (UInt8 × Proposal) := do
  match ← sshbufFromb raw with
  | none => .error .allocFail
  | some b =>
    let b ← sshbufConsume b cookieLen
    let (proposal,b) ← readProposal slots (fun _ => []) b
    let (v,b) ← sshbufGetU8 b
    let _ ← sshbufGetU32 b
    return (v,proposal)

def strings (list : List Slot) (proposal : Proposal) : Bytes := list.flatMap (fun i => stringBytes (proposal i))

def kexinit (cookie : Bytes) (proposal : Proposal) : Bytes := cookie ++ (strings slots proposal ++ [0,0,0,0,0])

def Text (proposal : Proposal) : Prop := ∀ i, 0 ∉ proposal i

section Write
variable {limit : Nat} {b : Sshbuf}

structure Ready (limit : Nat) (b : Sshbuf) : Prop where
  sane : b.Sane
  free : b.fixed = false
  limit : b.maxSize = limit

theorem newReady : Ready sizeMax sshbufNew := ⟨newSane,rfl,rfl⟩

theorem Ready.limited (ready : Ready limit b) : limit ≤ sizeMax := ready.limit ▸ ready.sane.limited

theorem Ready.put (ready : Ready limit b) {v : Bytes} (fits : b.content.length+v.length ≤ limit) :
    ∃ now, sshbufPut b v = .ok now ∧ Ready limit now ∧ now.content = b.content ++ v := by
  obtain ⟨now,done,sane,free,limit,content⟩ := (putSpec ready.sane ready.free v).1 (ready.limit ▸ fits)
  exact ⟨now,done,⟨sane,free,limit.trans ready.limit⟩,content⟩

theorem Ready.zeros (ready : Ready limit b) (count : Nat) (fits : b.content.length+count ≤ limit) :
    ∃ now, (List.replicate count 0).foldlM sshbufPutU8 b = .ok now ∧ Ready limit now ∧
      now.content = b.content ++ List.replicate count 0 := by
  induction count generalizing b with
  | zero => exact ⟨b,rfl,ready,(List.append_nil _).symm⟩
  | succ count ih =>
    obtain ⟨next,done,again,content⟩ := ready.put (v := [0]) (by simp only [List.length_singleton]; omega)
    obtain ⟨now,rest,last,whole⟩ := ih again (by rw [content,List.length_append,List.length_singleton]; omega)
    refine ⟨now,?_,last,?_⟩
    · rw [List.replicate_succ,List.foldlM_cons,sshbufPutU8,done]
      exact rest
    · rw [whole,content,List.append_assoc]
      rfl

theorem Ready.strings (ready : Ready limit b) {proposal : Proposal} (text : Text proposal) (list : List Slot)
    (fits : b.content.length+(strings list proposal).length ≤ limit) :
    ∃ now, list.foldlM (fun b i => sshbufPutCstring b (proposal i)) b = .ok now ∧ Ready limit now ∧
      now.content = b.content ++ strings list proposal := by
  have limited := ready.limited
  induction list generalizing b with
  | nil => exact ⟨b,rfl,ready,(List.append_nil _).symm⟩
  | cons i more ih =>
    have cstring : (proposal i).takeWhile (· ≠ 0) = proposal i := (takeText (text i) []).2
    rw [SshKexinit.strings,List.flatMap_cons,List.length_append] at fits
    have length := stringLength (proposal i)
    obtain ⟨next,done,again,content⟩ := ready.put (v := stringBytes (proposal i)) (by omega)
    have room : next.content.length+(SshKexinit.strings more proposal).length ≤ limit := by
      rw [content,List.length_append,SshKexinit.strings]
      omega
    obtain ⟨now,rest,last,whole⟩ := ih again room
    refine ⟨now,?_,last,?_⟩
    · rw [List.foldlM_cons,sshbufPutCstring,cstring,putStringEq,if_neg (by omega),done]
      exact rest
    · rw [whole,content,List.append_assoc,SshKexinit.strings,SshKexinit.strings,List.flatMap_cons]

theorem Ready.reset (ready : Ready limit b) (room : sizeInit ≤ limit) :
    ∃ now, sshbufReset b = .ok now ∧ Ready limit now ∧ now.content = [] := by
  obtain ⟨now,done,free,same,empty,sane⟩ := resetSpec ready.sane ready.free
  exact ⟨now,done,⟨sane.mpr (by rw [ready.limit]; exact room),free,same.trans ready.limit⟩,empty⟩

theorem kexProp2bufContent (ready : Ready limit b) (room : sizeInit ≤ limit) {proposal : Proposal}
    (text : Text proposal) (fits : (kexinit (List.replicate cookieLen 0) proposal).length ≤ limit) :
    ∃ now, kexProp2buf b proposal = .ok now ∧ Ready limit now ∧
      now.content = kexinit (List.replicate cookieLen 0) proposal := by
  obtain ⟨cleared,resets,start,empty⟩ := ready.reset room
  rw [kexinit,List.length_append,List.length_append,List.length_replicate] at fits
  simp only [List.length_cons,List.length_nil] at fits
  obtain ⟨first,cookie,firstReady,firstContent⟩ := start.zeros cookieLen (by rw [empty,List.length_nil]; omega)
  have firstLength : first.content.length = cookieLen := by rw [firstContent,empty]; simp
  obtain ⟨second,names,secondReady,secondContent⟩ := firstReady.strings text slots (by omega)
  have secondLength : second.content.length = cookieLen+(strings slots proposal).length := by
    rw [secondContent,List.length_append,firstLength]
  obtain ⟨third,flag,thirdReady,thirdContent⟩ := secondReady.put (v := [0])
    (by simp only [List.length_singleton]; omega)
  obtain ⟨fourth,reserved,fourthReady,fourthContent⟩ := thirdReady.put (v := u32Bytes 0)
    (by rw [thirdContent,List.length_append,secondLength]; simp only [u32Bytes,List.length_cons,List.length_nil]; omega)
  refine ⟨fourth,?_,fourthReady,?_⟩
  · rw [kexProp2buf,resets]
    simp only [bind,Except.bind,cookie,names,sshbufPutU8,flag,sshbufPutU32,reserved]
  · rw [fourthContent,thirdContent,secondContent,firstContent,empty,kexinit]
    simp [u32Bytes]

theorem Ready.wrote (ready : Ready limit b) {v : Bytes} {now : Sshbuf} (done : sshbufPut b v = .ok now) :
    Ready limit now ∧ now.content = b.content ++ v := by
  by_cases fits : b.content.length+v.length ≤ limit
  · obtain ⟨same,put,rest⟩ := ready.put fits
    cases Except.ok.inj (put.symm.trans done)
    exact rest
  · rw [(putSpec ready.sane ready.free v).2 (ready.limit ▸ Nat.not_le.mp fits)] at done
    cases done

theorem Ready.wroteZeros (ready : Ready limit b) {count : Nat} {now : Sshbuf}
    (done : (List.replicate count 0).foldlM sshbufPutU8 b = .ok now) :
    Ready limit now ∧ now.content = b.content ++ List.replicate count 0 := by
  induction count generalizing b with
  | zero =>
    cases done
    exact ⟨ready,(List.append_nil _).symm⟩
  | succ count ih =>
    rw [List.replicate_succ,List.foldlM_cons] at done
    obtain ⟨next,first,rest⟩ := bindOk done
    obtain ⟨again,content⟩ := ready.wrote first
    obtain ⟨last,whole⟩ := ih again rest
    exact ⟨last,by rw [whole,content,List.append_assoc]; rfl⟩

theorem Ready.wroteStrings (ready : Ready limit b) {proposal : Proposal} (text : Text proposal) {list : List Slot}
    {now : Sshbuf} (done : list.foldlM (fun b i => sshbufPutCstring b (proposal i)) b = .ok now) :
    Ready limit now ∧ now.content = b.content ++ SshKexinit.strings list proposal := by
  induction list generalizing b with
  | nil =>
    cases done
    exact ⟨ready,(List.append_nil _).symm⟩
  | cons i more ih =>
    have cstring : (proposal i).takeWhile (· ≠ 0) = proposal i := (takeText (text i) []).2
    rw [List.foldlM_cons] at done
    obtain ⟨next,first,rest⟩ := bindOk done
    rw [sshbufPutCstring,cstring,putStringEq] at first
    split at first
    · cases first
    · obtain ⟨again,content⟩ := ready.wrote first
      obtain ⟨last,whole⟩ := ih again rest
      refine ⟨last,?_⟩
      rw [whole,content,List.append_assoc,SshKexinit.strings,SshKexinit.strings,List.flatMap_cons]

theorem kexProp2bufRoom (ready : Ready limit b) {proposal : Proposal} {now : Sshbuf}
    (done : kexProp2buf b proposal = .ok now) : sizeInit ≤ limit := by
  obtain ⟨cleared,resets,_,same,_,sane⟩ := resetSpec ready.sane ready.free
  rw [ready.limit,← saneIff] at sane
  by_contra small
  have broken : cleared.checkSanity = false := Bool.eq_false_iff.mpr (fun still => small (sane.mp still))
  have dead (v : UInt8) : sshbufPutU8 cleared v = .error .killed := by
    rw [sshbufPutU8,sshbufPut,sshbufReserve,sshbufAllocate,sshbufCheckReserve,if_pos broken]
    rfl
  rw [kexProp2buf,resets,cookieLen,List.replicate_succ] at done
  simp only [bind,Except.bind,List.foldlM_cons,dead] at done
  cases done

theorem kexProp2bufWrote (ready : Ready limit b) {proposal : Proposal} (text : Text proposal) {now : Sshbuf}
    (done : kexProp2buf b proposal = .ok now) :
    Ready limit now ∧ now.content = kexinit (List.replicate cookieLen 0) proposal := by
  obtain ⟨cleared,resets,start,empty⟩ := ready.reset (kexProp2bufRoom ready done)
  rw [kexProp2buf,resets] at done
  obtain ⟨_,same,done⟩ := bindOk done
  cases same
  obtain ⟨first,cookie,done⟩ := bindOk done
  obtain ⟨second,names,done⟩ := bindOk done
  obtain ⟨third,flag,reserved⟩ := bindOk done
  obtain ⟨firstReady,firstContent⟩ := start.wroteZeros cookie
  obtain ⟨secondReady,secondContent⟩ := firstReady.wroteStrings text names
  obtain ⟨thirdReady,thirdContent⟩ := secondReady.wrote flag
  obtain ⟨fourthReady,fourthContent⟩ := thirdReady.wrote reserved
  refine ⟨fourthReady,?_⟩
  rw [fourthContent,thirdContent,secondContent,firstContent,empty,kexinit]
  simp [u32Bytes]

end Write

section Read

theorem readSound {list : List Slot} {start found : Proposal} {b now : Sshbuf} (sane : b.Sane) (once : list.Nodup)
    (done : readProposal list start b = .ok (found,now)) :
    now.Sane ∧ (∀ i ∉ list, found i = start i) ∧
    ∃ sent, b.content = strings list sent ++ now.content ∧ ∀ i ∈ list, Sent (sent i) (found i) := by
  induction list generalizing start b with
  | nil =>
    cases done
    exact ⟨sane,fun _ _ => rfl,fun _ => [],rfl,by simp⟩
  | cons i more ih =>
    rw [List.nodup_cons] at once
    rw [readProposal] at done
    have fetches := getCstringFetches sane
    cases cut : cutCstring b.content with
    | error e =>
      rw [cut,Fetches] at fetches
      rw [fetches] at done
      cases done
    | ok parts =>
      obtain ⟨name,rest⟩ := parts
      rw [cut] at fetches
      obtain ⟨next,got,nextSane,_,_,content⟩ := fetches
      obtain ⟨p,whole,field⟩ := cutCstringIff.mp cut
      rw [got] at done
      obtain ⟨last,same,sent,split,fields⟩ := ih nextSane once.2 done
      refine ⟨last,?_,Function.update sent i p,?_,?_⟩
      · intro j absent
        rw [List.mem_cons,not_or] at absent
        rw [same j absent.2,Function.update_of_ne absent.1]
      · have others : strings more (Function.update sent i p) = strings more sent := by
          refine List.flatMap_congr ?_
          intro j member
          have other : j ≠ i := fun equal => once.1 (equal ▸ member)
          rw [Function.update_of_ne other]
        have first : strings (i::more) (Function.update sent i p) = stringBytes p ++ strings more sent := by
          rw [strings,List.flatMap_cons,Function.update_self,← strings,others]
        rw [whole,← content,split,first,List.append_assoc]
      · intro j member
        rcases List.mem_cons.mp member with here | later
        · subst j
          rw [Function.update_self,same i once.1,Function.update_self]
          exact field
        · have other : j ≠ i := fun equal => once.1 (equal ▸ later)
          rw [Function.update_of_ne other]
          exact fields j later

theorem readComplete {list : List Slot} {start sent text : Proposal} {b : Sshbuf} {rest : Bytes} (sane : b.Sane)
    (content : b.content = strings list sent ++ rest) (fields : ∀ i ∈ list, Sent (sent i) (text i)) :
    ∃ now, readProposal list start b = .ok (fun i => if i ∈ list then text i else start i,now) ∧ now.Sane ∧
      now.content = rest := by
  induction list generalizing start b with
  | nil => exact ⟨b,by simp [readProposal],sane,content⟩
  | cons i more ih =>
    have fetches := getCstringFetches sane
    rw [strings,List.flatMap_cons,List.append_assoc] at content
    rw [cutCstringIff.mpr ⟨sent i,content,fields i List.mem_cons_self⟩] at fetches
    obtain ⟨next,got,nextSane,_,_,left⟩ := fetches
    have later := fun j member => fields j (List.mem_cons_of_mem _ member)
    obtain ⟨now,done,last⟩ := @ih (Function.update start i (text i)) next nextSane left later
    have same : (fun j => if j ∈ more then text j else Function.update start i (text i) j) =
        fun j => if j ∈ i::more then text j else start j := by
      funext j
      by_cases here : j = i
      · subst j
        simp
      · simp [here]
    refine ⟨now,?_,last⟩
    rw [readProposal,got,← same]
    exact done

theorem frombContent {raw : Sshbuf} (sane : raw.Sane) :
    ∃ b, sshbufFromb raw = .ok (some b) ∧ b.Sane ∧ b.content = raw.content := by
  have length := contentLength sane
  have inside := sane.inside
  have allocated := sane.allocated
  have limited := sane.limited
  have small : ¬sizeMax < raw.content.length := by omega
  refine ⟨_,by rw [sshbufFromb,saneIff.mpr sane,if_neg (by decide),sshbufFrom,if_neg small],?_,?_⟩
  · have one : 1 ≤ refsMax := by decide
    exact ⟨⟨Nat.le_refl 1,one⟩,Nat.not_lt.mp small,Nat.le_refl _,Nat.le_refl _,Nat.zero_le _⟩
  · rw [Sshbuf.content]
    simp

theorem getU8Cons {b : Sshbuf} (sane : b.Sane) {v : UInt8} {rest : Bytes} (content : b.content = v::rest) :
    ∃ now, sshbufGetU8 b = .ok (v,now) ∧ now.Sane ∧ now.content = rest := by
  have fetches := getFetches sane 1
  rw [content,Queue.cut,if_neg (by simp)] at fetches
  obtain ⟨now,got,nowSane,_,_,left⟩ := fetches
  refine ⟨now,?_,nowSane,left⟩
  rw [sshbufGetU8,got]
  rfl

theorem getU8Short {b : Sshbuf} (sane : b.Sane) (empty : b.content = []) :
    sshbufGetU8 b = .error .messageIncomplete := by
  have fetches := getFetches sane 1
  rw [empty,Queue.cut,if_pos (by decide)] at fetches
  rw [sshbufGetU8,fetches]
  rfl

theorem getU32Enough {b : Sshbuf} (sane : b.Sane) (enough : 4 ≤ b.content.length) :
    ∃ result, sshbufGetU32 b = .ok result := by
  have fetches := getFetches sane 4
  rw [Queue.cut,if_neg (Nat.not_lt.mpr enough)] at fetches
  obtain ⟨now,got,_⟩ := fetches
  rw [sshbufGetU32,got]
  exact ⟨_,rfl⟩

theorem getU32Short {b : Sshbuf} (sane : b.Sane) (short : b.content.length < 4) :
    sshbufGetU32 b = .error .messageIncomplete := by
  have fetches := getFetches sane 4
  rw [Queue.cut,if_pos short] at fetches
  rw [sshbufGetU32,fetches]
  rfl

theorem everySlot (i : Slot) : i ∈ slots := by
  cases i <;> decide

theorem slotSmall {proposal : Proposal} {list : List Slot} {i : Slot} (member : i ∈ list) :
    (proposal i).length+4 ≤ (strings list proposal).length := by
  induction list with
  | nil => cases member
  | cons j more ih =>
    rw [strings,List.flatMap_cons,List.length_append,← strings]
    rcases List.mem_cons.mp member with here | later
    · subst j
      rw [stringLength]
      exact Nat.le_add_right _ _
    · have := ih later
      omega

theorem kexBuf2propReads {raw : Sshbuf} (sane : raw.Sane) {v : UInt8} {sent text : Proposal}
    {cookie reserved trailing : Bytes} (sixteen : cookie.length = cookieLen) (four : reserved.length = 4)
    (whole : raw.content = cookie ++ (strings slots sent ++ v::(reserved ++ trailing)))
    (fields : ∀ i, Sent (sent i) (text i)) : kexBuf2prop raw = .ok (v,text) := by
  obtain ⟨b,made,bSane,content⟩ := frombContent sane
  have fits := (consumeSpec bSane cookieLen).1
  rw [content] at fits
  obtain ⟨next,consumed,nextSane,_,_,left⟩ := fits (by rw [whole,List.length_append]; omega)
  rw [whole,← sixteen,List.drop_left] at left
  obtain ⟨after,read,afterSane,tail⟩ := @readComplete slots (fun _ => []) sent text next _ nextSane left
    (fun i _ => fields i)
  have every : (fun i => if i ∈ slots then text i else []) = text := by
    funext i
    rw [if_pos (everySlot i)]
  rw [every] at read
  obtain ⟨last,got,lastSane,lastContent⟩ := getU8Cons afterSane tail
  obtain ⟨result,word⟩ := getU32Enough lastSane (by rw [lastContent,List.length_append]; omega)
  rw [kexBuf2prop,made]
  simp only [bind,Except.bind,consumed,read,got,word]
  rfl

theorem kexBuf2propIff {raw : Sshbuf} (sane : raw.Sane) {v : UInt8} {text : Proposal} :
    kexBuf2prop raw = .ok (v,text) ↔ ∃ cookie sent reserved trailing, cookie.length = cookieLen ∧
      reserved.length = 4 ∧ raw.content = cookie ++ (strings slots sent ++ v::(reserved ++ trailing)) ∧
      ∀ i, Sent (sent i) (text i) := by
  refine ⟨?_,?_⟩
  · intro done
    obtain ⟨b,made,bSane,content⟩ := frombContent sane
    obtain ⟨fits,short⟩ := consumeSpec bSane cookieLen
    rw [content] at fits short
    rw [kexBuf2prop,made] at done
    by_cases enough : cookieLen ≤ raw.content.length
    · obtain ⟨next,consumed,nextSane,_,_,left⟩ := fits enough
      simp only [bind,Except.bind,consumed] at done
      cases read : readProposal slots (fun _ => []) next with
      | error e =>
        rw [read] at done
        cases done
      | ok pair =>
        obtain ⟨found,after⟩ := pair
        obtain ⟨afterSane,_,sent,split,fields⟩ := readSound nextSane (by decide) read
        simp only [read] at done
        cases tail : after.content with
        | nil =>
          rw [getU8Short afterSane tail] at done
          cases done
        | cons w rest =>
          obtain ⟨last,got,lastSane,lastContent⟩ := getU8Cons afterSane tail
          simp only [got] at done
          by_cases four : 4 ≤ rest.length
          · obtain ⟨result,reserved⟩ := getU32Enough lastSane (lastContent ▸ four)
            rw [reserved] at done
            cases done
            refine ⟨raw.content.take cookieLen,sent,rest.take 4,rest.drop 4,?_,?_,?_,?_⟩
            · rw [List.length_take]
              exact Nat.min_eq_left enough
            · rw [List.length_take]
              exact Nat.min_eq_left four
            · rw [List.take_append_drop,← tail,← split,left,List.take_append_drop]
            · exact fun i => fields i (everySlot i)
          · rw [getU32Short lastSane (lastContent ▸ Nat.not_le.mp four)] at done
            cases done
    · simp only [bind,Except.bind,short (Nat.not_le.mp enough)] at done
      cases done
  · intro source
    obtain ⟨cookie,sent,reserved,trailing,sixteen,four,whole,fields⟩ := source
    exact kexBuf2propReads sane sixteen four whole fields

def oneName (name : Bytes) : Proposal
  | .kexAlgs => name
  | _ => []

def smallRaw : Sshbuf where
  d := List.replicate cookieLen 7 ++ (strings slots (oneName [0x6B,0]) ++ [1,0,0,0,0,9])
  off := 0
  size := 64
  maxSize := 64
  readonly := true
  refcount := 1

theorem kexBuf2propSmall : kexBuf2prop smallRaw = .ok (1,oneName [0x6B]) := by
  have sane : smallRaw.Sane := saneIff.mp (by decide)
  refine (kexBuf2propIff sane).mpr ⟨List.replicate cookieLen 7,oneName [0x6B,0],[0,0,0,0],[9],rfl,rfl,rfl,?_⟩
  intro i
  cases i with
  | kexAlgs => exact ⟨by decide,by decide,.inr rfl⟩
  | _ => exact ⟨by decide,by decide,.inl rfl⟩

theorem kexinitRead {raw : Sshbuf} (sane : raw.Sane) {cookie : Bytes} {proposal : Proposal}
    (sixteen : cookie.length = cookieLen) (text : Text proposal) (fits : (strings slots proposal).length ≤ sizeMax)
    (content : raw.content = kexinit cookie proposal) : kexBuf2prop raw = .ok (0,proposal) := by
  refine @kexBuf2propReads raw sane 0 proposal proposal _ [0,0,0,0] [] sixteen rfl content ?_
  intro i
  have slot : (proposal i).length+4 ≤ (strings slots proposal).length := slotSmall (everySlot i)
  exact ⟨by omega,text i,.inl rfl⟩

/- Resetting the buffer takes the memory of a new one, however small the message is. -/
theorem kexinitRoundTrip {b : Sshbuf} (sane : b.Sane) (free : b.fixed = false) {proposal : Proposal}
    (text : Text proposal) :
    (∀ now, kexProp2buf b proposal = .ok now → kexBuf2prop now = .ok (0,proposal)) ∧
    ((∃ now, kexProp2buf b proposal = .ok now) ↔
      sizeInit ≤ b.maxSize ∧ (kexinit (List.replicate cookieLen 0) proposal).length ≤ b.maxSize) := by
  have ready : Ready b.maxSize b := ⟨sane,free,rfl⟩
  have size {now : Sshbuf} (done : kexProp2buf b proposal = .ok now) :
      (kexinit (List.replicate cookieLen 0) proposal).length ≤ b.maxSize := by
    obtain ⟨nowReady,content⟩ := kexProp2bufWrote ready text done
    have length := contentLength nowReady.sane
    have inside := nowReady.sane.inside
    have allocated := nowReady.sane.allocated
    have limit := nowReady.limit
    rw [← content]
    omega
  refine ⟨?_,?_,?_⟩
  · intro now done
    obtain ⟨nowReady,content⟩ := kexProp2bufWrote ready text done
    have fits := size done
    have limited := sane.limited
    rw [kexinit,List.length_append,List.length_append] at fits
    exact kexinitRead nowReady.sane List.length_replicate text (by omega) content
  · intro done
    obtain ⟨now,done⟩ := done
    exact ⟨kexProp2bufRoom ready done,size done⟩
  · intro fits
    obtain ⟨room,fits⟩ := fits
    obtain ⟨now,done,_⟩ := kexProp2bufContent ready room text fits
    exact ⟨now,done⟩

theorem kexinitRoundTripSmall :
    ∃ now, kexProp2buf sshbufNew (oneName [0x6B]) = .ok now ∧ kexBuf2prop now = .ok (0,oneName [0x6B]) := by
  have text : Text (oneName [0x6B]) := by
    intro i
    cases i <;> decide
  obtain ⟨back,fits⟩ := kexinitRoundTrip newSane rfl text
  obtain ⟨now,done⟩ := fits.mpr (by decide)
  exact ⟨now,done,back now done⟩

end Read

end SesLabs.SshKexinit
