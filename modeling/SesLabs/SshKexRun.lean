import SesLabs.Duplex
import SesLabs.SshNegotiation

/-! The first key exchange as far as the choice of algorithms: kex_setup,
kex_send_kexinit and kex_input_kexinit of kex.c on both sides of a connection. A
side may start, or answer the other's message with its own. -/
namespace SesLabs.SshKexRun
open SshBuf SshKexinit SshNegotiation Duplex Fallible

/- KEX_INIT_SENT, both messages, and what the handler of KEXINIT came to; once it has
run it is taken out of the dispatch table. -/
structure Kex where
  sent : Bool
  my : Sshbuf
  peer : Sshbuf
  outcome : Option (Except Failure Conf)

def kexSendKexinit (kex : Kex) (cookie : Bytes) : Except Failure (Kex × List Bytes) :=
  if kex.sent then .ok (kex,[])
  else do
    let len ← (sshbufLen kex.my).mapError (fun e => ⟨.buffer e,none⟩)
    if len < cookieLen then .error ⟨.invalidFormat,none⟩
    else if kex.my.fixed then .error ⟨.internalError,none⟩
    else
      let my := { kex.my with d := poke kex.my.d kex.my.off cookie }
      .ok ({ kex with my, sent := true },[my.content])

def skipMany {α : Type} (get : Sshbuf → Except BufError (α × Sshbuf)) : Nat → Sshbuf → Except BufError Sshbuf
  | 0,b => .ok b
  | n+1,b => do
    let (_,b) ← get b
    skipMany get n b

def skipKexinit (packet : Sshbuf) : Except BufError Sshbuf := do
  let b ← skipMany sshbufGetU8 cookieLen packet
  let b ← skipMany sshbufGetStringDirect slots.length b
  let (_,b) ← sshbufGetU8 b
  let (_,b) ← sshbufGetU32 b
  return b

/- "discard packet": the message is walked through once, to its end. -/
def discardPacket (payload : Bytes) : Except Failure Unit := do
  let packet ← (sshbufPut sshbufNew payload).mapError (fun e => ⟨.buffer e,none⟩)
  let b ← (skipKexinit packet).mapError (fun e => ⟨.buffer e,none⟩)
  let len ← (sshbufLen b).mapError (fun e => ⟨.buffer e,none⟩)
  if 0 < len then .error ⟨.unexpectedTrailingData,none⟩ else .ok ()

def kexInputKexinit (t : Tables) (server : Bool) (kex : Kex) (payload cookie : Bytes) : Kex × List Bytes :=
  match sshbufPut kex.peer payload with
  | .error e => ({ kex with outcome := some (.error ⟨.buffer e,none⟩) },[])
  | .ok peer =>
    match discardPacket payload with
    | .error f => ({ kex with peer, outcome := some (.error f) },[])
    | .ok () =>
      match kexSendKexinit { kex with peer } cookie with
      | .error f => ({ kex with peer, outcome := some (.error f) },[])
      | .ok (kex,out) => ({ kex with outcome := some (kexChooseConf t server true kex.my kex.peer) },out)

inductive Acts (t : Tables) : Behaviour Kex Bytes where
  | setup {side kex next out} (cookie : Bytes) (random : cookie.length = cookieLen)
      (sends : kexSendKexinit kex cookie = .ok (next,out)) : Acts t side kex none next out
  | input {side kex m} (cookie : Bytes) (random : cookie.length = cookieLen) (handler : kex.outcome = none) :
      Acts t side kex (some m) (kexInputKexinit t (isServer side) kex m cookie).1
        (kexInputKexinit t (isServer side) kex m cookie).2
  | refused {side kex m} (handler : kex.outcome ≠ none) :
      Acts t side kex (some m) { kex with outcome := some (.error ⟨.disconnected,none⟩) } []

/- kex_ready. -/
def Begins (proposal : Proposal) (kex : Kex) : Prop :=
  kex.sent = false ∧ kexProp2buf sshbufNew proposal = .ok kex.my ∧ kex.peer = sshbufNew ∧ kex.outcome = none

structure Sendable (proposal : Proposal) : Prop where
  text : Text proposal
  fits : (kexinit (List.replicate cookieLen 0) proposal).length ≤ sizeMax

section Messages
variable {proposal : Proposal}

theorem kexinitLength (cookie : Bytes) (proposal : Proposal) :
    (kexinit cookie proposal).length = cookie.length+(strings slots proposal).length+5 := by
  rw [kexinit,List.length_append,List.length_append,Nat.add_assoc]
  rfl

theorem cookiePoked {my : Sshbuf} (ready : Ready sizeMax my) {cookie old : Bytes} (random : cookie.length = cookieLen)
    (length : old.length = cookieLen) (content : my.content = kexinit old proposal) :
    Ready sizeMax { my with d := poke my.d my.off cookie } ∧
      ({ my with d := poke my.d my.off cookie } : Sshbuf).content = kexinit cookie proposal := by
  have short : cookie.length ≤ my.content.length := by
    rw [content,kexinitLength]
    omega
  obtain ⟨sane,poked⟩ := pokedFront ready.sane short
  refine ⟨⟨sane,ready.free,ready.limit⟩,?_⟩
  rw [poked,content,random,← length,kexinit,List.drop_left,kexinit]

theorem skipBytes {b : Sshbuf} (sane : b.Sane) {front rest : Bytes} (content : b.content = front ++ rest) :
    ∃ now, skipMany sshbufGetU8 front.length b = .ok now ∧ now.Sane ∧ now.content = rest := by
  induction front generalizing b with
  | nil => exact ⟨b,rfl,sane,content⟩
  | cons v front ih =>
    obtain ⟨next,got,nextSane,left⟩ := getU8Cons sane content
    obtain ⟨now,done,last⟩ := ih nextSane left
    refine ⟨now,?_,last⟩
    rw [List.length_cons,skipMany,got]
    exact done

theorem skipStrings {b : Sshbuf} (sane : b.Sane) {list : List Slot} {rest : Bytes}
    (small : ∀ i ∈ list, (proposal i).length ≤ sizeMax-4) (content : b.content = strings list proposal ++ rest) :
    ∃ now, skipMany sshbufGetStringDirect list.length b = .ok now ∧ now.Sane ∧ now.content = rest := by
  induction list generalizing b with
  | nil => exact ⟨b,rfl,sane,content⟩
  | cons i more ih =>
    have fetches := getStringFetches sane
    rw [strings,List.flatMap_cons,List.append_assoc] at content
    rw [content,cutStringBytes (small i List.mem_cons_self)] at fetches
    obtain ⟨next,got,nextSane,_,_,left⟩ := fetches
    obtain ⟨now,done,last⟩ := ih nextSane (fun j member => small j (List.mem_cons_of_mem _ member)) left
    refine ⟨now,?_,last⟩
    rw [List.length_cons,skipMany,got]
    exact done

theorem discardHonest (sendable : Sendable proposal) {cookie : Bytes} (random : cookie.length = cookieLen) :
    discardPacket (kexinit cookie proposal) = .ok () := by
  have fits := sendable.fits
  rw [kexinitLength,List.length_replicate] at fits
  obtain ⟨packet,put,ready,content⟩ := newReady.put (v := kexinit cookie proposal) (by
    rw [kexinitLength,random]
    exact (Nat.zero_add _).le.trans fits)
  have whole : packet.content = cookie ++ (strings slots proposal ++ 0::[0,0,0,0]) := content
  obtain ⟨first,cookieSkipped,firstSane,firstContent⟩ := skipBytes ready.sane whole
  have small : ∀ i ∈ slots, (proposal i).length ≤ sizeMax-4 := by
    intro i member
    have : (proposal i).length+4 ≤ (strings slots proposal).length := slotSmall member
    omega
  obtain ⟨second,stringsSkipped,secondSane,secondContent⟩ := skipStrings firstSane small firstContent
  obtain ⟨third,flag,thirdSane,thirdContent⟩ := getU8Cons secondSane secondContent
  have fetches := getFetches thirdSane 4
  rw [thirdContent,Queue.cut,if_neg (by decide)] at fetches
  obtain ⟨fourth,reserved,fourthSane,_,_,fourthContent⟩ := fetches
  have last : sshbufGetU32 third = .ok (peekU32 [0,0,0,0],fourth) := by
    rw [sshbufGetU32,reserved]
    rfl
  have empty : sshbufLen fourth = .ok 0 := by
    rw [lenSane fourthSane,← contentLength fourthSane,fourthContent]
    rfl
  rw [random] at cookieSkipped
  rw [discardPacket,put]
  simp only [skipKexinit,Except.mapError,bind,Except.bind,cookieSkipped,stringsSkipped,flag,last,pure,Except.pure,empty]
  rfl

end Messages

section Parties
variable {t : Tables} {proposal : Proposal}

structure Own (proposal : Proposal) (kex : Kex) (sent : List Bytes) : Prop where
  ready : Ready sizeMax kex.my
  before : kex.sent = false → sent = [] ∧ kex.my.content = kexinit (List.replicate cookieLen 0) proposal
  after : kex.sent = true → ∃ cookie, cookie.length = cookieLen ∧ sent = [kexinit cookie proposal] ∧
    kex.my.content = kexinit cookie proposal

def Honest (m : Bytes) : Prop := ∃ cookie proposal, Sendable proposal ∧ cookie.length = cookieLen ∧ m = kexinit cookie proposal

structure Heard (t : Tables) (server : Bool) (kex : Kex) (received : List Bytes) : Prop where
  nothing : received = [] → kex.outcome = none ∧ kex.peer = sshbufNew
  message : ∀ m, received = [m] → Honest m → kex.sent = true ∧ kex.peer.Sane ∧ kex.peer.content = m ∧
    kex.outcome = some (kexChooseConf t server true kex.my kex.peer)

theorem Own.same {kex next : Kex} {sent : List Bytes} (own : Own proposal kex sent) (flag : next.sent = kex.sent)
    (my : next.my = kex.my) : Own proposal next sent :=
  ⟨my ▸ own.ready,fun unsent => my ▸ own.before (flag ▸ unsent),fun done => my ▸ own.after (flag ▸ done)⟩

theorem sendOwn {kex : Kex} {sent : List Bytes} (own : Own proposal kex sent) {cookie : Bytes}
    (random : cookie.length = cookieLen) :
    ∃ next out, kexSendKexinit kex cookie = .ok (next,out) ∧ Own proposal next (sent ++ out) ∧ next.sent = true ∧
      next.peer = kex.peer ∧ next.outcome = kex.outcome ∧ (kex.sent = true → next = kex) := by
  rw [kexSendKexinit]
  by_cases already : kex.sent = true
  · rw [if_pos already]
    exact ⟨kex,[],rfl,by rwa [List.append_nil],already,rfl,rfl,fun _ => rfl⟩
  · have unsent : kex.sent = false := Bool.eq_false_iff.mpr already
    obtain ⟨nothing,content⟩ := own.before unsent
    have long : ¬kex.my.size-kex.my.off < cookieLen := by
      rw [← contentLength own.ready.sane,content,kexinitLength,List.length_replicate]
      omega
    obtain ⟨ready,filled⟩ := cookiePoked own.ready random List.length_replicate content
    rw [if_neg already,lenSane own.ready.sane]
    simp only [Except.mapError,bind,Except.bind,if_neg long,own.ready.free,Bool.false_eq_true,if_false]
    refine ⟨_,_,rfl,⟨ready,?_,?_⟩,rfl,rfl,rfl,fun sent => absurd sent already⟩
    · intro impossible
      cases impossible
    · intro _
      refine ⟨cookie,random,?_,filled⟩
      rw [nothing,List.nil_append,filled]

theorem inputOwn {kex : Kex} {sent : List Bytes} (own : Own proposal kex sent) (server : Bool) (m : Bytes)
    {cookie : Bytes} (random : cookie.length = cookieLen) :
    Own proposal (kexInputKexinit t server kex m cookie).1 (sent ++ (kexInputKexinit t server kex m cookie).2) := by
  rw [kexInputKexinit]
  split
  · rw [List.append_nil]
    exact own.same rfl rfl
  · split
    · rw [List.append_nil]
      exact own.same rfl rfl
    · rename_i peer _ _ _
      have filled : Own proposal { kex with peer } sent := own.same rfl rfl
      obtain ⟨next,out,sends,kept,_⟩ := sendOwn filled random
      rw [sends]
      exact kept.same rfl rfl

theorem inputHonest {kex : Kex} {sent : List Bytes} (own : Own proposal kex sent) (fresh : kex.peer = sshbufNew)
    (server : Bool) {m cookie : Bytes} (honest : Honest m) (random : cookie.length = cookieLen) :
    Heard t server (kexInputKexinit t server kex m cookie).1 [m] := by
  obtain ⟨other,theirs,sendable,length,rfl⟩ := honest
  have room : sshbufNew.content.length+(kexinit other theirs).length ≤ sizeMax := by
    have fits := sendable.fits
    rw [kexinitLength,List.length_replicate] at fits
    rw [kexinitLength,length]
    exact (Nat.zero_add _).le.trans fits
  obtain ⟨peer,put,ready,content⟩ := newReady.put room
  have filled : Own proposal { kex with peer } sent := own.same rfl rfl
  obtain ⟨next,out,sends,kept,done,same,_⟩ := sendOwn filled random
  have result : kexInputKexinit t server kex (kexinit other theirs) cookie =
      ({ next with outcome := some (kexChooseConf t server true next.my next.peer) },out) := by
    rw [kexInputKexinit,fresh,put]
    simp only [discardHonest sendable length,sends]
  rw [result]
  refine ⟨?_,?_⟩
  · intro impossible
    cases impossible
  · intro m alone _
    cases alone
    simp only at same
    simp only [same]
    exact ⟨done,ready.sane,content,trivial⟩

theorem heardMore {server : Bool} {kex : Kex} {received : List Bytes} (some : received ≠ []) (m : Bytes) :
    Heard t server kex (received ++ [m]) := by
  obtain ⟨first,rest,rfl⟩ := List.exists_cons_of_ne_nil some
  refine ⟨?_,?_⟩
  · intro impossible
    cases impossible
  · intro only alone
    have length := congrArg List.length alone
    simp at length

theorem inputHeard {kex : Kex} {sent received : List Bytes} (own : Own proposal kex sent) (server : Bool)
    (heard : Heard t server kex received) (m : Bytes) {cookie : Bytes} (random : cookie.length = cookieLen) :
    Heard t server (kexInputKexinit t server kex m cookie).1 (received ++ [m]) := by
  by_cases first : received = []
  · subst received
    by_cases honest : Honest m
    · exact inputHonest own (heard.nothing rfl).2 server honest random
    · refine ⟨?_,?_⟩
      · intro impossible
        cases impossible
      · intro only alone sincere
        cases alone
        exact absurd sincere honest
  · exact heardMore first m

end Parties

section Agreement
variable {t : Tables} {proposal : Side → Proposal} {party : Side → Kex} {net : Net Kex Bytes}

theorem beginsOwn {proposal : Proposal} {kex : Kex} (begins : Begins proposal kex) (sendable : Sendable proposal) :
    Own proposal kex [] := by
  obtain ⟨unsent,made,_⟩ := begins
  obtain ⟨now,written,ready,content⟩ := kexProp2bufContent newReady (by decide) sendable.text sendable.fits
  rw [made] at written
  cases written
  refine ⟨ready,fun _ => ⟨rfl,content⟩,?_⟩
  intro impossible
  rw [unsent] at impossible
  cases impossible

theorem everyRun (begins : ∀ side, Begins (proposal side) (party side)) (sendable : ∀ side, Sendable (proposal side))
    (reached : Reaches (Acts t) (opening party) net) (side : Side) :
    Own (proposal side) (net.party side) (net.sent side) ∧
      Heard t (isServer side) (net.party side) (net.received side) := by
  refine @localInvariant _ _ _ _ _ (fun side kex received sent => Own (proposal side) kex sent ∧
    Heard t (isServer side) kex received) ?_ ?_ ?_ reached side
  · intro side
    obtain ⟨_,_,peer,none⟩ := begins side
    refine ⟨beginsOwn (begins side) (sendable side),⟨fun _ => ⟨none,peer⟩,?_⟩⟩
    intro m impossible
    cases impossible
  · intro side kex received sent next out holds acts
    cases acts with
    | setup cookie random sends =>
      obtain ⟨own,heard⟩ := holds
      obtain ⟨next',out',sends',kept,_,peer,outcome,again⟩ := sendOwn own random
      rw [sends] at sends'
      cases sends'
      refine ⟨kept,⟨?_,?_⟩⟩
      · intro nothing
        rw [outcome,peer]
        exact heard.nothing nothing
      · intro m alone honest
        rw [again (heard.message m alone honest).1]
        exact heard.message m alone honest
  · intro side kex received sent m next out holds acts
    cases acts with
    | input cookie random handler =>
      exact ⟨inputOwn holds.1 _ m random,inputHeard holds.1 _ holds.2 m random⟩
    | refused handler =>
      rw [List.append_nil]
      refine ⟨holds.1.same rfl rfl,?_⟩
      by_cases first : received = []
      · exact absurd (holds.2.nothing first).1 handler
      · exact heardMore first m

structure Decided (t : Tables) (net : Net Kex Bytes) (side : Side) (m : Bytes) : Prop where
  received : net.received side = [m]
  sent : net.sent side.other = [m]
  theirs : (net.party side.other).my.content = m
  mine : (net.party side).my.Sane
  answered : (net.party side).sent = true
  peer : (net.party side).peer.Sane
  content : (net.party side).peer.content = m
  outcome : (net.party side).outcome =
    some (kexChooseConf t (isServer side) true (net.party side).my (net.party side).peer)

theorem decidedMirror {fromServer fromClient : Bytes} (client : Decided t net .client fromServer)
    (server : Decided t net .server fromClient) :
    ∃ first second, (net.party .client).outcome = some first ∧ (net.party .server).outcome = some second ∧
      Together Mirror first second :=
  ⟨_,_,client.outcome,server.outcome,kexChooseConfMirror ⟨client.mine,client.peer,server.mine,server.peer⟩
    (server.content.trans server.theirs.symm) (client.content.trans client.theirs.symm)⟩

section Run
variable (begins : ∀ side, Begins (proposal side) (party side)) (sendable : ∀ side, Sendable (proposal side))
  (reached : Reaches (Acts t) (opening party) net)
include begins sendable reached

theorem sentOnce (side : Side) : (net.party side).sent = false ∧ net.sent side = [] ∨
    ∃ m, net.sent side = [m] ∧ Honest m ∧ (net.party side).my.content = m := by
  have own := (everyRun begins sendable reached side).1
  cases flag : (net.party side).sent with
  | false => exact .inl ⟨rfl,(own.before flag).1⟩
  | true =>
    obtain ⟨cookie,random,sent,content⟩ := own.after flag
    exact .inr ⟨_,sent,⟨cookie,proposal side,sendable side,random,rfl⟩,content⟩

theorem waitsOrDecided (side : Side) :
    net.received side = [] ∧ (net.party side).outcome = none ∨ ∃ m, Decided t net side m := by
  have first := receivedFirst reached side
  obtain ⟨own,heard⟩ := everyRun begins sendable reached side
  rcases sentOnce begins sendable reached side.other with ⟨_,nothing⟩ | ⟨m,sent,honest,content⟩
  · rw [nothing,List.prefix_nil] at first
    exact .inl ⟨first,(heard.nothing first).1⟩
  · rw [sent] at first
    rcases List.prefix_cons_iff.mp first with none | ⟨rest,some,tail⟩
    · exact .inl ⟨none,(heard.nothing none).1⟩
    · rw [List.prefix_nil] at tail
      subst rest
      obtain ⟨answered,sane,peer,outcome⟩ := heard.message m some honest
      exact .inr ⟨m,some,sent,content,own.ready.sane,answered,sane,peer,outcome⟩

theorem kexAgreement :
    (∀ side, (net.sent side).length ≤ 1) ∧
    (∀ side, net.received side = [] ∧ (net.party side).outcome = none ∨
      ∃ m, net.received side = [m] ∧ net.sent side.other = [m] ∧ ∃ result, (net.party side).outcome = some result) ∧
    (∀ client server, (net.party .client).outcome = some client → (net.party .server).outcome = some server →
      Together Mirror client server) := by
  have decided := waitsOrDecided begins sendable reached
  refine ⟨?_,?_,?_⟩
  · intro side
    rcases sentOnce begins sendable reached side with ⟨_,nothing⟩ | ⟨m,sent,_⟩
    · rw [nothing]
      exact Nat.zero_le _
    · rw [sent]
      exact Nat.le_refl _
  · intro side
    rcases decided side with nothing | ⟨m,done⟩
    · exact .inl nothing
    · exact .inr ⟨m,done.received,done.sent,_,done.outcome⟩
  · intro client server clientDone serverDone
    rcases decided .client with ⟨_,none⟩ | ⟨fromServer,mine⟩
    · rw [none] at clientDone
      cases clientDone
    · rcases decided .server with ⟨_,none⟩ | ⟨fromClient,theirs⟩
      · rw [none] at serverDone
        cases serverDone
      · obtain ⟨first,second,clientIs,serverIs,mirror⟩ := decidedMirror mine theirs
        rw [clientIs] at clientDone
        rw [serverIs] at serverDone
        cases clientDone
        cases serverDone
        exact mirror

theorem ownRead {side : Side} {raw : Sshbuf} (sane : raw.Sane) (sent : (net.party side).sent = true)
    (content : raw.content = (net.party side).my.content) : kexBuf2prop raw = .ok (0,proposal side) := by
  obtain ⟨cookie,random,_,mine⟩ := (everyRun begins sendable reached side).1.after sent
  have fits := (sendable side).fits
  rw [kexinitLength] at fits
  exact kexinitRead sane random (sendable side).text (by omega) (content.trans mine)

theorem kexChoosesFirst {side : Side} {conf : Conf} (done : (net.party side).outcome = some (.ok conf)) :
    ConfAgreed (proposal .client) (proposal .server) (isServer side) conf := by
  rcases waitsOrDecided begins sendable reached side with ⟨_,none⟩ | ⟨m,decided⟩
  · rw [none] at done
    cases done
  · have spoken : (net.party side.other).sent = true := by
      rcases Bool.eq_false_or_eq_true (net.party side.other).sent with yes | no
      · exact yes
      · have nothing := ((everyRun begins sendable reached side.other).1.before no).1
        rw [decided.sent] at nothing
        cases nothing
    have mine := ownRead begins sendable reached decided.mine decided.answered rfl
    have theirs := ownRead begins sendable reached decided.peer spoken (decided.content.trans decided.theirs.symm)
    have conf := Option.some.inj (decided.outcome.symm.trans done)
    rw [kexChooseConf,parse,parse,mine,theirs] at conf
    have agreed := chosenAgreed conf
    cases side with
    | client => exact agreed
    | server => exact agreed

end Run

theorem answeredRun {cookie message answer : Bytes} {started answered done : Kex} (random : cookie.length = cookieLen)
    (sends : kexSendKexinit (party .client) cookie = .ok (started,[message])) (fresh : (party .server).outcome = none)
    (answers : kexInputKexinit t true (party .server) message cookie = (answered,[answer]))
    (waiting : started.outcome = none) (finishes : kexInputKexinit t false started answer cookie = (done,[])) :
    ∃ net, Reaches (Acts t) (opening party) net ∧ net.party .client = done ∧ net.party .server = answered := by
  let first := (opening party).acted .client started [message] []
  let second := first.acted .server answered [answer] [message]
  let third := second.acted .client done [] [answer]
  have start : Step (Acts t) (opening party) first := .own (.setup cookie random sends)
  have server : Acts t .server (party .server) (some message) answered [answer] := by
    have acts := @Acts.input t .server (party .server) message cookie random fresh
    rwa [show isServer .server = true from rfl,answers] at acts
  have client : Acts t .client started (some answer) done [] := by
    have acts := @Acts.input t .client started answer cookie random waiting
    rwa [show isServer .client = false from rfl,finishes] at acts
  have reply : Step (Acts t) first second := .receive [] rfl server
  have last : Step (Acts t) second third := .receive [] rfl client
  exact ⟨third,((Relation.ReflTransGen.refl.tail start).tail reply).tail last,rfl,rfl⟩

def smallTables : Tables where
  kexAlgByName name := if name = ascii "k" then some ⟨0,0,0⟩ else none
  hostkeyByName name := if name = ascii "h" then some ⟨0,0⟩ else none
  cipherByName name := if name = ascii "c" then some ⟨8,16,8,0,16⟩ else none
  macSetup name := if name = ascii "m" then some 20 else none
  withZlib := false

def smallProposal (side : Side) : Proposal
  | .kexAlgs => match side with
    | .client => ascii "x,k"
    | .server => ascii "y,k"
  | .serverHostKeyAlgs => ascii "h"
  | .encAlgsCtos => ascii "c"
  | .encAlgsStoc => ascii "c"
  | .macAlgsCtos => ascii "m"
  | .macAlgsStoc => ascii "m"
  | .compAlgsCtos => ascii "none"
  | .compAlgsStoc => ascii "none"
  | .langCtos => []
  | .langStoc => []

def smallKex (side : Side) : Kex :=
  ⟨false,((kexProp2buf sshbufNew (smallProposal side)).toOption.getD sshbufNew),sshbufNew,none⟩

theorem smallSendable (side : Side) : Sendable (smallProposal side) := by
  refine ⟨?_,by cases side <;> decide⟩
  intro i
  cases side <;> cases i <;> decide

theorem smallBegins (side : Side) : Begins (smallProposal side) (smallKex side) := by
  obtain ⟨now,made,_⟩ := kexProp2bufContent newReady (by decide) (smallSendable side).text (smallSendable side).fits
  refine ⟨rfl,?_,rfl,rfl⟩
  rw [smallKex,made]
  rfl

def zeroCookie : Bytes := List.replicate cookieLen 0

def smallStarted : Kex × List Bytes := ((kexSendKexinit (smallKex .client) zeroCookie).toOption.getD (smallKex .client,[]))
def smallMessage : Bytes := smallStarted.2.headD []
def smallAnswered : Kex × List Bytes := kexInputKexinit smallTables true (smallKex .server) smallMessage zeroCookie
def smallAnswer : Bytes := smallAnswered.2.headD []
def smallDone : Kex × List Bytes := kexInputKexinit smallTables false smallStarted.1 smallAnswer zeroCookie

def succeeds (kex : Kex) : Bool := match kex.outcome with
  | some (.ok _) => true
  | _ => false

theorem smallSends : kexSendKexinit (smallKex .client) zeroCookie = .ok smallStarted := by
  have random : zeroCookie.length = cookieLen := List.length_replicate
  obtain ⟨next,out,sends,_⟩ := sendOwn (beginsOwn (smallBegins .client) (smallSendable .client)) random
  rw [smallStarted,sends]
  rfl

theorem smallMessages : smallStarted.2 = [smallMessage] ∧ smallAnswered.2 = [smallAnswer] ∧ smallDone.2 = [] ∧
    smallStarted.1.outcome.isNone = true ∧ succeeds smallAnswered.1 = true ∧ succeeds smallDone.1 = true := by
  decide +kernel

theorem smallReached : ∃ net, Reaches (Acts smallTables) (opening smallKex) net ∧
    net.party .client = smallDone.1 ∧ net.party .server = smallAnswered.1 := by
  obtain ⟨message,answer,nothing,waiting,_⟩ := smallMessages
  have pair {p : Kex × List Bytes} {out : List Bytes} (same : p.2 = out) : p = (p.1,out) := by
    subst same
    rfl
  have sends := smallSends
  rw [pair message] at sends
  exact answeredRun List.length_replicate sends (smallBegins .server).2.2.2 (pair answer)
    (Option.isNone_iff_eq_none.mp waiting) (pair nothing)

theorem kexAgreementSmall : ∃ client server, smallDone.1.outcome = some (.ok client) ∧
    smallAnswered.1.outcome = some (.ok server) ∧ Mirror client server := by
  obtain ⟨_,_,_,_,serverOk,clientOk⟩ := smallMessages
  obtain ⟨net,reached,clientParty,serverParty⟩ := smallReached
  rw [succeeds] at serverOk clientOk
  split at serverOk
  · rename_i server serverDone
    split at clientOk
    · rename_i client clientDone
      refine ⟨client,server,clientDone,serverDone,?_⟩
      rw [← clientParty] at clientDone
      rw [← serverParty] at serverDone
      exact (kexAgreement smallBegins smallSendable reached).2.2 _ _ clientDone serverDone
    · cases clientOk
  · cases serverOk

theorem kexChoosesFirstSmall : ∃ conf, smallDone.1.outcome = some (.ok conf) ∧
    ConfAgreed (smallProposal .client) (smallProposal .server) false conf := by
  obtain ⟨_,_,_,_,_,clientOk⟩ := smallMessages
  obtain ⟨net,reached,clientParty,_⟩ := smallReached
  rw [succeeds] at clientOk
  split at clientOk
  · rename_i conf done
    refine ⟨conf,done,?_⟩
    rw [← clientParty] at done
    exact kexChoosesFirst smallBegins smallSendable reached done
  · cases clientOk

end Agreement

end SesLabs.SshKexRun
