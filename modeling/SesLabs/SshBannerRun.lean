import SesLabs.SshBanner
import SesLabs.SshBuf
import SesLabs.VersionScripts

/-! Both sides of the exchange of version strings, in every order of their steps; and
what becomes of it when the server runs from a binary that q7.py has rewritten. -/
namespace SesLabs.SshBannerRun
open VersionScripts (version q7 q7Result)
open SshBanner Duplex ByteReplace

abbrev Party := Option Progress

def replied : Progress → Bytes
  | .reading _ _ _ => []
  | .finished _ reply => reply

/- atomicio reads one byte at a time; it may find the connection closed, and a wait
may time out. -/
inductive Acts (config : Side → Config) : Behaviour Party UInt8 where
  | greet {side} : Acts config side none none (some start) (banner (config side))
  | byte {side n line expectNl c} : Acts config side (some (.reading n line expectNl)) (some c)
      (some (feed (isServer side) n line expectNl c)) (replied (feed (isServer side) n line expectNl c))
  | closed {side n line expectNl} : Acts config side (some (.reading n line expectNl)) none
      (some (.finished (.error .connClosed) [])) []
  | timedOut {side n line expectNl} : Acts config side (some (.reading n line expectNl)) none
      (some (.finished (.error .connTimeout)
        (sendError (isServer side) "Timed out waiting for SSH identification string.")))
      (sendError (isServer side) "Timed out waiting for SSH identification string.")

section Sent
variable {config : Config} {server : Bool}

structure Legible (config : Config) : Prop where
  clean : Clean (software config)
  short : (ourVersion config).length ≤ maxBannerLen

theorem ourVersionClean (legible : Legible config) : Clean (ourVersion config) :=
  cleanAppend.mpr ⟨⟨by decide,by decide,by decide⟩,legible.clean⟩

theorem ourVersionTagged (config : Config) : isBanner (ourVersion config) = true := by
  rw [isBanner,ourVersion,List.length_append]
  have tag : (ascii "SSH-2.0-" ++ software config).take 4 = ascii "SSH-" := rfl
  rw [tag]
  simp only [decide_true,Bool.and_true,decide_eq_true_eq]
  exact Nat.lt_of_lt_of_le (by decide) (Nat.le_add_right _ _)

theorem bannerRead (legible : Legible config) :
    feedAll server start (banner config) = identify server (ourVersion config) := by
  have line : feedAll server start (ourVersion config ++ (List.replicate 1 cr ++ [lf])) = _ :=
    feedLine (ourVersionClean legible) legible.short []
  rw [endLine,if_pos (ourVersionTagged config)] at line
  exact line

theorem bannerUnread (legible : Legible config) {bytes : Bytes} (front : bytes <+: banner config)
    (part : bytes ≠ banner config) : ∃ n line expectNl, feedAll server start bytes = .reading n line expectNl := by
  have almost : bytes <+: ourVersion config ++ [cr] := by
    have split : banner config = ourVersion config ++ [cr] ++ [lf] := by simp [banner]
    rw [split] at front part
    exact (List.prefix_concat_iff.mp front).resolve_left part
  obtain ⟨rest,whole⟩ := almost
  have last : feedAll server start (ourVersion config ++ [cr]) = .reading 0 (ourVersion config) true := by
    have read : feedAll server start (ourVersion config) = .reading 0 (ourVersion config) false :=
      @feedClean server 0 [] _ (ourVersionClean legible) legible.short
    rw [feedAllAppend,read]
    rfl
  cases progress : feedAll server start bytes with
  | reading n line expectNl => exact ⟨n,line,expectNl,rfl⟩
  | finished result reply =>
    rw [← whole,feedAllAppend,progress,feedAllFinished] at last
    cases last

theorem scanMajor (text : Bytes) : scanInt (ascii "2.0-" ++ text) = some (2,ascii ".0-" ++ text) := by
  have value : toInt 2 = 2 := by decide
  rw [← value]
  rfl

theorem scanMinor (text : Bytes) : scanInt (ascii "0-" ++ text) = some (0,ascii "-" ++ text) := by
  have value : toInt 0 = 0 := by decide
  rw [← value]
  rfl

theorem scanOurs (legible : Legible config) : scanBanner (ourVersion config) =
    if software config = [] then none else some (2,0,software config) := by
  have whole : (software config).takeWhile (· ≠ lf) = software config := by
    rw [List.takeWhile_eq_self_iff]
    intro c member
    rw [decide_eq_true_eq]
    exact fun same => legible.clean.noLf (same ▸ member)
  have tag (text : Bytes) : scanText (ascii "SSH-") (ascii "SSH-2.0-" ++ text) = some (ascii "2.0-" ++ text) := rfl
  have dot (text : Bytes) : scanText (ascii ".") (ascii ".0-" ++ text) = some (ascii "0-" ++ text) := rfl
  have dash (text : Bytes) : scanText (ascii "-") (ascii "-" ++ text) = some text := rfl
  simp only [scanBanner,ourVersion,tag,scanMajor,dot,scanMinor,dash,Option.bind_eq_bind,Option.bind_some,whole]

theorem emptyRefused (legible : Legible config) (empty : software config = []) :
    identify server (ourVersion config) = invalid server := by
  rw [identify,scanOurs legible,if_pos empty]

structure Presentable (server : Bool) (config : Config) : Prop extends Legible config where
  named : software config ≠ []
  welcome : server = true → compatBanner (software config) &&& bugProbe = 0 ∧
    compatBanner (software config) &&& bugScanner = 0

theorem bannerAccepted (presentable : Presentable server config) : identify server (ourVersion config) =
    .finished (.ok ⟨ourVersion config,compatBanner (software config)⟩) [] := by
  refine (identifyOk (ourVersionTagged config)).mpr ⟨rfl,⟨ourVersionTagged config,?_,presentable.welcome⟩,rfl⟩
  exact ⟨2,0,software config,by rw [scanOurs presentable.toLegible,if_neg presentable.named],rfl,rfl⟩

/- Whatever follows the banner in the stream, it is the banner that decides, when its
last byte has been read. -/
theorem decidedAtBanner (legible : Legible config) {tail before : Bytes} {c : UInt8} {n : Nat} {line : Bytes}
    {expectNl : Bool} {result : Except BannerError Peer} {reply : Bytes}
    (front : before ++ [c] <+: banner config ++ tail)
    (reading : feedAll server start before = .reading n line expectNl)
    (done : feed server n line expectNl c = .finished result reply) :
    before ++ [c] = banner config ∧ identify server (ourVersion config) = .finished result reply := by
  have read : feedAll server start (before ++ [c]) = .finished result reply := by
    rw [feedAllAppend,reading,feedAll,done]
    rfl
  have exact : before ++ [c] = banner config := by
    rcases List.prefix_or_prefix_of_prefix front (List.prefix_append _ tail) with inside | beyond
    · by_contra part
      obtain ⟨_,_,_,still⟩ := @bannerUnread config server legible _ inside part
      rw [read] at still
      cases still
    · rcases List.prefix_concat_iff.mp beyond with same | ⟨rest,earlier⟩
      · exact same.symm
      · obtain ⟨_,_,ended⟩ := identifyEnds server (ourVersion config)
        rw [← earlier,feedAllAppend,bannerRead legible,ended,feedAllFinished] at reading
        cases reading
  refine ⟨exact,?_⟩
  rw [← bannerRead legible,← exact,read]

end Sent

section Runs
variable {config : Side → Config} {net : Net Party UInt8}

def interrupted : Party → Bool
  | some (.finished (.error .connClosed) _) => true
  | some (.finished (.error .connTimeout) _) => true
  | _ => false

def Past (config : Side → Config) (side : Side) : Party → Bytes → Bytes → Prop
  | none,received,sent => received = [] ∧ sent = []
  | some (.reading n line expectNl),received,sent =>
      sent = banner (config side) ∧ feedAll (isServer side) start received = .reading n line expectNl
  | some (.finished result reply),received,sent => sent = banner (config side) ++ reply ∧
      (interrupted (some (.finished result reply)) = true ∨ ∃ before c n line expectNl, received = before ++ [c] ∧
        feedAll (isServer side) start before = .reading n line expectNl ∧
        feed (isServer side) n line expectNl c = .finished result reply)

theorem pastStep {side : Side} {party next : Party} {received sent out : Bytes} {event : Option UInt8}
    (past : Past config side party received sent) (acts : Acts config side party event next out) :
    Past config side next (received ++ event.toList) (sent ++ out) := by
  cases acts with
  | greet =>
    obtain ⟨rfl,rfl⟩ := past
    exact ⟨rfl,rfl⟩
  | @byte _ n line expectNl c =>
    obtain ⟨rfl,reading⟩ := past
    cases after : feed (isServer side) n line expectNl c with
    | reading m longer expects =>
      refine ⟨List.append_nil _,?_⟩
      rw [Option.toList_some,feedAllAppend,reading,feedAll,after]
      rfl
    | finished result reply => exact ⟨rfl,.inr ⟨received,c,n,line,expectNl,rfl,reading,after⟩⟩
  | closed =>
    obtain ⟨rfl,_⟩ := past
    exact ⟨rfl,.inl rfl⟩
  | timedOut =>
    obtain ⟨rfl,_⟩ := past
    exact ⟨rfl,.inl rfl⟩

theorem pastAlways (reached : Reaches (Acts config) (opening fun _ => none) net) (side : Side) :
    Past config side (net.party side) (net.received side) (net.sent side) := by
  refine localInvariant (fun _ => ⟨rfl,rfl⟩) ?_ ?_ reached side
  · intro side party received sent next out past acts
    have after := pastStep past acts
    rwa [Option.toList_none,List.append_nil] at after
  · intro side party received sent c next out past acts
    exact pastStep past acts

theorem sentPast {side : Side} {party : Party} {received sent : Bytes} (past : Past config side party received sent) :
    party = none ∧ sent = [] ∨ ∃ tail, sent = banner (config side) ++ tail := by
  cases party with
  | none => exact .inl ⟨rfl,past.2⟩
  | some progress =>
    cases progress with
    | reading n line expectNl => exact .inr ⟨[],by rw [past.1,List.append_nil]⟩
    | finished result reply => exact .inr ⟨reply,past.1⟩

theorem stopsAtBanner {side : Side} (legible : Legible (config side.other))
    (reached : Reaches (Acts config) (opening fun _ => none) net) {result : Except BannerError Peer} {reply : Bytes}
    (done : net.party side = some (.finished result reply)) :
    interrupted (net.party side) = true ∨ net.received side = banner (config side.other) ∧
      identify (isServer side) (ourVersion (config side.other)) = .finished result reply := by
  have past := pastAlways reached side
  have first := receivedFirst reached side
  rw [done] at past ⊢
  obtain ⟨_,stopped | ⟨before,c,n,line,expectNl,received,reading,finished⟩⟩ := past
  · exact .inl stopped
  · right
    rw [received] at first ⊢
    rcases sentPast (pastAlways reached side.other) with ⟨_,nothing⟩ | ⟨tail,sent⟩
    · rw [nothing,List.prefix_nil] at first
      exact absurd first (List.append_ne_nil_of_right_ne_nil _ (List.cons_ne_nil _ _))
    · rw [sent] at first
      exact decidedAtBanner legible first reading finished

def expected (config : Side → Config) (side : Side) : Peer :=
  ⟨ourVersion (config side.other),compatBanner (software (config side.other))⟩

def accepted (config : Side → Config) (side : Side) : Party := some (.finished (.ok (expected config side)) [])

theorem finishedAccepted {side : Side} (presentable : Presentable (isServer side) (config side.other))
    (reached : Reaches (Acts config) (opening fun _ => none) net) {result : Except BannerError Peer} {reply : Bytes}
    (done : net.party side = some (.finished result reply)) (whole : interrupted (net.party side) = false) :
    net.party side = accepted config side ∧ net.received side = banner (config side.other) := by
  rcases stopsAtBanner presentable.toLegible reached done with stopped | ⟨received,decided⟩
  · rw [whole] at stopped
    cases stopped
  · rw [bannerAccepted presentable] at decided
    exact ⟨by rw [done,← decided]; rfl,received⟩

theorem greets (net : Net Party UInt8) (side : Side) (whole : interrupted (net.party side) = false) :
    ∃ later, Reaches (Acts config) net later ∧ later.party side ≠ none ∧
      interrupted (later.party side) = false ∧ later.party side.other = net.party side.other := by
  cases before : net.party side with
  | some progress =>
    rw [before] at whole
    exact ⟨net,.refl,by simp [before],by rw [before,whole],rfl⟩
  | none =>
    refine ⟨net.acted side (some start) (banner (config side)) [],.single (.own (before ▸ .greet)),?_,?_,?_⟩
    · rw [actedParty]
      exact Option.some_ne_none _
    · rw [actedParty]
      rfl
    · exact actedPartyOther ..

theorem hears {side : Side} {rest tail : Bytes} {progress : Progress} (net : Net Party UInt8)
    (now : net.party side = some progress) (waiting : net.sent side.other = net.received side ++ (rest ++ tail))
    (unread : ∀ front, front <+: rest → front ≠ rest → ∃ n line expectNl,
      feedAll (isServer side) progress front = .reading n line expectNl) :
    ∃ later, Reaches (Acts config) net later ∧ later.party side = some (feedAll (isServer side) progress rest) ∧
      later.party side.other = net.party side.other := by
  induction rest generalizing net progress with
  | nil => exact ⟨net,.refl,now,rfl⟩
  | cons c rest ih =>
    obtain ⟨n,line,expectNl,reading⟩ := unread [] List.nil_prefix (List.cons_ne_nil _ _).symm
    rw [feedAll] at reading
    subst progress
    let next := net.acted side (some (feed (isServer side) n line expectNl c))
      (replied (feed (isServer side) n line expectNl c)) [c]
    have step : Step (Acts config) net next := .receive (rest ++ tail) waiting (now ▸ .byte)
    have stream : next.sent side.other = next.received side ++ (rest ++ tail) := by
      rw [actedSentOther,actedReceived,waiting]
      simp
    obtain ⟨later,reached,party,other⟩ := ih next (actedParty ..) stream (by
      intro front first part
      have more := unread (c::front) (List.cons_prefix_cons.mpr ⟨rfl,first⟩) (fun same => part (List.cons.inj same).2)
      rwa [feedAll] at more)
    refine ⟨later,.head step reached,?_,?_⟩
    · rw [party,feedAll]
    · rw [other]
      exact actedPartyOther ..

theorem listens {side : Side} (presentable : Presentable (isServer side) (config side.other))
    (reached : Reaches (Acts config) (opening fun _ => none) net) (sent : net.party side.other ≠ none)
    (ready : net.party side ≠ none) (whole : interrupted (net.party side) = false) :
    ∃ later, Reaches (Acts config) net later ∧ later.party side = accepted config side ∧
      later.party side.other = net.party side.other := by
  obtain ⟨progress,now⟩ := Option.ne_none_iff_exists'.mp ready
  cases progress with
  | finished result reply => exact ⟨net,.refl,(finishedAccepted presentable reached now whole).1,rfl⟩
  | reading n line expectNl =>
    have past := pastAlways reached side
    rw [now] at past
    obtain ⟨tail,stream⟩ := (sentPast (pastAlways reached side.other)).resolve_left (fun nothing => sent nothing.1)
    have first := receivedFirst reached side
    rw [stream] at first
    have early : net.received side <+: banner (config side.other) := by
      rcases List.prefix_or_prefix_of_prefix first (List.prefix_append _ tail) with inside | ⟨rest,beyond⟩
      · exact inside
      · have ended := past.2
        rw [← beyond,feedAllAppend,bannerRead presentable.toLegible,bannerAccepted presentable,feedAllFinished] at ended
        cases ended
    obtain ⟨rest,split⟩ := early
    have ends : feedAll (isServer side) (.reading n line expectNl) rest = .finished (.ok (expected config side)) [] := by
      rw [← past.2,← feedAllAppend,split,bannerRead presentable.toLegible,bannerAccepted presentable]
      rfl
    have waiting : net.sent side.other = net.received side ++ (rest ++ tail) := by
      rw [stream,← split,List.append_assoc]
    obtain ⟨later,run,party,other⟩ := hears net now waiting (by
      intro front inside part
      rw [← past.2,← feedAllAppend]
      refine bannerUnread presentable.toLegible ?_ ?_
      · rw [← split]
        exact (List.prefix_append_right_inj _).mpr inside
      · rw [← split]
        exact fun same => part (List.append_cancel_left same))
    rw [ends] at party
    exact ⟨later,run,party,other⟩

theorem bannerAgreement (presentable : ∀ side, Presentable (isServer side) (config side.other))
    (reached : Reaches (Acts config) (opening fun _ => none) net) (whole : ∀ side, interrupted (net.party side) = false) :
    (∀ side result reply, net.party side = some (.finished result reply) →
      net.party side = accepted config side ∧ net.received side = banner (config side.other)) ∧
    ∃ later, Reaches (Acts config) net later ∧ ∀ side, later.party side = accepted config side := by
  refine ⟨?_,?_⟩
  · intro side result reply done
    exact finishedAccepted (presentable side) reached done (whole side)
  · obtain ⟨first,firstRun,client,clientWhole,firstOther⟩ := @greets config net .client (whole .client)
    obtain ⟨second,secondRun,server,serverWhole,secondOther⟩ := @greets config first .server (firstOther ▸ whole .server)
    have sent : Reaches (Acts config) (opening fun _ => none) second := (reached.trans firstRun).trans secondRun
    obtain ⟨third,thirdRun,clientDone,thirdOther⟩ := listens (presentable .client) sent server (secondOther ▸ client)
      (secondOther ▸ clientWhole)
    obtain ⟨later,lastRun,serverDone,lastOther⟩ := listens (presentable .server) (sent.trans thirdRun)
      (by rw [Side.other,clientDone]; exact Option.some_ne_none _) (thirdOther ▸ server) (thirdOther ▸ serverWhole)
    refine ⟨later,((firstRun.trans secondRun).trans thirdRun).trans lastRun,?_⟩
    intro side
    cases side with
    | client => exact lastOther.trans clientDone
    | server => exact serverDone

def smallConfig : Side → Config
  | .client => ⟨version,none⟩
  | .server => ⟨version,some (ascii "lab")⟩

theorem smallPresentable (side : Side) : Presentable (isServer side) (smallConfig side.other) := by
  cases side with
  | client => exact ⟨⟨⟨by decide,by decide,by decide⟩,by decide⟩,by decide,by decide⟩
  | server => exact ⟨⟨⟨by decide,by decide,by decide⟩,by decide⟩,by decide,fun _ => by decide +kernel⟩

theorem bannerAgreementSmall : ∃ net, Reaches (Acts smallConfig) (opening fun _ => none) net ∧
    (∀ side, net.party side = accepted smallConfig side) ∧ net.received .client = ascii "SSH-2.0-OpenSSH_8.8 lab\r\n" := by
  obtain ⟨_,net,reached,done⟩ := bannerAgreement smallPresentable .refl (fun _ => rfl)
  have whole (side : Side) : interrupted (net.party side) = false := by
    rw [done side]
    rfl
  exact ⟨net,reached,done,((bannerAgreement smallPresentable reached whole).1 .client _ _ (done .client)).2⟩

end Runs

section Patched
variable {config : Side → Config}

def cString (data : Bytes) (i : Nat) : Bytes := (data.drop i).takeWhile (· ≠ 0)

theorem occursDrop {a data : Bytes} {i : Nat} (found : OccursAt a data i) : ∃ rest, data.drop i = a ++ rest := by
  have front : a <+: data.drop i := by
    rw [← occursPrefix]
    intro k inside
    rw [Nat.zero_add,List.getElem?_drop]
    exact found k inside
  obtain ⟨rest,split⟩ := front
  exact ⟨rest,split.symm⟩

theorem cStringFound {v data : Bytes} {i : Nat} (letters : 0 ∉ v) (found : OccursAt (v ++ [0]) data i) :
    cString data i = v := by
  obtain ⟨rest,split⟩ := occursDrop found
  rw [cString,split,List.append_assoc]
  exact (SshBuf.takeText letters rest).1

theorem q7CString {data : Bytes} {i : Nat} {keepOriginal : Bool} {out : VersionScripts.Output}
    (found : OccursAt (version ++ [0]) data i) (ran : q7 keepOriginal data = .ok out) :
    cString out.newFile i = if keepOriginal then version else [] := by
  have letters : (0 : UInt8) ∉ version := by decide
  cases keepOriginal with
  | true =>
    cases Except.ok.inj ran
    exact cStringFound letters found
  | false =>
    cases Except.ok.inj ((q7Result data).symm.trans ran)
    have wiped := replaceInside (by decide) VersionScripts.terminatedSize data (terminatedUnbordered letters) found
    obtain ⟨rest,split⟩ := occursDrop wiped
    rw [cString,split]
    rfl

theorem clientAcceptsIff (legible : Legible (config .server)) :
    (∃ net peer reply, Reaches (Acts config) (opening fun _ => none) net ∧
      net.party .client = some (.finished (.ok peer) reply)) ↔ software (config .server) ≠ [] := by
  refine ⟨?_,?_⟩
  · intro accepts empty
    obtain ⟨net,peer,reply,reached,done⟩ := accepts
    rcases @stopsAtBanner config net .client legible reached _ _ done with stopped | ⟨_,decided⟩
    · rw [done] at stopped
      cases stopped
    · rw [Side.other,emptyRefused legible empty] at decided
      cases decided
  · intro named
    have presentable : Presentable (isServer .client) (config Side.client.other) :=
      ⟨legible,named,fun impossible => absurd impossible (by decide)⟩
    obtain ⟨first,firstRun,client,clientWhole,firstOther⟩ := @greets config (opening fun _ => none) .client rfl
    have silent : interrupted (first.party .server) = false := by
      rw [Side.other] at firstOther
      rw [firstOther]
      rfl
    obtain ⟨second,secondRun,server,_,secondOther⟩ := @greets config first .server silent
    obtain ⟨later,lastRun,done,_⟩ := listens presentable (firstRun.trans secondRun) server (secondOther ▸ client)
      (secondOther ▸ clientWhole)
    exact ⟨later,_,_,(firstRun.trans secondRun).trans lastRun,done⟩

theorem patchedServerAccepted {data : Bytes} {i : Nat} {keepOriginal : Bool} {out : VersionScripts.Output}
    {addendum : Option Bytes} (found : OccursAt (version ++ [0]) data i) (ran : q7 keepOriginal data = .ok out)
    (runs : config .server = ⟨cString out.newFile i,addendum⟩) (legible : Legible (config .server)) :
    (∃ net peer reply, Reaches (Acts config) (opening fun _ => none) net ∧
      net.party .client = some (.finished (.ok peer) reply)) ↔
    keepOriginal = true ∨ ∃ text, addendum = some text ∧ text ≠ [] := by
  rw [clientAcceptsIff legible,runs,q7CString found ran,software]
  cases keepOriginal with
  | true =>
    simp only [if_true,true_or,iff_true]
    exact List.append_ne_nil_of_left_ne_nil (by decide) _
  | false =>
    cases addendum with
    | none => simp
    | some text => by_cases empty : text = [] <;> simp [empty]

def patchedConfig : Side → Config
  | .client => ⟨version,none⟩
  | .server => ⟨cString (List.replicate 12 0) 0,none⟩

theorem patchedServerRefused : ¬ ∃ net peer reply, Reaches (Acts patchedConfig) (opening fun _ => none) net ∧
    net.party .client = some (.finished (.ok peer) reply) := by
  have ran : q7 false (version ++ [0]) = .ok ⟨[(version ++ [0],1)],List.replicate 12 0⟩ := by decide
  have found : OccursAt (version ++ [0]) (version ++ [0]) 0 := occursPrefix.mpr List.prefix_rfl
  rw [patchedServerAccepted found ran rfl ⟨⟨by decide,by decide,by decide⟩,by decide⟩]
  simp

end Patched

end SesLabs.SshBannerRun
