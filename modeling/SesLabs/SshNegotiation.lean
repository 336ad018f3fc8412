import SesLabs.SshKexinit
import SesLabs.SshNames
import SesLabs.Fallible

/-! kex_choose_conf of kex.c: from both proposals each side chooses the algorithms of the
session. The tables of algorithms are parameters, the same ones on both sides. -/
namespace SesLabs.SshNegotiation
open SshMatch SshBuf SshKexinit SshNames Fallible

structure KexAlg where
  type : Nat
  ecNid : Nat
  hashAlg : Nat
  deriving DecidableEq, Repr

structure HostkeyAlg where
  type : Nat
  nid : Nat
  deriving DecidableEq, Repr

structure Cipher where
  ivLen : Nat
  keyLen : Nat
  blockSize : Nat
  authLen : Nat
  secLen : Nat
  deriving DecidableEq, Repr

/- kex_alg_by_name, sshkey_type_from_name with sshkey_ecdsa_nid_from_name,
cipher_by_name, mac_setup with the key length it sets, and WITH_ZLIB. -/
structure Tables where
  kexAlgByName : Bytes → Option KexAlg
  hostkeyByName : Bytes → Option HostkeyAlg
  cipherByName : Bytes → Option Cipher
  macSetup : Bytes → Option Nat
  withZlib : Bool

inductive KexError where
  | noKexAlgMatch
  | noHostkeyAlgMatch
  | noCipherAlgMatch
  | noMacAlgMatch
  | noCompressAlgMatch
  | internalError
  | invalidFormat
  | unexpectedTrailingData
  | disconnected
  | buffer (e : BufError)
  deriving DecidableEq, Repr

structure Failure where
  code : KexError
  failedChoice : Option Bytes
  deriving DecidableEq, Repr

inductive CompType where
  | none
  | zlib
  | delayed
  deriving DecidableEq, Repr

structure Enc where
  name : Bytes
  cipher : Cipher
  deriving DecidableEq, Repr

structure Mac where
  name : Bytes
  keyLen : Nat
  deriving DecidableEq, Repr

structure Comp where
  name : Bytes
  type : CompType
  deriving DecidableEq, Repr

structure Newkeys where
  enc : Enc
  mac : Option Mac
  comp : Comp
  deriving DecidableEq, Repr

inductive Mode where
  | modeIn
  | modeOut
  deriving DecidableEq, Repr

def choose {α : Type} (missing : KexError) (table : Bytes → Option α) (client server : Bytes) :
    Except KexError (Bytes × α) :=
  match (matchList client server).1 with
  | none => .error missing
  | some name =>
    match table name with
    | none => .error .internalError
    | some entry => .ok (name,entry)

section Choose
variable (t : Tables)

def chooseEnc (client server : Bytes) : Except KexError Enc :=
  (choose .noCipherAlgMatch t.cipherByName client server).map (fun (name,cipher) => ⟨name,cipher⟩)

def chooseMac (client server : Bytes) : Except KexError Mac :=
  (choose .noMacAlgMatch t.macSetup client server).map (fun (name,keyLen) => ⟨name,keyLen⟩)

def compType (name : Bytes) : Option CompType :=
  if t.withZlib ∧ name = ascii "zlib@openssh.com" then some .delayed
  else if t.withZlib ∧ name = ascii "zlib" then some .zlib
  else if name = ascii "none" then some .none
  else none

def chooseComp (client server : Bytes) : Except KexError Comp :=
  (choose .noCompressAlgMatch (compType t) client server).map (fun (name,type) => ⟨name,type⟩)

def chooseKex (client server : Bytes) : Except KexError (Bytes × KexAlg) :=
  choose .noKexAlgMatch t.kexAlgByName client server

def chooseHostkeyalg (client server : Bytes) : Except KexError (Bytes × HostkeyAlg) :=
  choose .noHostkeyAlgMatch t.hostkeyByName client server

/- A failed choice keeps the peer's list. -/
def blame {α : Type} (choice : Bytes) (result : Except KexError α) : Except Failure α :=
  result.mapError (fun code => ⟨code,some choice⟩)

/- "ignore mac for authenticated encryption". -/
def chooseMacUnless (authLen : Nat) (peer client server : Bytes) : Except Failure (Option Mac) :=
  if authLen = 0 then (blame peer (chooseMac t client server)).map some else .ok none

def chooseMode (cprop sprop peer : Proposal) (ctos : Bool) : Except Failure Newkeys := do
  let nenc := if ctos then .encAlgsCtos else .encAlgsStoc
  let nmac := if ctos then .macAlgsCtos else .macAlgsStoc
  let ncomp := if ctos then .compAlgsCtos else .compAlgsStoc
  let enc ← blame (peer nenc) (chooseEnc t (cprop nenc) (sprop nenc))
  let mac ← chooseMacUnless t enc.cipher.authLen (peer nmac) (cprop nmac) (sprop nmac)
  let comp ← blame (peer ncomp) (chooseComp t (cprop ncomp) (sprop ncomp))
  return ⟨enc,mac,comp⟩

end Choose

def ctos (server : Bool) (mode : Mode) : Bool := !server && mode = .modeOut || server && mode = .modeIn

def macKeyLen (keys : Newkeys) : Nat := match keys.mac with
  | none => 0
  | some mac => mac.keyLen

def modeNeed (keys : Newkeys) : Nat :=
  max (max (max keys.enc.cipher.keyLen keys.enc.cipher.blockSize) keys.enc.cipher.ivLen) (macKeyLen keys)

def modeDhNeed (keys : Newkeys) : Nat :=
  max (max (max keys.enc.cipher.secLen keys.enc.cipher.blockSize) keys.enc.cipher.ivLen) (macKeyLen keys)

def firstName (list : Bytes) : Bytes := list.takeWhile (· ≠ comma)

def proposalsMatch (my peer : Proposal) : Bool :=
  [Slot.kexAlgs,.serverHostKeyAlgs].all (fun i => firstName (my i) = firstName (peer i))

/- What kex_choose_conf leaves in the kex and in dispatch_skip_packets; the field
extInfoC is none where the source does not touch it. -/
structure Conf where
  extInfoC : Option Bool
  name : Bytes
  kexalg : KexAlg
  hostkeyAlg : Bytes
  hostkey : HostkeyAlg
  newkeys : Mode → Newkeys
  weNeed : Nat
  dhNeed : Nat
  skipPackets : Bool

def parse (raw : Sshbuf) : Except Failure (UInt8 × Proposal) :=
  (kexBuf2prop raw).mapError (fun e => ⟨.buffer e,none⟩)

def chosen (t : Tables) (server initial : Bool) (my peer : Proposal) (first : UInt8) : Except Failure Conf := do
  let cprop := if server then peer else my
  let sprop := if server then my else peer
  let extInfoC := if server && initial then
      some (matchList (ascii "ext-info-c") (peer .kexAlgs)).1.isSome
    else none
  let (name,kexalg) ← blame (peer .kexAlgs) (chooseKex t (cprop .kexAlgs) (sprop .kexAlgs))
  let (hostkeyAlg,hostkey) ← blame (peer .serverHostKeyAlgs)
    (chooseHostkeyalg t (cprop .serverHostKeyAlgs) (sprop .serverHostKeyAlgs))
  let keysIn ← chooseMode t cprop sprop peer (ctos server .modeIn)
  let keysOut ← chooseMode t cprop sprop peer (ctos server .modeOut)
  return {
    extInfoC,name,kexalg,hostkeyAlg,hostkey
    newkeys := fun mode => match mode with
      | .modeIn => keysIn
      | .modeOut => keysOut
    weNeed := max (modeNeed keysIn) (modeNeed keysOut)
    dhNeed := max (modeDhNeed keysIn) (modeDhNeed keysOut)
    skipPackets := first ≠ 0 && !proposalsMatch my peer }

def kexChooseConf (t : Tables) (server initial : Bool) (my peer : Sshbuf) : Except Failure Conf := do
  let (_,my) ← parse my
  let (first,peer) ← parse peer
  chosen t server initial my peer first

section First
variable {t : Tables}

def Agreed (client server : Proposal) (i : Slot) (name : Bytes) : Prop :=
  name ∈ sproposals (server i) ∧
  ∃ before after, namesOf (client i) = before ++ name :: after ∧ ∀ other ∈ before, other ∉ sproposals (server i)

structure ModeAgreed (client server : Proposal) (ctos : Bool) (keys : Newkeys) : Prop where
  enc : Agreed client server (if ctos then .encAlgsCtos else .encAlgsStoc) keys.enc.name
  comp : Agreed client server (if ctos then .compAlgsCtos else .compAlgsStoc) keys.comp.name
  authenticated : keys.mac = none ↔ keys.enc.cipher.authLen ≠ 0
  mac : ∀ mac, keys.mac = some mac → Agreed client server (if ctos then .macAlgsCtos else .macAlgsStoc) mac.name

theorem matched {client server : Proposal} {i : Slot} {name : Bytes}
    (found : (matchList (client i) (server i)).1 = some name) : Agreed client server i name := by
  rw [matchListFirst,List.find?_eq_some_iff_append] at found
  obtain ⟨shared,before,after,split,earlier⟩ := found
  refine ⟨of_decide_eq_true shared,before,after,split,?_⟩
  intro other member both
  have missing := earlier other member
  rw [decide_eq_true both] at missing
  cases missing

theorem chooseName {α : Type} {missing : KexError} {table : Bytes → Option α} {client server : Bytes}
    {choice : Bytes × α} (done : choose missing table client server = .ok choice) :
    (matchList client server).1 = some choice.1 := by
  rw [choose] at done
  split at done
  · cases done
  · split at done <;> cases done
    assumption

theorem macUnlessName {authLen : Nat} {peer client server : Bytes} {mac : Option Mac}
    (done : chooseMacUnless t authLen peer client server = .ok mac) :
    (mac = none ↔ authLen ≠ 0) ∧ ∀ chosen, mac = some chosen → (matchList client server).1 = some chosen.name := by
  rw [chooseMacUnless] at done
  split at done
  · rename_i plain
    obtain ⟨chosen,macDone,rfl⟩ := mapOk done
    obtain ⟨⟨name,keyLen⟩,found,rfl⟩ := mapOk (mapErrorOk macDone)
    refine ⟨by simp [plain],?_⟩
    intro other same
    cases same
    exact chooseName found
  · rename_i sealed
    cases done
    refine ⟨by simp [sealed],?_⟩
    intro other impossible
    cases impossible

theorem modeAgreed {cprop sprop peer : Proposal} {ctos : Bool} {keys : Newkeys}
    (done : chooseMode t cprop sprop peer ctos = .ok keys) : ModeAgreed cprop sprop ctos keys := by
  obtain ⟨enc,encDone,done⟩ := bindOk done
  obtain ⟨mac,macDone,done⟩ := bindOk done
  obtain ⟨comp,compDone,done⟩ := bindOk done
  cases done
  obtain ⟨authenticated,named⟩ := macUnlessName macDone
  obtain ⟨⟨encName,cipher⟩,cipherDone,rfl⟩ := mapOk (mapErrorOk encDone)
  obtain ⟨⟨compName,type⟩,typeDone,rfl⟩ := mapOk (mapErrorOk compDone)
  exact ⟨matched (chooseName cipherDone),matched (chooseName typeDone),authenticated,
    fun chosen same => matched (named chosen same)⟩

structure ConfAgreed (client server : Proposal) (isServer : Bool) (conf : Conf) : Prop where
  name : Agreed client server .kexAlgs conf.name
  hostkey : Agreed client server .serverHostKeyAlgs conf.hostkeyAlg
  keys : ∀ mode, ModeAgreed client server (ctos isServer mode) (conf.newkeys mode)

theorem chosenAgreed {server initial : Bool} {my peer : Proposal} {first : UInt8} {conf : Conf}
    (done : chosen t server initial my peer first = .ok conf) :
    ConfAgreed (if server then peer else my) (if server then my else peer) server conf := by
  obtain ⟨kex,kexDone,done⟩ := bindOk done
  obtain ⟨hostkey,hostkeyDone,done⟩ := bindOk done
  obtain ⟨keysIn,inDone,done⟩ := bindOk done
  obtain ⟨keysOut,outDone,done⟩ := bindOk done
  cases done
  refine ⟨matched (chooseName (mapErrorOk kexDone)),matched (chooseName (mapErrorOk hostkeyDone)),?_⟩
  intro mode
  cases mode with
  | modeIn => exact modeAgreed inDone
  | modeOut => exact modeAgreed outDone

end First

section Mirror
variable {t : Tables}

structure Mirror (client server : Conf) : Prop where
  name : client.name = server.name
  kexalg : client.kexalg = server.kexalg
  hostkeyAlg : client.hostkeyAlg = server.hostkeyAlg
  hostkey : client.hostkey = server.hostkey
  toServer : client.newkeys .modeOut = server.newkeys .modeIn
  toClient : client.newkeys .modeIn = server.newkeys .modeOut
  weNeed : client.weNeed = server.weNeed
  dhNeed : client.dhNeed = server.dhNeed

theorem macTogether (authLen : Nat) (peer peer' client server : Bytes) :
    Together Eq (chooseMacUnless t authLen peer client server) (chooseMacUnless t authLen peer' client server) := by
  rw [chooseMacUnless,chooseMacUnless]
  split
  · cases chooseMac t client server with
    | error e => trivial
    | ok mac => exact rfl
  · exact rfl

theorem modeTogether (cprop sprop peer peer' : Proposal) (ctos : Bool) :
    Together Eq (chooseMode t cprop sprop peer ctos) (chooseMode t cprop sprop peer' ctos) := by
  refine togetherBind (togetherSame _ _ _) ?_
  intro enc enc' same
  subst enc'
  refine togetherBind (macTogether _ _ _ _ _) ?_
  intro mac mac' same
  subst mac'
  refine togetherBind (togetherSame _ _ _) ?_
  intro comp comp' same
  subst comp'
  exact rfl

/- The server looks at the direction to itself first, the client at the one to
itself: they may meet different errors, but fail together. -/
theorem chosenMirror (my peer : Proposal) (initial initial' : Bool) (first first' : UInt8) :
    Together Mirror (chosen t false initial my peer first) (chosen t true initial' peer my first') := by
  refine togetherBind (togetherSame _ _ _) ?_
  intro kex kex' same
  subst kex'
  refine togetherBind (togetherSame _ _ _) ?_
  intro hostkey hostkey' same
  subst hostkey'
  refine togetherSwap (modeTogether _ _ _ _ _) (modeTogether _ _ _ _ _) ?_
  intro toClient toClient' toServer toServer' same same'
  subst toClient' toServer'
  exact ⟨rfl,rfl,rfl,rfl,rfl,rfl,Nat.max_comm _ _,Nat.max_comm _ _⟩

theorem kexBuf2propCongr {raw raw' : Sshbuf} (sane : raw.Sane) (sane' : raw'.Sane) (same : raw.content = raw'.content) :
    kexBuf2prop raw = kexBuf2prop raw' := by
  rw [kexBuf2prop,kexBuf2prop,sshbufFromb,sshbufFromb,saneIff.mpr sane,saneIff.mpr sane',same]

theorem kexChooseConfMirror {initial initial' : Bool} {clientMy clientPeer serverMy serverPeer : Sshbuf}
    (sane : clientMy.Sane ∧ clientPeer.Sane ∧ serverMy.Sane ∧ serverPeer.Sane)
    (toServer : serverPeer.content = clientMy.content) (toClient : clientPeer.content = serverMy.content) :
    Together Mirror (kexChooseConf t false initial clientMy clientPeer)
      (kexChooseConf t true initial' serverMy serverPeer) := by
  obtain ⟨cm,cp,sm,sp⟩ := sane
  have clientText : parse serverPeer = parse clientMy := by rw [parse,parse,kexBuf2propCongr sp cm toServer]
  have serverText : parse clientPeer = parse serverMy := by rw [parse,parse,kexBuf2propCongr cp sm toClient]
  rw [kexChooseConf,kexChooseConf,clientText,serverText]
  refine togetherSwap (togetherRefl _) (togetherRefl _) ?_
  intro mine mine' theirs theirs' same same'
  subst mine' theirs'
  exact chosenMirror _ _ _ _ _ _

end Mirror

end SesLabs.SshNegotiation
