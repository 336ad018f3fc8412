import Mathlib.Algebra.Group.Int.Defs
import SesLabs.Duplex
import SesLabs.SshMatch

/-! The exchange of version strings that opens a connection: kex_exchange_identification
and send_error of kex.c, compat_banner of compat.c. Each side sends its banner and reads
the other's byte by byte. The line a side reads is the content of a buffer that is far
from full. -/
namespace SesLabs.SshBanner
open SshMatch Duplex

/- SSH_MAX_BANNER_LEN, SSH_MAX_PRE_BANNER_LINES. -/
def maxBannerLen : Nat := 8192
def maxPreBannerLines : Nat := 1024

def cr : UInt8 := 0x0D
def lf : UInt8 := 0x0A
def space : UInt8 := 0x20

structure Config where
  version : Bytes
  versionAddendum : Option Bytes
  deriving DecidableEq, Repr

def software (config : Config) : Bytes :=
  config.version.take 100 ++ match config.versionAddendum with
    | none => []
    | some addendum => if addendum = [] then [] else space::addendum

def ourVersion (config : Config) : Bytes := ascii "SSH-2.0-" ++ software config

def banner (config : Config) : Bytes := ourVersion config ++ [cr,lf]

section Compat

def bugUtf8ttymode : Nat := 0x00000001
def bugSigtype : Nat := 0x00000002
def bugSigtype74 : Nat := 0x00000004
def oldSessionid : Nat := 0x00000010
def bugDebug : Nat := 0x00000040
def bugIgnoremsg : Nat := 0x00000100
def bugPasswordpad : Nat := 0x00000400
def bugScanner : Nat := 0x00000800
def oldDhgex : Nat := 0x00004000
def bugNorekey : Nat := 0x00008000
def bugExteof : Nat := 0x00200000
def bugProbe : Nat := 0x00400000
def oldForwardAddr : Nat := 0x01000000
def newOpenssh : Nat := 0x04000000
def bugDynamicRport : Nat := 0x08000000
def bugCurve25519pad : Nat := 0x10000000
def bugHostkeys : Nat := 0x20000000
def bugDhgexLarge : Nat := 0x40000000

def check : List (String × Nat) := [
  ("OpenSSH_2.*,OpenSSH_3.0*,OpenSSH_3.1*",bugExteof ||| oldForwardAddr ||| bugSigtype),
  ("OpenSSH_3.*",oldForwardAddr ||| bugSigtype),
  ("Sun_SSH_1.0*",bugNorekey ||| bugExteof ||| bugSigtype),
  ("OpenSSH_2*,OpenSSH_3*,OpenSSH_4*",bugSigtype),
  ("OpenSSH_5*",newOpenssh ||| bugDynamicRport ||| bugSigtype),
  ("OpenSSH_6.6.1*",newOpenssh ||| bugSigtype),
  ("OpenSSH_6.5*,OpenSSH_6.6*",newOpenssh ||| bugCurve25519pad ||| bugSigtype),
  ("OpenSSH_7.4*",newOpenssh ||| bugSigtype ||| bugSigtype74),
  ("OpenSSH_7.0*,OpenSSH_7.1*,OpenSSH_7.2*,OpenSSH_7.3*,OpenSSH_7.5*,OpenSSH_7.6*,OpenSSH_7.7*",
    newOpenssh ||| bugSigtype),
  ("OpenSSH*",newOpenssh),
  ("*MindTerm*",0),
  ("3.0.*",bugDebug),
  ("3.0 SecureCRT*",oldSessionid),
  ("1.7 SecureFX*",oldSessionid),
  ("1.2.18*,1.2.19*,1.2.20*,1.2.21*,1.2.22*",bugIgnoremsg),
  ("1.3.2*",bugIgnoremsg),
  ("Cisco-1.*",bugDhgexLarge ||| bugHostkeys),
  ("*SSH Compatible Server*",bugPasswordpad),
  ("*OSU_0*,OSU_1.0*,OSU_1.1*,OSU_1.2*,OSU_1.3*,OSU_1.4*,OSU_1.5alpha1*,OSU_1.5alpha2*,OSU_1.5alpha3*",
    bugPasswordpad),
  ("*SSH_Version_Mapper*",bugScanner),
  ("PuTTY_Local:*,PuTTY-Release-0.5*,PuTTY_Release_0.5*,PuTTY_Release_0.60*,PuTTY_Release_0.61*," ++
    "PuTTY_Release_0.62*,PuTTY_Release_0.63*,PuTTY_Release_0.64*",oldDhgex),
  ("FuTTY*",oldDhgex),
  ("Probe-*",bugProbe),
  ("TeraTerm SSH*,TTSSH/1.5.*,TTSSH/2.1*,TTSSH/2.2*,TTSSH/2.3*,TTSSH/2.4*,TTSSH/2.5*,TTSSH/2.6*,TTSSH/2.70*," ++
    "TTSSH/2.71*,TTSSH/2.72*",bugHostkeys),
  ("WinSCP_release_4*,WinSCP_release_5.0*,WinSCP_release_5.1,WinSCP_release_5.1.*,WinSCP_release_5.5," ++
    "WinSCP_release_5.5.*,WinSCP_release_5.6,WinSCP_release_5.6.*,WinSCP_release_5.7,WinSCP_release_5.7.1," ++
    "WinSCP_release_5.7.2,WinSCP_release_5.7.3,WinSCP_release_5.7.4",oldDhgex),
  ("ConfD-*",bugUtf8ttymode),
  ("Twisted_*",0),
  ("Twisted*",bugDebug)]

def firstBugs (version : Bytes) : List (String × Nat) → Nat
  | [] => 0
  | (pat,bugs)::more => if matchPatternList version (ascii pat) false = 1 then bugs else firstBugs version more

def compatBanner (version : Bytes) : Nat := firstBugs version check

end Compat

section Scan

def isSpace (c : UInt8) : Bool := c = space || 0x09 ≤ c && c ≤ 0x0D
def isDigit (c : UInt8) : Bool := 0x30 ≤ c && c ≤ 0x39

/- `%d`: a long that stops at its bounds, cut down to an int. -/
def toInt (value : Int) : Int := Int.bmod (max (-2^63) (min value (2^63-1))) (2^32)

def decimal (digits : Bytes) : Nat := digits.foldl (fun value d => value*10+(d.toNat-0x30)) 0

def scanDigits (negative : Bool) (s : Bytes) : Option (Int × Bytes) :=
  let digits := s.takeWhile isDigit
  if digits = [] then none
  else some (toInt (if negative then -(decimal digits : Int) else decimal digits),s.dropWhile isDigit)

def scanInt (s : Bytes) : Option (Int × Bytes) :=
  match s.dropWhile isSpace with
  | [] => none
  | c::rest =>
    if c = 0x2D then scanDigits true rest
    else if c = 0x2B then scanDigits false rest
    else scanDigits false (c::rest)

def scanText : Bytes → Bytes → Option Bytes
  | [],s => some s
  | _::_,[] => none
  | p::pattern,c::s => if p = c then scanText pattern s else none

/- sscanf with "SSH-%d.%d-%[^\n]\n": the three values, if all three were read. -/
def scanBanner (s : Bytes) : Option (Int × Int × Bytes) := do
  let s ← scanText (ascii "SSH-") s
  let (remoteMajor,s) ← scanInt s
  let s ← scanText (ascii ".") s
  let (remoteMinor,s) ← scanInt s
  let s ← scanText (ascii "-") s
  let remoteVersion := s.takeWhile (· ≠ lf)
  if remoteVersion = [] then none else some (remoteMajor,remoteMinor,remoteVersion)

end Scan

inductive BannerError where
  | invalidFormat
  | noProtocolVersion
  | connClosed
  | connTimeout
  deriving DecidableEq, Repr

structure Peer where
  version : Bytes
  compat : Nat
  deriving DecidableEq, Repr

/- Between two bytes: the lines before, the line so far, expect_nl. At the end: what
the function returns and what it has sent back. -/
inductive Progress where
  | reading (n : Nat) (line : Bytes) (expectNl : Bool)
  | finished (result : Except BannerError Peer) (reply : Bytes)
  deriving DecidableEq

def sendError (server : Bool) (msg : String) : Bytes := if server then ascii msg ++ [cr,lf] else []

def invalid (server : Bool) : Progress :=
  .finished (.error .invalidFormat) (sendError server "Invalid SSH identification string.")

def mismatch (remoteMajor remoteMinor : Int) : Bool :=
  if remoteMajor = 2 then false else if remoteMajor = 1 then remoteMinor ≠ 99 else true

def identify (server : Bool) (line : Bytes) : Progress :=
  match scanBanner line with
  | none => invalid server
  | some (remoteMajor,remoteMinor,remoteVersion) =>
    let compat := compatBanner remoteVersion
    if mismatch remoteMajor remoteMinor then
      .finished (.error .noProtocolVersion) (sendError server "Protocol major versions differ.")
    else if server && compat &&& bugProbe ≠ 0 then .finished (.error .connClosed) []
    else if server && compat &&& bugScanner ≠ 0 then .finished (.error .connClosed) []
    else .finished (.ok ⟨line,compat⟩) []

def isBanner (line : Bytes) : Bool := 4 < line.length && line.take 4 = ascii "SSH-"

def endLine (server : Bool) (n : Nat) (line : Bytes) : Progress :=
  if isBanner line then identify server line
  else if server then invalid server
  else if maxPreBannerLines ≤ n+1 then
    .finished (.error .invalidFormat) (sendError server "No SSH identification string received.")
  else .reading (n+1) [] false

def feed (server : Bool) (n : Nat) (line : Bytes) (expectNl : Bool) (c : UInt8) : Progress :=
  if c = cr then .reading n line true
  else if c = lf then endLine server n line
  else if c = 0 || expectNl then invalid server
  else if maxBannerLen < line.length+1 then invalid server
  else .reading n (line ++ [c]) false

def feedAll (server : Bool) : Progress → Bytes → Progress
  | progress,[] => progress
  | .reading n line expectNl,c::rest => feedAll server (feed server n line expectNl c) rest
  | .finished result reply,_::_ => .finished result reply

def start : Progress := .reading 0 [] false

section Reader
variable {server : Bool}

theorem feedAllAppend (progress : Progress) (first second : Bytes) :
    feedAll server progress (first ++ second) = feedAll server (feedAll server progress first) second := by
  induction first generalizing progress with
  | nil => rfl
  | cons c first ih =>
    cases progress with
    | reading n line expectNl => exact ih _
    | finished result reply =>
      cases second <;> rfl

theorem feedAllFinished (result : Except BannerError Peer) (reply bytes : Bytes) :
    feedAll server (.finished result reply) bytes = .finished result reply := by
  cases bytes <;> rfl

structure Clean (line : Bytes) : Prop where
  noCr : cr ∉ line
  noLf : lf ∉ line
  noNul : 0 ∉ line

theorem cleanAppend {first second : Bytes} : Clean (first ++ second) ↔ Clean first ∧ Clean second := by
  refine ⟨?_,?_⟩
  · intro clean
    refine ⟨⟨?_,?_,?_⟩,⟨?_,?_,?_⟩⟩
    · exact fun member => clean.noCr (List.mem_append_left _ member)
    · exact fun member => clean.noLf (List.mem_append_left _ member)
    · exact fun member => clean.noNul (List.mem_append_left _ member)
    · exact fun member => clean.noCr (List.mem_append_right _ member)
    · exact fun member => clean.noLf (List.mem_append_right _ member)
    · exact fun member => clean.noNul (List.mem_append_right _ member)
  · intro clean
    refine ⟨?_,?_,?_⟩ <;> intro member <;> rcases List.mem_append.mp member with left | right
    · exact clean.1.noCr left
    · exact clean.2.noCr right
    · exact clean.1.noLf left
    · exact clean.2.noLf right
    · exact clean.1.noNul left
    · exact clean.2.noNul right

theorem cleanOne {c : UInt8} : Clean [c] ↔ c ≠ cr ∧ c ≠ lf ∧ c ≠ 0 := by
  refine ⟨?_,?_⟩
  · intro clean
    refine ⟨?_,?_,?_⟩
    · exact fun same => clean.noCr (List.mem_singleton.mpr same.symm)
    · exact fun same => clean.noLf (List.mem_singleton.mpr same.symm)
    · exact fun same => clean.noNul (List.mem_singleton.mpr same.symm)
  · intro others
    obtain ⟨noCr,noLf,noNul⟩ := others
    refine ⟨?_,?_,?_⟩
    · exact fun member => noCr (List.mem_singleton.mp member).symm
    · exact fun member => noLf (List.mem_singleton.mp member).symm
    · exact fun member => noNul (List.mem_singleton.mp member).symm

theorem feedClean {n : Nat} {before line : Bytes} (clean : Clean line) (short : (before ++ line).length ≤ maxBannerLen) :
    feedAll server (.reading n before false) line = .reading n (before ++ line) false := by
  induction line generalizing before with
  | nil => rw [List.append_nil,feedAll]
  | cons c line ih =>
    have split : before ++ c::line = before ++ [c] ++ line := by simp
    have parts := cleanAppend.mp (show Clean ([c] ++ line) from clean)
    obtain ⟨noCr,noLf,noNul⟩ := cleanOne.mp parts.1
    have room : ¬maxBannerLen < before.length+1 := by
      rw [List.length_append,List.length_cons] at short
      omega
    rw [split] at short ⊢
    rw [feedAll,feed,if_neg noCr,if_neg noLf,if_neg (by simpa using noNul),if_neg room]
    exact ih parts.2 short

def written (lines : List (Bytes × Nat)) : Bytes :=
  lines.flatMap (fun line => line.1 ++ (List.replicate line.2 cr ++ [lf]))

structure Preamble (server : Bool) (lines : List (Bytes × Nat)) : Prop where
  others : ∀ other ∈ lines, Clean other.1 ∧ other.1.length ≤ maxBannerLen ∧ isBanner other.1 = false
  few : lines.length < maxPreBannerLines
  first : server = true → lines = []

structure Stands (server : Bool) (bytes : Bytes) (n : Nat) (line : Bytes) (expectNl : Bool)
    (lines : List (Bytes × Nat)) (returns : Nat) : Prop where
  bytes : bytes = written lines ++ (line ++ List.replicate returns cr)
  count : lines.length = n
  flag : expectNl = decide (returns ≠ 0)
  line : Clean line ∧ line.length ≤ maxBannerLen
  preamble : Preamble server lines

theorem identifyEnds (server : Bool) (line : Bytes) : ∃ result reply, identify server line = .finished result reply := by
  rw [identify]
  split
  · exact ⟨_,_,rfl⟩
  · simp only
    split
    · exact ⟨_,_,rfl⟩
    · split
      · exact ⟨_,_,rfl⟩
      · split <;> exact ⟨_,_,rfl⟩

theorem feedReading {n n' : Nat} {line line' : Bytes} {expectNl expectNl' : Bool} {c : UInt8}
    (done : feed server n line expectNl c = .reading n' line' expectNl') :
    (c = cr ∧ n' = n ∧ line' = line ∧ expectNl' = true) ∨
    (c = lf ∧ isBanner line = false ∧ server = false ∧ n+1 < maxPreBannerLines ∧ n' = n+1 ∧ line' = [] ∧
      expectNl' = false) ∨
    (Clean [c] ∧ expectNl = false ∧ line.length+1 ≤ maxBannerLen ∧ n' = n ∧ line' = line ++ [c] ∧
      expectNl' = false) := by
  rw [feed] at done
  split at done
  · rename_i ret
    cases done
    exact .inl ⟨ret,rfl,rfl,rfl⟩
  · rename_i noCr
    split at done
    · rename_i newline
      rw [endLine] at done
      split at done
      · obtain ⟨result,reply,ends⟩ := identifyEnds server line
        rw [ends] at done
        cases done
      · rename_i other
        split at done
        · cases done
        · rename_i client
          split at done
          · cases done
          · rename_i few
            cases done
            exact .inr (.inl ⟨newline,Bool.eq_false_iff.mpr other,Bool.eq_false_iff.mpr client,Nat.not_le.mp few,rfl,rfl,rfl⟩)
    · rename_i noLf
      split at done
      · cases done
      · rename_i plain
        split at done
        · cases done
        · rename_i room
          cases done
          simp only [Bool.or_eq_true,decide_eq_true_eq,not_or,Bool.not_eq_true] at plain
          exact .inr (.inr ⟨cleanOne.mpr ⟨noCr,noLf,plain.1⟩,plain.2,Nat.not_lt.mp room,rfl,rfl,rfl⟩)

theorem readingStands {bytes line : Bytes} {n : Nat} {expectNl : Bool}
    (reading : feedAll server start bytes = .reading n line expectNl) :
    ∃ lines returns, Stands server bytes n line expectNl lines returns := by
  induction bytes using List.reverseRecOn generalizing n line expectNl with
  | nil =>
    cases reading
    exact ⟨[],0,rfl,rfl,rfl,⟨⟨by simp,by simp,by simp⟩,Nat.zero_le _⟩,⟨by simp,by decide,fun _ => rfl⟩⟩
  | append_singleton bytes c ih =>
    rw [feedAllAppend] at reading
    cases before : feedAll server start bytes with
    | finished result reply =>
      rw [before,feedAllFinished] at reading
      cases reading
    | reading m prior expecting =>
      obtain ⟨lines,returns,stands⟩ := ih before
      rw [before,feedAll] at reading
      rcases feedReading reading with ret | newline | byte
      · obtain ⟨rfl,rfl,rfl,rfl⟩ := ret
        refine ⟨lines,returns+1,?_,stands.count,by simp,stands.line,stands.preamble⟩
        rw [stands.bytes,List.replicate_succ',List.append_assoc,List.append_assoc]
      · obtain ⟨rfl,other,client,few,rfl,rfl,rfl⟩ := newline
        have longer : (lines ++ [(prior,returns)]).length = m+1 := by
          rw [List.length_append,stands.count,List.length_singleton]
        refine ⟨lines ++ [(prior,returns)],0,?_,longer,rfl,⟨⟨by simp,by simp,by simp⟩,Nat.zero_le _⟩,
          ⟨?_,longer ▸ few,?_⟩⟩
        · rw [stands.bytes,written,written,List.flatMap_append]
          simp
        · intro any member
          rcases List.mem_append.mp member with old | new
          · exact stands.preamble.others any old
          · rw [List.mem_singleton.mp new]
            exact ⟨stands.line.1,stands.line.2,other⟩
        · intro impossible
          rw [client] at impossible
          cases impossible
      · obtain ⟨clean,plain,room,rfl,rfl,rfl⟩ := byte
        have none : returns = 0 := by
          have flag := stands.flag
          rw [plain] at flag
          simpa using flag.symm
        subst returns
        refine ⟨lines,0,?_,stands.count,rfl,⟨cleanAppend.mpr ⟨stands.line.1,clean⟩,?_⟩,stands.preamble⟩
        · rw [stands.bytes]
          simp
        · rw [List.length_append,List.length_singleton]
          exact room

structure Suits (server : Bool) (peer : Peer) : Prop where
  tagged : isBanner peer.version = true
  scanned : ∃ remoteMajor remoteMinor remoteVersion,
    scanBanner peer.version = some (remoteMajor,remoteMinor,remoteVersion) ∧
    mismatch remoteMajor remoteMinor = false ∧ peer.compat = compatBanner remoteVersion
  welcome : server = true → peer.compat &&& bugProbe = 0 ∧ peer.compat &&& bugScanner = 0

theorem identifyOk {line reply : Bytes} {peer : Peer} (tagged : isBanner line = true) :
    identify server line = .finished (.ok peer) reply ↔ peer.version = line ∧ Suits server peer ∧ reply = [] := by
  refine ⟨?_,?_⟩
  · intro done
    rw [identify] at done
    split at done
    · cases done
    · rename_i major minor text scanned
      simp only at done
      split at done
      · cases done
      · rename_i same
        split at done
        · cases done
        · rename_i noProbe
          split at done
          · cases done
          · rename_i noScan
            cases done
            refine ⟨rfl,⟨tagged,⟨major,minor,text,scanned,Bool.eq_false_iff.mpr same,rfl⟩,?_⟩,rfl⟩
            intro isServer
            simpa [isServer] using And.intro noProbe noScan
  · intro suits
    obtain ⟨rfl,⟨_,⟨major,minor,text,scanned,same,flags⟩,welcome⟩,rfl⟩ := suits
    rw [identify,scanned]
    simp only [same,← flags]
    cases server with
    | false => rfl
    | true =>
      obtain ⟨noProbe,noScan⟩ := welcome rfl
      simp [noProbe,noScan]

theorem feedAccepts {n : Nat} {line reply : Bytes} {expectNl : Bool} {c : UInt8} {peer : Peer}
    (done : feed server n line expectNl c = .finished (.ok peer) reply) :
    c = lf ∧ peer.version = line ∧ Suits server peer ∧ reply = [] := by
  rw [feed] at done
  split at done
  · cases done
  · split at done
    · rename_i newline
      rw [endLine] at done
      split at done
      · rename_i tagged
        exact ⟨newline,(identifyOk tagged).mp done⟩
      · split at done
        · cases done
        · split at done <;> cases done
    · split at done
      · cases done
      · split at done <;> cases done

theorem feedReturns (n : Nat) (line : Bytes) (expectNl : Bool) (returns : Nat) :
    feedAll server (.reading n line expectNl) (List.replicate returns cr) =
      .reading n line (expectNl || decide (returns ≠ 0)) := by
  induction returns generalizing expectNl with
  | zero => simp [feedAll]
  | succ returns ih =>
    rw [List.replicate_succ,feedAll,feed,if_pos rfl,ih]
    simp

theorem feedLine {n returns : Nat} {line : Bytes} (clean : Clean line) (short : line.length ≤ maxBannerLen)
    (rest : Bytes) :
    feedAll server (.reading n [] false) (line ++ (List.replicate returns cr ++ lf::rest)) =
      feedAll server (endLine server n line) rest := by
  have read : feedAll server (.reading n [] false) line = .reading n line false := @feedClean server n [] line clean short
  rw [feedAllAppend,read,feedAllAppend,feedReturns]
  rfl

theorem feedPreamble {lines : List (Bytes × Nat)} (preamble : Preamble server lines) (rest : Bytes) :
    feedAll server start (written lines ++ rest) = feedAll server (.reading lines.length [] false) rest := by
  induction lines using List.reverseRecOn generalizing rest with
  | nil => rfl
  | append_singleton lines last ih =>
    have client : server = false := by
      cases server with
      | false => rfl
      | true => exact absurd (preamble.first rfl) (by simp)
    have few := preamble.few
    rw [List.length_append,List.length_singleton] at few
    have earlier : Preamble server lines := by
      refine ⟨fun other member => preamble.others other (List.mem_append_left _ member),by omega,?_⟩
      intro impossible
      rw [client] at impossible
      cases impossible
    obtain ⟨clean,short,other⟩ := preamble.others last (List.mem_append_right _ List.mem_cons_self)
    have split : written (lines ++ [last]) ++ rest =
        written lines ++ (last.1 ++ (List.replicate last.2 cr ++ lf::rest)) := by
      rw [written,written,List.flatMap_append]
      simp
    rw [split,ih earlier,feedLine clean short,endLine,other,client,List.length_append,List.length_singleton]
    simp only [Bool.false_eq_true,if_false]
    rw [if_neg (Nat.not_le.mpr few)]

theorem bannerAcceptedIff (server : Bool) (bytes reply : Bytes) (peer : Peer) :
    feedAll server start bytes = .finished (.ok peer) reply ↔ reply = [] ∧ Suits server peer ∧
      Clean peer.version ∧ peer.version.length ≤ maxBannerLen ∧ ∃ lines returns rest, Preamble server lines ∧
        bytes = written lines ++ (peer.version ++ (List.replicate returns cr ++ lf::rest)) := by
  refine ⟨?_,?_⟩
  · intro done
    induction bytes using List.reverseRecOn with
    | nil => cases done
    | append_singleton bytes c ih =>
      rw [feedAllAppend] at done
      cases before : feedAll server start bytes with
      | finished result other =>
        rw [before,feedAllFinished] at done
        obtain ⟨none,suits,clean,short,lines,returns,rest,preamble,rfl⟩ := ih (before.trans done)
        refine ⟨none,suits,clean,short,lines,returns,rest ++ [c],preamble,?_⟩
        simp
      | reading n line expectNl =>
        obtain ⟨lines,returns,stands⟩ := readingStands before
        rw [before,feedAll,feedAll] at done
        obtain ⟨rfl,rfl,suits,none⟩ := feedAccepts done
        refine ⟨none,suits,stands.line.1,stands.line.2,lines,returns,[],stands.preamble,?_⟩
        rw [stands.bytes]
        simp
  · intro form
    obtain ⟨rfl,suits,clean,short,lines,returns,rest,preamble,rfl⟩ := form
    rw [feedPreamble preamble,feedLine clean short,endLine,if_pos suits.tagged,
      (identifyOk suits.tagged).mpr ⟨rfl,suits,rfl⟩,feedAllFinished]

/- Returns are not counted: any number of them can stand before a newline. -/
def counted (bytes : Bytes) : Nat := (bytes.filter (· ≠ cr)).length

theorem countedAppend (first second : Bytes) : counted (first ++ second) = counted first+counted second := by
  rw [counted,List.filter_append,List.length_append]
  rfl

theorem countedReturns (returns : Nat) : counted (List.replicate returns cr) = 0 := by
  rw [counted,List.length_eq_zero_iff,List.filter_eq_nil_iff]
  intro c member
  rw [List.eq_of_mem_replicate member]
  simp

theorem countedLe (bytes : Bytes) : counted bytes ≤ bytes.length := List.length_filter_le _ _

theorem countedWritten {lines : List (Bytes × Nat)} (short : ∀ line ∈ lines, line.1.length ≤ maxBannerLen) :
    counted (written lines) ≤ lines.length*(maxBannerLen+1) := by
  induction lines with
  | nil => exact Nat.zero_le _
  | cons line more ih =>
    have rest := ih (fun other member => short other (List.mem_cons_of_mem _ member))
    have here := (countedLe line.1).trans (short line List.mem_cons_self)
    have newline : counted [lf] = 1 := rfl
    rw [written,List.flatMap_cons,countedAppend,countedAppend,countedAppend,countedReturns,newline,← written,
      List.length_cons,Nat.succ_mul]
    omega

def readLimit (server : Bool) : Nat := if server then maxBannerLen else maxPreBannerLines*(maxBannerLen+1)

theorem readsBounded (server : Bool) (bytes : Bytes) :
    (∃ result reply, feedAll server start bytes = .finished result reply) ∨ counted bytes ≤ readLimit server := by
  cases progress : feedAll server start bytes with
  | finished result reply => exact .inl ⟨result,reply,rfl⟩
  | reading n line expectNl =>
    obtain ⟨lines,returns,stands⟩ := readingStands progress
    have before := countedWritten (fun other member => (stands.preamble.others other member).2.1)
    have here := (countedLe line).trans stands.line.2
    have few := stands.preamble.few
    right
    rw [stands.bytes,countedAppend,countedAppend,countedReturns,readLimit]
    cases server with
    | true =>
      rw [stands.preamble.first rfl]
      simp only [if_true]
      exact (Nat.zero_add _).le.trans here
    | false =>
      have total : lines.length*(maxBannerLen+1)+(maxBannerLen+1) ≤ maxPreBannerLines*(maxBannerLen+1) := by
        rw [← Nat.succ_mul]
        exact Nat.mul_le_mul_right _ few
      simp only [Bool.false_eq_true,if_false]
      omega

end Reader

end SesLabs.SshBanner
