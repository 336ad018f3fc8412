import SesLabs.SshNames

/-! How the client of sshconnect2.c picks authentication methods: authmethod_get and
the loop of userauth, which is called for every list the server sends. Texts are C
strings. Whether a method sends a packet is left to it; in one call of userauth every
method is asked at most once. -/
namespace SesLabs.SshUserauth
open Fields SshMatch SshNames

/- `enabled` and `batch_flag` point to an option or are NULL. -/
structure Authmethod where
  name : Bytes
  enabled : Option Bool
  batchFlag : Option Bool
  deriving DecidableEq, Repr

structure Options where
  gssAuthentication : Bool
  hostbasedAuthentication : Bool
  pubkeyAuthentication : Bool
  kbdInteractiveAuthentication : Bool
  passwordAuthentication : Bool
  batchMode : Bool
  preferredAuthentications : Option Bytes
  deriving DecidableEq, Repr

def authmethods (gssapi : Bool) (options : Options) : List Authmethod :=
  (if gssapi then [⟨ascii "gssapi-with-mic",some options.gssAuthentication,none⟩] else []) ++ [
    ⟨ascii "hostbased",some options.hostbasedAuthentication,none⟩,
    ⟨ascii "publickey",some options.pubkeyAuthentication,none⟩,
    ⟨ascii "keyboard-interactive",some options.kbdInteractiveAuthentication,some options.batchMode⟩,
    ⟨ascii "password",some options.passwordAuthentication,some options.batchMode⟩,
    ⟨ascii "none",none,none⟩]

def authmethodIsEnabled (method : Authmethod) : Bool := method.enabled = some true && method.batchFlag ≠ some true

def authmethodLookup (methods : List Authmethod) (name : Bytes) : Option Authmethod := methods.find? (·.name = name)

def authmethodsGet (methods : List Authmethod) : Bytes :=
  joined comma ((methods.filter authmethodIsEnabled).map Authmethod.name)

/- options.preferred_authentications, which ssh_userauth2 fills in if it is NULL. -/
def preference (gssapi : Bool) (options : Options) : Bytes :=
  options.preferredAuthentications.getD (authmethodsGet (authmethods gssapi options))

structure Auth where
  methods : List Authmethod
  authlist : Option Bytes
  supported : Option Bytes
  preferred : Bytes
  current : Option Bytes
  deriving DecidableEq, Repr

def beginning (methods : List Authmethod) : Auth := ⟨methods,none,none,[],none⟩

def usable (methods : List Authmethod) (name : Bytes) : Bool :=
  match authmethodLookup methods name with
  | none => false
  | some method => authmethodIsEnabled method

def seek (methods : List Authmethod) (supported : Bytes) : Nat → Bytes → Option (Option Bytes × Bytes)
  | 0,_ => none
  | fuel+1,preferred =>
    match matchList preferred supported with
    | (none,_) => some (none,preferred)
    | (some name,next) =>
      if usable methods name then some (some name,preferred.drop next)
      else seek methods supported fuel (preferred.drop next)

def search (auth : Auth) (supported : Bytes) : Option (Option Bytes × Auth) := do
  let (current,preferred) ← seek auth.methods supported ((namesOf auth.preferred).length+1) auth.preferred
  return (current,{ auth with preferred, current })

/- "Use a suitable default if we're passed a nil list." -/
def effective (configured : Bytes) : Option Bytes → Bytes
  | none => configured
  | some authlist => if authlist = [] then configured else authlist

def authmethodGet (configured : Bytes) (authlist : Option Bytes) (auth : Auth) : Option (Option Bytes × Auth) :=
  let authlist := effective configured authlist
  if auth.supported ≠ some authlist then
    search { auth with supported := some authlist, preferred := configured, current := none } authlist
  else
    match auth.current with
    | none => search auth authlist
    | some method => if usable auth.methods method then some (some method,auth) else search auth authlist

/- `method->enabled = NULL`. -/
def disable (methods : List Authmethod) (name : Bytes) : List Authmethod :=
  methods.map (fun method => if method.name = name then { method with enabled := none } else method)

structure Attempt where
  list : Bytes
  method : Bytes
  sent : Bool
  deriving DecidableEq, Repr

def tryMethods (configured : Bytes) (sends : Bytes → Bool) (authlist : Option Bytes) :
    Nat → Auth → Option (List Attempt × Bool × Auth)
  | 0,_ => none
  | fuel+1,auth => do
    let (found,auth) ← authmethodGet configured authlist auth
    match found with
    | none => return ([],false,auth)
    | some method =>
      let attempt : Attempt := ⟨effective configured authlist,method,sends method⟩
      if sends method then return ([attempt],true,auth)
      else
        let (rest,sent,auth) ← tryMethods configured sends authlist fuel
          { auth with methods := disable auth.methods method }
        return (attempt::rest,sent,auth)

structure Call where
  authlist : Option Bytes
  sends : Bytes → Bool

def userauth (configured : Bytes) (auth : Auth) (call : Call) : Option (List Attempt × Bool × Auth) :=
  let authlist := match call.authlist with
    | none => auth.authlist
    | some list => some list
  tryMethods configured call.sends authlist (auth.methods.length+1) { auth with authlist }

def session (configured : Bytes) : Auth → List Call → Option (List Attempt)
  | _,[] => some []
  | auth,call::more => do
    let (log,sent,auth) ← userauth configured auth call
    if sent then
      let rest ← session configured auth more
      return log ++ rest
    else return log

section Table

theorem usableCons (method : Authmethod) (methods : List Authmethod) (name : Bytes) :
    usable (method::methods) name =
      if method.name = name then authmethodIsEnabled method else usable methods name := by
  rw [usable,usable,authmethodLookup,authmethodLookup,List.find?_cons]
  by_cases same : method.name = name <;> simp [same]

theorem usableDisable (methods : List Authmethod) (off name : Bytes) :
    usable (disable methods off) name = (decide (name ≠ off) && usable methods name) := by
  induction methods with
  | nil => simp [disable,usable,authmethodLookup]
  | cons method methods ih =>
    rw [disable,List.map_cons,← disable,usableCons,usableCons]
    by_cases hit : method.name = off
    · rw [if_pos hit]
      by_cases same : method.name = name
      · have gone : name = off := same.symm.trans hit
        simp [same,gone,authmethodIsEnabled]
      · simp [same,ih]
    · rw [if_neg hit]
      by_cases same : method.name = name
      · have other : name ≠ off := fun gone => hit (same.trans gone)
        simp [same,other]
      · simp [same,ih]

theorem disableCount (methods : List Authmethod) (off : Bytes) :
    (disable methods off).countP authmethodIsEnabled ≤ methods.countP authmethodIsEnabled ∧
      (usable methods off = true →
        (disable methods off).countP authmethodIsEnabled < methods.countP authmethodIsEnabled) := by
  induction methods with
  | nil => exact ⟨Nat.le_refl _,fun impossible => by simp [usable,authmethodLookup] at impossible⟩
  | cons method methods ih =>
    obtain ⟨fewer,less⟩ := ih
    rw [disable,List.map_cons,← disable,List.countP_cons,List.countP_cons,usableCons]
    by_cases hit : method.name = off
    · have gone : authmethodIsEnabled { method with enabled := none } = false := rfl
      rw [if_pos hit,if_pos hit,gone]
      refine ⟨by simp only [Bool.false_eq_true,if_false]; omega,?_⟩
      intro enabled
      rw [enabled]
      simp only [Bool.false_eq_true,if_false,if_true]
      omega
    · rw [if_neg hit,if_neg hit]
      exact ⟨by omega,fun later => by have := less later; omega⟩

end Table

/- What matters of the state: the list in force, the preferred names that are left,
the method in use, and the methods that once had nothing to send. -/
structure Menu where
  list : Option Bytes
  left : List Bytes
  current : Option Bytes
  refused : List Bytes

def unusedBy (refused : List Bytes) (attempt : Attempt) : List Bytes :=
  if attempt.sent then refused else attempt.method::refused

inductive Tries (configured : Bytes) (permitted : Bytes → Prop) : Menu → Attempt → Menu → Prop where
  | again {list left method refused sent} (kept : method ∉ refused) :
      Tries configured permitted ⟨some list,left,some method,refused⟩ ⟨list,method,sent⟩
        ⟨some list,left,some method,unusedBy refused ⟨list,method,sent⟩⟩
  | next {list before after current method refused sent} (listed : method ∈ sproposals list)
      (allowed : permitted method) (kept : method ∉ refused) :
      Tries configured permitted ⟨some list,before ++ method::after,current,refused⟩ ⟨list,method,sent⟩
        ⟨some list,after,some method,unusedBy refused ⟨list,method,sent⟩⟩
  | startOver {menu : Menu} {attempt : Attempt} {next : Menu} (other : menu.list ≠ some attempt.list)
      (tries : Tries configured permitted ⟨some attempt.list,namesOf configured,none,menu.refused⟩ attempt next) :
      Tries configured permitted menu attempt next

inductive TriesAll (configured : Bytes) (permitted : Bytes → Prop) : Menu → List Attempt → Menu → Prop where
  | nil (menu) : TriesAll configured permitted menu [] menu
  | cons {menu attempt next rest last} (here : Tries configured permitted menu attempt next)
      (later : TriesAll configured permitted next rest last) : TriesAll configured permitted menu (attempt::rest) last

section Follow
variable {configured : Bytes} {methods : List Authmethod} {auth : Auth} {menu : Menu}

abbrev Permitted (methods : List Authmethod) (name : Bytes) : Prop := usable methods name = true

structure Follows (methods : List Authmethod) (auth : Auth) (menu : Menu) : Prop where
  list : auth.supported = menu.list
  left : namesOf auth.preferred = menu.left
  current : auth.current = menu.current
  small : auth.preferred.length < 2^32
  table : ∀ name, usable auth.methods name = true ↔ Permitted methods name ∧ name ∉ menu.refused

theorem seekSpec {supported preferred : Bytes} {fuel : Nat} (small : preferred.length < 2^32)
    (enough : (namesOf preferred).length < fuel) : ∃ found rest, seek methods supported fuel preferred = some (found,rest) ∧
      ∀ name, found = some name → rest.length < 2^32 ∧ usable methods name = true ∧ name ∈ sproposals supported ∧
        ∃ before, namesOf preferred = before ++ name::namesOf rest := by
  induction fuel generalizing preferred with
  | zero => exact absurd enough (Nat.not_lt_zero _)
  | succ fuel ih =>
    rw [seek]
    cases first : (matchList preferred supported).1 with
    | none =>
      rw [← Prod.mk.eta (p := matchList preferred supported),first]
      exact ⟨none,preferred,rfl,by intro name impossible; cases impossible⟩
    | some name =>
      obtain ⟨before,names,_,listed⟩ := matchListRest small first
      rw [← Prod.mk.eta (p := matchList preferred supported),first]
      simp only
      have shorter : (preferred.drop (matchList preferred supported).2).length < 2^32 := by
        rw [List.length_drop]
        omega
      split
      · rename_i fine
        refine ⟨_,_,rfl,?_⟩
        intro other same
        cases same
        exact ⟨shorter,fine,listed,before,names⟩
      · have less : (namesOf (preferred.drop (matchList preferred supported).2)).length < fuel := by
          rw [names,List.length_append,List.length_cons] at enough
          omega
        obtain ⟨found,rest,done,spec⟩ := ih shorter less
        refine ⟨found,rest,done,?_⟩
        intro other same
        obtain ⟨fits,fine,chosen,between,more⟩ := spec other same
        exact ⟨fits,fine,chosen,before ++ name::between,by rw [names,more]; simp⟩

def Offers (configured : Bytes) (methods : List Authmethod) (menu : Menu) (list : Bytes) (auth : Auth) (name : Bytes) :
    Prop :=
  usable auth.methods name = true ∧ ∀ sent, ∃ next, Tries configured (Permitted methods) menu ⟨list,name,sent⟩ next ∧
    Follows methods (if sent then auth else { auth with methods := disable auth.methods name }) next

theorem Follows.attempted (follows : Follows methods auth menu) (attempt : Attempt) :
    Follows methods (if attempt.sent then auth else { auth with methods := disable auth.methods attempt.method })
      { menu with refused := unusedBy menu.refused attempt } := by
  cases sent : attempt.sent with
  | true =>
    have same : unusedBy menu.refused attempt = menu.refused := by rw [unusedBy,sent]; rfl
    rw [same]
    exact follows
  | false =>
    have more : unusedBy menu.refused attempt = attempt.method::menu.refused := by rw [unusedBy,sent]; rfl
    rw [more]
    refine ⟨follows.list,follows.left,follows.current,follows.small,?_⟩
    intro name
    simp only [Bool.false_eq_true,if_false,usableDisable,Bool.and_eq_true,decide_eq_true_eq,follows.table,List.mem_cons,
      not_or]
    exact ⟨fun ⟨other,allowed,kept⟩ => ⟨allowed,other,kept⟩,fun ⟨allowed,other,kept⟩ => ⟨other,allowed,kept⟩⟩

theorem searchSpec {list : Bytes} (follows : Follows methods auth menu) (force : menu.list = some list) :
    ∃ found after, search auth list = some (found,after) ∧ after.methods = auth.methods ∧
      ∀ name, found = some name → Offers configured methods menu list after name := by
  obtain ⟨found,rest,done,spec⟩ := @seekSpec auth.methods list auth.preferred _ follows.small (Nat.lt_succ_self _)
  refine ⟨found,{ auth with preferred := rest,current := found },by rw [search,done]; rfl,rfl,?_⟩
  intro name same
  obtain ⟨small,fine,listed,before,names⟩ := spec name same
  obtain ⟨allowed,kept⟩ := (follows.table name).mp fine
  refine ⟨fine,?_⟩
  intro sent
  have now : Follows methods { auth with preferred := rest,current := found }
      ⟨some list,namesOf rest,some name,menu.refused⟩ :=
    ⟨follows.list.trans force,rfl,same,small,follows.table⟩
  obtain ⟨menuList,left,current,refused⟩ := menu
  cases force
  have cut : left = before ++ name::namesOf rest := follows.left.symm.trans names
  subst cut
  exact ⟨_,.next listed allowed kept,now.attempted ⟨list,name,sent⟩⟩

theorem getSpec (size : configured.length < 2^32) (follows : Follows methods auth menu) (authlist : Option Bytes) :
    ∃ found after, authmethodGet configured authlist auth = some (found,after) ∧ after.methods = auth.methods ∧
      ∀ name, found = some name → Offers configured methods menu (effective configured authlist) after name := by
  rw [authmethodGet]
  by_cases force : auth.supported = some (effective configured authlist)
  · have listed : menu.list = some (effective configured authlist) := follows.list.symm.trans force
    rw [if_neg (not_not.mpr force)]
    cases now : auth.current with
    | none => exact searchSpec follows listed
    | some method =>
      simp only
      split
      · rename_i fine
        refine ⟨some method,auth,rfl,rfl,?_⟩
        intro name same
        cases same
        obtain ⟨_,kept⟩ := (follows.table method).mp fine
        refine ⟨fine,?_⟩
        intro sent
        obtain ⟨menuList,left,current,refused⟩ := menu
        cases listed
        cases follows.current.symm.trans now
        exact ⟨_,.again kept,follows.attempted ⟨effective configured authlist,method,sent⟩⟩
      · exact searchSpec follows listed
  · rw [if_pos force]
    have other : menu.list ≠ some (effective configured authlist) := fun same => force (follows.list.trans same)
    have reset : Follows methods { auth with
        supported := some (effective configured authlist),preferred := configured,current := none }
        ⟨some (effective configured authlist),namesOf configured,none,menu.refused⟩ :=
      ⟨rfl,rfl,rfl,size,follows.table⟩
    obtain ⟨found,after,done,same,spec⟩ := @searchSpec configured _ _ _ _ reset rfl
    refine ⟨found,after,done,same,?_⟩
    intro name chosen
    obtain ⟨fine,offers⟩ := spec name chosen
    refine ⟨fine,?_⟩
    intro sent
    obtain ⟨next,tries,still⟩ := offers sent
    exact ⟨next,.startOver other tries,still⟩

theorem trySpec (size : configured.length < 2^32) (sends : Bytes → Bool) (authlist : Option Bytes) {fuel : Nat}
    (follows : Follows methods auth menu) (enough : auth.methods.countP authmethodIsEnabled < fuel) :
    ∃ log sent after next, tryMethods configured sends authlist fuel auth = some (log,sent,after) ∧
      TriesAll configured (Permitted methods) menu log next ∧ (sent = true → Follows methods after next) := by
  induction fuel generalizing auth menu with
  | zero => exact absurd enough (Nat.not_lt_zero _)
  | succ fuel ih =>
    obtain ⟨found,after,got,same,spec⟩ := getSpec size follows authlist
    rw [tryMethods,got]
    cases found with
    | none => exact ⟨[],false,after,menu,rfl,.nil menu,by intro impossible; cases impossible⟩
    | some method =>
      obtain ⟨fine,offers⟩ := spec method rfl
      obtain ⟨next,tries,still⟩ := offers (sends method)
      simp only [bind,Option.bind]
      cases sent : sends method with
      | true =>
        rw [sent] at tries still
        exact ⟨_,true,after,next,rfl,.cons tries (.nil next),fun _ => still⟩
      | false =>
        rw [sent] at tries still
        have fewer := (disableCount after.methods method).2 fine
        rw [← same] at enough
        obtain ⟨log,done,last,final,ran,chain,ends⟩ := @ih { after with methods := disable after.methods method } next still
          (by simp only; omega)
        rw [ran]
        exact ⟨_,done,last,final,rfl,.cons tries chain,ends⟩

theorem userauthSpec (size : configured.length < 2^32) (follows : Follows methods auth menu) (call : Call) :
    ∃ log sent after next, userauth configured auth call = some (log,sent,after) ∧
      TriesAll configured (Permitted methods) menu log next ∧ (sent = true → Follows methods after next) := by
  rw [userauth]
  refine trySpec size call.sends _ ?_ (Nat.lt_succ_of_le List.countP_le_length)
  exact ⟨follows.list,follows.left,follows.current,follows.small,follows.table⟩

theorem triesAppend {configured : Bytes} {permitted : Bytes → Prop} {menu middle last : Menu} {first second : List Attempt}
    (one : TriesAll configured permitted menu first middle) (two : TriesAll configured permitted middle second last) :
    TriesAll configured permitted menu (first ++ second) last := by
  induction one with
  | nil => exact two
  | cons here _ ih => exact .cons here (ih two)

theorem sessionSpec (size : configured.length < 2^32) (follows : Follows methods auth menu) (calls : List Call) :
    ∃ log next, session configured auth calls = some log ∧ TriesAll configured (Permitted methods) menu log next := by
  induction calls generalizing auth menu with
  | nil => exact ⟨[],menu,rfl,.nil menu⟩
  | cons call calls ih =>
    obtain ⟨log,sent,after,next,done,chain,ends⟩ := userauthSpec size follows call
    rw [session,done]
    cases sent with
    | false => exact ⟨log,next,rfl,chain⟩
    | true =>
      obtain ⟨rest,last,ran,later⟩ := ih (ends rfl)
      refine ⟨log ++ rest,last,?_,triesAppend chain later⟩
      simp only [bind,Option.bind,if_true,ran]
      rfl

end Follow

section Order
variable {configured : Bytes} {permitted : Bytes → Prop} {menu next last : Menu} {log : List Attempt}

/- The names that are left are the last ones of the preference, and the method in use
stands right before them. -/
structure Known (configured : Bytes) (permitted : Bytes → Prop) (menu : Menu) : Prop where
  left : menu.left <:+ namesOf configured
  current : ∀ method, menu.current = some method → permitted method ∧ method::menu.left <:+ namesOf configured ∧
    ∃ list, menu.list = some list ∧ method ∈ sproposals list

structure Wanted (configured : Bytes) (permitted : Bytes → Prop) (attempt : Attempt) : Prop where
  preferred : attempt.method ∈ namesOf configured
  listed : attempt.method ∈ sproposals attempt.list
  allowed : permitted attempt.method

theorem triesKnown {attempt : Attempt} (tries : Tries configured permitted menu attempt next)
    (known : Known configured permitted menu) : Known configured permitted next ∧ Wanted configured permitted attempt ∧
      attempt.method ∉ menu.refused ∧ next.refused = unusedBy menu.refused attempt := by
  induction tries with
  | again kept =>
    obtain ⟨allowed,place,list,force,listed⟩ := known.current _ rfl
    cases force
    exact ⟨⟨known.left,known.current⟩,⟨place.subset List.mem_cons_self,listed,allowed⟩,kept,rfl⟩
  | @next list before after current method refused sent listed allowed kept =>
    have place : method::after <:+ namesOf configured := (List.suffix_append before _).trans known.left
    refine ⟨⟨(List.suffix_cons _ _).trans place,?_⟩,⟨place.subset List.mem_cons_self,listed,allowed⟩,kept,rfl⟩
    intro other same
    cases same
    exact ⟨allowed,place,list,rfl,listed⟩
  | startOver other tries ih => exact ih ⟨List.suffix_refl _,by intro method impossible; cases impossible⟩

theorem triesAllWanted (chain : TriesAll configured permitted menu log last) (known : Known configured permitted menu)
    {before after : List Attempt} {attempt : Attempt} (cut : log = before ++ attempt::after) :
    Wanted configured permitted attempt ∧ attempt.method ∉ menu.refused ∧
      ∀ earlier ∈ before, earlier.method = attempt.method → earlier.sent = true := by
  induction chain generalizing before with
  | nil => simp at cut
  | @cons menu first next rest last here later ih =>
    obtain ⟨after,wanted,kept,refused⟩ := triesKnown here known
    cases before with
    | nil =>
      cases cut
      exact ⟨wanted,kept,by simp⟩
    | cons earlier before =>
      cases cut
      obtain ⟨wanted,fresh,passed⟩ := ih after rfl
      rw [refused,unusedBy] at fresh
      refine ⟨wanted,?_,?_⟩
      · split at fresh
        · exact fresh
        · exact fun old => fresh (List.mem_cons_of_mem _ old)
      · intro other member same
        rcases List.mem_cons.mp member with here | later
        · subst other
          split at fresh
          · assumption
          · exact absurd (same ▸ List.mem_cons_self) fresh
        · exact passed other later same

def inRow (tried : List (Bytes × Nat)) : List Bytes := tried.flatMap (fun (method,more) => List.replicate (more+1) method)

theorem rowStarts {list method : Bytes} {after stay : List Bytes} {tried : List (Bytes × Nat)}
    (same : ∀ other ∈ stay, other = method) (order : (tried.map Prod.fst).Sublist (after.filter (· ∈ sproposals list)))
    (listed : method ∈ sproposals list) (before : List Bytes) :
    method::(stay ++ inRow tried) = inRow ((method,stay.length)::tried) ∧
      (((method,stay.length)::tried).map Prod.fst).Sublist
        ((before ++ method::after).filter (· ∈ sproposals list)) := by
  have row : stay = List.replicate stay.length method := List.eq_replicate_iff.mpr ⟨rfl,same⟩
  refine ⟨?_,?_⟩
  · rw [inRow,inRow,List.flatMap_cons]
    simp only [List.replicate_succ,← row,List.cons_append]
  · rw [List.map_cons,List.filter_append,List.filter_cons_of_pos (by simpa using listed)]
    exact (order.cons_cons _).trans (List.sublist_append_right _ _)

theorem triesInOrder {list : Bytes} (chain : TriesAll configured permitted menu log last)
    (same : ∀ attempt ∈ log, attempt.list = list) (force : menu.list = some list) :
    ∃ stay tried, log.map Attempt.method = stay ++ inRow tried ∧ (∀ method ∈ stay, menu.current = some method) ∧
      (tried.map Prod.fst).Sublist (menu.left.filter (· ∈ sproposals list)) := by
  induction chain with
  | nil => exact ⟨[],[],rfl,by simp,List.nil_sublist _⟩
  | @cons menu first next rest last here later ih =>
    have others := fun attempt member => same attempt (List.mem_cons_of_mem _ member)
    have mine := same first List.mem_cons_self
    cases here with
    | @again _ left method refused sent kept =>
      cases force
      obtain ⟨stay,tried,methods,current,order⟩ := ih others rfl
      refine ⟨method::stay,tried,?_,?_,order⟩
      · rw [List.map_cons,methods]
        rfl
      · intro other member
        rcases List.mem_cons.mp member with here | later
        · rw [here]
        · exact current other later
    | @next _ before after current method refused sent listed allowed kept =>
      cases force
      obtain ⟨stay,tried,methods,staying,order⟩ := ih others rfl
      have still : ∀ other ∈ stay, other = method := fun other member => (Option.some.inj (staying other member)).symm
      obtain ⟨names,sub⟩ := rowStarts still order listed before
      refine ⟨[],(method,stay.length)::tried,?_,by simp,sub⟩
      rw [List.map_cons,methods,List.nil_append]
      exact names
    | startOver other _ =>
      rw [mine] at other
      exact absurd force other

theorem forcedInOrder {list : Bytes} (chain : TriesAll configured permitted menu log last)
    (known : Known configured permitted menu) (same : ∀ attempt ∈ log, attempt.list = list)
    (force : menu.list = some list) : ∃ tried, log.map Attempt.method = inRow tried ∧
      (tried.map Prod.fst).Sublist ((namesOf configured).filter (· ∈ sproposals list)) := by
  obtain ⟨stay,tried,methods,current,order⟩ := triesInOrder chain same force
  cases stay with
  | nil => exact ⟨tried,methods,order.trans (known.left.sublist.filter _)⟩
  | cons method stay =>
    obtain ⟨_,⟨before,place⟩,_,force',listed⟩ := known.current method (current method List.mem_cons_self)
    cases Option.some.inj (force.symm.trans force')
    have still : ∀ other ∈ stay, other = method := by
      intro other member
      have both := (current method List.mem_cons_self).symm.trans (current other (List.mem_cons_of_mem _ member))
      exact (Option.some.inj both).symm
    obtain ⟨names,sub⟩ := rowStarts still order listed before
    rw [place] at sub
    exact ⟨(method,stay.length)::tried,methods.trans names,sub⟩

theorem segmentInOrder {list : Bytes} (chain : TriesAll configured permitted menu log last)
    (known : Known configured permitted menu) (same : ∀ attempt ∈ log, attempt.list = list) :
    ∃ tried, log.map Attempt.method = inRow tried ∧
      (tried.map Prod.fst).Sublist ((namesOf configured).filter (· ∈ sproposals list)) := by
  by_cases force : menu.list = some list
  · exact forcedInOrder chain known same force
  · cases chain with
    | nil => exact ⟨[],rfl,List.nil_sublist _⟩
    | @cons _ first next rest _ here later =>
      have mine := same first List.mem_cons_self
      cases here with
      | again kept => exact absurd (congrArg some mine) force
      | next listed allowed kept => exact absurd (congrArg some mine) force
      | startOver other tries =>
        have reset : Known configured permitted ⟨some first.list,namesOf configured,none,menu.refused⟩ :=
          ⟨List.suffix_refl _,by intro method impossible; cases impossible⟩
        exact forcedInOrder (.cons tries later) reset same (congrArg some mine)

theorem triesSplit {first second : List Attempt} (chain : TriesAll configured permitted menu (first ++ second) last)
    (known : Known configured permitted menu) : ∃ middle, TriesAll configured permitted menu first middle ∧
      TriesAll configured permitted middle second last ∧ Known configured permitted middle := by
  induction first generalizing menu with
  | nil => exact ⟨menu,.nil menu,chain,known⟩
  | cons attempt first ih =>
    cases chain with
    | cons here later =>
      obtain ⟨middle,one,two,still⟩ := ih later (triesKnown here known).1
      exact ⟨middle,.cons here one,two,still⟩

end Order

section Sessions
variable {configured : Bytes} {methods : List Authmethod}

def openMenu : Menu := ⟨none,[],none,[]⟩

theorem beginningFollows (methods : List Authmethod) : Follows methods (beginning methods) openMenu :=
  ⟨rfl,rfl,rfl,Nat.two_pow_pos 32,fun name => by simp [beginning,openMenu]⟩

theorem openKnown (configured : Bytes) (permitted : Bytes → Prop) : Known configured permitted openMenu :=
  ⟨List.nil_suffix,by intro method impossible; cases impossible⟩

theorem attemptsWanted (size : configured.length < 2^32) (methods : List Authmethod) (calls : List Call) :
    ∃ log, session configured (beginning methods) calls = some log ∧
      ∀ before attempt after, log = before ++ attempt::after →
        attempt.method ∈ namesOf configured ∧ attempt.method ∈ sproposals attempt.list ∧
        usable methods attempt.method = true ∧
        ∀ earlier ∈ before, earlier.method = attempt.method → earlier.sent = true := by
  obtain ⟨log,last,ran,chain⟩ := sessionSpec size (beginningFollows methods) calls
  refine ⟨log,ran,?_⟩
  intro before attempt after cut
  obtain ⟨wanted,_,sent⟩ := triesAllWanted chain (openKnown configured _) cut
  exact ⟨wanted.preferred,wanted.listed,wanted.allowed,sent⟩

theorem attemptsInOrder (size : configured.length < 2^32) {calls : List Call} {before segment after : List Attempt}
    (ran : session configured (beginning methods) calls = some (before ++ (segment ++ after))) {list : Bytes}
    (same : ∀ attempt ∈ segment, attempt.list = list) :
    ∃ tried, segment.map Attempt.method = inRow tried ∧
      (tried.map Prod.fst).Sublist ((namesOf configured).filter (· ∈ sproposals list)) ∧
      ((namesOf configured).Nodup → (tried.map Prod.fst).Nodup) := by
  obtain ⟨log,last,done,chain⟩ := sessionSpec size (beginningFollows methods) calls
  cases Option.some.inj (done.symm.trans ran)
  obtain ⟨middle,_,rest,known⟩ := triesSplit chain (openKnown configured _)
  obtain ⟨final,mine,_,_⟩ := triesSplit rest known
  obtain ⟨tried,methods,order⟩ := segmentInOrder mine known same
  exact ⟨tried,methods,order,fun once => (once.filter _).sublist order⟩

def smallOptions : Options := ⟨false,false,true,true,true,false,none⟩

def smallList : Bytes := ascii "password,publickey"

def smallCalls : List Call :=
  [⟨some smallList,fun _ => true⟩,⟨none,fun _ => true⟩,⟨some smallList,fun method => method = ascii "password"⟩]

def smallLog : List Attempt :=
  [⟨smallList,ascii "publickey",true⟩,⟨smallList,ascii "publickey",true⟩,⟨smallList,ascii "publickey",false⟩,
    ⟨smallList,ascii "password",true⟩]

theorem smallSession :
    session (preference false smallOptions) (beginning (authmethods false smallOptions)) smallCalls = some smallLog := by
  decide +kernel

theorem attemptsWantedSmall : ascii "password" ∈ namesOf (preference false smallOptions) ∧
    ascii "password" ∈ sproposals smallList ∧ usable (authmethods false smallOptions) (ascii "password") = true := by
  obtain ⟨log,ran,every⟩ :=
    @attemptsWanted (preference false smallOptions) (by decide) (authmethods false smallOptions) smallCalls
  cases Option.some.inj (ran.symm.trans smallSession)
  obtain ⟨preferred,listed,allowed,_⟩ := every (smallLog.take 3) ⟨smallList,ascii "password",true⟩ [] rfl
  exact ⟨preferred,listed,allowed⟩

theorem attemptsInOrderSmall : ∃ tried, smallLog.map Attempt.method = inRow tried ∧
    (tried.map Prod.fst).Sublist ((namesOf (preference false smallOptions)).filter (· ∈ sproposals smallList)) ∧
    ((namesOf (preference false smallOptions)).Nodup → (tried.map Prod.fst).Nodup) :=
  @attemptsInOrder _ (authmethods false smallOptions) (by decide) smallCalls [] smallLog []
    (smallSession.trans (by rw [List.append_nil]; rfl)) smallList (by decide)

end Sessions

end SesLabs.SshUserauth
