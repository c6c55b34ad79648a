import CfEngine.Libutils.Scanf
import CfEngine.CfServerd.Server

namespace CfEngine

def translatePath (old : CString) : CString :=
  old.take (cfBufSize - 1)

-- The path is resolved apart from its last node.
def resolveFilename (fs : FileSystem) (req_path : CString) : Option CString := do
  let req_dir := chopLastNode <| req_path.take (cfBufSize - 1)
  let req_filename := (readLastNode req_path).take (cfBufSize - 1)
  let res_path ← fs.realpath req_dir
  return (addSlash res_path ++ req_filename).take (cfBufSize - 1)

-- The path of a rule as it is compared with the requested one.
def transPath (ap : Auth) : CString :=
  ap.path.take (cfBufSize - 1)

def pathCovers (transpath transrequest : CString) : Bool :=
  (transpath.length < transrequest.length ∧ transpath.isPrefixOf transrequest ∧
    transrequest[transpath.length]? = some '/') ∨ transpath = transrequest ∨ transpath = ['/']

namespace Matchers

variable (m : Matchers)

def isListed (conn : ServerConnectionState) (list : List Item) : Bool :=
  m.isMatchItemIn (list.map Item.name) (mapAddress conn.ipaddr) ∨ m.isRegexItemIn list conn.hostname

-- The loop over the rules that admit, with the access, the mapping to root, and the last path that has
-- been compared.
def admitLoop (fs : FileSystem) (conn : ServerConnectionState) (transrequest : CString)
    (encrypt : Bool) : List Auth → CString → Bool × Bool × CString
  | [], transpath => (false, false, transpath)
  | ap :: aps, _  =>
    let transpath := transPath ap
    if pathCovers transpath transrequest ∧ (fs.stat transpath).isSome then
      if ¬encrypt ∧ ap.encrypt then
        (false, false, transpath)
      else
        (m.isListed conn ap.accesslist, m.isListed conn ap.maproot, transpath)
    else
      admitLoop fs conn transrequest encrypt aps transpath

-- The access, and the connection with its mapping to root.
def accessControl (fs : FileSystem) (sv : ServerAccess) (conn : ServerConnectionState)
    (req_path : CString) (encrypt : Bool) : Bool × ServerConnectionState :=
  let translated_req_path := translatePath req_path
  let transrequest := (resolveFilename fs translated_req_path).getD
    (fs.unresolved translated_req_path)
  if fs.lstat transrequest = none ∨ sv.admitAuth.isEmpty then
    (false, conn)
  else
    let (access, maproot, transpath) := m.admitLoop fs conn transrequest encrypt sv.admitAuth []
    let denied := transpath.isPrefixOf transrequest ∧
      sv.deny.any fun ap => m.isRegexItemIn ap.accesslist conn.hostname
    (access && !denied, { conn with maproot := maproot && conn.rsa_auth })

-- The loop over the rules that admit, with the access and the mapping to root so far.
def literalAdmitLoop (conn : ServerConnectionState) (name : CString) (encrypt : Bool) :
    List Auth → Bool → Bool → Bool × Bool
  | [], access, maproot        => (access, maproot)
  | ap :: aps, access, maproot =>
    if ap.path = name then
      if ¬ap.literal ∧ ¬ap.var then
        (false, maproot)
      else if ¬encrypt ∧ ap.encrypt then
        (false, maproot)
      else
        literalAdmitLoop conn name encrypt aps (access || m.isListed conn ap.accesslist)
          (maproot || m.isListed conn ap.maproot)
    else
      literalAdmitLoop conn name encrypt aps access maproot

-- The name in the request for a literal, a query or a call back.
def literalName (input : CString) : CString :=
  let format :=
    if "VAR".toList.isPrefixOf input then
      scanLiteral "VAR".toList ++ [.blanks, .line 255]
    else if "CALL_ME_BACK".toList.isPrefixOf input then
      scanLiteral "CALL_ME_BACK".toList ++ [.blanks, .line 255]
    else
      scanLiteral "QUERY".toList ++ [.blanks, .word 128]
  (assignedText (sscanf input format) 0).getD []

def literalAccessControl (sv : ServerAccess) (conn : ServerConnectionState) (input : CString)
    (encrypt : Bool) : Bool × ServerConnectionState :=
  let name := literalName input
  let (access, maproot) := m.literalAdmitLoop conn name encrypt sv.varadmit false false
  let denied := sv.vardeny.any fun ap => ap.path = name ∧ m.isListed conn ap.accesslist
  (access && !denied, { conn with maproot := maproot && conn.rsa_auth })

def contextAdmitLoop (conn : ServerConnectionState) (name : CString) (encrypt : Bool) :
    List Auth → Bool → Bool → Bool × Bool
  | [], access, maproot        => (access, maproot)
  | ap :: aps, access, maproot =>
    if fullTextMatch m.pcre ap.path name then
      if ¬ap.classpattern then
        contextAdmitLoop conn name encrypt aps false maproot
      else if ¬encrypt ∧ ap.encrypt then
        (false, maproot)
      else
        contextAdmitLoop conn name encrypt aps (access || m.isListed conn ap.accesslist)
          (maproot || m.isListed conn ap.maproot)
    else
      contextAdmitLoop conn name encrypt aps access maproot

-- The loop over the candidates. What has been found out about the access is kept from one candidate to
-- the next.
def contextMatches (sv : ServerAccess) (conn : ServerConnectionState) (encrypt : Bool) :
    List CString → Bool → Bool → List CString × Bool
  | [], _, maproot               => ([], maproot)
  | name :: names, access, maproot =>
    let (access, maproot) := m.contextAdmitLoop conn name encrypt sv.varadmit access maproot
    let denied := sv.vardeny.any fun ap => ap.path = name ∧ m.isListed conn ap.accesslist
    let access := access && !denied
    let (found, maproot) := contextMatches sv conn encrypt names access maproot
    (if access then name :: found else found, maproot)

-- The persistent classes that are sent are given with the times of their expiry. The text `garbage`
-- is what the request leaves in the buffer for the pattern if it has none.
def contextAccessControl (sv : ServerAccess) (conn : ServerConnectionState) (input : CString)
    (encrypt : Bool) (states : List (CString × Int)) (now : Int) (garbage : CString) :
    List CString × ServerConnectionState :=
  let format := scanLiteral "CONTEXT".toList ++ [.blanks, .line 255]
  let client_regex := (assignedText (sscanf input format) 0).getD garbage
  let candidates := states.filter fun (key, expires) =>
    now ≤ expires ∧ fullTextMatch m.pcre client_regex key
  let (found, maproot) := m.contextMatches sv conn encrypt (candidates.map Prod.fst) false conn.maproot
  (found, { conn with maproot := maproot })

-- The scalars that `RlistFromSplitRegex` makes without blanks, of which there are up to `max`.
def rolesFromSplit : CString → CString → Nat → List CString
  | node, [], max     => if max = 0 ∨ node = [] then [] else [node.reverse.take (cfMaxVarSize - 1)]
  | node, c :: s, max =>
    if max = 0 then
      []
    else if c ∈ [',', ':', ';'] then
      if node = [] then rolesFromSplit [] s max else node.reverse :: rolesFromSplit [] s (max - 1)
    else
      rolesFromSplit (c :: node) s max

def mayActivate (conn : ServerConnectionState) (ap : Auth) : Bool :=
  let userid1 := (conn.username ++ '@' :: conn.hostname).take (cfMaxVarSize - 1)
  let userid2 := (conn.username ++ '@' :: conn.ipaddr).take (cfMaxVarSize - 1)
  m.isListed conn ap.accesslist ∨ m.isRegexItemIn ap.accesslist userid1 ∨
    m.isRegexItemIn ap.accesslist userid2 ∨ m.isRegexItemIn ap.accesslist conn.username

-- Every rule that matches a role has to permit it, and some rule has to match.
def authorizeRoles (sv : ServerAccess) (conn : ServerConnectionState) (args : CString) : Bool :=
  let sp := args.drop (if "--define".toList.isPrefixOf args then 8 else 2) |>.dropWhile (· = ' ')
  let defines := rolesFromSplit [] sp 99
  let rules := defines.flatMap fun role => sv.roles.filter fun ap => fullTextMatch m.pcre ap.path role
  rules ≠ [] ∧ rules.all (m.mayActivate conn)

end Matchers

-- The rule for the path applies to the request.
def Covers (path request : CString) : Prop :=
  path = request ∨ path = ['/'] ∨ ∃ rest, request = path ++ '/' :: rest

instance (path request : CString) : Decidable (Covers path request) :=
  decidable_of_iff (path = request ∨ path = ['/'] ∨ (path ++ ['/']).isPrefixOf request) <| by
    simp only [Covers, List.isPrefixOf_iff_prefix, List.IsPrefix]
    simp [eq_comm]

namespace Matchers

variable (m : Matchers)

-- The class of the entry, if it has one, is defined.
def InForce (item : Item) : Prop :=
  item.classes = none ∨ m.ctx.isDefinedClass item.classes none = true

def MatchesAddress (conn : ServerConnectionState) (item : Item) : Prop :=
  m.fuzzySetMatch item.name (mapAddress conn.ipaddr) = true ∨
    isRegex item.name = true ∧ fullTextMatch m.pcre item.name (mapAddress conn.ipaddr) = true

-- The entry is a pattern for the name of the host.
def MatchesName (conn : ServerConnectionState) (item : Item) : Prop :=
  m.InForce item ∧ fullTextMatch m.pcre item.name conn.hostname = true

-- The name of the host is a pattern for the entry.
def MatchedByName (conn : ServerConnectionState) (item : Item) : Prop :=
  m.InForce item ∧ fullTextMatch m.pcre conn.hostname item.name = true

def Matches (conn : ServerConnectionState) (item : Item) : Prop :=
  m.MatchesAddress conn item ∨ m.MatchesName conn item

-- The first rule in the order of the list that covers the request.
def firstRule (sv : ServerAccess) (request : CString) : Option Auth :=
  sv.admitAuth.find? fun ap => decide (Covers ap.path request)

structure Admits (sv : ServerAccess) (request : CString) (encrypt : Bool) (ap : Auth) : Prop where
  first   : firstRule sv request = some ap
  encrypt : ap.encrypt = true → encrypt = true

-- What the rules say about the access.
def GrantedByRules (sv : ServerAccess) (conn : ServerConnectionState) (request : CString)
    (encrypt : Bool) : Prop :=
  (∃ ap, Admits sv request encrypt ap ∧ ∃ item ∈ ap.accesslist, m.Matches conn item) ∧
  ¬∃ ap ∈ sv.deny, Covers ap.path request ∧ ∃ item ∈ ap.accesslist, m.Matches conn item

-- The list has the peer, although no entry of it is known to match.
def ListedAnyway (conn : ServerConnectionState) (list : List Item) : Prop :=
  mapAddress conn.ipaddr = [] ∨ ∃ item ∈ list, m.MatchedByName conn item

-- Some rule that denies, for whatever path, has an entry that is related to the name of the host.
def DeniesName (sv : ServerAccess) (conn : ServerConnectionState) : Prop :=
  ∃ ap ∈ sv.deny, ∃ item ∈ ap.accesslist, m.MatchesName conn item ∨ m.MatchedByName conn item

-- If the first rule admits the peer, a rule denies the name exactly if a rule for the path denies the
-- peer. If no entry of the first rule matches, but its list has the peer, some rule denies the name.
structure KeepsToRules (sv : ServerAccess) (conn : ServerConnectionState) (request : CString)
    (encrypt : Bool) : Prop where
  denied   : ∀ ap, Admits sv request encrypt ap → (∃ item ∈ ap.accesslist, m.Matches conn item) →
    (m.DeniesName sv conn ↔
      ∃ ap ∈ sv.deny, Covers ap.path request ∧ ∃ item ∈ ap.accesslist, m.Matches conn item)
  reversed : ∀ ap, Admits sv request encrypt ap → (∀ item ∈ ap.accesslist, ¬m.Matches conn item) →
    m.ListedAnyway conn ap.accesslist → m.DeniesName sv conn

variable {m} {fs : FileSystem} {sv : ServerAccess} {conn : ServerConnectionState}
  {req_path request transpath path : CString} {encrypt : Bool} {ap : Auth} {aps : List Auth}

theorem pathCovers_iff : pathCovers path request = true ↔ Covers path request := by
  simp only [pathCovers, Covers, decide_eq_true_eq, List.isPrefixOf_iff_prefix]
  constructor
  case mp =>
    intro h
    rcases h with ⟨_, ⟨rest, hr⟩, hs⟩ | h | h
    · subst hr
      match rest with
      | []        => simp at hs
      | c :: rest =>
        have hc : c = '/' := by simpa using hs
        exact .inr <| .inr ⟨rest, hc ▸ rfl⟩
    · exact .inl h
    · exact .inr <| .inl h
  case mpr =>
    intro h
    rcases h with h | h | ⟨rest, h⟩
    · exact .inr <| .inl h
    · exact .inr <| .inr h
    · exact .inl ⟨by simp [h], ⟨_, h.symm⟩, by simp [h]⟩

theorem isRegexItemIn_iff {list : List Item} : m.isRegexItemIn list conn.hostname = true ↔
    ∃ item ∈ list, m.MatchesName conn item ∨ m.MatchedByName conn item := by
  simp only [isRegexItemIn, EvalContext.isRegexItemIn, List.any_eq_true, decide_eq_true_eq]
  refine exists_congr fun item => and_congr_right fun _ => ?_
  simp only [MatchesName, MatchedByName, InForce, ← and_or_left]
  refine and_congr_right fun _ => ?_
  rw [or_comm (a := fullTextMatch m.pcre item.name conn.hostname = true)]
  refine ⟨fun h => h.elim (fun he => .inl ?_) id, .inr⟩
  simp [fullTextMatch, he]

theorem isListed_iff {list : List Item} : m.isListed conn list = true ↔
    (∃ item ∈ list, m.Matches conn item) ∨ m.ListedAnyway conn list := by
  have hmatch : m.isMatchItemIn (list.map Item.name) (mapAddress conn.ipaddr) = true ↔
      mapAddress conn.ipaddr = [] ∨ ∃ item ∈ list, m.MatchesAddress conn item := by
    simp only [isMatchItemIn, decide_eq_true_eq, List.any_map, List.any_eq_true,
      Function.comp_apply, MatchesAddress]
  rw [isListed, decide_eq_true_eq, hmatch, isRegexItemIn_iff]
  simp only [Matches, ListedAnyway, and_or_left, exists_or]
  grind

theorem transPath_eq (h : (fs.stat ap.path).isSome = true) : transPath ap = ap.path := by
  have ⟨s, hs⟩ := Option.isSome_iff_exists.mp h
  exact List.take_of_length_le <| Nat.le_pred_of_lt <| fs.stat_length _ s hs

-- The loop goes to the first rule that covers the request.
theorem admitLoop_of_find (hp : ∀ ap ∈ aps, (fs.stat ap.path).isSome = true)
    (h : aps.find? (fun ap => decide (Covers ap.path request)) = some ap) :
    m.admitLoop fs conn request encrypt aps transpath =
      if ¬encrypt ∧ ap.encrypt then (false, false, ap.path)
      else (m.isListed conn ap.accesslist, m.isListed conn ap.maproot, ap.path) := by
  induction aps generalizing transpath
  case nil => cases h
  case cons ap' aps ih =>
    have ⟨hs, hp⟩ := List.forall_mem_cons.mp hp
    rw [admitLoop, transPath_eq hs]
    by_cases hc : Covers ap'.path request
    case pos =>
      have hap : ap' = ap := by simpa [List.find?_cons, hc] using h
      cases hap
      exact if_pos ⟨pathCovers_iff.mpr hc, hs⟩
    case neg =>
      rw [if_neg fun h => hc <| pathCovers_iff.mp h.left]
      exact ih hp <| by simpa [List.find?_cons, hc] using h

theorem admitLoop_of_find_eq_none (hp : ∀ ap ∈ aps, (fs.stat ap.path).isSome = true)
    (h : aps.find? (fun ap => decide (Covers ap.path request)) = none) :
    (m.admitLoop fs conn request encrypt aps transpath).1 = false := by
  induction aps generalizing transpath
  case nil => rfl
  case cons ap' aps ih =>
    have ⟨hs, hp⟩ := List.forall_mem_cons.mp hp
    have hc : ¬Covers ap'.path request := by simpa using List.find?_eq_none.mp h ap' (.head _)
    rw [admitLoop, transPath_eq hs, if_neg fun h => hc <| pathCovers_iff.mp h.left]
    exact ih hp <| by simpa [List.find?_cons, hc] using h

theorem head?_addSlash {str : CString} (h : str.head? = some '/') :
    (addSlash str).head? = some '/' := by
  rw [addSlash]
  split
  case isTrue  => exact h
  case isFalse => simp [List.head?_append, h]

theorem resolveFilename_absolute (h : resolveFilename fs req_path = some request) :
    request.head? = some '/' := by
  have ⟨res_path, hr, h⟩ := Option.bind_eq_some_iff.mp h
  cases Option.some.inj h
  have hs := head?_addSlash <| fs.realpath_absolute _ _ hr
  simp [List.head?_take, cfBufSize, List.head?_append, hs]

theorem isPrefixOf_of_covers (h : Covers path request) (hr : request.head? = some '/') :
    path.isPrefixOf request = true := by
  rw [List.isPrefixOf_iff_prefix]
  rcases h with rfl | rfl | ⟨rest, rfl⟩
  · exact List.prefix_rfl
  · have ⟨rest, hrest⟩ := List.head?_eq_some_iff.mp hr
    exact ⟨rest, hrest.symm⟩
  · exact List.prefix_append ..

theorem firstRule_covers (h : firstRule sv request = some ap) : Covers ap.path request := by
  simpa using List.find?_some h

theorem deniesName_iff : m.DeniesName sv conn ↔
    (sv.deny.any fun ap => m.isRegexItemIn ap.accesslist conn.hostname) = true := by
  simp only [DeniesName, List.any_eq_true, isRegexItemIn_iff]

-- What the code decides.
theorem accessControl_iff (hr : resolveFilename fs (translatePath req_path) = some request)
    (hl : (fs.lstat request).isSome = true) (hp : ∀ ap ∈ sv.admitAuth, (fs.stat ap.path).isSome = true) :
    (m.accessControl fs sv conn req_path encrypt).1 = true ↔
      (∃ ap, Admits sv request encrypt ap ∧
        ((∃ item ∈ ap.accesslist, m.Matches conn item) ∨ m.ListedAnyway conn ap.accesslist)) ∧
      ¬m.DeniesName sv conn := by
  have hl' : fs.lstat request ≠ none := Option.isSome_iff_ne_none.mp hl
  rw [accessControl, hr, Option.getD_some, deniesName_iff]
  cases hf : firstRule sv request
  case none =>
    have hn : ¬∃ ap, Admits sv request encrypt ap ∧ ((∃ item ∈ ap.accesslist, m.Matches conn item) ∨
        m.ListedAnyway conn ap.accesslist) := fun ⟨_, ha, _⟩ => by simpa [hf] using ha.first
    split
    case isTrue  => simp [hn]
    case isFalse => simp [hn, admitLoop_of_find_eq_none hp hf]
  case some ap =>
    have hadmit : ¬(fs.lstat request = none ∨ sv.admitAuth.isEmpty = true) := by
      rintro (h | h)
      · exact hl' h
      · simp [firstRule, List.isEmpty_iff.mp h] at hf
    have hpre := isPrefixOf_of_covers (firstRule_covers hf) <| resolveFilename_absolute hr
    have hex : (∃ ap, Admits sv request encrypt ap ∧ ((∃ item ∈ ap.accesslist, m.Matches conn item) ∨
        m.ListedAnyway conn ap.accesslist)) ↔
        (ap.encrypt = true → encrypt = true) ∧ m.isListed conn ap.accesslist = true := by
      rw [isListed_iff]
      constructor
      case mp =>
        intro ⟨ap', ha, hm⟩
        cases Option.some.inj <| hf.symm.trans ha.first
        exact ⟨ha.encrypt, hm⟩
      case mpr => exact fun ⟨he, hm⟩ => ⟨ap, ⟨hf, he⟩, hm⟩
    rw [if_neg hadmit, admitLoop_of_find hp hf, hex]
    by_cases he : ap.encrypt = true → encrypt = true
    case pos =>
      have he' : ¬(¬encrypt = true ∧ ap.encrypt = true) := fun h => h.left <| he h.right
      rw [if_neg he', and_iff_right he]
      simp [hpre]
    case neg =>
      have he' : ¬encrypt = true ∧ ap.encrypt = true := by simpa [and_comm] using he
      rw [if_pos he']
      simp [he]

-- The code grants what the rules grant, exactly if the denying rules and the name keep to the rules.
theorem accessControl_iff_grantedByRules
    (hr : resolveFilename fs (translatePath req_path) = some request)
    (hl : (fs.lstat request).isSome = true) (hp : ∀ ap ∈ sv.admitAuth, (fs.stat ap.path).isSome = true) :
    ((m.accessControl fs sv conn req_path encrypt).1 = true ↔
      m.GrantedByRules sv conn request encrypt) ↔ m.KeepsToRules sv conn request encrypt := by
  have hunique {ap ap'} (h : Admits sv request encrypt ap) (h' : Admits sv request encrypt ap') :
      ap = ap' := Option.some.inj <| h.first.symm.trans h'.first
  rw [accessControl_iff hr hl hp]
  constructor
  case mp =>
    intro h
    constructor
    case denied =>
      intro ap ha hm
      have h : (¬m.DeniesName sv conn) ↔ ¬∃ ap ∈ sv.deny, Covers ap.path request ∧
          ∃ item ∈ ap.accesslist, m.Matches conn item :=
        ⟨fun hd => (h.mp ⟨⟨ap, ha, .inl hm⟩, hd⟩).right, fun hd => (h.mpr ⟨⟨ap, ha, hm⟩, hd⟩).right⟩
      exact not_iff_not.mp h
    case reversed =>
      intro ap ha hm hl
      apply Classical.byContradiction
      intro hd
      have ⟨⟨ap', ha', item, hi, hm'⟩, _⟩ := h.mp ⟨⟨ap, ha, .inr hl⟩, hd⟩
      cases hunique ha ha'
      exact hm item hi hm'
  case mpr =>
    intro hk
    constructor
    case mp =>
      intro ⟨⟨ap, ha, hm⟩, hd⟩
      have hm : ∃ item ∈ ap.accesslist, m.Matches conn item := by
        cases hm
        case inl hm => exact hm
        case inr hl =>
          apply Classical.byContradiction
          exact fun hm => hd <| hk.reversed ap ha (fun item hi h => hm ⟨item, hi, h⟩) hl
      exact ⟨⟨ap, ha, hm⟩, fun h => hd <| (hk.denied ap ha hm).mpr h⟩
    case mpr =>
      intro ⟨⟨ap, ha, hm⟩, hd⟩
      exact ⟨⟨ap, ha, .inl hm⟩, fun h => hd <| (hk.denied ap ha hm).mp h⟩

-- The rules let all of the peers with the address `1` see `/a`, and no peer with the name `h` see `/b`.
def publicAccess : ServerAccess where
  allowuserlist := []
  trustkeylist  := []
  skipverify    := []
  admitAuth     := [rule ['/', 'a'] ['1']]
  deny          := [rule ['/', 'b'] ['h']]
  varadmit      := []
  vardeny       := []
  roles         := []
where
  rule (path name : CString) : Auth := ⟨path, [⟨name, none⟩], [], false, false, false, false⟩

theorem publicAccess_granted :
    (plainMatchers.accessControl publicServer publicAccess (publicPeer ['g']) ['/', 'a'] false).1 = true ↔
      plainMatchers.GrantedByRules publicAccess (publicPeer ['g']) ['/', 'a'] false := by
  refine (accessControl_iff_grantedByRules
    (show resolveFilename publicServer (translatePath ['/', 'a']) = some ['/', 'a'] from rfl) rfl <|
    by decide).mpr ⟨fun ap ha hm => iff_of_false ?_ ?_, fun ap ha hm => ?_⟩
  · rintro ⟨rule, hr, item, hi, hmatch⟩
    cases List.mem_singleton.mp hr
    cases List.mem_singleton.mp hi
    obtain ⟨-, hmatch⟩ | ⟨-, hmatch⟩ := hmatch <;> exact absurd hmatch (by decide)
  · rintro ⟨rule, hr, hcovers, -⟩
    cases List.mem_singleton.mp hr
    exact absurd hcovers (by decide)
  · cases ha.first
    exact absurd (.inl <| .inl <| by decide) <| hm _ List.mem_cons_self

-- The peer that must not see `/b` does not see `/a` either.
theorem accessControl_not_grantedByRules :
    ¬∀ (m : Matchers) (fs : FileSystem) (sv : ServerAccess) (conn : ServerConnectionState)
      (req_path request : CString) (encrypt : Bool),
      resolveFilename fs (translatePath req_path) = some request →
      (fs.lstat request).isSome = true → (∀ ap ∈ sv.admitAuth, (fs.stat ap.path).isSome = true) →
      ((m.accessControl fs sv conn req_path encrypt).1 = true ↔
        m.GrantedByRules sv conn request encrypt) := by
  intro h
  have h := h plainMatchers publicServer publicAccess (publicPeer ['h']) ['/', 'a'] ['/', 'a'] false
    rfl rfl (by decide)
  have hdeny : (plainMatchers.accessControl publicServer publicAccess (publicPeer ['h']) ['/', 'a']
      false).1 = false := by decide
  apply Bool.false_ne_true
  rw [← hdeny]
  apply h.mpr
  constructor
  case left  => exact ⟨_, ⟨rfl, id⟩, _, .head _, .inl <| .inl <| by decide⟩
  case right =>
    intro ⟨ap, ha, hc, _⟩
    cases List.mem_singleton.mp ha
    exact absurd hc <| by decide

end Matchers
end CfEngine
