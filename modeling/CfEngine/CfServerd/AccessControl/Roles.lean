import CfEngine.CfServerd.AccessControl

namespace CfEngine.Matchers

variable (m : Matchers) (sv : ServerAccess) (conn : ServerConnectionState)

-- The arguments that start with an option and the list of classes for it.
def Gives (args list : CString) : Prop :=
  ∃ option ∈ ["--define", "-D"], ∃ n, args = option.toList ++ (List.replicate n ' ' ++ list) ∧ list.head? ≠ some ' '

def requestedClasses (list : CString) : List CString :=
  list.splitOnP (· ∈ [',', ':', ';']) |>.filter (· ≠ [])

-- The rule allows the peer to activate what it matches.
def Authorises (ap : Auth) : Prop :=
  m.isListed conn ap.accesslist ∨ m.isRegexItemIn ap.accesslist (conn.username ++ '@' :: conn.hostname) ∨
    m.isRegexItemIn ap.accesslist (conn.username ++ '@' :: conn.ipaddr) ∨ m.isRegexItemIn ap.accesslist conn.username

-- Some rule is about the class.
def Known (role : CString) : Prop :=
  ∃ ap ∈ sv.roles, fullTextMatch m.pcre ap.path role

-- The rules about the class allow the peer to activate it.
def Unopposed (role : CString) : Prop :=
  ∀ ap ∈ sv.roles, fullTextMatch m.pcre ap.path role → m.Authorises conn ap

-- The names fit in the variables for them.
structure FitsRoles (list : CString) : Prop where
  classes : ∀ role ∈ requestedClasses list, role.length < cfMaxVarSize
  userid1 : (conn.username ++ '@' :: conn.hostname).length < cfMaxVarSize
  userid2 : (conn.username ++ '@' :: conn.ipaddr).length < cfMaxVarSize

-- If the peer may activate one of the first 99 classes, and no rule about them is against it, then rules are about
-- all of these classes, and the peer may activate the others.
def Unmixed (list : CString) : Prop :=
  (∀ role ∈ (requestedClasses list).take 99, m.Unopposed sv conn role) →
    (∃ role ∈ (requestedClasses list).take 99, m.Known sv role) →
      (∀ role ∈ (requestedClasses list).take 99, m.Known sv role) ∧
        ∀ role ∈ (requestedClasses list).drop 99, m.Known sv role ∧ m.Unopposed sv conn role

variable {m sv conn} {args list node s : CString} {max : Nat}

theorem rolesFromSplit_eq
    (h : ∀ role ∈ s.splitOnPPrepend (· ∈ [',', ':', ';']) node, role.length < cfMaxVarSize) :
    rolesFromSplit node s max = (s.splitOnPPrepend (· ∈ [',', ':', ';']) node |>.filter (· ≠ [])).take max := by
  induction s generalizing node max
  case nil =>
    have hn : node.reverse.length < cfMaxVarSize := h _ <| by simp
    have htake : node.reverse.take (cfMaxVarSize - 1) = node.reverse := List.take_of_length_le <| Nat.le_pred_of_lt hn
    rw [rolesFromSplit, List.splitOnPPrepend_nil, htake]
    cases max
    case zero   => simp
    case succ n => by_cases he : node = [] <;> simp [he]
  case cons c s ih =>
    rw [rolesFromSplit]
    split
    case isTrue hm  => rw [hm, List.take_zero]
    case isFalse hm =>
      split
      case isTrue hc  =>
        rw [List.splitOnPPrepend_cons_pos (by simpa using hc)] at h ⊢
        have ih {max} := @ih [] max fun role hr => h role <| .tail _ hr
        split
        case isTrue he  => rw [ih]; simp [he]
        case isFalse he =>
          rw [ih, List.filter_cons_of_pos (by simpa using he), List.take_cons <| Nat.pos_of_ne_zero hm]
          rfl
      case isFalse hc =>
        rw [List.splitOnPPrepend_cons_neg (by simpa using hc)] at h ⊢
        exact ih h

theorem classList_of_gives (h : Gives args list) :
    (args.drop (if "--define".toList.isPrefixOf args then 8 else 2) |>.dropWhile (· = ' ')) = list := by
  have ⟨option, ho, n, he, hl⟩ := h
  have hdrop : (List.replicate n ' ' ++ list).dropWhile (· = ' ') = list := by
    rw [List.dropWhile_append_of_pos fun c hc => by simpa using List.eq_of_mem_replicate hc]
    cases list
    case nil         => rfl
    case cons c list => exact List.dropWhile_cons_of_neg <| by simpa using hl
  subst he
  rcases List.mem_cons.mp ho with ho | ho
  · subst ho
    have hp : "--define".toList.isPrefixOf ("--define".toList ++ (List.replicate n ' ' ++ list)) = true :=
      List.isPrefixOf_iff_prefix.mpr <| List.prefix_append ..
    rw [if_pos hp]
    exact hdrop
  · cases List.mem_singleton.mp ho
    exact hdrop

theorem mayActivate_iff {ap : Auth} (h : FitsRoles conn list) :
    m.mayActivate conn ap = true ↔ m.Authorises conn ap := by
  have hid {id : CString} (h : id.length < cfMaxVarSize) : id.take (cfMaxVarSize - 1) = id :=
    List.take_of_length_le <| Nat.le_pred_of_lt h
  rw [mayActivate, hid h.userid1, hid h.userid2]
  exact decide_eq_true_iff

-- The rules about the first 99 classes are taken together.
theorem authorizeRoles_eq_true (hg : Gives args list) (h : FitsRoles conn list) :
    m.authorizeRoles sv conn args = true ↔
      (∃ role ∈ (requestedClasses list).take 99, m.Known sv role) ∧
        ∀ role ∈ (requestedClasses list).take 99, m.Unopposed sv conn role := by
  have hsplit : rolesFromSplit [] list 99 = (requestedClasses list).take 99 := by
    by_cases hf : ∀ role ∈ list.splitOnPPrepend (· ∈ [',', ':', ';']) [], role.length < cfMaxVarSize
    case pos => exact rolesFromSplit_eq hf
    case neg =>
      push Not at hf
      have ⟨role, hr, hl⟩ := hf
      have hne : role ≠ [] := fun he => absurd (he ▸ hl) (by decide)
      exact absurd (h.classes role <| List.mem_filter.mpr ⟨hr, by simpa using hne⟩) <| Nat.not_lt.mpr hl
  rw [authorizeRoles, classList_of_gives hg, hsplit, decide_eq_true_eq]
  simp only [List.all_eq_true, List.mem_flatMap, List.mem_filter, mayActivate_iff h]
  have hne {aps : List Auth} : aps ≠ [] ↔ ∃ ap, ap ∈ aps :=
    ⟨List.exists_mem_of_ne_nil aps, fun ⟨_, h⟩ => List.ne_nil_of_mem h⟩
  rw [hne]
  simp only [List.mem_flatMap, List.mem_filter, Known, Unopposed]
  constructor
  case mp  =>
    intro ⟨⟨ap, role, hr, hap⟩, hall⟩
    exact ⟨⟨role, hr, ap, hap⟩, fun role hr ap ha hm => hall ap ⟨role, hr, ha, hm⟩⟩
  case mpr =>
    intro ⟨⟨role, hr, ap, hap⟩, hall⟩
    exact ⟨⟨ap, role, hr, hap⟩, fun ap ⟨role, hr, ha, hm⟩ => hall role hr ap ha hm⟩

-- A list of classes is allowed as a whole.
def AllowedList (m : Matchers) (sv : ServerAccess) (conn : ServerConnectionState) (list : CString) : Prop :=
  requestedClasses list ≠ [] ∧ ∀ role ∈ requestedClasses list, m.Known sv role ∧ m.Unopposed sv conn role

theorem authorizeRoles_of_allowedList (hg : Gives args list) (h : FitsRoles conn list)
    (ha : m.AllowedList sv conn list) : m.authorizeRoles sv conn args = true := by
  rw [authorizeRoles_eq_true hg h]
  have ⟨role, hr⟩ := List.exists_mem_of_ne_nil _ ha.left
  constructor
  case left  =>
    have hne : (requestedClasses list).take 99 ≠ [] := by simpa using ha.left
    have ⟨role, hr⟩ := List.exists_mem_of_ne_nil _ hne
    exact ⟨role, hr, (ha.right role <| List.mem_of_mem_take hr).left⟩
  case right => exact fun role hr => (ha.right role <| List.mem_of_mem_take hr).right

-- The peer may activate the classes if and only if it may activate each of them, unless the list is mixed.
theorem authorizeRoles_iff_allowedList (m : Matchers) (sv : ServerAccess) (hg : Gives args list)
    (h : FitsRoles conn list) :
    (m.authorizeRoles sv conn args = true ↔ m.AllowedList sv conn list) ↔ m.Unmixed sv conn list := by
  have htake {role : CString} (hr : role ∈ requestedClasses list) :
      role ∈ (requestedClasses list).take 99 ∨ role ∈ (requestedClasses list).drop 99 := by
    rw [← List.mem_append, List.take_append_drop]
    exact hr
  constructor
  case mp  =>
    intro hr hu hk
    have ⟨_, hall⟩ := hr.mp <| (authorizeRoles_eq_true hg h).mpr ⟨hk, hu⟩
    exact ⟨fun role hr => (hall role <| List.mem_of_mem_take hr).left,
      fun role hr => hall role <| List.mem_of_mem_drop hr⟩
  case mpr =>
    intro hu
    refine ⟨fun ha => ?_, authorizeRoles_of_allowedList hg h⟩
    have ⟨⟨role, hr, hk⟩, hun⟩ := (authorizeRoles_eq_true hg h).mp ha
    have ⟨hknown, hrest⟩ := hu hun ⟨role, hr, hk⟩
    refine ⟨List.ne_nil_of_mem <| List.mem_of_mem_take hr, fun role hr => ?_⟩
    cases htake hr
    case inl hr => exact ⟨hknown role hr, hun role hr⟩
    case inr hr => exact hrest role hr

-- The class `a` may be activated by the peer with the address `1`.
def roleAccess : ServerAccess :=
  { publicAccess with roles := [⟨['a'], [⟨['1'], none⟩], [], false, false, false, false⟩] }

-- So may the class `b`.
def rolesAccess : ServerAccess :=
  { roleAccess with roles := ⟨['b'], [⟨['1'], none⟩], [], false, false, false, false⟩ :: roleAccess.roles }

theorem rolesAccess_allowedList :
    plainMatchers.authorizeRoles rolesAccess (publicPeer ['g']) "-Da,b".toList = true ∧
      plainMatchers.AllowedList rolesAccess (publicPeer ['g']) "a,b".toList := by
  have hgranted : plainMatchers.authorizeRoles rolesAccess (publicPeer ['g']) "-Da,b".toList = true := by decide
  have hunmixed : plainMatchers.Unmixed rolesAccess (publicPeer ['g']) "a,b".toList := by
    refine fun _ _ => ⟨fun role hr => ?_, nofun⟩
    obtain rfl | rfl : role = ['a'] ∨ role = ['b'] := by simpa using (show role ∈ [['a'], ['b']] from hr)
    · exact ⟨_, .tail _ <| .head _, by decide⟩
    · exact ⟨_, .head _, by decide⟩
  refine ⟨hgranted, ((authorizeRoles_iff_allowedList plainMatchers rolesAccess ⟨"-D", by decide, 0, rfl, by decide⟩
    ⟨by decide, by decide, by decide⟩).mpr hunmixed).mp hgranted⟩

-- The class `b` is activated beside `a` although no rule is about it.
theorem not_allowedList_of_authorizeRoles :
    ¬∀ (m : Matchers) (sv : ServerAccess) (conn : ServerConnectionState) (args list : CString), Gives args list →
      (m.authorizeRoles sv conn args = true ↔ m.AllowedList sv conn list) := by
  intro h
  have h := h plainMatchers roleAccess (publicPeer ['g']) "-Da,b".toList "a,b".toList
    ⟨"-D", by decide, 0, rfl, by decide⟩
  have hgranted : plainMatchers.authorizeRoles roleAccess (publicPeer ['g']) "-Da,b".toList = true := by decide
  have ⟨ap, ha, hm⟩ := ((h.mp hgranted).right ['b'] (by decide)).left
  cases List.mem_singleton.mp ha
  exact absurd hm (by decide)

end CfEngine.Matchers
