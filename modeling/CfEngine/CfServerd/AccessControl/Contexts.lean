import CfEngine.CfServerd.AccessControl

namespace CfEngine.Matchers

variable (m : Matchers) (sv : ServerAccess) (conn : ServerConnectionState) (encrypt : Bool)

-- The rules whose paths match the name.
def covering (aps : List Auth) (name : CString) : List Auth :=
  aps.filter fun ap => fullTextMatch m.pcre ap.path name

-- The rule demands encryption, and it is missing.
def Unencrypted (ap : Auth) : Prop :=
  ¬encrypt ∧ ap.encrypt

-- What the rules say about a class on its own.
structure GrantedContext (name : CString) : Prop where
  admitted  : ∃ ap ∈ m.covering sv.varadmit name,
    ap.classpattern ∧ ¬Unencrypted encrypt ap ∧ m.isListed conn ap.accesslist
  encrypted : ∀ ap ∈ m.covering sv.varadmit name, ¬Unencrypted encrypt ap
  allowed   : ∀ ap ∈ sv.vardeny, ap.path = name → ¬m.isListed conn ap.accesslist

-- A rule that changes the access: all rules do that are not patterns for classes, and those that admit the peer.
def speaks (ap : Auth) : Bool :=
  !ap.classpattern || m.isListed conn ap.accesslist

-- The rule that has the last word about a class.
def lastWord (aps : List Auth) (name : CString) : Option Auth :=
  (m.covering aps name).filter (m.speaks conn) |>.getLast?

-- The ways in which a class is not granted whatever the access has been before.
def Refused (name : CString) : Prop :=
  (∃ ap ∈ sv.vardeny, ap.path = name ∧ m.isListed conn ap.accesslist) ∨
    ∃ ap ∈ m.covering sv.varadmit name, ap.classpattern ∧ Unencrypted encrypt ap

-- The class is decided as the rules say, where `before` tells whether the class before it has been granted.
inductive DecidedAlone (before : Prop) (name : CString) : Prop
  | refused (h : m.Refused sv conn encrypt name)
  | silent (h : m.lastWord conn sv.varadmit name = none) (hb : ¬before)
  | admitted (ap : Auth) (h : m.lastWord conn sv.varadmit name = some ap) (hc : ap.classpattern)
    (hu : ∀ ap ∈ m.covering sv.varadmit name, ¬Unencrypted encrypt ap)
  | overruled (ap : Auth) (h : m.lastWord conn sv.varadmit name = some ap) (hc : ¬ap.classpattern)
    (hn : (∀ ap ∈ m.covering sv.varadmit name, ap.classpattern → ¬m.isListed conn ap.accesslist) ∨
      ∃ ap ∈ m.covering sv.varadmit name, Unencrypted encrypt ap)

-- Each of the classes is decided alone.
def AllDecidedAlone : Prop → List CString → Prop
  | _, []               => True
  | before, name :: names =>
    m.DecidedAlone sv conn encrypt before name ∧ AllDecidedAlone (m.GrantedContext sv conn encrypt name) names

variable {m sv conn encrypt} {name : CString} {aps : List Auth} {ap : Auth} {access maproot : Bool} {names : List CString}

theorem covering_cons :
    m.covering (ap :: aps) name =
      if fullTextMatch m.pcre ap.path name then ap :: m.covering aps name else m.covering aps name := by
  rw [covering, List.filter_cons]
  rfl

theorem lastWord_cons (h : fullTextMatch m.pcre ap.path name = true) :
    m.lastWord conn (ap :: aps) name =
      if m.speaks conn ap then some ((m.lastWord conn aps name).getD ap) else m.lastWord conn aps name := by
  rw [lastWord, covering_cons, if_pos h, List.filter_cons]
  split
  case isTrue  => exact List.getLast?_cons
  case isFalse => rfl

-- The loop as a whole: it fails on a pattern for classes that demands encryption, and otherwise the last rule that
-- changes the access decides.
theorem contextAdmitLoop_access :
    (m.contextAdmitLoop conn name encrypt aps access maproot).1 = true ↔
      (∀ ap ∈ m.covering aps name, ap.classpattern → ¬Unencrypted encrypt ap) ∧
        ((m.lastWord conn aps name).map Auth.classpattern).getD access = true := by
  induction aps generalizing access maproot
  case nil => simp [contextAdmitLoop, covering, lastWord]
  case cons ap aps ih =>
    rw [contextAdmitLoop]
    by_cases hm : fullTextMatch m.pcre ap.path name
    case neg =>
      have hc : m.covering (ap :: aps) name = m.covering aps name := by rw [covering_cons, if_neg hm]
      rw [if_neg hm, ih, lastWord, lastWord, hc]
    case pos =>
      rw [if_pos hm, lastWord_cons hm, covering_cons, if_pos hm, List.forall_mem_cons]
      by_cases hp : ap.classpattern
      case neg =>
        have hs : m.speaks conn ap = true := by simp [speaks, hp]
        rw [if_pos hp, if_pos hs, ih]
        cases m.lastWord conn aps name <;> simp [hp]
      case pos =>
        rw [if_neg fun h => h hp]
        by_cases hu : ¬encrypt ∧ ap.encrypt
        case pos =>
          rw [if_pos hu]
          exact iff_of_false Bool.false_ne_true fun h => h.left.left hp hu
        case neg =>
          rw [if_neg hu, ih]
          have hu : ap.classpattern = true → ¬Unencrypted encrypt ap := fun _ => hu
          rw [and_iff_right hu]
          apply and_congr_right
          intro _
          by_cases hl : m.isListed conn ap.accesslist
          case pos => cases m.lastWord conn aps name <;> simp [speaks, hl, hp]
          case neg => simp [speaks, hl, hp]

-- The access to a class after its rules, from the access before it.
def accessAfter (m : Matchers) (sv : ServerAccess) (conn : ServerConnectionState) (encrypt access maproot : Bool)
    (name : CString) : Bool :=
  (m.contextAdmitLoop conn name encrypt sv.varadmit access maproot).1 &&
    !sv.vardeny.any fun ap => ap.path = name ∧ m.isListed conn ap.accesslist

theorem accessAfter_iff :
    m.accessAfter sv conn encrypt access maproot name = true ↔
      ¬m.Refused sv conn encrypt name ∧
        ((m.lastWord conn sv.varadmit name).map Auth.classpattern).getD access = true := by
  have hdenied : (sv.vardeny.any fun ap => ap.path = name ∧ m.isListed conn ap.accesslist) = true ↔
      ∃ ap ∈ sv.vardeny, ap.path = name ∧ m.isListed conn ap.accesslist := by
    simp only [List.any_eq_true, decide_eq_true_eq]
  rw [accessAfter, Bool.and_eq_true, contextAdmitLoop_access, Bool.not_eq_true', ← Bool.not_eq_true, hdenied, Refused]
  simp only [not_or, not_exists, not_and]
  grind

theorem GrantedContext.not_refused (h : m.GrantedContext sv conn encrypt name) : ¬m.Refused sv conn encrypt name
  | .inl ⟨ap, ha, hp, hl⟩ => h.allowed ap ha hp hl
  | .inr ⟨ap, ha, _, hu⟩  => h.encrypted ap ha hu

theorem not_admitted_of_silent (h : m.lastWord conn sv.varadmit name = none) :
    ¬m.GrantedContext sv conn encrypt name := by
  intro hg
  have ⟨ap, ha, _, _, hl⟩ := hg.admitted
  have hnil := List.getLast?_eq_none_iff.mp h
  have hmem := List.mem_filter.mpr ⟨ha, show m.speaks conn ap = true by simp [speaks, hl]⟩
  exact List.ne_nil_of_mem hmem hnil

theorem lastWord_mem (h : m.lastWord conn sv.varadmit name = some ap) :
    ap ∈ m.covering sv.varadmit name ∧ m.speaks conn ap = true :=
  List.mem_filter.mp <| List.mem_of_getLast? h

theorem grantedContext_iff_of_admitted (hr : ¬m.Refused sv conn encrypt name)
    (h : m.lastWord conn sv.varadmit name = some ap) (hc : ap.classpattern) :
    m.GrantedContext sv conn encrypt name ↔ ∀ ap ∈ m.covering sv.varadmit name, ¬Unencrypted encrypt ap := by
  have ⟨ha, hs⟩ := lastWord_mem h
  have hl : m.isListed conn ap.accesslist = true := by simpa [speaks, hc] using hs
  constructor
  case mp  => exact GrantedContext.encrypted
  case mpr =>
    intro hu
    exact ⟨⟨ap, ha, hc, hu ap ha, hl⟩, hu, fun ap ha hp hl => hr <| .inl ⟨ap, ha, hp, hl⟩⟩

theorem not_grantedContext_iff (hr : ¬m.Refused sv conn encrypt name) :
    ¬m.GrantedContext sv conn encrypt name ↔
      (∀ ap ∈ m.covering sv.varadmit name, ap.classpattern → ¬m.isListed conn ap.accesslist) ∨
        ∃ ap ∈ m.covering sv.varadmit name, Unencrypted encrypt ap := by
  constructor
  case mp  =>
    intro hg
    by_contra hn
    have ⟨hl, hu⟩ := not_or.mp hn
    push Not at hl hu
    have ⟨ap, ha, hc, hl⟩ := hl
    exact hg ⟨⟨ap, ha, hc, hu ap ha, hl⟩, hu, fun ap ha hp hl => hr <| .inl ⟨ap, ha, hp, hl⟩⟩
  case mpr =>
    intro h hg
    cases h
    case inl h =>
      have ⟨ap, ha, hc, _, hl⟩ := hg.admitted
      exact h ap ha hc hl
    case inr h =>
      have ⟨ap, ha, hu⟩ := h
      exact hg.encrypted ap ha hu

-- One class: what the code finds is what the rules say if and only if it is decided alone.
theorem accessAfter_iff_grantedContext :
    (m.accessAfter sv conn encrypt access maproot name = true ↔ m.GrantedContext sv conn encrypt name) ↔
      m.DecidedAlone sv conn encrypt (access = true) name := by
  rw [accessAfter_iff]
  by_cases hr : m.Refused sv conn encrypt name
  case pos => exact iff_of_true (iff_of_false (fun h => h.left hr) fun h => h.not_refused hr) <| .refused hr
  case neg =>
    rw [and_iff_right hr]
    cases h : m.lastWord conn sv.varadmit name
    case none =>
      rw [Option.map_none, Option.getD_none, iff_false_right <| not_admitted_of_silent h]
      constructor
      case mp  => exact .silent h
      case mpr =>
        intro hd
        cases hd
        case refused hr'     => exact absurd hr' hr
        case silent _ hb     => exact hb
        case admitted _ h' _ _  => exact nomatch h.symm.trans h'
        case overruled _ h' _ _ => exact nomatch h.symm.trans h'
    case some ap =>
      rw [Option.map_some, Option.getD_some]
      by_cases hc : ap.classpattern
      case pos =>
        rw [iff_true_left hc, grantedContext_iff_of_admitted hr h hc]
        constructor
        case mp  => exact .admitted ap h hc
        case mpr =>
          intro hd
          cases hd
          case refused hr'          => exact absurd hr' hr
          case silent h' _          => exact nomatch h.symm.trans h'
          case admitted _ _ _ hu    => exact hu
          case overruled _ h' hc' _ => exact absurd (Option.some.inj (h.symm.trans h') ▸ hc) hc'
      case neg =>
        rw [iff_false_left hc, not_grantedContext_iff hr]
        constructor
        case mp  => exact .overruled ap h hc
        case mpr =>
          intro hd
          cases hd
          case refused hr'         => exact absurd hr' hr
          case silent h' _         => exact nomatch h.symm.trans h'
          case admitted _ h' hc' _ => exact absurd (Option.some.inj (h.symm.trans h') ▸ hc') hc
          case overruled _ _ _ hn  => exact hn

theorem contextMatches_cons :
    (m.contextMatches sv conn encrypt (name :: names) access maproot).1 =
      let after := m.accessAfter sv conn encrypt access maproot name
      let found := (m.contextMatches sv conn encrypt names after
        (m.contextAdmitLoop conn name encrypt sv.varadmit access maproot).2).1
      if after then name :: found else found := rfl

theorem contextMatches_subset : ∀ {names access maproot},
    (m.contextMatches sv conn encrypt names access maproot).1 ⊆ names := by
  intro names
  induction names
  case nil =>
    intro _ _
    exact List.Subset.refl _
  case cons name names ih =>
    intro access maproot
    rw [contextMatches_cons]
    dsimp only
    split
    case isTrue  => exact List.cons_subset_cons _ ih
    case isFalse => exact List.Subset.trans ih <| List.subset_cons_self ..

-- The loop over the classes, each of which starts with the access to the one before it.
theorem contextMatches_iff (hn : names.Nodup) :
    (∀ name, name ∈ (m.contextMatches sv conn encrypt names access maproot).1 ↔
      name ∈ names ∧ m.GrantedContext sv conn encrypt name) ↔
    m.AllDecidedAlone sv conn encrypt (access = true) names := by
  induction names generalizing access maproot
  case nil => simp [contextMatches, AllDecidedAlone]
  case cons name names ih =>
    have ⟨hnot, hn⟩ := List.nodup_cons.mp hn
    rw [AllDecidedAlone, ← @accessAfter_iff_grantedContext _ _ _ _ _ _ maproot, contextMatches_cons]
    dsimp only
    generalize hafter : m.accessAfter sv conn encrypt access maproot name = after
    have ih := @ih after (m.contextAdmitLoop conn name encrypt sv.varadmit access maproot).2 hn
    have hrest : name ∉ (m.contextMatches sv conn encrypt names after
        (m.contextAdmitLoop conn name encrypt sv.varadmit access maproot).2).1 := fun h => hnot <| contextMatches_subset h
    constructor
    case mp  =>
      intro h
      have hname : after = true ↔ m.GrantedContext sv conn encrypt name := by
        have := h name
        cases after <;> simp_all
      refine ⟨hname, ?_⟩
      rw [← hname, ← ih]
      intro x
      have hx := h x
      by_cases he : x = name
      case pos => exact iff_of_false (he ▸ hrest) fun h => hnot <| he ▸ h.left
      case neg => cases after <;> simpa [he] using hx
    case mpr =>
      intro ⟨hname, h⟩
      rw [← hname, ← ih] at h
      intro x
      have hx := h x
      by_cases he : x = name
      case pos => subst he; cases after <;> simp_all
      case neg => cases after <;> simpa [he] using hx

-- The expression of the client as it is in the buffer for it.
def clientRegex (input garbage : CString) : CString :=
  (assignedText (sscanf input (scanLiteral "CONTEXT".toList ++ [.blanks, .line 255])) 0).getD garbage

-- The classes that have not expired and match the expression, in the order of the database.
def contextCandidates (m : Matchers) (input : CString) (states : List (CString × Int)) (now : Int)
    (garbage : CString) : List CString :=
  states.filter (fun (key, expires) => now ≤ expires ∧ fullTextMatch m.pcre (clientRegex input garbage) key)
    |>.map Prod.fst

theorem mem_contextCandidates {input garbage : CString} {states : List (CString × Int)} {now : Int} :
    name ∈ m.contextCandidates input states now garbage ↔
      (∃ expires, (name, expires) ∈ states ∧ now ≤ expires) ∧ fullTextMatch m.pcre (clientRegex input garbage) name := by
  simp only [contextCandidates, List.mem_map, List.mem_filter, decide_eq_true_eq]
  constructor
  case mp  =>
    intro ⟨(key, expires), ⟨hs, he, hm⟩, hk⟩
    subst hk
    exact ⟨⟨expires, hs, he⟩, hm⟩
  case mpr => exact fun ⟨⟨expires, hs, he⟩, hm⟩ => ⟨(name, expires), ⟨hs, he, hm⟩, rfl⟩

-- The classes that are sent are the ones that the rules grant if and only if each of them is decided alone.
theorem contextAccessControl_iff (m : Matchers) (sv : ServerAccess) (conn : ServerConnectionState) (input : CString)
    (encrypt : Bool) (now : Int) (garbage : CString) {states : List (CString × Int)}
    (hn : (states.map Prod.fst).Nodup) :
    (∀ name, name ∈ (m.contextAccessControl sv conn input encrypt states now garbage).1 ↔
      (∃ expires, (name, expires) ∈ states ∧ now ≤ expires) ∧
        fullTextMatch m.pcre (clientRegex input garbage) name ∧ m.GrantedContext sv conn encrypt name) ↔
    m.AllDecidedAlone sv conn encrypt False (m.contextCandidates input states now garbage) := by
  have hn : (m.contextCandidates input states now garbage).Nodup := hn.sublist <| List.filter_sublist.map _
  have hfound : (m.contextAccessControl sv conn input encrypt states now garbage).1 =
    (m.contextMatches sv conn encrypt (m.contextCandidates input states now garbage) false conn.maproot).1 := rfl
  rw [hfound, ← Bool.false_eq_true, ← @contextMatches_iff _ _ _ _ _ conn.maproot _ hn]
  simp only [mem_contextCandidates, and_assoc]

-- Texts match if they are equal, and `.*` matches every text.
def starMatchers : Matchers :=
  { plainMatchers with pcre := fun regexp teststring => regexp = ['.', '*'] ∨ regexp = teststring }

-- The class `a` is granted to the peer with the address `1`.
def contextAccess : ServerAccess :=
  { publicAccess with varadmit := [⟨['a'], [⟨['1'], none⟩], [], false, false, true, false⟩] }

theorem contextAccessControl_star :
    ['a'] ∈ (starMatchers.contextAccessControl contextAccess (publicPeer ['g']) "CONTEXT .*".toList false
        [(['b'], 2), (['a'], 2)] 1 []).1 ∧
      ['b'] ∉ (starMatchers.contextAccessControl contextAccess (publicPeer ['g']) "CONTEXT .*".toList false
        [(['b'], 2), (['a'], 2)] 1 []).1 := by
  have halone : starMatchers.AllDecidedAlone contextAccess (publicPeer ['g']) false False [['b'], ['a']] := by
    refine ⟨.silent rfl id, .admitted _ rfl rfl fun ap ha => ?_, trivial⟩
    cases List.mem_singleton.mp ha
    exact fun h => Bool.false_ne_true h.right
  have hn : ([(['b'], (2 : Int)), (['a'], 2)].map Prod.fst).Nodup := by decide
  have hiff :=
    (contextAccessControl_iff starMatchers contextAccess (publicPeer ['g']) "CONTEXT .*".toList false 1 [] hn).mpr halone
  have ha : starMatchers.GrantedContext contextAccess (publicPeer ['g']) false ['a'] := by
    refine ⟨⟨_, List.mem_singleton_self _, rfl, fun h => Bool.false_ne_true h.right, rfl⟩, fun ap ha => ?_, nofun⟩
    cases List.mem_singleton.mp ha
    exact fun h => Bool.false_ne_true h.right
  constructor
  case left  => exact (hiff ['a']).mpr ⟨⟨2, by decide, by decide⟩, rfl, ha⟩
  case right =>
    intro hb
    obtain ⟨-, -, hgranted⟩ := (hiff ['b']).mp hb
    obtain ⟨_, hm, -⟩ := hgranted.admitted
    exact absurd hm List.not_mem_nil

-- The class after one that is granted is sent although no rule is about it.
theorem not_contextAccessControl :
    ¬∀ (m : Matchers) (sv : ServerAccess) (conn : ServerConnectionState) (input : CString) (encrypt : Bool)
      (states : List (CString × Int)) (now : Int) (garbage : CString), (states.map Prod.fst).Nodup → ∀ name,
      (name ∈ (m.contextAccessControl sv conn input encrypt states now garbage).1 ↔
        (∃ expires, (name, expires) ∈ states ∧ now ≤ expires) ∧
          fullTextMatch m.pcre (clientRegex input garbage) name ∧ m.GrantedContext sv conn encrypt name) := by
  intro h
  have h := h starMatchers contextAccess (publicPeer ['g']) "CONTEXT .*".toList false [(['a'], 2), (['b'], 2)] 1 []
    (by decide) ['b']
  have hfound : ['b'] ∈ (starMatchers.contextAccessControl contextAccess (publicPeer ['g']) "CONTEXT .*".toList false
      [(['a'], 2), (['b'], 2)] 1 []).1 := by decide
  have ⟨ap, ha, _⟩ := (h.mp hfound).right.right.admitted
  have hnone : starMatchers.covering contextAccess.varadmit ['b'] = [] := rfl
  exact List.not_mem_nil <| hnone ▸ ha

end CfEngine.Matchers
