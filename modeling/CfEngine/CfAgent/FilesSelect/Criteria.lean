import CfEngine.CfAgent.FilesSelect

namespace CfEngine

-- The bits to be set are set unless they are to be taken away, and those to be taken away are not.
def AgreesWith (mode plus minus : BitVec 32) : Prop :=
  ∀ i < 12, (minus.getLsbD i → ¬mode.getLsbD i) ∧ (plus.getLsbD i → minus.getLsbD i ∨ mode.getLsbD i)

-- One of the items is true of the number and the name, or is a regular expression that matches one of them.
def MatchesId (fs : LeafSystem) (id : Nat) (name : Option CString) (crit : List CString) : Prop :=
  ∃ item ∈ crit, evalFileResult item {Nat.toDigits 10 id, name.getD noName} ∨
    (∃ n, name = some n ∧ fullTextMatch fs.pcre item n) ∨ fullTextMatch fs.pcre item (Nat.toDigits 10 id)

def IsLinkTo (fs : LeafSystem) (path : CString) (crit : List CString) : Prop :=
  ¬(fs.lstat path).any sIsdir ∧ ∃ target, fs.readlink path = some target ∧
    ∃ item ∈ crit, fullTextMatch fs.pcre item (target.take (cfBufSize - 1))

-- A line of what the command puts out matches.
def PutsOutMatch (fs : LeafSystem) (path : CString) (a : FileSelect) : Prop :=
  ∃ crit prog lines, a.exec_regex = some crit ∧ a.exec_program = some prog ∧
    fs.cf_popen (substituted path prog) = some lines ∧ ∃ line ∈ lines, fullTextMatch fs.pcre crit line

def ReturnsZero (fs : LeafSystem) (path : CString) (a : FileSelect) : Prop :=
  ∃ prog, a.exec_program = some prog ∧ fs.shellCommandReturnsZero (substituted path prog)

-- What the file is asked for, except for its name and path.
def otherCriteria (fs : LeafSystem) (path : CString) (sb : FileStat) (a : FileSelect) : List (CString × Prop) :=
  [(SelectToken.fileTypes, ∃ crit ∈ a.filetypes, evalFileResult crit (typeAttr sb.st_mode)),
    (SelectToken.owner, a.owners = [] ∨ MatchesId fs sb.st_uid (getOwnerName fs sb) a.owners),
    (SelectToken.group, a.groups = [] ∨ MatchesId fs sb.st_gid (fs.getgrgid sb.st_gid) a.groups),
    (SelectToken.mode, ∃ crit ∈ a.perms, (parseModeString (some crit)).accepted ∧
      AgreesWith sb.st_mode (parseModeString (some crit)).plusmask (parseModeString (some crit)).minusmask),
    (SelectToken.atime, a.min_atime < sb.st_atime ∧ sb.st_atime < a.max_atime),
    (SelectToken.ctime, a.min_ctime < sb.st_ctime ∧ sb.st_ctime < a.max_ctime),
    (SelectToken.size, a.min_size ≤ sb.st_size ∧ sb.st_size ≤ a.max_size),
    (SelectToken.mtime, a.min_mtime < sb.st_mtime ∧ sb.st_mtime < a.max_mtime),
    (SelectToken.issymlinkto, IsLinkTo fs path a.issymlinkto),
    (SelectToken.execRegex, PutsOutMatch fs path a),
    (SelectToken.execProgram, ReturnsZero fs path a)]

-- The criteria, where a name or path, an owner or group that is not given is met.
def criteria (fs : LeafSystem) (path : CString) (sb : FileStat) (a : FileSelect) : List (CString × Prop) :=
  (SelectToken.leafName, a.name = [] ∨ ∃ crit ∈ a.name, fullTextMatch fs.pcre crit (readLastNode path)) ::
    (SelectToken.pathName, a.path = [] ∨ ∃ crit ∈ a.path, fullTextMatch fs.pcre crit path) ::
      otherCriteria fs path sb a

-- The tokens of the criteria that are met.
open Classical in
noncomputable def metAttr (criteria : List (CString × Prop)) : StringSet :=
  ((criteria.filter fun c => decide c.2).map Prod.fst).toFinset

section
variable {fs : LeafSystem} {path : CString} {sb : FileStat} {a : FileSelect} {t t' : CString} {b : Bool} {p : Prop}
  {tokens : List (CString × Bool)} {cs : List (CString × Prop)}

theorem leafAttr_cons : leafAttr ((t, b) :: tokens) = if b then insert t (leafAttr tokens) else leafAttr tokens := by
  cases b <;> simp [leafAttr]

open Classical in
theorem metAttr_cons : metAttr ((t, p) :: cs) = if p then insert t (metAttr cs) else metAttr cs := by
  by_cases h : p <;> simp [metAttr, h]

theorem mem_metAttr : t ∈ metAttr cs ↔ ∃ p, (t, p) ∈ cs ∧ p := by
  simp [metAttr]

-- A token that is added where its criterion is met.
def Adds (t : CString × Bool) (c : CString × Prop) : Prop :=
  t.1 = c.1 ∧ (t.2 ↔ c.2)

open Classical in
theorem leafAttr_eq (h : List.Forall₂ Adds tokens cs) : leafAttr tokens = metAttr cs := by
  induction h
  case nil              => simp [leafAttr, metAttr]
  case cons t c _ _ h _ ih =>
    obtain ⟨t, b⟩ := t
    obtain ⟨_, p⟩ := c
    obtain ⟨rfl, hb⟩ := h
    rw [leafAttr_cons, metAttr_cons, ih]
    exact if_congr hb rfl rfl

theorem selectTypeMatch_iff :
    selectTypeMatch sb a.filetypes ↔ ∃ crit ∈ a.filetypes, evalFileResult crit (typeAttr sb.st_mode) := by
  rw [selectTypeMatch, List.any_eq_true]

theorem selectIdMatch_iff {id : Nat} {name : Option CString} {crit : List CString} :
    selectIdMatch fs id name crit ↔ MatchesId fs id name crit := by
  cases name <;> simp [selectIdMatch, MatchesId, or_assoc]

theorem selectTimeMatch_iff {stattime fromtime totime : Int} :
    selectTimeMatch stattime fromtime totime ↔ fromtime < stattime ∧ stattime < totime := by
  rw [selectTimeMatch, decide_eq_true_iff]

theorem selectSizeMatch_iff : selectSizeMatch sb.st_size (toSizeT a.min_size) (toSizeT a.max_size) ↔
    a.min_size ≤ sb.st_size ∧ sb.st_size ≤ a.max_size := by
  have hsize := sb.st_size_lt
  rw [selectSizeMatch, decide_eq_true_iff, toSizeT, toSizeT]
  obtain ⟨hmin, hmax⟩ | ⟨hmin, hmax⟩ := a.size_range
  case inl =>
    rw [hmin, hmax, cfNoInt]
    omega
  case inr => omega

theorem selectIsSymLinkTo_iff {crit : List CString} : selectIsSymLinkTo fs path crit ↔ IsLinkTo fs path crit := by
  induction crit
  case nil               => simp [selectIsSymLinkTo, IsLinkTo]
  case cons item crit ih =>
    rw [selectIsSymLinkTo]
    by_cases hdir : (fs.lstat path).any sIsdir
    case pos => simp [hdir, IsLinkTo]
    case neg =>
      rw [if_neg hdir]
      rw [IsLinkTo, and_iff_right hdir] at ih ⊢
      cases hlink : fs.readlink path
      case none        => simp
      case some target => simp [hlink, ih]

theorem permissions_getLsbD {i : Nat} : (0o7777#32).getLsbD i = decide (i < 12) := by
  have hmask : 0o7777#32 = BitVec.ofNat 32 (2 ^ 12 - 1) := rfl
  rw [hmask, BitVec.getLsbD_ofNat, Nat.testBit_two_pow_sub_one]
  by_cases h : i < 12
  case pos => simp [h, show i < 32 by omega]
  case neg => simp [h]

theorem agreesWith_iff {mode plus minus : BitVec 32} :
    ((mode &&& 0o7777#32 ||| plus) &&& ~~~minus) &&& 0o7777#32 = mode &&& 0o7777#32 ↔ AgreesWith mode plus minus := by
  constructor
  case mp  =>
    intro h i hi
    have hbit := congrArg (BitVec.getLsbD · i) h
    have hlt : i < 32 := by omega
    simp only [BitVec.getLsbD_and, BitVec.getLsbD_or, BitVec.getLsbD_not, permissions_getLsbD, hi, hlt, decide_true,
      Bool.and_true, Bool.true_and] at hbit
    cases hmode : mode.getLsbD i <;> cases hplus : plus.getLsbD i <;> cases hminus : minus.getLsbD i <;> simp_all
  case mpr =>
    intro h
    refine BitVec.eq_of_getLsbD_eq fun i hlt => ?_
    simp only [BitVec.getLsbD_and, BitVec.getLsbD_or, BitVec.getLsbD_not, permissions_getLsbD, hlt, decide_true,
      Bool.true_and]
    by_cases hi : i < 12
    case pos =>
      have ⟨hminus, hplus⟩ := h i hi
      cases hmode : mode.getLsbD i <;> cases hplus : plus.getLsbD i <;> cases hminus : minus.getLsbD i <;> simp_all
    case neg => simp [hi]

theorem selectModeMatch_iff {list : List CString} :
    selectModeMatch sb list ↔ ∃ crit ∈ list, (parseModeString (some crit)).accepted ∧
      AgreesWith sb.st_mode (parseModeString (some crit)).plusmask (parseModeString (some crit)).minusmask := by
  rw [selectModeMatch, List.any_eq_true]
  simp only [Bool.and_eq_true, decide_eq_true_iff, ←agreesWith_iff]
  rfl

-- The other criteria, where the commands are as they are to be.
theorem otherTokens_adds {exec_regex exec_program : Bool} (hregex : exec_regex ↔ PutsOutMatch fs path a)
    (hprogram : exec_program ↔ ReturnsZero fs path a) :
    List.Forall₂ Adds ((leafTokens fs path sb a exec_regex exec_program).drop 3) (otherCriteria fs path sb a) := by
  refine .cons ⟨rfl, selectTypeMatch_iff⟩ <| .cons ⟨rfl, ?owner⟩ <| .cons ⟨rfl, ?group⟩ <|
    .cons ⟨rfl, selectModeMatch_iff⟩ <| .cons ⟨rfl, selectTimeMatch_iff⟩ <| .cons ⟨rfl, selectTimeMatch_iff⟩ <|
    .cons ⟨rfl, selectSizeMatch_iff⟩ <| .cons ⟨rfl, selectTimeMatch_iff⟩ <| .cons ⟨rfl, ?link⟩ <|
    .cons ⟨rfl, hregex⟩ <| .cons ⟨rfl, hprogram⟩ .nil
  case owner => exact decide_eq_true_iff.trans <| or_congr_right selectIdMatch_iff
  case group => exact decide_eq_true_iff.trans <| or_congr_right selectIdMatch_iff
  case link  =>
    refine decide_eq_true_iff.trans <| (and_congr_right fun _ => selectIsSymLinkTo_iff).trans <| and_iff_right_of_imp ?_
    rintro ⟨_, target, _, item, hm, _⟩
    exact List.ne_nil_of_mem hm

theorem name_adds : Adds (SelectToken.leafName, a.name = [] ∨ a.name.any (selectNameRegexMatch fs path))
    (SelectToken.leafName, a.name = [] ∨ ∃ crit ∈ a.name, fullTextMatch fs.pcre crit (readLastNode path)) :=
  ⟨rfl, decide_eq_true_iff.trans <| or_congr_right List.any_eq_true⟩

theorem not_mem_otherCriteria : SelectToken.pathName ∉ metAttr (otherCriteria fs path sb a) := by
  intro h
  obtain ⟨p, hm, _⟩ := mem_metAttr.mp h
  have hm := List.mem_map_of_mem (f := Prod.fst) hm
  exact absurd hm (by decide : SelectToken.pathName ∉ [SelectToken.fileTypes, SelectToken.owner, SelectToken.group,
    SelectToken.mode, SelectToken.atime, SelectToken.ctime, SelectToken.size, SelectToken.mtime, SelectToken.issymlinkto,
    SelectToken.execRegex, SelectToken.execProgram])

theorem leafAttr_skip : leafAttr ((t, b) :: (t', false) :: tokens) = leafAttr ((t, b) :: tokens) := by
  rw [leafAttr_cons, leafAttr_cons, leafAttr_cons, if_neg Bool.false_ne_true]

-- The token for the path is another one.
theorem leafAttr_leafPath {n : Bool} {np pp : Prop} (hn : n ↔ np) (hp : pp) (h : List.Forall₂ Adds tokens cs)
    (hmem : SelectToken.pathName ∉ metAttr cs) :
    leafAttr ((SelectToken.leafName, n) :: (SelectToken.leafPath, true) :: (SelectToken.pathName, false) :: tokens) =
      insert SelectToken.leafPath
        ((metAttr ((SelectToken.leafName, np) :: (SelectToken.pathName, pp) :: cs)).erase SelectToken.pathName) := by
  have hne : SelectToken.leafName ≠ SelectToken.pathName := by decide
  rw [leafAttr_cons, leafAttr_skip, leafAttr_cons, leafAttr_eq h, metAttr_cons, metAttr_cons, if_pos rfl, if_pos hp]
  by_cases hname : np
  case pos =>
    rw [if_pos (hn.mpr hname), if_pos hname, Finset.erase_insert_of_ne hne, Finset.erase_insert hmem, Finset.insert_comm]
  case neg => rw [if_neg (hname <| hn.mp ·), if_neg hname, Finset.erase_insert hmem]

-- Without a path that is given, the token for it is another one.
theorem leafAttr_leafTokens {exec_regex exec_program : Bool} (hregex : exec_regex ↔ PutsOutMatch fs path a)
    (hprogram : exec_program ↔ ReturnsZero fs path a) :
    leafAttr (leafTokens fs path sb a exec_regex exec_program) =
      if a.path = [] then
        insert SelectToken.leafPath <| (metAttr <| criteria fs path sb a).erase SelectToken.pathName
      else
        metAttr (criteria fs path sb a) := by
  have hothers := @otherTokens_adds fs path sb a exec_regex exec_program hregex hprogram
  have htokens : leafTokens fs path sb a exec_regex exec_program =
      (SelectToken.leafName, decide (a.name = [] ∨ a.name.any (selectNameRegexMatch fs path))) ::
        (SelectToken.leafPath, decide (a.path = [])) ::
          (SelectToken.pathName, a.path.any (selectPathRegexMatch fs path)) ::
            (leafTokens fs path sb a exec_regex exec_program).drop 3 := rfl
  rw [htokens, criteria]
  split
  case isTrue hpath  =>
    have hany : a.path.any (selectPathRegexMatch fs path) = false := by
      rw [hpath]
      rfl
    rw [hany, decide_eq_true hpath]
    exact leafAttr_leafPath name_adds.right (.inl hpath) hothers not_mem_otherCriteria
  case isFalse hpath =>
    have hpath' : Adds (SelectToken.pathName, a.path.any (selectPathRegexMatch fs path))
        (SelectToken.pathName, a.path = [] ∨ ∃ crit ∈ a.path, fullTextMatch fs.pcre crit path) :=
      ⟨rfl, List.any_eq_true.trans (or_iff_right hpath).symm⟩
    rw [decide_eq_false hpath, leafAttr_skip]
    exact leafAttr_eq <| .cons name_adds <| .cons hpath' hothers

-- A regular expression for the output needs a program.
def HasProgram (a : FileSelect) : Prop :=
  a.exec_regex = none ∨ a.exec_program ≠ none

theorem selectLeaf_none (h : ¬HasProgram a) : selectLeaf fs path sb a = none := by
  obtain ⟨hregex, hprogram⟩ := not_or.mp h
  obtain ⟨crit, hregex⟩ := Option.ne_none_iff_exists'.mp hregex
  rw [selectLeaf, hregex, not_not.mp hprogram]
  rfl

-- The command that is run is the given one, with the references replaced.
def RunsGiven (path : CString) (a : FileSelect) : Prop :=
  ∀ prog, a.exec_program = some prog → execCommand prog path = some (substituted path prog)

theorem selectLeaf_eq (hregex : HasProgram a) (hruns : RunsGiven path a) :
    ∃ exec_regex exec_program, ((exec_regex : Bool) = true ↔ PutsOutMatch fs path a) ∧
      ((exec_program : Bool) = true ↔ ReturnsZero fs path a) ∧
      selectLeaf fs path sb a =
        some (evalFileResult a.result <| leafAttr <| leafTokens fs path sb a exec_regex exec_program) := by
  cases hprogram : a.exec_program
  case none      =>
    have hnone : a.exec_regex = none := hregex.resolve_right (· hprogram)
    refine ⟨false, false, ?_, ?_, ?_⟩
    case refine_1 => simp [PutsOutMatch, hnone]
    case refine_2 => simp [ReturnsZero, hprogram]
    case refine_3 => simp [selectLeaf, hnone, hprogram]
  case some prog =>
    have hexec := hruns prog hprogram
    cases hregex : a.exec_regex
    case none      =>
      refine ⟨false, fs.shellCommandReturnsZero (substituted path prog), ?_, ?_, ?_⟩
      case refine_1 => simp [PutsOutMatch, hregex]
      case refine_2 => simp [ReturnsZero, hprogram]
      case refine_3 => simp [selectLeaf, selectExecProgram, hregex, hprogram, hexec]
    case some crit =>
      refine ⟨((fs.cf_popen (substituted path prog)).getD []).any (fullTextMatch fs.pcre crit ·),
        fs.shellCommandReturnsZero (substituted path prog), ?_, ?_, ?_⟩
      case refine_1 =>
        cases hlines : fs.cf_popen (substituted path prog) <;> simp [PutsOutMatch, hregex, hprogram, hlines]
      case refine_2 => simp [ReturnsZero, hprogram]
      case refine_3 => simp [selectLeaf, selectExecProgram, selectExecRegexMatch, hregex, hprogram, hexec]

-- The value that is returned is that of the expression over the criteria that are met.
def SelectsAsGiven (fs : LeafSystem) (path : CString) (sb : FileStat) (a : FileSelect) : Prop :=
  selectLeaf fs path sb a = some (evalFileResult a.result <| metAttr <| criteria fs path sb a) ∧ RunsGiven path a

end

-- The tokens are those of the criteria, except that without a path that is given `leaf_path` takes the place of
-- `path_name`.
theorem selectsAsGiven_iff (fs : LeafSystem) (path : CString) (sb : FileStat) (a : FileSelect)
    (hfits : ∀ prog, a.exec_program = some prog → (substituted path prog).length < cfMaxVarSize) :
    SelectsAsGiven fs path sb a ↔ HasProgram a ∧
      (∀ prog, a.exec_program = some prog → ¬parenPromiser <:+: prog ∨ path = parenPromiser) ∧
      (a.path = [] → evalFileResult a.result (insert SelectToken.leafPath <|
          (metAttr <| criteria fs path sb a).erase SelectToken.pathName) =
        evalFileResult a.result (metAttr <| criteria fs path sb a)) := by
  have hcommand : RunsGiven path a ↔
      ∀ prog, a.exec_program = some prog → ¬parenPromiser <:+: prog ∨ path = parenPromiser :=
    forall₂_congr fun prog hprog => execCommand_eq_iff <| hfits prog hprog
  by_cases hregex : HasProgram a
  case neg =>
    refine iff_of_false (fun h => ?_) (hregex ·.left)
    have hsome := h.left
    rw [selectLeaf_none hregex] at hsome
    cases hsome
  case pos =>
    rw [SelectsAsGiven, and_iff_right hregex, ←hcommand, and_comm]
    refine and_congr_right fun hruns => ?_
    obtain ⟨exec_regex, exec_program, hputs, hzero, hleaf⟩ := @selectLeaf_eq fs path sb a hregex hruns
    rw [hleaf, leafAttr_leafTokens hputs hzero, Option.some_inj]
    split
    case isTrue hpath  => simp [hpath]
    case isFalse hpath => simp [hpath]

-- A system without names, links and commands, and a regular file in it.
def bareSystem : LeafSystem :=
  ⟨fun _ _ => false, fun _ => none, fun _ => none, fun _ => none, fun _ => none, fun _ => none, fun _ => true⟩

def plainFile : FileStat :=
  ⟨0o100644, 0, 0, 0, 0, 0, 0, by decide⟩

-- What selects files by the names of their paths.
def selectPath (path : List CString) (exec_program : Option CString) : FileSelect :=
  ⟨[], path, [], [], [], cfNoInt, cfNoInt, cfNoInt, cfNoInt, cfNoInt, cfNoInt, cfNoInt, cfNoInt, none, exec_program,
    [], [], SelectToken.pathName, .inl ⟨rfl, rfl⟩⟩

theorem substituted_brace {path : CString} : substituted path bracePromiser = path := by
  have hpieces : commandPieces bracePromiser = [.brace] := by
    rw [←List.append_nil bracePromiser, commandPieces_brace, commandPieces]
  rw [substituted_eq, hpieces, replaced_cons, CommandPiece.render]
  exact List.append_nil _

theorem selectsAsGiven_path :
    SelectsAsGiven bareSystem ['/', 'f'] plainFile <| selectPath [['/', 'f']] <| some bracePromiser := by
  refine (selectsAsGiven_iff bareSystem ['/', 'f'] plainFile (selectPath [['/', 'f']] <| some bracePromiser) ?_).mpr
    ⟨.inl rfl, ?_, nofun⟩
  all_goals
    intro prog hprog
    cases hprog
  case refine_1 =>
    rw [substituted_brace]
    decide
  case refine_2 => exact .inl (by decide)

theorem evalFileResult_pathName {set : StringSet} :
    evalFileResult SelectToken.pathName set = decide (SelectToken.pathName ∈ set) := by
  have hparse : (parseExpression SelectToken.pathName 0 SelectToken.pathName.length).result =
      some (.eval <| .literal SelectToken.pathName) := rfl
  rw [evalFileResult, evalWithTokenFromList, hparse]
  by_cases h : SelectToken.pathName ∈ set
  case pos => simp [evalExpression, evalStringExpression, evalTokenFromList, h, ExpressionValue.ofBool]
  case neg => simp [evalExpression, evalStringExpression, evalTokenFromList, h, ExpressionValue.ofBool]

-- A path that is not given is not met.
theorem not_selectsAsGiven :
    ¬∀ (fs : LeafSystem) (path : CString) (sb : FileStat) (a : FileSelect),
      (∀ prog, a.exec_program = some prog → (substituted path prog).length < cfMaxVarSize) →
      SelectsAsGiven fs path sb a := by
  intro h
  obtain ⟨hleaf, _⟩ := h bareSystem ['/', 'f'] plainFile (selectPath [] none) nofun
  have hmet : SelectToken.pathName ∈ metAttr (criteria bareSystem ['/', 'f'] plainFile (selectPath [] none)) :=
    mem_metAttr.mpr ⟨_, List.mem_cons_of_mem _ List.mem_cons_self, .inl rfl⟩
  have hresult : (selectPath [] none).result = SelectToken.pathName := rfl
  rw [hresult, evalFileResult_pathName, decide_eq_true hmet] at hleaf
  have hfalse : selectLeaf bareSystem ['/', 'f'] plainFile (selectPath [] none) = some false := rfl
  cases hfalse.symm.trans hleaf

end CfEngine
