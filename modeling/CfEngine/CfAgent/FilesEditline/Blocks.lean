import CfEngine.CfAgent.FilesEditline.Insertion

namespace CfEngine

open Links

variable {rx : TextMatching} {a : EditAttributes} {ed ed' : EditContext} {file file' : List (Nat × CString)}
  {location prev : ItemPtr} {newline promiser : CString}

-- The attributes of the claim: blocks are inserted at the start or at the end of the whole file.
structure InsertsBlock (rx : TextMatching) (a : EditAttributes) : Prop where
  wholeFile : ¬a.haveregion
  unlocated : a.location.line_matching = none
  block     : a.sourcetype = some preserveBlock
  real      : ¬a.warn
  sane      : sanityCheckInsertions a
  all       : ∀ line, selectLine rx a.line_select line

def names (file : List (Nat × CString)) : List CString :=
  file.map Prod.snd

@[simp]
theorem names_cons {x : Nat × CString} : names (x :: file) = x.2 :: names file :=
  rfl

@[simp]
theorem names_append {us vs : List (Nat × CString)} : names (us ++ vs) = names us ++ names vs :=
  List.map_append

-- A line is inserted after an item.
theorem insertLine_after {list : ItemList} {us vs : List (Nat × CString)} {b : Nat} {x : CString}
    (h : Chained list.items list.start (us ++ (b, x) :: vs) none) :
    ∃ list' n, list.insertAfter (.item b) newline = .ok list' ∧
      Chained list'.items list'.start (us ++ [(b, x)] ++ (n, newline) :: vs) none ∧
      advance list' (.item b) = .ok (.item n) := by
  have ⟨list', hlist, h'⟩ := ItemList.insertAfter_item newline h
  refine ⟨list', list.items.length, hlist, by rwa [List.append_assoc], ?_⟩
  rw [advance, if_neg (by simp), Items.deref_item h']
  rfl

-- The item that lines are inserted after, where one of the pointers is not used.
def insertionPoint (a : EditAttributes) (location prev : ItemPtr) : ItemPtr :=
  if a.location.before_after = .before then prev else location

theorem insertLines_block {begin_ptr : ItemPtr} {pieces : List CString} {us vs : List (Nat × CString)} {b : Nat}
    {x : CString} {result : Bool} (ha : InsertsBlock rx a)
    (h : Chained ed.list.items ed.list.start (us ++ (b, x) :: vs) none) (hlocation : IsPlace (us ++ (b, x) :: vs) location)
    (hprev : IsPlace (us ++ (b, x) :: vs) prev) (hpoint : insertionPoint a location prev = .item b) :
    ∃ result' ed' file', insertLines rx begin_ptr .null a pieces ed location prev result = .ok (result', ed') ∧
      Chained ed'.list.items ed'.list.start file' none ∧ names file' = names us ++ x :: (pieces ++ names vs) := by
  induction pieces generalizing ed us b x location prev result
  case nil => exact ⟨result, ed, _, rfl, h, by simp⟩
  case cons buf more ih =>
    have hblock : a.PreservesBlock := .inl ha.block
    obtain ⟨list', n, hlist, h', hadvance⟩ := @insertLine_after buf _ _ _ _ _ h
    have hsub : (us ++ (b, x) :: vs).Sublist (us ++ [(b, x)] ++ (n, buf) :: vs) := by
      rw [List.append_assoc]
      exact ((List.sublist_cons_self ..).cons_cons _).append_left _
    obtain ⟨prev', hprev', hp'⟩ := advance_eq h' <| hprev.mono hsub
    obtain ⟨location', hlocation', hl'⟩ := advance_eq h' <| hlocation.mono hsub
    have hbefore : ¬(prev = .undefined ∧ a.location.before_after = .before) := by
      rintro ⟨hp, hb⟩
      rw [insertionPoint, if_pos hb, hp] at hpoint
      cases hpoint
    have hins : insertLineAtLocation rx buf ed location prev a = .ok (true, ⟨list', ed.num_edits + 1⟩) := by
      have hlist' : ed.list.insertAfter (if a.location.before_after = .before then prev else location) buf = .ok list' := by
        rw [insertionPoint] at hpoint
        rwa [hpoint]
      rw [insertLineAtLocation, if_neg hbefore, neighbourIsThere, if_pos ha.block]
      simp only [EditOutcome.ok_bind, ha.real, hlist', insertLine]
      rfl
    have hflip : blockLocation list' location prev a = location :=
      if_neg fun h => hbefore ⟨h.right.right.right, h.right.left⟩
    have hpoint' : insertionPoint a location' prev' = .item n := by
      rw [insertionPoint] at hpoint ⊢
      split at hpoint
      case isTrue hb  =>
        rw [if_pos hb]
        exact Except.ok.inj <| hprev'.symm.trans <| hpoint ▸ hadvance
      case isFalse hb =>
        rw [if_neg hb]
        exact Except.ok.inj <| hlocation'.symm.trans <| hpoint ▸ hadvance
    obtain ⟨result', ed', file', hrun, hchained, hnames⟩ := @ih ⟨list', ed.num_edits + 1⟩ location' prev' (us ++ [(b, x)]) n
      buf (result || true) h' hl' hp' hpoint'
    refine ⟨result', ed', file', ?_, hchained, by simpa [names] using hnames⟩
    have hall := ha.all buf
    simp only [insertLines, hall, not_true, if_false, lineIsInRegion, if_pos hblock, EditOutcome.ok_bind, hins, hflip,
      hprev', hlocation']
    exact hrun

-- The first line of a block at the start of the file.
theorem insertFirst_eq (ha : InsertsBlock rx a) (h : Chained ed.list.items ed.list.start file none)
    (hfirst : a.location.before_after = .before ∨ file = [] ∧ location = .null) :
    ∃ inserted ed' b vs, insertLineAtLocation rx newline ed location .undefined a = .ok (inserted, ed') ∧
      Chained ed'.list.items ed'.list.start ((b, newline) :: vs) none ∧ file.Sublist ((b, newline) :: vs) ∧
      (file = [] → vs = []) := by
  have hprepend : ∃ inserted ed' b vs, insertLine ed (.ok <| ed.list.prependItemList newline) = .ok (inserted, ed') ∧
      Chained ed'.list.items ed'.list.start ((b, newline) :: vs) none ∧ file.Sublist ((b, newline) :: vs) ∧
      (file = [] → vs = []) :=
    ⟨true, ⟨_, _⟩, _, file, rfl, ItemList.prependItemList_eq h, List.sublist_cons_self .., id⟩
  rw [insertLineAtLocation]
  split
  case isTrue          =>
    cases file
    case nil         =>
      have hstart : ed.list.start = none := h
      simpa [hstart, ha.real] using hprepend
    case cons x file =>
      have hstart : ed.list.start = some x.1 := h.front_eq
      have hd : ed.list.items.deref (.item x.1) = .ok ⟨x.2, front file none⟩ := Items.deref_eq h.right.left
      simp only [hstart, hd, EditOutcome.ok_bind, ha.real]
      split
      case isTrue      => exact hprepend
      case isFalse hne =>
        cases not_not.mp hne
        exact ⟨false, ed, x.1, file, rfl, h, List.Sublist.refl _, by rintro ⟨⟩⟩
  case isFalse hbefore =>
    have hafter : a.location.before_after ≠ .before := fun hb => hbefore ⟨rfl, hb⟩
    obtain ⟨hnil, hlocation⟩ := hfirst.resolve_left hafter
    obtain ⟨list', hlist, h'⟩ := ItemList.insertAfter_end newline h <| .inr hlocation
    cases hnil
    rw [neighbourIsThere, if_pos ha.block, if_neg hafter, hlist]
    simp only [EditOutcome.ok_bind, ha.real, insertLine]
    exact ⟨true, ⟨list', _⟩, _, [], rfl, h', List.nil_sublist _, fun _ => rfl⟩

theorem insertLines_first {begin_ptr : ItemPtr} {pieces : List CString} (ha : InsertsBlock rx a)
    (h : Chained ed.list.items ed.list.start file none) (hlocation : IsPlace file location)
    (hfirst : a.location.before_after = .before ∨ file = [] ∧ location = .null) :
    ∃ result ed' file' rest, insertLines rx begin_ptr .null a (newline :: pieces) ed location .undefined false =
      .ok (result, ed') ∧ Chained ed'.list.items ed'.list.start file' none ∧
      names file' = newline :: (pieces ++ rest) ∧ (file = [] → rest = []) := by
  obtain ⟨inserted, ed₁, b, vs, hins, h₁, hsub, hvs⟩ := @insertFirst_eq rx _ _ _ location newline ha h hfirst
  have hstart : ed₁.list.start = some b := h₁.left
  have hb : IsPlace ((b, newline) :: vs) (.item b) := @isPlace_front [] ((b, newline) :: vs)
  have hprev : advance ed₁.list .undefined = .ok (.item b) := by simp [advance, hstart]
  have hplace : IsPlace ((b, newline) :: vs) (blockLocation ed₁.list location .undefined a) := by
    rw [blockLocation, hstart]
    split
    case isTrue  => exact hb
    case isFalse => exact hlocation.mono hsub
  obtain ⟨location', hlocation', hl'⟩ := advance_eq h₁ hplace
  have hpoint : insertionPoint a location' (.item b) = .item b := by
    rw [insertionPoint]
    split
    case isTrue          => rfl
    case isFalse hbefore =>
      obtain ⟨_, hnull⟩ := hfirst.resolve_left hbefore
      rw [blockLocation, if_neg fun hf => hbefore hf.right.left, hnull, advance, if_pos (.inl rfl), hstart] at hlocation'
      exact (Except.ok.inj hlocation').symm
  obtain ⟨result', ed', file', hrun, hchained, hnames⟩ := @insertLines_block rx a ed₁ location' (.item b) begin_ptr pieces []
    vs b newline (false || inserted) ha h₁ hl' hb hpoint
  refine ⟨result', ed', file', names vs, ?_, hchained, hnames, fun hnil => by rw [hvs hnil]; rfl⟩
  have hblock : a.PreservesBlock := .inl ha.block
  have hall := ha.all newline
  simp only [insertLines, hall, not_true, if_false, lineIsInRegion, if_pos hblock, EditOutcome.ok_bind, hins, hprev,
    hlocation']
  exact hrun

-- The items that a block is looked for in: from the first or the last one on.
def blockPlace (a : EditAttributes) (file : List (Nat × CString)) : List (Nat × CString) :=
  match a.location.before_after with
  | .before => file
  | .after  => file.drop (file.length - 1)

theorem blockPlace_concat {us : List (Nat × CString)} {x : Nat × CString} (hafter : a.location.before_after = .after) :
    blockPlace a (us ++ [x]) = [x] := by
  rw [blockPlace, hafter]
  simp

theorem append_blockPlace : ∃ pre, file = pre ++ blockPlace a file := by
  rw [blockPlace]
  split
  case h_1 => exact ⟨[], rfl⟩
  case h_2 => exact ⟨_, (List.take_append_drop ..).symm⟩

-- A line that is read does not fit into the buffer.
def BlockOverflows (a : EditAttributes) (promiser : CString) (file : List (Nat × CString)) : Prop :=
  readsLong (lineMatch literally false) (blockPlace a file = []) (promiser.splitOn '\n') (blockPlace a file)

-- The block is at its place.
def BlockIsThere (a : EditAttributes) (promiser : CString) (file : List (Nat × CString)) : Prop :=
  startsWith (lineMatch literally false) (promiser.splitOn '\n') (blockPlace a file)

-- The lines of the file with those of the block.
def HasBlock (a : EditAttributes) (promiser : CString) (file file' : List (Nat × CString)) : Prop :=
  match a.location.before_after with
  | .before => ∃ rest, names file' = chunkLines promiser ++ rest
  | .after  => names file' = names file ++ chunkLines promiser

-- What comes out of a run.
inductive BlockRun (a : EditAttributes) (promiser : CString) (ed : EditContext) (file : List (Nat × CString)) :
    EditOutcome EditContext → Prop
  | overflow (hlong : BlockOverflows a promiser file) : BlockRun a promiser ed file (.error .bufferOverflow)
  | there (hshort : ¬BlockOverflows a promiser file) (hthere : BlockIsThere a promiser file) :
    BlockRun a promiser ed file (.ok ed)
  | inserted (ed' : EditContext) (file' : List (Nat × CString)) (hshort : ¬BlockOverflows a promiser file)
    (hthere : ¬BlockIsThere a promiser file) (hchained : Chained ed'.list.items ed'.list.start file' none)
    (hblock : HasBlock a promiser file file') : BlockRun a promiser ed file (.ok ed')

theorem BlockRun.fits (h : BlockRun a promiser ed file (.ok ed')) : ¬BlockOverflows a promiser file := by
  cases h <;> assumption

theorem chunkLines_eq_cons : ∃ buf more, chunkLines promiser = buf :: more := by
  rw [chunkLines]
  cases he : promiser.splitOn '\n'
  case nil             => exact absurd he <| List.splitOn_ne_nil _ _
  case cons line lines =>
    rw [List.flatMap_cons]
    cases line.length
    case zero   => exact ⟨line, _, rfl⟩
    case succ n =>
      rw [cappedLine]
      split
      case isTrue  => exact ⟨line, _, rfl⟩
      case isFalse => exact ⟨_, _, rfl⟩

-- The place of the promise is where the block is looked for.
theorem insertionPlace_block (ha : InsertsBlock rx a) (h : Chained ed.list.items ed.list.start file none) :
    ∃ prev, insertionPlace rx ed.list a = .ok (some (.ptr <| front (blockPlace a file) none, prev)) ∧
      IsPlace file prev ∧ (a.location.before_after = .before ∨ file = [] → prev = .undefined) := by
  rw [insertionPlace, ha.unlocated]
  cases file
  case nil         =>
    have hstart : ed.list.start = none := h
    have hplace : blockPlace a [] = [] := by
      rw [blockPlace]
      split <;> rfl
    exact ⟨.undefined, by rw [hplace, hstart]; rfl, .inl rfl, fun _ => rfl⟩
  case cons x file =>
    have hstart : ed.list.start = some x.1 := h.front_eq
    rw [hstart, placeInRegion]
    cases hb : a.location.before_after
    case before =>
      refine ⟨.undefined, ?_, .inl rfl, fun _ => rfl⟩
      simp [Items.fuel, startOfRegion, blockPlace, hb, hstart]
    case after  =>
      obtain ⟨us, y, prev', hloop, hlast, hprev'⟩ := @endOfRegion_eq .undefined ed.list.items _ [] file x _ h (.inl rfl)
        (@Items.lt_fuel _ _ [x] file h)
      rw [List.nil_append] at hlast hprev'
      refine ⟨prev', ?_, hprev', fun hf => hf.elim (by rintro ⟨⟩) (by rintro ⟨⟩)⟩
      rw [hlast, blockPlace_concat hb]
      simpa [hstart] using hloop

theorem insertLines_hasBlock {begin_ptr : ItemPtr} (ha : InsertsBlock rx a)
    (h : Chained ed.list.items ed.list.start file none) (hprev : IsPlace file prev)
    (hfirst : a.location.before_after = .before ∨ file = [] → prev = .undefined) :
    ∃ result ed' file', insertLines rx begin_ptr .null a (chunkLines promiser) ed (.ptr <| front (blockPlace a file) none)
        prev false = .ok (result, ed') ∧
      Chained ed'.list.items ed'.list.start file' none ∧ HasBlock a promiser file file' := by
  have ⟨buf, more, hpieces⟩ := @chunkLines_eq_cons promiser
  have hplace : IsPlace file (.ptr <| front (blockPlace a file) none) := by
    have ⟨pre, hfile⟩ := @append_blockPlace a file
    have := @isPlace_front pre (blockPlace a file)
    rwa [←hfile] at this
  by_cases hcase : a.location.before_after = .before ∨ file = []
  case pos =>
    have hnull : a.location.before_after = .before ∨ file = [] ∧ ItemPtr.ptr (front (blockPlace a file) none) = .null := by
      refine hcase.imp_right fun hnil => ⟨hnil, ?_⟩
      rw [hnil, blockPlace]
      split <;> rfl
    have ⟨result, ed', file', rest, hrun, hchained, hnames, hrest⟩ := @insertLines_first rx a ed file _ buf begin_ptr more ha
      h hplace hnull
    rw [hfirst hcase, hpieces]
    refine ⟨result, ed', file', hrun, hchained, ?_⟩
    rw [HasBlock, hpieces]
    cases hb : a.location.before_after
    case before => exact ⟨rest, hnames⟩
    case after  =>
      have hnil := hcase.resolve_left <| by simp [hb]
      rw [hnames, hrest hnil, hnil, List.append_nil]
      rfl
  case neg =>
    have ⟨hbefore, hne⟩ := not_or.mp hcase
    have hafter : a.location.before_after = .after := by
      cases hb : a.location.before_after
      case before => exact absurd hb hbefore
      case after  => rfl
    have ⟨us, y, hfile⟩ := List.eq_nil_or_concat file |>.resolve_left hne
    rw [List.concat_eq_append] at hfile
    rw [hfile, blockPlace_concat hafter] at hplace
    rw [hfile] at h hprev
    have hpoint : insertionPoint a (.item y.1) prev = .item y.1 := if_neg hbefore
    have ⟨result, ed', file', hrun, hchained, hnames⟩ := @insertLines_block rx a ed (.item y.1) prev begin_ptr (buf :: more) us
      [] y.1 y.2 false ha h hplace hprev hpoint
    rw [hfile, blockPlace_concat hafter, hpieces]
    refine ⟨result, ed', file', hrun, hchained, ?_⟩
    rw [HasBlock, hafter, hpieces]
    simpa [names] using hnames

theorem verifyLineInsertions_blockRun {source : CString → Option (List CString)} (ha : InsertsBlock rx a)
    (h : Chained ed.list.items ed.list.start file none) :
    BlockRun a promiser ed file (verifyLineInsertions rx source ed a promiser) := by
  obtain ⟨prev, hplace, hprev, hfirst⟩ := insertionPlace_block ha h
  have hnotFile : ¬(a.sourcetype = some CfEngine.file ∨ a.sourcetype = some filePreserveBlock) := by
    rw [ha.block]
    decide
  obtain ⟨pre, hfile⟩ := @append_blockPlace a file
  have hmatch := @matchRegion_place rx promiser _ _ _ _ (hfile ▸ h)
  rw [verifyLineInsertions, if_neg (by simpa using ha.sane), insertionRegion, if_neg ha.wholeFile, EditOutcome.ok_bind]
  dsimp only
  rw [insertInRegion_eq, hplace, EditOutcome.ok_bind]
  dsimp only
  rw [insertMultipleLinesAtLocation, if_neg hnotFile, insertCompoundLineAtLocation, hmatch]
  split
  case isTrue hlong   => exact .overflow hlong
  case isFalse hshort =>
    have hlines : promiser.splitOn '\n' ≠ [] := List.splitOn_ne_nil _ _
    rw [chunkLength, EditOutcome.ok_bind]
    split
    case isTrue hthere   =>
      rw [if_pos (by simpa using hlines)]
      exact .there hshort hthere
    case isFalse hthere =>
      obtain ⟨result, ed', file', hrun, hchained, hblock⟩ := @insertLines_hasBlock rx a ed file prev promiser
        (.ptr ed.list.start) ha h hprev hfirst
      rw [if_neg (absurd rfl), hrun, EditOutcome.ok_bind]
      exact .inserted _ file' hshort hthere hchained hblock

theorem startsWith_iff_isPrefix {lines : List CString} {xs : List (Nat × CString)} :
    startsWith (lineMatch literally false) lines xs ↔ lines <+: names xs := by
  induction lines generalizing xs
  case nil              => exact iff_of_true rfl List.nil_prefix
  case cons buf more ih =>
    cases xs
    case nil       => exact iff_of_false (nomatch ·) (by simp [names])
    case cons x xs =>
      have hmatch : lineMatch literally false buf x.2 ↔ buf = x.2 := decide_eq_true_iff
      rw [startsWith, Bool.and_eq_true_iff, hmatch, ih, names_cons, List.cons_prefix_cons]

-- A block that is there has been read.
theorem short_of_startsWith {isMatch : CString → CString → Bool} {follows : Bool} {lines : List CString}
    {xs : List (Nat × CString)} (hthere : startsWith isMatch lines xs) (hshort : ¬readsLong isMatch follows lines xs) :
    ∀ line ∈ lines, line.length < cfBufSize := by
  induction lines generalizing xs
  case nil              => exact nofun
  case cons buf more ih =>
    cases xs
    case nil       => cases hthere
    case cons x xs =>
      have ⟨hbuf, hmore⟩ := Bool.and_eq_true_iff.mp hthere
      simp only [readsLong, hbuf, Bool.true_and, Bool.or_eq_true, decide_eq_true_eq, not_or] at hshort
      exact List.forall_mem_cons.mpr ⟨Nat.lt_of_not_le hshort.left, ih hmore hshort.right⟩

-- The pieces of a line that does not fit are not the line, so that the line is read again.
theorem readsLong_of_pieces {follows : Bool} {lines : List CString} {xs : List (Nat × CString)} {rest : List CString}
    (hnames : names xs = (lines.flatMap fun line => cappedLine line.length line) ++ rest)
    (hlong : ∃ line ∈ lines, cfBufSize ≤ line.length) : readsLong (lineMatch literally false) follows lines xs := by
  induction lines generalizing xs
  case nil              => obtain ⟨_, ⟨⟩, _⟩ := hlong
  case cons buf more ih =>
    by_cases hbuf : cfBufSize ≤ buf.length
    case pos =>
      have hne : cappedLine buf.length buf ≠ [] := by
        cases buf.length <;> rw [cappedLine]
        case zero => rintro ⟨⟩
        case succ => split <;> rintro ⟨⟩
      cases xs
      case nil  => exact absurd (List.append_eq_nil_iff.mp <| (List.append_assoc ..).symm.trans hnames.symm).left hne
      case cons => simp [readsLong, hbuf]
    case neg =>
      have hpieces : cappedLine buf.length buf = [buf] := by
        cases buf.length
        case zero => rfl
        case succ => rw [cappedLine, if_pos <| Nat.lt_of_not_le hbuf]
      rw [List.flatMap_cons, hpieces] at hnames
      cases xs
      case nil       => cases hnames
      case cons x xs =>
        obtain ⟨hx, hnames⟩ := List.cons.inj hnames
        have hlong : ∃ line ∈ more, cfBufSize ≤ line.length := by
          obtain ⟨line, hline, hle⟩ := hlong
          refine ⟨line, (List.mem_cons.mp hline).resolve_left fun he => hbuf <| he ▸ hle, hle⟩
        have hmatch : lineMatch literally false buf x.2 = true := decide_eq_true hx.symm
        rw [readsLong, hmatch, ih hnames hlong, Bool.and_true, Bool.or_true]

-- After a run the block is in the file, and another run does not change the lines of the file.
def BlockConverges (rx : TextMatching) (source : CString → Option (List CString)) (a : EditAttributes)
    (promiser : CString) (ed : EditContext) : Prop :=
  ∃ ed' file' ed'' file'', verifyLineInsertions rx source ed a promiser = .ok ed' ∧
    Chained ed'.list.items ed'.list.start file' none ∧ promiser.splitOn '\n' <:+: names file' ∧
    verifyLineInsertions rx source ed' a promiser = .ok ed'' ∧
    Chained ed''.list.items ed''.list.start file'' none ∧ names file'' = names file'

section
variable {source : CString → Option (List CString)}

-- The block is found where it has been inserted.
theorem blockIsThere_of_hasBlock (hshort : ∀ line ∈ promiser.splitOn '\n', line.length < cfBufSize)
    (hone : a.location.before_after = .before ∨ (promiser.splitOn '\n').length = 1) (hblock : HasBlock a promiser file file') :
    BlockIsThere a promiser file' := by
  rw [BlockIsThere, startsWith_iff_isPrefix]
  rw [HasBlock, chunkLines_of_short hshort] at hblock
  cases hb : a.location.before_after
  case before =>
    rw [hb] at hblock
    have ⟨rest, hnames⟩ := hblock
    rw [blockPlace, hb, hnames]
    exact List.prefix_append ..
  case after  =>
    rw [hb] at hblock hone
    have ⟨line, hline⟩ := List.length_eq_one_iff.mp <| hone.resolve_left nofun
    rw [hline] at hblock ⊢
    have ⟨us, vs, hfile, _, hvs⟩ := List.map_eq_append_iff.mp hblock
    have ⟨y, hy, hyl⟩ := List.map_eq_singleton_iff.mp hvs
    rw [hfile, hy, blockPlace_concat hb, ←hyl]
    exact List.prefix_rfl

theorem infix_of_blockIsThere (hthere : BlockIsThere a promiser file) : promiser.splitOn '\n' <:+: names file := by
  have ⟨pre, hfile⟩ := @append_blockPlace a file
  have hprefix := startsWith_iff_isPrefix.mp hthere
  rw [hfile, names_append]
  exact hprefix.isInfix.trans (List.suffix_append ..).isInfix

theorem blockConverges_of_short (ha : InsertsBlock rx a) (h : Chained ed.list.items ed.list.start file none)
    (hshort : ∀ line ∈ promiser.splitOn '\n', line.length < cfBufSize)
    (hone : a.location.before_after = .before ∨ (promiser.splitOn '\n').length = 1) :
    BlockConverges rx source a promiser ed := by
  have hfits (file : List (Nat × CString)) : ¬BlockOverflows a promiser file := by
    rw [BlockOverflows, readsLong_of_short hshort]
    exact Bool.false_ne_true
  -- A run on a file that the block is in leaves it.
  have hkeeps {ed' : EditContext} {file' : List (Nat × CString)} (h' : Chained ed'.list.items ed'.list.start file' none)
      (hthere : BlockIsThere a promiser file') : verifyLineInsertions rx source ed' a promiser = .ok ed' := by
    have hrun := @verifyLineInsertions_blockRun rx a ed' file' promiser source ha h'
    generalize verifyLineInsertions rx source ed' a promiser = outcome at hrun
    cases hrun
    case overflow hlong              => exact absurd hlong <| hfits file'
    case there                       => rfl
    case inserted hnot _ _ => exact absurd hthere hnot
  have hrun := @verifyLineInsertions_blockRun rx a ed file promiser source ha h
  generalize he : verifyLineInsertions rx source ed a promiser = outcome at hrun
  cases hrun
  case overflow hlong                        => exact absurd hlong <| hfits file
  case there hthere                          =>
    exact ⟨ed, file, ed, file, he, h, infix_of_blockIsThere hthere, hkeeps h hthere, h, rfl⟩
  case inserted ed' file' _ _ h' hblock =>
    have hthere := blockIsThere_of_hasBlock hshort hone hblock
    exact ⟨ed', file', ed', file', he, h', infix_of_blockIsThere hthere, hkeeps h' hthere, h', rfl⟩

theorem short_of_blockConverges (ha : InsertsBlock rx a) (h : Chained ed.list.items ed.list.start file none)
    (hb : a.location.before_after = .before) (hconverges : BlockConverges rx source a promiser ed) :
    ∀ line ∈ promiser.splitOn '\n', line.length < cfBufSize := by
  have ⟨ed', file', ed'', _, hrun, h', _, hagain, _⟩ := hconverges
  have hfirst := @verifyLineInsertions_blockRun rx a ed file promiser source ha h
  have hsecond := @verifyLineInsertions_blockRun rx a ed' file' promiser source ha h'
  rw [hrun] at hfirst
  rw [hagain] at hsecond
  cases hfirst
  case there hfits hthere                       => exact short_of_startsWith hthere hfits
  case inserted file₁ hfits hthere hblock h₁ =>
    cases h'.unique h₁
    by_contra hlong
    push Not at hlong
    rw [HasBlock, hb] at hblock
    have ⟨rest, hnames⟩ := hblock
    have hoverflows : BlockOverflows a promiser file' := by
      rw [BlockOverflows, blockPlace, hb]
      exact readsLong_of_pieces hnames hlong
    exact hsecond.fits hoverflows

-- A block of several lines is never found at the last line.
theorem single_of_blockConverges (ha : InsertsBlock rx a) (hb : a.location.before_after = .after)
    (hconverges : BlockConverges rx source a promiser ed) :
    (promiser.splitOn '\n').length = 1 := by
  have ⟨ed', file', ed'', file'', hrun, h', _, hagain, h'', hsame⟩ := hconverges
  have hsecond := @verifyLineInsertions_blockRun rx a ed' file' promiser source ha h'
  rw [hagain] at hsecond
  cases hsecond
  case there _ hthere                         =>
    have hlen := startsWith_length hthere
    rw [blockPlace, hb, List.length_drop] at hlen
    have hpos := List.length_pos_iff.mpr <| List.splitOn_ne_nil '\n' promiser
    omega
  case inserted file₁ _ _ hblock h₁ =>
    cases h''.unique h₁
    rw [HasBlock, hb] at hblock
    have ⟨buf, more, hpieces⟩ := @chunkLines_eq_cons promiser
    have hnil := List.self_eq_append_right.mp <| hsame.symm.trans hblock
    cases hpieces.symm.trans hnil

theorem fits_of_single {line : CString} (ha : InsertsBlock rx a) (h : Chained ed.list.items ed.list.start file none)
    (hline : promiser.splitOn '\n' = [line]) (hconverges : BlockConverges rx source a promiser ed) :
    line.length < cfBufSize := by
  have ⟨ed', _, _, _, hrun, _⟩ := hconverges
  have hfirst := @verifyLineInsertions_blockRun rx a ed file promiser source ha h
  rw [hrun] at hfirst
  have hfits := hfirst.fits
  rw [BlockOverflows, hline] at hfits
  refine Nat.lt_of_not_le fun hle => hfits ?_
  cases blockPlace a file
  case nil  => simp [readsLong, hle]
  case cons => simp [readsLong, hle]

-- A block converges where its lines fit into the buffer, and it is inserted at the start or has one line.
theorem blockConverges_iff (rx : TextMatching) (source : CString → Option (List CString)) (a : EditAttributes)
    (promiser : CString) (ed : EditContext) (file : List (Nat × CString)) (ha : InsertsBlock rx a)
    (h : Chained ed.list.items ed.list.start file none) :
    BlockConverges rx source a promiser ed ↔ (∀ line ∈ promiser.splitOn '\n', line.length < cfBufSize) ∧
      (a.location.before_after = .before ∨ (promiser.splitOn '\n').length = 1) := by
  constructor
  case mpr => exact fun ⟨hshort, hone⟩ => blockConverges_of_short ha h hshort hone
  case mp  =>
    intro hconverges
    cases hb : a.location.before_after
    case before => exact ⟨short_of_blockConverges ha h hb hconverges, .inl rfl⟩
    case after  =>
      have hone := single_of_blockConverges ha hb hconverges
      have ⟨line, hline⟩ := List.length_eq_one_iff.mp hone
      have hfits := fits_of_single ha h hline hconverges
      exact ⟨by rwa [hline, List.forall_mem_singleton], .inr hone⟩

end

def plainBlock (before_after : EditOrder) : EditAttributes :=
  ⟨false, ⟨none, none, false, false⟩, ⟨none, before_after, none⟩, some preserveBlock, [], ⟨[], [], [], [], [], []⟩, false,
    false⟩

theorem plainBlock_insertsBlock {before_after : EditOrder} : InsertsBlock literally (plainBlock before_after) := by
  refine ⟨Bool.false_ne_true, rfl, rfl, Bool.false_ne_true, ?_, fun _ => rfl⟩
  cases before_after <;> decide

theorem blockConverges_atStart :
    BlockConverges literally (fun _ => none) (plainBlock .before) ['b', '\n', 'c'] twoLines :=
  (blockConverges_iff literally (fun _ => none) (plainBlock .before) ['b', '\n', 'c'] twoLines _ plainBlock_insertsBlock
    twoLines_chained).mpr ⟨by decide, .inl rfl⟩

-- The second run inserts the block again.
theorem not_blockConverges_atEnd :
    ¬∀ (rx : TextMatching) (source : CString → Option (List CString)) (a : EditAttributes) (promiser : CString)
      (ed : EditContext) (file : List (Nat × CString)), InsertsBlock rx a → Chained ed.list.items ed.list.start file none →
      BlockConverges rx source a promiser ed := by
  intro h
  have hconverges := h literally (fun _ => none) (plainBlock .after) ['c', '\n', 'd'] twoLines _ plainBlock_insertsBlock
    twoLines_chained
  have hone := single_of_blockConverges plainBlock_insertsBlock rfl hconverges
  exact absurd hone (by decide)

end CfEngine
