import CfEngine.CfAgent.FilesEditline
import CfEngine.CfAgent.FilesEditline.Columns
import CfEngine.Libpromises.Conversion
import CfEngine.Libpromises.Rlist.SplitRegex

namespace CfEngine

-- What is made of a line by an edit of one of its fields.
def columnEdit (m : BlockMatching) (a : ColumnAttributes) (line : CString) : Outcome LineEdit :=
  match m.blockTextMatch a.column_separator line with
  | none        => some ⟨none, some false, 0, true⟩
  | some (s, e) =>
    if cfMaxVarSize / 2 < e - s then
      some ⟨none, some false, 0, true⟩
    else do
      let separator := (line.drop s).take (e - s)
      let columns ← rlistFromSplitRegex m line a.column_separator cfInfinity.toNat a.blanks_ok
      let (retval, columns, num_edits) ← editLineByColumn a columns 0
      if retval then
        return ⟨some (← rlist2String columns separator), some true, num_edits, false⟩
      else
        return ⟨none, some false, num_edits, false⟩

-- The fields that are changed are those that are there, in a line that is not refused.
structure ChangesField (m : BlockMatching) (a : ColumnAttributes) (line separator field : CString) : Prop where
  blanks    : a.blanks_ok
  first     : ∃ s e, m.blockTextMatch a.column_separator line = some (s, e) ∧ e - s ≤ cfMaxVarSize / 2 ∧
    separator = (line.drop s).take (e - s)
  positive  : 0 < a.select_column
  isThere   : a.select_column ≤ (cutLine m a.column_separator line).fields.length
  edited    : editField a ((cutLine m a.column_separator line).items.getD (a.select_column.toNat - 1) []) = some (some field)

-- The line is written from its fields and separators, where the field that is edited has the new text.
def EditsOnlyField (m : BlockMatching) (a : ColumnAttributes) (line separator field : CString) : Prop :=
  let strings := (cutLine m a.column_separator line).strings.set (2 * (a.select_column.toNat - 1)) field
  columnEdit m a line = some ⟨some strings.flatten, some true, 1, false⟩ ∧
    ∃ columns columns', rlistFromSplitRegex m line a.column_separator cfInfinity.toNat a.blanks_ok = some columns ∧
      editLineByColumn a columns 0 = some (true, columns', 1) ∧ columns'.intersperse separator = strings

section
variable {m : BlockMatching} {a : ColumnAttributes} {line separator field : CString} {columns columns' : List CString}
  {num_edits : Nat}

theorem items_length_eq {cut : CutLine} : cut.items.length = cut.fields.length := by
  rw [CutLine.items, CutLine.fields, List.length_append, List.length_append, List.length_singleton,
    List.length_singleton]

theorem ChangesField.index_le (h : ChangesField m a line separator field) :
    a.select_column.toNat - 1 ≤ (cutLine m a.column_separator line).cuts.length := by
  have hle := h.isThere
  rw [←items_length_eq, CutLine.items_length] at hle
  omega

theorem ChangesField.index_eq_iff (h : ChangesField m a line separator field) :
    a.select_column.toNat - 1 = (cutLine m a.column_separator line).cuts.length ↔
      a.select_column = (cutLine m a.column_separator line).fields.length := by
  have hpos := h.positive
  rw [←items_length_eq, CutLine.items_length]
  omega

theorem ChangesField.editLineByColumn_eq (h : ChangesField m a line separator field) :
    editLineByColumn a (cutLine m a.column_separator line).items 0 =
      some (true, (cutLine m a.column_separator line).items.set (a.select_column.toNat - 1) field, 1) := by
  have hle := h.isThere
  have hlt : a.select_column.toNat - 1 < (cutLine m a.column_separator line).items.length := by
    rw [CutLine.items_length]
    exact Nat.lt_succ_of_le h.index_le
  rw [←items_length_eq] at hle
  rw [CfEngine.editLineByColumn_eq (fun hmissing => absurd hmissing.left (Int.not_lt.mpr hle)) h.positive, h.edited,
    extended_of_lt hlt]
  rfl

theorem ChangesField.columnEdit_eq (h : ChangesField m a line separator field)
    (hsplit : rlistFromSplitRegex m line a.column_separator cfInfinity.toNat a.blanks_ok = some columns)
    (hedit : editLineByColumn a columns 0 = some (true, columns', num_edits)) :
    columnEdit m a line = (rlist2String columns' separator).map fun line => ⟨some line, some true, num_edits, false⟩ := by
  obtain ⟨s, e, hmatch, hshort, rfl⟩ := h.first
  rw [columnEdit, hmatch]
  dsimp only
  rw [if_neg (Nat.not_lt.mpr hshort), hsplit]
  simp only [Option.bind_eq_bind, Option.bind_some, hedit, if_true]
  cases rlist2String columns' ((line.drop s).take (e - s)) <;> rfl

theorem rlist2String_eq {list : List CString} {sep : CString} : rlist2String list sep =
    if (list.intersperse sep).flatten.length < cfBufSize then some (list.intersperse sep).flatten else none :=
  rfl

-- A line that fits has no more fields than are looked for.
theorem ChangesField.split_eq (h : ChangesField m a line separator field)
    (hne : ∀ text start stop, m.blockTextMatch a.column_separator text = some (start, stop) → start < stop)
    (hfits : ((cutLine m a.column_separator line).strings.set (2 * (a.select_column.toNat - 1)) field).flatten.length <
      cfBufSize) :
    rlistFromSplitRegex m line a.column_separator cfInfinity.toNat a.blanks_ok =
      if ∀ c ∈ (cutLine m a.column_separator line).cuts, c.1.length < cfMaxVarSize then
        some (cutLine m a.column_separator line).items
      else
        none := by
  obtain ⟨s, e, hmatch, _⟩ := h.first
  have hlen := @CutLine.cuts_length_le_set _ field (a.select_column.toNat - 1) (@cutLine_separators m _ line hne)
  have hroom : cfBufSize ≤ cfInfinity.toNat := by decide
  rw [h.blanks]
  exact rlistFromSplitRegex_eq hmatch (Nat.ne_of_gt <| Nat.zero_lt_of_lt <| hne _ _ _ hmatch)
    (Nat.lt_of_le_of_lt hlen <| Nat.lt_of_lt_of_le hfits hroom)

end

-- The other fields and the separators are written as they were where all the separators have the text of the first one
-- and nothing is cut off.
theorem editsOnlyField_iff (m : BlockMatching) (a : ColumnAttributes) (line separator field : CString)
    (hne : ∀ text start stop, m.blockTextMatch a.column_separator text = some (start, stop) → start < stop)
    (h : ChangesField m a line separator field) :
    let cut := cutLine m a.column_separator line
    EditsOnlyField m a line separator field ↔
      (∀ c ∈ cut.cuts, c.1.length < cfMaxVarSize) ∧ (∀ c ∈ cut.cuts, c.2 = separator) ∧
        (a.select_column = cut.fields.length ∨ cut.last.length < cfMaxVarSize) ∧
          (cut.strings.set (2 * (a.select_column.toNat - 1)) field).flatten.length < cfBufSize := by
  intro cut
  have hset := @CutLine.intersperse_set_eq_iff cut separator field _ h.index_le
  rw [h.index_eq_iff] at hset
  constructor
  case mp  =>
    rintro ⟨hrun, columns, columns', hsplit, hedit, hstrings⟩
    have hfits : (cut.strings.set (2 * (a.select_column.toNat - 1)) field).flatten.length < cfBufSize := by
      rw [h.columnEdit_eq hsplit hedit, rlist2String_eq, hstrings] at hrun
      by_contra hlong
      rw [if_neg hlong] at hrun
      cases hrun
    rw [h.split_eq hne hfits] at hsplit
    split at hsplit
    case isFalse      => cases hsplit
    case isTrue hcuts =>
      cases hsplit
      rw [h.editLineByColumn_eq] at hedit
      cases hedit
      have ⟨hsep, hlast⟩ := hset.mp hstrings
      exact ⟨hcuts, hsep, hlast, hfits⟩
  case mpr =>
    rintro ⟨hcuts, hsep, hlast, hfits⟩
    have hsplit := h.split_eq hne hfits
    rw [if_pos hcuts] at hsplit
    have hstrings := hset.mpr ⟨hsep, hlast⟩
    refine ⟨?_, _, _, hsplit, h.editLineByColumn_eq, hstrings⟩
    rw [h.columnEdit_eq hsplit h.editLineByColumn_eq, rlist2String_eq, hstrings, if_pos hfits]
    rfl

-- Each of the characters is a separator.
def separatedBy (signs : List Char) : BlockMatching where
  blockTextMatch _ text :=
    let start := (text.takeWhile (· ∉ signs)).length
    if start < text.length then some (start, start + 1) else none
  bounds {_ text start stop} h := by
    dsimp only at h
    split at h
    case isTrue hlt => cases h; omega
    case isFalse    => cases h

theorem separatedBy_lt {signs : List Char} {regex text : CString} {start stop : Nat}
    (h : (separatedBy signs).blockTextMatch regex text = some (start, stop)) : start < stop := by
  rw [separatedBy] at h
  dsimp only at h
  split at h
  case isTrue  =>
    cases h
    exact Nat.lt_succ_self _
  case isFalse => cases h

-- The first field is set.
def setFirst : ColumnAttributes :=
  ⟨['[', ':', ';', ']'], 1, none, ['x'], none, false, true, false⟩

theorem cutLine_colon : cutLine (separatedBy [':', ';']) setFirst.column_separator ['a', ':', 'b'] =
    ⟨[(['a'], [':'])], ['b']⟩ := by
  rw [@cutLine_of_match (separatedBy [':', ';']) _ _ 1 2 rfl (by decide),
    @cutLine_of_noMatch (separatedBy [':', ';']) _ _ rfl]
  rfl

theorem editsOnlyField_colon :
    ChangesField (separatedBy [':', ';']) setFirst ['a', ':', 'b'] [':'] ['x'] ∧
      EditsOnlyField (separatedBy [':', ';']) setFirst ['a', ':', 'b'] [':'] ['x'] := by
  have h : ChangesField (separatedBy [':', ';']) setFirst ['a', ':', 'b'] [':'] ['x'] := by
    refine ⟨rfl, ⟨1, 2, rfl, by decide, rfl⟩, by decide, ?_, ?_⟩
    all_goals rw [cutLine_colon]
    case refine_1 => decide
    case refine_2 => rfl
  refine ⟨h, (editsOnlyField_iff _ _ _ _ _ (fun _ _ _ => separatedBy_lt) h).mpr ?_⟩
  rw [cutLine_colon]
  decide

theorem cutLine_semicolon : cutLine (separatedBy [':', ';']) setFirst.column_separator ['a', ':', 'b', ';', 'c'] =
    ⟨[(['a'], [':']), (['b'], [';'])], ['c']⟩ := by
  rw [@cutLine_of_match (separatedBy [':', ';']) _ _ 1 2 rfl (by decide),
    @cutLine_of_match (separatedBy [':', ';']) _ (List.drop 2 _) 1 2 rfl (by decide),
    @cutLine_of_noMatch (separatedBy [':', ';']) _ (List.drop 2 _) rfl]
  rfl

-- The second separator is written with the text of the first one.
theorem not_editsOnlyField :
    ¬∀ (m : BlockMatching) (a : ColumnAttributes) (line separator field : CString),
      (∀ text start stop, m.blockTextMatch a.column_separator text = some (start, stop) → start < stop) →
      ChangesField m a line separator field → EditsOnlyField m a line separator field := by
  intro h
  have hchanges : ChangesField (separatedBy [':', ';']) setFirst ['a', ':', 'b', ';', 'c'] [':'] ['x'] := by
    refine ⟨rfl, ⟨1, 2, rfl, by decide, rfl⟩, by decide, ?_, ?_⟩
    all_goals rw [cutLine_semicolon]
    case refine_1 => decide
    case refine_2 => rfl
  obtain ⟨hrun, _⟩ := h _ _ _ _ _ (fun _ _ _ => separatedBy_lt) hchanges
  have hsplit : rlistFromSplitRegex (separatedBy [':', ';']) ['a', ':', 'b', ';', 'c'] setFirst.column_separator
      cfInfinity.toNat setFirst.blanks_ok = some [['a'], ['b'], ['c']] := by
    have heq := @rlistFromSplitRegex_eq (separatedBy [':', ';']) setFirst.column_separator ['a', ':', 'b', ';', 'c'] 1 2
      cfInfinity.toNat rfl (by decide) (by rw [cutLine_semicolon]; decide)
    rw [cutLine_semicolon] at heq
    exact heq
  rw [hchanges.columnEdit_eq hsplit rfl, cutLine_semicolon] at hrun
  exact absurd (congrArg (·.bind LineEdit.line) hrun) (by decide)

end CfEngine
