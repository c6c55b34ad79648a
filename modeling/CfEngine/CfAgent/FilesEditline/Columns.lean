import CfEngine.Libpromises.Expand.MapIterators
import CfEngine.Libpromises.Rlist.Splitting

namespace CfEngine

structure ColumnAttributes where
  column_separator : CString
  select_column    : Int
  value_separator  : Option Char
  column_value     : CString
  column_operation : Option CString
  extend_columns   : Bool
  blanks_ok        : Bool
  warn             : Bool

def deleteOperation : CString :=
  ['d', 'e', 'l', 'e', 't', 'e']

def setOperation : CString :=
  ['s', 'e', 't']

def prependOperation : CString :=
  ['p', 'r', 'e', 'p', 'e', 'n', 'd']

def alphanumOperation : CString :=
  ['a', 'l', 'p', 'h', 'a', 'n', 'u', 'm']

def alphaSortRListNames (list : List CString) : List CString :=
  list.mergeSort fun a b => CString.strcmp a b ≤ 0

-- A line that does not fit into the buffer is written past its end.
def rlist2String (list : List CString) (sep : CString) : Outcome CString :=
  let line := List.intercalate sep list
  if line.length < cfBufSize then some line else none

-- Of equal sub-fields, the first one is deleted.
def doEditColumn (a : ColumnAttributes) (columns : List CString) : Bool × List CString :=
  if a.column_operation = some deleteOperation then
    if a.column_value ∈ columns then (true, columns.erase a.column_value) else (false, columns)
  else if a.column_operation = some setOperation then
    if columns = [a.column_value] then (false, columns) else (true, [a.column_value])
  else if a.column_operation = some prependOperation then
    (a.column_value ∉ columns, rlistPrependScalarIdemp columns a.column_value)
  else if a.column_operation = some alphanumOperation then
    (a.column_value ∉ columns, alphaSortRListNames <| rlistPrependScalarIdemp columns a.column_value)
  else
    (a.column_value ∉ columns, rlistAppendScalarIdemp columns a.column_value)

-- What a field is replaced by, if it is.
def editField (a : ColumnAttributes) (item : CString) : Outcome (Option CString) :=
  match a.value_separator with
  | some sep =>
    if item = a.column_value then
      some none
    else do
      let this_column ← rlistFromSplitString item sep
      let (retval, this_column) := doEditColumn a this_column
      if retval ∧ ¬a.warn then (rlist2String this_column [sep]).map some else some none
  | none     =>
    if a.warn then
      some none
    else if a.column_operation = some deleteOperation then
      some <| some []
    else
      some <| some a.column_value

-- A field whose number is not positive is looked for behind the last one.
def editLineByColumn (a : ColumnAttributes) (columns : List CString) (num_edits : Nat) :
    Outcome (Bool × List CString × Nat) :=
  if columns.length < a.select_column ∧ ¬a.extend_columns then
    some (false, columns, num_edits)
  else if a.select_column ≤ 0 then
    none
  else
    let field := a.select_column.toNat - 1
    let columns := columns ++ List.replicate (field + 1 - columns.length) []
    (editField a (columns.getD field [])).map fun edited =>
      match edited with
      | none      => (false, columns, num_edits)
      | some item => (true, columns.set field item, num_edits + 1)

section
variable {a : ColumnAttributes} {columns items this_column : List CString} {item field v : CString} {sep : Char}
  {num_edits : Nat}

-- A field that is kept, or whose new text is.
def FieldSettles (a : ColumnAttributes) (item : CString) : Prop :=
  editField a item = some none ∨ ∃ item', editField a item = some (some item') ∧ editField a item' = some none

theorem editLineByColumn_missing (h : columns.length < a.select_column ∧ ¬a.extend_columns) :
    editLineByColumn a columns num_edits = some (false, columns, num_edits) :=
  if_pos h

-- The columns with those that are added for the field to be there.
def ColumnAttributes.extended (a : ColumnAttributes) (columns : List CString) : List CString :=
  columns ++ List.replicate (a.select_column.toNat - 1 + 1 - columns.length) []

theorem extended_getD : (a.extended columns).getD (a.select_column.toNat - 1) [] =
    columns.getD (a.select_column.toNat - 1) [] := by
  rw [ColumnAttributes.extended, List.getD_eq_getElem?_getD, List.getD_eq_getElem?_getD, List.getElem?_append]
  split
  case isTrue h  => rfl
  case isFalse h =>
    rw [List.getElem?_eq_none (Nat.le_of_not_lt h), List.getElem?_replicate]
    split <;> rfl

theorem lt_extended_length : a.select_column.toNat - 1 < (a.extended columns).length := by
  rw [ColumnAttributes.extended, List.length_append, List.length_replicate]
  omega

theorem extended_of_lt (h : a.select_column.toNat - 1 < columns.length) : a.extended columns = columns := by
  rw [ColumnAttributes.extended, Nat.sub_eq_zero_of_le h, List.replicate_zero, List.append_nil]

theorem editLineByColumn_eq (h : ¬(columns.length < a.select_column ∧ ¬a.extend_columns)) (hpos : 0 < a.select_column) :
    editLineByColumn a columns num_edits =
      (editField a <| columns.getD (a.select_column.toNat - 1) []).map fun edited =>
        match edited with
        | none      => (false, a.extended columns, num_edits)
        | some item => (true, (a.extended columns).set (a.select_column.toNat - 1) item, num_edits + 1) := by
  rw [editLineByColumn, if_neg h, if_neg (Int.not_le.mpr hpos), ←extended_getD]
  rfl

theorem editLineByColumn_again (hpos : 0 < a.select_column) (hlen : a.select_column.toNat - 1 < columns.length) :
    editLineByColumn a columns num_edits = some (false, columns, num_edits) ↔
      editField a (columns.getD (a.select_column.toNat - 1) []) = some none := by
  rw [editLineByColumn_eq (fun h => by omega) hpos, extended_of_lt hlen]
  cases editField a (columns.getD (a.select_column.toNat - 1) [])
  case none        => simp
  case some edited => cases edited <;> simp

-- Another application changes nothing where the field is not there, or settles.
theorem editLineByColumn_settles_iff :
    (∃ retval columns' num_edits', editLineByColumn a columns num_edits = some (retval, columns', num_edits') ∧
      editLineByColumn a columns' num_edits' = some (false, columns', num_edits')) ↔
      (columns.length < a.select_column ∧ ¬a.extend_columns) ∨
        0 < a.select_column ∧ FieldSettles a (columns.getD (a.select_column.toNat - 1) []) := by
  by_cases hmissing : columns.length < a.select_column ∧ ¬a.extend_columns
  case pos =>
    have hrun := @editLineByColumn_missing a columns num_edits hmissing
    exact iff_of_true ⟨false, columns, num_edits, hrun, hrun⟩ (.inl hmissing)
  case neg =>
    rw [or_iff_right hmissing]
    by_cases hpos : 0 < a.select_column
    case neg =>
      have hrun : editLineByColumn a columns num_edits = none := by
        rw [editLineByColumn, if_neg hmissing, if_pos (Int.not_lt.mp hpos)]
      simp [hrun, hpos]
    case pos =>
      rw [and_iff_right hpos, FieldSettles, editLineByColumn_eq hmissing hpos]
      have hlen := @lt_extended_length a columns
      cases hedit : editField a (columns.getD (a.select_column.toNat - 1) [])
      case none        => simp
      case some edited =>
        cases edited
        case none       =>
          refine iff_of_true ⟨_, _, _, rfl, (editLineByColumn_again hpos hlen).mpr ?_⟩ (.inl rfl)
          rwa [extended_getD]
        case some item' =>
          have hset := @editLineByColumn_again a ((a.extended columns).set (a.select_column.toNat - 1) item')
            (num_edits + 1) hpos (by rwa [List.length_set])
          rw [List.getD_eq_getElem?_getD, List.getElem?_set_self hlen, Option.getD_some] at hset
          constructor
          case mp  =>
            rintro ⟨retval, columns', num_edits', hrun, hagain⟩
            cases hrun
            exact .inr ⟨item', rfl, hset.mp hagain⟩
          case mpr =>
            rintro (hkept | ⟨item'', hitem, hkept⟩)
            case inl => cases hkept
            case inr =>
              cases hitem
              exact ⟨_, _, _, rfl, hset.mpr hkept⟩

-- The sub-fields that are read from the field that the given ones are written to.
def rewritten (sep : Char) (this_column : List CString) : Outcome (List CString) :=
  (rlist2String this_column [sep]).bind (rlistFromSplitString · sep)

-- The sub-fields with the value added to them.
def ColumnAttributes.added (a : ColumnAttributes) (this_column : List CString) : List CString :=
  if a.column_operation = some prependOperation then
    a.column_value :: this_column
  else if a.column_operation = some alphanumOperation then
    alphaSortRListNames (a.column_value :: this_column)
  else
    this_column ++ [a.column_value]

-- The value is not left where its first occurrence is deleted. A blank one at the end is not read again.
def ValueOnce (value : CString) (this_column : List CString) : Prop :=
  this_column.count value = 1 ∨ value = [] ∧ this_column.count value = 2 ∧ this_column.getLast? = some []

-- The condition on the sub-fields for the edit to converge.
def SubfieldsConverge (a : ColumnAttributes) (sep : Char) (this_column : List CString) : Prop :=
  if a.column_operation = some deleteOperation then
    a.column_value ∈ this_column →
      let rest := this_column.erase a.column_value
      (List.intercalate [sep] rest).length < cfBufSize ∧
        (List.intercalate [sep] rest = a.column_value ∨ JoinsPlainly sep rest ∧ ValueOnce a.column_value this_column)
  else if a.column_operation = some setOperation then
    this_column = [a.column_value] ∨ a.column_value.length < cfBufSize
  else
    a.column_value ∈ this_column ∨ (this_column = [] ∧ a.column_value.length < cfBufSize) ∨
      (List.intercalate [sep] (a.added this_column)).length < cfBufSize ∧ a.column_value.length < cfMaxVarSize ∧
        JoinsPlainly sep (a.added this_column) ∧
          (a.column_value = [] →
            a.column_operation = some prependOperation ∨ a.column_operation = some alphanumOperation)

-- The condition on the field.
def FieldConverges (a : ColumnAttributes) (item : CString) : Prop :=
  match a.value_separator with
  | none     => a.warn
  | some sep =>
    item = a.column_value ∨
      ∃ this_column, rlistFromSplitString item sep = some this_column ∧ (a.warn ∨ SubfieldsConverge a sep this_column)

-- An edit of sub-fields that are not read again as they are written: one of them has the separator in it, or ends
-- with a backslash in front of a separator.
structure MisreadSubfields (a : ColumnAttributes) (item : CString) (sep : Char) (this_column : List CString) : Prop where
  separated : a.value_separator = some sep
  differs   : item ≠ a.column_value
  split     : rlistFromSplitString item sep = some this_column
  promised  : ¬a.warn
  notSet    : a.column_operation ≠ some setOperation
  edited    : (doEditColumn a this_column).1
  escaped   : ¬JoinsPlainly sep (doEditColumn a this_column).2

theorem editField_of_none (hsep : a.value_separator = none) (hwarn : ¬a.warn) : editField a item =
    some (some <| if a.column_operation = some deleteOperation then [] else a.column_value) := by
  rw [editField, hsep]
  dsimp only
  rw [if_neg hwarn]
  split <;> rfl

-- A whole field is set whatever it is.
theorem fieldSettles_of_none (hsep : a.value_separator = none) : FieldSettles a item ↔ a.warn := by
  constructor
  case mp  =>
    intro h
    by_contra hwarn
    obtain hkept | ⟨item', hset, hkept⟩ := h
    case inl => simp [editField_of_none hsep hwarn] at hkept
    case inr => simp [editField_of_none hsep hwarn] at hkept
  case mpr =>
    intro hwarn
    refine .inl ?_
    rw [editField, hsep]
    exact if_pos hwarn

theorem rlist2String_eq_some_iff :
    rlist2String items [sep] = some field ↔ List.intercalate [sep] items = field ∧ field.length < cfBufSize := by
  rw [rlist2String]
  split
  case isTrue h  =>
    rw [Option.some.injEq]
    exact ⟨fun he => ⟨he, he ▸ h⟩, And.left⟩
  case isFalse h => exact ⟨nofun, fun he => absurd (he.left ▸ he.right) h⟩

theorem length_le_intercalate (h : v ∈ items) : v.length ≤ (List.intercalate [sep] items).length := by
  induction items
  case nil            => cases h
  case cons x items ih =>
    rw [intercalate_cons_eq, List.length_append]
    cases List.mem_cons.mp h
    case inl he =>
      rw [he]
      exact Nat.le_add_right _ _
    case inr hm =>
      cases items
      case nil          => cases hm
      case cons y items =>
        have ih := ih hm
        rw [intercalate_cons_eq, List.length_append] at ih
        simp only [behindSeparators, List.flatMap_cons, List.length_append, List.length_cons] at ih ⊢
        omega

theorem length_lt_intercalate (h : v ∈ items) (hlen : 1 < items.length) :
    v.length < (List.intercalate [sep] items).length := by
  match items with
  | []             => cases h
  | [x]            => exact absurd hlen (Nat.lt_irrefl _)
  | x :: y :: items =>
    rw [List.intercalate_cons_cons, List.length_append]
    cases List.mem_cons.mp h
    case inl he =>
      rw [he, List.length_append, List.length_singleton]
      omega
    case inr hm =>
      have hle := @length_le_intercalate (y :: items) v sep hm
      rw [List.length_append, List.length_singleton]
      omega

-- Whether the sub-fields are kept.
theorem doEditColumn_kept_iff : (doEditColumn a this_column).1 = false ↔
    if a.column_operation = some deleteOperation then a.column_value ∉ this_column
    else if a.column_operation = some setOperation then this_column = [a.column_value]
    else a.column_value ∈ this_column := by
  rw [doEditColumn]
  split
  case isTrue  => split <;> simpa
  case isFalse =>
    split
    case isTrue  => split <;> simpa
    case isFalse =>
      split
      case isTrue  => simp
      case isFalse => split <;> simp

theorem doEditColumn_added (hdelete : a.column_operation ≠ some deleteOperation)
    (hset : a.column_operation ≠ some setOperation) (hm : a.column_value ∉ this_column) :
    (doEditColumn a this_column).2 = a.added this_column := by
  rw [doEditColumn, rlistPrependScalarIdemp, rlistAppendScalarIdemp, if_neg hdelete, if_neg hset, if_neg hm, if_neg hm,
    ColumnAttributes.added]
  split
  case isTrue  => rfl
  case isFalse => split <;> rfl

theorem added_perm : (a.added this_column).Perm (a.column_value :: this_column) := by
  rw [ColumnAttributes.added]
  split
  case isTrue  => exact .refl _
  case isFalse =>
    split
    case isTrue  => exact List.mergeSort_perm _ _
    case isFalse => exact List.perm_append_singleton _ _

theorem editField_of_ne (hsep : a.value_separator = some sep) (hne : item ≠ a.column_value)
    (hsplit : rlistFromSplitString item sep = some this_column) : editField a item =
      if (doEditColumn a this_column).1 ∧ ¬a.warn then
        (rlist2String (doEditColumn a this_column).2 [sep]).map some
      else
        some none := by
  rw [editField, hsep]
  dsimp only
  rw [if_neg hne, hsplit]
  rfl

theorem editField_kept_iff (hsep : a.value_separator = some sep) : editField a item = some none ↔
    item = a.column_value ∨
      ∃ this_column, rlistFromSplitString item sep = some this_column ∧
        (a.warn ∨ (doEditColumn a this_column).1 = false) := by
  by_cases he : item = a.column_value
  case pos =>
    refine iff_of_true ?_ (.inl he)
    rw [editField, hsep]
    exact if_pos he
  case neg =>
    rw [or_iff_right he]
    cases hsplit : rlistFromSplitString item sep
    case none             =>
      rw [editField, hsep]
      simp [he, hsplit]
    case some this_column =>
      rw [editField_of_ne hsep he hsplit]
      by_cases hedit : (doEditColumn a this_column).1 ∧ ¬a.warn
      case pos =>
        rw [if_pos hedit]
        refine iff_of_false (fun h => ?_) ?_
        case refine_1 => cases hw : rlist2String (doEditColumn a this_column).2 [sep] <;> simp [hw] at h
        case refine_2 =>
          rintro ⟨_, hsome, hkept⟩
          cases hsome
          simp_all
      case neg =>
        rw [if_neg hedit]
        refine iff_of_true rfl ⟨_, rfl, ?_⟩
        simpa [imp_iff_not_or, or_comm] using hedit

-- Sub-fields that are edited settle where the value or what is read again is kept.
theorem fieldSettles_of_edited (hsep : a.value_separator = some sep) (hne : item ≠ a.column_value)
    (hsplit : rlistFromSplitString item sep = some this_column) (hedit : (doEditColumn a this_column).1)
    (hwarn : ¬a.warn) :
    FieldSettles a item ↔ rlist2String (doEditColumn a this_column).2 [sep] = some a.column_value ∨
      ∃ again, rewritten sep (doEditColumn a this_column).2 = some again ∧ (doEditColumn a again).1 = false := by
  rw [FieldSettles, editField_of_ne hsep hne hsplit, if_pos ⟨hedit, hwarn⟩, rewritten]
  cases hw : rlist2String (doEditColumn a this_column).2 [sep]
  case none       => simp
  case some item' => simp [editField_kept_iff hsep, hwarn]

-- A value that is added is the whole field only where there have been no sub-fields.
theorem rlist2String_added_iff : rlist2String (a.added this_column) [sep] = some a.column_value ↔
    this_column = [] ∧ a.column_value.length < cfBufSize := by
  have hperm := @added_perm a this_column
  rw [rlist2String_eq_some_iff]
  refine and_congr_left fun _ => ⟨fun he => ?_, fun he => ?_⟩
  case refine_1 =>
    by_contra hne
    have hlen := List.length_pos_iff.mpr hne
    have hlt := @length_lt_intercalate _ a.column_value sep (hperm.mem_iff.mpr List.mem_cons_self) (by
      rw [hperm.length_eq, List.length_cons]
      omega)
    rw [he] at hlt
    exact Nat.lt_irrefl _ hlt
  case refine_2 =>
    rw [he] at hperm ⊢
    rw [List.perm_singleton.mp hperm, List.intercalate_singleton]

theorem mem_withoutBlankEnd_iff : v ∈ withoutBlankEnd items ↔
    v ∈ items ∧ (v = [] → items.getLast? = some [] → 2 ≤ items.count v) := by
  rw [withoutBlankEnd]
  split
  case isFalse h => exact ⟨fun hm => ⟨hm, fun _ hlast => absurd hlast h⟩, And.left⟩
  case isTrue h  =>
    obtain ⟨init, rfl⟩ := List.getLast?_eq_some_iff.mp h
    rw [List.dropLast_concat, List.mem_append, List.mem_singleton, List.count_append, List.count_singleton]
    by_cases hv : v = []
    case neg => simp [hv]
    case pos => simp [hv, ← List.count_pos_iff]

theorem not_mem_withoutBlankEnd_erase_iff (h : v ∈ this_column) :
    v ∉ withoutBlankEnd (this_column.erase v) ↔ ValueOnce v this_column := by
  have hpos := List.count_pos_iff.mpr h
  rw [mem_withoutBlankEnd_iff, ValueOnce, ← List.count_pos_iff, List.count_erase_self]
  by_cases hone : this_column.count v = 1
  case pos => simp [hone]
  case neg =>
    -- Another occurrence is left, and with it the last of the sub-fields.
    obtain ⟨before, behind, hm, hcolumn, herase⟩ := List.exists_erase_eq h
    have hcount : this_column.count v = behind.count v + 1 := by
      rw [hcolumn, List.count_append, List.count_cons_self, List.count_eq_zero.mpr hm, Nat.zero_add]
    have hne : behind ≠ [] := by
      rintro rfl
      exact hone hcount
    have hlast : (this_column.erase v).getLast? = this_column.getLast? := by
      rw [herase, hcolumn, List.getLast?_append_of_ne_nil _ hne,
        List.getLast?_append_of_ne_nil _ (List.cons_ne_nil _ _), List.getLast?_cons_of_ne_nil hne]
    rw [or_iff_right hone, hlast]
    by_cases hv : v = []
    case neg => simp only [hv, false_implies, and_true, false_and, iff_false, not_not]; omega
    case pos =>
      by_cases hend : this_column.getLast? = some []
      case neg => simp only [hend, false_implies, implies_true, and_true, and_false, iff_false, not_not]; omega
      case pos => simp only [hv, hend, forall_const, and_true, true_and] at hone hpos ⊢; omega

-- A blank value is sorted before the others.
theorem alphaSort_getLast? (hne : items ≠ []) (hblank : [] ∉ items) :
    (alphaSortRListNames ([] :: items)).getLast? ≠ some [] := by
  intro hlast
  obtain ⟨init, hinit⟩ := List.getLast?_eq_some_iff.mp hlast
  obtain ⟨f, hf⟩ := List.exists_mem_of_ne_nil _ hne
  have hsorted : (alphaSortRListNames ([] :: items)).Pairwise fun a b => decide (CString.strcmp a b ≤ 0) = true := by
    refine List.pairwise_mergeSort (fun a b c hab hbc => ?_) (fun a b => ?_) _
    case refine_1 =>
      rw [decide_eq_true_eq] at hab hbc ⊢
      obtain hab | hab := Int.lt_or_eq_of_le hab
      case inr => rwa [CString.strcmp_eq_zero_iff.mp hab]
      case inl =>
        obtain hbc | hbc := Int.lt_or_eq_of_le hbc
        case inr =>
          rw [← CString.strcmp_eq_zero_iff.mp hbc]
          exact Int.le_of_lt hab
        case inl => exact Int.le_of_lt (CString.strcmp_trans hab hbc)
    case refine_2 =>
      have hswap := CString.strcmp_swap a b
      simp only [Bool.or_eq_true, decide_eq_true_eq]
      omega
  have hmem : f ∈ init ++ [[]] := by
    rw [← hinit]
    exact (List.mergeSort_perm _ _).mem_iff.mpr (List.mem_cons_of_mem _ hf)
  obtain hm | hm := List.mem_append.mp hmem
  case inl =>
    rw [hinit] at hsorted
    have hle := of_decide_eq_true <| (List.pairwise_append.mp hsorted).right.right f hm [] (List.mem_singleton_self _)
    cases f
    case nil      => exact hblank hf
    case cons c f =>
      rw [CString.strcmp] at hle
      omega
  case inr => exact hblank (List.mem_singleton.mp hm ▸ hf)

-- A blank value comes last where it is appended only.
theorem added_getLast? (hne : this_column ≠ []) (hm : a.column_value ∉ this_column) (hv : a.column_value = []) :
    (a.added this_column).getLast? ≠ some [] ↔
      a.column_operation = some prependOperation ∨ a.column_operation = some alphanumOperation := by
  rw [hv] at hm
  rw [ColumnAttributes.added, hv]
  split
  case isTrue hop  =>
    refine iff_of_true (fun hlast => hm ?_) (.inl hop)
    rw [List.getLast?_cons_of_ne_nil hne] at hlast
    exact List.mem_of_getLast? hlast
  case isFalse hop =>
    rw [or_iff_right hop]
    split
    case isTrue halpha  => exact iff_of_true (alphaSort_getLast? hne hm) halpha
    case isFalse halpha => exact iff_of_false (fun h => h List.getLast?_concat) halpha

theorem rewritten_iff {P : List CString → Prop} (h : JoinsPlainly sep items) :
    (∃ again, rewritten sep items = some again ∧ P again) ↔
      (List.intercalate [sep] items).length < cfBufSize ∧
        (∀ f ∈ withoutBlankEnd items, f.length < cfMaxVarSize) ∧ P (withoutBlankEnd items) := by
  rw [rewritten, rlist2String]
  split
  case isFalse hlong => simp [hlong]
  case isTrue hfits  =>
    rw [Option.bind_some, rlistFromSplitString_of_joinsPlainly h, and_iff_right hfits]
    split
    case isTrue hshort  => simp only [Option.some.injEq, exists_eq_left', and_iff_right hshort]
    case isFalse hshort => simp [hshort]

-- The value is deleted for good.
theorem deleted_iff (hm : v ∈ this_column) (hshort : ∀ f ∈ this_column, f.length < cfMaxVarSize)
    (hplain : JoinsPlainly sep (this_column.erase v)) :
    (rlist2String (this_column.erase v) [sep] = some v ∨
      ∃ again, rewritten sep (this_column.erase v) = some again ∧ v ∉ again) ↔
      (List.intercalate [sep] (this_column.erase v)).length < cfBufSize ∧
        (List.intercalate [sep] (this_column.erase v) = v ∨ ValueOnce v this_column) := by
  have hrest : ∀ f ∈ withoutBlankEnd (this_column.erase v), f.length < cfMaxVarSize :=
    fun f hf => hshort f <| List.mem_of_mem_erase (mem_withoutBlankEnd_iff.mp hf).left
  rw [rewritten_iff hplain, rlist2String_eq_some_iff, not_mem_withoutBlankEnd_erase_iff hm]
  constructor
  case mp  =>
    rintro (⟨he, hfits⟩ | ⟨hfits, _, honce⟩)
    case inl => exact ⟨he.symm ▸ hfits, .inl he⟩
    case inr => exact ⟨hfits, .inr honce⟩
  case mpr =>
    rintro ⟨hfits, he | honce⟩
    case inl => exact .inl ⟨he, by rwa [he] at hfits⟩
    case inr => exact .inr ⟨hfits, hrest, honce⟩

-- The value that has been added is read again.
theorem added_iff (hne : this_column ≠ []) (hm : a.column_value ∉ this_column)
    (hshort : ∀ f ∈ this_column, f.length < cfMaxVarSize) (hplain : JoinsPlainly sep (a.added this_column)) :
    (∃ again, rewritten sep (a.added this_column) = some again ∧ a.column_value ∈ again) ↔
      (List.intercalate [sep] (a.added this_column)).length < cfBufSize ∧ a.column_value.length < cfMaxVarSize ∧
        (a.column_value = [] →
          a.column_operation = some prependOperation ∨ a.column_operation = some alphanumOperation) := by
  have hperm := @added_perm a this_column
  have hin : a.column_value ∈ a.added this_column := hperm.mem_iff.mpr List.mem_cons_self
  have hcount : (a.added this_column).count a.column_value = 1 := by
    rw [hperm.count_eq, List.count_cons_self, List.count_eq_zero.mpr hm]
  have hread : a.column_value ∈ withoutBlankEnd (a.added this_column) ↔
      (a.column_value = [] →
        a.column_operation = some prependOperation ∨ a.column_operation = some alphanumOperation) := by
    rw [mem_withoutBlankEnd_iff, and_iff_right hin, hcount]
    refine forall_congr' fun hv => ?_
    rw [← added_getLast? hne hm hv]
    exact ⟨fun h hlast => absurd (h hlast) (by decide), fun h hlast => absurd hlast h⟩
  rw [rewritten_iff hplain, ← hread]
  refine and_congr_right fun _ => ⟨fun h => ⟨h.left _ h.right, h.right⟩, fun h => ⟨fun f hf => ?_, h.right⟩⟩
  obtain rfl | hf := List.mem_cons.mp (hperm.mem_iff.mp (mem_withoutBlankEnd_iff.mp hf).left)
  case inl => exact h.left
  case inr => exact hshort f hf

theorem doEditColumn_deleted (hdelete : a.column_operation = some deleteOperation) (hm : a.column_value ∈ this_column) :
    (doEditColumn a this_column).2 = this_column.erase a.column_value := by
  rw [doEditColumn, if_pos hdelete, if_pos hm]

theorem fieldSettles_iff_subfieldsConverge (hsep : a.value_separator = some sep) (hne : item ≠ a.column_value)
    (hsplit : rlistFromSplitString item sep = some this_column) (hwarn : ¬a.warn)
    (hplain : a.column_operation ≠ some setOperation → (doEditColumn a this_column).1 →
      JoinsPlainly sep (doEditColumn a this_column).2) :
    FieldSettles a item ↔ SubfieldsConverge a sep this_column := by
  have hkept {columns : List CString} := @doEditColumn_kept_iff a columns
  have hshort := length_lt_of_mem_rlistFromSplitString hsplit
  by_cases hedit : (doEditColumn a this_column).1
  case neg =>
    -- The sub-fields are as promised.
    have hfalse := Bool.eq_false_iff.mpr hedit
    refine iff_of_true (.inl <| (editField_kept_iff hsep).mpr <| .inr ⟨_, hsplit, .inr hfalse⟩) ?_
    rw [hkept] at hfalse
    rw [SubfieldsConverge]
    split
    case isTrue hop  =>
      rw [if_pos hop] at hfalse
      exact fun hm => absurd hm hfalse
    case isFalse hop =>
      rw [if_neg hop] at hfalse
      split
      case isTrue hop  => exact .inl <| by rwa [if_pos hop] at hfalse
      case isFalse hop => exact .inl <| by rwa [if_neg hop] at hfalse
  case pos =>
    have hthis : ¬(doEditColumn a this_column).1 = false := Bool.not_eq_false _ ▸ hedit
    rw [hkept] at hthis
    rw [fieldSettles_of_edited hsep hne hsplit hedit hwarn, SubfieldsConverge]
    simp only [hkept]
    by_cases hdelete : a.column_operation = some deleteOperation
    case pos =>
      simp only [if_pos hdelete, not_not] at hthis ⊢
      have hplain := hplain (by rw [hdelete]; decide) hedit
      rw [doEditColumn_deleted hdelete hthis] at hplain ⊢
      rw [deleted_iff hthis hshort hplain]
      simp only [hthis, hplain, true_and, forall_const]
    case neg =>
      by_cases hset : a.column_operation = some setOperation
      case pos =>
        have hedited : (doEditColumn a this_column).2 = [a.column_value] := by
          rw [if_neg hdelete, if_pos hset] at hthis
          rw [doEditColumn, if_neg hdelete, if_pos hset, if_neg hthis]
        simp only [if_neg hdelete, if_pos hset] at hthis ⊢
        rw [or_iff_right hthis, hedited, rewritten, rlist2String, List.intercalate_singleton]
        split
        case isTrue h  => exact iff_of_true (.inl rfl) h
        case isFalse h =>
          refine iff_of_false ?_ h
          rintro (he | ⟨_, he, _⟩) <;> cases he
      case neg =>
        simp only [if_neg hdelete, if_neg hset] at hthis ⊢
        have hplain := hplain hset hedit
        rw [doEditColumn_added hdelete hset hthis] at hplain ⊢
        rw [or_iff_right hthis, rlist2String_added_iff]
        by_cases hempty : this_column = []
        case pos =>
          have hjoin : List.intercalate [sep] (a.added this_column) = a.column_value := by
            have hperm := @added_perm a this_column
            rw [hempty] at hperm ⊢
            rw [List.perm_singleton.mp hperm, List.intercalate_singleton]
          rw [rewritten_iff hplain, hjoin]
          by_cases hfits : a.column_value.length < cfBufSize
          case pos => exact iff_of_true (.inl ⟨hempty, hfits⟩) (.inl ⟨hempty, hfits⟩)
          case neg => simp only [hfits, and_false, false_and]
        case neg =>
          rw [added_iff hempty hthis hshort hplain]
          simp only [hempty, hplain, false_and, false_or, true_and]

-- The condition is enough for sub-fields that are misread as well.
theorem SubfieldsConverge.settles (h : SubfieldsConverge a sep this_column) (hsep : a.value_separator = some sep)
    (hne : item ≠ a.column_value) (hsplit : rlistFromSplitString item sep = some this_column) (hwarn : ¬a.warn) :
    FieldSettles a item := by
  by_cases hplain : a.column_operation ≠ some setOperation → (doEditColumn a this_column).1 →
      JoinsPlainly sep (doEditColumn a this_column).2
  case pos => exact (fieldSettles_iff_subfieldsConverge hsep hne hsplit hwarn hplain).mpr h
  case neg =>
    rw [Classical.not_imp, Classical.not_imp] at hplain
    obtain ⟨hset, hedit, hplain⟩ := hplain
    have hthis : ¬(doEditColumn a this_column).1 = false := Bool.not_eq_false _ ▸ hedit
    rw [doEditColumn_kept_iff] at hthis
    refine (fieldSettles_of_edited hsep hne hsplit hedit hwarn).mpr <| .inl ?_
    rw [SubfieldsConverge] at h
    by_cases hdelete : a.column_operation = some deleteOperation
    case pos =>
      simp only [if_pos hdelete, not_not] at hthis h
      rw [doEditColumn_deleted hdelete hthis] at hplain ⊢
      obtain ⟨hfits, he | ⟨hjoins, _⟩⟩ := h hthis
      case inl => exact rlist2String_eq_some_iff.mpr ⟨he, he ▸ hfits⟩
      case inr => exact absurd hjoins hplain
    case neg =>
      simp only [if_neg hdelete, if_neg hset] at hthis h
      rw [doEditColumn_added hdelete hset hthis] at hplain ⊢
      obtain hm | hempty | ⟨_, _, hjoins, _⟩ := h
      case inl     => exact absurd hm hthis
      case inr.inl => exact rlist2String_added_iff.mpr hempty
      case inr.inr => exact absurd hjoins hplain

theorem FieldConverges.settles (h : FieldConverges a item) : FieldSettles a item := by
  rw [FieldConverges] at h
  cases hsep : a.value_separator
  case none     =>
    rw [hsep] at h
    exact (fieldSettles_of_none hsep).mpr h
  case some sep =>
    rw [hsep] at h
    by_cases hkept : editField a item = some none
    case pos => exact .inl hkept
    case neg =>
      rw [editField_kept_iff hsep] at hkept
      obtain he | ⟨this_column, hsplit, hwarn | hsub⟩ := h
      case inl     => exact absurd (.inl he) hkept
      case inr.inl => exact absurd (.inr ⟨_, hsplit, .inl hwarn⟩) hkept
      case inr.inr =>
        exact hsub.settles hsep (fun he => hkept <| .inl he) hsplit
          fun hwarn => hkept <| .inr ⟨_, hsplit, .inl hwarn⟩

theorem FieldSettles.converges (h : FieldSettles a item)
    (hplain : ∀ sep this_column, ¬MisreadSubfields a item sep this_column) : FieldConverges a item := by
  rw [FieldConverges]
  cases hsep : a.value_separator
  case none     => exact (fieldSettles_of_none hsep).mp h
  case some sep =>
    dsimp only
    by_cases he : item = a.column_value
    case pos => exact .inl he
    case neg =>
      refine .inr ?_
      cases hsplit : rlistFromSplitString item sep
      case none             =>
        have hnone : editField a item = none := by
          rw [editField, hsep]
          simp [he, hsplit]
        simp [FieldSettles, hnone] at h
      case some this_column =>
        refine ⟨_, rfl, or_iff_not_imp_left.mpr fun hwarn => ?_⟩
        refine (fieldSettles_iff_subfieldsConverge hsep he hsplit hwarn fun hset hedit => ?_).mp h
        by_contra hescaped
        exact hplain _ _ ⟨hsep, he, hsplit, hwarn, hset, hedit, hescaped⟩

-- What is written by an edit that is misread is not what is read again.
theorem MisreadSubfields.reads_ne (h : MisreadSubfields a item sep this_column) (hslash : sep ≠ '\\')
    (htext : editField a item = some (some field)) :
    rlistFromSplitString field sep ≠ some (withoutBlankEnd (doEditColumn a this_column).2) := by
  rw [editField_of_ne h.separated h.differs h.split, if_pos ⟨h.edited, h.promised⟩] at htext
  obtain ⟨text, htext, he⟩ := Option.map_eq_some_iff.mp htext
  rw [← Option.some.inj he, ← (rlist2String_eq_some_iff.mp htext).left]
  exact fun hread => h.escaped <| joinsPlainly_of_rlistFromSplitString hslash hread

end

-- What the edit has made of the columns is kept by another one.
def EditConverges (a : ColumnAttributes) (columns : List CString) (num_edits : Nat) : Prop :=
  ∃ retval columns' num_edits', editLineByColumn a columns num_edits = some (retval, columns', num_edits') ∧
    editLineByColumn a columns' num_edits' = some (false, columns', num_edits')

-- The condition on the columns.
def ColumnsConverge (a : ColumnAttributes) (columns : List CString) : Prop :=
  (columns.length < a.select_column ∧ ¬a.extend_columns) ∨
    0 < a.select_column ∧ FieldConverges a (columns.getD (a.select_column.toNat - 1) [])

-- The condition is enough, and it leaves out the edits only whose sub-fields are read in another way than they have been
-- written.
theorem editLineByColumn_converges (a : ColumnAttributes) (columns : List CString) (num_edits : Nat) :
    let item := columns.getD (a.select_column.toNat - 1) []
    (ColumnsConverge a columns → EditConverges a columns num_edits) ∧
      (EditConverges a columns num_edits →
        ColumnsConverge a columns ∨ ∃ sep this_column, MisreadSubfields a item sep this_column) ∧
        ∀ sep this_column field, sep ≠ '\\' → MisreadSubfields a item sep this_column →
          editField a item = some (some field) →
            rlistFromSplitString field sep ≠ some (withoutBlankEnd (doEditColumn a this_column).2) := by
  intro item
  rw [EditConverges, editLineByColumn_settles_iff]
  refine ⟨Or.imp_right <| And.imp_right FieldConverges.settles, fun h => ?_, fun _ _ _ hslash h => h.reads_ne hslash⟩
  by_cases hplain : ∃ sep this_column, MisreadSubfields a item sep this_column
  case pos => exact .inr hplain
  case neg =>
    rw [not_exists] at hplain
    refine .inl <| Or.imp_right (And.imp_right fun h => ?_) h
    exact h.converges fun sep => not_exists.mp <| hplain sep

-- The second of three sub-fields is deleted.
theorem editLineByColumn_converges_delete :
    EditConverges ⟨[':'], 1, some ',', ['b'], some deleteOperation, false, false, false⟩
      [['a', ',', 'b', ',', 'c']] 0 := by
  refine (editLineByColumn_converges _ _ _).left <| .inr ⟨by decide, .inr ⟨[['a'], ['b'], ['c']], ?_, .inr ?_⟩⟩
  case refine_1 =>
    exact @rlistFromSplitString_of_joinsPlainly ',' [['a'], ['b'], ['c']] ⟨by decide, by decide⟩
  case refine_2 => exact fun _ => ⟨by decide, .inr ⟨⟨by decide, by decide⟩, .inl <| by decide⟩⟩

-- A whole field is set again where it has the value.
theorem not_editLineByColumn_converges : ¬∀ a columns num_edits, EditConverges a columns num_edits := by
  intro h
  obtain ⟨retval, columns', num_edits', hrun, hagain⟩ := h ⟨[':'], 1, none, ['x'], none, false, false, false⟩ [['x']] 0
  cases hrun
  cases hagain

end CfEngine
