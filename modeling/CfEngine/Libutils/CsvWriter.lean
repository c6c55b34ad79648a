import CfEngine.Library.Csv
import CfEngine.Libutils.Strings
import Mathlib.Data.List.TakeDrop

namespace CfEngine

def intMax : Nat := 2147483647

-- The memory has room for the data and the zero at its end.
structure StringWriter where
  data      : CString
  allocated : Nat
  fits      : data.length < allocated

def stringWriter : StringWriter where
  data      := []
  allocated := 1
  fits      := Nat.zero_lt_one

def stringWriterReallocate (writer : StringWriter) (extraLength : Nat) : StringWriter where
  data      := writer.data
  allocated := max (writer.allocated * 2) (writer.data.length + extraLength + 1)
  fits      := Nat.lt_of_lt_of_le (Nat.lt_succ_of_le <| Nat.le_add_right _ _) <| Nat.le_max_right _ _

theorem length_lt_allocated (writer : StringWriter) {n m : Nat} (h : n ≤ m) : writer.data.length + n <
    (if writer.allocated < writer.data.length + n + 1 then stringWriterReallocate writer m else writer).allocated := by
  split
  case isTrue  =>
    have hroom := Nat.lt_succ_of_le <| Nat.add_le_add_left h writer.data.length
    exact Nat.lt_of_lt_of_le hroom <| Nat.le_max_right _ _
  case isFalse => omega

def stringWriterWriteChar (writer : StringWriter) (c : Char) : StringWriter :=
  let room := if writer.allocated < writer.data.length + 1 + 1 then stringWriterReallocate writer 2 else writer
  {
    data      := writer.data ++ [c]
    allocated := room.allocated
    fits      := by
      rw [List.length_append]
      exact length_lt_allocated writer <| Nat.le_succ 1
  }

def stringWriterWriteLen (writer : StringWriter) (str : CString) (len : Nat) : StringWriter :=
  let len := min str.length len
  let room := if writer.allocated < writer.data.length + len + 1 then stringWriterReallocate writer len else writer
  {
    data      := writer.data ++ str.take len
    allocated := room.allocated
    fits      := by
      rw [List.length_append, List.length_take_of_le (Nat.min_le_left _ _)]
      exact length_lt_allocated writer le_rfl
  }

def writerWrite (writer : StringWriter) (str : CString) : StringWriter :=
  stringWriterWriteLen writer str intMax

structure CsvWriter where
  w               : StringWriter
  beginningOfLine : Bool

def csvWriterOpen (w : StringWriter) : CsvWriter where
  w               := w
  beginningOfLine := true

def writeCsvEscapedChars (w : StringWriter) : CString → StringWriter
  | []     => w
  | c :: s =>
    let w := if c = '"' then stringWriterWriteChar w '"' else w
    writeCsvEscapedChars (stringWriterWriteChar w c) s

def writeCsvEscapedString (w : StringWriter) (s : CString) : StringWriter :=
  stringWriterWriteChar (writeCsvEscapedChars (stringWriterWriteChar w '"') s) '"'

def csvWriterField (csvw : CsvWriter) (str : CString) : CsvWriter :=
  let w := if csvw.beginningOfLine then csvw.w else stringWriterWriteChar csvw.w ','
  {
    w               := if str.any (· ∈ ['"', ',', '\r', '\n']) then writeCsvEscapedString w str else writerWrite w str
    beginningOfLine := false
  }

def csvWriterNewRecord (csvw : CsvWriter) : CsvWriter where
  w               := writerWrite csvw.w ['\r', '\n']
  beginningOfLine := true

def csvWriterClose (csvw : CsvWriter) : StringWriter :=
  if csvw.beginningOfLine then csvw.w else writerWrite csvw.w ['\r', '\n']

-- The last record may be left open.
def writeRecords (ended : Bool) (csvw : CsvWriter) : List (List CString) → CsvWriter
  | []                => csvw
  | record :: records =>
    let csvw := record.foldl csvWriterField csvw
    writeRecords ended (if records = [] ∧ ¬ended then csvw else csvWriterNewRecord csvw) records

def csvText (records : List (List CString)) (ended : Bool) : CString :=
  (csvWriterClose <| writeRecords ended (csvWriterOpen stringWriter) records).data

example : csvText [[['a'], ['"']], [[], []]] false =
    ['a', ',', '"', '"', '"', '"', '\r', '\n', ',', '\r', '\n'] := by decide

open Csv

-- What is written of a field.
def keptField (str : CString) : CString :=
  if str.any (· ∈ special) then str else str.take intMax

section
variable {w : StringWriter} {csvw : CsvWriter} {str : CString} {record : List CString} {records : List (List CString)}

theorem data_stringWriterWriteChar {c : Char} : (stringWriterWriteChar w c).data = w.data ++ [c] :=
  rfl

theorem data_writerWrite : (writerWrite w str).data = w.data ++ str.take intMax := by
  have hdata : (writerWrite w str).data = w.data ++ str.take (min str.length intMax) := rfl
  rw [hdata, Nat.min_comm, ←List.take_take, List.take_length]

theorem data_writeCsvEscapedChars : (writeCsvEscapedChars w str).data = w.data ++ doubled str := by
  induction str generalizing w
  case nil           => exact (List.append_nil _).symm
  case cons c str ih =>
    have hcons : doubled (c :: str) = (if c = '"' then ['"', '"'] else [c]) ++ doubled str := rfl
    rw [writeCsvEscapedChars, ih, hcons, data_stringWriterWriteChar]
    split
    case isTrue hc =>
      rw [data_stringWriterWriteChar, hc]
      simp
    case isFalse   => simp

theorem data_writeCsvEscapedString : (writeCsvEscapedString w str).data = w.data ++ quoted str := by
  rw [writeCsvEscapedString, data_stringWriterWriteChar, data_writeCsvEscapedChars, data_stringWriterWriteChar, quoted]
  simp

-- How what has been written is read: either nothing follows the records, or the fields of the next one do.
inductive Written (csvw : CsvWriter) : List CString → List (List CString) → Prop
  | beginning {records : List (List CString)} : csvw.beginningOfLine = true →
    (Parser.start []).run csvw.w.data = some (.start records) → Written csvw [] records
  | within {p : Parser} {record : List CString} {records : List (List CString)} : csvw.beginningOfLine = false →
    (Parser.start []).run csvw.w.data = some p → p.Ends record records → Written csvw record records

theorem written_open : Written (csvWriterOpen stringWriter) [] [] :=
  .beginning rfl rfl

theorem Written.separator (h : Written csvw record records) : ∃ p : Parser,
    (Parser.start []).run (if csvw.beginningOfLine then csvw.w else stringWriterWriteChar csvw.w ',').data = some p ∧
      p.Begins record records := by
  cases h
  case beginning hb hrun =>
    rw [if_pos hb]
    exact ⟨_, hrun, Parser.begins_start⟩
  case within p hb hrun hend =>
    obtain ⟨p', hstep, hbegins⟩ := hend.step_comma
    refine ⟨p', ?_, hbegins⟩
    rw [if_neg (by simp [hb]), data_stringWriterWriteChar, Parser.run_append, hrun, Option.bind_some, Parser.run_cons,
      hstep]
    rfl

theorem Written.field (h : Written csvw record records) :
    Written (csvWriterField csvw str) (record ++ [keptField str]) records := by
  obtain ⟨p, hrun, hbegins⟩ := h.separator
  by_cases hs : str.any (· ∈ special) = true
  case pos =>
    obtain ⟨p', hrun', hend⟩ := hbegins.run_quoted (f := str)
    have hdata : (csvWriterField csvw str).w.data =
        (if csvw.beginningOfLine then csvw.w else stringWriterWriteChar csvw.w ',').data ++ quoted str := by
      rw [csvWriterField, ←data_writeCsvEscapedString]
      exact congrArg StringWriter.data <| if_pos hs
    rw [keptField, if_pos hs]
    exact .within rfl (by rw [hdata, Parser.run_append, hrun, Option.bind_some, hrun']) hend
  case neg =>
    have hplain : Plain (str.take intMax) := fun c hc hspecial =>
      hs <| List.any_eq_true.mpr ⟨c, List.mem_of_mem_take hc, decide_eq_true hspecial⟩
    obtain ⟨p', hrun', hend⟩ := hbegins.run_plain hplain
    have hdata : (csvWriterField csvw str).w.data =
        (if csvw.beginningOfLine then csvw.w else stringWriterWriteChar csvw.w ',').data ++ str.take intMax := by
      rw [csvWriterField, ←data_writerWrite]
      exact congrArg StringWriter.data <| if_neg hs
    rw [keptField, if_neg hs]
    exact .within rfl (by rw [hdata, Parser.run_append, hrun, Option.bind_some, hrun']) hend

theorem Written.fields {strs : List CString} (h : Written csvw record records) :
    Written (strs.foldl csvWriterField csvw) (record ++ strs.map keptField) records := by
  induction strs generalizing csvw record
  case nil              => rwa [List.map_nil, List.append_nil]
  case cons str strs ih =>
    have hfield : Written (csvWriterField csvw str) (record ++ [keptField str]) records := h.field
    have hstep := ih hfield
    rwa [List.append_assoc] at hstep

-- A record that is not empty is ended by a line break.
theorem Written.run_break (h : Written csvw record records) (hne : record ≠ []) :
    (Parser.start []).run (writerWrite csvw.w ['\r', '\n']).data = some (.start <| records ++ [record]) := by
  cases h
  case beginning             => exact absurd rfl hne
  case within p hb hrun hend =>
    rw [data_writerWrite, Parser.run_append, hrun, Option.bind_some, ←hend.run_break]
    rfl

theorem Written.newRecord (h : Written csvw record records) (hne : record ≠ []) :
    Written (csvWriterNewRecord csvw) [] (records ++ [record]) :=
  .beginning rfl <| h.run_break hne

theorem Written.parse_close (h : Written csvw record records) :
    parse (csvWriterClose csvw).data = some (if record = [] then records else records ++ [record]) := by
  have hwithin := h.run_break
  cases h
  case beginning hb hrun     => rw [csvWriterClose, if_pos hb, if_pos rfl, parse_of_run hrun]
  case within p hb hrun hend =>
    have hne : record ≠ [] := by
      rw [←hend.record]
      exact List.concat_ne_nil _ _
    rw [csvWriterClose, if_neg (by simp [hb]), if_neg hne, parse_of_run <| hwithin hne]

theorem Written.parse_writeRecords {ended : Bool} {rest : List (List CString)} (h : Written csvw [] records)
    (hne : ∀ record ∈ rest, record ≠ []) :
    parse (csvWriterClose <| writeRecords ended csvw rest).data = some (records ++ rest.map (·.map keptField)) := by
  induction rest generalizing csvw records
  case nil                 => rw [writeRecords, h.parse_close, if_pos rfl, List.map_nil, List.append_nil]
  case cons record rest ih =>
    have hfields : Written (record.foldl csvWriterField csvw) ([] ++ record.map keptField) records := h.fields
    have hrecord : record.map keptField ≠ [] := fun he => hne record List.mem_cons_self <| List.map_eq_nil_iff.mp he
    rw [List.nil_append] at hfields
    rw [writeRecords, List.map_cons]
    split
    case isTrue ho =>
      obtain ⟨rfl, -⟩ := ho
      rw [writeRecords, hfields.parse_close, if_neg hrecord, List.map_nil]
    case isFalse   =>
      have hnext := ih (hfields.newRecord hrecord) fun record hr => hne record <| List.mem_cons_of_mem _ hr
      rwa [List.append_assoc, List.singleton_append] at hnext

theorem parse_csvText {ended : Bool} (hne : ∀ record ∈ records, record ≠ []) :
    parse (csvText records ended) = some (records.map (·.map keptField)) := by
  rw [csvText, written_open.parse_writeRecords hne, List.nil_append]

theorem keptField_eq_iff : keptField str = str ↔ ((∀ c ∈ str, c ∉ special) → str.length ≤ intMax) := by
  by_cases hs : str.any (· ∈ special) = true
  case pos =>
    obtain ⟨c, hc, hspecial⟩ := List.any_eq_true.mp hs
    rw [keptField, if_pos hs]
    exact iff_of_true rfl fun h => absurd (of_decide_eq_true hspecial) <| h c hc
  case neg =>
    rw [keptField, if_neg hs, List.take_eq_self_iff]
    exact ⟨fun h _ => h, fun h => h fun c hc hspecial => hs <| List.any_eq_true.mpr ⟨c, hc, decide_eq_true hspecial⟩⟩

theorem map_eq_self_iff {α : Type} {f : α → α} {l : List α} : l.map f = l ↔ ∀ x ∈ l, f x = x := by
  have h := @List.map_inj_left α α l f id
  rwa [List.map_id] at h

-- Fields without special characters are cut at INT_MAX characters, all others are written as they are.
theorem csvText_iff (records : List (List CString)) (hne : ∀ record ∈ records, record ≠ []) (ended : Bool) :
    parse (csvText records ended) = some records ↔
      ∀ record ∈ records, ∀ str ∈ record, (∀ c ∈ str, c ∉ special) → str.length ≤ intMax := by
  rw [parse_csvText hne, Option.some.injEq, map_eq_self_iff]
  simp only [map_eq_self_iff, keptField_eq_iff]

end

-- A field between quotes, empty fields, and a record that is left open.
theorem csvText_fields :
    (∀ record ∈ [[['a'], ['"', ',']], [[], []]], record ≠ ([] : List CString)) ∧
    parse (csvText [[['a'], ['"', ',']], [[], []]] false) = some [[['a'], ['"', ',']], [[], []]] := by
  refine ⟨by decide, (csvText_iff [[['a'], ['"', ',']], [[], []]] (by decide) false).mpr ?_⟩
  intro record hr str hs _
  have hshort : ∀ record ∈ [[['a'], ['"', ',']], [[], []]], ∀ str ∈ record, str.length ≤ intMax := by decide
  exact hshort record hr str hs

-- The last of 2147483648 characters is missing.
theorem not_csvText : ¬∀ (records : List (List CString)) (ended : Bool), (∀ record ∈ records, record ≠ []) →
    parse (csvText records ended) = some records := by
  intro h
  have hparse := h [[List.replicate (intMax + 1) 'a']] true (by simp)
  rw [parse_csvText (by simp)] at hparse
  simp only [List.map_cons, List.map_nil, Option.some.injEq, List.cons.injEq, and_true] at hparse
  have hplain : ∀ c ∈ List.replicate (intMax + 1) 'a', c ∉ special := by
    intro c hc
    rw [List.eq_of_mem_replicate hc]
    decide
  have hle := keptField_eq_iff.mp hparse hplain
  rw [List.length_replicate] at hle
  exact Nat.not_succ_le_self _ hle

end CfEngine
