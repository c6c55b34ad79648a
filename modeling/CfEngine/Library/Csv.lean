import Mathlib.Data.List.Basic

-- Comma-separated values, as RFC 4180 has them: records end with a line break of two characters, and a field with
-- special characters in it stands between quotes, with its own quotes doubled.

namespace Csv

abbrev Field := List Char

-- Before the first field of a record or another one, in a field, between quotes, at a quote there, or within a line
-- break.
inductive Reading
  | record
  | field
  | text
  | quoted
  | quote
  | cr
  deriving DecidableEq

structure Parser where
  reading : Reading
  field   : Field
  record  : List Field
  records : List (List Field)

namespace Parser

def start (records : List (List Field)) : Parser where
  reading := .record
  field   := []
  record  := []
  records := records

def step (p : Parser) (c : Char) : Option Parser :=
  match p.reading with
  | .quoted =>
    if c = '"' then some { p with reading := .quote } else some { p with field := p.field ++ [c] }
  | .cr     =>
    if c = '\n' then some <| start <| p.records ++ [p.record ++ [p.field]] else none
  | _       =>
    if c = ',' then
      some { p with reading := .field, field := [], record := p.record ++ [p.field] }
    else if c = '\r' then
      some { p with reading := .cr }
    else if c = '"' then
      match p.reading with
      | .quote => some { p with reading := .quoted, field := p.field ++ ['"'] }
      | .text  => none
      | _      => some { p with reading := .quoted }
    else if c = '\n' ∨ p.reading = .quote then
      none
    else
      some { p with reading := .text, field := p.field ++ [c] }

def run (p : Parser) (s : List Char) : Option Parser :=
  s.foldlM step p

end Parser

def parse (s : List Char) : Option (List (List Field)) :=
  match Parser.run (.start []) s with
  | none   => none
  | some p => if p.reading = .record then some p.records else none

example : parse ['a', ',', '"', '"', '"', ',', '"', '\r', '\n', '\r', '\n'] = some [[['a'], ['"', ',']], [[]]] := by
  decide

def special : List Char :=
  ['"', ',', '\r', '\n']

-- What can stand without quotes.
def Plain (f : Field) : Prop :=
  ∀ c ∈ f, c ∉ special

def doubled (f : Field) : List Char :=
  f.flatMap fun c => if c = '"' then ['"', '"'] else [c]

def quoted (f : Field) : List Char :=
  '"' :: doubled f ++ ['"']

namespace Parser

section
variable {p p' : Parser} {f : Field} {s t : List Char} {record : List Field} {records : List (List Field)}

-- A field begins.
structure Begins (p : Parser) (record : List Field) (records : List (List Field)) : Prop where
  reading : p.reading = .record ∨ p.reading = .field
  field   : p.field = []
  record  : p.record = record
  records : p.records = records

-- The last field may end.
structure Ends (p : Parser) (record : List Field) (records : List (List Field)) : Prop where
  reading : p.reading ≠ .quoted ∧ p.reading ≠ .cr
  record  : p.record ++ [p.field] = record
  records : p.records = records

theorem begins_start : (start records).Begins [] records where
  reading := .inl rfl
  field   := rfl
  record  := rfl
  records := rfl

theorem run_append : p.run (s ++ t) = (p.run s).bind (·.run t) :=
  List.foldlM_append

theorem run_cons {c : Char} : p.run (c :: s) = (p.step c).bind (·.run s) :=
  rfl

theorem step_plain {c : Char} (hc : c ∉ special) (hr : p.reading = .record ∨ p.reading = .field ∨ p.reading = .text) :
    p.step c = some { p with reading := .text, field := p.field ++ [c] } := by
  simp only [special, List.mem_cons, List.not_mem_nil, or_false, not_or] at hc
  obtain ⟨hquote, hcomma, hcr, hlf⟩ := hc
  rcases hr with hr | hr | hr <;> simp [step, hr, hquote, hcomma, hcr, hlf]

theorem run_plain (hf : Plain f) (hr : p.reading = .record ∨ p.reading = .field ∨ p.reading = .text) :
    ∃ p', p.run f = some p' ∧ p'.Ends (p.record ++ [p.field ++ f]) p.records := by
  induction f generalizing p
  case nil       =>
    refine ⟨p, rfl, ⟨?_, ?_⟩, ?_, rfl⟩
    · rcases hr with hr | hr | hr <;> simp [hr]
    · rcases hr with hr | hr | hr <;> simp [hr]
    · rw [List.append_nil]
  case cons c f ih =>
    have hstep := step_plain (hf c List.mem_cons_self) hr
    obtain ⟨p', hrun, hend⟩ := @ih { p with reading := .text, field := p.field ++ [c] }
      (fun c hc => hf c <| List.mem_cons_of_mem _ hc) (.inr <| .inr rfl)
    refine ⟨p', ?_, ?_⟩
    · rw [run_cons, hstep]
      exact hrun
    · rwa [List.append_assoc] at hend

theorem run_doubled (hr : p.reading = .quoted) : p.run (doubled f) = some { p with field := p.field ++ f } := by
  induction f generalizing p
  case nil       =>
    rw [List.append_nil]
    rfl
  case cons c f ih =>
    have hnext := @ih { p with field := p.field ++ [c] } hr
    have hchar : p.run (if c = '"' then ['"', '"'] else [c]) = some { p with field := p.field ++ [c] } := by
      split
      case isTrue hc  => simp [run, step, hr, hc]
      case isFalse hc => simp [run, step, hr, hc]
    have hcons : doubled (c :: f) = (if c = '"' then ['"', '"'] else [c]) ++ doubled f := rfl
    rw [hcons, run_append, hchar, Option.bind_some, hnext, List.append_assoc]
    rfl

theorem Begins.run_plain (h : p.Begins record records) (hf : Plain f) :
    ∃ p', p.run f = some p' ∧ p'.Ends (record ++ [f]) records := by
  have hr : p.reading = .record ∨ p.reading = .field ∨ p.reading = .text := h.reading.elim .inl (.inr ∘ .inl)
  obtain ⟨p', hrun, hend⟩ := Parser.run_plain hf hr
  rw [h.record, h.records, h.field, List.nil_append] at hend
  exact ⟨p', hrun, hend⟩

theorem Begins.run_quoted (h : p.Begins record records) :
    ∃ p', p.run (quoted f) = some p' ∧ p'.Ends (record ++ [f]) records := by
  have hopen : p.step '"' = some { p with reading := .quoted } := by
    rcases h.reading with hr | hr <;> simp [step, hr]
  have hbody := @run_doubled { p with reading := .quoted } f rfl
  refine ⟨{ p with reading := .quote, field := f }, ?_, ⟨by simp, by simp⟩, ?_, h.records⟩
  · rw [quoted, List.cons_append, run_cons, hopen, Option.bind_some, run_append, hbody, h.field, List.nil_append]
    rfl
  · rw [h.record]

theorem Ends.step_comma (h : p.Ends record records) : ∃ p', p.step ',' = some p' ∧ p'.Begins record records := by
  refine ⟨{ p with reading := .field, field := [], record := p.record ++ [p.field] }, ?_, ?_⟩
  case refine_2 => exact ⟨.inr rfl, rfl, h.record, h.records⟩
  obtain ⟨hq, hc⟩ := h.reading
  rw [step]
  cases hr : p.reading
  all_goals simp_all

theorem Ends.run_break (h : p.Ends record records) : p.run ['\r', '\n'] = some (start <| records ++ [record]) := by
  have hcr : p.step '\r' = some { p with reading := .cr } := by
    obtain ⟨hq, hc⟩ := h.reading
    rw [step]
    cases hr : p.reading
    all_goals simp_all
  have hlf : step { p with reading := .cr } '\n' = some (start <| records ++ [record]) := by
    rw [←h.record, ←h.records]
    rfl
  rw [run_cons, hcr, Option.bind_some, run_cons, hlf]
  rfl

end

end Parser

theorem parse_of_run {s : List Char} {records : List (List Field)}
    (h : (Parser.start []).run s = some (.start records)) : parse s = some records := by
  rw [parse, h]
  rfl

end Csv
