import CfEngine.Libpromises.EnvContext
import CfEngine.Library.Outcome

namespace CfEngine

inductive ParseState
  | opened
  | preclosed
  | closed
  | io
  | elm1
  | elm2
  | end1
  | end2
  | sep
  | error
  deriving DecidableEq

def classBlank (c : Char) : Bool := c = ' ' ∨ c = '\t'

def classStart1 (c : Char) : Bool := c = '\''

def classStart2 (c : Char) : Bool := c = '"'

def classEnd1 (c : Char) : Bool := classStart1 c

def classEnd2 (c : Char) : Bool := classStart2 c

def classBra1 (c : Char) : Bool := c = '{'

def classBra2 (c : Char) : Bool := c = '}'

def classSep (c : Char) : Bool := c = ','

def classEol (c : Char) : Bool := c = '\x00'

def classAny0 (c : Char) : Bool := !classBlank c && !classBra1 c

def classAny1 (c : Char) : Bool := !classBlank c && !classStart1 c && !classStart2 c

def classAny2 (c : Char) : Bool := !classEnd1 c

def classAny3 (c : Char) : Bool := !classEnd2 c

def classAny4 (c : Char) : Bool := !classBlank c && !classSep c && !classBra2 c

def classAny5 (c : Char) : Bool := !classBlank c && !classSep c && !classBra2 c

def classAny6 (c : Char) : Bool := !classBlank c && !classStart2 c && !classStart2 c

def classAny7 (c : Char) : Bool := !classBlank c && !classEol c

-- The characters of `snatched` before `sn`, if `sn` is not `NULL`.
structure Parsing where
  current_state : ParseState
  sn            : Option CString
  newlist       : List CString

-- The machine stops with a value other than zero, or writes past the end of `snatched`.
inductive ParseFault
  | returned (ret : Nat)
  | overflow

namespace Parsing

def start : Parsing :=
  ⟨.opened, none, []⟩

-- A character of an element is written to `snatched`.
def snatch (parsing : Parsing) (c : Char) : Except ParseFault Parsing :=
  let text := parsing.sn.getD []
  if text.length < cfMaxVarSize then .ok { parsing with sn := some <| text ++ [c] } else .error .overflow

-- The terminator is written to `snatched`, which is appended to the list.
def append (parsing : Parsing) (state : ParseState) : Except ParseFault Parsing :=
  let text := parsing.sn.getD []
  if text.length < cfMaxVarSize then
    .ok { current_state := state, sn := none, newlist := parsing.newlist ++ [text] }
  else
    .error .overflow

-- One turn of the loop. There is none after the list has been closed.
def step (parsing : Parsing) (c : Char) : Except ParseFault Parsing :=
  match parsing.current_state with
  | .closed => .ok parsing
  | .error  => .error <| .returned 1
  | .opened =>
    if classBlank c then .ok { parsing with current_state := .opened }
    else if classBra1 c then .ok { parsing with current_state := .io }
    else if classAny0 c then .ok { parsing with current_state := .error }
    else .ok parsing
  | .io =>
    if classBlank c then .ok { parsing with current_state := .io }
    else if classStart1 c then .ok { parsing with sn := some [], current_state := .elm1 }
    else if classStart2 c then .ok { parsing with sn := some [], current_state := .elm2 }
    else if classAny1 c then .ok { parsing with current_state := .error }
    else .ok parsing
  | .elm1 =>
    if classEnd1 c then parsing.append .end1
    else if classAny2 c then parsing.snatch c
    else .ok parsing
  | .elm2 =>
    if classEnd2 c then parsing.append .end2
    else if classAny3 c then parsing.snatch c
    else .ok parsing
  | .end1 =>
    if classSep c then .ok { parsing with current_state := .sep }
    else if classBra2 c then .ok { parsing with current_state := .preclosed }
    else if classBlank c then .ok { parsing with current_state := .end1 }
    else if classAny4 c then .ok { parsing with current_state := .error }
    else .ok parsing
  | .end2 =>
    if classSep c then .ok { parsing with current_state := .sep }
    else if classBra2 c then .ok { parsing with current_state := .preclosed }
    else if classBlank c then .ok { parsing with current_state := .end2 }
    else if classAny5 c then .ok { parsing with current_state := .error }
    else .ok parsing
  | .sep =>
    if classBlank c then .ok { parsing with current_state := .sep }
    else if classStart1 c then .ok { parsing with current_state := .elm1 }
    else if classStart2 c then .ok { parsing with current_state := .elm2 }
    else if classAny6 c then .ok { parsing with current_state := .error }
    else .ok parsing
  | .preclosed =>
    if classBlank c then .ok { parsing with current_state := .preclosed }
    else if classEol c then .ok { parsing with current_state := .closed }
    else if classAny7 c then .ok { parsing with current_state := .error }
    else .ok parsing

end Parsing

def launchParsingMachine (str : CString) : Except ParseFault (List CString) := do
  let parsing ← str.foldlM Parsing.step Parsing.start
  if parsing.current_state ≠ .closed ∧ parsing.current_state ≠ .preclosed then
    throw <| .returned 3
  else
    return parsing.newlist

-- The list is `NULL` where the machine has stopped.
def rlistParseString (string : CString) : Outcome (List CString) :=
  match launchParsingMachine string with
  | .ok newlist            => some newlist
  | .error (.returned _)   => some []
  | .error .overflow       => none

def Blank (s : CString) : Prop :=
  ∀ c ∈ s, c = ' ' ∨ c = '\t'

def IsQuote (c : Char) : Prop :=
  c = '\'' ∨ c = '"'

-- A text between two quotes of a kind that it does not have.
structure IsElement (e t : CString) : Prop where
  quoted : ∃ q, IsQuote q ∧ q ∉ t ∧ e = q :: (t ++ [q])
  short  : t.length < cfMaxVarSize

-- The part of a list before one of its elements, with the elements before it.
inductive Opening : CString → List CString → Prop
  | first {b b' : CString} (hb : Blank b) (hb' : Blank b') : Opening (b ++ '{' :: b') []
  | next {p e t b b' : CString} {ts : List CString} (hp : Opening p ts) (he : IsElement e t) (hb : Blank b)
    (hb' : Blank b') : Opening (p ++ e ++ b ++ ',' :: b') (ts ++ [t])

-- The texts in which lists are written, each with its elements.
inductive IsList : CString → List CString → Prop
  | mk {p e t b b' : CString} {ts : List CString} (hp : Opening p ts) (he : IsElement e t) (hb : Blank b)
    (hb' : Blank b') : IsList (p ++ e ++ b ++ '}' :: b') (ts ++ [t])

-- An element is opened whose text does not fit.
def Overlong (s : CString) : Prop :=
  ∃ p ts q t c r, Opening p ts ∧ IsQuote q ∧ q ∉ t ∧ t.length = cfMaxVarSize ∧ s = p ++ q :: (t ++ c :: r)

-- The list in a text is returned, and `NULL` where there is none.
def ParsesLists (string : CString) : Prop :=
  ∃ list, rlistParseString string = some list ∧ (∀ ts, IsList string ts → list = ts) ∧
    ((∀ ts, ¬IsList string ts) → list = [])

section

variable {p s t b : CString} {ts : List CString} {c : Char}

theorem blank_nil : Blank [] :=
  nofun

theorem blank_of_classBlank (h : classBlank c) : c = ' ' ∨ c = '\t' := by
  simpa [classBlank] using h

theorem Blank.append (h : Blank b) (hc : classBlank c) : Blank (b ++ [c]) := by
  intro d hd
  cases List.mem_append.mp hd
  case inl hd => exact h d hd
  case inr hd => exact List.mem_singleton.mp hd ▸ blank_of_classBlank hc

-- A blank that follows belongs to the last part of a text.
theorem Opening.append (h : Opening p ts) (hc : classBlank c) : Opening (p ++ [c]) ts := by
  cases h with
  | first hb hb' =>
    rw [List.append_assoc]
    exact .first hb (Blank.append hb' hc)
  | next hp he hb hb' =>
    rw [List.append_assoc]
    exact .next hp he hb (Blank.append hb' hc)

theorem IsList.append (h : IsList p ts) (hc : classBlank c) : IsList (p ++ [c]) ts := by
  cases h with
  | mk hp he hb hb' =>
    rw [List.append_assoc]
    exact .mk hp he hb (Blank.append hb' hc)

theorem Overlong.append (h : Overlong s) (r : CString) : Overlong (s ++ r) := by
  obtain ⟨p, ts, q, t, c, r', hp, hq, hm, hl, rfl⟩ := h
  exact ⟨p, ts, q, t, c, r' ++ r, hp, hq, hm, hl, by simp⟩

end

namespace Parsing

-- An element has been opened, and its text is in `snatched` as far as it has been read.
def ReadsElement (q : Char) (p : CString) (parsing : Parsing) : Prop :=
  ∃ o t, Opening o parsing.newlist ∧ q ∉ t ∧ t.length ≤ cfMaxVarSize ∧ parsing.sn.getD [] = t ∧ p = o ++ q :: t

-- An element has been closed.
def HasElement (p : CString) (newlist : List CString) : Prop :=
  ∃ o e t ts b, Opening o ts ∧ IsElement e t ∧ Blank b ∧ p = o ++ e ++ b ∧ newlist = ts ++ [t]

-- The part of the text that has been read is a beginning of a list that the state stands for.
def Reads (p : CString) (parsing : Parsing) : Prop :=
  match parsing.current_state with
  | .opened       => Blank p ∧ parsing.sn = none ∧ parsing.newlist = []
  | .io | .sep    => Opening p parsing.newlist ∧ parsing.sn = none
  | .elm1         => ReadsElement '\'' p parsing
  | .elm2         => ReadsElement '"' p parsing
  | .end1 | .end2 => HasElement p parsing.newlist ∧ parsing.sn = none
  | .preclosed    => IsList p parsing.newlist
  | .closed       => False
  | .error        => True

variable {p s t b : CString} {ts newlist : List CString} {c q : Char} {parsing parsing' : Parsing} {state : ParseState}

theorem ReadsElement.snatch (h : ReadsElement q p parsing) (hc : c ≠ q)
    (hl : (parsing.sn.getD []).length < cfMaxVarSize) :
    ReadsElement q (p ++ [c]) { parsing with sn := some <| parsing.sn.getD [] ++ [c] } := by
  obtain ⟨o, t, ho, hm, _, rfl, rfl⟩ := h
  refine ⟨o, parsing.sn.getD [] ++ [c], ho, ?_, ?_, rfl, by simp⟩
  · simpa [hm] using hc.symm
  · rw [List.length_append]
    exact hl

theorem ReadsElement.hasElement (hq : IsQuote q) (h : ReadsElement q p parsing)
    (hl : (parsing.sn.getD []).length < cfMaxVarSize) :
    HasElement (p ++ [q]) (parsing.newlist ++ [parsing.sn.getD []]) := by
  obtain ⟨o, t, ho, hm, _, rfl, rfl⟩ := h
  exact ⟨o, _, _, _, [], ho, ⟨⟨q, hq, hm, rfl⟩, hl⟩, blank_nil, by simp, rfl⟩

theorem HasElement.append (h : HasElement p newlist) (hc : classBlank c) : HasElement (p ++ [c]) newlist := by
  obtain ⟨o, e, t, ts, b, ho, he, hb, rfl, rfl⟩ := h
  exact ⟨o, e, t, ts, b ++ [c], ho, he, Blank.append hb hc, by simp, rfl⟩

theorem HasElement.opening (h : HasElement p newlist) : Opening (p ++ [',']) newlist := by
  obtain ⟨o, e, t, ts, b, ho, he, hb, rfl, rfl⟩ := h
  exact .next ho he hb blank_nil

theorem HasElement.isList (h : HasElement p newlist) : IsList (p ++ ['}']) newlist := by
  obtain ⟨o, e, t, ts, b, ho, he, hb, rfl, rfl⟩ := h
  exact .mk ho he hb blank_nil

-- A quote opens an element.
theorem readsElement_of_opening (h : Opening p newlist) (sn : Option CString) (hs : sn.getD [] = []) :
    ReadsElement q (p ++ [q]) ⟨state, sn, newlist⟩ :=
  ⟨p, [], h, List.not_mem_nil, Nat.zero_le _, hs, rfl⟩

theorem Reads.step_element (hq : IsQuote q) (h : ReadsElement q p parsing)
    (hs : (if c = q then parsing.append state else parsing.snatch c) = .ok parsing') :
    c = q ∧ parsing'.current_state = state ∧ parsing'.sn = none ∧ HasElement (p ++ [c]) parsing'.newlist ∨
      parsing'.current_state = parsing.current_state ∧ ReadsElement q (p ++ [c]) parsing' := by
  split at hs
  case isTrue hc  =>
    rw [Parsing.append] at hs
    split at hs
    case isTrue hl  =>
      cases hs
      exact .inl ⟨hc, rfl, rfl, hc ▸ h.hasElement hq hl⟩
    case isFalse hl => nomatch hs
  case isFalse hc =>
    rw [Parsing.snatch] at hs
    split at hs
    case isTrue hl  =>
      cases hs
      exact .inr ⟨rfl, h.snatch hc hl⟩
    case isFalse hl => nomatch hs

section Steps

variable {sn : Option CString}

-- What a turn does in each state. A character that none of the branches is for is an error.
theorem step_opened : step ⟨.opened, sn, newlist⟩ c = .ok
    ⟨if classBlank c then .opened else if c = '{' then .io else .error, sn, newlist⟩ := by
  simp only [step, classAny0, classBra1, decide_eq_true_eq]
  split_ifs <;> simp_all

theorem step_io : step ⟨.io, sn, newlist⟩ c = .ok
    (if classBlank c then ⟨.io, sn, newlist⟩ else if c = '\'' then ⟨.elm1, some [], newlist⟩
      else if c = '"' then ⟨.elm2, some [], newlist⟩ else ⟨.error, sn, newlist⟩) := by
  simp only [step, classAny1, classStart1, classStart2, decide_eq_true_eq]
  split_ifs <;> simp_all

theorem step_sep : step ⟨.sep, sn, newlist⟩ c = .ok
    ⟨if classBlank c then .sep else if c = '\'' then .elm1 else if c = '"' then .elm2 else .error, sn, newlist⟩ := by
  simp only [step, classAny6, classStart1, classStart2, decide_eq_true_eq]
  split_ifs <;> simp_all

theorem step_elm1 : step ⟨.elm1, sn, newlist⟩ c =
    if c = '\'' then append ⟨.elm1, sn, newlist⟩ .end1 else snatch ⟨.elm1, sn, newlist⟩ c := by
  simp only [step, classAny2, classEnd1, classStart1, decide_eq_true_eq]
  by_cases h : c = '\'' <;> simp [h]

theorem step_elm2 : step ⟨.elm2, sn, newlist⟩ c =
    if c = '"' then append ⟨.elm2, sn, newlist⟩ .end2 else snatch ⟨.elm2, sn, newlist⟩ c := by
  simp only [step, classAny3, classEnd2, classStart2, decide_eq_true_eq]
  by_cases h : c = '"' <;> simp [h]

theorem step_end (h : state = .end1 ∨ state = .end2) : step ⟨state, sn, newlist⟩ c = .ok
    ⟨if c = ',' then .sep else if c = '}' then .preclosed else if classBlank c then state else .error,
      sn, newlist⟩ := by
  obtain rfl | rfl := h <;> simp only [step, classAny4, classAny5, classSep, classBra2, decide_eq_true_eq]
  all_goals split_ifs <;> simp_all

theorem step_preclosed (hc : c ≠ '\x00') : step ⟨.preclosed, sn, newlist⟩ c = .ok
    ⟨if classBlank c then .preclosed else .error, sn, newlist⟩ := by
  simp only [step, classAny7, classEol, decide_eq_true_eq, hc]
  split_ifs <;> simp_all

end Steps

theorem Reads.step (h : Reads p parsing) (hc : c ≠ '\x00') (hs : parsing.step c = .ok parsing') :
    Reads (p ++ [c]) parsing' := by
  obtain ⟨state, sn, newlist⟩ := parsing
  cases state
  case opened =>
    obtain ⟨hb, rfl, rfl⟩ := h
    rw [step_opened] at hs
    cases hs
    split
    case isTrue hblank => exact ⟨Blank.append hb hblank, rfl, rfl⟩
    case isFalse =>
      split
      case isTrue hbra => exact ⟨hbra ▸ .first hb blank_nil, rfl⟩
      case isFalse     => exact trivial
  case io =>
    obtain ⟨ho, rfl⟩ := h
    rw [step_io] at hs
    cases hs
    split
    case isTrue hblank => exact ⟨ho.append hblank, rfl⟩
    case isFalse =>
      split
      case isTrue hq => exact hq ▸ readsElement_of_opening ho _ rfl
      case isFalse   =>
        split
        case isTrue hq => exact hq ▸ readsElement_of_opening ho _ rfl
        case isFalse   => exact trivial
  case sep =>
    obtain ⟨ho, rfl⟩ := h
    rw [step_sep] at hs
    cases hs
    split
    case isTrue hblank => exact ⟨ho.append hblank, rfl⟩
    case isFalse =>
      split
      case isTrue hq => exact hq ▸ readsElement_of_opening ho _ rfl
      case isFalse   =>
        split
        case isTrue hq => exact hq ▸ readsElement_of_opening ho _ rfl
        case isFalse   => exact trivial
  case elm1 =>
    rw [step_elm1] at hs
    obtain ⟨state', sn', newlist'⟩ := parsing'
    cases step_element (.inl rfl) h hs with
    | inl h' =>
      obtain ⟨_, rfl, rfl, h'⟩ := h'
      exact ⟨h', rfl⟩
    | inr h' =>
      obtain ⟨rfl, h'⟩ := h'
      exact h'
  case elm2 =>
    rw [step_elm2] at hs
    obtain ⟨state', sn', newlist'⟩ := parsing'
    cases step_element (.inr rfl) h hs with
    | inl h' =>
      obtain ⟨_, rfl, rfl, h'⟩ := h'
      exact ⟨h', rfl⟩
    | inr h' =>
      obtain ⟨rfl, h'⟩ := h'
      exact h'
  case end1 => exact step_hasElement (.inl rfl) h.left h.right hs
  case end2 => exact step_hasElement (.inr rfl) h.left h.right hs
  case preclosed =>
    rw [step_preclosed hc] at hs
    cases hs
    split
    case isTrue hblank => exact IsList.append h hblank
    case isFalse       => exact trivial
  case closed => exact h.elim
  case error  => nomatch hs
where
  step_hasElement {state : ParseState} {sn : Option CString} {newlist : List CString}
      (hstate : state = .end1 ∨ state = .end2) (h : HasElement p newlist) (hsn : sn = none)
      (hs : Parsing.step ⟨state, sn, newlist⟩ c = .ok parsing') : Reads (p ++ [c]) parsing' := by
    rw [step_end hstate] at hs
    cases hs
    split
    case isTrue hc => exact ⟨hc ▸ h.opening, hsn⟩
    case isFalse =>
      split
      case isTrue hc => exact hc ▸ h.isList
      case isFalse   =>
        split
        case isTrue hblank => obtain rfl | rfl := hstate <;> exact ⟨h.append hblank, hsn⟩
        case isFalse       => exact trivial

theorem ReadsElement.overflow (hq : IsQuote q) (h : ReadsElement q p parsing)
    (hs : (if c = q then parsing.append state else parsing.snatch c) = .error .overflow) : Overlong (p ++ [c]) := by
  obtain ⟨o, t, ho, hm, hl, rfl, rfl⟩ := h
  have hfull : ¬(parsing.sn.getD []).length < cfMaxVarSize := fun hlt => by
    rw [Parsing.append, Parsing.snatch, if_pos hlt, if_pos hlt] at hs
    split at hs <;> nomatch hs
  exact ⟨o, _, q, _, c, [], ho, hq, hm, Nat.le_antisymm hl (Nat.not_lt.mp hfull), by simp⟩

theorem Reads.overflow (h : Reads p parsing) (hc : c ≠ '\x00') (hs : parsing.step c = .error .overflow) :
    Overlong (p ++ [c]) := by
  obtain ⟨state, sn, newlist⟩ := parsing
  cases state
  case opened    => nomatch step_opened.symm.trans hs
  case io        => nomatch step_io.symm.trans hs
  case sep       => nomatch step_sep.symm.trans hs
  case elm1      => exact ReadsElement.overflow (.inl rfl) h (step_elm1.symm.trans hs)
  case elm2      => exact ReadsElement.overflow (.inr rfl) h (step_elm2.symm.trans hs)
  case end1      => nomatch (step_end <| .inl rfl).symm.trans hs
  case end2      => nomatch (step_end <| .inr rfl).symm.trans hs
  case preclosed => nomatch (step_preclosed hc).symm.trans hs
  case closed    => exact h.elim
  case error     => nomatch hs

-- What is known of a text after all of it has been read.
theorem reads_foldlM (hs : '\x00' ∉ s) :
    match s.foldlM Parsing.step start with
    | .ok parsing            => Reads s parsing
    | .error .overflow       => Overlong s
    | .error (.returned _)   => True := by
  induction s using List.reverseRecOn
  case nil => exact ⟨blank_nil, rfl, rfl⟩
  case append_singleton s c ih =>
    have ih := ih fun hm => hs <| List.mem_append_left _ hm
    have hc : c ≠ '\x00' := fun he => hs <| List.mem_append_right _ <| he ▸ List.mem_singleton_self c
    rw [List.foldlM_append]
    cases hrun : s.foldlM Parsing.step start with
    | error fault =>
      rw [hrun] at ih
      cases fault
      case returned => exact trivial
      case overflow => exact Overlong.append ih [c]
    | ok parsing =>
      rw [hrun] at ih
      rw [Except.ok_bind_eq, List.foldlM_cons]
      cases hstep : parsing.step c with
      | ok parsing' => exact ih.step hc hstep
      | error fault =>
        cases fault
        case returned => exact trivial
        case overflow => exact ih.overflow hc hstep

section Running

-- Blanks are passed over in these states.
theorem foldlM_blank (hb : Blank b) (h : ∀ c, classBlank c → parsing.step c = .ok parsing) :
    b.foldlM Parsing.step parsing = .ok parsing := by
  induction b
  case nil => rfl
  case cons c b ih =>
    have hc : classBlank c := by simpa [classBlank] using hb c List.mem_cons_self
    rw [List.foldlM_cons, h c hc, Except.ok_bind_eq]
    exact ih fun d hd => hb d <| List.mem_cons_of_mem _ hd

def elm (q : Char) : ParseState :=
  if q = '\'' then .elm1 else .elm2

def ends (q : Char) : ParseState :=
  if q = '\'' then .end1 else .end2

theorem step_elm (hq : IsQuote q) {sn : Option CString} : step ⟨elm q, sn, newlist⟩ c =
    if c = q then append ⟨elm q, sn, newlist⟩ (ends q) else snatch ⟨elm q, sn, newlist⟩ c := by
  obtain rfl | rfl := hq
  case inl => exact step_elm1
  case inr => exact step_elm2

-- An element is opened here.
structure AtElement (parsing : Parsing) : Prop where
  state : parsing.current_state = .io ∨ parsing.current_state = .sep
  sn    : parsing.sn = none

theorem AtElement.step_quote (hq : IsQuote q) (h : AtElement parsing) :
    ∃ sn, parsing.step q = .ok ⟨elm q, sn, parsing.newlist⟩ ∧ sn.getD [] = [] := by
  obtain ⟨state, sn, newlist⟩ := parsing
  obtain ⟨hs, rfl⟩ := h
  dsimp only at hs
  obtain rfl | rfl := hs <;> obtain rfl | rfl := hq
  case inl.inl => exact ⟨_, step_io, rfl⟩
  case inl.inr => exact ⟨_, step_io, rfl⟩
  case inr.inl => exact ⟨_, step_sep, rfl⟩
  case inr.inr => exact ⟨_, step_sep, rfl⟩

theorem AtElement.step_blank (h : AtElement parsing) (hc : classBlank c) : parsing.step c = .ok parsing := by
  obtain ⟨state, sn, newlist⟩ := parsing
  have hs := h.state
  dsimp only at hs
  obtain rfl | rfl := hs
  case inl => rw [step_io, if_pos hc]
  case inr => rw [step_sep, if_pos hc]

-- The text of an element is taken up to its quote.
theorem foldlM_text (hq : IsQuote q) (hm : q ∉ t) {sn : Option CString}
    (hl : (sn.getD []).length + t.length ≤ cfMaxVarSize) :
    ∃ sn', t.foldlM Parsing.step ⟨elm q, sn, newlist⟩ = .ok ⟨elm q, sn', newlist⟩ ∧
      sn'.getD [] = sn.getD [] ++ t := by
  induction t generalizing sn
  case nil => exact ⟨sn, rfl, (List.append_nil _).symm⟩
  case cons c t ih =>
    have ⟨hc, hm⟩ := List.ne_and_not_mem_of_not_mem_cons hm
    rw [List.length_cons] at hl
    have hstep : Parsing.step ⟨elm q, sn, newlist⟩ c = .ok ⟨elm q, some <| sn.getD [] ++ [c], newlist⟩ := by
      rw [step_elm hq, if_neg hc.symm, snatch]
      exact if_pos (show (sn.getD []).length < cfMaxVarSize by omega)
    have ⟨sn', hrun, hsn⟩ := @ih hm (some <| sn.getD [] ++ [c]) (by
      rw [Option.getD_some, List.length_append, List.length_singleton]
      omega)
    rw [List.foldlM_cons, hstep, Except.ok_bind_eq]
    exact ⟨sn', hrun, by rw [hsn, Option.getD_some, List.append_assoc, List.singleton_append]⟩

theorem AtElement.foldlM_quoted (hq : IsQuote q) (hm : q ∉ t) (hl : t.length ≤ cfMaxVarSize) (h : AtElement parsing) :
    ∃ sn, (q :: t).foldlM Parsing.step parsing = .ok ⟨elm q, sn, parsing.newlist⟩ ∧ sn.getD [] = t := by
  have ⟨sn, hstep, hsn⟩ := h.step_quote hq
  have ⟨sn', hrun, hsn'⟩ := @foldlM_text t parsing.newlist q hq hm sn (by rwa [hsn, List.length_nil, Nat.zero_add])
  rw [List.foldlM_cons, hstep, Except.ok_bind_eq]
  exact ⟨sn', hrun, by rw [hsn', hsn, List.nil_append]⟩

theorem AtElement.foldlM_element {e : CString} (he : IsElement e t) (h : AtElement parsing) :
    ∃ state, (state = .end1 ∨ state = .end2) ∧
      e.foldlM Parsing.step parsing = .ok ⟨state, none, parsing.newlist ++ [t]⟩ := by
  obtain ⟨⟨q, hq, hm, rfl⟩, hl⟩ := he
  have ⟨sn, hrun, hsn⟩ := h.foldlM_quoted hq hm (Nat.le_of_lt hl)
  refine ⟨ends q, ?_, ?_⟩
  · obtain rfl | rfl := hq
    case inl => exact .inl rfl
    case inr => exact .inr rfl
  · rw [← List.cons_append, List.foldlM_append, hrun, Except.ok_bind_eq, List.foldlM_cons, step_elm hq, if_pos rfl,
      Parsing.append]
    dsimp only
    rw [hsn, if_pos hl]
    rfl

theorem foldlM_end (hs : state = .end1 ∨ state = .end2) (hb : Blank b) :
    b.foldlM Parsing.step ⟨state, none, newlist⟩ = .ok ⟨state, none, newlist⟩ := by
  refine foldlM_blank hb fun c hc => ?_
  have hne {d : Char} (hd : ¬classBlank d) : c ≠ d := fun he => hd (he ▸ hc)
  rw [step_end hs, if_neg (hne (by decide)), if_neg (hne (by decide)), if_pos hc]

theorem foldlM_opening (h : Opening p ts) :
    ∃ parsing, p.foldlM Parsing.step start = .ok parsing ∧ AtElement parsing ∧ parsing.newlist = ts := by
  induction h with
  | @first b b' hb hb' =>
    have hat : AtElement ⟨.io, none, []⟩ := ⟨.inl rfl, rfl⟩
    refine ⟨_, ?_, hat, rfl⟩
    rw [List.foldlM_append, foldlM_blank hb fun c hc => by rw [start, step_opened, if_pos hc], Except.ok_bind_eq,
      List.foldlM_cons, start, step_opened]
    exact foldlM_blank hb' fun c => hat.step_blank
  | @next p e t b b' ts hp he hb hb' ih =>
    obtain ⟨parsing, hrun, hat, rfl⟩ := ih
    have ⟨state, hs, helement⟩ := hat.foldlM_element he
    have hat' : AtElement ⟨.sep, none, parsing.newlist ++ [t]⟩ := ⟨.inr rfl, rfl⟩
    refine ⟨_, ?_, hat', rfl⟩
    rw [List.foldlM_append, List.foldlM_append, List.foldlM_append, hrun, Except.ok_bind_eq, helement,
      Except.ok_bind_eq, foldlM_end hs hb, Except.ok_bind_eq, List.foldlM_cons, step_end hs, if_pos rfl,
      Except.ok_bind_eq]
    exact foldlM_blank hb' fun c => hat'.step_blank

theorem foldlM_isList (h : IsList s ts) : s.foldlM Parsing.step start = .ok ⟨.preclosed, none, ts⟩ := by
  cases h with
  | @mk p e t b b' ts hp he hb hb' =>
    obtain ⟨parsing, hrun, hat, rfl⟩ := foldlM_opening hp
    have ⟨state, hs, helement⟩ := hat.foldlM_element he
    rw [List.foldlM_append, List.foldlM_append, List.foldlM_append, hrun, Except.ok_bind_eq, helement,
      Except.ok_bind_eq, foldlM_end hs hb, Except.ok_bind_eq, List.foldlM_cons, step_end hs, if_neg (by decide),
      if_pos rfl, Except.ok_bind_eq]
    refine foldlM_blank hb' fun c hc => ?_
    rw [step_preclosed (fun he => absurd (he ▸ hc) (by decide)), if_pos hc]

theorem foldlM_overlong (h : Overlong s) : s.foldlM Parsing.step start = .error .overflow := by
  obtain ⟨p, ts, q, t, c, r, hp, hq, hm, hl, rfl⟩ := h
  obtain ⟨parsing, hrun, hat, rfl⟩ := foldlM_opening hp
  have ⟨sn, htext, hsn⟩ := hat.foldlM_quoted hq hm (Nat.le_of_eq hl)
  have hfull : ¬(sn.getD []).length < cfMaxVarSize := by rw [hsn, hl]; exact Nat.lt_irrefl _
  have hstep : Parsing.step ⟨elm q, sn, parsing.newlist⟩ c = .error .overflow := by
    rw [step_elm hq, append, snatch, if_neg hfull, if_neg hfull]
    exact ite_self _
  rw [List.foldlM_append, hrun, Except.ok_bind_eq, ← List.cons_append, List.foldlM_append, htext, Except.ok_bind_eq,
    List.foldlM_cons, hstep]
  rfl

end Running
end Parsing

variable {string : CString} {ts list : List CString}

theorem IsList.parse (h : IsList string ts) : rlistParseString string = some ts := by
  rw [rlistParseString, launchParsingMachine, Parsing.foldlM_isList h]
  rfl

theorem Overlong.parse (h : Overlong string) : rlistParseString string = none := by
  rw [rlistParseString, launchParsingMachine, Parsing.foldlM_overlong h]
  rfl

theorem parse_cases (h : '\x00' ∉ string) :
    rlistParseString string = none ∧ Overlong string ∨ rlistParseString string = some [] ∨
      ∃ ts, rlistParseString string = some ts ∧ IsList string ts := by
  have hreads := Parsing.reads_foldlM h
  rw [rlistParseString, launchParsingMachine]
  cases hrun : string.foldlM Parsing.step Parsing.start with
  | error fault =>
    rw [hrun] at hreads
    cases fault
    case returned => exact .inr <| .inl rfl
    case overflow => exact .inl ⟨rfl, hreads⟩
  | ok parsing =>
    rw [hrun] at hreads
    rw [Except.ok_bind_eq]
    by_cases hstate : parsing.current_state ≠ .closed ∧ parsing.current_state ≠ .preclosed
    case pos =>
      rw [if_pos hstate]
      exact .inr <| .inl rfl
    case neg =>
      rw [if_neg hstate]
      obtain ⟨state, sn, newlist⟩ := parsing
      cases state
      case preclosed => exact .inr <| .inr ⟨newlist, rfl, hreads⟩
      case closed    => exact hreads.elim
      all_goals exact absurd ⟨nofun, nofun⟩ hstate

-- Lists are parsed as the grammar has them where the texts of all elements fit.
theorem parsesLists_iff (string : CString) (h : '\x00' ∉ string) : ParsesLists string ↔ ¬Overlong string := by
  constructor
  case mp  =>
    intro ⟨list, hparse, _⟩ ho
    nomatch ho.parse.symm.trans hparse
  case mpr =>
    intro ho
    obtain ⟨_, hoverlong⟩ | hnull | ⟨ts, hparse, hts⟩ := parse_cases h
    · exact absurd hoverlong ho
    · refine ⟨[], hnull, fun ts hts => ?_, fun _ => rfl⟩
      exact Option.some.inj <| hnull.symm.trans hts.parse
    · refine ⟨ts, hparse, fun ts' hts' => ?_, fun hn => absurd hts (hn ts)⟩
      exact Option.some.inj <| hparse.symm.trans hts'.parse

theorem Overlong.lt_length (h : Overlong s) : cfMaxVarSize < s.length := by
  obtain ⟨p, ts, q, t, c, r, -, -, -, ht, rfl⟩ := h
  simp only [List.length_append, List.length_cons]
  omega

-- A list with blanks and both quotes.
def quotedList : CString :=
  ['\x7b', ' ', '\'', 'a', ' ', '"', '\'', '\t', ',', '"', 'b', ',', '\'', '"', ' ', ',', '\'', '\'', '\x7d']

theorem parsesLists_quotedList : ParsesLists quotedList ∧
    rlistParseString quotedList = some [['a', ' ', '"'], ['b', ',', '\''], []] :=
  ⟨(parsesLists_iff quotedList <| by decide).mpr fun h => absurd h.lt_length (by decide), by decide +kernel⟩

-- A list with an element of 1024 characters.
def overlongList : CString :=
  ['\x7b'] ++ '\'' :: (List.replicate cfMaxVarSize 'a' ++ '\'' :: ['\x7d'])

theorem not_parsesLists : ¬ParsesLists overlongList := by
  have hq : '\'' ∉ List.replicate cfMaxVarSize 'a' := fun hm => absurd (List.eq_of_mem_replicate hm) (by decide)
  have ho : Overlong overlongList :=
    ⟨_, _, '\'', _, '\'', _, .first blank_nil blank_nil, .inl rfl, hq, List.length_replicate, rfl⟩
  intro ⟨list, hparse, _⟩
  nomatch ho.parse.symm.trans hparse

end CfEngine
