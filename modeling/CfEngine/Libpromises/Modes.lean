import CfEngine.Libutils.Strings

namespace CfEngine

inductive ModeState
  | wild
  | who
  | which
  deriving DecidableEq

inductive ModeSort
  | unknown
  | numeric
  | symbolic
  deriving DecidableEq

inductive ModeAction
  | plus
  | minus
  | assign
  deriving DecidableEq

-- What the check of the state reports.
inductive ModeMessage
  | outOfContext (ch : Char)
  | mixed
  deriving DecidableEq

def checkModeState (stateA stateB : ModeState) (sortA sortB : ModeSort) (ch : Char) : Option ModeMessage :=
  if stateA ≠ .wild ∧ stateB ≠ .wild ∧ stateA ≠ stateB then
    some <| .outOfContext ch
  else if sortA ≠ .unknown ∧ sortB ≠ .unknown ∧ sortA ≠ sortB then
    some .mixed
  else
    none

-- No other character gets into the action, so the case of an unknown directive does not occur.
def setModeMask (action : ModeAction) (value affected p m : BitVec 32) : BitVec 32 × BitVec 32 :=
  match action with
  | .plus   => (p ||| value, m)
  | .minus  => (p, m ||| value)
  | .assign => (p ||| value, m ||| (~~~value &&& 0o7777 &&& affected))

def whoMask : Char → Option (BitVec 32)
  | 'a' => some 0o7777
  | 'u' => some 0o4700
  | 'g' => some 0o2070
  | 'o' => some 0o0007
  | _   => none

def modeAction : Char → Option ModeAction
  | '+' => some .plus
  | '-' => some .minus
  | '=' => some .assign
  | _   => none

def permMask (affected : BitVec 32) : Char → Option (BitVec 32)
  | 'r' => some (0o444 &&& affected)
  | 'w' => some (0o222 &&& affected)
  | 'x' => some (0o111 &&& affected)
  | 's' => some (0o6000 &&& affected)
  | 't' => some 0o1000
  | _   => none

def isOctal (c : Char) : Bool :=
  '0' ≤ c ∧ c ≤ '7'

-- The number is read as a `long` without a sign, and stored in an `int`.
def scanOctal (s : CString) : BitVec 32 :=
  .ofNat 32 <| min (Nat.ofDigitChars 8 (s.takeWhile isOctal) 0) (2 ^ 64 - 1)

structure ModeParser where
  affected  : BitVec 32
  value     : BitVec 32
  gotaction : Bool
  noError   : Bool
  action    : ModeAction
  state     : ModeState
  sort      : ModeSort
  plusmask  : BitVec 32
  minusmask : BitVec 32
  messages  : List ModeMessage

structure ModeResult where
  accepted  : Bool
  plusmask  : BitVec 32
  minusmask : BitVec 32
  messages  : List ModeMessage

namespace ModeParser

def initial : ModeParser where
  affected  := 0
  value     := 0
  gotaction := false
  noError   := true
  action    := .assign
  state     := .wild
  sort      := .unknown
  plusmask  := 0
  minusmask := 0
  messages  := []

def check (p : ModeParser) (state : ModeState) (sort : ModeSort) (ch : Char) : ModeParser :=
  let message := checkModeState state p.state sort p.sort ch
  { p with noError := message.isNone, messages := p.messages ++ message.toList }

-- One of the letters for the classes of users.
def who (p : ModeParser) (mask : BitVec 32) (ch : Char) : ModeParser :=
  { p.check .who .symbolic ch with affected := p.affected ||| mask, sort := .symbolic }

-- One of the operators.
def act (p : ModeParser) (action : ModeAction) (ch : Char) : ModeParser :=
  { p.check .who .symbolic ch with action := action, state := .which, gotaction := true, sort := .unknown }

-- One of the letters for the permissions.
def perm (p : ModeParser) (mask : BitVec 32) (ch : Char) : ModeParser :=
  { p.check .which .symbolic ch with value := p.value ||| mask, sort := .symbolic }

def number (p : ModeParser) (value : BitVec 32) (ch : Char) : ModeParser :=
  { p.check .which .numeric ch with
    sort := .numeric, gotaction := true, state := .which, affected := 0o7777, value := value }

def comma (p : ModeParser) : ModeParser :=
  let masks := setModeMask p.action p.value p.affected p.plusmask p.minusmask
  { p with
    plusmask := masks.1, minusmask := masks.2, sort := .unknown, action := .assign, affected := 0, value := 0,
    gotaction := false, state := .who }

def reject (p : ModeParser) : ModeResult :=
  ⟨false, p.plusmask, p.minusmask, p.messages⟩

-- The end of the string. The error that is remembered is not looked at.
def finish (p : ModeParser) (modestring : CString) : ModeResult :=
  if (p.state = .who ∨ p.value = 0) ∧ modestring ≠ ['0', '0', '0', '0'] ∧ modestring ≠ ['0', '0', '0'] then
    p.reject
  else
    let masks := setModeMask p.action p.value p.affected p.plusmask p.minusmask
    ⟨true, masks.1, masks.2, p.messages⟩

end ModeParser

inductive ModeStep
  | next (p : ModeParser) (sp : CString)
  | reject (p : ModeParser)

-- What one round of the loop does with a character other than a comma, and with the digits after it.
def modeStep (p : ModeParser) (c : Char) (sp : CString) : ModeStep :=
  match whoMask c with
  | some mask => .next (p.who mask c) sp
  | none =>
    match modeAction c with
    | some action => if p.gotaction then .reject p else .next (p.act action c) sp
    | none =>
      match permMask p.affected c with
      | some mask => .next (p.perm mask c) sp
      | none =>
        if isOctal c then
          let p := p.number (scanOctal (c :: sp)) c
          if (0o7777#32).slt p.value then .reject p else .next p (sp.dropWhile Char.isDigit)
        else
          .reject p

theorem modeStep_length {p p' : ModeParser} {c : Char} {sp sp' : CString} (h : modeStep p c sp = .next p' sp') :
    sp'.length ≤ sp.length := by
  have hd : (sp.dropWhile Char.isDigit).length ≤ sp.length := (List.dropWhile_suffix _).length_le
  simp only [modeStep] at h
  repeat' split at h
  all_goals cases h
  all_goals omega

def scanMode (modestring : CString) (p : ModeParser) : CString → ModeResult
  | []      => p.finish modestring
  | c :: sp =>
    if c = ',' then
      scanMode modestring p.comma sp
    else
      match h : modeStep p c sp with
      | .next p sp' =>
        have := modeStep_length h
        scanMode modestring p sp'
      | .reject p   => p.reject
termination_by sp => sp.length

def parseModeString : Option CString → ModeResult
  | none            => ⟨true, 0, 0, []⟩
  | some modestring => scanMode modestring .initial modestring

-- What one round of the loop consumes.
inductive ModeToken
  | letter (c : Char)
  | number (digits : CString)

namespace ModeToken

def IsWho : ModeToken → Prop
  | letter c => (whoMask c).isSome
  | number _ => False

def IsAction : ModeToken → Prop
  | letter c => (modeAction c).isSome
  | number _ => False

def IsPerm : ModeToken → Prop
  | letter c => (permMask 0 c).isSome
  | number _ => False

def IsNumber : ModeToken → Prop
  | letter _ => False
  | number _ => True

-- After such a token, permissions are expected.
def Acts (t : ModeToken) : Prop :=
  t.IsAction ∨ t.IsNumber

-- A number begins with an octal digit, and what is stored of it is not above the limit.
def Known : ModeToken → Prop
  | letter c => IsWho (letter c) ∨ IsAction (letter c) ∨ IsPerm (letter c)
  | number d => (∃ c ∈ d.head?, isOctal c) ∧ ¬(0o7777#32).slt (scanOctal d)

-- The classes that are affected after the token.
def affect (affected : BitVec 32) : ModeToken → BitVec 32
  | letter c => affected ||| (whoMask c).getD 0
  | number _ => 0o7777

-- The permissions that the token grants to the affected classes.
def grant (affected : BitVec 32) : ModeToken → BitVec 32
  | letter c => (permMask affected c).getD 0
  | number d => scanOctal d

-- The digits of a number are its text, and a letter is one character.
inductive Scanned : ModeToken → Prop
  | letter {c : Char} (h : ¬c.isDigit) : Scanned (letter c)
  | number {d : CString} (ne : d ≠ []) (h : ∀ c ∈ d, c.isDigit) : Scanned (number d)

end ModeToken

def modeTokens : CString → List ModeToken
  | []     => []
  | c :: s =>
    if c.isDigit then
      .number (c :: s.takeWhile Char.isDigit) :: modeTokens (s.dropWhile Char.isDigit)
    else
      .letter c :: modeTokens s
termination_by s => s.length
decreasing_by
  · exact Nat.lt_succ_of_le (List.dropWhile_suffix _).length_le
  · exact Nat.lt_succ_self _

def readToken (p : ModeParser) : ModeToken → Option ModeParser
  | .letter c        =>
    match modeStep p c [] with
    | .next p _ => some p
    | .reject _ => none
  | .number []       => none
  | .number (c :: d) =>
    match modeStep p c d with
    | .next p _ => some p
    | .reject _ => none

def readTokens (p : ModeParser) (ts : List ModeToken) : Option ModeParser :=
  ts.foldlM readToken p

-- The scan of a clause is over, if it has not been given up.
def readClause (p : ModeParser) (clause : CString) : Option ModeParser :=
  readTokens p <| modeTokens clause

section
variable {p p' : ModeParser} {c : Char} {d s sp ms : CString} {t : ModeToken}

theorem scanned_of_mem_modeTokens (h : t ∈ modeTokens s) : t.Scanned := by
  induction s using modeTokens.induct
  case case1           =>
    rw [modeTokens] at h
    cases h
  case case2 c s hc ih =>
    rw [modeTokens, if_pos hc, List.mem_cons] at h
    cases h
    case inl h =>
      rw [h]
      refine .number (List.cons_ne_nil _ _) fun e he => ?_
      cases List.mem_cons.mp he
      case inl he => exact he ▸ hc
      case inr he => exact List.mem_takeWhile_imp he
    case inr h => exact ih h
  case case3 c s hc ih =>
    rw [modeTokens, if_neg hc, List.mem_cons] at h
    cases h
    case inl h => exact h ▸ .letter hc
    case inr h => exact ih h

theorem isDigit_of_isOctal (h : isOctal c) : c.isDigit := by
  simp only [isOctal, Char.isDigit, decide_eq_true_eq, ge_iff_le, Bool.and_eq_true, Char.le_def] at h ⊢
  exact ⟨h.left, UInt32.le_trans h.right <| by decide⟩

-- What stands after a letter does not matter, and neither does what stands after the digits of a number.
theorem modeStep_letter (hc : ¬c.isDigit) : modeStep p c sp =
    match modeStep p c [] with
    | .next p _ => .next p sp
    | .reject p => .reject p := by
  have hoct : isOctal c = false := Bool.eq_false_iff.mpr fun h => hc <| isDigit_of_isOctal h
  rw [modeStep, modeStep]
  cases whoMask c
  case some => rfl
  case none =>
    cases modeAction c
    case some =>
      cases p.gotaction <;> rfl
    case none =>
      cases permMask p.affected c
      case some => rfl
      case none => simp only [hoct, Bool.false_eq_true, if_false]

theorem whoMask_digit (hc : c.isDigit) : whoMask c = none := by
  unfold whoMask
  split <;> first | rfl | exact absurd hc <| by decide

theorem modeAction_digit (hc : c.isDigit) : modeAction c = none := by
  unfold modeAction
  split <;> first | rfl | exact absurd hc <| by decide

theorem permMask_digit {affected : BitVec 32} (hc : c.isDigit) : permMask affected c = none := by
  unfold permMask
  split <;> first | rfl | exact absurd hc <| by decide

theorem modeStep_digit (hc : c.isDigit) : modeStep p c sp =
    if isOctal c then
      let p := p.number (scanOctal (c :: sp)) c
      if (0o7777#32).slt p.value then .reject p else .next p (sp.dropWhile Char.isDigit)
    else
      .reject p := by
  rw [modeStep, whoMask_digit hc, modeAction_digit hc, permMask_digit hc]

theorem takeWhile_octal_takeWhile : (sp.takeWhile Char.isDigit).takeWhile isOctal = sp.takeWhile isOctal := by
  rw [List.takeWhile_takeWhile]
  congr 1
  funext c
  cases hc : isOctal c
  case false => simp
  case true  => simp [isDigit_of_isOctal hc]

theorem scanOctal_takeWhile : scanOctal (c :: sp.takeWhile Char.isDigit) = scanOctal (c :: sp) := by
  rw [scanOctal, scanOctal]
  by_cases hc : isOctal c
  case pos => rw [List.takeWhile_cons_of_pos hc, List.takeWhile_cons_of_pos hc, takeWhile_octal_takeWhile]
  case neg => rw [List.takeWhile_cons_of_neg hc, List.takeWhile_cons_of_neg hc]

theorem modeStep_number (hc : c.isDigit) : modeStep p c sp =
    match modeStep p c (sp.takeWhile Char.isDigit) with
    | .next p _ => .next p (sp.dropWhile Char.isDigit)
    | .reject p => .reject p := by
  rw [modeStep_digit hc, modeStep_digit hc, scanOctal_takeWhile]
  cases isOctal c
  case false => rfl
  case true  =>
    simp only [if_true]
    split <;> rfl

theorem scanMode_cons (hc : c ≠ ',') : scanMode ms p (c :: sp) =
    match modeStep p c sp with
    | .next p sp => scanMode ms p sp
    | .reject p  => p.reject := by
  rw [scanMode, if_neg hc]
  split <;> simp_all

theorem readClause_letter (hc : ¬c.isDigit) : readClause p (c :: s) =
    (readToken p (.letter c)).bind (readClause · s) := by
  rw [readClause, modeTokens, if_neg hc, readTokens, List.foldlM_cons]
  rfl

theorem readClause_number (hc : c.isDigit) : readClause p (c :: s) =
    (readToken p (.number (c :: s.takeWhile Char.isDigit))).bind (readClause · (s.dropWhile Char.isDigit)) := by
  rw [readClause, modeTokens, if_pos hc, readTokens, List.foldlM_cons]
  rfl

theorem digits_stop (hsp : ∀ c ∈ sp.head?, ¬c.isDigit) : (s ++ sp).takeWhile Char.isDigit = s.takeWhile Char.isDigit ∧
    (s ++ sp).dropWhile Char.isDigit = s.dropWhile Char.isDigit ++ sp := by
  induction s
  case nil         =>
    cases sp
    case nil       => exact ⟨rfl, rfl⟩
    case cons c sp => exact ⟨List.takeWhile_cons_of_neg <| hsp c rfl, List.dropWhile_cons_of_neg <| hsp c rfl⟩
  case cons c s ih =>
    rw [List.cons_append, List.takeWhile_cons, List.takeWhile_cons, List.dropWhile_cons, List.dropWhile_cons, ih.left, ih.right]
    cases c.isDigit
    case false => exact ⟨rfl, rfl⟩
    case true  => exact ⟨rfl, rfl⟩

-- A clause is read, and then what stands after it, or the string is refused within the clause.
theorem scanMode_clause (hs : ',' ∉ s) (hr : ∀ c ∈ sp.head?, c = ',') :
    match readClause p s with
    | some p' => scanMode ms p (s ++ sp) = scanMode ms p' sp
    | none    => (scanMode ms p (s ++ sp)).accepted = false := by
  induction s using modeTokens.induct generalizing p
  case case1           =>
    have hnil : readClause p [] = some p := by
      rw [readClause, modeTokens]
      rfl
    rw [hnil]
    rfl
  case case2 c s hc ih =>
    have hcomma : c ≠ ',' := fun he => hs <| he ▸ List.mem_cons_self
    have hs : ',' ∉ s.dropWhile Char.isDigit := fun h => hs <| List.mem_cons_of_mem c <| (List.dropWhile_suffix _).mem h
    have hstop : ∀ c ∈ sp.head?, ¬c.isDigit := fun c hc => hr c hc ▸ by decide
    obtain ⟨htake, hdrop⟩ := @digits_stop s sp hstop
    rw [readClause_number hc, List.cons_append, scanMode_cons hcomma, modeStep_number hc, htake, hdrop, readToken]
    cases modeStep p c (s.takeWhile Char.isDigit)
    case next p' => exact ih hs
    case reject  => rfl
  case case3 c s hc ih =>
    have hcomma : c ≠ ',' := fun he => hs <| he ▸ List.mem_cons_self
    have hs : ',' ∉ s := fun h => hs <| List.mem_cons_of_mem c h
    rw [readClause_letter hc, List.cons_append, scanMode_cons hcomma, modeStep_letter hc, readToken]
    cases modeStep p c []
    case next p' => exact ih hs
    case reject  => rfl

end

end CfEngine
