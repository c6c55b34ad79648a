import CfEngine.Libpromises.StringExpressions

open Descent

namespace CfEngine

inductive Expression
  | or (lhs rhs : Expression)
  | and (lhs rhs : Expression)
  | not (arg : Expression)
  | eval (name : StringExpression)
  deriving DecidableEq

abbrev ParseResult := Descent.Result Expression

-- The functions below get the parsers that they call themselves from as arguments. These are
-- `parseExpression` and `parseAndExpression` on the same text.
def parsePrimary (parseExpression : Nat → ParseResult) (expr : CString) (start stop : Nat) :
    ParseResult :=
  if start < stop ∧ expr[start]? = some '(' then
    let res := parseExpression (start + 1)
    match res.result with
    | none   => res
    | some e =>
      if res.position < stop ∧ expr[res.position]? = some ')' then
        { result := some e, position := res.position + 1 }
      else
        fail res.position
  else
    let strres := parseStringExpression expr start stop
    match strres.result with
    | none      => fail strres.position
    | some name => { result := some (.eval name), position := strres.position }

def parseNotExpression (parseExpression : Nat → ParseResult) (expr : CString) (start stop : Nat) :
    ParseResult :=
  if start < stop ∧ expr[start]? = some '!' then
    let primres := parsePrimary parseExpression expr (start + 1) stop
    match primres.result with
    | none     => primres
    | some arg => { result := some (.not arg), position := primres.position }
  else
    parsePrimary parseExpression expr start stop

def parseAnd (parseExpression parseAndExpression : Nat → ParseResult) (expr : CString)
    (start stop : Nat) : ParseResult :=
  let lhs := parseNotExpression parseExpression expr start stop
  match lhs.result with
  | none   => lhs
  | some l =>
    if lhs.position = stop ∨ (expr[lhs.position]? ≠ some '.' ∧ expr[lhs.position]? ≠ some '&') then
      lhs
    else
      let rhs := parseAndExpression (lhs.position + 1)
      match rhs.result with
      | none   => rhs
      | some r => { result := some (.and l r), position := rhs.position }

def parseAndExpression (parseExpression : Nat → ParseResult) (expr : CString) (start stop : Nat) :
    ParseResult :=
  fix stop (parseAnd parseExpression · expr · stop) start

def parseOr (parseExpression : Nat → ParseResult) (expr : CString) (start stop : Nat) :
    ParseResult :=
  let lhs := parseAndExpression parseExpression expr start stop
  match lhs.result with
  | none   => lhs
  | some l =>
    let position := lhs.position
    if position = stop ∨ expr[position]? ≠ some '|' then
      lhs
    else
      let position :=
        if position + 1 < stop ∧ expr[position + 1]? = some '|' then position + 1 else position
      let rhs := parseExpression (position + 1)
      match rhs.result with
      | none   => rhs
      | some r => { result := some (.or l r), position := rhs.position }

def parseExpression (expr : CString) (start stop : Nat) : ParseResult :=
  fix stop (parseOr · expr · stop) start

inductive ExpressionValue
  | error
  | false
  | true
  deriving DecidableEq

namespace ExpressionValue

def ofBool : Bool → ExpressionValue
  | .false => .false
  | .true  => .true

end ExpressionValue

def evalExpression (nameevalfn : CString → ExpressionValue)
    (varrefevalfn : CString → VarRefType → Option CString) : Expression → ExpressionValue
  | .or l r    =>
    match evalExpression nameevalfn varrefevalfn l, evalExpression nameevalfn varrefevalfn r with
    | .error, _ | _, .error => .error
    | lhs, rhs              => .ofBool (lhs = .true ∨ rhs = .true)
  | .and l r   =>
    match evalExpression nameevalfn varrefevalfn l, evalExpression nameevalfn varrefevalfn r with
    | .error, _ | _, .error => .error
    | lhs, rhs              => .ofBool (lhs = .true ∧ rhs = .true)
  | .not arg   =>
    match evalExpression nameevalfn varrefevalfn arg with
    | .error => .error
    | arg    => .ofBool (arg ≠ .true)
  | .eval name =>
    match evalStringExpression varrefevalfn name with
    | none      => .error
    | some name => nameevalfn name

section

variable {parse parse' parseAnd' : Nat → ParseResult} {expr : CString} {start stop : Nat}

theorem advances_parsePrimary (expr : CString) (h : Advances stop parse) :
    Advances stop (parsePrimary parse expr · stop) := by
  intro start a hs
  simp only [parsePrimary] at hs ⊢
  split
  case isTrue hc =>
    rw [if_pos hc] at hs
    cases hr : (parse (start + 1)).result
    case none => simp [hr] at hs
    case some e =>
      have := h _ e hr
      simp only [hr] at hs ⊢
      split
      case isFalse hp =>
        rw [if_neg hp] at hs
        contradiction
      case isTrue hp => exact ⟨by simp only; omega, hp.left⟩
  case isFalse hc =>
    rw [if_neg hc] at hs
    cases hr : (parseStringExpression expr start stop).result
    case none      => simp [hr, fail] at hs
    case some name => exact advances_parseStringExpression expr start name hr

theorem parsePrimary_congr (he : ∀ i, start < i → i ≤ stop → parse i = parse' i) :
    parsePrimary parse expr start stop = parsePrimary parse' expr start stop := by
  simp only [parsePrimary]
  split
  case isFalse   => rfl
  case isTrue hc => rw [he _ (Nat.lt_succ_self start) hc.left]

theorem advances_parseNotExpression (expr : CString) (h : Advances stop parse) :
    Advances stop (parseNotExpression parse expr · stop) := by
  intro start a hs
  simp only [parseNotExpression] at hs ⊢
  split
  case isFalse hc =>
    rw [if_neg hc] at hs
    exact advances_parsePrimary expr h start a hs
  case isTrue hc =>
    rw [if_pos hc] at hs
    cases hr : (parsePrimary parse expr (start + 1) stop).result
    case none => simp [hr] at hs
    case some arg =>
      have ⟨hl, hr⟩ := advances_parsePrimary expr h _ arg hr
      exact ⟨Nat.lt_of_succ_lt hl, hr⟩

theorem parseNotExpression_congr (he : ∀ i, start < i → i ≤ stop → parse i = parse' i) :
    parseNotExpression parse expr start stop = parseNotExpression parse' expr start stop := by
  simp only [parseNotExpression]
  split
  case isFalse => exact parsePrimary_congr he
  case isTrue  => rw [parsePrimary_congr fun i hi => he i <| Nat.lt_of_succ_lt hi]

theorem guarded_parseAnd (h : Advances stop parse) : Guarded stop (parseAnd parse · expr · stop) where
  advances := by
    intro parse' h' start a hs
    simp only [parseAnd] at hs ⊢
    cases hl : (parseNotExpression parse expr start stop).result
    case none => simp [hl] at hs
    case some l =>
      have hp := advances_parseNotExpression expr h start l hl
      simp only [hl] at hs hp ⊢
      split
      case isTrue => exact hp
      case isFalse hc =>
        rw [if_neg hc] at hs
        cases hr : (parse' ((parseNotExpression parse expr start stop).position + 1)).result
        case none => simp [hr] at hs
        case some r =>
          have := h' _ r hr
          exact ⟨by simp only; omega, this.right⟩
  congr := by
    intro parse' parse'' start _ _ he
    simp only [parseAnd]
    cases hl : (parseNotExpression parse expr start stop).result
    case none => rfl
    case some l =>
      have hp := advances_parseNotExpression expr h start l hl
      simp only at hp ⊢
      split
      case isTrue     => rfl
      case isFalse hc => rw [he _ (by omega) (by omega)]

theorem parseAndExpression_congr (h : Advances stop parse) (h' : Advances stop parse')
    (he : ∀ i, start < i → i ≤ stop → parse i = parse' i) :
    parseAndExpression parse expr start stop = parseAndExpression parse' expr start stop := by
  apply (guarded_parseAnd h).fix_congr (guarded_parseAnd h')
  intro parse'' i _ hi
  simp only [parseAnd]
  rw [parseNotExpression_congr fun j hj => he j <| Nat.lt_of_le_of_lt hi hj]

theorem advances_parseAndExpression (expr : CString) (h : Advances stop parse) :
    Advances stop (parseAndExpression parse expr · stop) :=
  (guarded_parseAnd h).advances_fix

theorem guarded_parseOr : Guarded stop (parseOr · expr · stop) where
  advances := by
    intro parse h start a hs
    simp only [parseOr] at hs ⊢
    cases hl : (parseAndExpression parse expr start stop).result
    case none => simp [hl] at hs
    case some l =>
      have hp := advances_parseAndExpression expr h start l hl
      simp only [hl] at hs hp ⊢
      generalize hpos : (if (parseAndExpression parse expr start stop).position + 1 < stop ∧
        expr[(parseAndExpression parse expr start stop).position + 1]? = some '|' then
        (parseAndExpression parse expr start stop).position + 1 else
        (parseAndExpression parse expr start stop).position) = position at hs ⊢
      split
      case isTrue => exact hp
      case isFalse hc =>
        rw [if_neg hc] at hs
        cases hr : (parse (position + 1)).result
        case none => simp [hr] at hs
        case some r =>
          have := h _ r hr
          refine ⟨?_, this.right⟩
          simp only
          split at hpos <;> omega
  congr := by
    intro parse parse' start h h' he
    simp only [parseOr, ←parseAndExpression_congr h h' he]
    cases hl : (parseAndExpression parse expr start stop).result
    case none => rfl
    case some l =>
      have hp := advances_parseAndExpression expr h start l hl
      simp only at hp ⊢
      generalize hpos : (if (parseAndExpression parse expr start stop).position + 1 < stop ∧
        expr[(parseAndExpression parse expr start stop).position + 1]? = some '|' then
        (parseAndExpression parse expr start stop).position + 1 else
        (parseAndExpression parse expr start stop).position) = position
      have hle : start < position ∧ ((parseAndExpression parse expr start stop).position ≠ stop →
          position < stop) := by
        split at hpos <;> omega
      split
      case isTrue     => rfl
      case isFalse hc => rw [he _ (by omega) (by omega)]

-- The recursive equations of the parsers.
theorem parseAndExpression_eq (h : Advances stop parse) : parseAndExpression parse expr start stop =
    parseAnd parse (parseAndExpression parse expr · stop) expr start stop :=
  (guarded_parseAnd h).fix_eq

theorem parseExpression_eq : parseExpression expr start stop =
    parseOr (parseExpression expr · stop) expr start stop :=
  guarded_parseOr.fix_eq

theorem advances_parseExpression (expr : CString) : Advances stop (parseExpression expr · stop) :=
  guarded_parseOr.advances_fix

end
end CfEngine
