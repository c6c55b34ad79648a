import CfEngine.Library.Descent
import CfEngine.Libutils.Strings

open Descent

namespace CfEngine

inductive VarRefType
  | scalar
  | list
  deriving DecidableEq

inductive StringExpression
  | concat (lhs rhs : StringExpression)
  | literal (literal : CString)
  | varref (name : StringExpression) (type : VarRefType)
  deriving DecidableEq

abbrev StringParseResult := Descent.Result StringExpression

-- The functions below get the parser that they call as an argument. It is `parseStringExpression` on
-- the same text.
def parseQname (parseStringExpression : Nat → StringParseResult) (expr : CString)
    (start stop : Nat) : StringParseResult :=
  let lhs := parseStringExpression start
  match lhs.result with
  | none   => lhs
  | some l =>
    if lhs.position = stop ∨ expr[lhs.position]? ≠ some '.' then
      lhs
    else
      let rhs := parseStringExpression (lhs.position + 1)
      match rhs.result with
      | none   => rhs
      | some r => { result := some (.concat l (.concat (.literal ['.']) r)), position := rhs.position }

def parseVarRef (parseStringExpression : Nat → StringParseResult) (expr : CString)
    (start stop : Nat) : StringParseResult :=
  if start + 1 < stop ∧ (expr[start]? = some '$' ∨ expr[start]? = some '@') then
    if expr[start + 1]? = some '(' ∨ expr[start + 1]? = some '{' then
      let closing_bracket := if expr[start + 1]? = some '(' then ')' else '}'
      let res := parseQname parseStringExpression expr (start + 2) stop
      match res.result with
      | none      => res
      | some name =>
        if res.position < stop ∧ expr[res.position]? = some closing_bracket then
          let type := if expr[start]? = some '$' then .scalar else .list
          { result := some (.varref name type), position := res.position + 1 }
        else
          fail res.position
    else
      fail (start + 1)
  else
    fail start

def validTokenCharacter (c : Char) : Bool :=
  ('a' ≤ c ∧ c ≤ 'z') ∨ ('A' ≤ c ∧ c ≤ 'Z') ∨ ('0' ≤ c ∧ c ≤ '9') ∨
    c = '_' ∨ c = '[' ∨ c = ']' ∨ c = ':'

def parseToken (expr : CString) (start stop : Nat) : StringParseResult :=
  let token := ((expr.take stop).drop start).takeWhile validTokenCharacter
  let endlit := start + token.length
  if start < endlit then { result := some (.literal token), position := endlit } else fail endlit

def parseTerm (parseStringExpression : Nat → StringParseResult) (expr : CString)
    (start stop : Nat) : StringParseResult :=
  let res := parseToken expr start stop
  match res.result with
  | some _ => res
  | none   => parseVarRef parseStringExpression expr start stop

def parseName (parseStringExpression : Nat → StringParseResult) (expr : CString)
    (start stop : Nat) : StringParseResult :=
  let lhs := parseTerm parseStringExpression expr start stop
  match lhs.result with
  | none   => lhs
  | some l =>
    let rhs := parseStringExpression lhs.position
    match rhs.result with
    | none   => lhs
    | some r => { result := some (.concat l r), position := rhs.position }

def parseStringExpression (expr : CString) (start stop : Nat) : StringParseResult :=
  fix stop (parseName · expr · stop) start

def evalStringExpression (evalfn : CString → VarRefType → Option CString) :
    StringExpression → Option CString
  | .concat l r       => do
    let lhs ← evalStringExpression evalfn l
    let rhs ← evalStringExpression evalfn r
    return lhs ++ rhs
  | .literal s        => some s
  | .varref name type => do evalfn (← evalStringExpression evalfn name) type

section

variable {parse parse' : Nat → StringParseResult} {expr : CString} {start stop : Nat}

theorem advances_parseQname (expr : CString) (h : Advances stop parse) :
    Advances stop (parseQname parse expr · stop) := by
  intro start a hs
  simp only [parseQname] at hs ⊢
  cases hl : (parse start).result
  case none => simp [hl] at hs
  case some l =>
    have hp := h start l hl
    simp only [hl] at hs ⊢
    split
    case isTrue => exact hp
    case isFalse hc =>
      rw [if_neg hc] at hs
      cases hr : (parse ((parse start).position + 1)).result
      case none => simp [hr] at hs
      case some r =>
        have := h _ r hr
        exact ⟨by simp only; omega, this.right⟩

theorem parseQname_congr (h : Advances stop parse) (hs : start ≤ stop)
    (he : ∀ i, start ≤ i → i ≤ stop → parse i = parse' i) :
    parseQname parse expr start stop = parseQname parse' expr start stop := by
  simp only [parseQname, ←he start (Nat.le_refl _) hs]
  cases hl : (parse start).result
  case none => rfl
  case some l =>
    have hp := h start l hl
    simp only
    split
    case isTrue => rfl
    case isFalse hc => rw [he _ (by omega) (by omega)]

theorem advances_parseVarRef (expr : CString) (h : Advances stop parse) :
    Advances stop (parseVarRef parse expr · stop) := by
  intro start a hs
  simp only [parseVarRef] at hs ⊢
  generalize (if expr[start + 1]? = some '(' then ')' else '}') = closing_bracket at hs ⊢
  split
  case isFalse hc => simp [if_neg hc, fail] at hs
  case isTrue hc =>
    rw [if_pos hc] at hs
    split
    case isFalse hb => simp [if_neg hb, fail] at hs
    case isTrue hb =>
      rw [if_pos hb] at hs
      cases hr : (parseQname parse expr (start + 2) stop).result
      case none => simp [hr] at hs
      case some name =>
        have hq := advances_parseQname expr h (start + 2) name hr
        simp only [hr] at hs ⊢
        split
        case isFalse hp => simp [if_neg hp, fail] at hs
        case isTrue hp  => exact ⟨by simp only at hq ⊢; omega, hp.left⟩

theorem parseVarRef_congr (h : Advances stop parse)
    (he : ∀ i, start < i → i ≤ stop → parse i = parse' i) :
    parseVarRef parse expr start stop = parseVarRef parse' expr start stop := by
  simp only [parseVarRef]
  split
  case isFalse => rfl
  case isTrue hc =>
    rw [parseQname_congr h (by omega) fun i hi hs => he i (by omega) hs]

theorem advances_parseToken (expr : CString) : Advances stop (parseToken expr · stop) := by
  intro start a hs
  simp only [parseToken] at hs ⊢
  split
  case isFalse hc =>
    rw [if_neg hc] at hs
    contradiction
  case isTrue hc =>
    have hprefix : ((expr.take stop).drop start).takeWhile validTokenCharacter <+:
        (expr.take stop).drop start := List.takeWhile_prefix _
    have := hprefix.length_le
    simp only [List.length_drop, List.length_take] at this
    exact ⟨hc, by simp only; omega⟩

theorem advances_parseTerm (expr : CString) (h : Advances stop parse) :
    Advances stop (parseTerm parse expr · stop) := by
  intro start a hs
  simp only [parseTerm] at hs ⊢
  cases ht : (parseToken expr start stop).result
  case some t => exact advances_parseToken expr start t ht
  case none =>
    simp only [ht] at hs ⊢
    exact advances_parseVarRef expr h start a hs

theorem guarded_parseName : Guarded stop (parseName · expr · stop) where
  advances := by
    intro parse h start a hs
    simp only [parseName] at hs ⊢
    cases hl : (parseTerm parse expr start stop).result
    case none => simp [hl] at hs
    case some l =>
      have hp := advances_parseTerm expr h start l hl
      simp only [hl] at hs hp ⊢
      cases hr : (parse (parseTerm parse expr start stop).position).result
      case none   => exact hp
      case some r =>
        have := h _ r hr
        exact ⟨by simp only; omega, this.right⟩
  congr := by
    intro parse parse' start h _ he
    have ht : parseTerm parse expr start stop = parseTerm parse' expr start stop := by
      simp only [parseTerm, parseVarRef_congr h he]
    simp only [parseName, ←ht]
    cases hl : (parseTerm parse expr start stop).result
    case none => rfl
    case some l =>
      have hp := advances_parseTerm expr h start l hl
      simp only [he _ hp.left hp.right]

-- The recursive equation of the parser.
theorem parseStringExpression_eq : parseStringExpression expr start stop =
    parseName (parseStringExpression expr · stop) expr start stop :=
  guarded_parseName.fix_eq

theorem advances_parseStringExpression (expr : CString) :
    Advances stop (parseStringExpression expr · stop) :=
  guarded_parseName.advances_fix

end
end CfEngine
