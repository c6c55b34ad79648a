import CfEngine.Libpromises.LogicExpressions

open Descent

namespace CfEngine

-- A character between the bounds. Any other one must not be read.
def readBetween (expr : CString) (low high i : Nat) : Option Char :=
  if low ≤ i ∧ i < high then expr[i]? else none

-- The parsers once more, with each of their reads. They get stuck when a read or a call does.
namespace Checked

-- The test of a character if there is one before the end.
def testAt (read : Nat → Option Char) (stop i : Nat) (c : Char) : Option Bool :=
  if i < stop then (read i).map (· = c) else some false

section
variable (read : Nat → Option Char)

def parseQname (parseStringExpression : Nat → Option StringParseResult) (start stop : Nat) :
    Option StringParseResult := do
  let lhs ← parseStringExpression start
  match lhs.result with
  | none   => return lhs
  | some l =>
    if lhs.position = stop then
      return lhs
    else if (← read lhs.position) ≠ '.' then
      return lhs
    else
      let rhs ← parseStringExpression (lhs.position + 1)
      match rhs.result with
      | none   => return rhs
      | some r => return { result := some (.concat l (.concat (.literal ['.']) r)), position := rhs.position }

def parseVarRef (parseStringExpression : Nat → Option StringParseResult) (start stop : Nat) :
    Option StringParseResult := do
  if start + 1 < stop then
    let sigil ← read start
    if sigil = '$' ∨ sigil = '@' then
      let bracket ← read (start + 1)
      if bracket = '(' ∨ bracket = '{' then
        let closing_bracket := if bracket = '(' then ')' else '}'
        let res ← parseQname read parseStringExpression (start + 2) stop
        match res.result with
        | none      => return res
        | some name =>
          if ← testAt read stop res.position closing_bracket then
            let type := if sigil = '$' then .scalar else .list
            return { result := some (.varref name type), position := res.position + 1 }
          else
            return fail res.position
      else
        return fail (start + 1)
    else
      return fail start
  else
    return fail start

-- The loop over the characters of a token.
def endOfToken (stop endlit : Nat) : Option Nat := do
  if endlit < stop then
    if validTokenCharacter (← read endlit) then endOfToken stop (endlit + 1) else return endlit
  else
    return endlit
termination_by stop - endlit

def parseToken (start stop : Nat) : Option StringParseResult := do
  let endlit ← endOfToken read stop start
  if start < endlit then
    let token ← (List.range' start (endlit - start)).mapM read
    return { result := some (.literal token), position := endlit }
  else
    return fail endlit

def parseTerm (parseStringExpression : Nat → Option StringParseResult) (start stop : Nat) :
    Option StringParseResult := do
  let res ← parseToken read start stop
  match res.result with
  | some _ => return res
  | none   => parseVarRef read parseStringExpression start stop

def parseName (parseStringExpression : Nat → Option StringParseResult) (start stop : Nat) :
    Option StringParseResult := do
  let lhs ← parseTerm read parseStringExpression start stop
  match lhs.result with
  | none   => return lhs
  | some l =>
    let rhs ← parseStringExpression lhs.position
    match rhs.result with
    | none   => return lhs
    | some r => return { result := some (.concat l r), position := rhs.position }

def parseStringExpression (fuel start stop : Nat) : Option StringParseResult :=
  attempt (parseName read · · stop) fuel start

def parsePrimary (parseExpression : Nat → Option ParseResult) (fuel start stop : Nat) : Option ParseResult := do
  if ← testAt read stop start '(' then
    let res ← parseExpression (start + 1)
    match res.result with
    | none   => return res
    | some e =>
      if ← testAt read stop res.position ')' then
        return { result := some e, position := res.position + 1 }
      else
        return fail res.position
  else
    let strres ← parseStringExpression read fuel start stop
    match strres.result with
    | none      => return fail strres.position
    | some name => return { result := some (.eval name), position := strres.position }

def parseNotExpression (parseExpression : Nat → Option ParseResult) (fuel start stop : Nat) : Option ParseResult := do
  if ← testAt read stop start '!' then
    let primres ← parsePrimary read parseExpression fuel (start + 1) stop
    match primres.result with
    | none     => return primres
    | some arg => return { result := some (.not arg), position := primres.position }
  else
    parsePrimary read parseExpression fuel start stop

def parseAnd (parseExpression parseAndExpression : Nat → Option ParseResult) (fuel start stop : Nat) :
    Option ParseResult := do
  let lhs ← parseNotExpression read parseExpression fuel start stop
  match lhs.result with
  | none   => return lhs
  | some l =>
    if lhs.position = stop then
      return lhs
    else
      let c ← read lhs.position
      if c ≠ '.' ∧ c ≠ '&' then
        return lhs
      else
        let rhs ← parseAndExpression (lhs.position + 1)
        match rhs.result with
        | none   => return rhs
        | some r => return { result := some (.and l r), position := rhs.position }

def parseAndExpression (parseExpression : Nat → Option ParseResult) (fuel start stop : Nat) : Option ParseResult :=
  attempt (parseAnd read parseExpression · fuel · stop) fuel start

def parseOr (parseExpression : Nat → Option ParseResult) (fuel start stop : Nat) : Option ParseResult := do
  let lhs ← parseAndExpression read parseExpression fuel start stop
  match lhs.result with
  | none   => return lhs
  | some l =>
    let position := lhs.position
    if position = stop then
      return lhs
    else if (← read position) ≠ '|' then
      return lhs
    else
      let position := if ← testAt read stop (position + 1) '|' then position + 1 else position
      let rhs ← parseExpression (position + 1)
      match rhs.result with
      | none   => return rhs
      | some r => return { result := some (.or l r), position := rhs.position }

def parseExpression (fuel start stop : Nat) : Option ParseResult :=
  attempt (parseOr read · fuel · stop) fuel start

end

-- What is read between the bounds is the text.
def Covers (read : Nat → Option Char) (expr : CString) (low high : Nat) : Prop :=
  ∀ i, low ≤ i → i < high → ∃ c, read i = some c ∧ expr[i]? = some c

theorem covers_readBetween {expr : CString} {low high : Nat} (h : high ≤ expr.length) :
    Covers (readBetween expr low high) expr low high := by
  intro i hl hh
  have hi : expr[i]? = some expr[i] := List.getElem?_eq_getElem <| Nat.lt_of_lt_of_le hh h
  exact ⟨expr[i], by rw [readBetween, if_pos ⟨hl, hh⟩, hi], hi⟩

section
variable {read : Nat → Option Char} {expr : CString} {low start stop : Nat} {parse : Nat → StringParseResult}
  {parse' : Nat → Option StringParseResult}

theorem testAt_eq (h : Covers read expr low stop) {c : Char} (hl : low ≤ start) :
    testAt read stop start c = some (decide (start < stop ∧ expr[start]? = some c)) := by
  rw [testAt]
  split
  case isTrue hs  =>
    obtain ⟨d, hr, he⟩ := h start hl hs
    simp [hr, he, hs]
  case isFalse hs => simp [hs]

theorem parseQname_eq (h : Covers read expr low stop) (ha : Advances stop parse) (hl : low ≤ start) (hs : start ≤ stop)
    (he : ∀ i, start ≤ i → i ≤ stop → parse' i = some (parse i)) :
    parseQname read parse' start stop = some (CfEngine.parseQname parse expr start stop) := by
  simp only [parseQname, CfEngine.parseQname, he start le_rfl hs, Option.bind_eq_bind, Option.bind_some]
  cases hr : (parse start).result
  case none   => rfl
  case some l =>
    have hp := ha start l hr
    by_cases hend : (parse start).position = stop
    case pos => simp [hend]
    case neg =>
      obtain ⟨c, hc, hexpr⟩ := h (parse start).position (by omega) (by omega)
      by_cases hdot : c = '.'
      case neg => simp [hend, hc, hexpr, hdot]
      case pos =>
        simp only [hend, hc, hexpr, hdot, he _ (Nat.le_succ_of_le <| Nat.le_of_lt hp.left) (by omega : _ + 1 ≤ stop)]
        cases hr' : (parse ((parse start).position + 1)).result <;> simp [hr']

theorem parseVarRef_eq (h : Covers read expr low stop) (ha : Advances stop parse) (hl : low ≤ start)
    (he : ∀ i, start < i → i ≤ stop → parse' i = some (parse i)) :
    parseVarRef read parse' start stop = some (CfEngine.parseVarRef parse expr start stop) := by
  rw [parseVarRef, CfEngine.parseVarRef]
  by_cases hs : start + 1 < stop
  case neg => simp [hs]
  case pos =>
    obtain ⟨sigil, hsigil, hexpr⟩ := h start hl (by omega)
    obtain ⟨bracket, hbracket, hexpr'⟩ := h (start + 1) (by omega) hs
    have hqname := parseQname_eq h ha (by omega) (by omega : start + 2 ≤ stop) fun i hi => he i (by omega)
    simp only [hs, hsigil, hexpr, hbracket, hexpr', hqname, if_true, Option.bind_eq_bind, Option.bind_some, true_and,
      Option.some.injEq]
    split
    case isFalse => rfl
    case isTrue  =>
      split
      case isFalse => rfl
      case isTrue  =>
        cases hr : (CfEngine.parseQname parse expr (start + 2) stop).result
        case none      => rfl
        case some name =>
          have hp := advances_parseQname expr ha (start + 2) name hr
          simp only at hp ⊢
          simp only [testAt_eq h (by omega : low ≤ (CfEngine.parseQname parse expr (start + 2) stop).position),
            Option.bind_some, decide_eq_true_eq]
          split <;> split <;> rfl

-- The characters up to the end, from a place on.
theorem drop_take (h : Covers read expr low stop) (hl : low ≤ start) (hs : start < stop) :
    ∃ c, read start = some c ∧ (expr.take stop).drop start = c :: (expr.take stop).drop (start + 1) := by
  obtain ⟨c, hc, hexpr⟩ := h start hl hs
  exact ⟨c, hc, drop_of_getElem? <| (List.getElem?_take_of_lt hs).trans hexpr⟩

theorem endOfToken_eq (h : Covers read expr low stop) (hl : low ≤ start) : endOfToken read stop start =
    some (start + (((expr.take stop).drop start).takeWhile validTokenCharacter).length) := by
  induction hn : stop - start using Nat.strongRecOn generalizing start
  case ind n ih =>
    rw [endOfToken]
    by_cases hs : start < stop
    case neg =>
      have hdrop : (expr.take stop).drop start = [] :=
        List.drop_eq_nil_of_le <| (List.length_take_le _ _).trans <| Nat.le_of_not_lt hs
      simp [hs, hdrop]
    case pos =>
      obtain ⟨c, hc, hdrop⟩ := drop_take h hl hs
      have hnext := ih (stop - (start + 1)) (by omega) (by omega : low ≤ start + 1) rfl
      by_cases hv : validTokenCharacter c
      case pos =>
        simp only [hs, hc, hv, hnext, hdrop, List.takeWhile_cons, if_true, Option.bind_eq_bind, Option.bind_some,
          List.length_cons]
        congr 1
        omega
      case neg => simp [hs, hc, hv, hdrop]

theorem mapM_read (h : Covers read expr low stop) {n : Nat} (hl : low ≤ start) (hs : start + n ≤ stop) :
    (List.range' start n).mapM read = some (((expr.take stop).drop start).take n) := by
  induction n generalizing start
  case zero      => simp
  case succ n ih =>
    obtain ⟨c, hc, hdrop⟩ := drop_take h hl (by omega)
    rw [List.range'_succ, List.mapM_cons, hc, ih (Nat.le_succ_of_le hl) (by omega), hdrop]
    rfl

theorem parseToken_eq (h : Covers read expr low stop) (hl : low ≤ start) (hs : start ≤ stop) :
    parseToken read start stop = some (CfEngine.parseToken expr start stop) := by
  have hprefix := List.takeWhile_prefix validTokenCharacter (l := (expr.take stop).drop start)
  have hlength := hprefix.length_le
  have hle : start + (((expr.take stop).drop start).takeWhile validTokenCharacter).length ≤ stop := by
    rw [List.length_drop, List.length_take] at hlength
    omega
  have htoken := mapM_read h hl hle
  rw [←List.prefix_iff_eq_take.mp hprefix] at htoken
  simp only [parseToken, CfEngine.parseToken, endOfToken_eq h hl, Option.bind_eq_bind, Option.bind_some,
    Nat.add_sub_cancel_left, htoken]
  split <;> rfl

theorem parseName_eq (h : Covers read expr low stop) (ha : Advances stop parse) (hl : low ≤ start) (hs : start ≤ stop)
    (he : ∀ i, start < i → i ≤ stop → parse' i = some (parse i)) :
    parseName read parse' start stop = some (CfEngine.parseName parse expr start stop) := by
  have hterm : parseTerm read parse' start stop = some (CfEngine.parseTerm parse expr start stop) := by
    simp only [parseTerm, CfEngine.parseTerm, parseToken_eq h hl hs, Option.bind_eq_bind, Option.bind_some]
    cases (CfEngine.parseToken expr start stop).result
    case none   => exact parseVarRef_eq h ha hl he
    case some t => rfl
  simp only [parseName, CfEngine.parseName, hterm, Option.bind_eq_bind, Option.bind_some]
  cases hr : (CfEngine.parseTerm parse expr start stop).result
  case none   => rfl
  case some l =>
    have hp := advances_parseTerm expr ha start l hr
    simp only [he _ hp.left hp.right, Option.bind_some]
    cases (parse (CfEngine.parseTerm parse expr start stop).position).result <;> rfl

theorem parseStringExpression_eq (h : Covers read expr low stop) {fuel : Nat} (hl : low ≤ start) (hs : start ≤ stop)
    (hf : stop - start < fuel) :
    parseStringExpression read fuel start stop = some (CfEngine.parseStringExpression expr start stop) :=
  guarded_parseName.attempt_eq (fun _ _ hl hs => parseName_eq h (advances_parseStringExpression expr) hl hs) hl hs hf

end

section
variable {read : Nat → Option Char} {expr : CString} {low start stop fuel : Nat} {parse parseAnd₀ : Nat → ParseResult}
  {parse' parseAnd' : Nat → Option ParseResult}

theorem parsePrimary_eq (h : Covers read expr low stop) (ha : Advances stop parse) (hl : low ≤ start)
    (hs : start ≤ stop) (hf : stop - start < fuel) (he : ∀ i, start < i → i ≤ stop → parse' i = some (parse i)) :
    parsePrimary read parse' fuel start stop = some (CfEngine.parsePrimary parse expr start stop) := by
  simp only [parsePrimary, CfEngine.parsePrimary, testAt_eq h hl, Option.bind_eq_bind, Option.bind_some,
    decide_eq_true_eq]
  split
  case isTrue hopen =>
    rw [he _ (Nat.lt_succ_self start) hopen.left, Option.bind_some]
    cases hr : (parse (start + 1)).result
    case none   => rfl
    case some e =>
      have hp := ha _ e hr
      simp only [testAt_eq h (by omega : low ≤ (parse (start + 1)).position), Option.bind_some, decide_eq_true_eq]
      split <;> rfl
  case isFalse      =>
    rw [parseStringExpression_eq h hl hs hf, Option.bind_some]
    cases (CfEngine.parseStringExpression expr start stop).result <;> rfl

theorem parseNotExpression_eq (h : Covers read expr low stop) (ha : Advances stop parse) (hl : low ≤ start)
    (hs : start ≤ stop) (hf : stop - start < fuel) (he : ∀ i, start < i → i ≤ stop → parse' i = some (parse i)) :
    parseNotExpression read parse' fuel start stop = some (CfEngine.parseNotExpression parse expr start stop) := by
  simp only [parseNotExpression, CfEngine.parseNotExpression, testAt_eq h hl, Option.bind_eq_bind, Option.bind_some,
    decide_eq_true_eq]
  split
  case isTrue hnot =>
    have hprimary := parsePrimary_eq h ha (by omega) hnot.left (by omega : stop - (start + 1) < fuel) fun i hi =>
      he i (by omega)
    rw [hprimary, Option.bind_some]
    cases (CfEngine.parsePrimary parse expr (start + 1) stop).result <;> rfl
  case isFalse     => exact parsePrimary_eq h ha hl hs hf he

theorem parseAnd_eq (h : Covers read expr low stop) (ha : Advances stop parse) (hl : low ≤ start) (hs : start ≤ stop)
    (hf : stop - start < fuel) (he : ∀ i, start < i → i ≤ stop → parse' i = some (parse i))
    (he' : ∀ i, start < i → i ≤ stop → parseAnd' i = some (parseAnd₀ i)) :
    parseAnd read parse' parseAnd' fuel start stop = some (CfEngine.parseAnd parse parseAnd₀ expr start stop) := by
  simp only [parseAnd, CfEngine.parseAnd, parseNotExpression_eq h ha hl hs hf he, Option.bind_eq_bind, Option.bind_some]
  cases hr : (CfEngine.parseNotExpression parse expr start stop).result
  case none   => rfl
  case some l =>
    have hp := advances_parseNotExpression expr ha start l hr
    simp only at hp
    by_cases hend : (CfEngine.parseNotExpression parse expr start stop).position = stop
    case pos => simp [hend]
    case neg =>
      obtain ⟨c, hc, hexpr⟩ := h (CfEngine.parseNotExpression parse expr start stop).position (by omega) (by omega)
      have hnext := he' ((CfEngine.parseNotExpression parse expr start stop).position + 1) (by omega) (by omega)
      simp only [hend, hc, hexpr, hnext, if_false, false_or, Option.bind_some, ne_eq, Option.some.injEq]
      split
      case isTrue  => rfl
      case isFalse =>
        cases (parseAnd₀ ((CfEngine.parseNotExpression parse expr start stop).position + 1)).result <;> rfl

theorem parseAndExpression_eq (h : Covers read expr low stop) (ha : Advances stop parse) (hl : low ≤ start)
    (hs : start ≤ stop) (hf : stop - start < fuel) (he : ∀ i, start < i → i ≤ stop → parse' i = some (parse i)) :
    parseAndExpression read parse' fuel start stop = some (CfEngine.parseAndExpression parse expr start stop) := by
  refine (guarded_parseAnd ha).attempt_eq (fun parseAnd' i hi hi' hand => ?_) le_rfl hs hf
  exact parseAnd_eq h ha (hl.trans hi) hi' (by omega) (fun j hj => he j <| Nat.lt_of_le_of_lt hi hj) hand

theorem parseOr_eq (h : Covers read expr low stop) (ha : Advances stop parse) (hl : low ≤ start) (hs : start ≤ stop)
    (hf : stop - start < fuel) (he : ∀ i, start < i → i ≤ stop → parse' i = some (parse i)) :
    parseOr read parse' fuel start stop = some (CfEngine.parseOr parse expr start stop) := by
  simp only [parseOr, CfEngine.parseOr, parseAndExpression_eq h ha hl hs hf he, Option.bind_eq_bind, Option.bind_some]
  cases hr : (CfEngine.parseAndExpression parse expr start stop).result
  case none   => rfl
  case some l =>
    have hp := advances_parseAndExpression expr ha start l hr
    simp only at hp ⊢
    by_cases hend : (CfEngine.parseAndExpression parse expr start stop).position = stop
    case pos => simp [hend]
    case neg =>
      obtain ⟨c, hc, hexpr⟩ := h (CfEngine.parseAndExpression parse expr start stop).position (by omega) (by omega)
      have htest := @testAt_eq read expr low _ stop h '|'
        (by omega : low ≤ (CfEngine.parseAndExpression parse expr start stop).position + 1)
      simp only [hend, hc, hexpr, htest, if_false, false_or, Option.bind_some, ne_eq, Option.some.injEq,
        decide_eq_true_eq]
      split
      case isTrue  => rfl
      case isFalse =>
        generalize hposition : (if (CfEngine.parseAndExpression parse expr start stop).position + 1 < stop ∧
          expr[(CfEngine.parseAndExpression parse expr start stop).position + 1]? = some '|' then
          (CfEngine.parseAndExpression parse expr start stop).position + 1 else
          (CfEngine.parseAndExpression parse expr start stop).position) = position
        have hle : start < position ∧ position < stop := by
          split at hposition <;> omega
        rw [he _ (Nat.lt_succ_of_lt hle.left) hle.right, Option.bind_some]
        cases (parse (position + 1)).result <;> rfl

theorem parseExpression_eq (h : Covers read expr low stop) (hl : low ≤ start) (hs : start ≤ stop)
    (hf : stop - start < fuel) :
    parseExpression read fuel start stop = some (CfEngine.parseExpression expr start stop) := by
  refine guarded_parseOr.attempt_eq (fun parse' i hi hi' he => ?_) le_rfl hs hf
  exact parseOr_eq h (advances_parseExpression expr) (hl.trans hi) hi' (by omega) he

end
end Checked

section
variable {stop : Nat} {parse : Nat → StringParseResult}

theorem confined_parseToken (expr : CString) : Confined stop (parseToken expr · stop) := by
  intro start hs
  have hlength := (List.takeWhile_prefix validTokenCharacter (l := (expr.take stop).drop start)).length_le
  rw [List.length_drop, List.length_take] at hlength
  simp only [parseToken]
  split
  case isTrue  => exact ⟨Nat.le_add_right _ _, by simp only; omega⟩
  case isFalse => exact ⟨Nat.le_add_right _ _, by simp only [fail]; omega⟩

theorem confined_parseQname (expr : CString) (ha : Advances stop parse) (hc : Confined stop parse) :
    Confined stop (parseQname parse expr · stop) := by
  intro start hs
  have hstart := hc start hs
  simp only [parseQname]
  cases hl : (parse start).result
  case none   => exact hstart
  case some l =>
    have hp := ha start l hl
    simp only
    split
    case isTrue          => exact hstart
    case isFalse hbehind =>
      have hrest := hc ((parse start).position + 1) (by omega)
      cases (parse ((parse start).position + 1)).result <;> exact ⟨by simp only; omega, hrest.right⟩

theorem confined_parseVarRef (expr : CString) (ha : Advances stop parse) (hc : Confined stop parse) :
    Confined stop (parseVarRef parse expr · stop) := by
  intro start hs
  simp only [parseVarRef]
  generalize (if expr[start + 1]? = some '(' then ')' else '}') = closing_bracket
  split
  case isFalse    => exact ⟨le_rfl, hs⟩
  case isTrue hs' =>
    split
    case isFalse => exact ⟨Nat.le_succ start, Nat.le_of_lt hs'.left⟩
    case isTrue  =>
      have hq := confined_parseQname expr ha hc (start + 2) hs'.left
      simp only at hq
      cases (parseQname parse expr (start + 2) stop).result
      case none      => exact ⟨by simp only; omega, hq.right⟩
      case some name =>
        simp only
        split
        case isTrue hclosed => exact ⟨by simp only; omega, hclosed.left⟩
        case isFalse        => exact ⟨by simp only [fail]; omega, hq.right⟩

theorem confined_parseName (expr : CString) (ha : Advances stop parse) (hc : Confined stop parse) :
    Confined stop (parseName parse expr · stop) := by
  have hterm : Confined stop (parseTerm parse expr · stop) := by
    intro start hs
    simp only [parseTerm]
    cases (parseToken expr start stop).result
    case none   => exact confined_parseVarRef expr ha hc start hs
    case some t => exact confined_parseToken expr start hs
  intro start hs
  have hlhs := hterm start hs
  simp only [parseName] at hlhs ⊢
  cases (parseTerm parse expr start stop).result
  case none   => exact hlhs
  case some l =>
    have hrhs := hc _ hlhs.right
    simp only
    cases (parse (parseTerm parse expr start stop).position).result
    case none   => exact hlhs
    case some r => exact ⟨hlhs.left.trans hrhs.left, hrhs.right⟩

theorem confined_parseStringExpression (expr : CString) : Confined stop (parseStringExpression expr · stop) :=
  guarded_parseName.confined_fix fun _ => confined_parseName expr

end

section
variable {stop : Nat} {parse : Nat → ParseResult}

theorem confined_parsePrimary (expr : CString) (hc : Confined stop parse) :
    Confined stop (parsePrimary parse expr · stop) := by
  intro start hs
  simp only [parsePrimary]
  split
  case isTrue hopen =>
    have hinner := hc (start + 1) hopen.left
    cases (parse (start + 1)).result
    case none   => exact ⟨Nat.le_of_succ_le hinner.left, hinner.right⟩
    case some e =>
      simp only
      split
      case isTrue hclosed => exact ⟨by simp only; omega, hclosed.left⟩
      case isFalse        => exact ⟨Nat.le_of_succ_le hinner.left, hinner.right⟩
  case isFalse      =>
    have hname := confined_parseStringExpression expr start hs
    cases (parseStringExpression expr start stop).result <;> exact hname

theorem confined_parseNotExpression (expr : CString) (hc : Confined stop parse) :
    Confined stop (parseNotExpression parse expr · stop) := by
  intro start hs
  simp only [parseNotExpression]
  split
  case isTrue hnot =>
    have hprimary := confined_parsePrimary expr hc (start + 1) hnot.left
    have hle := Nat.le_of_succ_le hprimary.left
    cases (parsePrimary parse expr (start + 1) stop).result <;> exact ⟨hle, hprimary.right⟩
  case isFalse     => exact confined_parsePrimary expr hc start hs

theorem confined_parseAndExpression (expr : CString) (ha : Advances stop parse) (hc : Confined stop parse) :
    Confined stop (parseAndExpression parse expr · stop) := by
  refine (guarded_parseAnd ha).confined_fix fun parseAnd' _ hand start hs => ?_
  have hlhs := confined_parseNotExpression expr hc start hs
  simp only [parseAnd] at hlhs ⊢
  cases hl : (parseNotExpression parse expr start stop).result
  case none   => exact hlhs
  case some l =>
    have hp := advances_parseNotExpression expr ha start l hl
    simp only at hp ⊢
    split
    case isTrue          => exact hlhs
    case isFalse hbehind =>
      have hrhs := hand ((parseNotExpression parse expr start stop).position + 1) (by omega)
      have hle := Nat.le_of_succ_le <| (Nat.succ_le_succ hlhs.left).trans hrhs.left
      cases (parseAnd' ((parseNotExpression parse expr start stop).position + 1)).result <;> exact ⟨hle, hrhs.right⟩

theorem confined_parseExpression (expr : CString) : Confined stop (parseExpression expr · stop) := by
  refine guarded_parseOr.confined_fix fun parse ha hc start hs => ?_
  have hlhs := confined_parseAndExpression expr ha hc start hs
  simp only [parseOr] at hlhs ⊢
  cases hl : (parseAndExpression parse expr start stop).result
  case none   => exact hlhs
  case some l =>
    have hp := advances_parseAndExpression expr ha start l hl
    simp only at hp ⊢
    generalize hposition : (if (parseAndExpression parse expr start stop).position + 1 < stop ∧
      expr[(parseAndExpression parse expr start stop).position + 1]? = some '|' then
      (parseAndExpression parse expr start stop).position + 1 else
      (parseAndExpression parse expr start stop).position) = position
    split
    case isTrue          => exact hlhs
    case isFalse hbehind =>
      have hle : start < position ∧ position < stop := by
        split at hposition <;> omega
      have hrhs := hc (position + 1) hle.right
      have hle' : start ≤ (parse (position + 1)).position := by omega
      cases (parse (position + 1)).result <;> exact ⟨hle', hrhs.right⟩

end

-- The parsers come to an end, with nesting no deeper than the text between the bounds is long, and without a read
-- that is out of the bounds. The position that they give is between the bounds, too.
theorem parse_between_bounds (expr : CString) (start stop fuel : Nat) (hs : start ≤ stop) (hl : stop ≤ expr.length)
    (hf : stop - start < fuel) :
    (Checked.parseExpression (readBetween expr start stop) fuel start stop = some (parseExpression expr start stop) ∧
      start ≤ (parseExpression expr start stop).position ∧ (parseExpression expr start stop).position ≤ stop) ∧
    (Checked.parseStringExpression (readBetween expr start stop) fuel start stop =
        some (parseStringExpression expr start stop) ∧
      start ≤ (parseStringExpression expr start stop).position ∧
      (parseStringExpression expr start stop).position ≤ stop) := by
  have hcovers := @Checked.covers_readBetween expr start stop hl
  exact ⟨⟨Checked.parseExpression_eq hcovers le_rfl hs hf, confined_parseExpression expr start hs⟩,
    ⟨Checked.parseStringExpression_eq hcovers le_rfl hs hf, confined_parseStringExpression expr start hs⟩⟩

-- A bracket that is not closed before the end of the bounds.
theorem parse_unclosed_bracket : Checked.parseExpression (readBetween ['x', 'a', '.', '(', 'b', ')'] 1 5) 5 1 5 =
      some (parseExpression ['x', 'a', '.', '(', 'b', ')'] 1 5) ∧
    1 ≤ (parseExpression ['x', 'a', '.', '(', 'b', ')'] 1 5).position ∧
    (parseExpression ['x', 'a', '.', '(', 'b', ')'] 1 5).position ≤ 5 :=
  (parse_between_bounds ['x', 'a', '.', '(', 'b', ')'] 1 5 5 (by decide) (by decide) (by decide)).left

end CfEngine
