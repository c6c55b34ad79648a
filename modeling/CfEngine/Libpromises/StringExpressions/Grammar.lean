import Mathlib.Data.List.TakeWhile
import CfEngine.Libpromises.StringExpressions

open Descent

namespace CfEngine

def VarRefType.sigil : VarRefType → Char
  | scalar => '$'
  | list   => '@'

inductive Brackets
  | round
  | curly

namespace Brackets

def opening : Brackets → Char
  | round => '('
  | curly => '{'

def closing : Brackets → Char
  | round => ')'
  | curly => '}'

end Brackets

inductive StringNonterminal
  | name
  | term
  | varRef
  | qname

-- The text does not go on with a character of a token.
def EndsToken (u : CString) : Prop :=
  ∀ c, u.head? = some c → ¬validTokenCharacter c

-- The grammar of string expressions. A token takes all characters that it can, so that no token
-- follows it.
inductive StringDerives : StringNonterminal → CString → StringExpression → Prop
  | token {t} : t ≠ [] → (∀ c ∈ t, validTokenCharacter c) → StringDerives .term t (.literal t)
  | term {t e} : StringDerives .varRef t e → StringDerives .term t e
  | varRef {q e} (type : VarRefType) (b : Brackets) : StringDerives .qname q e →
    StringDerives .varRef (type.sigil :: b.opening :: q ++ [b.closing]) (.varref e type)
  | qname {t e} : StringDerives .name t e → StringDerives .qname t e
  | dot {t u e f} : StringDerives .name t e → StringDerives .name u f →
    StringDerives .qname (t ++ '.' :: u) (.concat e (.concat (.literal ['.']) f))
  | name {t e} : StringDerives .term t e → StringDerives .name t e
  | concat {t u e f} : StringDerives .term t e → StringDerives .name u f →
    (∀ l, e = .literal l → EndsToken u) → StringDerives .name (t ++ u) (.concat e f)

-- The text does not go on with a term.
def EndsName (u : CString) : Prop :=
  EndsToken u ∧ ∀ t v e, u = t ++ v → ¬StringDerives .varRef t e

theorem StringDerives.ne_nil {n : StringNonterminal} {t : CString} {e : StringExpression}
    (h : StringDerives n t e) : t ≠ [] := by
  induction h
  case token h _          => exact h
  case term ih            => exact ih
  case varRef             => exact List.cons_ne_nil _ _
  case qname ih           => exact ih
  case dot ih _           => exact List.append_ne_nil_of_left_ne_nil ih _
  case name ih            => exact ih
  case concat ih _        => exact List.append_ne_nil_of_left_ne_nil ih _

section

variable {expr t u : CString} {e : StringExpression} {start : Nat}

theorem parseToken_sound (h : (parseToken expr start expr.length).result = some e) :
    ∃ t u, expr.drop start = t ++ u ∧
      (parseToken expr start expr.length).position = start + t.length ∧
      e = .literal t ∧ StringDerives .term t e ∧ EndsToken u := by
  simp only [parseToken, List.take_length] at h ⊢
  split
  case isFalse hc =>
    rw [if_neg hc] at h
    contradiction
  case isTrue hc =>
    rw [if_pos hc] at h
    cases Option.some.inj h
    refine ⟨_, _, List.takeWhile_append_dropWhile.symm, rfl, rfl, .token ?_ ?_, ?_⟩
    · exact List.ne_nil_of_length_pos <| by omega
    · exact fun c => List.mem_takeWhile_imp
    · intro c hh
      have := List.head?_dropWhile_not validTokenCharacter (expr.drop start)
      rw [hh] at this
      simpa using this

theorem parseToken_eq_literal (h : expr.drop start = t ++ u) (hn : t ≠ [])
    (ht : ∀ c ∈ t, validTokenCharacter c) (hu : EndsToken u) :
    parseToken expr start expr.length =
      { result := some (.literal t), position := start + t.length } := by
  have hw : (t ++ u).takeWhile validTokenCharacter = t := by
    rw [List.takeWhile_append_of_pos ht]
    cases u
    case nil      => simp
    case cons c u => simp [List.takeWhile_cons_of_neg (hu c rfl)]
  have := List.length_pos_iff.mpr hn
  simp only [parseToken, List.take_length, h, hw]
  exact if_pos <| by omega

theorem parseToken_eq_fail (h : EndsToken (expr.drop start)) :
    parseToken expr start expr.length = fail start := by
  have hw : (expr.drop start).takeWhile validTokenCharacter = [] := by
    cases hd : expr.drop start
    case nil      => rfl
    case cons c u => exact List.takeWhile_cons_of_neg <| h c <| by rw [hd]; rfl
  simp [parseToken, hw]

end

section

variable {parse : Nat → StringParseResult} {expr : CString} {start : Nat}

theorem parseQname_sound (h : ∀ i, Sound expr (StringDerives .name) i (parse i)) :
    Sound expr (StringDerives .qname) start (parseQname parse expr start expr.length) := by
  intro e he
  simp only [parseQname] at he ⊢
  cases hl : (parse start).result
  case none => simp [hl] at he
  case some l =>
    obtain ⟨t, u, hd, hp, ht⟩ := h start l hl
    simp only [hl] at he ⊢
    split
    case isTrue hc =>
      rw [if_pos hc, hl] at he
      cases Option.some.inj he
      exact ⟨t, u, hd, hp, .qname ht⟩
    case isFalse hc =>
      rw [if_neg hc] at he
      cases hr : (parse ((parse start).position + 1)).result
      case none => simp [hr] at he
      case some r =>
        obtain ⟨v, w, hd', hp', hv⟩ := h _ r hr
        simp only [hr, Option.some.injEq] at he ⊢
        subst he
        have hdot := drop_of_getElem? <| Decidable.not_not.mp (not_or.mp hc).right
        rw [hd', hp, drop_of_append hd] at hdot
        refine ⟨t ++ '.' :: v, w, by simp [hd, hdot], ?_, .dot ht hv⟩
        rw [hp', hp]
        simp only [List.length_append, List.length_cons]
        omega

theorem parseVarRef_sound (h : ∀ i, Sound expr (StringDerives .name) i (parse i)) :
    Sound expr (StringDerives .varRef) start (parseVarRef parse expr start expr.length) := by
  intro e he
  simp only [parseVarRef] at he ⊢
  generalize hcb : (if expr[start + 1]? = some '(' then ')' else '}') = closing_bracket at he ⊢
  generalize htype : (if expr[start]? = some '$' then VarRefType.scalar else .list) = type at he ⊢
  split
  case isFalse hc =>
    rw [if_neg hc] at he
    contradiction
  case isTrue hc =>
    rw [if_pos hc] at he
    split
    case isFalse hb =>
      rw [if_neg hb] at he
      contradiction
    case isTrue hb =>
      rw [if_pos hb] at he
      cases hr : (parseQname parse expr (start + 2) expr.length).result
      case none => simp [hr] at he
      case some name =>
        obtain ⟨q, u, hd, hp, hq⟩ := parseQname_sound h name hr
        simp only [hr] at he ⊢
        split
        case isFalse hp =>
          rw [if_neg hp] at he
          contradiction
        case isTrue hcl =>
          rw [if_pos hcl] at he
          cases Option.some.inj he
          have hsigil : expr[start]? = some type.sigil := by
            subst htype
            split
            case isTrue h  => exact h
            case isFalse h => exact hc.right.resolve_left h
          obtain ⟨b, hopening, hclosing⟩ : ∃ b : Brackets, expr[start + 1]? = some b.opening ∧
              closing_bracket = b.closing := by
            subst hcb
            split
            case isTrue h  => exact ⟨.round, h, rfl⟩
            case isFalse h => exact ⟨.curly, hb.resolve_left h, rfl⟩
          have hd₀ := drop_of_getElem? hsigil
          have hd₁ := drop_of_getElem? hopening
          have hd₂ := drop_of_getElem? hcl.right
          rw [hp, drop_of_append hd] at hd₂
          have hderives := StringDerives.varRef type b hq
          refine ⟨_, expr.drop (start + 2 + q.length + 1), ?_, ?_, hderives⟩
          · rw [hd₀, hd₁, hd, hd₂, hclosing]
            simp
          · simp only [hp, List.cons_append, List.length_cons, List.length_append, List.length_nil]
            omega

theorem parseTerm_sound {e : StringExpression}
    (h : ∀ i, Sound expr (StringDerives .name) i (parse i))
    (he : (parseTerm parse expr start expr.length).result = some e) :
    ∃ t u, expr.drop start = t ++ u ∧
      (parseTerm parse expr start expr.length).position = start + t.length ∧
      StringDerives .term t e ∧ ∀ l, e = .literal l → EndsToken u := by
  simp only [parseTerm] at he ⊢
  cases ht : (parseToken expr start expr.length).result
  case some =>
    rw [ht] at he
    have he : (parseToken expr start expr.length).result = some e := he
    obtain ⟨t, u, hd, hp, _, hder, hu⟩ := parseToken_sound he
    exact ⟨t, u, hd, hp, hder, fun _ _ => hu⟩
  case none =>
    simp only [ht] at he ⊢
    obtain ⟨t, u, hd, hp, hder⟩ := parseVarRef_sound h e he
    refine ⟨t, u, hd, hp, .term hder, fun l hl => ?_⟩
    cases hder
    contradiction

theorem parseStringExpression_sound :
    Sound expr (StringDerives .name) start (parseStringExpression expr start expr.length) := by
  apply fix_invariant (I := Sound expr (StringDerives .name))
  case hf => exact fun start e he => by contradiction
  case hb =>
    intro parse h start e he
    simp only [parseName] at he ⊢
    cases hl : (parseTerm parse expr start expr.length).result
    case none => simp [hl] at he
    case some l =>
      obtain ⟨t, u, hd, hp, ht, hu⟩ := parseTerm_sound h hl
      simp only [hl] at he ⊢
      cases hr : (parse (parseTerm parse expr start expr.length).position).result
      case none =>
        simp only [hr, hl, Option.some.injEq] at he ⊢
        exact ⟨t, u, hd, hp, he ▸ .name ht⟩
      case some r =>
        obtain ⟨v, w, hd', hp', hv⟩ := h _ r hr
        simp only [hr, Option.some.injEq] at he ⊢
        subst he
        rw [hp, drop_of_append hd] at hd'
        have hn : EndsToken u → EndsToken v := by
          intro hu c hc
          apply hu c
          have := StringDerives.ne_nil hv
          rw [hd', List.head?_append_of_ne_nil _ this, hc]
        refine ⟨t ++ v, w, by simp [hd, hd'], ?_, .concat ht hv fun l hl => hn <| hu l hl⟩
        rw [hp', hp, List.length_append, Nat.add_assoc]

end

theorem endsToken_nil : EndsToken [] :=
  nofun

theorem endsToken_cons {c : Char} {u : CString} (h : ¬validTokenCharacter c) : EndsToken (c :: u) := by
  intro d hd
  exact Option.some.inj hd ▸ h

theorem endsName_nil : EndsName [] := by
  refine ⟨endsToken_nil, fun t v e h ht => ?_⟩
  exact ht.ne_nil (List.append_eq_nil_iff.mp h.symm).left

theorem endsName_cons {c : Char} {u : CString} (h : ¬validTokenCharacter c) (hc : c ≠ '$')
    (hc' : c ≠ '@') : EndsName (c :: u) := by
  refine ⟨endsToken_cons h, fun t v e he ht => ?_⟩
  cases ht
  case varRef type _ _ =>
    have he := (List.cons.inj he).left
    cases type
    case scalar => exact hc he
    case list   => exact hc' he

theorem Brackets.endsName (b : Brackets) {u : CString} : EndsName (b.closing :: u) := by
  cases b <;> exact endsName_cons (by decide) (by decide) (by decide)

section

variable {expr t u : CString} {e : StringExpression} {start : Nat}

theorem parseStringExpression_of_term {parsed : StringParseResult}
    (h : parseTerm (parseStringExpression expr · expr.length) expr start expr.length = parsed)
    (hp : parsed.result = none) :
    parseStringExpression expr start expr.length = parsed := by
  rw [parseStringExpression_eq]
  simp [parseName, h, hp]

theorem parseStringExpression_eq_none (h : EndsName (expr.drop start)) :
    (parseStringExpression expr start expr.length).result = none := by
  rw [parseStringExpression_of_term rfl]
  all_goals
    simp only [parseTerm, parseToken_eq_fail h.left, fail]
    apply Option.eq_none_iff_forall_not_mem.mpr
    intro e he
    obtain ⟨t, u, hd, _, ht⟩ := parseVarRef_sound (fun _ => parseStringExpression_sound) e he
    exact h.right t u e hd ht

-- What the parser of a nonterminal yields on a text that begins with it.
def Parses (expr : CString) : StringNonterminal → CString → StringExpression → Prop
  | .name, t, e   => ∀ start u, expr.drop start = t ++ u → EndsName u →
    parseStringExpression expr start expr.length =
      { result := some e, position := start + t.length }
  | .term, t, e   => ∀ start u, expr.drop start = t ++ u → (∀ l, e = .literal l → EndsToken u) →
    parseTerm (parseStringExpression expr · expr.length) expr start expr.length =
      { result := some e, position := start + t.length }
  | .varRef, t, e => ∀ start u, expr.drop start = t ++ u →
    parseVarRef (parseStringExpression expr · expr.length) expr start expr.length =
      { result := some e, position := start + t.length }
  | .qname, t, e  => ∀ start u (b : Brackets), expr.drop start = t ++ b.closing :: u →
    parseQname (parseStringExpression expr · expr.length) expr start expr.length =
      { result := some e, position := start + t.length }

theorem Parses.varRef (type : VarRefType) (b : Brackets) (h : Parses expr .qname t e) :
    Parses expr .varRef (type.sigil :: b.opening :: t ++ [b.closing]) (.varref e type) := by
  intro start u hd
  have hd₀ : expr.drop start = type.sigil :: b.opening :: (t ++ b.closing :: u) := by simp [hd]
  have hd₁ := drop_of_cons hd₀
  have hd₂ := drop_of_cons hd₁
  have hd₃ := drop_of_append hd₂
  have hlen := add_length_of_append (t := []) hd₁ <| Nat.le_of_lt <| by
    exact (List.getElem?_eq_some_iff.mp <| getElem?_of_cons hd₁).choose
  have hq := h (start + 2) u b hd₂
  have htype : (if type.sigil = '$' then VarRefType.scalar else .list) = type := by
    cases type <;> rfl
  have hcb : (if b.opening = '(' then ')' else '}') = b.closing := by cases b <;> rfl
  simp only [List.length_cons, List.length_append, List.length_nil] at hlen
  have hsigil : type.sigil = '$' ∨ type.sigil = '@' := by cases type <;> simp [VarRefType.sigil]
  have hopening : b.opening = '(' ∨ b.opening = '{' := by cases b <;> simp [Brackets.opening]
  simp only [parseVarRef, getElem?_of_cons hd₀, getElem?_of_cons hd₁, hq, getElem?_of_cons hd₃,
    Option.some.injEq, htype, hcb, hsigil, hopening, and_true, ite_true]
  rw [if_pos (by omega), if_pos (by omega)]
  simp only [List.cons_append, List.length_cons, List.length_append, List.length_nil]
  congr 1
  omega

theorem Parses.dot {f : StringExpression} (ht : Parses expr .name t e) (hu : Parses expr .name u f) :
    Parses expr .qname (t ++ '.' :: u) (.concat e (.concat (.literal ['.']) f)) := by
  intro start v b hd
  rw [List.append_assoc, List.cons_append] at hd
  have hd' := drop_of_append hd
  have hlhs := ht start _ hd <| endsName_cons (by decide) (by decide) (by decide)
  have hrhs := hu (start + t.length + 1) _ (drop_of_cons hd') b.endsName
  have hlt := (List.getElem?_eq_some_iff.mp <| getElem?_of_cons hd').choose
  simp only [parseQname, hlhs, getElem?_of_cons hd', hrhs]
  rw [if_neg (by simp; omega)]
  simp only [List.length_append, List.length_cons]
  congr 1
  omega

theorem StringDerives.parses {n : StringNonterminal} (h : StringDerives n t e) (expr : CString) :
    Parses expr n t e := by
  induction h
  case token hn ht =>
    intro start u hd hu
    simp only [parseTerm, parseToken_eq_literal hd hn ht <| hu _ rfl]
  case term hv ih =>
    intro start u hd _
    have hend : EndsToken (expr.drop start) := by
      cases hv
      case varRef type _ _ _ =>
        rw [hd]
        exact endsToken_cons <| by cases type <;> decide
    simp only [parseTerm, parseToken_eq_fail hend, fail, ih start u hd]
  case varRef type b _ ih => exact ih.varRef type b
  case qname ih =>
    intro start u b hd
    have hname := ih start _ hd b.endsName
    have hclosing : b.closing ≠ '.' := by cases b <;> decide
    simp [parseQname, hname, getElem?_of_cons (drop_of_append hd), hclosing]
  case dot ih ih'         => exact ih.dot ih'
  case name ih =>
    intro start u hd hu
    have hterm := ih start u hd fun _ _ => hu.left
    have hnone := parseStringExpression_eq_none (drop_of_append hd ▸ hu)
    rw [parseStringExpression_eq]
    simp only [parseName, hterm, hnone]
  case concat t v e f _ hv hu ih ih' =>
    intro start u hd hend
    rw [List.append_assoc] at hd
    have hterm := ih start _ hd fun l hl c hc => hu l hl c <| by
      rwa [List.head?_append_of_ne_nil _ hv.ne_nil] at hc
    have hname := ih' _ u (drop_of_append hd) hend
    rw [parseStringExpression_eq]
    simp only [parseName, hterm, hname, List.length_append, Nat.add_assoc]

theorem parseStringExpression_eq_none_iff :
    (parseStringExpression expr start expr.length).result = none ↔ EndsName (expr.drop start) := by
  refine ⟨fun h => ?_, parseStringExpression_eq_none⟩
  have hterm : (parseTerm (parseStringExpression expr · expr.length) expr start
      expr.length).result = none := by
    apply Option.eq_none_iff_forall_not_mem.mpr
    intro l hl
    rw [parseStringExpression_eq] at h
    simp only [parseName, Option.mem_def.mp hl] at h
    split at h
    case h_1 => simp [Option.mem_def.mp hl] at h
    case h_2 => contradiction
  simp only [parseTerm] at hterm
  split at hterm
  case h_1 l hl => simp [hl] at hterm
  case h_2 hl =>
    constructor
    case left =>
      intro c hc hvalid
      obtain ⟨u, hd⟩ := List.head?_eq_some_iff.mp hc
      have hw : 0 < ((expr.drop start).takeWhile validTokenCharacter).length := by
        simp [hd, List.takeWhile_cons_of_pos hvalid]
      simp only [parseToken, List.take_length] at hl
      rw [if_pos (by omega)] at hl
      contradiction
    case right =>
      intro t v e hd ht
      have := ht.parses expr start v hd
      simp [this] at hterm

-- A name is read up to the first place where it can end.
theorem endsName_of_parseStringExpression
    (h : (parseStringExpression expr start expr.length).result = some e) :
    EndsName (expr.drop (parseStringExpression expr start expr.length).position) := by
  generalize hn : expr.length - start = n
  induction n using Nat.strongRecOn generalizing start e
  case ind n ih =>
    rw [parseStringExpression_eq] at h ⊢
    simp only [parseName] at h ⊢
    have hadv : Advances expr.length (parseTerm (parseStringExpression expr · expr.length) expr ·
        expr.length) :=
      advances_parseTerm expr <| advances_parseStringExpression expr
    cases hl : (parseTerm (parseStringExpression expr · expr.length) expr start expr.length).result
    case none => simp [hl] at h
    case some l =>
      obtain ⟨hlt, hle⟩ := hadv start l hl
      simp only [hl] at h hlt hle ⊢
      split
      case h_1 hr   => exact parseStringExpression_eq_none_iff.mp hr
      case h_2 r hr => exact ih _ (by omega) hr rfl

end
end CfEngine
