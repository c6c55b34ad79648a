import CfEngine.Libpromises.LogicExpressions
import CfEngine.Libpromises.StringExpressions.Grammar

open Descent

namespace CfEngine

inductive ExpressionNonterminal
  | orExpr
  | andExpr
  | notExpr
  | primary

-- The grammar of logic expressions. The flag tells whether the text ends in a name.
inductive ExpressionDerives : ExpressionNonterminal → Bool → CString → Expression → Prop
  | name {t n} : StringDerives .name t n → ExpressionDerives .primary true t (.eval n)
  | parens {t e b} : ExpressionDerives .orExpr b t e →
    ExpressionDerives .primary false ('(' :: t ++ [')']) e
  | not {t e b} : ExpressionDerives .primary b t e → ExpressionDerives .notExpr b ('!' :: t) (.not e)
  | primary {t e b} : ExpressionDerives .primary b t e → ExpressionDerives .notExpr b t e
  | and {t u e f b b' op} : op = '.' ∨ op = '&' → ExpressionDerives .notExpr b t e →
    ExpressionDerives .andExpr b' u f → ExpressionDerives .andExpr b' (t ++ op :: u) (.and e f)
  | notExpr {t e b} : ExpressionDerives .notExpr b t e → ExpressionDerives .andExpr b t e
  | or {t u e f b b' op} : op = ['|'] ∨ op = ['|', '|'] → ExpressionDerives .andExpr b t e →
    ExpressionDerives .orExpr b' u f → ExpressionDerives .orExpr b' (t ++ op ++ u) (.or e f)
  | andExpr {t e b} : ExpressionDerives .andExpr b t e → ExpressionDerives .orExpr b t e

-- The characters that an expression goes on with.
def ExpressionNonterminal.operators : ExpressionNonterminal → List Char
  | orExpr  => ['.', '&', '|']
  | andExpr => ['.', '&']
  | notExpr => []
  | primary => []

-- The text does not go on with a part of the expression before it.
def Ends (n : ExpressionNonterminal) (endsInName : Bool) (u : CString) : Prop :=
  (endsInName = true → EndsName u) ∧ ∀ c ∈ n.operators, u.head? ≠ some c

-- A successful parse reads an expression up to the first place where it can end.
def ReadsToEnd (n : ExpressionNonterminal) (expr : CString) (start : Nat) (r : ParseResult) : Prop :=
  ∀ e, r.result = some e → ∃ b t u, expr.drop start = t ++ u ∧ r.position = start + t.length ∧
    ExpressionDerives n b t e ∧ Ends n b u

section

variable {parse parse' : Nat → ParseResult} {expr : CString} {start : Nat}

theorem parsePrimary_readsToEnd (h : ∀ i, ReadsToEnd .orExpr expr i (parse i)) :
    ReadsToEnd .primary expr start (parsePrimary parse expr start expr.length) := by
  intro e he
  simp only [parsePrimary] at he ⊢
  split
  case isTrue hc =>
    rw [if_pos hc] at he
    cases hr : (parse (start + 1)).result
    case none => simp [hr] at he
    case some e' =>
      obtain ⟨b, t, u, hd, hp, ht, _⟩ := h _ e' hr
      simp only [hr] at he ⊢
      split
      case isFalse hcl =>
        rw [if_neg hcl] at he
        contradiction
      case isTrue hcl =>
        rw [if_pos hcl] at he
        cases Option.some.inj he
        have hd₀ := drop_of_getElem? hc.right
        have hd₁ := drop_of_getElem? hcl.right
        rw [hp, drop_of_append hd] at hd₁
        have hends : Ends .primary false (expr.drop (start + 1 + t.length + 1)) :=
          ⟨by simp, by rintro _ ⟨⟩⟩
        refine ⟨false, _, _, ?_, ?_, .parens ht, hends⟩
        · rw [hd₀, hd, hd₁]
          simp
        · simp only [hp, List.cons_append, List.length_cons, List.length_append, List.length_nil]
          omega
  case isFalse hc =>
    rw [if_neg hc] at he
    cases hr : (parseStringExpression expr start expr.length).result
    case none => simp [hr, fail] at he
    case some name =>
      obtain ⟨t, u, hd, hp, ht⟩ := parseStringExpression_sound name hr
      have hend := endsName_of_parseStringExpression hr
      rw [hp, drop_of_append hd] at hend
      simp only [hr, Option.some.injEq] at he ⊢
      exact ⟨true, t, u, hd, hp, he ▸ .name ht, fun _ => hend, by rintro _ ⟨⟩⟩

theorem parseNotExpression_readsToEnd (h : ∀ i, ReadsToEnd .orExpr expr i (parse i)) :
    ReadsToEnd .notExpr expr start (parseNotExpression parse expr start expr.length) := by
  intro e he
  simp only [parseNotExpression] at he ⊢
  split
  case isTrue hc =>
    rw [if_pos hc] at he
    cases hr : (parsePrimary parse expr (start + 1) expr.length).result
    case none => simp [hr] at he
    case some arg =>
      obtain ⟨b, t, u, hd, hp, ht, hu⟩ := parsePrimary_readsToEnd h arg hr
      simp only [hr, Option.some.injEq] at he ⊢
      subst he
      refine ⟨b, '!' :: t, u, ?_, ?_, .not ht, hu⟩
      · rw [drop_of_getElem? hc.right, hd, List.cons_append]
      · rw [hp, List.length_cons]
        omega
  case isFalse hc =>
    rw [if_neg hc] at he
    obtain ⟨b, t, u, hd, hp, ht, hu⟩ := parsePrimary_readsToEnd h e he
    exact ⟨b, t, u, hd, hp, .primary ht, hu⟩

theorem head?_drop_ne {i : Nat} {c : Char} (h : i = expr.length ∨ expr[i]? ≠ some c) :
    (expr.drop i).head? ≠ some c := by
  rw [List.head?_drop]
  cases h
  case inl h => simp [h]
  case inr h => exact h

theorem parseAnd_readsToEnd (h : ∀ i, ReadsToEnd .orExpr expr i (parse i))
    (h' : ∀ i, ReadsToEnd .andExpr expr i (parse' i)) :
    ReadsToEnd .andExpr expr start (parseAnd parse parse' expr start expr.length) := by
  intro e he
  simp only [parseAnd] at he ⊢
  cases hl : (parseNotExpression parse expr start expr.length).result
  case none => simp [hl] at he
  case some l =>
    obtain ⟨b, t, u, hd, hp, ht, hu⟩ := parseNotExpression_readsToEnd h l hl
    simp only [hl] at he ⊢
    split
    case isTrue hc =>
      rw [if_pos hc, hl] at he
      cases Option.some.inj he
      refine ⟨b, t, u, hd, hp, .notExpr ht, hu.left, ?_⟩
      have hdot := head?_drop_ne <| hc.imp_right And.left
      have hamp := head?_drop_ne <| hc.imp_right And.right
      rw [hp, drop_of_append hd] at hdot hamp
      simpa [ExpressionNonterminal.operators] using ⟨hdot, hamp⟩
    case isFalse hc =>
      rw [if_neg hc] at he
      cases hr : (parse' ((parseNotExpression parse expr start expr.length).position + 1)).result
      case none => simp [hr] at he
      case some r =>
        obtain ⟨b', v, w, hd', hp', hv, hw⟩ := h' _ r hr
        simp only [hr, Option.some.injEq] at he ⊢
        subst he
        obtain ⟨op, hop, hget⟩ : ∃ op, (op = '.' ∨ op = '&') ∧
            expr[(parseNotExpression parse expr start expr.length).position]? = some op := by
          obtain ⟨_, hc⟩ := not_or.mp hc
          cases Decidable.not_and_iff_not_or_not.mp hc
          case inl hc => exact ⟨'.', .inl rfl, Decidable.not_not.mp hc⟩
          case inr hc => exact ⟨'&', .inr rfl, Decidable.not_not.mp hc⟩
        have hd₁ := drop_of_getElem? hget
        rw [hd', hp, drop_of_append hd] at hd₁
        refine ⟨b', t ++ op :: v, w, by simp [hd, hd₁], ?_, .and hop ht hv, hw⟩
        rw [hp', hp, List.length_append, List.length_cons]
        omega

theorem parseAndExpression_readsToEnd (h : ∀ i, ReadsToEnd .orExpr expr i (parse i)) :
    ReadsToEnd .andExpr expr start (parseAndExpression parse expr start expr.length) := by
  apply fix_invariant (I := ReadsToEnd .andExpr expr)
  case hf => exact fun start e he => by contradiction
  case hb => exact fun parse' h' start => parseAnd_readsToEnd h h'

theorem parseExpression_readsToEnd :
    ReadsToEnd .orExpr expr start (parseExpression expr start expr.length) := by
  apply fix_invariant (I := ReadsToEnd .orExpr expr)
  case hf => exact fun start e he => by contradiction
  case hb =>
    intro parse h start e he
    simp only [parseOr] at he ⊢
    cases hl : (parseAndExpression parse expr start expr.length).result
    case none => simp [hl] at he
    case some l =>
      obtain ⟨b, t, u, hd, hp, ht, hu⟩ := parseAndExpression_readsToEnd h l hl
      simp only [hl, hp] at he ⊢
      have hdu := drop_of_append hd
      split
      case isTrue hc =>
        rw [if_pos hc, hl] at he
        cases Option.some.inj he
        refine ⟨b, t, u, hd, hp, .andExpr ht, hu.left, ?_⟩
        have hbar := hdu ▸ head?_drop_ne hc
        simpa [ExpressionNonterminal.operators, hbar] using hu.right
      case isFalse hc =>
        rw [if_neg hc] at he
        have hd₁ := drop_of_getElem? <| Decidable.not_not.mp (not_or.mp hc).right
        rw [hdu] at hd₁
        generalize hpos : (if start + t.length + 1 < expr.length ∧
          expr[start + t.length + 1]? = some '|' then start + t.length + 1 else
          start + t.length) = position at he ⊢
        obtain ⟨op, hop, hdop, hlen⟩ : ∃ op, (op = ['|'] ∨ op = ['|', '|']) ∧
            u = op ++ expr.drop (position + 1) ∧ position + 1 = start + t.length + op.length := by
          split at hpos
          case isFalse => exact ⟨['|'], .inl rfl, hpos ▸ hd₁, hpos ▸ rfl⟩
          case isTrue hb =>
            refine ⟨['|', '|'], .inr rfl, ?_, hpos ▸ rfl⟩
            rw [hd₁, drop_of_getElem? hb.right, hpos]
            rfl
        cases hr : (parse (position + 1)).result
        case none => simp [hr] at he
        case some r =>
          obtain ⟨b', v, w, hd', hp', hv, hw⟩ := h _ r hr
          simp only [hr, Option.some.injEq] at he ⊢
          subst he
          refine ⟨b', t ++ op ++ v, w, by simp [hd, hdop, hd'], ?_, .or hop ht hv, hw⟩
          rw [hp', hlen, List.length_append, List.length_append]
          omega

end

section

variable {expr t u : CString} {e : Expression} {b : Bool} {c : Char} {n : ExpressionNonterminal}

theorem StringDerives.head?_ne {f : StringExpression} (h : StringDerives .name t f)
    (hc : ∀ u, EndsName (c :: u)) : t.head? ≠ some c := by
  intro hh
  have ⟨v, hv⟩ := List.head?_eq_some_iff.mp hh
  have hs := h.parses t 0 [] (by simp) endsName_nil
  have hn : (parseStringExpression t 0 t.length).result = none :=
    parseStringExpression_eq_none <| hv ▸ hc v
  simp [hs] at hn

theorem endsName_open : EndsName ('(' :: u) := endsName_cons (by decide) (by decide) (by decide)

theorem endsName_close : EndsName (')' :: u) := endsName_cons (by decide) (by decide) (by decide)

theorem endsName_not : EndsName ('!' :: u) := endsName_cons (by decide) (by decide) (by decide)

theorem endsName_or : EndsName ('|' :: u) := endsName_cons (by decide) (by decide) (by decide)

theorem endsName_and (h : c = '.' ∨ c = '&') : EndsName (c :: u) := by
  cases h
  case inl h => exact h ▸ endsName_cons (by decide) (by decide) (by decide)
  case inr h => exact h ▸ endsName_cons (by decide) (by decide) (by decide)

-- An expression does not begin with an operator, and a primary expression not with a negation.
theorem ExpressionDerives.head (h : ExpressionDerives n b t e) :
    t ≠ [] ∧ t.head? ≠ some '|' ∧ (n = .primary → t.head? ≠ some '!') := by
  induction h
  case name h =>
    exact ⟨h.ne_nil, h.head?_ne fun _ => endsName_or, fun _ => h.head?_ne fun _ => endsName_not⟩
  case parens      => simp
  case not         => simp
  case primary ih  => exact ⟨ih.left, ih.right.left, nofun⟩
  case notExpr ih  => exact ⟨ih.left, ih.right.left, nofun⟩
  case andExpr ih  => exact ⟨ih.left, ih.right.left, nofun⟩
  case and ih _    => exact ⟨by simp, by simp [List.head?_append_of_ne_nil _ ih.left, ih.right.left], nofun⟩
  case or ih _ =>
    rw [List.append_assoc]
    exact ⟨by simp [ih.left], by simp [List.head?_append_of_ne_nil _ ih.left, ih.right.left], nofun⟩

-- The parser of a nonterminal.
def ExpressionNonterminal.parse (expr : CString) : ExpressionNonterminal → Nat → ParseResult
  | orExpr, start  => parseExpression expr start expr.length
  | andExpr, start => parseAndExpression (parseExpression expr · expr.length) expr start expr.length
  | notExpr, start => parseNotExpression (parseExpression expr · expr.length) expr start expr.length
  | primary, start => parsePrimary (parseExpression expr · expr.length) expr start expr.length

theorem lt_length_of_cons {i : Nat} (h : expr.drop i = c :: u) : i < expr.length :=
  (List.getElem?_eq_some_iff.mp <| getElem?_of_cons h).choose

-- Each parser reads an expression that the text begins with.
theorem ExpressionDerives.parses (h : ExpressionDerives n b t e) {expr u : CString} {start : Nat}
    (hd : expr.drop start = t ++ u) (hu : Ends n b u) :
    n.parse expr start = { result := some e, position := start + t.length } := by
  induction h generalizing start u
  case name t f ht =>
    have hget : expr[start]? ≠ some '(' := by
      rw [←List.head?_drop, hd, List.head?_append_of_ne_nil _ ht.ne_nil]
      exact ht.head?_ne fun _ => endsName_open
    have hname := ht.parses expr start u hd <| hu.left rfl
    simp [ExpressionNonterminal.parse, parsePrimary, hget, hname]
  case parens t e b _ ih =>
    have hd₀ : expr.drop start = '(' :: (t ++ ')' :: u) := by simp [hd]
    have hd₁ := drop_of_cons hd₀
    have hd₂ := drop_of_append hd₁
    have hexpr := ih hd₁ ⟨fun _ => endsName_close, by simp [ExpressionNonterminal.operators]⟩
    simp only [ExpressionNonterminal.parse] at hexpr
    simp only [ExpressionNonterminal.parse, parsePrimary, getElem?_of_cons hd₀, hexpr,
      getElem?_of_cons hd₂, lt_length_of_cons hd₀, lt_length_of_cons hd₂, and_self, ite_true,
      List.cons_append, List.length_cons, List.length_append, List.length_nil]
    congr 1
    omega
  case not t e b _ ih =>
    have hprim := ih (drop_of_cons hd) hu
    simp only [ExpressionNonterminal.parse] at hprim
    simp only [ExpressionNonterminal.parse, parseNotExpression, getElem?_of_cons hd,
      lt_length_of_cons hd, hprim, and_self, ite_true, List.length_cons]
    congr 1
    omega
  case primary t e b ht ih =>
    have hget : expr[start]? ≠ some '!' := by
      rw [←List.head?_drop, hd, List.head?_append_of_ne_nil _ ht.head.left]
      exact ht.head.right.right rfl
    have hprim := ih hd hu
    simp only [ExpressionNonterminal.parse] at hprim
    simp [ExpressionNonterminal.parse, parseNotExpression, hget, hprim]
  case and t v e f b b' op hop _ _ ih ih' =>
    rw [List.append_assoc, List.cons_append] at hd
    have hd₁ := drop_of_append hd
    have hlhs := ih hd ⟨fun _ => endsName_and hop, by rintro _ ⟨⟩⟩
    have hrhs := ih' (drop_of_cons hd₁) hu
    have hlt := lt_length_of_cons hd₁
    simp only [ExpressionNonterminal.parse] at hlhs hrhs ⊢
    rw [parseAndExpression_eq <| advances_parseExpression expr]
    simp only [parseAnd, hlhs, getElem?_of_cons hd₁]
    rw [if_neg (by cases hop <;> simp [*, Nat.ne_of_lt hlt])]
    simp only [hrhs, List.length_append, List.length_cons]
    congr 1
    omega
  case notExpr t e b ht ih =>
    have hnot := ih hd ⟨hu.left, by rintro _ ⟨⟩⟩
    have hend : start + t.length = expr.length ∨
        (expr[start + t.length]? ≠ some '.' ∧ expr[start + t.length]? ≠ some '&') := by
      rw [←List.head?_drop, drop_of_append hd]
      exact .inr ⟨hu.right _ (by decide), hu.right _ (by decide)⟩
    simp only [ExpressionNonterminal.parse] at hnot ⊢
    rw [parseAndExpression_eq <| advances_parseExpression expr]
    simp only [parseAnd, hnot]
    rw [if_pos hend]
  case or t v e f b b' op hop _ hv ih ih' =>
    have hd₁ : expr.drop start = t ++ '|' :: (op.tail ++ v ++ u) := by
      rw [hd]
      cases hop <;> simp [*]
    have hd₂ := drop_of_append hd₁
    have hlhs := ih hd₁ ⟨fun _ => endsName_or, by simp [ExpressionNonterminal.operators]⟩
    have hlt := lt_length_of_cons hd₂
    have hhead : (v ++ u).head? ≠ some '|' := by
      rw [List.head?_append_of_ne_nil _ hv.head.left]
      exact hv.head.right.left
    have hpos : (if start + t.length + 1 < expr.length ∧ expr[start + t.length + 1]? = some '|' then
        start + t.length + 1 else start + t.length) + 1 = start + t.length + op.length := by
      have hd₃ := drop_of_cons hd₂
      cases hop
      case inl hop =>
        subst hop
        rw [if_neg]
        · rfl
        · rw [←List.head?_drop, hd₃]
          exact fun hc => hhead hc.right
      case inr hop =>
        subst hop
        rw [if_pos ⟨lt_length_of_cons hd₃, getElem?_of_cons hd₃⟩]
        rfl
    have hd₄ : expr.drop (start + t.length + op.length) = v ++ u := by
      rw [Nat.add_assoc, ←List.length_append]
      exact drop_of_append <| by simp [hd]
    have hrhs := ih' hd₄ hu
    simp only [ExpressionNonterminal.parse] at hlhs hrhs ⊢
    rw [parseExpression_eq]
    simp only [parseOr, hlhs, getElem?_of_cons hd₂]
    rw [if_neg (by simp [Nat.ne_of_lt hlt])]
    rw [hpos]
    simp only [hrhs, List.length_append]
    congr 1
    omega
  case andExpr t e b ht ih =>
    have hand := ih hd ⟨hu.left, fun c hc => hu.right c <| List.mem_append_left ['|'] hc⟩
    have hend : start + t.length = expr.length ∨ expr[start + t.length]? ≠ some '|' := by
      rw [←List.head?_drop, drop_of_append hd]
      exact .inr <| hu.right _ <| by decide
    simp only [ExpressionNonterminal.parse] at hand ⊢
    rw [parseExpression_eq]
    simp only [parseOr, hand]
    rw [if_pos hend]

end
end CfEngine

open Descent

namespace CfEngine

structure Token where
  text  : CString
  ne    : text ≠ []
  valid : ∀ c ∈ text, validTokenCharacter c

inductive AndOperator
  | dot
  | ampersand

inductive OrOperator
  | single
  | double

def AndOperator.text : AndOperator → CString
  | dot       => ['.']
  | ampersand => ['&']

def OrOperator.text : OrOperator → CString
  | single => ['|']
  | double => ['|', '|']

-- An expression over names with the operators that it is printed with.
inductive ClassTree
  | name (n : Token)
  | not (arg : ClassTree)
  | and (op : AndOperator) (lhs rhs : ClassTree)
  | or (op : OrOperator) (lhs rhs : ClassTree)

namespace ClassTree

def expression : ClassTree → Expression
  | name n      => .eval (.literal n.text)
  | not arg     => .not arg.expression
  | and _ l r   => .and l.expression r.expression
  | or _ l r    => .or l.expression r.expression

-- A compound operand is put in parentheses.
def operand (tree : ClassTree) (text : CString) : CString :=
  match tree with
  | name _              => text
  | not _ | and .. | or .. => '(' :: text ++ [')']

def print : ClassTree → CString
  | name n    => n.text
  | not arg   => '!' :: arg.operand arg.print
  | and op l r => l.operand l.print ++ op.text ++ r.operand r.print
  | or op l r  => l.operand l.print ++ op.text ++ r.operand r.print

variable {tree : ClassTree} {b : Bool}

theorem derives_operand (h : ExpressionDerives .orExpr b tree.print tree.expression) :
    ∃ b, ExpressionDerives .primary b (tree.operand tree.print) tree.expression := by
  cases tree
  case name n => exact ⟨true, .name <| .name <| .token n.ne n.valid⟩
  all_goals exact ⟨false, .parens h⟩

theorem derives_print (tree : ClassTree) :
    ∃ b, ExpressionDerives .orExpr b tree.print tree.expression := by
  induction tree
  case name n =>
    exact ⟨true, .andExpr <| .notExpr <| .primary <| .name <| .name <| .token n.ne n.valid⟩
  case not arg ih =>
    have ⟨b, h⟩ := derives_operand ih.choose_spec
    exact ⟨b, .andExpr <| .notExpr <| .not h⟩
  case and op l r ih ih' =>
    have ⟨_, hl⟩ := derives_operand ih.choose_spec
    have ⟨b, hr⟩ := derives_operand ih'.choose_spec
    refine ⟨b, .andExpr ?_⟩
    simp only [print, List.append_assoc]
    cases op
    case dot       => exact .and (.inl rfl) (.primary hl) (.notExpr <| .primary hr)
    case ampersand => exact .and (.inr rfl) (.primary hl) (.notExpr <| .primary hr)
  case or op l r ih ih' =>
    have ⟨_, hl⟩ := derives_operand ih.choose_spec
    have ⟨b, hr⟩ := derives_operand ih'.choose_spec
    refine ⟨b, .or ?_ (.notExpr <| .primary hl) (.andExpr <| .notExpr <| .primary hr)⟩
    cases op
    case single => exact .inl rfl
    case double => exact .inr rfl

end ClassTree

-- The parser reads the whole text of a printed expression, and yields an expression that has the same
-- value.
theorem parseExpression_print (tree : ClassTree) : ∃ e,
    parseExpression tree.print 0 tree.print.length =
      { result := some e, position := tree.print.length } ∧
    ∀ nameevalfn varrefevalfn, evalExpression nameevalfn varrefevalfn e =
      evalExpression nameevalfn varrefevalfn tree.expression := by
  have ⟨b, h⟩ := tree.derives_print
  have hend : Ends .orExpr b [] := ⟨fun _ => endsName_nil, fun _ _ => nofun⟩
  have hparse := h.parses (show tree.print.drop 0 = tree.print ++ [] by simp) hend
  rw [Nat.zero_add] at hparse
  exact ⟨tree.expression, hparse, fun _ _ => rfl⟩

end CfEngine
