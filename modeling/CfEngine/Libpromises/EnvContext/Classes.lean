import CfEngine.Libpromises.EnvContext
import CfEngine.Libpromises.LogicExpressions
import CfEngine.Libpromises.LogicExpressions.Grammar

namespace CfEngine

def defaultNs : CString := ['d', 'e', 'f', 'a', 'u', 'l', 't']

def anyClass : CString := ['a', 'n', 'y']

-- The name in a namespace, where no namespace is `NULL`.
def qualifiedBy (ns : Option CString) (name : CString) : CString :=
  match ns with
  | some ns => if ns ≠ defaultNs then ns ++ cfNs :: name else name
  | none    => name

namespace StackFrame

def contexts (frame : StackFrame) : StringSet :=
  match frame.data with
  | .bundle _ contexts _ => contexts
  | _                    => ∅

def contextsNegated (frame : StackFrame) : StringSet :=
  match frame.data with
  | .bundle _ _ contexts_negated => contexts_negated
  | _                            => ∅

end StackFrame

-- The recursion over the stack, whose last frame comes first.
def stackFrameContainsRecursive (contexts : StackFrame → StringSet) (context : CString) :
    List StackFrame → Bool
  | []              => false
  | frame :: stack =>
    if context ∈ contexts frame then
      true
    else if frame.inheritsPrevious then
      stackFrameContainsRecursive contexts context stack
    else
      false

def stackFrameContainsSoftRecursive : CString → List StackFrame → Bool :=
  stackFrameContainsRecursive StackFrame.contexts

def stackFrameContainsNegatedRecursive : CString → List StackFrame → Bool :=
  stackFrameContainsRecursive StackFrame.contextsNegated

namespace EvalContext

def evalContextHeapContainsSoft (ctx : EvalContext) (context : CString) : Bool :=
  context ∈ ctx.heapSoft

def evalContextHeapContainsHard (ctx : EvalContext) (context : CString) : Bool :=
  context ∈ ctx.heapHard

def evalContextHeapContainsNegated (ctx : EvalContext) (context : CString) : Bool :=
  context ∈ ctx.heapNegated

def evalContextStackFrameContainsSoft (ctx : EvalContext) (context : CString) : Bool :=
  stackFrameContainsSoftRecursive context ctx.stack

def evalContextStackFrameContainsNegated (ctx : EvalContext) (context : CString) : Bool :=
  stackFrameContainsNegatedRecursive context ctx.stack

-- The name that a class is looked up by, as far as it fits into the buffer.
def qualifiedClass (ns : Option CString) (classname : CString) : CString :=
  List.take (cfMaxVarSize - 1) <|
    if cfNs ∈ classname then
      if defaultNs ++ [cfNs] <+: classname then
        classname.drop (defaultNs ++ [cfNs]).length
      else
        classname
    else
      qualifiedBy ns classname

def evalTokenAsClass (ctx : EvalContext) (ns : Option CString) (classname : CString) :
    ExpressionValue :=
  let qualified_class := qualifiedClass ns classname
  if classname = anyClass then .true
  else if ctx.evalContextHeapContainsNegated qualified_class then .false
  else if ctx.evalContextStackFrameContainsNegated qualified_class then .false
  else if ctx.evalContextHeapContainsHard classname then .true
  else if ctx.evalContextHeapContainsSoft qualified_class then .true
  else if ctx.evalContextStackFrameContainsSoft qualified_class then .true
  else .false

-- There should be no variables left in a logic expression.
def evalVarRef (_varname : CString) (_type : VarRefType) : Option CString :=
  none

def isDefinedClass (ctx : EvalContext) (context ns : Option CString) : Bool :=
  match context with
  | none         => true
  | some context =>
    match (parseExpression context 0 context.length).result with
    | none     => false
    | some res => evalExpression (ctx.evalTokenAsClass ns) evalVarRef res = .true

end EvalContext

end CfEngine

namespace CfEngine.EvalContext

variable {ctx : EvalContext} {ns : Option CString} {s : CString}

-- The text is an expression that evaluates to true.
def IsTrueExpression (ctx : EvalContext) (ns : Option CString) (endsInName : Bool) (t : CString) :
    Prop :=
  ∃ e, ExpressionDerives .orExpr endsInName t e ∧
    evalExpression (ctx.evalTokenAsClass ns) evalVarRef e = .true

-- Only an expression that takes up the whole string is a defined class.
def DefinesWholeExpressions (ctx : EvalContext) (ns : Option CString) (s : CString) : Prop :=
  (ctx.isDefinedClass s ns = true → ∃ b, ctx.IsTrueExpression ns b s) ∧
  ((parseExpression s 0 s.length).position < s.length → ctx.isDefinedClass s ns = false)

theorem isDefinedClass_iff : ctx.isDefinedClass s ns = true ↔
    ∃ b t u, s = t ++ u ∧ Ends .orExpr b u ∧ ctx.IsTrueExpression ns b t := by
  simp only [isDefinedClass]
  constructor
  case mp =>
    intro h
    split at h
    case h_1 => contradiction
    case h_2 e he =>
      have ⟨b, t, u, hd, _, ht, hu⟩ := parseExpression_readsToEnd e he
      exact ⟨b, t, u, hd, hu, e, ht, of_decide_eq_true h⟩
  case mpr =>
    intro ⟨b, t, u, hd, hu, e, ht, he⟩
    have hparse := ht.parses (show s.drop 0 = t ++ u from hd) hu
    simp only [ExpressionNonterminal.parse] at hparse
    simpa [hparse] using he

theorem position_parseExpression {b : Bool} {t u : CString} (hu : Ends .orExpr b u)
    (ht : ctx.IsTrueExpression ns b t) :
    (parseExpression (t ++ u) 0 (t ++ u).length).position = t.length := by
  have ⟨e, ht, _⟩ := ht
  have hparse := ht.parses (show (t ++ u).drop 0 = t ++ u from rfl) hu
  simp only [ExpressionNonterminal.parse] at hparse
  rw [hparse]
  exact Nat.zero_add _

-- What comes after an expression is ignored. Therefore only a string that does not begin with a true
-- expression that ends before the string does is rejected whenever it is no true expression.
theorem definesWholeExpressions_iff : ctx.DefinesWholeExpressions ns s ↔
    ∀ b t u, s = t ++ u → u ≠ [] → Ends .orExpr b u → ¬ctx.IsTrueExpression ns b t := by
  constructor
  case mp =>
    intro ⟨_, h⟩ b t u hs hn hu ht
    have hdef := isDefinedClass_iff.mpr ⟨b, t, u, hs, hu, ht⟩
    have hpos := position_parseExpression hu ht
    have hlen := List.length_pos_iff.mpr hn
    rw [←hs] at hpos
    rw [h <| by rw [hpos, hs, List.length_append]; omega] at hdef
    contradiction
  case mpr =>
    intro h
    have hall : ∀ b t u, s = t ++ u → Ends .orExpr b u → ctx.IsTrueExpression ns b t → u = [] :=
      fun b t u hs hu ht => Decidable.byContradiction fun hn => h b t u hs hn hu ht
    constructor
    case left =>
      intro hdef
      have ⟨b, t, u, hs, hu, ht⟩ := isDefinedClass_iff.mp hdef
      have hn := hall b t u hs hu ht
      rw [hn, List.append_nil] at hs
      exact ⟨b, hs ▸ ht⟩
    case right =>
      intro hlt
      apply Bool.eq_false_iff.mpr
      intro hdef
      have ⟨b, t, u, hs, hu, ht⟩ := isDefinedClass_iff.mp hdef
      have hpos := position_parseExpression hu ht
      rw [←hs] at hpos
      rw [hpos, hs, hall b t u hs hu ht, List.append_nil] at hlt
      exact Nat.lt_irrefl _ hlt

-- The bracket at the end is ignored.
theorem not_definesWholeExpressions_any :
    ¬EvalContext.new.DefinesWholeExpressions none ['a', 'n', 'y', ')'] := by
  intro ⟨_, h⟩
  have hpos : (parseExpression ['a', 'n', 'y', ')'] 0 4).position = 3 := by decide
  have hdef : EvalContext.new.isDefinedClass (some ['a', 'n', 'y', ')']) none = true := by decide
  rw [h <| hpos.trans_lt <| by decide] at hdef
  contradiction

end CfEngine.EvalContext
