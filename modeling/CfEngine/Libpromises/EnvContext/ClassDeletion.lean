import CfEngine.Libpromises.EnvContext.ClassStore
import CfEngine.Libpromises.LogicExpressions.Grammar

namespace CfEngine

-- A valid name of a class.
def IsIdentifier (c : CString) : Prop :=
  c ≠ [] ∧ ∀ x ∈ c, x.isAlphanum ∨ x = '_'

instance : DecidablePred IsIdentifier :=
  fun c =>
    have : Decidable (∀ x ∈ c, x.isAlphanum ∨ x = '_') := List.decidableBAll _ c
    inferInstanceAs <| Decidable (c ≠ [] ∧ ∀ x ∈ c, x.isAlphanum ∨ x = '_')

-- The frames that come above the one of the bundle while its promises are handled.
inductive PromiseFrames : List StackFrame → Prop
  | bundle : PromiseFrames []
  | promise : PromiseFrames [stackFrameNewPromise]
  | iteration : PromiseFrames [stackFrameNewPromiseIteration, stackFrameNewPromise]
  | body (owner : Body) : PromiseFrames [stackFrameNewBody owner, stackFrameNewPromise]

section

variable {c : CString} {x : Char}

theorem validTokenCharacter_of_isAlphanum (h : x.isAlphanum ∨ x = '_') : validTokenCharacter x := by
  delta Char.isAlphanum Char.isAlpha Char.isUpper Char.isLower Char.isDigit at h
  simp only [Bool.or_eq_true, decide_eq_true_eq, Bool.and_eq_true] at h
  simp only [validTokenCharacter, decide_eq_true_eq, Char.le_def]
  grind

theorem IsIdentifier.derives (h : IsIdentifier c) :
    ExpressionDerives .orExpr true c (.eval (.literal c)) :=
  .andExpr <| .notExpr <| .primary <| .name <| .name <|
    .token h.left fun x hx => validTokenCharacter_of_isAlphanum <| h.right x hx

theorem IsIdentifier.canonifyNameInPlace (h : IsIdentifier c) : canonifyNameInPlace c = c := by
  refine (List.map_congr_left fun x hx => ?_).trans <| List.map_id c
  cases h.right x hx
  case inr hx => simp [hx]
  case inl hx =>
    have hdot : x ≠ '.' := by
      rintro rfl
      contradiction
    simp [hx, hdot]

theorem IsIdentifier.checkParseContext (h : IsIdentifier c) : checkParseContext c = true := by
  simp only [CfEngine.checkParseContext, decide_eq_true_eq, List.all_eq_true]
  refine .inr ⟨h.left, fun x hx => ?_⟩
  have := h.right x hx
  simp only [idRangeCharacter, decide_eq_true_eq, List.mem_cons]
  exact this.imp_right .inl

theorem IsIdentifier.not_mem (h : IsIdentifier c) : cfNs ∉ c := by
  intro hc
  have := h.right cfNs hc
  contradiction

end

section

variable {inherits : Bool} {owner : Bundle} {contexts negated negated' : StringSet} {q : CString}
  {pre rest : List StackFrame}

theorem stackFrameContainsSoft_congr :
    stackFrameContainsSoftRecursive q (pre ++ ⟨inherits, .bundle owner contexts negated⟩ :: rest) =
    stackFrameContainsSoftRecursive q (pre ++ ⟨inherits, .bundle owner contexts negated'⟩ :: rest) := by
  induction pre
  case nil => rfl
  case cons frame pre ih =>
    simp only [stackFrameContainsSoftRecursive] at ih
    simp only [stackFrameContainsSoftRecursive, List.cons_append, stackFrameContainsRecursive, ih]

-- A name that is added to the negated classes of the bundle is found there, unless a body hides the
-- frame with all its classes.
theorem PromiseFrames.contains_cases (h : PromiseFrames pre) (q : CString) (rest : List StackFrame) :
    (∀ stack, stackFrameContainsSoftRecursive q (pre ++ stack) = false ∧
      stackFrameContainsNegatedRecursive q (pre ++ stack) = false) ∨
    ∀ frame, stackFrameContainsNegatedRecursive q (pre ++ frame :: rest) =
      stackFrameContainsNegatedRecursive q (frame :: rest) := by
  cases h
  case bundle    => exact .inr fun _ => rfl
  case promise   => exact .inr fun _ => rfl
  case iteration => exact .inr fun _ => rfl
  case body      => exact .inl fun _ => ⟨rfl, rfl⟩

theorem stackFrameContainsNegated_bundle_iff :
    stackFrameContainsNegatedRecursive q (⟨inherits, .bundle owner contexts negated⟩ :: rest) = true ↔
    q ∈ negated ∨ inherits = true ∧ stackFrameContainsNegatedRecursive q rest = true := by
  simp only [stackFrameContainsNegatedRecursive, stackFrameContainsRecursive,
    StackFrame.contextsNegated]
  cases inherits <;> simp

end

namespace EvalContext

variable {ctx ctx' : EvalContext} {db db' : StateDb} {ns : CString} {list : List CString}

-- The last bundle on the stack is in the namespace.
def TopBundle (ctx : EvalContext) (ns : CString) : Prop :=
  ∃ pre inherits owner contexts negated rest, PromiseFrames pre ∧ owner.ns = ns ∧
    ctx.stack = pre ++ ⟨inherits, .bundle owner contexts negated⟩ :: rest

-- The name under which the class is looked up is itself in the list, or the class is negated already,
-- or it is not defined.
def Cancellable (ctx : EvalContext) (ns : CString) (list : List CString) (c : CString) : Prop :=
  let qualified_class := qualifiedClass ns c
  c ≠ anyClass ∧ (qualified_class ∈ list ∨ ctx.evalContextHeapContainsNegated qualified_class ∨
    ctx.evalContextStackFrameContainsNegated qualified_class ∨
    (¬ctx.evalContextHeapContainsSoft qualified_class ∧
      ¬ctx.evalContextStackFrameContainsSoft qualified_class))

section

variable {pre rest : List StackFrame} {inherits : Bool} {owner : Bundle}
  {contexts negated : StringSet} {name c : CString}

theorem lastStackFrameBundle_eq (hp : PromiseFrames pre)
    (hs : ctx.stack = pre ++ ⟨inherits, .bundle owner contexts negated⟩ :: rest) :
    ctx.lastStackFrameBundle = some pre.length := by
  cases hp <;> simp [lastStackFrameBundle, lastStackFrame, hs, stackFrameNewPromise,
    stackFrameNewPromiseIteration, stackFrameNewBody]

theorem evalContextStackFrameAddNegated_eq (hp : PromiseFrames pre)
    (hs : ctx.stack = pre ++ ⟨inherits, .bundle owner contexts negated⟩ :: rest) :
    ctx.evalContextStackFrameAddNegated name = some { ctx with
      stack := pre ++ ⟨inherits, .bundle owner contexts (insert name negated)⟩ :: rest } := by
  simp [evalContextStackFrameAddNegated, lastStackFrameBundle_eq hp hs, updateBundle, lastStackFrame,
    hs]

-- The classes of the list are removed without their namespace, and negated without it.
theorem deleteAllClasses_spec (hp : PromiseFrames pre)
    (hs : ctx.stack = pre ++ ⟨inherits, .bundle owner contexts negated⟩ :: rest)
    (hi : ∀ c ∈ list, IsIdentifier c) (h : deleteAllClasses db ctx list = some (ctx', db')) :
    ctx'.heapHard = ctx.heapHard ∧ ctx'.heapNegated = ctx.heapNegated ∧
    (∀ q, q ∈ ctx'.heapSoft ↔ q ∈ ctx.heapSoft ∧ q ∉ list) ∧
    ∃ negated', ctx'.stack = pre ++ ⟨inherits, .bundle owner contexts negated'⟩ :: rest ∧
      ∀ q, q ∈ negated' ↔ q ∈ negated ∨ q ∈ list := by
  induction list generalizing ctx db negated
  case nil =>
    cases Option.some.inj h
    exact ⟨rfl, rfl, by simp, negated, hs, by simp⟩
  case cons c list ih =>
    have ⟨hc, hi⟩ := List.forall_mem_cons.mp hi
    have hname : canonifyName c = some c ∨ canonifyName c = none := by
      simp only [canonifyName, hc.canonifyNameInPlace]
      split <;> simp
    simp only [deleteAllClasses, hc.checkParseContext, ite_true, Option.bind_eq_bind] at h
    cases hname
    case inr hname => simp [hname] at h
    case inl hname =>
      have hadd : (ctx.evalContextHeapRemoveSoft c).evalContextStackFrameAddNegated c = _ :=
        evalContextStackFrameAddNegated_eq hp hs
      rw [hname, Option.bind_some, hadd, Option.bind_some] at h
      have ⟨hhard, hneg, hsoft, negated', hs', hn⟩ := ih rfl hi h
      refine ⟨hhard, hneg, fun q => ?_, negated', hs', fun q => ?_⟩
      · rw [hsoft q]
        simp only [evalContextHeapRemoveSoft, Finset.mem_erase, List.mem_cons, not_or]
        exact ⟨fun ⟨⟨hq, hm⟩, hl⟩ => ⟨hm, hq, hl⟩, fun ⟨hm, hq, hl⟩ => ⟨⟨hq, hm⟩, hl⟩⟩
      · rw [hn q, Finset.mem_insert, List.mem_cons, or_comm (a := q = c), or_assoc]

theorem isDefinedClass_eq_false_iff (h : IsIdentifier c) :
    ctx.isDefinedClass c (some ns) = false ↔ ctx.evalTokenAsClass ns c ≠ .true := by
  have hend : Ends .orExpr true [] := ⟨fun _ => endsName_nil, fun _ _ => nofun⟩
  have hparse := h.derives.parses (show c.drop 0 = c ++ [] by simp) hend
  simp only [ExpressionNonterminal.parse] at hparse
  simp only [isDefinedClass, hparse, evalExpression, evalStringExpression]
  exact decide_eq_false_iff_not

theorem evalTokenAsClass_ne_true_iff (hh : c ∉ ctx.heapHard) :
    ctx.evalTokenAsClass ns c ≠ .true ↔ ctx.Cancellable ns [] c := by
  simp only [evalTokenAsClass, Cancellable, evalContextHeapContainsHard, hh]
  grind

-- After the call no class of the list is defined, exactly if it has been possible to cancel each.
theorem deleteAllClasses_undefines_iff (ht : ctx.TopBundle ns) (hi : ∀ c ∈ list, IsIdentifier c)
    (hh : ∀ c ∈ list, c ∉ ctx.heapHard) (h : deleteAllClasses db ctx list = some (ctx', db')) :
    (∀ c ∈ list, ctx'.isDefinedClass c (some ns) = false) ↔ ∀ c ∈ list, ctx.Cancellable ns list c := by
  have ⟨pre, inherits, owner, contexts, negated, rest, hp, _, hs⟩ := ht
  have ⟨hhard, hneg, hsoft, negated', hs', hn⟩ := deleteAllClasses_spec hp hs hi h
  refine forall₂_congr fun c hc => ?_
  rw [isDefinedClass_eq_false_iff (hi c hc), evalTokenAsClass_ne_true_iff <| hhard ▸ hh c hc]
  generalize hq : qualifiedClass ns c = q
  have hsoft' : ctx'.evalContextStackFrameContainsSoft q =
      ctx.evalContextStackFrameContainsSoft q := by
    simp only [evalContextStackFrameContainsSoft, hs, hs']
    exact stackFrameContainsSoft_congr
  simp only [Cancellable, hq, hsoft', evalContextHeapContainsNegated, hneg,
    evalContextHeapContainsSoft, hsoft, List.not_mem_nil, false_or, decide_eq_true_eq]
  cases hp.contains_cases q rest
  case inl hhide =>
    simp only [evalContextStackFrameContainsNegated, evalContextStackFrameContainsSoft, hs, hs', hhide]
    grind
  case inr hshow =>
    simp only [evalContextStackFrameContainsNegated, hs, hs', hshow,
      stackFrameContainsNegated_bundle_iff, hn]
    grind

end

def mainBundle (ns : CString) : Bundle where
  type := ['a', 'g', 'e', 'n', 't']
  name := ['m', 'a', 'i', 'n']
  ns

def bundleContext (ns : CString) (heapSoft contexts : StringSet) : EvalContext :=
  { new with heapSoft, stack := [⟨false, .bundle (mainBundle ns) contexts ∅⟩] }

theorem deleteAllClasses_undefines_default :
    ∃ ctx', deleteAllClasses ∅ (bundleContext defaultNs {['a']} {['b']}) [['a'], ['b']] =
      some (ctx', ∅) ∧
    ∀ c ∈ [['a'], ['b']], ctx'.isDefinedClass (some c) (some defaultNs) = false := by
  have htop : (bundleContext defaultNs {['a']} {['b']}).TopBundle defaultNs :=
    ⟨[], false, mainBundle defaultNs, {['b']}, ∅, [], .bundle, rfl, rfl⟩
  have hrun : deleteAllClasses ∅ (bundleContext defaultNs {['a']} {['b']}) [['a'], ['b']] =
    some (_, ∅) := rfl
  refine ⟨_, hrun, (deleteAllClasses_undefines_iff htop (by decide) (by decide) hrun).mpr ?_⟩
  simp only [List.forall_mem_cons]
  exact ⟨⟨by decide, .inl <| by decide⟩, ⟨by decide, .inl <| by decide⟩, nofun⟩

-- The class that has been defined as `n:a` is removed as `a`.
theorem not_undefines_addAllClasses :
    ∃ ctx ctx', addAllClasses (fun _ _ => false) ∅ 0 (bundleContext ['n'] ∅ ∅) ['n'] [['a']] false
        .reset .namespaceScope = some (ctx, ∅) ∧
      ctx.TopBundle ['n'] ∧ IsIdentifier ['a'] ∧ ['a'] ∉ ctx.heapHard ∧
      deleteAllClasses ∅ ctx [['a']] = some (ctx', ∅) ∧
      ctx'.isDefinedClass (some ['a']) (some ['n']) = true := by
  refine ⟨bundleContext ['n'] {['n', ':', 'a']} ∅, _, by rfl, ?_, by decide, by decide, rfl,
    by decide⟩
  exact ⟨[], false, mainBundle ['n'], ∅, ∅, [], .bundle, rfl, rfl⟩

end EvalContext
end CfEngine
