import CfEngine.Libpromises.Expand.MapIterators
import CfEngine.Library.Run
import CfEngine.Libpromises.Scope.WellFormed

namespace CfEngine.EvalContext

-- A value that refers to the variable it is assigned to.
def containsItself (rval : Rval) (lval : CString) : Bool :=
  match rval with
  | .scalar s => stringContainsVar s lval
  | .list l   => l.any (stringContainsVar · lval)

-- `cf-promises` looks for lists in the value, unless it is inside a promise.
def outstandingLists (ctx : EvalContext) (agentType : AgentType) (reg : ScopeRegistry) (rval : Rval) :
    Outcome Rval :=
  match agentType, (ctx.lastStackFrame 0).map StackFrame.data with
  | .common, some (.bundle ..) | .common, some (.body _) =>
    (mapIteratorsFromRval ctx reg none [] [] rval).map Prod.fst
  | _, _ => some rval

-- The part of `EvalContextVariablePut` that finds the scope to store the value in.
def putScope (reg : ScopeRegistry) (ns : Option CString) (scope : CString) :
    ScopeRegistry × Option Nat :=
  match reg.scopeGet ns scope with
  | some ptr => (reg, some ptr)
  | none     => reg.scopeNew ns scope

-- The part of `EvalContextVariablePut` that stores the value in the hashtable of `put_scope`.
def variableStore (mem : Memory) (t : AssocHashTable) (final_lval : CString) (rval : Rval)
    (type : DataType) : Outcome AssocHashTable :=
  match hashLookupElement t final_lval with
  | some assoc =>
    if compareVariableValue mem rval assoc.rval ≠ 0 then do
      let _ ← unresolvedVariables mem assoc.rval rval.type
      return hashAssignElement t final_lval rval type
    else
      some t
  | none       =>
    match hashInsertElement t final_lval rval type with
    | (t, true)  => some t
    | (_, false) => none

def evalContextVariablePut (ctx : EvalContext) (agentType : AgentType) (mem : Memory)
    (reg : ScopeRegistry) (ref : VarRef) (rval : Rval) (type : DataType) :
    Outcome (ScopeRegistry × Bool) := do
  if ¬rval.HasItem then
    return (reg, false)
  if ref.lval.length > cfMaxVarSize then
    return (reg, false)
  let scope ← ref.scope
  if scope ≠ scopeBodyName ∧ containsItself rval ref.lval then
    return (reg, false)
  let rval ← ctx.outstandingLists agentType reg rval
  match putScope reg ref.ns scope with
  | (reg, none)     => return (reg, false)
  | (reg, some ptr) =>
    let t  ← reg.hashtable ptr
    let t' ← variableStore mem t (varRefToString ref false) rval type
    return (reg.setHashtable ptr t', true)

end CfEngine.EvalContext

open Run

namespace CfEngine

-- The variable that a reference identifies. The scope for the matches of regular expressions is the
-- same in all namespaces.
def VarRef.variable (ref : VarRef) : CString × Option CString × CString :=
  (if ref.scope = some scopeMatchName then nsDefault else ref.ns.getD nsDefault,
    ref.scope, varRefToString ref false)

theorem ScopeRegistry.holds_congr {reg : ScopeRegistry} {ref ref' : VarRef} {v : Rval × DataType}
    (h : ref.variable = ref'.variable) : reg.Holds ref v ↔ reg.Holds ref' v := by
  simp only [VarRef.variable, Prod.mk.injEq] at h
  have ⟨hn, hs, ht⟩ := h
  simp only [Holds, Names, ht, hs]
  by_cases hm : ref'.scope = some scopeMatchName
  case pos => simp [hm]
  case neg =>
    simp only [hs, hm, ite_false] at hn
    simp [hm, hn]

-- The new value takes the place of the old one. The old value of a list is compared through the text
-- that is read from its first cell.
def Rval.Replaces (mem : Memory) (new old : Rval) : Prop :=
  new.HasItem → old.HasItem →
    match new, old with
    | .scalar s, .scalar s' => s' ≠ s
    | .scalar s, .list _    => mem.text ≠ s
    | .list l, .scalar s    => s ∈ l
    | .list l, .list _      => mem.text ∈ l

theorem compareVariableValue_ne_zero_iff {mem : Memory} {a b : Rval} :
    compareVariableValue mem a b ≠ 0 ↔ a.Replaces mem b := by
  by_cases h : ¬a.HasItem ∨ ¬b.HasItem
  case pos =>
    simp only [compareVariableValue, h, ite_true, Rval.Replaces]
    exact iff_of_true (by decide) fun ha hb => (h.elim (· ha) (· hb)).elim
  case neg =>
    have ⟨ha, hb⟩ := not_or.mp h
    simp only [compareVariableValue, Rval.Replaces, not_not.mp ha, not_not.mp hb, forall_const]
    cases a
    case scalar s =>
      cases b <;> simp [Rval.asString, CString.strcmp_eq_zero_iff]
    case list l =>
      cases b <;> simp [Rval.asString, CString.strcmp_eq_zero_iff]

namespace EvalContext

variable {ctx : EvalContext} {agentType : AgentType} {mem : Memory} {reg reg' : ScopeRegistry}
  {ref : VarRef} {rval : Rval} {type : DataType}

section

variable {t t' : AssocHashTable} {e : CString}

theorem variableStore_spec (wf : t.WellFormed) (h : variableStore mem t e rval type = some t') :
    t'.WellFormed ∧ (∀ x, x.lval ≠ e → (t'.Holds x ↔ t.Holds x)) ∧
    (∀ r d, t.Holds (newAssoc e r d) → ¬rval.Replaces mem r → t'.Holds (newAssoc e r d)) ∧
    ((∀ r d, t.Holds (newAssoc e r d) → rval.Replaces mem r) → t'.Holds (newAssoc e rval type)) := by
  simp only [variableStore] at h
  split at h
  case h_1 a hl =>
    have ⟨ha, he⟩ := AssocHashTable.hashLookupElement_eq_some_iff wf |>.mp hl
    subst he
    split at h
    case isTrue hc =>
      have hc := compareVariableValue_ne_zero_iff.mp hc
      have ⟨_, _, h⟩ := Option.bind_eq_some_iff.mp h
      have ht := Option.some.inj h
      subst ht
      have ⟨wf', hh⟩ := AssocHashTable.hashAssignElement_spec wf (r := rval) (d := type) ha
      refine ⟨wf', fun x hx => ?_, fun r d hr hn => ?_, fun _ => hh _ |>.mpr <| .inl rfl⟩
      · rw [hh]
        constructor
        · rintro (rfl | h)
          · exact absurd rfl hx
          · exact h.left
        · exact fun h => .inr ⟨h, hx⟩
      · have hra : r = a.rval := congrArg CfAssoc.rval <| wf.unique hr ha rfl
        exact absurd (hra ▸ hc) hn
    case isFalse hc =>
      have hc := mt compareVariableValue_ne_zero_iff.mpr hc
      have ht := Option.some.inj h
      subst ht
      exact ⟨wf, fun _ _ => .rfl, fun _ _ h _ => h, fun h => absurd (h a.rval a.dtype ha) hc⟩
  case h_2 hl =>
    have ha := AssocHashTable.hashLookupElement_eq_none_iff wf |>.mp hl
    cases AssocHashTable.hashInsertElement_of_absent wf (r := rval) (d := type) ha
    case inr hf => simp [hf.right] at h
    case inl hi =>
      have ⟨t'', he, wf', hh⟩ := hi
      rw [he] at h
      have ht := Option.some.inj h
      subst ht
      refine ⟨wf', fun x hx => ?_, fun r d hr _ => absurd rfl (ha _ hr), fun _ => hh _ |>.mpr <| .inl rfl⟩
      rw [hh]
      exact or_iff_right fun hc => hx <| hc ▸ rfl

end

-- The scope of the variable after `EvalContextVariablePut` has made sure that it exists.
theorem putScope_spec (wf : reg.WellFormed) {ns : Option CString} {scope : CString} {ptr : Nat}
    (h : putScope reg ns scope = (reg', some ptr)) :
    reg'.WellFormed ∧ reg'.scopeMatch = reg.scopeMatch ∧
    (∀ ref v, reg'.Holds ref v ↔ reg.Holds ref v) ∧
    ∃ s ∈ reg'.vscope, s.addr = ptr ∧
      (reg'.Names ns scope s ∨ scope = scopeMatchName ∧ reg.scopeMatch = none ∧ s.scope = scope) := by
  simp only [putScope] at h
  split at h
  case h_1 p hg =>
    obtain ⟨hr, hp⟩ := Prod.mk.inj h
    obtain ⟨s, hn, ha⟩ := ScopeRegistry.scopeGet_eq_some_iff wf |>.mp hg
    exact hr ▸ ⟨wf, rfl, fun _ _ => .rfl, s, hn.left, ha.trans <| Option.some.inj hp, .inl hn⟩
  case h_2 hg =>
    have hg := ScopeRegistry.scopeGet_eq_none_iff wf |>.mp hg
    obtain ⟨wf', hm, s, ha, hns, hs, ht, hv, hf⟩ := ScopeRegistry.scopeNew_of_some wf h
    have hmem : s ∈ reg'.vscope := hv ▸ List.mem_cons_self ..
    have hnames {ns scope s'} (hne : s' ≠ s) : reg'.Names ns scope s' ↔ reg.Names ns scope s' := by
      simp [ScopeRegistry.Names, hm, hv, hne]
    have hne {s'} (h : s' ∈ reg.vscope) : s' ≠ s := fun hc => hf <| hc ▸ h
    refine ⟨wf', hm, fun ref v => ⟨?_, ?_⟩, s, hmem, ha, ?_⟩
    · rintro ⟨s', hn, hh⟩
      have hne : s' ≠ s := fun hc => AssocHashTable.not_hashInit_holds <| ht ▸ hc ▸ hh
      exact ⟨s', hnames hne |>.mp hn, hh⟩
    · rintro ⟨s', hn, hh⟩
      exact ⟨s', hnames (hne hn.left) |>.mpr hn, hh⟩
    · by_cases hc : scope = scopeMatchName
      case neg => exact .inl ⟨hmem, by simp [hc, hns, hs]⟩
      case pos =>
        refine .inr ⟨hc, ?_, hs⟩
        cases hsm : reg.scopeMatch
        case none => rfl
        case some p =>
          obtain ⟨s', hm', ha', _⟩ := wf.scopeMatch p hsm
          exact absurd ⟨hm', by simp [hc, hsm, ha']⟩ (hg s')

-- The assignments that `EvalContextVariablePut` makes if it stores the value.
structure Stores (reg reg' : ScopeRegistry) (mem : Memory) (ref : VarRef) (rval : Rval)
    (type : DataType) : Prop where
  wf         : reg'.WellFormed
  qualified  : ref.scope.isSome
  scopeMatch : reg'.scopeMatch = reg.scopeMatch
  others     : ∀ ref' v, ref'.variable ≠ ref.variable → (reg'.Holds ref' v ↔ reg.Holds ref' v)
  lost       : ref.scope = some scopeMatchName → reg.scopeMatch = none → ∀ v, ¬reg'.Holds ref v
  kept       : (ref.scope = some scopeMatchName → reg.scopeMatch ≠ none) →
    ∀ v, reg.Holds ref v → ¬rval.Replaces mem v.1 → reg'.Holds ref v
  replaced   : (ref.scope = some scopeMatchName → reg.scopeMatch ≠ none) →
    (∀ v, reg.Holds ref v → rval.Replaces mem v.1) → reg'.Holds ref (rval, type)

theorem holds_setHashtable {ptr : Nat} {t : AssocHashTable} {v : Rval × DataType} :
    (reg.setHashtable ptr t).Holds ref v ↔ ∃ s, reg.Names ref.ns ref.scope s ∧
      (if s.addr = ptr then t else s.hashtable).Holds (newAssoc (varRefToString ref false) v.1 v.2) := by
  simp only [ScopeRegistry.Holds, ScopeRegistry.names_setHashtable]
  constructor
  case mp =>
    intro ⟨_, ⟨s, hn, he⟩, hh⟩
    subst he
    refine ⟨s, hn, ?_⟩
    split <;> simp_all
  case mpr =>
    intro ⟨s, hn, hh⟩
    refine ⟨_, ⟨s, hn, rfl⟩, ?_⟩
    split <;> simp_all

theorem evalContextVariablePut_cases
    (h : ctx.evalContextVariablePut agentType mem reg ref rval type = some (reg', true)) :
    ∃ scope r reg₁ ptr t t', ref.scope = some scope ∧
      ctx.outstandingLists agentType reg rval = some r ∧
      putScope reg ref.ns scope = (reg₁, some ptr) ∧ reg₁.hashtable ptr = some t ∧
      variableStore mem t (varRefToString ref false) r type = some t' ∧
      reg' = reg₁.setHashtable ptr t' := by
  simp only [evalContextVariablePut] at h
  split at h
  case isTrue => simp at h
  case isFalse =>
    split at h
    case isTrue => simp at h
    case isFalse =>
      have ⟨scope, hs, h⟩ := Option.bind_eq_some_iff.mp h
      split at h
      case isTrue => simp at h
      case isFalse =>
        have ⟨r, hr, h⟩ := Option.bind_eq_some_iff.mp h
        split at h
        case h_1 => simp at h
        case h_2 reg₁ ptr hp =>
          have ⟨t, ht, h⟩ := Option.bind_eq_some_iff.mp h
          have ⟨t', ht', h⟩ := Option.bind_eq_some_iff.mp h
          have h := Prod.mk.inj (Option.some.inj h) |>.left
          exact ⟨scope, r, reg₁, ptr, t, t', hs, hr, hp, ht, ht', h.symm⟩

theorem variable_eq_of_names (wf : reg.WellFormed) {ref' : VarRef} {s : Scope}
    (h : reg.Names ref.ns ref.scope s) (h' : reg.Names ref'.ns ref'.scope s)
    (ht : varRefToString ref false = varRefToString ref' false) : ref.variable = ref'.variable := by
  have ⟨hs, hn⟩ := h.inj wf h'
  simp only [VarRef.variable, ht, hs, Prod.mk.injEq, and_true]
  cases hn
  case inl hm => simp [hs ▸ hm]
  case inr hn => simp [hn]

theorem evalContextVariablePut_spec (wf : reg.WellFormed)
    (h : ctx.evalContextVariablePut agentType mem reg ref rval type = some (reg', true)) :
    ∃ r, ctx.outstandingLists agentType reg rval = some r ∧ Stores reg reg' mem ref r type := by
  have ⟨scope, r, reg₁, ptr, t, t', hs, hr, hp, ht, ht', he⟩ := evalContextVariablePut_cases h
  have ⟨wf₁, hm, hh, s, hmem, ha, hn⟩ := putScope_spec wf hp
  subst he ha
  have hst : s.hashtable = t := Option.some.inj <| ScopeRegistry.hashtable_of_mem wf₁ hmem |>.symm.trans ht
  subst hst
  have ⟨wft, ho, hk, hr'⟩ := variableStore_spec (wf₁.tables s hmem) ht'
  have hnames (hd : ref.scope = some scopeMatchName → reg.scopeMatch ≠ none) :
      reg₁.Names ref.ns ref.scope s :=
    hs ▸ hn.resolve_right fun ⟨hc, hc', _⟩ => hd (hc ▸ hs) hc'
  have hheld {v} (hd : ref.scope = some scopeMatchName → reg.scopeMatch ≠ none) :
      reg.Holds ref v ↔ s.hashtable.Holds (newAssoc (varRefToString ref false) v.1 v.2) := by
    rw [←hh]
    exact ⟨fun ⟨s', hn', h⟩ => hn'.unique wf₁ (hnames hd) ▸ h, fun h => ⟨s, hnames hd, h⟩⟩
  have hstored {v} (hd : ref.scope = some scopeMatchName → reg.scopeMatch ≠ none)
      (h : t'.Holds (newAssoc (varRefToString ref false) v.1 v.2)) :
      (reg₁.setHashtable s.addr t').Holds ref v :=
    holds_setHashtable.mpr ⟨s, hnames hd, by simpa using h⟩
  refine ⟨r, hr, ?_⟩
  constructor
  case wf         => exact wf₁.setHashtable wft
  case qualified  => exact hs ▸ rfl
  case scopeMatch => exact hm
  case others =>
    intro ref' v hne
    rw [←hh, holds_setHashtable]
    apply exists_congr
    intro s'
    apply and_congr_right
    intro hn'
    split
    case isFalse => exact .rfl
    case isTrue ha =>
      have hs' := wf₁.addr_inj hn'.left hmem ha
      subst hs'
      apply ho
      intro ht
      cases hn
      case inl hn => exact hne <| variable_eq_of_names wf₁ hn' (hs ▸ hn) ht
      case inr hn =>
        have ⟨hc, hc', hsc⟩ := hn
        have hns := hn'.eq_scope wf₁
        rw [hsc, hc] at hns
        rw [hns] at hn'
        exact nomatch hc'.symm.trans <| hm.symm.trans hn'.eq_scopeMatch
  case lost =>
    intro hc hc' v h
    have ⟨s', hn', _⟩ := holds_setHashtable.mp h
    rw [hc] at hn'
    exact nomatch hc'.symm.trans <| hm.symm.trans hn'.eq_scopeMatch
  case kept     => exact fun hd v hv hnr => hstored hd <| hk _ _ (hheld hd |>.mp hv) hnr
  case replaced =>
    exact fun hd hv => hstored hd <| hr' fun r d h => hv (r, d) <| hheld hd |>.mpr h

theorem evalContextVariableGet_eq_iff (wf : reg.WellFormed) (hq : ref.scope.isSome)
    {v : Rval × DataType} :
    ctx.evalContextVariableGet reg ref = some (some v) ↔ reg.Holds ref v := by
  simp only [evalContextVariableGet, varRefIsQualified, hq, ite_true, Option.pure_def,
    Option.bind_eq_bind, Option.bind_some, Option.some.injEq, Option.bind_eq_some_iff]
  constructor
  case mp =>
    intro ⟨ptr, hg, t, ht, a, hl, he⟩
    have ⟨s, hn, ha⟩ := ScopeRegistry.scopeGet_eq_some_iff wf |>.mp hg
    subst ha
    have hst := Option.some.inj <| ScopeRegistry.hashtable_of_mem wf hn.left |>.symm.trans ht
    have ⟨hh, hk⟩ := AssocHashTable.hashLookupElement_eq_some_iff (hst ▸ wf.tables s hn.left) |>.mp hl
    refine ⟨s, hn, ?_⟩
    rw [hst, ←hk, ←he]
    exact hh
  case mpr =>
    intro ⟨s, hn, hh⟩
    have hl := AssocHashTable.hashLookupElement_eq_some_iff (wf.tables s hn.left)
      (a := newAssoc (varRefToString ref false) v.1 v.2) |>.mpr ⟨hh, rfl⟩
    exact ⟨s.addr, ScopeRegistry.scopeGet_of_names wf hn, s.hashtable,
      ScopeRegistry.hashtable_of_mem wf hn.left, _, hl, rfl⟩

end EvalContext

structure PutCall where
  ctx  : EvalContext
  mem  : Memory
  ref  : VarRef
  rval : Rval
  type : DataType

-- For every variable what the last successful `EvalContextVariablePut` supplied.
abbrev PutLog := CString × Option CString × CString → Option (Rval × DataType)

-- A reference to a variable that was put yields exactly what was supplied, in every context.
def RecallsPuts (s : ScopeRegistry × PutLog) : Prop :=
  ∀ (ctx : EvalContext) (ref : VarRef) (v : Rval × DataType), s.2 ref.variable = some v →
    ctx.evalContextVariableGet s.1 ref = some (some v)

namespace PutCall

variable (agentType : AgentType)

def put (reg : ScopeRegistry) (call : PutCall) : Outcome (ScopeRegistry × Bool) :=
  call.ctx.evalContextVariablePut agentType call.mem reg call.ref call.rval call.type

def step (s : ScopeRegistry × PutLog) (call : PutCall) : ScopeRegistry × PutLog :=
  match call.put agentType s.1 with
  | some (reg, true)  =>
    (reg, Function.update s.2 call.ref.variable <| some (call.rval, call.type))
  | some (reg, false) => (reg, s.2)
  | none              => s

def Succeeds (s : ScopeRegistry × PutLog) (call : PutCall) : Prop :=
  (call.put agentType s.1).map Prod.snd = some true

-- The scope can be found again, and what is stored in the end is what was supplied: this is what the
-- variable holds already if the old value is kept, and otherwise the value is stored unchanged.
structure TakesEffect (s : ScopeRegistry × PutLog) (call : PutCall) : Prop where
  found    : call.ref.scope = some scopeMatchName → s.1.scopeMatch ≠ none
  kept     : ∀ r v, call.ctx.outstandingLists agentType s.1 call.rval = some r →
    s.1.Holds call.ref v → ¬r.Replaces call.mem v.1 → v = (call.rval, call.type)
  replaced : ∀ r, call.ctx.outstandingLists agentType s.1 call.rval = some r →
    (∀ v, s.1.Holds call.ref v → r.Replaces call.mem v.1) → r = call.rval

variable {agentType : AgentType} {s : ScopeRegistry × PutLog} {call : PutCall} {calls : List PutCall}

theorem Succeeds.put_eq (h : call.Succeeds agentType s) :
    ∃ reg, call.put agentType s.1 = some (reg, true) := by
  have ⟨⟨reg, _⟩, hp, hb⟩ := Option.map_eq_some_iff.mp h
  exact ⟨reg, hb ▸ hp⟩

-- The variables in the log are qualified, and the registry holds their values.
structure Logged (s : ScopeRegistry × PutLog) : Prop where
  wf    : s.1.WellFormed
  holds : ∀ ref v, s.2 ref.variable = some v → ref.scope.isSome ∧ s.1.Holds ref v

theorem Logged.recallsPuts (h : Logged s) : RecallsPuts s := by
  intro ctx ref v hv
  have ⟨hq, hh⟩ := h.holds ref v hv
  exact EvalContext.evalContextVariableGet_eq_iff h.wf hq |>.mpr hh

theorem Logged.step (h : Logged s) (hs : call.Succeeds agentType s) (he : call.TakesEffect agentType s) :
    Logged (call.step agentType s) := by
  have ⟨reg, hp⟩ := hs.put_eq
  have ⟨r, hr, st⟩ := EvalContext.evalContextVariablePut_spec h.wf hp
  simp only [PutCall.step, hp]
  refine ⟨st.wf, fun ref v hv => ?_⟩
  by_cases hx : ref.variable = call.ref.variable
  case neg =>
    simp only [Function.update_of_ne hx] at hv
    have ⟨hq, hh⟩ := h.holds ref v hv
    exact ⟨hq, st.others ref v hx |>.mpr hh⟩
  case pos =>
    simp only [hx, Function.update_self, Option.some.injEq] at hv
    subst hv
    have hs : ref.scope = call.ref.scope := congrArg (fun x => x.2.1) hx
    refine ⟨hs ▸ st.qualified, ScopeRegistry.holds_congr hx |>.mpr ?_⟩
    by_cases hk : ∀ v, s.1.Holds call.ref v → r.Replaces call.mem v.1
    case pos => exact he.replaced r hr hk ▸ st.replaced he.found hk
    case neg =>
      have ⟨v, hv⟩ := not_forall.mp hk
      have ⟨hv, hn⟩ := Classical.not_imp.mp hv
      exact he.kept r v hr hv hn ▸ st.kept he.found v hv hn

-- Without effect, the variable of the call holds something else afterwards, or nothing.
theorem Logged.not_recallsPuts (h : Logged s) (hs : call.Succeeds agentType s)
    (he : ¬call.TakesEffect agentType s) : ¬RecallsPuts (call.step agentType s) := by
  have ⟨reg, hp⟩ := hs.put_eq
  have ⟨r, hr, st⟩ := EvalContext.evalContextVariablePut_spec h.wf hp
  intro hc
  have hg := hc call.ctx call.ref (call.rval, call.type) (by simp [PutCall.step, hp])
  simp only [PutCall.step, hp, EvalContext.evalContextVariableGet_eq_iff st.wf st.qualified] at hg
  apply he
  constructor
  case found => exact fun hm hm' => st.lost hm hm' _ hg
  case kept =>
    intro r' v hr' hv hn
    cases Option.some.inj <| hr.symm.trans hr'
    exact st.kept (fun hm hm' => st.lost hm hm' _ hg) v hv hn |>.unique st.wf hg
  case replaced =>
    intro r' hr' hk
    cases Option.some.inj <| hr.symm.trans hr'
    have hh := st.replaced (fun hm hm' => st.lost hm hm' _ hg) hk |>.unique st.wf hg
    exact (Prod.mk.inj hh).left

end PutCall

-- In a run of successful calls every variable has the value of its last call exactly if each of the
-- calls takes effect.
theorem recallsPuts_iff {agentType : AgentType} {reg : ScopeRegistry} {calls : List PutCall}
    (wf : reg.WellFormed)
    (h : EveryStep (PutCall.Succeeds agentType) (PutCall.step agentType) (reg, fun _ => none) calls) :
    Always RecallsPuts (PutCall.step agentType) (reg, fun _ => none) calls ↔
      EveryStep (PutCall.TakesEffect agentType) (PutCall.step agentType) (reg, fun _ => none) calls := by
  apply always_iff_everyStep (P := PutCall.Logged) ⟨wf, by simp⟩ h
  · exact fun _ hl => hl.recallsPuts
  · exact fun _ _ hl hs => hl.step hs
  · exact fun _ _ hl hs => hl.not_recallsPuts hs

-- A bundle `main` with the variable `v`.
def mainContext : EvalContext :=
  { EvalContext.new with stack := [stackFrameNewBundle ⟨"agent".toList, "main".toList, nsDefault⟩ false] }

def mainPut (rval : Rval) (type : DataType) : PutCall where
  ctx  := mainContext
  mem  := ⟨"P5xUUU".toList, true⟩
  ref  := ⟨none, "main".toList, ['v'], []⟩
  rval := rval
  type := type

theorem recallsPuts_mainPut :
    Always RecallsPuts (PutCall.step .agent) (.empty, fun _ => none)
      [mainPut (.scalar ['a']) .string, mainPut (.scalar ['b']) .string] := by
  have hl : PutCall.Logged (.empty, fun _ => none) := ⟨.empty, by simp⟩
  have hs : (mainPut (.scalar ['a']) .string).Succeeds .agent (.empty, fun _ => none) := by
    unfold PutCall.Succeeds
    decide +kernel
  have hs' : (mainPut (.scalar ['b']) .string).Succeeds .agent
      (PutCall.step .agent (.empty, fun _ => none) (mainPut (.scalar ['a']) .string)) := by
    unfold PutCall.Succeeds
    decide +kernel
  have he : (mainPut (.scalar ['a']) .string).TakesEffect .agent (.empty, fun _ => none) :=
    ⟨nofun, fun _ _ _ ⟨_, hn, _⟩ => (nomatch hn.left), fun _ h _ => (Option.some.inj h).symm⟩
  have he' : (mainPut (.scalar ['b']) .string).TakesEffect .agent
      (PutCall.step .agent (.empty, fun _ => none) (mainPut (.scalar ['a']) .string)) := by
    refine ⟨nofun, fun r v hr hv hn => ?_, fun _ h _ => (Option.some.inj h).symm⟩
    have hg : mainContext.evalContextVariableGet _ _ = some (some v) :=
      EvalContext.evalContextVariableGet_eq_iff (hl.step hs he).wf rfl |>.mpr hv
    have hc : mainContext.evalContextVariableGet
        (PutCall.step .agent (.empty, fun _ => none) (mainPut (.scalar ['a']) .string)).1
        (mainPut (.scalar ['b']) .string).ref = some (some (.scalar ['a'], .string)) := by
      decide +kernel
    cases Option.some.inj <| Option.some.inj <| hc.symm.trans hg
    cases Option.some.inj hr
    exact absurd (compareVariableValue_ne_zero_iff.mp <| by decide) hn
  have hp : EveryStep (PutCall.Succeeds .agent) (PutCall.step .agent) (.empty, fun _ => none)
      [mainPut (.scalar ['a']) .string, mainPut (.scalar ['b']) .string] := ⟨hs, hs', trivial⟩
  exact recallsPuts_iff .empty hp |>.mpr ⟨he, he', trivial⟩

-- The text that is read from the list `a` is not an item of the list `b`, so that `a` is kept.
theorem lists_not_recallsPuts :
    EveryStep (PutCall.Succeeds .agent) (PutCall.step .agent) (.empty, fun _ => none)
      [mainPut (.list [['a']]) .stringList, mainPut (.list [['b']]) .stringList] ∧
    ¬Always RecallsPuts (PutCall.step .agent) (.empty, fun _ => none)
      [mainPut (.list [['a']]) .stringList, mainPut (.list [['b']]) .stringList] := by
  refine ⟨⟨?_, ?_, trivial⟩, fun h => ?_⟩
  · unfold PutCall.Succeeds
    decide +kernel
  · unfold PutCall.Succeeds
    decide +kernel
  · have hc := h.last mainContext (mainPut (.list []) .stringList).ref
      (.list [['b']], .stringList) (by decide +kernel)
    revert hc
    decide +kernel

end CfEngine
