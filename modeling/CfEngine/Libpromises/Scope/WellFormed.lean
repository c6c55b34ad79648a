import CfEngine.Libpromises.Assoc.WellFormed
import CfEngine.Libpromises.Scope
import CfEngine.Libpromises.VarExpressions

namespace CfEngine.ScopeRegistry

-- Scopes are told apart by their addresses and by their names. The scope for the matches of regular
-- expressions is the only one that is found through its pointer.
structure WellFormed (reg : ScopeRegistry) : Prop where
  addrs      : (reg.vscope.map Scope.addr).Nodup
  names      : (reg.vscope.map fun s => (s.ns, s.scope)).Nodup
  allocated  : ∀ s ∈ reg.vscope, s.addr < reg.allocated
  tables     : ∀ s ∈ reg.vscope, s.hashtable.WellFormed
  scopeMatch : ∀ ptr, reg.scopeMatch = some ptr →
    ∃ s ∈ reg.vscope, s.addr = ptr ∧ s.scope = scopeMatchName

-- The scope `s` is the one that `ScopeGet` yields for the namespace and the scope.
def Names (reg : ScopeRegistry) (ns scope : Option CString) (s : Scope) : Prop :=
  s ∈ reg.vscope ∧
    if scope = some scopeMatchName then reg.scopeMatch = some s.addr
    else s.ns = ns.getD nsDefault ∧ scope = some s.scope

-- The variable that the reference identifies has the value `v`.
def Holds (reg : ScopeRegistry) (ref : VarRef) (v : Rval × DataType) : Prop :=
  ∃ s, reg.Names ref.ns ref.scope s ∧ s.hashtable.Holds (newAssoc (varRefToString ref false) v.1 v.2)

variable {reg : ScopeRegistry} {ns scope : Option CString} {s s' : Scope} {ptr : Nat}
  {t : AssocHashTable}

theorem WellFormed.empty : empty.WellFormed where
  addrs      := List.nodup_nil
  names      := List.nodup_nil
  allocated  := nofun
  tables     := nofun
  scopeMatch := nofun

theorem Names.eq_scopeMatch (h : reg.Names ns (some scopeMatchName) s) :
    reg.scopeMatch = some s.addr := by
  simpa using h.right

theorem Names.eq_names (h : reg.Names ns scope s) (hc : scope ≠ some scopeMatchName) :
    s.ns = ns.getD nsDefault ∧ scope = some s.scope := by
  simpa [hc] using h.right

section

variable (wf : reg.WellFormed)
include wf

theorem WellFormed.addr_inj (h : s ∈ reg.vscope) (h' : s' ∈ reg.vscope) (ha : s.addr = s'.addr) :
    s = s' :=
  List.inj_on_of_nodup_map wf.addrs h h' ha

theorem Names.unique (h : reg.Names ns scope s) (h' : reg.Names ns scope s') : s = s' := by
  have ⟨hm, hn⟩ := h
  have ⟨hm', hn'⟩ := h'
  by_cases hs : scope = some scopeMatchName
  case pos =>
    simp only [hs, ite_true] at hn hn'
    exact wf.addr_inj hm hm' <| Option.some.inj <| hn.symm.trans hn'
  case neg =>
    simp only [hs, ite_false] at hn hn'
    have hsc : s.scope = s'.scope := Option.some.inj <| hn.right.symm.trans hn'.right
    exact List.inj_on_of_nodup_map wf.names hm hm' <| Prod.ext (hn.left.trans hn'.left.symm) hsc

theorem Names.eq_scope (h : reg.Names ns scope s) : scope = some s.scope := by
  by_cases hc : scope = some scopeMatchName
  case neg => exact h.eq_names hc |>.right
  case pos =>
    subst hc
    have ⟨s', hm, ha, hn⟩ := wf.scopeMatch s.addr h.eq_scopeMatch
    rw [←hn, wf.addr_inj hm h.left ha]

-- A scope is named by one scope only, and by one namespace unless it is found through its pointer.
theorem Names.inj {ns' scope' : Option CString} (h : reg.Names ns scope s)
    (h' : reg.Names ns' scope' s) :
    scope = scope' ∧ (scope = some scopeMatchName ∨ ns.getD nsDefault = ns'.getD nsDefault) := by
  have hs : scope = scope' := (h.eq_scope wf).trans (h'.eq_scope wf).symm
  refine ⟨hs, ?_⟩
  by_cases hc : scope = some scopeMatchName
  case pos => exact .inl hc
  case neg => exact .inr <| (h.eq_names hc).left.symm.trans (h'.eq_names <| hs ▸ hc).left

theorem scopeGet_eq_some_iff : reg.scopeGet ns scope = some ptr ↔
    ∃ s, reg.Names ns scope s ∧ s.addr = ptr := by
  cases scope
  case none => simp [scopeGet, Names]
  case some scope =>
    by_cases hs : scope = scopeMatchName
    case pos =>
      simp only [scopeGet, Names, hs, ite_true]
      constructor
      case mp =>
        intro h
        have ⟨s, hm, ha, _⟩ := wf.scopeMatch ptr h
        exact ⟨s, ⟨hm, ha ▸ h⟩, ha⟩
      case mpr =>
        intro ⟨s, ⟨_, h⟩, ha⟩
        exact ha ▸ h
    case neg =>
      simp only [scopeGet, hs, ite_false, Option.map_eq_some_iff]
      constructor
      case mp =>
        intro ⟨s, hf, ha⟩
        have hp := List.find?_some hf
        simp only [Bool.and_eq_true, decide_eq_true_eq] at hp
        refine ⟨s, ⟨List.mem_of_find?_eq_some hf, ?_⟩, ha⟩
        simp [hs, hp]
      case mpr =>
        intro ⟨s, hn, ha⟩
        have ⟨hm, hn'⟩ := hn
        simp only [Option.some.injEq, hs, ite_false] at hn'
        have ⟨s', hf⟩ : ∃ s', reg.vscope.find? (fun cp => cp.ns = ns.getD nsDefault && cp.scope = scope)
            = some s' :=
          Option.isSome_iff_exists.mp <| List.find?_isSome.mpr ⟨s, hm, by simp [hn']⟩
        have hp := List.find?_some hf
        simp only [Bool.and_eq_true, decide_eq_true_eq] at hp
        have hn'' : reg.Names ns (some scope) s' :=
          ⟨List.mem_of_find?_eq_some hf, by simp [hs, hp]⟩
        exact ⟨s', hf, (hn''.unique wf hn) ▸ ha⟩

theorem hashtable_of_mem (h : s ∈ reg.vscope) : reg.hashtable s.addr = some s.hashtable := by
  have ⟨s', hf⟩ : ∃ s', reg.vscope.find? (·.addr = s.addr) = some s' :=
    Option.isSome_iff_exists.mp <| List.find?_isSome.mpr ⟨s, h, by simp⟩
  have ha : s'.addr = s.addr := by simpa using List.find?_some hf
  rw [hashtable, hf, wf.addr_inj (List.mem_of_find?_eq_some hf) h ha]
  rfl

theorem scopeGet_of_names (h : reg.Names ns scope s) : reg.scopeGet ns scope = some s.addr :=
  scopeGet_eq_some_iff wf |>.mpr ⟨s, h, rfl⟩

theorem scopeGet_eq_none_iff : reg.scopeGet ns scope = none ↔ ∀ s, ¬reg.Names ns scope s := by
  constructor
  case mp =>
    intro h s hn
    simp [scopeGet_of_names wf hn] at h
  case mpr =>
    intro h
    cases hg : reg.scopeGet ns scope
    case none => rfl
    case some ptr =>
      have ⟨s, hn, _⟩ := scopeGet_eq_some_iff wf |>.mp hg
      exact absurd hn <| h s

theorem Holds.unique {ref : VarRef} {v v' : Rval × DataType} (h : reg.Holds ref v)
    (h' : reg.Holds ref v') : v = v' := by
  have ⟨s, hn, hh⟩ := h
  have ⟨s', hn', hh'⟩ := h'
  have hs := hn.unique wf hn'
  subst hs
  have ha := wf.tables s hn.left |>.unique hh hh' rfl
  simp only [newAssoc, CfAssoc.mk.injEq] at ha
  exact Prod.ext ha.right.left ha.right.right

end

theorem mem_setHashtable : s ∈ (reg.setHashtable ptr t).vscope ↔
    ∃ s' ∈ reg.vscope, (if s'.addr = ptr then { s' with hashtable := t } else s') = s := by
  simp [setHashtable]

theorem WellFormed.setHashtable (wf : reg.WellFormed) (ht : t.WellFormed) :
    (reg.setHashtable ptr t).WellFormed := by
  have ha (s : Scope) : (if s.addr = ptr then { s with hashtable := t } else s).addr = s.addr := by
    split <;> rfl
  have hn (s : Scope) : ((if s.addr = ptr then { s with hashtable := t } else s).ns,
      (if s.addr = ptr then { s with hashtable := t } else s).scope) = (s.ns, s.scope) := by
    split <;> rfl
  constructor
  case addrs => simpa [ScopeRegistry.setHashtable, Function.comp_def, ha] using wf.addrs
  case names =>
    simp only [ScopeRegistry.setHashtable, List.map_map, Function.comp_def, hn]
    exact wf.names
  case allocated =>
    intro s hs
    have ⟨s', hm, he⟩ := mem_setHashtable.mp hs
    exact he ▸ (ha s').symm ▸ wf.allocated s' hm
  case tables =>
    intro s hs
    have ⟨s', hm, he⟩ := mem_setHashtable.mp hs
    subst he
    split
    case isTrue  => exact ht
    case isFalse => exact wf.tables s' hm
  case scopeMatch =>
    intro p hp
    have ⟨s, hm, hs, hn'⟩ := wf.scopeMatch p hp
    exact ⟨_, mem_setHashtable.mpr ⟨s, hm, rfl⟩, (ha s).trans hs, (Prod.mk.inj (hn s)).right.trans hn'⟩

theorem names_setHashtable : (reg.setHashtable ptr t).Names ns scope s ↔
    ∃ s', reg.Names ns scope s' ∧ (if s'.addr = ptr then { s' with hashtable := t } else s') = s := by
  simp only [Names, mem_setHashtable]
  constructor
  case mp =>
    intro ⟨⟨s', hm, he⟩, hn⟩
    refine ⟨s', ⟨hm, ?_⟩, he⟩
    subst he
    split at hn <;> simp_all [setHashtable] <;> split at hn <;> simp_all
  case mpr =>
    intro ⟨s', ⟨hm, hn⟩, he⟩
    refine ⟨⟨s', hm, he⟩, ?_⟩
    subst he
    split <;> simp_all [setHashtable] <;> split <;> simp_all

theorem scopeNew_of_some (wf : reg.WellFormed) {scope : CString} {reg' : ScopeRegistry}
    (he : reg.scopeNew ns scope = (reg', some ptr)) :
    reg'.WellFormed ∧ reg'.scopeMatch = reg.scopeMatch ∧
      ∃ s, s.addr = ptr ∧ s.ns = ns.getD nsDefault ∧ s.scope = scope ∧ s.hashtable = hashInit ∧
        reg'.vscope = s :: reg.vscope ∧ s ∉ reg.vscope := by
  simp only [scopeNew] at he
  split at he
  case isTrue  => simp at he
  case isFalse hn =>
    simp only [List.any_eq_true, Bool.and_eq_true, decide_eq_true_eq, not_exists, not_and] at hn
    simp only [Prod.mk.injEq, Option.some.injEq] at he
    have ⟨he, hp⟩ := he
    subst he
    have hf (s : Scope) (hs : s ∈ reg.vscope) : s.addr ≠ reg.allocated :=
      Nat.ne_of_lt <| wf.allocated s hs
    refine ⟨⟨?addrs, ?names, ?allocated, ?tables, ?scopeMatch⟩, rfl,
      _, hp, rfl, rfl, rfl, rfl, fun hc => hf _ hc rfl⟩
    case addrs =>
      refine List.nodup_cons.mpr ⟨fun hc => ?_, wf.addrs⟩
      have ⟨s, hs, ha⟩ := List.mem_map.mp hc
      exact hf s hs ha
    case names =>
      refine List.nodup_cons.mpr ⟨fun hc => ?_, wf.names⟩
      have ⟨s, hs, hk⟩ := List.mem_map.mp hc
      exact hn s hs (Prod.mk.inj hk).left (Prod.mk.inj hk).right
    case allocated =>
      intro s hs
      cases List.mem_cons.mp hs
      case inl h =>
        subst h
        exact Nat.lt_succ_self reg.allocated
      case inr h => exact Nat.lt_succ_of_lt <| wf.allocated s h
    case tables =>
      intro s hs
      cases List.mem_cons.mp hs
      case inl h => exact h ▸ AssocHashTable.hashInit_wellFormed
      case inr h => exact wf.tables s h
    case scopeMatch =>
      intro p hm
      have ⟨s, hs, ha⟩ := wf.scopeMatch p hm
      exact ⟨s, List.mem_cons_of_mem _ hs, ha⟩

end CfEngine.ScopeRegistry
