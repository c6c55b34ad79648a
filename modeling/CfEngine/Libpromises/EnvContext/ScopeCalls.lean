import CfEngine.Library.Run
import CfEngine.Libpromises.EnvContext.VariableStore

open Run

namespace CfEngine

inductive SpecialScope
  | const
  | edit
  | match
  | mon
  | sys
  | this

def specialScopeToString : SpecialScope → CString
  | .const => ['c', 'o', 'n', 's', 't']
  | .edit  => ['e', 'd', 'i', 't']
  | .match => scopeMatchName
  | .mon   => ['m', 'o', 'n']
  | .sys   => ['s', 'y', 's']
  | .this  => scopeThisName

-- The registry and the stack `CF_STCK`. What the registry has as the namespace of a scope in
-- `freedNs` is what is read from freed memory.
structure ScopeGlobals where
  registry : ScopeRegistry
  freedNs  : Finset Nat
  stck     : List Nat

namespace ScopeRegistry

-- A name for the variable has two digits at most.
def scopePutMatch (mem : Memory) (reg : ScopeRegistry) (index : Int) (value : CString) :
    Outcome ScopeRegistry := do
  let (reg, ptr) :=
    match reg.scopeMatch with
    | some ptr => (reg, some ptr)
    | none     => reg.scopeNew none scopeMatchName
  let ptr ← ptr
  let lval := (toString index).toList.take 2
  let t  ← reg.hashtable ptr
  let t' ← EvalContext.variableStore mem t lval (.scalar value) .string
  return { reg.setHashtable ptr t' with scopeMatch := some ptr }

def scopeDelete (reg : ScopeRegistry) (ptr : Nat) : ScopeRegistry :=
  { reg with vscope := reg.vscope.eraseP (·.addr = ptr) }

def scopeDeleteAll (reg : ScopeRegistry) : ScopeRegistry :=
  { reg with vscope := [] }

def scopeClear (reg : ScopeRegistry) (ns : Option CString) (name : CString) :
    Outcome ScopeRegistry :=
  match reg.scopeGet ns name with
  | none     => some reg
  | some ptr => do
    let _ ← reg.hashtable ptr
    return reg.setHashtable ptr hashInit

def scopeClearSpecial (reg : ScopeRegistry) (scope : SpecialScope) : Outcome ScopeRegistry :=
  reg.scopeClear none (specialScopeToString scope)

def rename (reg : ScopeRegistry) (ptr : Nat) (ns scope : CString) : ScopeRegistry :=
  { reg with vscope := reg.vscope.map fun s => if s.addr = ptr then { s with ns, scope } else s }

-- The addresses and names of the scopes that are linked in `VSCOPE`.
def links (reg : ScopeRegistry) : List (Nat × CString × CString) :=
  reg.vscope.map fun s => (s.addr, s.ns, s.scope)

-- The variables of a scope that is found by its name.
def scopeVariables (reg : ScopeRegistry) (scope : CString) : AssocHashTable :=
  ((reg.scopeGet none scope).bind reg.hashtable).getD hashInit

end ScopeRegistry

namespace ScopeGlobals

def empty : ScopeGlobals where
  registry := .empty
  freedNs  := ∅
  stck     := []

-- The namespace of the scope is freed. The text that is read there from now on is `freed`.
def scopePushThis (freed : CString) (g : ScopeGlobals) : ScopeGlobals :=
  match g.registry.scopeGet none scopeThisName with
  | none    => g
  | some op =>
    let frame_index := g.stck.length
    let name := scopeThisName ++ '_' :: (toString (frame_index + 1)).toList
    let name := name.take (cfMaxVarSize - 1)
    let reg := g.registry.rename op freed name
    { registry := (reg.scopeNew none scopeThisName).1
      freedNs  := insert op g.freedNs
      stck     := op :: g.stck }

def scopePopThis (g : ScopeGlobals) : Outcome ScopeGlobals :=
  match g.stck with
  | []               => none
  | new_this :: stck => do
    let reg :=
      match g.registry.scopeGet none scopeThisName with
      | some current_this => g.registry.scopeDelete current_this
      | none              => g.registry
    let _ ← reg.hashtable new_this
    return {
      registry := reg.rename new_this nsDefault scopeThisName
      freedNs  := g.freedNs.erase new_this
      stck }

-- The part of the calls that push and pop the frame of a promise that is about scopes.
def evalContextStackPushPromiseFrame (freed : CString) (g : ScopeGlobals) : ScopeGlobals :=
  match g.registry.scopeGet none scopeThisName with
  | some _ => g.scopePushThis freed
  | none   =>
    { g with registry := (g.registry.scopeNew none scopeThisName).1 }.scopePushThis freed

def evalContextStackPopFrame (g : ScopeGlobals) : Outcome ScopeGlobals :=
  g.scopePopThis

end ScopeGlobals

inductive ScopeCall
  | variablePut (ctx : EvalContext) (agentType : AgentType) (mem : Memory) (ref : VarRef)
    (rval : Rval) (type : DataType)
  | putMatch (mem : Memory) (index : Int) (value : CString)
  | new (ns : Option CString) (scope : CString)
  | clear (ns : Option CString) (name : CString)
  | clearSpecial (scope : SpecialScope)
  | pushPromiseFrame (freed : CString)
  | popFrame
  | deleteAll

-- The globals, with the variables of the scope `this` before each push that is not popped yet, and
-- before and after those that are popped.
structure ScopeRun where
  globals  : ScopeGlobals
  pushed   : List AssocHashTable
  restored : List (AssocHashTable × AssocHashTable)

namespace ScopeCall

def run (g : ScopeGlobals) : ScopeCall → Outcome ScopeGlobals
  | variablePut ctx agentType mem ref rval type => do
    let (registry, _) ← ctx.evalContextVariablePut agentType mem g.registry ref rval type
    return { g with registry }
  | putMatch mem index value => do
    let registry ← g.registry.scopePutMatch mem index value
    return { g with registry }
  | new ns scope             => some { g with registry := (g.registry.scopeNew ns scope).1 }
  | clear ns name            => do
    let registry ← g.registry.scopeClear ns name
    return { g with registry }
  | clearSpecial scope       => do
    let registry ← g.registry.scopeClearSpecial scope
    return { g with registry }
  | pushPromiseFrame freed   => some <| g.evalContextStackPushPromiseFrame freed
  | popFrame                 => g.evalContextStackPopFrame
  | deleteAll                => some { g with registry := g.registry.scopeDeleteAll }

def record (before after : ScopeGlobals) (s : ScopeRun) : ScopeCall → ScopeRun
  | pushPromiseFrame _ => { s with
    globals := after
    pushed  := before.registry.scopeVariables scopeThisName :: s.pushed }
  | popFrame           =>
    match s.pushed with
    | []          => { s with globals := after }
    | t :: pushed => { s with
      globals  := after
      pushed
      restored := (t, after.registry.scopeVariables scopeThisName) :: s.restored }
  | _                  => { s with globals := after }

-- A call that does not return has no state after it.
def step (s : ScopeRun) (call : ScopeCall) : ScopeRun :=
  match call.run s.globals with
  | some g => call.record s.globals g s
  | none   => s

-- Pushes and pops are nested, and all is deleted only outside of them.
def Nested (s : ScopeRun) : ScopeCall → Prop
  | popFrame  => s.pushed ≠ []
  | deleteAll => s.pushed = []
  | _         => True

-- The scope for the matches comes into being with its pointer only, and goes only without it. No
-- promise is pushed.
def KeepsLinks (s : ScopeRun) : ScopeCall → Prop
  | variablePut ctx agentType _ ref rval _ =>
    ref.scope = some scopeMatchName → ref.ns.getD nsDefault = nsDefault →
    s.globals.registry.scopeMatch = none → rval.HasItem → ref.lval.length ≤ cfMaxVarSize →
    EvalContext.containsItself rval ref.lval = false →
    ctx.outstandingLists agentType s.globals.registry rval = none
  | new ns scope       => scope = scopeMatchName → ns.getD nsDefault = nsDefault →
    s.globals.registry.scopeMatch ≠ none
  | pushPromiseFrame _ => False
  | deleteAll          => s.globals.registry.scopeMatch = none
  | _                  => True

end ScopeCall

namespace ScopeRun

def empty : ScopeRun where
  globals  := .empty
  pushed   := []
  restored := []

structure LinksAreSound (s : ScopeRun) : Prop where
  live       : ∀ l ∈ s.globals.registry.links, l.1 ∉ s.globals.freedNs
  names      : (s.globals.registry.links.map Prod.snd).Nodup
  noMatch    : s.globals.registry.scopeMatch = none ↔
    (nsDefault, scopeMatchName) ∉ s.globals.registry.links.map Prod.snd
  scopeMatch : ∀ ptr, s.globals.registry.scopeMatch = some ptr →
    (ptr, nsDefault, scopeMatchName) ∈ s.globals.registry.links
  restored   : ∀ p ∈ s.restored, ∀ x, p.1.Holds x ↔ p.2.Holds x

-- The invariant of a run without promises.
structure Invariant (s : ScopeRun) : Prop extends LinksAreSound s where
  wf            : s.globals.registry.WellFormed
  freedNs_eq    : s.globals.freedNs = ∅
  pushed_eq     : s.pushed = []
  restored_eq   : s.restored = []

end ScopeRun

section

variable {s : ScopeRun} {reg reg' : ScopeRegistry} {ns : Option CString} {scope : CString}
  {ptr : Nat} {t : AssocHashTable} {mem : Memory}

theorem ScopeRegistry.links_setHashtable : (reg.setHashtable ptr t).links = reg.links := by
  simp only [links, setHashtable, List.map_map]
  refine List.map_congr_left fun s _ => ?_
  simp only [Function.comp_apply]
  split <;> rfl

theorem ScopeRegistry.scopeNew_cases (reg : ScopeRegistry) (ns : Option CString)
    (scope : CString) :
    (reg.scopeNew ns scope = (reg, none) ∧ (ns.getD nsDefault, scope) ∈ reg.links.map Prod.snd) ∨
    (∃ reg' ptr, reg.scopeNew ns scope = (reg', some ptr) ∧
      reg'.links = (ptr, ns.getD nsDefault, scope) :: reg.links ∧ reg'.scopeMatch = reg.scopeMatch ∧
      (ns.getD nsDefault, scope) ∉ reg.links.map Prod.snd) := by
  simp only [scopeNew]
  split
  case isTrue h =>
    refine .inl ⟨rfl, ?_⟩
    simpa [links] using h
  case isFalse h =>
    refine .inr ⟨_, _, rfl, rfl, rfl, ?_⟩
    simpa [links] using h

end

namespace EvalContext

variable {ctx : EvalContext} {agentType : AgentType} {mem : Memory} {reg reg' : ScopeRegistry}
  {ref : VarRef} {rval : Rval} {type : DataType}

-- A value that is stored has passed the checks.
theorem checks_of_evalContextVariablePut
    (h : ctx.evalContextVariablePut agentType mem reg ref rval type = some (reg', true)) :
    rval.HasItem ∧ ref.lval.length ≤ cfMaxVarSize ∧
      (ref.scope = some scopeMatchName → containsItself rval ref.lval = false) := by
  simp only [evalContextVariablePut] at h
  split at h
  case isTrue => simp at h
  case isFalse hi =>
    split at h
    case isTrue => simp at h
    case isFalse hl =>
      obtain ⟨scope, hs, h⟩ := Option.bind_eq_some_iff.mp h
      split at h
      case isTrue => simp at h
      case isFalse hc =>
        refine ⟨not_not.mp hi, Nat.le_of_not_gt hl, fun he => ?_⟩
        have hm : scope ≠ scopeBodyName := by
          rw [Option.some.inj <| hs.symm.trans he]
          decide
        simpa [hm] using hc

-- Otherwise the registry stays as it is.
theorem evalContextVariablePut_of_false
    (h : ctx.evalContextVariablePut agentType mem reg ref rval type = some (reg', false)) :
    reg' = reg := by
  simp only [evalContextVariablePut] at h
  split at h
  case isTrue => exact (Prod.mk.inj <| Option.some.inj h).left.symm
  case isFalse =>
    split at h
    case isTrue => exact (Prod.mk.inj <| Option.some.inj h).left.symm
    case isFalse =>
      obtain ⟨scope, _, h⟩ := Option.bind_eq_some_iff.mp h
      split at h
      case isTrue => exact (Prod.mk.inj <| Option.some.inj h).left.symm
      case isFalse =>
        obtain ⟨r, _, h⟩ := Option.bind_eq_some_iff.mp h
        split at h
        case h_2 =>
          obtain ⟨_, _, h⟩ := Option.bind_eq_some_iff.mp h
          obtain ⟨_, _, h⟩ := Option.bind_eq_some_iff.mp h
          cases (Prod.mk.inj <| Option.some.inj h).right
        case h_1 reg₁ hp =>
          cases (Prod.mk.inj <| Option.some.inj h).left
          simp only [putScope] at hp
          split at hp
          case h_1 => simp at hp
          case h_2 =>
            cases ScopeRegistry.scopeNew_cases reg ref.ns scope
            case inl he => exact (Prod.mk.inj <| he.left.symm.trans hp).left.symm
            case inr he =>
              obtain ⟨_, _, he, _⟩ := he
              cases (Prod.mk.inj <| he.symm.trans hp).right

-- The put that creates the scope for the matches.
theorem evalContextVariablePut_match (wf : reg.WellFormed) {r : Rval}
    (hl : (nsDefault, scopeMatchName) ∉ reg.links.map Prod.snd) (hm : reg.scopeMatch = none)
    (hs : ref.scope = some scopeMatchName) (hns : ref.ns.getD nsDefault = nsDefault)
    (hi : rval.HasItem) (hlen : ref.lval.length ≤ cfMaxVarSize)
    (hc : containsItself rval ref.lval = false)
    (hr : ctx.outstandingLists agentType reg rval = some r) (mem : Memory) (type : DataType) :
    ∃ reg' ptr, ctx.evalContextVariablePut agentType mem reg ref rval type = some (reg', true) ∧
      reg'.links = (ptr, nsDefault, scopeMatchName) :: reg.links ∧ reg'.scopeMatch = none := by
  have hget : reg.scopeGet ref.ns (some scopeMatchName) = none := by
    simp [ScopeRegistry.scopeGet, hm]
  cases ScopeRegistry.scopeNew_cases reg ref.ns scopeMatchName
  case inl he => exact absurd (hns ▸ he.right) hl
  case inr he =>
    obtain ⟨reg₁, ptr, he, hlinks, hmatch, _⟩ := he
    obtain ⟨wf₁, _, s, ha, _, _, ht, hv, _⟩ := ScopeRegistry.scopeNew_of_some wf he
    have htab : reg₁.hashtable ptr = some hashInit := by
      rw [← ha, ← ht]
      exact ScopeRegistry.hashtable_of_mem wf₁ <| hv ▸ List.mem_cons_self ..
    have hst : ∃ t, variableStore mem hashInit (varRefToString ref false) r type = some t :=
      ⟨_, rfl⟩
    obtain ⟨t, hst⟩ := hst
    refine ⟨reg₁.setHashtable ptr t, ptr, ?_, ?_, hmatch.trans hm⟩
    · simp only [evalContextVariablePut, hs, hi, not_true_eq_false, ite_false, Nat.not_lt.mpr hlen,
        Option.bind_eq_bind, Option.bind_some, hc, Bool.false_eq_true, and_false, hr, putScope,
        hget, he, htab, hst, pure]
    · rw [ScopeRegistry.links_setHashtable, hlinks, hns]

end EvalContext
namespace ScopeRegistry

variable {reg reg' : ScopeRegistry} {ns : Option CString} {name : CString} {ptr : Nat}
  {mem : Memory}

theorem mem_links {l : Nat × CString × CString} : l ∈ reg.links ↔
    ∃ s ∈ reg.vscope, (s.addr, s.ns, s.scope) = l :=
  List.mem_map

-- Either the scope for the matches exists already, or it comes into being with its pointer.
theorem scopePutMatch_spec {index : Int} {value : CString} (wf : reg.WellFormed)
    (h : scopePutMatch mem reg index value = some reg') :
    reg'.WellFormed ∧ (reg'.links = reg.links ∧ reg'.scopeMatch = reg.scopeMatch ∨
      ∃ ptr, reg'.links = (ptr, nsDefault, scopeMatchName) :: reg.links ∧
        (nsDefault, scopeMatchName) ∉ reg.links.map Prod.snd ∧ reg'.scopeMatch = some ptr) := by
  have hstore {reg₁ : ScopeRegistry} {ptr : Nat} {t t' : AssocHashTable} {lval : CString}
      (wf₁ : reg₁.WellFormed) (ht : reg₁.hashtable ptr = some t)
      (hs : ∃ s ∈ reg₁.vscope, s.addr = ptr ∧ s.scope = scopeMatchName)
      (hv : EvalContext.variableStore mem t lval (.scalar value) .string = some t') :
      ({ reg₁.setHashtable ptr t' with scopeMatch := some ptr } : ScopeRegistry).WellFormed := by
    have ⟨s, hm, ha, hn⟩ := hs
    have ht' : s.hashtable = t :=
      Option.some.inj <| (hashtable_of_mem wf₁ hm).symm.trans <| ha ▸ ht
    have hwf := EvalContext.variableStore_spec (ht' ▸ wf₁.tables s hm) hv |>.left
    have ⟨addrs, names, allocated, tables, _⟩ := @WellFormed.setHashtable _ ptr _ wf₁ hwf
    refine ⟨addrs, names, allocated, tables, fun p hp => ?_⟩
    cases Option.some.inj hp
    exact ⟨_, mem_setHashtable.mpr ⟨s, hm, rfl⟩, by simp [ha], by simp [ha, hn]⟩
  cases hm : reg.scopeMatch
  case some ptr =>
    simp only [scopePutMatch, hm] at h
    have ⟨p, hp, h⟩ := Option.bind_eq_some_iff.mp h
    have ⟨t, ht, h⟩ := Option.bind_eq_some_iff.mp h
    have ⟨t', hv, h⟩ := Option.bind_eq_some_iff.mp h
    cases Option.some.inj hp
    cases Option.some.inj h
    exact ⟨hstore wf ht (wf.scopeMatch ptr hm) hv, .inl ⟨links_setHashtable, rfl⟩⟩
  case none =>
    simp only [scopePutMatch, hm] at h
    cases scopeNew_cases reg none scopeMatchName
    case inl he =>
      rw [he.left] at h
      cases h
    case inr he =>
      have ⟨reg₁, ptr, he, hl, _, hn⟩ := he
      rw [he] at h
      have ⟨p, hp, h⟩ := Option.bind_eq_some_iff.mp h
      have ⟨t, ht, h⟩ := Option.bind_eq_some_iff.mp h
      have ⟨t', hv, h⟩ := Option.bind_eq_some_iff.mp h
      cases Option.some.inj hp
      cases Option.some.inj h
      have ⟨wf₁, _, s, ha, _, hs, _, hvs, _⟩ := scopeNew_of_some wf he
      exact ⟨hstore wf₁ ht ⟨s, hvs ▸ List.mem_cons_self .., ha, hs⟩ hv,
        .inr ⟨ptr, links_setHashtable.trans hl, hn, rfl⟩⟩

theorem scopeClear_spec (wf : reg.WellFormed) (h : reg.scopeClear ns name = some reg') :
    reg'.WellFormed ∧ reg'.links = reg.links ∧ reg'.scopeMatch = reg.scopeMatch := by
  simp only [scopeClear] at h
  split at h
  case h_1 =>
    cases Option.some.inj h
    exact ⟨wf, rfl, rfl⟩
  case h_2 =>
    have ⟨_, _, h⟩ := Option.bind_eq_some_iff.mp h
    cases Option.some.inj h
    exact ⟨wf.setHashtable AssocHashTable.hashInit_wellFormed, links_setHashtable, rfl⟩

end ScopeRegistry

namespace ScopeRun

variable {s : ScopeRun} {reg reg' : ScopeRegistry} {call : ScopeCall} {ptr : Nat}
  {l : CString × CString}

def withRegistry (s : ScopeRun) (registry : ScopeRegistry) : ScopeRun :=
  { s with globals := { s.globals with registry } }

-- The scopes keep their names.
theorem Invariant.congr (h : s.Invariant) (wf : reg.WellFormed)
    (hl : reg.links = s.globals.registry.links)
    (hm : reg.scopeMatch = s.globals.registry.scopeMatch) : (s.withRegistry reg).Invariant where
  live          := show ∀ l ∈ reg.links, _ from hl ▸ h.live
  names         := show (reg.links.map _).Nodup from hl ▸ h.names
  noMatch       := show reg.scopeMatch = none ↔ _ ∉ reg.links.map _ from hl ▸ hm ▸ h.noMatch
  scopeMatch    := show ∀ ptr, reg.scopeMatch = some ptr → (ptr, _) ∈ reg.links from
    hl ▸ hm ▸ h.scopeMatch
  restored      := h.restored
  wf            := wf
  freedNs_eq    := h.freedNs_eq
  pushed_eq     := h.pushed_eq
  restored_eq   := h.restored_eq

-- A scope is added. If it is the one for the matches, its pointer is set.
theorem Invariant.cons (h : s.Invariant) (wf : reg.WellFormed)
    (hl : reg.links = (ptr, l) :: s.globals.registry.links)
    (hn : l ∉ s.globals.registry.links.map Prod.snd)
    (hm : if l = (nsDefault, scopeMatchName) then reg.scopeMatch = some ptr
      else reg.scopeMatch = s.globals.registry.scopeMatch) : (s.withRegistry reg).Invariant where
  live          := by
    intro l _
    show l.1 ∉ s.globals.freedNs
    rw [h.freedNs_eq]
    exact Finset.notMem_empty _
  names         := by
    show (reg.links.map _).Nodup
    rw [hl]
    exact List.nodup_cons.mpr ⟨hn, h.names⟩
  noMatch       := by
    show reg.scopeMatch = none ↔ _ ∉ reg.links.map _
    rw [hl, List.map_cons, List.mem_cons, not_or]
    split at hm
    case isTrue he  => simp [hm, he]
    case isFalse he => rw [hm, h.noMatch, and_iff_right (Ne.symm he)]
  scopeMatch    := by
    intro p hp
    replace hp : reg.scopeMatch = some p := hp
    show _ ∈ reg.links
    rw [hl, List.mem_cons]
    split at hm
    case isTrue he  =>
      cases Option.some.inj <| hm.symm.trans hp
      exact .inl <| Prod.ext rfl he.symm
    case isFalse => exact .inr <| h.scopeMatch p <| hm ▸ hp
  restored      := h.restored
  wf            := wf
  freedNs_eq    := h.freedNs_eq
  pushed_eq     := h.pushed_eq
  restored_eq   := h.restored_eq

theorem Invariant.new {ns : Option CString} {scope : CString} (h : s.Invariant)
    (hk : scope = scopeMatchName → ns.getD nsDefault = nsDefault →
      s.globals.registry.scopeMatch ≠ none) :
    (s.withRegistry (s.globals.registry.scopeNew ns scope).1).Invariant := by
  cases ScopeRegistry.scopeNew_cases s.globals.registry ns scope
  case inl he => exact h.congr (he.left ▸ h.wf) (he.left ▸ rfl) (he.left ▸ rfl)
  case inr he =>
    have ⟨reg₁, ptr, he, hl, hm, hn⟩ := he
    have ⟨wf₁, _⟩ := ScopeRegistry.scopeNew_of_some h.wf he
    refine he ▸ h.cons wf₁ hl hn ?_
    split
    case isFalse => exact hm
    case isTrue hc =>
      have ⟨hns, hs⟩ := Prod.mk.inj hc
      exact absurd (h.noMatch.mpr <| hc ▸ hn) <| hk hs hns

theorem Invariant.variablePut {ctx : EvalContext} {agentType : AgentType} {mem : Memory}
    {ref : VarRef} {rval : Rval} {type : DataType} {b : Bool} (h : s.Invariant)
    (hk : (ScopeCall.variablePut ctx agentType mem ref rval type).KeepsLinks s)
    (hp : ctx.evalContextVariablePut agentType mem s.globals.registry ref rval type =
      some (reg, b)) : (s.withRegistry reg).Invariant := by
  cases b
  case false => exact EvalContext.evalContextVariablePut_of_false hp ▸ h
  case true =>
    obtain ⟨scope, r, reg₁, ptr, t, t', hs, hr, hput, _, _, he⟩ :=
      EvalContext.evalContextVariablePut_cases hp
    obtain ⟨hi, hlen, hc⟩ := EvalContext.checks_of_evalContextVariablePut hp
    obtain ⟨_, _, hstores⟩ := EvalContext.evalContextVariablePut_spec h.wf hp
    have hlinks : reg.links = reg₁.links := he ▸ ScopeRegistry.links_setHashtable
    simp only [EvalContext.putScope] at hput
    split at hput
    case h_1 =>
      cases (Prod.mk.inj hput).left
      exact h.congr hstores.wf hlinks (hstores.scopeMatch)
    case h_2 hget =>
      cases ScopeRegistry.scopeNew_cases s.globals.registry ref.ns scope
      case inl hnew => simp [hnew.left] at hput
      case inr hnew =>
        obtain ⟨reg₂, ptr₂, hnew, hl, _, hn⟩ := hnew
        cases Prod.mk.inj (hnew.symm.trans hput) |>.left
        refine h.cons hstores.wf (hlinks.trans hl) hn ?_
        split
        case isFalse => exact hstores.scopeMatch
        case isTrue hm =>
          obtain ⟨hns, hscope⟩ := Prod.mk.inj hm
          have href : ref.scope = some scopeMatchName := hscope ▸ hs
          have hnone := hk href hns (h.noMatch.mpr <| hm ▸ hn) hi hlen (hc href)
          cases hnone.symm.trans hr

theorem Invariant.step (h : s.Invariant) (hn : call.Nested s) (hk : call.KeepsLinks s) :
    (call.step s).Invariant := by
  simp only [ScopeCall.step]
  cases hr : call.run s.globals
  case none => exact h
  case some g =>
    cases call
    case variablePut =>
      have ⟨⟨reg, b⟩, hp, he⟩ := Option.bind_eq_some_iff.mp hr
      cases Option.some.inj he
      exact h.variablePut hk hp
    case putMatch =>
      have ⟨reg, hp, he⟩ := Option.bind_eq_some_iff.mp hr
      cases Option.some.inj he
      have ⟨wf, hspec⟩ := ScopeRegistry.scopePutMatch_spec h.wf hp
      cases hspec
      case inl hspec => exact h.congr wf hspec.left hspec.right
      case inr hspec =>
        have ⟨ptr, hl, hn, hm⟩ := hspec
        exact h.cons wf hl hn <| (if_pos rfl).symm ▸ hm
    case new =>
      cases Option.some.inj hr
      exact h.new hk
    case clear =>
      have ⟨reg, hp, he⟩ := Option.bind_eq_some_iff.mp hr
      cases Option.some.inj he
      have ⟨wf, hl, hm⟩ := ScopeRegistry.scopeClear_spec h.wf hp
      exact h.congr wf hl hm
    case clearSpecial =>
      have ⟨reg, hp, he⟩ := Option.bind_eq_some_iff.mp hr
      cases Option.some.inj he
      have ⟨wf, hl, hm⟩ := ScopeRegistry.scopeClear_spec h.wf hp
      exact h.congr wf hl hm
    case pushPromiseFrame => exact hk.elim
    case popFrame => exact absurd h.pushed_eq hn
    case deleteAll =>
      cases Option.some.inj hr
      have hm : s.globals.registry.scopeMatch = none := hk
      exact {
        live := nofun
        names := List.nodup_nil
        noMatch := iff_of_true hm List.not_mem_nil
        scopeMatch := fun ptr hp => nomatch hm.symm.trans hp
        restored := h.restored
        wf := ⟨List.nodup_nil, List.nodup_nil, nofun, nofun, fun ptr hp => nomatch hm.symm.trans hp⟩
        freedNs_eq := h.freedNs_eq
        pushed_eq := h.pushed_eq
        restored_eq := h.restored_eq }

-- The scope for the matches exists without its pointer.
theorem not_linksAreSound (hl : reg.links = (ptr, nsDefault, scopeMatchName) :: reg'.links)
    (hm : reg.scopeMatch = none) : ¬(s.withRegistry reg).LinksAreSound := by
  intro h
  have hn : (nsDefault, scopeMatchName) ∉ reg.links.map Prod.snd := h.noMatch.mp hm
  rw [hl] at hn
  exact hn <| List.mem_cons_self ..

end ScopeRun

namespace ScopeRegistry

variable {reg : ScopeRegistry} {ns : Option CString} {scope freed : CString} {ptr : Nat}

theorem mem_links_scopeNew (reg : ScopeRegistry) (ns : Option CString) (scope : CString) :
    (ns.getD nsDefault, scope) ∈ (reg.scopeNew ns scope).1.links.map Prod.snd := by
  cases scopeNew_cases reg ns scope
  case inl he => exact he.left ▸ he.right
  case inr he =>
    have ⟨reg', ptr, he, hl, _⟩ := he
    rw [he]
    show _ ∈ reg'.links.map Prod.snd
    rw [hl]
    exact List.mem_cons_self ..

theorem links_subset_scopeNew : reg.links ⊆ (reg.scopeNew ns scope).1.links := by
  cases scopeNew_cases reg ns scope
  case inl he => exact he.left ▸ List.Subset.refl _
  case inr he =>
    have ⟨reg', ptr, he, hl, _⟩ := he
    rw [he]
    show _ ⊆ reg'.links
    rw [hl]
    exact List.subset_cons_self ..

theorem scopeGet_of_mem_links (h : (ns.getD nsDefault, scope) ∈ reg.links.map Prod.snd)
    (hs : scope ≠ scopeMatchName) :
    ∃ ptr, reg.scopeGet ns scope = some ptr ∧ ∃ l ∈ reg.links, l.1 = ptr := by
  have ⟨l, hl, he⟩ := List.mem_map.mp h
  have ⟨s, hm, hsl⟩ := mem_links.mp hl
  have ⟨s', hf⟩ : ∃ s', reg.vscope.find? (fun cp => cp.ns = ns.getD nsDefault && cp.scope = scope)
      = some s' := by
    refine Option.isSome_iff_exists.mp <| List.find?_isSome.mpr ⟨s, hm, ?_⟩
    have := hsl ▸ he
    simpa using this
  exact ⟨s'.addr, by simp [scopeGet, hs, hf], _,
    mem_links.mpr ⟨s', List.mem_of_find?_eq_some hf, rfl⟩, rfl⟩

end ScopeRegistry

namespace ScopeGlobals

variable {g : ScopeGlobals} {freed : CString} {op : Nat}

-- The scope that has been `this` stays linked without its namespace.
theorem scopePushThis_freed (h : g.registry.scopeGet none scopeThisName = some op)
    (hl : ∃ l ∈ g.registry.links, l.1 = op) :
    ∃ l ∈ (g.scopePushThis freed).registry.links, l.1 ∈ (g.scopePushThis freed).freedNs := by
  have ⟨l, hl, he⟩ := hl
  have ⟨s, hs, hsl⟩ := ScopeRegistry.mem_links.mp hl
  have ha : s.addr = op := by rw [← he, ← hsl]
  simp only [scopePushThis, h]
  generalize (scopeThisName ++ _).take _ = name
  have hr : ∃ l ∈ (g.registry.rename op freed name).links, l.1 = op :=
    ⟨_, ScopeRegistry.mem_links.mpr ⟨_, List.mem_map.mpr ⟨s, hs, rfl⟩, rfl⟩, by simp [ha]⟩
  have ⟨l, hl, he⟩ := hr
  exact ⟨l, ScopeRegistry.links_subset_scopeNew hl, he ▸ Finset.mem_insert_self ..⟩

theorem evalContextStackPushPromiseFrame_freed (freed : CString) (wf : g.registry.WellFormed) :
    ∃ l ∈ (g.evalContextStackPushPromiseFrame freed).registry.links,
      l.1 ∈ (g.evalContextStackPushPromiseFrame freed).freedNs := by
  simp only [evalContextStackPushPromiseFrame]
  split
  case h_1 op h =>
    have ⟨s, hn, ha⟩ := ScopeRegistry.scopeGet_eq_some_iff wf |>.mp h
    exact scopePushThis_freed h ⟨_, ScopeRegistry.mem_links.mpr ⟨s, hn.left, rfl⟩, ha⟩
  case h_2 =>
    have hl := ScopeRegistry.mem_links_scopeNew g.registry none scopeThisName
    have ⟨op, h, hl⟩ := ScopeRegistry.scopeGet_of_mem_links hl <| by decide
    exact scopePushThis_freed h hl

end ScopeGlobals

namespace ScopeRun

variable {s : ScopeRun} {call : ScopeCall} {calls : List ScopeCall}

theorem Invariant.not_linksAreSound (h : s.Invariant) (hk : ¬call.KeepsLinks s) :
    ¬(call.step s).LinksAreSound := by
  cases call
  case variablePut ctx agentType mem ref rval type =>
    simp only [ScopeCall.KeepsLinks, Classical.not_imp] at hk
    have ⟨hs, hns, hm, hi, hlen, hc, hr⟩ := hk
    have ⟨r, hr⟩ := Option.ne_none_iff_exists'.mp hr
    have ⟨reg, ptr, hp, hl, hm'⟩ := EvalContext.evalContextVariablePut_match h.wf
      (h.noMatch.mp hm) hm hs hns hi hlen hc hr mem type
    have hstep : (ScopeCall.variablePut ctx agentType mem ref rval type).step s =
        s.withRegistry reg := by
      simp [ScopeCall.step, ScopeCall.run, hp, ScopeCall.record, withRegistry]
    exact hstep ▸ ScopeRun.not_linksAreSound hl hm'
  case new ns scope =>
    simp only [ScopeCall.KeepsLinks, Classical.not_imp, not_not] at hk
    have ⟨hs, hns, hm⟩ := hk
    cases ScopeRegistry.scopeNew_cases s.globals.registry ns scope
    case inl he => exact absurd (hs ▸ hns ▸ he.right) <| h.noMatch.mp hm
    case inr he =>
      have ⟨reg, ptr, he, hl, hm', _⟩ := he
      have hstep : (ScopeCall.new ns scope).step s = s.withRegistry reg := by
        simp [ScopeCall.step, ScopeCall.run, he, ScopeCall.record, withRegistry]
      exact hstep ▸ ScopeRun.not_linksAreSound (hns ▸ hs ▸ hl) (hm'.trans hm)
  case pushPromiseFrame freed =>
    intro hs
    have ⟨l, hl, hf⟩ := ScopeGlobals.evalContextStackPushPromiseFrame_freed freed h.wf
    exact hs.live l hl hf
  case deleteAll =>
    intro hs
    have ⟨ptr, hm⟩ := Option.ne_none_iff_exists'.mp hk
    exact List.not_mem_nil <| hs.scopeMatch ptr hm
  all_goals exact absurd trivial hk

theorem Invariant.empty : ScopeRun.empty.Invariant where
  live        := nofun
  names       := List.nodup_nil
  noMatch     := iff_of_true rfl List.not_mem_nil
  scopeMatch  := nofun
  restored    := nofun
  wf          := .empty
  freedNs_eq  := rfl
  pushed_eq   := rfl
  restored_eq := rfl

-- The links are sound throughout a run exactly if each of the calls keeps them.
theorem linksAreSound_iff (h : EveryStep ScopeCall.Nested ScopeCall.step .empty calls) :
    Always LinksAreSound ScopeCall.step .empty calls ↔
      EveryStep ScopeCall.KeepsLinks ScopeCall.step .empty calls := by
  apply always_iff_everyStep (P := Invariant) .empty h
  · exact fun _ hi => hi.toLinksAreSound
  · exact fun _ _ hi hn hk => hi.step hn hk
  · exact fun _ _ hi _ hk => hi.not_linksAreSound hk

def memory : Memory where
  text   := []
  faults := true

-- A match is stored, and the scope with the matches is cleared.
def matchCalls : List ScopeCall :=
  [.new none ['x'], .putMatch memory 0 ['a'], .clearSpecial .match]

theorem linksAreSound_matchCalls : Always LinksAreSound ScopeCall.step .empty matchCalls := by
  have hn : EveryStep ScopeCall.Nested ScopeCall.step .empty matchCalls :=
    ⟨trivial, trivial, trivial, trivial⟩
  have hk : EveryStep ScopeCall.KeepsLinks ScopeCall.step .empty matchCalls :=
    ⟨fun h => absurd h <| by decide, trivial, trivial, trivial⟩
  exact linksAreSound_iff hn |>.mpr hk

-- A promise is pushed, or the pointer to the scope for the matches is left behind, or the scope is
-- created without it.
theorem not_linksAreSound_pushPromiseFrame :
    ¬Always LinksAreSound ScopeCall.step .empty [.pushPromiseFrame []] ∧
    ¬Always LinksAreSound ScopeCall.step .empty [.putMatch memory 0 ['a'], .deleteAll] ∧
    ¬Always LinksAreSound ScopeCall.step .empty [.variablePut .new .agent memory
      ⟨none, scopeMatchName, ['v'], []⟩ (.scalar ['a']) .string] := by
  refine ⟨fun h => ?_, fun h => ?_, fun h => ?_⟩
  · exact Invariant.empty.not_linksAreSound id h.right.head
  · have hi := @Invariant.step _ (.putMatch memory 0 ['a']) .empty trivial trivial
    have hk (h : ScopeCall.deleteAll.KeepsLinks <|
        (ScopeCall.putMatch memory 0 ['a']).step .empty) : some 0 = none := h
    exact hi.not_linksAreSound (fun h => nomatch hk h) h.right.right.head
  · refine Invariant.empty.not_linksAreSound (fun hk => ?_) h.right.head
    exact nomatch hk rfl rfl rfl (by decide) (by decide) (by decide)

end ScopeRun
end CfEngine
