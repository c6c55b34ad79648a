import CfEngine.Libpromises.Policy.Json.Values
import Mathlib.Data.List.Nodup

namespace CfEngine
namespace Policy

-- A context that has a string as its name.
def HasName (context : JsonElement) : Prop :=
  ∃ name, context.getString "name" = some name

def ContextsNamed (json : JsonElement) : Prop :=
  ∃ contexts, json.getArray "contexts" = some contexts ∧ ∀ context ∈ contexts, HasName context

section

variable {α : Type} {childrenName : String} {classes : α → CString}
  {toJson : α → Except ExportError JsonElement}

theorem createContextAsJson_hasName {name : Option CString} {children : List JsonElement}
    {context : JsonElement} (h : createContextAsJson name childrenName children = .ok context) :
    HasName context := by
  cases name
  case none      => cases h
  case some name =>
    cases h
    exact ⟨_, rfl⟩

theorem contextsToJson_hasName {xs : List α} {contexts children out : List JsonElement}
    {current : Option CString} (hc : ∀ context ∈ contexts, HasName context)
    (h : contextsToJson childrenName classes toJson contexts children current xs = .ok out) :
    ∀ context ∈ out, HasName context := by
  have hmore {name : Option CString} {children contexts : List JsonElement} {context : JsonElement}
      (hc : ∀ context ∈ contexts, HasName context)
      (h : createContextAsJson name childrenName children = .ok context) :
      ∀ context' ∈ contexts ++ [context], HasName context' :=
    List.forall_mem_append.mpr
      ⟨hc, List.forall_mem_singleton.mpr <| createContextAsJson_hasName h⟩
  induction xs generalizing contexts children current
  case nil =>
    obtain ⟨context, hcontext, h⟩ := Except.bind_eq_ok_iff.mp h
    cases h
    exact hmore hc hcontext
  case cons x xs ih =>
    rw [contextsToJson] at h
    split at h
    case isTrue =>
      obtain ⟨context, hcontext, h⟩ := Except.bind_eq_ok_iff.mp h
      obtain ⟨child, -, h⟩ := Except.bind_eq_ok_iff.mp h
      exact ih (hmore hc hcontext) h
    case isFalse =>
      obtain ⟨child, -, h⟩ := Except.bind_eq_ok_iff.mp h
      exact ih hc h

-- With a current context the loop stops at nothing but an element.
theorem contextsToJson_isOk_iff {xs : List α} {contexts children : List JsonElement}
    {current : CString} :
    (∃ out, contextsToJson childrenName classes toJson contexts children current xs = .ok out) ↔
      ∀ x ∈ xs, ∃ json, toJson x = .ok json := by
  induction xs generalizing contexts children current
  case nil          => exact ⟨nofun, fun _ => ⟨_, rfl⟩⟩
  case cons x xs ih =>
    rw [List.forall_mem_cons, contextsToJson, Option.getD_some]
    split
    case isTrue =>
      rw [createContextAsJson, Except.ok_bind_eq, Except.exists_bind_eq_ok_iff]
      simp only [ih, exists_and_right]
    case isFalse =>
      rw [Except.exists_bind_eq_ok_iff]
      simp only [ih, exists_and_right]

end

-- The promisees of a list are written as strings.
def ScalarPromisee (promisee : Rval) : Prop :=
  match promisee with
  | .list items => ∀ item ∈ items, item.isScalar
  | _           => True

theorem rlistScalarValue_isOk_iff {item : Rval} :
    (∃ s, rlistScalarValue item = .ok s) ↔ item.isScalar := by
  cases item
  case scalar item => exact ⟨fun _ => rfl, fun _ => ⟨item, rfl⟩⟩
  all_goals exact ⟨nofun, nofun⟩

theorem promiseeToJson_isOk_iff {promisee : Rval} :
    (∃ properties, promiseeToJson promisee = .ok properties) ↔ ScalarPromisee promisee := by
  cases promisee
  case list items =>
    rw [promiseeToJson, Except.exists_bind_ok_eq_ok_iff, Except.exists_mapM_eq_ok_iff]
    exact forall₂_congr fun _ _ => rlistScalarValue_isOk_iff
  all_goals exact ⟨fun _ => trivial, fun _ => ⟨_, rfl⟩⟩

theorem constraintToJson_isOk_iff {cp : Constraint} {symbolicReference : Bool} :
    (∃ json, constraintToJson cp symbolicReference = .ok json) ↔
      ∃ json, attributeValueToJson cp.rval symbolicReference = .ok json :=
  Except.exists_bind_ok_eq_ok_iff

theorem promiseToJson_isOk_iff {pp : Promise} :
    (∃ json, promiseToJson pp = .ok json) ↔
      (∀ cp ∈ pp.conlist, ∃ json, attributeValueToJson cp.rval cp.referencesBody = .ok json) ∧
        ScalarPromisee pp.promisee := by
  rw [promiseToJson, Except.exists_bind_eq_ok_iff]
  simp only [Except.exists_bind_ok_eq_ok_iff, promiseeToJson_isOk_iff, exists_and_right,
    Except.exists_mapM_eq_ok_iff, constraintToJson_isOk_iff]

-- No name is there for the context of a promise type without promises.
theorem bundleContextsToJson_isOk_iff {promises : List Promise} :
    (∃ contexts, bundleContextsToJson promises = .ok contexts) ↔
      promises ≠ [] ∧ ∀ pp ∈ promises, ∃ json, promiseToJson pp = .ok json := by
  rcases promises with _ | ⟨pp, promises⟩
  · exact ⟨nofun, fun h => absurd rfl h.1⟩
  · have h : bundleContextsToJson (pp :: promises) = contextsToJson "promises" Promise.classes
        promiseToJson [] [] (some pp.classes) (pp :: promises) := by
      rw [bundleContextsToJson, contextsToJson, contextsToJson]
      rfl
    rw [h, contextsToJson_isOk_iff]
    exact (and_iff_right <| List.cons_ne_nil pp promises).symm

theorem promiseTypeToJson_isOk_iff {sp : PromiseType} :
    (∃ json, promiseTypeToJson sp = .ok json) ↔
      sp.promises ≠ [] ∧ ∀ pp ∈ sp.promises, ∃ json, promiseToJson pp = .ok json := by
  rw [promiseTypeToJson, Except.exists_bind_ok_eq_ok_iff, bundleContextsToJson_isOk_iff]

theorem bundleToJson_isOk_iff {bundle : Bundle} :
    (∃ json, bundleToJson bundle = .ok json) ↔
      ∀ sp ∈ bundle.promiseTypes.val, ∃ json, promiseTypeToJson sp = .ok json := by
  rw [bundleToJson, Except.exists_bind_ok_eq_ok_iff, Except.exists_mapM_eq_ok_iff]

theorem bodyToJson_isOk_iff {body : Body} :
    (∃ json, bodyToJson body = .ok json) ↔
      ∀ cp ∈ body.conlist, ∃ json, attributeValueToJson cp.rval false = .ok json := by
  rw [bodyToJson, Except.exists_bind_ok_eq_ok_iff, bodyContextsToJson, contextsToJson_isOk_iff]
  exact forall₂_congr fun _ _ => constraintToJson_isOk_iff

theorem policyToJson_isOk_iff {policy : Policy} :
    (∃ json, policyToJson policy = .ok json) ↔
      (∀ bundle ∈ policy.bundles, ∀ sp ∈ bundle.promiseTypes.val,
        sp.promises ≠ [] ∧ ∀ pp ∈ sp.promises, ∃ json, promiseToJson pp = .ok json) ∧
      ∀ body ∈ policy.bodies, ∀ cp ∈ body.conlist,
        ∃ json, attributeValueToJson cp.rval false = .ok json := by
  rw [policyToJson, Except.exists_bind_eq_ok_iff]
  simp only [Except.exists_bind_ok_eq_ok_iff, Except.exists_mapM_eq_ok_iff, exists_and_right,
    bundleToJson_isOk_iff, promiseTypeToJson_isOk_iff, bodyToJson_isOk_iff]

theorem promiseTypeToJson_contextsNamed {sp : PromiseType} {json : JsonElement}
    (h : promiseTypeToJson sp = .ok json) : ContextsNamed json := by
  obtain ⟨contexts, hcontexts, h⟩ := Except.bind_eq_ok_iff.mp h
  cases h
  exact ⟨contexts, rfl, contextsToJson_hasName (fun _ h => absurd h List.not_mem_nil) hcontexts⟩

theorem bodyToJson_contextsNamed {body : Body} {json : JsonElement}
    (h : bodyToJson body = .ok json) : ContextsNamed json := by
  obtain ⟨contexts, hcontexts, h⟩ := Except.bind_eq_ok_iff.mp h
  cases h
  refine ⟨contexts, ?_, contextsToJson_hasName (fun _ h => absurd h List.not_mem_nil) hcontexts⟩
  cases body.sourcePath <;> rfl

-- The contexts of the promise types of a bundle.
def BundleContextsNamed (json : JsonElement) : Prop :=
  ∃ types, json.getArray "promiseTypes" = some types ∧ ∀ type ∈ types, ContextsNamed type

theorem bundleToJson_contextsNamed {bundle : Bundle} {json : JsonElement}
    (h : bundleToJson bundle = .ok json) : BundleContextsNamed json := by
  obtain ⟨types, htypes, h⟩ := Except.bind_eq_ok_iff.mp h
  cases h
  refine ⟨types, ?_, fun type hmem => ?_⟩
  · cases bundle.sourcePath <;> rfl
  · obtain ⟨sp, -, hsp⟩ := Except.exists_of_mem_mapM htypes hmem
    exact promiseTypeToJson_contextsNamed hsp

def PolicyContextsNamed (json : JsonElement) : Prop :=
  ∃ bundles bodies, json.getArray "bundles" = some bundles ∧ json.getArray "bodies" = some bodies ∧
    (∀ bundle ∈ bundles, BundleContextsNamed bundle) ∧ ∀ body ∈ bodies, ContextsNamed body

theorem policyToJson_contextsNamed {policy : Policy} {json : JsonElement}
    (h : policyToJson policy = .ok json) : PolicyContextsNamed json := by
  obtain ⟨bundles, hbundles, h⟩ := Except.bind_eq_ok_iff.mp h
  obtain ⟨bodies, hbodies, h⟩ := Except.bind_eq_ok_iff.mp h
  cases h
  refine ⟨bundles, bodies, rfl, rfl, fun bundle hmem => ?_, fun body hmem => ?_⟩
  · obtain ⟨_, -, hbundle⟩ := Except.exists_of_mem_mapM hbundles hmem
    exact bundleToJson_contextsNamed hbundle
  · obtain ⟨_, -, hbody⟩ := Except.exists_of_mem_mapM hbodies hmem
    exact bodyToJson_contextsNamed hbody

-- The policies that the parser builds. A constraint has a value, and a promisee is a value.
structure Parsed (policy : Policy) : Prop where
  bundles : ∀ bundle ∈ policy.bundles, ∀ sp ∈ bundle.promiseTypes.val, ∀ pp ∈ sp.promises,
    (pp.promisee = .nopromisee ∨ pp.promisee.isValue) ∧ ∀ cp ∈ pp.conlist, cp.rval.isValue
  bodies  : ∀ body ∈ policy.bodies, ∀ cp ∈ body.conlist, cp.rval.isValue

-- The export of a policy from the parser ends, with a name for every context, if no promise type is
-- without promises and no promisee is a list with a call.
theorem policyToJson_contextsNamed_iff {policy : Policy} (h : Parsed policy) :
    (∃ json, policyToJson policy = .ok json ∧ PolicyContextsNamed json) ↔
      ∀ bundle ∈ policy.bundles, ∀ sp ∈ bundle.promiseTypes.val,
        sp.promises ≠ [] ∧ ∀ pp ∈ sp.promises, ScalarPromisee pp.promisee := by
  have hnamed : (∃ json, policyToJson policy = .ok json ∧ PolicyContextsNamed json) ↔
      ∃ json, policyToJson policy = .ok json :=
    exists_congr fun _ => and_iff_left_of_imp policyToJson_contextsNamed
  rw [hnamed, policyToJson_isOk_iff, and_iff_left]
  · refine forall₂_congr fun bundle hbundle => forall₂_congr fun sp hsp =>
      and_congr_right fun _ => forall₂_congr fun pp hpp => ?_
    rw [promiseToJson_isOk_iff, and_iff_right]
    exact fun cp hcp =>
      attributeValueToJson_isOk _ <| (h.bundles bundle hbundle sp hsp pp hpp).2 cp hcp
  · exact fun body hbody cp hcp => attributeValueToJson_isOk _ <| h.bodies body hbody cp hcp

theorem singleton_promiseType_nodup (sp : PromiseType) : ([sp].map PromiseType.name).Nodup :=
  List.nodup_singleton _

-- A bundle with one promise type.
def agentMain (promises : List Promise) : Policy where
  bundles := [{
    type := ['a', 'g', 'e', 'n', 't']
    name := ['m', 'a', 'i', 'n']
    ns := ['d', 'e', 'f', 'a', 'u', 'l', 't']
    args := []
    promiseTypes := ⟨[⟨['f', 'i', 'l', 'e', 's'], promises, 0⟩], singleton_promiseType_nodup _⟩
    sourcePath := none
    line := 0 }]
  bodies := []

theorem agentMain_parsed {promises : List Promise}
    (h : ∀ pp ∈ promises, (pp.promisee = .nopromisee ∨ pp.promisee.isValue) ∧
      ∀ cp ∈ pp.conlist, cp.rval.isValue) : Parsed (agentMain promises) where
  bundles := by
    rintro _ (_ | ⟨_, ⟨⟩⟩) _ (_ | ⟨_, ⟨⟩⟩) pp hpp
    exact h pp hpp
  bodies := nofun

theorem policyToJson_agentMain_nil :
    Parsed (agentMain []) ∧ policyToJson (agentMain []) = .error .nullString :=
  ⟨agentMain_parsed nofun, rfl⟩

theorem anyClass_ne_nil : anyClass ≠ [] :=
  List.cons_ne_nil _ _

-- "/tmp" -> "me".
def promiseToMe : Promise where
  classes    := anyClass
  classes_ne := anyClass_ne_nil
  promiser   := ['/', 't', 'm', 'p']
  promisee   := .scalar ['m', 'e']
  conlist    := []
  line       := 0

-- On linux, "/etc" with a body and a list that holds a call.
def promiseOfEtc (promisee : Rval) : Promise where
  classes    := "linux".toList
  classes_ne := by decide
  promiser   := "/etc".toList
  promisee   := promisee
  conlist    := [
    { lval := "perms".toList, rval := .scalar "system".toList, classes := "linux".toList,
      referencesBody := true, line := 3 },
    { lval := "depends_on".toList,
      rval := .list [.scalar "users".toList, .fnCall "canonify".toList [.scalar "host".toList]],
      classes := "linux".toList, referencesBody := false, line := 4 }]
  line       := 2

def permsSystem : Body where
  type       := "perms".toList
  name       := "system".toList
  ns         := "default".toList
  args       := []
  conlist    := [
    { lval := "mode".toList, rval := .scalar "644".toList, classes := anyClass,
      referencesBody := false, line := 8 }]
  sourcePath := none
  line       := 7

-- Two promises of files, and the body that one of them refers to.
def filesPolicy (promisee : Rval) : Policy :=
  { agentMain [{ promiseToMe with promisee := promisee }, promiseOfEtc promisee] with
    bodies := [permsSystem] }

theorem filesPolicy_parsed {promisee : Rval} (h : promisee = .nopromisee ∨ promisee.isValue) :
    Parsed (filesPolicy promisee) where
  bundles := by
    refine (agentMain_parsed fun pp hpp => ?_).bundles
    rcases hpp with _ | ⟨_, _ | ⟨_, ⟨⟩⟩⟩
    · exact ⟨h, nofun⟩
    · exact ⟨h, by simp [promiseOfEtc, Rval.isValue, Rval.areItems, Rval.isItem]⟩
  bodies := by simp [filesPolicy, permsSystem, Rval.isValue, Rval.isItem]

theorem policyToJson_filesPolicy :
    ∃ json, policyToJson (filesPolicy <| .scalar ['m', 'e']) = .ok json ∧ PolicyContextsNamed json := by
  refine (policyToJson_contextsNamed_iff <| filesPolicy_parsed <| .inr rfl).mpr ?_
  rintro _ (_ | ⟨_, ⟨⟩⟩) _ (_ | ⟨_, ⟨⟩⟩)
  refine ⟨nofun, ?_⟩
  rintro _ (_ | ⟨_, _ | ⟨_, ⟨⟩⟩⟩) <;> trivial

end Policy
end CfEngine
