import CfEngine.Libpromises.Policy.Json.Contexts
import CfEngine.Libpromises.Policy.Json.RoundTrip

namespace CfEngine
namespace Policy

-- Elements that differ in their lines only are not told apart.
def Constraint.eraseLines (cp : Constraint) : Constraint :=
  { cp with line := 0 }

def Promise.eraseLines (pp : Promise) : Promise :=
  { pp with conlist := pp.conlist.map Constraint.eraseLines, line := 0 }

def PromiseType.eraseLines (sp : PromiseType) : PromiseType :=
  { sp with promises := sp.promises.map Promise.eraseLines, line := 0 }

theorem map_eraseLines_nodup {types : List PromiseType} (h : (types.map PromiseType.name).Nodup) :
    ((types.map PromiseType.eraseLines).map PromiseType.name).Nodup := by
  rwa [List.map_map]

def Bundle.eraseLines (bundle : Bundle) : Bundle :=
  { bundle with
    promiseTypes := ⟨bundle.promiseTypes.val.map PromiseType.eraseLines,
      map_eraseLines_nodup bundle.promiseTypes.property⟩
    line := 0 }

def Body.eraseLines (body : Body) : Body :=
  { body with conlist := body.conlist.map Constraint.eraseLines, line := 0 }

section

variable {cp : Constraint} {pp : Promise} {sp : PromiseType} {bundle : Bundle} {body : Body}

theorem map_escapeJsonString_eq_self_iff {args : List CString} :
    args.map escapeJsonString = args ↔ ∀ s ∈ args, Unescaped s := by
  have h := List.map_inj_left (l := args) (f := escapeJsonString) (g := id)
  simpa only [List.map_id, id_eq, escapeJsonString_eq_self_iff] using h

theorem sourcePath_map_eq_self_iff {sourcePath : Option CString} :
    sourcePath.map escapeJsonString = sourcePath ↔ ∀ s ∈ sourcePath.toList, Unescaped s := by
  cases sourcePath <;> simp [escapeJsonString_eq_self_iff]

theorem Constraint.reread_eq_iff {classes : CString} {referencesBody : Bool}
    (h : cp.rval ≠ .nopromisee) :
    cp.reread classes referencesBody = cp.eraseLines ↔
      Unescaped cp.lval ∧ (cp.rval.isValue ∧ ∀ s ∈ cp.rval.strings, Unescaped s) ∧
        escapeJsonString classes = cp.classes ∧ referencesBody = cp.referencesBody := by
  rw [reread, constraintNew, eraseLines, mk.injEq, escapeJsonString_eq_self_iff,
    Rval.reread_eq_self_iff h]
  simp

theorem Constraint.rereadInBody_eq_iff (h : cp.rval ≠ .nopromisee) :
    cp.rereadInBody = cp.eraseLines ↔
      (∀ s ∈ cp.strings, Unescaped s) ∧ cp.rval.isValue ∧ cp.referencesBody = false := by
  rw [rereadInBody, reread_eq_iff h, strings, List.forall_mem_cons, List.forall_mem_cons,
    escapeJsonString_eq_self_iff]
  grind

-- The constraints of a promise that is read back unchanged.
def ConstraintKept (pp : Promise) (cp : Constraint) : Prop :=
  cp.rval.isValue ∧ cp.classes = pp.classes ∧ (cp.referencesBody → cp.rval.isScalar)

theorem Constraint.reread_eq_iff_kept (h : cp.rval ≠ .nopromisee) (hc : Unescaped pp.classes) :
    cp.reread pp.classes (cp.referencesBody && cp.rval.isScalar) = cp.eraseLines ↔
      (∀ s ∈ cp.strings, Unescaped s) ∧ ConstraintKept pp cp := by
  rw [reread_eq_iff h, strings, List.forall_mem_cons, List.forall_mem_cons, ConstraintKept,
    escapeJsonString_eq_self_iff.mpr hc]
  grind

theorem Promise.reread_eq_iff (h : ∀ cp ∈ pp.conlist, cp.rval ≠ .nopromisee) :
    pp.reread = pp.eraseLines ↔
      (∀ s ∈ pp.strings, Unescaped s) ∧ pp.promisee = .nopromisee ∧
        ∀ cp ∈ pp.conlist, ConstraintKept pp cp := by
  rw [reread, promiseNew, dif_pos <| escapeJsonString_ne_nil pp.classes_ne, eraseLines, mk.injEq,
    escapeJsonString_eq_self_iff, escapeJsonString_eq_self_iff, List.map_inj_left, strings,
    List.forall_mem_append, List.forall_mem_cons, List.forall_mem_cons, List.forall_mem_flatMap]
  constructor
  case mp =>
    rintro ⟨hc, hp, hpromisee, hcon, -⟩
    have hkept cp hcp := (Constraint.reread_eq_iff_kept (h cp hcp) hc).mp (hcon cp hcp)
    refine ⟨⟨⟨hp, hc, ?_⟩, fun cp hcp => (hkept cp hcp).1⟩, hpromisee.symm,
      fun cp hcp => (hkept cp hcp).2⟩
    exact hpromisee ▸ fun s hs => absurd hs List.not_mem_nil
  case mpr =>
    rintro ⟨⟨⟨hp, hc, -⟩, hs⟩, hpromisee, hkept⟩
    exact ⟨hc, hp, hpromisee.symm, fun cp hcp =>
      (Constraint.reread_eq_iff_kept (h cp hcp) hc).mpr ⟨hs cp hcp, hkept cp hcp⟩, rfl⟩

-- The promises of a promise type that are read back unchanged.
def PromiseKept (pp : Promise) : Prop :=
  pp.promisee = .nopromisee ∧ ∀ cp ∈ pp.conlist, ConstraintKept pp cp

theorem PromiseType.reread_eq_iff
    (h : ∀ pp ∈ sp.promises, ∀ cp ∈ pp.conlist, cp.rval ≠ .nopromisee) :
    sp.reread = sp.eraseLines ↔
      (∀ s ∈ sp.strings, Unescaped s) ∧ ∀ pp ∈ sp.promises, PromiseKept pp := by
  rw [reread, eraseLines, mk.injEq, escapeJsonString_eq_self_iff, List.map_inj_left, strings,
    List.forall_mem_cons, List.forall_mem_flatMap, and_assoc, and_iff_left rfl, ← forall₂_and]
  exact and_congr_right fun _ => forall₂_congr fun pp hpp => Promise.reread_eq_iff (h pp hpp)

theorem Bundle.reread_eq_iff
    (h : ∀ sp ∈ bundle.promiseTypes.val, ∀ pp ∈ sp.promises, ∀ cp ∈ pp.conlist,
      cp.rval ≠ .nopromisee) :
    bundle.reread = bundle.eraseLines ↔
      (∀ s ∈ bundle.strings, Unescaped s) ∧
        ∀ sp ∈ bundle.promiseTypes.val, ∀ pp ∈ sp.promises, PromiseKept pp := by
  have htypes : bundle.promiseTypes.val.map PromiseType.reread =
      bundle.promiseTypes.val.map PromiseType.eraseLines ↔
      (∀ sp ∈ bundle.promiseTypes.val, ∀ s ∈ sp.strings, Unescaped s) ∧
        ∀ sp ∈ bundle.promiseTypes.val, ∀ pp ∈ sp.promises, PromiseKept pp := by
    rw [List.map_inj_left, ← forall₂_and]
    exact forall₂_congr fun sp hsp => PromiseType.reread_eq_iff (h sp hsp)
  rw [reread, eraseLines, mk.injEq, Subtype.mk.injEq, htypes, escapeJsonString_eq_self_iff,
    escapeJsonString_eq_self_iff, escapeJsonString_eq_self_iff, map_escapeJsonString_eq_self_iff,
    sourcePath_map_eq_self_iff, strings]
  simp only [List.forall_mem_append, List.forall_mem_cons, List.forall_mem_flatMap]
  grind

theorem Body.reread_eq_iff (h : ∀ cp ∈ body.conlist, cp.rval ≠ .nopromisee) :
    body.reread = body.eraseLines ↔
      (∀ s ∈ body.strings, Unescaped s) ∧
        ∀ cp ∈ body.conlist, cp.rval.isValue ∧ cp.referencesBody = false := by
  have hconlist : body.conlist.map Constraint.rereadInBody =
      body.conlist.map Constraint.eraseLines ↔
      (∀ cp ∈ body.conlist, ∀ s ∈ cp.strings, Unescaped s) ∧
        ∀ cp ∈ body.conlist, cp.rval.isValue ∧ cp.referencesBody = false := by
    rw [List.map_inj_left, ← forall₂_and]
    exact forall₂_congr fun cp hcp => Constraint.rereadInBody_eq_iff (h cp hcp)
  rw [reread, eraseLines, mk.injEq, hconlist, escapeJsonString_eq_self_iff,
    escapeJsonString_eq_self_iff, escapeJsonString_eq_self_iff, map_escapeJsonString_eq_self_iff,
    sourcePath_map_eq_self_iff, strings]
  simp only [List.forall_mem_append, List.forall_mem_cons, List.forall_mem_flatMap]
  grind

end

-- No line is read back.
theorem Promise.eraseLines_reread (pp : Promise) : pp.reread.eraseLines = pp.reread := by
  rw [reread, promiseNew, dif_pos <| escapeJsonString_ne_nil pp.classes_ne, eraseLines, mk.injEq,
    List.map_map]
  exact ⟨rfl, rfl, rfl, List.map_congr_left fun _ _ => rfl, rfl⟩

theorem PromiseType.eraseLines_reread (sp : PromiseType) : sp.reread.eraseLines = sp.reread := by
  rw [reread, eraseLines, mk.injEq, List.map_map]
  exact ⟨rfl, List.map_congr_left fun pp _ => pp.eraseLines_reread, rfl⟩

theorem Bundle.eraseLines_reread (bundle : Bundle) : bundle.reread.eraseLines = bundle.reread := by
  have htypes : (bundle.promiseTypes.val.map PromiseType.reread).map PromiseType.eraseLines =
      bundle.promiseTypes.val.map PromiseType.reread := by
    rw [List.map_map]
    exact List.map_congr_left fun sp _ => sp.eraseLines_reread
  simp only [eraseLines, reread, htypes]

theorem Body.eraseLines_reread (body : Body) : body.reread.eraseLines = body.reread := by
  have hconlist : (body.conlist.map Constraint.rereadInBody).map Constraint.eraseLines =
      body.conlist.map Constraint.rereadInBody := by
    rw [List.map_map]
    rfl
  simp only [eraseLines, reread, hconlist]

theorem attributeValueToJson_ne_nopromisee {r : Rval} {symbolicReference : Bool}
    (h : ∃ json, attributeValueToJson r symbolicReference = .ok json) : r ≠ .nopromisee := by
  rintro rfl
  exact absurd h nofun

def eraseLines (policy : Policy) : Policy where
  bundles := policy.bundles.map Bundle.eraseLines
  bodies  := policy.bodies.map Body.eraseLines

-- The policies that an export keeps: no string needs an escape, no promise has a promisee, the
-- constraints of a promise have its class context, no list is part of a value, and only scalars of
-- promises refer to bodies.
structure Kept (policy : Policy) : Prop where
  strings : ∀ s ∈ policy.strings, Unescaped s
  bundles : ∀ bundle ∈ policy.bundles, ∀ sp ∈ bundle.promiseTypes.val, ∀ pp ∈ sp.promises,
    PromiseKept pp
  bodies  : ∀ body ∈ policy.bodies, ∀ cp ∈ body.conlist,
    cp.rval.isValue ∧ cp.referencesBody = false

theorem eraseLines_reread (policy : Policy) : policy.reread.eraseLines = policy.reread := by
  rw [reread, eraseLines, List.map_map, List.map_map, mk.injEq]
  exact ⟨List.map_congr_left fun bundle _ => bundle.eraseLines_reread,
    List.map_congr_left fun body _ => body.eraseLines_reread⟩

theorem reread_eq_iff {policy : Policy} {json : JsonElement} (h : policyToJson policy = .ok json) :
    policy.reread = policy.eraseLines ↔ Kept policy := by
  obtain ⟨hbundles, hbodies⟩ := policyToJson_isOk_iff.mp ⟨json, h⟩
  have hbundles' : policy.bundles.map Bundle.reread = policy.bundles.map Bundle.eraseLines ↔
      (∀ bundle ∈ policy.bundles, ∀ s ∈ bundle.strings, Unescaped s) ∧
        ∀ bundle ∈ policy.bundles, ∀ sp ∈ bundle.promiseTypes.val, ∀ pp ∈ sp.promises,
          PromiseKept pp := by
    rw [List.map_inj_left, ← forall₂_and]
    refine forall₂_congr fun bundle hbundle => Bundle.reread_eq_iff fun sp hsp pp hpp cp hcp => ?_
    have hpp := promiseToJson_isOk_iff.mp <| (hbundles bundle hbundle sp hsp).2 pp hpp
    exact attributeValueToJson_ne_nopromisee <| hpp.1 cp hcp
  have hbodies' : policy.bodies.map Body.reread = policy.bodies.map Body.eraseLines ↔
      (∀ body ∈ policy.bodies, ∀ s ∈ body.strings, Unescaped s) ∧
        ∀ body ∈ policy.bodies, ∀ cp ∈ body.conlist, cp.rval.isValue ∧ cp.referencesBody = false := by
    rw [List.map_inj_left, ← forall₂_and]
    exact forall₂_congr fun body hbody => Body.reread_eq_iff fun cp hcp =>
      attributeValueToJson_ne_nopromisee <| hbodies body hbody cp hcp
  rw [reread, eraseLines, mk.injEq, hbundles', hbodies']
  constructor
  case mp =>
    rintro ⟨⟨hs, hkept⟩, hs', hkept'⟩
    refine ⟨?_, hkept, hkept'⟩
    rw [Policy.strings, List.forall_mem_append, List.forall_mem_flatMap, List.forall_mem_flatMap]
    exact ⟨hs, hs'⟩
  case mpr =>
    rintro ⟨hs, hkept, hkept'⟩
    rw [Policy.strings, List.forall_mem_append, List.forall_mem_flatMap,
      List.forall_mem_flatMap] at hs
    exact ⟨⟨hs.1, hkept⟩, hs.2, hkept'⟩

theorem Kept.policyToJson_isOk {policy : Policy} (h : Kept policy)
    (hne : ∀ bundle ∈ policy.bundles, ∀ sp ∈ bundle.promiseTypes.val, sp.promises ≠ []) :
    ∃ json, policyToJson policy = .ok json := by
  refine policyToJson_isOk_iff.mpr ⟨fun bundle hbundle sp hsp => ⟨hne bundle hbundle sp hsp,
    fun pp hpp => promiseToJson_isOk_iff.mpr ?_⟩,
    fun body hbody cp hcp => attributeValueToJson_isOk _ (h.bodies body hbody cp hcp).1⟩
  obtain ⟨hpromisee, hconlist⟩ := h.bundles bundle hbundle sp hsp pp hpp
  exact ⟨fun cp hcp => attributeValueToJson_isOk _ (hconlist cp hcp).1, hpromisee ▸ trivial⟩

-- A policy that has been read back from its export is the same up to lines.
def RoundTrips (policy : Policy) : Prop :=
  ∃ json policy', policyToJson policy = .ok json ∧ policyFromJson json = some policy' ∧
    policy'.eraseLines = policy.eraseLines

theorem roundTrips_iff {policy : Policy}
    (hne : ∀ bundle ∈ policy.bundles, ∀ sp ∈ bundle.promiseTypes.val, sp.promises ≠ [])
    (hs : ∀ s ∈ policy.strings, Plain s) : RoundTrips policy ↔ Kept policy := by
  constructor
  case mp =>
    rintro ⟨json, policy', hto, hfrom, heq⟩
    cases (policyFromJson_policyToJson hs hto).symm.trans hfrom
    exact (reread_eq_iff hto).mp <| (eraseLines_reread policy).symm.trans heq
  case mpr =>
    intro h
    obtain ⟨json, hto⟩ := h.policyToJson_isOk hne
    exact ⟨json, _, hto, policyFromJson_policyToJson hs hto,
      (eraseLines_reread policy).trans <| (reread_eq_iff hto).mpr h⟩

theorem roundTrips_filesPolicy : RoundTrips (filesPolicy .nopromisee) := by
  refine (roundTrips_iff ?_ <| by decide).mpr ⟨by decide, ?_, by decide⟩
  · rintro _ (_ | ⟨_, ⟨⟩⟩) _ (_ | ⟨_, ⟨⟩⟩)
    exact nofun
  · rintro _ (_ | ⟨_, ⟨⟩⟩) _ (_ | ⟨_, ⟨⟩⟩) _ (_ | ⟨_, _ | ⟨_, ⟨⟩⟩⟩)
    · exact ⟨rfl, nofun⟩
    · refine ⟨rfl, ?_⟩
      rintro _ (_ | ⟨_, _ | ⟨_, ⟨⟩⟩⟩)
      · exact ⟨rfl, rfl, fun _ => rfl⟩
      · exact ⟨rfl, rfl, nofun⟩

-- The promisee is lost.
theorem promiseToMe_not_roundTrips :
    (∀ bundle ∈ (agentMain [promiseToMe]).bundles, ∀ sp ∈ bundle.promiseTypes.val,
      sp.promises ≠ []) ∧
    (∀ s ∈ (agentMain [promiseToMe]).strings, Plain s) ∧ ¬RoundTrips (agentMain [promiseToMe]) := by
  have hs : ∀ s ∈ (agentMain [promiseToMe]).strings, Plain s := by decide
  refine ⟨?_, hs, ?_⟩
  · rintro _ (_ | ⟨_, ⟨⟩⟩) _ (_ | ⟨_, ⟨⟩⟩)
    exact nofun
  · rintro ⟨json, policy', hto, hfrom, heq⟩
    cases (policyFromJson_policyToJson hs hto).symm.trans hfrom
    have hkept := (reread_eq_iff hto).mp <| (eraseLines_reread _).symm.trans heq
    have := hkept.bundles _ List.mem_cons_self _ List.mem_cons_self _ List.mem_cons_self
    exact absurd this.1 nofun

end Policy
end CfEngine
