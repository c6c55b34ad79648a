import CfEngine.Libpromises.Policy.Json.Values
import Mathlib.Data.List.Nodup

namespace CfEngine
namespace Policy

section

variable {α β : Type} {childrenName : String} {classes : α → CString}
  {toJson : α → Except ExportError JsonElement} {fromJson : JsonElement → CString → Option β}
  {reread : α → β}

-- What is read from an exported element in its context.
def RereadIn (classes : α → CString) (toJson : α → Except ExportError JsonElement)
    (fromJson : JsonElement → CString → Option β) (reread : α → β) (x : α) : Prop :=
  ∀ json, toJson x = .ok json → fromJson json (escapeJsonString <| classes x) = some (reread x)

theorem contextsFromJson_append {contexts contexts' : List JsonElement} {xs xs' : List β}
    (h : contextsFromJson childrenName fromJson contexts = some xs)
    (h' : contextsFromJson childrenName fromJson contexts' = some xs') :
    contextsFromJson childrenName fromJson (contexts ++ contexts') = some (xs ++ xs') := by
  obtain ⟨children, hc, h⟩ := Option.bind_eq_some_iff.mp h
  obtain ⟨children', hc', h'⟩ := Option.bind_eq_some_iff.mp h'
  cases h
  cases h'
  rw [contextsFromJson, List.mapM_append, hc, hc', ← List.flatten_append]
  rfl

theorem contextsFromJson_singleton {name : CString} {context : JsonElement}
    {children : List JsonElement} {xs : List β} (hne : childrenName ≠ "name")
    (hc : createContextAsJson name childrenName children = .ok context)
    (h : children.mapM (fromJson · <| escapeJsonString name) = some xs) :
    contextsFromJson childrenName fromJson [context] = some xs := by
  cases hc
  have hne' : "name".toList ≠ childrenName.toList := fun h => hne <| String.toList_injective h.symm
  have hf : [stringProperty "name" name, (childrenName.toList, JsonElement.array children)].find?
      (·.1 = childrenName.toList) = some (childrenName.toList, .array children) := by
    rw [List.find?_cons_of_neg, List.find?_cons_of_pos]
    · simp
    · exact fun h => hne' <| of_decide_eq_true h
  have ha : (JsonElement.object [stringProperty "name" name,
      (childrenName.toList, .array children)]).getArray childrenName = some children := by
    rw [JsonElement.getArray, JsonElement.jsonObjectGetAsArray, JsonElement.lookup, hf]
    rfl
  have hn : (JsonElement.object [stringProperty "name" name,
      (childrenName.toList, .array children)]).getString "name" = some (escapeJsonString name) := rfl
  simp only [contextsFromJson, List.mapM_cons, List.mapM_nil, hn, ha, h, Option.bind_eq_bind,
    Option.bind_some, Option.pure_def, List.flatten_singleton]

-- The contexts so far and the children of the current one are what has been read back.
theorem contextsFromJson_contextsToJson {contexts children : List JsonElement} {current : CString}
    {xs : List α} {out : List JsonElement} {ys zs : List β} (hne : childrenName ≠ "name")
    (hx : ∀ x ∈ xs, RereadIn classes toJson fromJson reread x)
    (hy : contextsFromJson childrenName fromJson contexts = some ys)
    (hz : children.mapM (fromJson · <| escapeJsonString current) = some zs)
    (h : contextsToJson childrenName classes toJson contexts children current xs = .ok out) :
    contextsFromJson childrenName fromJson out = some (ys ++ zs ++ xs.map reread) := by
  induction xs generalizing contexts children current ys zs
  case nil =>
    obtain ⟨context, hc, h⟩ := Except.bind_eq_ok_iff.mp h
    cases h
    rw [List.map_nil, List.append_nil]
    exact contextsFromJson_append hy <| contextsFromJson_singleton hne hc hz
  case cons x xs ih =>
    obtain ⟨hx, hxs⟩ := List.forall_mem_cons.mp hx
    rw [contextsToJson, Option.getD_some] at h
    split at h
    case isTrue =>
      obtain ⟨context, hc, h⟩ := Except.bind_eq_ok_iff.mp h
      obtain ⟨child, hchild, h⟩ := Except.bind_eq_ok_iff.mp h
      have hz' : [child].mapM (fromJson · <| escapeJsonString <| classes x) = some [reread x] := by
        rw [List.mapM_cons, hx child hchild]
        rfl
      have hy' := contextsFromJson_append hy <| contextsFromJson_singleton hne hc hz
      rw [ih hxs hy' hz' h]
      simp
    case isFalse heq =>
      obtain ⟨child, hchild, h⟩ := Except.bind_eq_ok_iff.mp h
      cases CString.strcmp_eq_zero_iff.mp <| Decidable.not_not.mp heq
      have hz' : (children ++ [child]).mapM (fromJson · <| escapeJsonString <| classes x) =
          some (zs ++ [reread x]) := by
        rw [List.mapM_append, hz, List.mapM_cons, hx child hchild]
        rfl
      rw [ih hxs hy hz' h]
      simp

end

-- What is read back where an element has been exported. The context of a promise becomes that of its
-- constraints.
def Constraint.reread (cp : Constraint) (classes : CString) (referencesBody : Bool) : Constraint :=
  constraintNew (escapeJsonString cp.lval) cp.rval.reread (escapeJsonString classes) referencesBody

def Constraint.rereadInBody (cp : Constraint) : Constraint :=
  cp.reread cp.classes false

def Promise.reread (pp : Promise) : Promise :=
  promiseNew (escapeJsonString pp.promiser) .nopromisee (escapeJsonString pp.classes) <|
    pp.conlist.map fun cp => cp.reread pp.classes (cp.referencesBody && cp.rval.isScalar)

def PromiseType.reread (sp : PromiseType) : PromiseType :=
  { name := escapeJsonString sp.name, promises := sp.promises.map Promise.reread, line := 0 }

theorem map_name_reread (types : List PromiseType) :
    (types.map PromiseType.reread).map PromiseType.name =
      (types.map PromiseType.name).map escapeJsonString := by
  rw [List.map_map, List.map_map]
  rfl

theorem map_reread_nodup {types : List PromiseType} (h : (types.map PromiseType.name).Nodup) :
    ((types.map PromiseType.reread).map PromiseType.name).Nodup :=
  map_name_reread types ▸ h.map escapeJsonString_injective

def Bundle.reread (bundle : Bundle) : Bundle where
  type         := escapeJsonString bundle.type
  name         := escapeJsonString bundle.name
  ns           := escapeJsonString bundle.ns
  args         := bundle.args.map escapeJsonString
  promiseTypes := ⟨bundle.promiseTypes.val.map PromiseType.reread,
    map_reread_nodup bundle.promiseTypes.property⟩
  sourcePath   := bundle.sourcePath.map escapeJsonString
  line         := 0

def Body.reread (body : Body) : Body where
  type       := escapeJsonString body.type
  name       := escapeJsonString body.name
  ns         := escapeJsonString body.ns
  args       := body.args.map escapeJsonString
  conlist    := body.conlist.map Constraint.rereadInBody
  sourcePath := body.sourcePath.map escapeJsonString
  line       := 0

def Constraint.strings (cp : Constraint) : List CString :=
  cp.lval :: cp.classes :: cp.rval.strings

def Promise.strings (pp : Promise) : List CString :=
  pp.promiser :: pp.classes :: pp.promisee.strings ++ pp.conlist.flatMap Constraint.strings

def PromiseType.strings (sp : PromiseType) : List CString :=
  sp.name :: sp.promises.flatMap Promise.strings

def Bundle.strings (bundle : Bundle) : List CString :=
  bundle.type :: bundle.name :: bundle.ns :: bundle.args ++ bundle.sourcePath.toList ++
    bundle.promiseTypes.val.flatMap PromiseType.strings

def Body.strings (body : Body) : List CString :=
  body.type :: body.name :: body.ns :: body.args ++ body.sourcePath.toList ++
    body.conlist.flatMap Constraint.strings

theorem constraintFromJson_constraintToJson {cp : Constraint} {symbolicReference : Bool}
    {json : JsonElement} (context : CString) (hs : ∀ s ∈ cp.strings, Plain s)
    (h : constraintToJson cp symbolicReference = .ok json) :
    constraintFromJson json (escapeJsonString context) =
      some (cp.reread context (symbolicReference && cp.rval.isScalar)) := by
  obtain ⟨rval, hrval, h⟩ := Except.bind_eq_ok_iff.mp h
  cases h
  have hs' : ∀ s ∈ cp.rval.strings, Plain s :=
    fun s h => hs s <| List.mem_cons_of_mem _ <| List.mem_cons_of_mem _ h
  obtain ⟨⟨children, rfl⟩, htype, hrval'⟩ := rvalFromJson_attributeValueToJson cp.rval hrval hs'
  have hsymbol : decide (rvalTypeName symbolicReference cp.rval = "symbol".toList) =
      (symbolicReference && cp.rval.isScalar) := by
    rcases cp.rval with item | items | ⟨name, args⟩ | - <;> cases symbolicReference <;> rfl
  change (JsonElement.getString (.object children) "type" >>= fun type =>
    rvalFromJson (.object children) >>= fun rval => some (constraintNew (escapeJsonString cp.lval)
      rval (escapeJsonString context) (type = "symbol".toList))) = _
  rw [htype, hrval', Constraint.reread, ← hsymbol]
  rfl

theorem mapM_jsonGetAsString (args : List CString) :
    (args.map JsonElement.jsonStringCreate).mapM (·.jsonGetAsString) =
      some (args.map escapeJsonString) := by
  induction args
  case nil            => rfl
  case cons arg _ ih =>
    rw [List.map_cons, List.mapM_cons, ih]
    rfl

theorem escapeJsonString_ne_nil {s : CString} (h : s ≠ []) : escapeJsonString s ≠ [] := by
  intro he
  have := length_le_length_escapeJsonString s
  rw [he] at this
  exact h <| List.eq_nil_of_length_eq_zero <| Nat.le_zero.mp this

-- The promisee does not hide the attributes.
theorem getArray_promisee {promisee : Rval} {properties : List (CString × JsonElement)}
    (h : promiseeToJson promisee = .ok properties) (attributes : List JsonElement) :
    (JsonElement.object <| properties ++ [("attributes".toList, .array attributes)]).getArray
      "attributes" = some attributes := by
  rcases promisee with item | items | ⟨name, args⟩ | -
  · cases h
    rfl
  · obtain ⟨promiseeList, -, h⟩ := Except.bind_eq_ok_iff.mp h
    cases h
    rfl
  · cases h
    rfl
  · cases h
    rfl

theorem promiseFromJson_promiseToJson {pp : Promise} (hs : ∀ s ∈ pp.strings, Plain s) :
    RereadIn Promise.classes promiseToJson promiseFromJson Promise.reread pp := by
  intro json h
  obtain ⟨attributes, ha, h⟩ := Except.bind_eq_ok_iff.mp h
  obtain ⟨promisee, hp, h⟩ := Except.bind_eq_ok_iff.mp h
  cases h
  have hconlist : attributes.mapM (constraintFromJson · <| escapeJsonString pp.classes) =
      some (pp.conlist.map fun cp =>
        cp.reread pp.classes (cp.referencesBody && cp.rval.isScalar)) := by
    refine Option.mapM_eq_some_of_mapM_eq_ok ha fun cp hcp json hjson => ?_
    refine constraintFromJson_constraintToJson _ (fun s h => hs s ?_) hjson
    exact List.mem_append_right _ <| List.mem_flatMap.mpr ⟨cp, hcp, h⟩
  have hattributes : (JsonElement.object <| [lineProperty pp.line,
      stringProperty "promiser" pp.promiser] ++ promisee ++
        [("attributes".toList, .array attributes)]).getArray "attributes" = some attributes := by
    have hpromisee := getArray_promisee hp attributes
    exact hpromisee
  change (JsonElement.getArray _ _ >>= fun attributes =>
    attributes.mapM (constraintFromJson · <| escapeJsonString pp.classes) >>= fun conlist =>
      some (promiseNew (escapeJsonString pp.promiser) .nopromisee (escapeJsonString pp.classes)
        conlist)) = _
  rw [hattributes, Option.bind_eq_bind, Option.bind_some, hconlist]
  rfl

-- Nothing is exported for a promise type without promises, so that the first promise gives the
-- current context.
theorem contextsFromJson_bundleContextsToJson {promises : List Promise} {contexts : List JsonElement}
    (hs : ∀ pp ∈ promises, ∀ s ∈ pp.strings, Plain s)
    (h : bundleContextsToJson promises = .ok contexts) :
    contextsFromJson "promises" promiseFromJson contexts = some (promises.map Promise.reread) := by
  rcases promises with _ | ⟨pp, promises⟩
  · exact absurd h nofun
  · have h' : contextsToJson "promises" Promise.classes promiseToJson [] [] (some pp.classes)
        (pp :: promises) = .ok contexts := by
      rw [bundleContextsToJson, contextsToJson] at h
      rw [contextsToJson]
      exact h
    exact contextsFromJson_contextsToJson (by decide)
      (fun pp hpp => promiseFromJson_promiseToJson <| hs pp hpp) rfl rfl h'

theorem contextsFromJson_bodyContextsToJson {constraints : List Constraint}
    {contexts : List JsonElement} (hs : ∀ cp ∈ constraints, ∀ s ∈ cp.strings, Plain s)
    (h : bodyContextsToJson constraints = .ok contexts) :
    contextsFromJson "attributes" constraintFromJson contexts =
      some (constraints.map Constraint.rereadInBody) :=
  contextsFromJson_contextsToJson (by decide)
    (fun cp hcp _ h => constraintFromJson_constraintToJson cp.classes (hs cp hcp) h) rfl rfl h

-- A promise type with a new name comes last, with its promises.
theorem promiseTypeAppendPromises_new {types : PromiseTypes} {name : CString}
    {promises : List Promise} (h : name ∉ types.val.map PromiseType.name) :
    (promiseTypeAppendPromises (bundleAppendPromiseType types name) name promises).val =
      types.val ++ [{ name, promises, line := 0 }] := by
  have hany : types.val.any (CString.strcmp ·.name name = 0) = false := by
    rw [List.any_eq_false]
    intro existing hmem
    simp only [CString.strcmp_eq_zero_iff, decide_eq_true_eq]
    rintro rfl
    exact h <| List.mem_map_of_mem hmem
  have hold : types.val.map (withPromises name promises) = types.val := by
    refine (List.map_congr_left fun type hmem => ?_).trans <| List.map_id _
    exact if_neg fun hname : type.name = name => h <| hname ▸ List.mem_map_of_mem hmem
  simp only [promiseTypeAppendPromises, bundleAppendPromiseType, withPromiseType, hany]
  rw [if_neg (by simp), List.map_append, hold, List.map_singleton, withPromises, if_pos rfl]
  rfl

theorem bundleAppendPromiseTypeJson_promiseTypeToJson {types : PromiseTypes} {sp : PromiseType}
    {json : JsonElement} (hs : ∀ s ∈ sp.strings, Plain s) (h : promiseTypeToJson sp = .ok json)
    (hname : escapeJsonString sp.name ∉ types.val.map PromiseType.name) :
    ∃ out, bundleAppendPromiseTypeJson types json = some out ∧
      out.val = types.val ++ [sp.reread] := by
  obtain ⟨contexts, hcontexts, h⟩ := Except.bind_eq_ok_iff.mp h
  cases h
  refine ⟨_, ?_, promiseTypeAppendPromises_new hname⟩
  change (contextsFromJson "promises" promiseFromJson contexts >>= fun promises => some <|
    promiseTypeAppendPromises (bundleAppendPromiseType types (escapeJsonString sp.name))
      (escapeJsonString sp.name) promises) = _
  rw [contextsFromJson_bundleContextsToJson (fun pp hpp s h => hs s ?_) hcontexts]
  · rfl
  · exact List.mem_cons_of_mem _ <| List.mem_flatMap.mpr ⟨pp, hpp, h⟩

theorem foldlM_bundleAppendPromiseTypeJson {types : List PromiseType} {jsons : List JsonElement}
    (start : PromiseTypes) (hs : ∀ sp ∈ types, ∀ s ∈ sp.strings, Plain s)
    (h : types.mapM promiseTypeToJson = .ok jsons)
    (hnames : ((start.val ++ types.map PromiseType.reread).map PromiseType.name).Nodup) :
    ∃ out, jsons.foldlM bundleAppendPromiseTypeJson start = some out ∧
      out.val = start.val ++ types.map PromiseType.reread := by
  induction types generalizing jsons start
  case nil =>
    cases h
    exact ⟨start, rfl, (List.append_nil _).symm⟩
  case cons sp types ih =>
    rw [List.mapM_cons] at h
    obtain ⟨json, hjson, h⟩ := Except.bind_eq_ok_iff.mp h
    obtain ⟨jsons, hjsons, h⟩ := Except.bind_eq_ok_iff.mp h
    cases h
    obtain ⟨hsp, hs⟩ := List.forall_mem_cons.mp hs
    have hname : escapeJsonString sp.name ∉ start.val.map PromiseType.name := by
      rw [List.map_append, List.nodup_append] at hnames
      exact fun hmem => hnames.2.2 _ hmem _ List.mem_cons_self rfl
    obtain ⟨next, hnext, hval⟩ :=
      bundleAppendPromiseTypeJson_promiseTypeToJson hsp hjson hname
    have happ : next.val ++ types.map PromiseType.reread =
        start.val ++ (sp :: types).map PromiseType.reread := by
      rw [hval, List.map_cons, List.append_assoc, List.singleton_append]
    obtain ⟨out, hout, hval'⟩ := ih next hs hjsons (happ ▸ hnames)
    refine ⟨out, ?_, hval'.trans happ⟩
    rw [List.foldlM_cons, hnext]
    exact hout

theorem bundleFromJson_bundleToJson {bundle : Bundle} {json : JsonElement}
    (hs : ∀ s ∈ bundle.strings, Plain s) (h : bundleToJson bundle = .ok json) :
    bundleFromJson json = some bundle.reread := by
  obtain ⟨types, htypes, h⟩ := Except.bind_eq_ok_iff.mp h
  cases h
  have hs' : ∀ sp ∈ bundle.promiseTypes.val, ∀ s ∈ sp.strings, Plain s := fun sp hsp s h =>
    hs s <| List.mem_append_right _ <| List.mem_flatMap.mpr ⟨sp, hsp, h⟩
  obtain ⟨out, hout, hval⟩ := foldlM_bundleAppendPromiseTypeJson ⟨[], .nil⟩ hs' htypes
    (map_reread_nodup bundle.promiseTypes.property)
  rcases bundle with ⟨type, name, ns, args, promiseTypes, sourcePath, line⟩
  obtain rfl : out = ⟨promiseTypes.val.map PromiseType.reread,
      map_reread_nodup promiseTypes.property⟩ := Subtype.ext hval
  have hargs := mapM_jsonGetAsString args
  cases sourcePath
  all_goals
    change (List.mapM _ (args.map JsonElement.jsonStringCreate) >>= fun args =>
      types.foldlM bundleAppendPromiseTypeJson ⟨[], .nil⟩ >>= fun promiseTypes => some _) = _
    rw [hargs, Option.bind_eq_bind, Option.bind_some, hout]
    rfl

theorem bodyFromJson_bodyToJson {body : Body} {json : JsonElement}
    (hs : ∀ s ∈ body.strings, Plain s) (h : bodyToJson body = .ok json) :
    bodyFromJson json = some body.reread := by
  obtain ⟨contexts, hcontexts, h⟩ := Except.bind_eq_ok_iff.mp h
  cases h
  have hs' : ∀ cp ∈ body.conlist, ∀ s ∈ cp.strings, Plain s := fun cp hcp s h =>
    hs s <| List.mem_append_right _ <| List.mem_flatMap.mpr ⟨cp, hcp, h⟩
  have hconlist := contextsFromJson_bodyContextsToJson hs' hcontexts
  rcases body with ⟨type, name, ns, args, conlist, sourcePath, line⟩
  have hargs := mapM_jsonGetAsString args
  cases sourcePath
  all_goals
    change (List.mapM _ (args.map JsonElement.jsonStringCreate) >>= fun args =>
      contextsFromJson "attributes" constraintFromJson contexts >>= fun conlist => some _) = _
    rw [hargs, Option.bind_eq_bind, Option.bind_some, hconlist]
    rfl

end Policy

def Policy.reread (policy : Policy) : Policy where
  bundles := policy.bundles.map Bundle.reread
  bodies  := policy.bodies.map Body.reread

def Policy.strings (policy : Policy) : List CString :=
  policy.bundles.flatMap Bundle.strings ++ policy.bodies.flatMap Body.strings

theorem policyFromJson_policyToJson {policy : Policy} {json : JsonElement}
    (hs : ∀ s ∈ policy.strings, Policy.Plain s) (h : policyToJson policy = .ok json) :
    policyFromJson json = some policy.reread := by
  obtain ⟨bundles, hbundles, h⟩ := Except.bind_eq_ok_iff.mp h
  obtain ⟨bodies, hbodies, h⟩ := Except.bind_eq_ok_iff.mp h
  cases h
  have hbundles' : bundles.mapM Policy.bundleFromJson = _ :=
    Option.mapM_eq_some_of_mapM_eq_ok hbundles fun bundle hmem json hjson =>
      Policy.bundleFromJson_bundleToJson (fun s h => hs s <| List.mem_append_left _ <|
        List.mem_flatMap.mpr ⟨bundle, hmem, h⟩) hjson
  have hbodies' : bodies.mapM Policy.bodyFromJson = _ :=
    Option.mapM_eq_some_of_mapM_eq_ok hbodies fun body hmem json hjson =>
      Policy.bodyFromJson_bodyToJson (fun s h => hs s <| List.mem_append_right _ <|
        List.mem_flatMap.mpr ⟨body, hmem, h⟩) hjson
  change (bundles.mapM Policy.bundleFromJson >>= fun bundles =>
    bodies.mapM Policy.bodyFromJson >>= fun bodies => some (Policy.mk bundles bodies)) = _
  rw [hbundles', hbodies']
  rfl

end CfEngine
