import CfEngine.CfAgent.AclPosix.ModeChanges
import CfEngine.Library.Outcome

namespace CfEngine

open Function (update update_self update_of_ne)

namespace AclCalls

-- What the calls do according to their documentation. The order of the entries is left open.
structure Documented (calls : AclCalls) : Prop where
  getFile     : ∀ acl acl', calls.getFile acl = some acl' → acl'.Perm acl
  init        : ∀ count acl, calls.init count = some acl → acl = []
  dup         : ∀ acl acl', calls.dup acl = some acl' → acl'.Perm acl
  createEntry : ∀ acl entity acl', calls.createEntry acl entity = some acl' → acl'.Perm (⟨entity, AclPerms.none⟩ :: acl)
  calcMask    : ∀ acl acl', acl.NodupKeys → calls.calcMask acl = some acl' →
    acl'.Perm (acl.kinsert .mask acl.groupClassPerms)

-- The calls that do not set anything succeed.
structure Succeed (calls : AclCalls) : Prop where
  getFile     : ∀ acl, calls.getFile acl ≠ none
  init        : ∀ count, calls.init count ≠ none
  dup         : ∀ acl, calls.dup acl ≠ none
  createEntry : ∀ acl entity, calls.createEntry acl entity ≠ none
  calcMask    : ∀ acl, calls.calcMask acl ≠ none

end AclCalls

-- A list of entries as a map. The promise is a change of maps.
abbrev AclMap : Type := AclEntity → Option AclPerms

-- The entity and the mode of an entry of the promise.
def aceOf (names : AclNames) (ace : CString) : Option (AclEntity × CString) :=
  match parseEntityPosixLinux names false ace with
  | some (entity, ':' :: mode, _) => some (entity, mode)
  | _                             => none

-- The modes that the promise has for an entity, in their order.
def modesOf (names : AclNames) (aces : List CString) (entity : AclEntity) : List CString :=
  aces.filterMap fun ace => (aceOf names ace).bind fun (named, mode) => if named = entity then some mode else none

def AclMethod.base (method : AclMethod) (existing : AclMap) : AclMap :=
  match method with
  | append    => existing
  | overwrite => fun _ => none

section
variable (names : AclNames) (aces : List CString)

def mergedMap (base : AclMap) : AclMap := fun entity =>
  if modesOf names aces entity = [] then
    base entity
  else
    applyModes (modesOf names aces entity) <| (base entity).getD .none

open Classical in
noncomputable def AclMap.groupClassPerms (map : AclMap) : AclPerms := fun perm =>
  decide (∃ entity perms, entity.inGroupClass = true ∧ map entity = some perms ∧ perms perm = true)

noncomputable def promisedMap (base : AclMap) : AclMap :=
  let merged := mergedMap names aces base
  if modesOf names aces .mask = [] then
    update merged .mask <| some (AclMap.groupClassPerms merged)
  else
    merged

end

variable {calls : AclCalls} {names : AclNames} {ace : CString} {aces : List CString} {has_mask : Bool}
  {acl acl' : Acl} {entity : AclEntity} {method : AclMethod} {base : AclMap}

theorem AclMap.groupClassPerms_congr {map map' : AclMap}
    (h : ∀ entity, entity.inGroupClass = true → map entity = map' entity) :
    AclMap.groupClassPerms map = AclMap.groupClassPerms map' := by
  funext perm
  unfold AclMap.groupClassPerms
  congr 1
  apply propext
  apply exists_congr
  intro entity
  apply exists_congr
  intro perms
  exact and_congr_right fun hg => by rw [h entity hg]

theorem promisedMap_of_ne_mask (h : entity ≠ .mask) :
    promisedMap names aces base entity = mergedMap names aces base entity := by
  unfold promisedMap
  split
  · exact update_of_ne h ..
  · rfl

theorem promisedMap_of_named (h : modesOf names aces entity ≠ []) :
    promisedMap names aces base entity = mergedMap names aces base entity := by
  by_cases hm : entity = .mask
  case neg => exact promisedMap_of_ne_mask hm
  case pos => rw [promisedMap, if_neg <| hm ▸ h]

-- A promise that is kept asks for nothing more.
theorem mergedMap_promisedMap :
    mergedMap names aces (promisedMap names aces base) = promisedMap names aces base := by
  funext entity
  rw [mergedMap]
  split
  case isTrue h  => rfl
  case isFalse h => rw [promisedMap_of_named h, mergedMap, if_neg h, applyModes_getD]

theorem promisedMap_promisedMap :
    promisedMap names aces (promisedMap names aces base) = promisedMap names aces base := by
  rw [promisedMap, mergedMap_promisedMap]
  split
  case isFalse   => rfl
  case isTrue h  =>
    have hg : AclMap.groupClassPerms (promisedMap names aces base) =
        AclMap.groupClassPerms (mergedMap names aces base) :=
      AclMap.groupClassPerms_congr fun entity he => promisedMap_of_ne_mask fun hm => by
        rw [hm] at he
        nomatch he
    rw [hg, promisedMap, if_pos h, Function.update_idem]

theorem promisedMap_base :
    promisedMap names aces (method.base <| promisedMap names aces <| method.base base) =
      promisedMap names aces (method.base base) := by
  cases method
  case append    => exact promisedMap_promisedMap
  case overwrite => rfl

def Acl.toMap (acl : Acl) : AclMap :=
  fun entity => acl.dlookup entity

theorem Acl.toMap_perm (hn : acl.NodupKeys) (h : acl.Perm acl') : acl.toMap = acl'.toMap :=
  funext fun entity => List.perm_dlookup entity hn h

theorem Acl.toMap_groupClassPerms (hn : acl.NodupKeys) : AclMap.groupClassPerms acl.toMap = acl.groupClassPerms := by
  funext perm
  rw [AclMap.groupClassPerms, Acl.groupClassPerms, Bool.eq_iff_iff, List.any_eq_true]
  apply (@decide_eq_true_iff _ (_)).trans
  constructor
  case mp  =>
    intro ⟨entity, perms, hg, hm, hp⟩
    exact ⟨⟨entity, perms⟩, List.of_mem_dlookup hm, Bool.and_eq_true_iff.mpr ⟨hg, hp⟩⟩
  case mpr =>
    intro ⟨ace, hmem, h⟩
    have ⟨hg, hp⟩ := Bool.and_eq_true_iff.mp h
    exact ⟨ace.1, ace.2, hg, List.mem_dlookup hn hmem, hp⟩

theorem parseEntityPosixLinux_mask : parseEntityPosixLinux names has_mask ace =
    (parseEntityPosixLinux names false ace).map fun (entity, str, _) => (entity, str, has_mask || entity = .mask) := by
  have hname {find : CString → Option UInt32} {obj : AclEntity} {named : UInt32 → AclEntity} {ids str : CString}
      (hobj : obj ≠ .mask) (hnamed : ∀ id, named id ≠ .mask) :
      ((AclNames.entity find obj named ids).map fun entity => (entity, str, has_mask)) =
        ((AclNames.entity find obj named ids).map fun entity => (entity, str, false)).map
          fun (entity, str, _) => (entity, str, has_mask || entity = .mask) := by
    unfold AclNames.entity
    split
    · simp [hobj]
    · cases find ids <;> simp [hnamed]
  unfold parseEntityPosixLinux
  split
  · exact hname nofun nofun
  · exact hname nofun nofun
  · simp
  · simp
  · rfl

theorem currentACE_some (hc : calls.Documented) (hn : acl.NodupKeys) {perms : AclPerms}
    (h : currentACE calls acl entity = some (acl', perms)) : acl'.NodupKeys ∧
      perms = (acl.toMap entity).getD .none ∧ ∀ perms', Acl.toMap (acl'.kreplace entity perms') = update acl.toMap entity (some perms') := by
  unfold currentACE findACE at h
  cases hf : acl.dlookup entity
  case some perms₀ =>
    rw [hf] at h
    cases h
    refine ⟨hn, by rw [Acl.toMap, hf]; rfl, fun perms' => funext fun entity' => ?_⟩
    by_cases he : entity' = entity
    case pos =>
      subst he
      rw [update_self]
      exact List.dlookup_kreplace <| List.dlookup_isSome.mp <| by rw [hf]; rfl
    case neg =>
      rw [update_of_ne he]
      exact List.dlookup_kreplace_ne he
  case none        =>
    rw [hf] at h
    have ⟨acl₁, hcreate, he⟩ := Option.map_eq_some_iff.mp h
    cases he
    have hnot := List.dlookup_eq_none.mp hf
    have hp := hc.createEntry acl entity acl' hcreate
    have hn₁ : (⟨entity, AclPerms.none⟩ :: acl : Acl).NodupKeys := List.nodupKeys_cons.mpr ⟨hnot, hn⟩
    have hn' := (List.perm_nodupKeys hp).mpr hn₁
    refine ⟨hn', by rw [Acl.toMap, hf]; rfl, fun perms' => ?_⟩
    have hr := List.Perm.kreplace hn' (a := entity) (b := perms') hp
    rw [Acl.toMap_perm ((List.kreplace_nodupKeys ..).mpr hn') hr]
    funext entity'
    by_cases he : entity' = entity
    case pos =>
      subst he
      rw [update_self]
      exact List.dlookup_kreplace List.mem_cons_self
    case neg =>
      rw [update_of_ne he]
      exact (List.dlookup_kreplace_ne he).trans <| List.dlookup_cons_ne _ _ he

theorem currentACE_none (h : currentACE calls acl entity = none) : ¬calls.Succeed := by
  unfold currentACE at h
  split at h
  case h_1 => nomatch h
  case h_2 => exact fun hs => hs.createEntry _ _ <| Option.map_eq_none_iff.mp h

-- The entry of the promise can be understood, whatever the permissions before are.
def Accepted (names : AclNames) (ace : CString) : Prop :=
  ∃ entity mode, aceOf names ace = some (entity, mode) ∧ ∀ perms, applyMode mode perms ≠ none

theorem aceOf_eq_some {mode : CString} (h : aceOf names ace = some (entity, mode)) :
    parseEntityPosixLinux names has_mask ace = some (entity, ':' :: mode, has_mask || entity = .mask) := by
  rw [parseEntityPosixLinux_mask]
  unfold aceOf at h
  split at h
  case h_1 he =>
    cases h
    rw [he]
    rfl
  case h_2    => nomatch h

theorem applyMode_eq_some {mode : CString} {perms perms' : AclPerms} (h : applyMode mode perms = some perms') :
    ∃ rest, parseModePosixLinux heldPermissions mode perms = some (true, rest, perms') := by
  unfold applyMode at h
  split at h
  case h_1 rest _ he =>
    cases h
    exact ⟨rest, he⟩
  case h_2           => nomatch h

structure Merged (names : AclNames) (aces : List CString) (has_mask : Bool) (acl : Acl) (has_mask' : Bool)
    (acl' : Acl) : Prop where
  nodup    : acl'.NodupKeys
  has_mask : has_mask' = (has_mask || modesOf names aces .mask ≠ [])
  map      : acl'.toMap = mergedMap names aces acl.toMap
  named    : ∀ entity, modesOf names aces entity ≠ [] → acl'.toMap entity ≠ none

theorem mergeACE_accepted (hc : calls.Documented) (hn : acl.NodupKeys) {mode : CString}
    (ha : aceOf names ace = some (entity, mode)) (hm : ∀ perms, applyMode mode perms ≠ none) :
    (∃ perms acl', mergeACE calls names ace has_mask acl = .ok (has_mask || entity = .mask, acl') ∧
      applyMode mode ((acl.toMap entity).getD .none) = some perms ∧ acl'.NodupKeys ∧
      acl'.toMap = update acl.toMap entity (some perms)) ∨
      mergeACE calls names ace has_mask acl = .error .failed ∧ ¬calls.Succeed := by
  rw [mergeACE, aceOf_eq_some ha]
  dsimp only
  cases hcur : currentACE calls acl entity
  case none                => exact .inr ⟨rfl, currentACE_none hcur⟩
  case some current =>
    obtain ⟨acl₁, perms⟩ := current
    have ⟨hn₁, hperms, hmap⟩ := currentACE_some hc hn hcur
    have ⟨perms', hp⟩ := Option.ne_none_iff_exists'.mp <| hm perms
    have ⟨rest, hparse⟩ := applyMode_eq_some hp
    refine .inl ⟨perms', acl₁.kreplace entity perms', ?_, hperms ▸ hp, (List.kreplace_nodupKeys ..).mpr hn₁,
      hmap perms'⟩
    simp only [hparse]

-- An entry that is merged has been accepted.
theorem accepted_of_mergeACE {r : Bool × Acl} (h : mergeACE calls names ace has_mask acl = .ok r) :
    Accepted names ace := by
  rw [mergeACE] at h
  split at h
  case h_1                             => cases h
  case h_2 entity cf_ace has_mask' he =>
    split at h
    case h_2                  => cases h
    case h_1 perms mode hcur =>
      have ha : aceOf names ace = some (entity, mode) := by
        rw [parseEntityPosixLinux_mask] at he
        obtain ⟨⟨entity', str, b⟩, hparse, heq⟩ := Option.map_eq_some_iff.mp he
        cases heq
        simp only [aceOf, hparse]
      refine ⟨entity, mode, ha, ?_⟩
      obtain hm | ⟨m, hm⟩ := applyMode_uniform mode
      case inr => exact fun perms => hm perms ▸ nofun
      case inl =>
        have hp := hm perms
        rw [applyMode] at hp
        split at h
        case h_1                => cases h
        case h_2                => cases h
        case h_3 rest perms' ht =>
          rw [ht] at hp
          cases hp

theorem modesOf_cons {mode : CString} (ha : aceOf names ace = some (entity, mode)) (entity' : AclEntity) :
    modesOf names (ace :: aces) entity' =
      if entity = entity' then mode :: modesOf names aces entity' else modesOf names aces entity' := by
  unfold modesOf
  rw [List.filterMap_cons, ha]
  by_cases he : entity = entity' <;> simp [he]

theorem Merged.cons {mode : CString} {perms : AclPerms} {acl₁ : Acl} {has_mask' : Bool}
    (ha : aceOf names ace = some (entity, mode)) (hp : applyMode mode ((acl.toMap entity).getD .none) = some perms)
    (hmap : acl₁.toMap = update acl.toMap entity (some perms))
    (h : Merged names aces (has_mask || entity = .mask) acl₁ has_mask' acl') :
    Merged names (ace :: aces) has_mask acl has_mask' acl' where
  nodup    := h.nodup
  has_mask := by
    rw [h.has_mask, modesOf_cons ha]
    by_cases he : entity = .mask <;> simp [he]
  map      := by
    rw [h.map, hmap]
    funext entity'
    rw [mergedMap, mergedMap, modesOf_cons ha]
    by_cases he : entity = entity'
    case pos =>
      subst he
      rw [update_self, if_pos rfl, if_neg (List.cons_ne_nil _ _), applyModes, applyModes, List.foldlM_cons, hp]
      split
      case isTrue hm => rw [hm]; rfl
      case isFalse   => rfl
    case neg => rw [update_of_ne (Ne.symm he), if_neg he]
  named    := by
    intro entity' hm
    by_cases hrest : modesOf names aces entity' = []
    case neg => exact h.named entity' hrest
    case pos =>
      rw [modesOf_cons ha] at hm
      by_cases he : entity = entity'
      case neg =>
        rw [if_neg he] at hm
        exact absurd hrest hm
      case pos =>
        subst he
        rw [h.map, mergedMap, if_pos hrest, hmap, update_self]
        rintro ⟨⟩

-- The loop over the entries of the promise.
theorem mergeACEs_accepted (hc : calls.Documented) (hn : acl.NodupKeys) (ha : ∀ ace ∈ aces, Accepted names ace) :
    (∃ has_mask' acl', mergeACEs calls names aces has_mask acl = .ok (has_mask', acl') ∧
      Merged names aces has_mask acl has_mask' acl') ∨
      mergeACEs calls names aces has_mask acl = .error .failed ∧ ¬calls.Succeed := by
  induction aces generalizing has_mask acl
  case nil            =>
    refine .inl ⟨has_mask, acl, rfl, hn, ?_, rfl, fun _ h => absurd rfl h⟩
    simp [modesOf]
  case cons ace aces ih =>
    have ⟨⟨entity, mode, hace, hmode⟩, ha⟩ := List.forall_mem_cons.mp ha
    rw [mergeACEs]
    obtain ⟨perms, acl₁, hmerge, hp, hn₁, hmap⟩ | ⟨hmerge, hs⟩ :=
      @mergeACE_accepted calls names ace has_mask acl entity hc hn mode hace hmode
    · rw [hmerge]
      obtain ⟨has_mask', acl', h, hm⟩ | h := @ih (has_mask || entity = .mask) acl₁ hn₁ ha
      · exact .inl ⟨has_mask', acl', h, hm.cons hace hp hmap⟩
      · exact .inr h
    · rw [hmerge]
      exact .inr ⟨rfl, hs⟩

theorem accepted_of_mergeACEs {r : Bool × Acl} (h : mergeACEs calls names aces has_mask acl = .ok r) :
    ∀ ace ∈ aces, Accepted names ace := by
  induction aces generalizing has_mask acl
  case nil            => exact List.forall_mem_nil _
  case cons ace aces ih =>
    rw [mergeACEs] at h
    have ⟨(_, _), hmerge, h⟩ := Except.bind_eq_ok_iff.mp h
    exact List.forall_mem_cons.mpr ⟨accepted_of_mergeACE hmerge, ih h⟩

-- The list is what the promise asks for.
structure Promised (names : AclNames) (method : AclMethod) (aces : List CString) (acl acl' : Acl) : Prop where
  nodup : acl'.NodupKeys
  map   : acl'.toMap = promisedMap names aces (method.base acl.toMap)
  named : ∀ entity, modesOf names aces entity ≠ [] → acl'.toMap entity ≠ none

theorem Merged.promised {acl₀ : Acl} (h₀ : acl₀.toMap = method.base acl.toMap)
    (h : Merged names aces false acl₀ true acl') : Promised names method aces acl acl' where
  nodup := h.nodup
  map   := by
    have hm : modesOf names aces .mask ≠ [] := by simpa using h.has_mask.symm
    rw [h.map, h₀, promisedMap, if_neg hm]
  named := h.named

theorem Merged.promised_calcMask {acl₀ acl₁ : Acl} (hc : calls.Documented) (h₀ : acl₀.toMap = method.base acl.toMap)
    (h : Merged names aces false acl₀ false acl₁) (hmask : calls.calcMask acl₁ = some acl') :
    Promised names method aces acl acl' := by
  have hm : modesOf names aces .mask = [] := by simpa using h.has_mask.symm
  have hp := hc.calcMask acl₁ acl' h.nodup hmask
  have hn := (List.perm_nodupKeys hp).mpr <| List.kinsert_nodupKeys _ _ h.nodup
  have hmap : acl'.toMap = update acl₁.toMap .mask (some acl₁.groupClassPerms) := by
    rw [Acl.toMap_perm hn hp]
    funext entity
    by_cases he : entity = .mask
    case pos =>
      subst he
      rw [update_self]
      exact List.dlookup_kinsert _
    case neg =>
      rw [update_of_ne he]
      exact List.dlookup_kinsert_ne he
  constructor
  case nodup => exact hn
  case map   =>
    rw [hmap, promisedMap, if_pos hm, ← h₀, ← h.map, Acl.toMap_groupClassPerms h.nodup]
  case named =>
    intro entity hmodes
    have he : entity ≠ .mask := fun he => hmodes <| he ▸ hm
    rw [hmap, update_of_ne he]
    exact h.named entity hmodes

theorem startAcl_some {acl₀ : Acl} (hc : calls.Documented) (hn : acl.NodupKeys)
    (h : startAcl calls method acl = some acl₀) : acl₀.NodupKeys ∧ acl₀.toMap = method.base acl.toMap := by
  cases method
  case append    =>
    have hp := hc.dup acl acl₀ h
    have hn₀ := (List.perm_nodupKeys hp).mpr hn
    exact ⟨hn₀, Acl.toMap_perm hn₀ hp⟩
  case overwrite =>
    cases hc.init 5 acl₀ h
    exact ⟨List.nodupKeys_nil, rfl⟩

theorem startAcl_none (h : startAcl calls method acl = none) : ¬calls.Succeed := by
  cases method
  case append    => exact fun hs => hs.dup acl h
  case overwrite => exact fun hs => hs.init 5 h

theorem newAcl_accepted (hc : calls.Documented) (hn : acl.NodupKeys) (ha : ∀ ace ∈ aces, Accepted names ace) :
    (∃ acl', newAcl calls names method aces acl = .ok acl' ∧ Promised names method aces acl acl') ∨
      newAcl calls names method aces acl = .error .failed ∧ ¬calls.Succeed := by
  unfold newAcl
  cases hinit : calls.init 1
  case none   => exact .inr ⟨rfl, fun hs => hs.init 1 hinit⟩
  case some _ =>
    cases hstart : startAcl calls method acl
    case none      => exact .inr ⟨rfl, startAcl_none hstart⟩
    case some acl₀ =>
      have ⟨hn₀, h₀⟩ := startAcl_some hc hn hstart
      dsimp only
      obtain ⟨has_mask, acl₁, hmerge, h⟩ | ⟨hmerge, hs⟩ := @mergeACEs_accepted calls names aces false acl₀ hc hn₀ ha
      case inr => exact .inr ⟨by rw [hmerge]; rfl, hs⟩
      case inl =>
        rw [hmerge, Except.ok_bind_eq]
        dsimp only
        unfold calcMask
        cases has_mask
        case true  => exact .inl ⟨acl₁, rfl, h.promised h₀⟩
        case false =>
          cases hmask : calls.calcMask acl₁
          case none      => exact .inr ⟨by simp, fun hs => hs.calcMask acl₁ hmask⟩
          case some acl' => exact .inl ⟨acl', by simp, h.promised_calcMask hc h₀ hmask⟩

theorem accepted_of_newAcl (h : newAcl calls names method aces acl = .ok acl') :
    ∀ ace ∈ aces, Accepted names ace := by
  unfold newAcl at h
  split at h
  case h_1 =>
    have ⟨r, hmerge, _⟩ := Except.bind_eq_ok_iff.mp h
    exact accepted_of_mergeACEs hmerge
  case h_2 => nomatch h

theorem permsetEquals_iff {first second : AclPerms} : permsetEquals first second = true ↔ first = second := by
  rw [permsetEquals, List.all_eq_true]
  constructor
  case mp  =>
    intro h
    funext perm
    apply of_decide_eq_true
    apply h perm
    cases perm <;> decide
  case mpr =>
    intro h perm _
    rw [h]
    exact decide_eq_true rfl

theorem aclEquals_iff {first second : Acl} (h : first.NodupKeys) (h' : second.NodupKeys) :
    aclEquals first second = true ↔ first.Perm second := by
  rw [List.perm_iff_dlookup h h', aclEquals, decide_eq_true_iff, List.all_eq_true]
  apply and_congr_right
  intro _
  apply forall₂_congr
  intro ace _
  rw [findACE]
  cases second.dlookup ace.1
  case none       => exact ⟨nofun, nofun⟩
  case some perms => exact permsetEquals_iff.trans <| eq_comm.trans Option.some_inj.symm

theorem Promised.perm {existing : Acl} (hn : acl.NodupKeys) (h : Promised names method aces existing acl')
    (hp : existing.Perm acl) : Promised names method aces acl acl' where
  __  := h
  map := by rw [h.map, Acl.toMap_perm ((List.perm_nodupKeys hp).mpr hn) hp]

-- The file has what the promise asks for, once the function has returned true.
theorem promised_of_check {result : PromiseResult} (hc : calls.Documented) (hn : acl.NodupKeys)
    (h : checkPosixLinuxACEs calls names method .fix false aces acl = .ok (result, acl')) :
    Promised names method aces acl acl' ∧ ∀ ace ∈ aces, Accepted names ace := by
  unfold checkPosixLinuxACEs at h
  cases hget : calls.getFile acl
  case none          =>
    rw [hget] at h
    nomatch h
  case some existing =>
    rw [hget] at h
    have ⟨acl_new, hnew, h⟩ := Except.bind_eq_ok_iff.mp h
    have ha := accepted_of_newAcl hnew
    have hp := hc.getFile acl existing hget
    have hn₀ := (List.perm_nodupKeys hp).mpr hn
    obtain ⟨acl₁, hnew', hpromised⟩ | ⟨hnew', _⟩ := @newAcl_accepted calls names aces existing method hc hn₀ ha
    case inr => nomatch hnew.symm.trans hnew'
    case inl =>
      cases hnew.symm.trans hnew'
      have hpromised := hpromised.perm hn hp
      refine ⟨?_, ha⟩
      split at h
      case isTrue heq =>
        cases h
        have hp' := hp.symm.trans <| (aclEquals_iff hn₀ hpromised.nodup).mp heq
        have hmap := Acl.toMap_perm hn hp'
        exact ⟨hn, hmap.trans hpromised.map, hmap ▸ hpromised.named⟩
      case isFalse    =>
        cases hset : calls.setFile acl_new
        case true  =>
          simp only [hset, if_true, Bool.false_eq_true, if_false] at h
          cases h
          exact hpromised
        case false =>
          simp only [hset, Bool.false_eq_true, if_false] at h
          nomatch h

theorem Promised.again (hc : calls.Documented) (ha : ∀ ace ∈ aces, Accepted names ace)
    (h : Promised names method aces acl acl') :
    checkPosixLinuxACEs calls names method .fix false aces acl' = .ok (.noop, acl') ∨
      checkPosixLinuxACEs calls names method .fix false aces acl' = .error .failed ∧ ¬calls.Succeed := by
  unfold checkPosixLinuxACEs
  cases hget : calls.getFile acl'
  case none          => exact .inr ⟨rfl, fun hs => hs.getFile acl' hget⟩
  case some existing =>
    have hp := hc.getFile acl' existing hget
    have hn := (List.perm_nodupKeys hp).mpr h.nodup
    obtain ⟨acl_new, hnew, hnew'⟩ | ⟨hnew, hs⟩ := @newAcl_accepted calls names aces existing method hc hn ha
    case inr => exact .inr ⟨by simp only [hnew]; rfl, hs⟩
    case inl =>
      have hmap : acl_new.toMap = acl'.toMap := by
        rw [(hnew'.perm h.nodup hp).map, h.map, promisedMap_base]
      have heq : aclEquals existing acl_new = true :=
        (aclEquals_iff hn hnew'.nodup).mpr <| hp.trans <|
          List.perm_of_dlookup_eq h.nodup hnew'.nodup fun entity => congrFun hmap.symm entity
      left
      simp only [hnew]
      exact if_pos heq

-- What a promise about a list of entries comes to.
structure Converged (names : AclNames) (method : AclMethod) (aces : List CString) (acl acl' : Acl) : Prop where
  nodup : acl'.NodupKeys
  named : ∀ entity, modesOf names aces entity ≠ [] → ∃ perms, ⟨entity, perms⟩ ∈ acl' ∧
    applyModes (modesOf names aces entity) ((method.base acl.toMap entity).getD .none) = some perms
  kept  : method = .append → ∀ entity perms, modesOf names aces entity = [] → entity ≠ .mask →
    (⟨entity, perms⟩ ∈ acl' ↔ ⟨entity, perms⟩ ∈ acl)
  again : ∀ calls : AclCalls, calls.Documented →
    checkPosixLinuxACEs calls names method .fix false aces acl' = .ok (.noop, acl') ∨
      checkPosixLinuxACEs calls names method .fix false aces acl' = .error .failed ∧ ¬calls.Succeed

-- A list without duplicates that has been made to fit the promise stays as it is: a second run finds that the lists are
-- equal, unless one of the calls fails before it compares them.
theorem checkPosixLinuxACEs_converges (calls : AclCalls) (hc : calls.Documented) (names : AclNames)
    (method : AclMethod) (aces : List CString) (acl acl' : Acl) (hn : acl.NodupKeys) (result : PromiseResult)
    (h : checkPosixLinuxACEs calls names method .fix false aces acl = .ok (result, acl')) :
    Converged names method aces acl acl' := by
  have ⟨hpromised, ha⟩ := promised_of_check hc hn h
  constructor
  case nodup => exact hpromised.nodup
  case named =>
    intro entity hmodes
    have ⟨perms, hperms⟩ := Option.ne_none_iff_exists'.mp <| hpromised.named entity hmodes
    refine ⟨perms, List.of_mem_dlookup hperms, ?_⟩
    rw [← hperms, hpromised.map, promisedMap_of_named hmodes, mergedMap, if_neg hmodes]
  case kept  =>
    intro hmethod entity perms hmodes hm
    rw [← List.mem_dlookup_iff hpromised.nodup, ← List.mem_dlookup_iff hn]
    have heq : acl'.toMap entity = acl.toMap entity := by
      rw [hpromised.map, promisedMap_of_ne_mask hm, mergedMap, if_pos hmodes, hmethod, AclMethod.base]
    exact Eq.congr_left heq
  case again => exact fun calls hc => hpromised.again hc ha

-- Calls that always succeed. A new entry is the last one.
def plainAclCalls : AclCalls where
  getFile                := some
  init _                 := some []
  dup                    := some
  createEntry acl entity := some <| acl ++ [⟨entity, .none⟩]
  calcMask acl           := some <| acl.kinsert .mask acl.groupClassPerms
  setFile _              := true

theorem plainAclCalls_documented : plainAclCalls.Documented where
  getFile acl acl' h            := Option.some.inj h ▸ .refl _
  init _ acl h                  := (Option.some.inj h).symm
  dup acl acl' h                := Option.some.inj h ▸ .refl _
  createEntry acl entity acl' h := Option.some.inj h ▸ List.perm_append_singleton ..
  calcMask acl acl' _ h         := Option.some.inj h ▸ .refl _

def rootNames : AclNames where
  getpwnam name := if name = "root".toList then some 0 else none
  getgrnam _    := none

-- The list of a file with the mode 0707, and a promise that a user can read it, but no others.
def sharedAcl : Acl :=
  [⟨.userObj, fun _ => true⟩, ⟨.groupObj, .none⟩, ⟨.other, fun _ => true⟩]

def rootReads : List CString :=
  ["user:root:+r".toList, "all:".toList]

theorem checkPosixLinuxACEs_rootReads : ∃ acl' result,
    checkPosixLinuxACEs plainAclCalls rootNames .append .fix false rootReads sharedAcl = .ok (result, acl') ∧
      Converged rootNames .append rootReads sharedAcl acl' := by
  have hn : sharedAcl.NodupKeys := show List.Nodup [AclEntity.userObj, .groupObj, .other] by decide
  cases h : checkPosixLinuxACEs plainAclCalls rootNames .append .fix false rootReads sharedAcl
  case error e =>
    have hok : (checkPosixLinuxACEs plainAclCalls rootNames .append .fix false rootReads sharedAcl).isOk = true := by
      decide +kernel
    rw [h] at hok
    nomatch hok
  case ok r    => exact ⟨r.2, r.1, rfl, checkPosixLinuxACEs_converges _ plainAclCalls_documented _ _ _ _ _ hn _ h⟩

end CfEngine
