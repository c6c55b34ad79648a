import CfEngine.CfServerd.ServerTransform

namespace CfEngine
namespace AuthLists

open Function (update)
open Links (Chained change)

-- The elements of the lists, with their addresses.
abbrev Entries := AuthList → List (Nat × Auth)

-- The pointers are those to the first and to the last elements of lists that have no elements in common.
structure Linked (s : AuthLists) (entries : Entries) : Prop where
  chained  : ∀ list, Chained s.cells (s.vars <| .list list) (entries list) none
  top      : ∀ list, s.vars (.top list) = (entries list).getLast?.map Prod.fst
  disjoint : ∀ list list' a, a ∈ (entries list).map Prod.fst → a ∈ (entries list').map Prod.fst → list = list'

def paths (entries : List (Nat × Auth)) : List CString :=
  entries.map fun e => e.2.path

variable {s s' : AuthLists} {entries : Entries} {list : AuthList} {listVar : AuthVar} {path : CString} {a : Nat}
  {f : Auth → Auth}

theorem linked_empty : Linked empty fun _ => [] where
  chained _            := rfl
  top _                := rfl
  disjoint _ _ _ ha _ := nomatch ha

theorem findAuthPath_eq {cells : Links Auth} {p : Option Nat} {as : List (Nat × Auth)} {fuel : Nat}
    (h : Chained cells p as none) (hf : as.length ≤ fuel) :
    findAuthPath cells path fuel p = some ((as.find? fun e => e.2.path = path).map Prod.fst) := by
  induction as generalizing p fuel
  case nil          =>
    cases (h : p = none)
    cases fuel <;> rfl
  case cons e as ih =>
    have ⟨hp, he, htail⟩ := h
    subst hp
    cases fuel
    case zero      => exact absurd hf <| Nat.not_succ_le_zero _
    case succ fuel =>
      rw [findAuthPath, he]
      dsimp only
      split
      case isTrue hpath  => rw [List.find?_cons_of_pos (by simpa using hpath), Option.map_some]
      case isFalse hpath =>
        rw [List.find?_cons_of_neg (by simpa using hpath)]
        exact ih htail <| Nat.le_of_succ_le_succ hf

namespace Linked

theorem getAuthPath (h : s.Linked entries) : s.getAuthPath path list =
    some (((entries list).find? fun e => e.2.path = unslashedPath path).map Prod.fst) :=
  findAuthPath_eq (h.chained list) (h.chained list).length_le

theorem lt_length (h : s.Linked entries) (ha : a ∈ (entries list).map Prod.fst) : a < s.cells.length :=
  (h.chained list).lt_length ha

-- An element that is new is appended.
theorem install (h : s.Linked entries) (hl : listVar = .list list ∨ entries list ≠ []) :
    ∃ s', s.installServerAuthPath path listVar (.top list) = some s' ∧
      s'.Linked (update entries list <| entries list ++ [(s.cells.length, newAuth path)]) := by
  have hdisjoint (list₁ list₂ : AuthList) (b : Nat)
      (hb : b ∈ (update entries list (entries list ++ [(s.cells.length, newAuth path)]) list₁).map Prod.fst)
      (hb' : b ∈ (update entries list (entries list ++ [(s.cells.length, newAuth path)]) list₂).map Prod.fst) :
      list₁ = list₂ := by
    have hnew {list'} (hm : b ∈ (entries list').map Prod.fst) : b ≠ s.cells.length := Nat.ne_of_lt <| h.lt_length hm
    by_cases h₁ : list₁ = list <;> by_cases h₂ : list₂ = list
    · rw [h₁, h₂]
    · subst h₁
      rw [Function.update_self, List.map_append, List.mem_append, List.map_singleton, List.mem_singleton] at hb
      rw [Function.update_of_ne h₂] at hb'
      exact h.disjoint _ _ b (hb.resolve_right <| hnew hb') hb'
    · subst h₂
      rw [Function.update_self, List.map_append, List.mem_append, List.map_singleton, List.mem_singleton] at hb'
      rw [Function.update_of_ne h₁] at hb
      exact h.disjoint _ _ b hb (hb'.resolve_right <| hnew hb)
    · rw [Function.update_of_ne h₁] at hb
      rw [Function.update_of_ne h₂] at hb'
      exact h.disjoint _ _ b hb hb'
  rcases List.eq_nil_or_concat (entries list) with hnil | ⟨before, ⟨t, x⟩, hlast⟩
  case inl =>
    have htop : s.vars (.top list) = none := by
      rw [h.top, hnil]
      rfl
    have hlist := hl.resolve_right fun hne => hne hnil
    subst hlist
    refine ⟨_, by rw [installServerAuthPath, htop], fun list' => ?_, fun list' => ?_, hdisjoint⟩
    case refine_1 =>
      dsimp only
      by_cases he : list' = list
      case pos =>
        subst he
        rw [Function.update_of_ne (by simp), Function.update_self, Function.update_self, hnil]
        exact ⟨rfl, by rw [Links.get_concat, if_pos rfl]; rfl, rfl⟩
      case neg =>
        rw [Function.update_of_ne (by simp), Function.update_of_ne (by simpa using he), Function.update_of_ne he]
        exact (h.chained list').concat
    case refine_2 =>
      dsimp only
      by_cases he : list' = list
      case pos =>
        subst he
        rw [Function.update_self, Function.update_self, List.getLast?_concat]
        rfl
      case neg =>
        rw [Function.update_of_ne (by simpa using he), Function.update_of_ne (by simp), Function.update_of_ne he]
        exact h.top list'
  case inr =>
    rw [List.concat_eq_append] at hlast
    have htop : s.vars (.top list) = some t := by
      rw [h.top, hlast, List.getLast?_concat]
      rfl
    have hchain : Chained s.cells (s.vars <| .list list) (before ++ [(t, x)]) none := hlast ▸ h.chained list
    have hget : s.cells.get t = some ⟨x, none⟩ := hchain.get_eq
    have hlt := Links.lt_length_of_get hget
    have hget' : Links.get (s.cells ++ [some ⟨newAuth path, none⟩]) t = some ⟨x, none⟩ := by
      rw [Links.get_concat, if_neg <| Nat.ne_of_lt hlt, hget]
    have hset : setNext (s.cells ++ [some ⟨newAuth path, none⟩]) t (some s.cells.length) =
        some (Links.put (s.cells ++ [some ⟨newAuth path, none⟩]) t <| some ⟨x, some s.cells.length⟩) := by
      rw [setNext, hget']
      rfl
    have ht : t ∈ (entries list).map Prod.fst := by
      rw [hlast]
      exact List.mem_map_of_mem (List.mem_append_right _ List.mem_cons_self)
    refine ⟨_, by simp only [installServerAuthPath, htop, hset]; rfl, fun list' => ?_, fun list' => ?_, hdisjoint⟩
    case refine_1 =>
      dsimp only
      rw [Function.update_of_ne (by simp)]
      by_cases he : list' = list
      case pos =>
        subst he
        rw [Function.update_self, hlast, List.append_assoc]
        exact hchain.insert
      case neg =>
        rw [Function.update_of_ne he]
        refine (h.chained list').concat.put_of_notMem ?_ fun hm => he <| h.disjoint _ _ t hm ht
        rw [List.length_append]
        exact Nat.lt_add_right _ hlt
    case refine_2 =>
      dsimp only
      by_cases he : list' = list
      case pos =>
        subst he
        rw [Function.update_self, Function.update_self, List.getLast?_concat]
        rfl
      case neg =>
        rw [Function.update_of_ne (by simpa using he), Function.update_of_ne he]
        exact h.top list'

-- An element is changed.
theorem modify (h : s.Linked entries) (hs : s.modify (some a) f = some s') :
    s'.Linked fun list => (entries list).map <| change a f := by
  rw [AuthLists.modify] at hs
  have ⟨⟨x, next⟩, hget, he⟩ := Option.map_eq_some_iff.mp hs
  subst he
  have hfst (list) : ((entries list).map <| change a f).map Prod.fst = (entries list).map Prod.fst := by
    rw [List.map_map]
    exact List.map_congr_left fun _ _ => Links.change_fst
  refine ⟨fun list => (h.chained list).modify hget f, fun list => ?_, fun list list' b hb hb' => ?_⟩
  case refine_1 =>
    have hlast := congrArg List.getLast? <| hfst list
    rw [List.getLast?_map (f := Prod.fst), List.getLast?_map (f := Prod.fst)] at hlast
    exact (h.top list).trans hlast.symm
  case refine_2 =>
    rw [hfst] at hb hb'
    exact h.disjoint list list' b hb hb'

theorem modify_isSome (h : s.Linked entries) (ha : a ∈ (entries list).map Prod.fst) :
    ∃ s', s.modify (some a) f = some s' := by
  have ⟨⟨_, x⟩, hm, he⟩ := List.mem_map.mp ha
  cases he
  have ⟨next, hget⟩ := (h.chained list).get_of_mem hm
  exact ⟨_, by rw [AuthLists.modify, hget]; rfl⟩

end Linked

def hostItem (host : CString) : Item :=
  ⟨host, none⟩

-- What is of interest of an element: its address, its name and its hosts.
def seen (e : Nat × Auth) : Nat × CString × List Item :=
  (e.1, e.2.path, e.2.accesslist)

-- Hosts have been put before those of the elements, given by their addresses.
def Recorded (before after : Entries) (hosts : Nat → List CString) : Prop :=
  ∀ list, (after list).map seen =
    (before list).map fun e => (e.1, e.2.path, (hosts e.1).reverse.map hostItem ++ e.2.accesslist)

-- The hosts that the items of a list mean for an element.
def grants (ap dp : Option Nat) (lval : CString) (items : List CString) (a : Nat) : List CString :=
  if lval = remoteAccessAdmit then
    if ap = some a then items else []
  else if lval = remoteAccessDeny then
    if dp = some a then items else []
  else
    []

def constraintGrants (isDefinedClass : CString → Bool) (ap dp : Option Nat) (cp : AccessConstraint) (a : Nat) :
    List CString :=
  if isDefinedClass cp.classes then
    match cp.rval with
    | .list items => grants ap dp cp.lval items a
    | _           => []
  else
    []

variable {entries' entries'' : Entries} {hosts hosts' : Nat → List CString} {ap dp : Option Nat} {lval item : CString}
  {items : List CString} {isDefinedClass : CString → Bool} {cp : AccessConstraint} {conlist : List AccessConstraint}
  {d : Nat} {list' : AuthList}

theorem recorded_refl : Recorded entries entries fun _ => [] := by
  intro list
  exact List.map_congr_left fun e _ => by simp [seen]

theorem Recorded.trans (h : Recorded entries entries' hosts) (h' : Recorded entries' entries'' hosts') :
    Recorded entries entries'' fun a => hosts a ++ hosts' a := by
  intro list
  have hstep : ((entries' list).map fun e => (e.1, e.2.path, (hosts' e.1).reverse.map hostItem ++ e.2.accesslist)) =
      ((entries' list).map seen).map fun v => (v.1, v.2.1, (hosts' v.1).reverse.map hostItem ++ v.2.2) := by
    rw [List.map_map]
    rfl
  rw [h' list, hstep, h list, List.map_map]
  exact List.map_congr_left fun e _ => by simp

theorem Recorded.addresses (h : Recorded entries entries' hosts) (list : AuthList) :
    (entries' list).map Prod.fst = (entries list).map Prod.fst := by
  have hseen := congrArg (List.map Prod.fst) <| h list
  rwa [List.map_map, List.map_map] at hseen

theorem Recorded.paths (h : Recorded entries entries' hosts) (list : AuthList) :
    paths (entries' list) = paths (entries list) := by
  have hseen := congrArg (List.map fun v => v.2.1) <| h list
  rwa [List.map_map, List.map_map] at hseen

theorem recorded_change {added : List CString} (hp : ∀ auth, (f auth).path = auth.path)
    (ha : ∀ auth, (f auth).accesslist = added.reverse.map hostItem ++ auth.accesslist) :
    Recorded entries (fun list => (entries list).map <| change a f) fun b => if b = a then added else [] := by
  intro list
  rw [List.map_map]
  refine List.map_congr_left fun e _ => ?_
  rw [Function.comp_apply, change]
  split
  case isTrue h  => simp [seen, hp, ha, h]
  case isFalse h => simp [seen, h]

theorem grants_nil : grants ap dp lval [] = fun _ => [] := by
  funext a
  simp [grants]

theorem grants_cons (a : Nat) :
    grants ap dp lval (item :: items) a = grants ap dp lval [item] a ++ grants ap dp lval items a := by
  rw [grants, grants, grants]
  split
  case isTrue  => split <;> rfl
  case isFalse =>
    split
    case isTrue  => split <;> rfl
    case isFalse => rfl

namespace Linked

-- What a call that has not failed has done.
theorem modify_recorded {added : List CString} (h : s.Linked entries) (hs : s.modify ap f = some s')
    (hp : ∀ auth, (f auth).path = auth.path)
    (ha : ∀ auth, (f auth).accesslist = added.reverse.map hostItem ++ auth.accesslist) :
    ∃ entries', s'.Linked entries' ∧ Recorded entries entries' fun b => if ap = some b then added else [] := by
  cases ap
  case none   => nomatch hs
  case some a =>
    refine ⟨_, h.modify hs, ?_⟩
    simpa [eq_comm] using @recorded_change entries a f added hp ha

theorem keepItem (h : s.Linked entries) (hs : s.keepItem ap dp lval item = some s') :
    ∃ entries', s'.Linked entries' ∧ Recorded entries entries' (grants ap dp lval [item]) := by
  rw [AuthLists.keepItem] at hs
  unfold grants
  split at hs
  case isTrue hgrant  =>
    simp only [if_pos hgrant]
    exact h.modify_recorded hs (fun _ => rfl) fun _ => rfl
  case isFalse hgrant =>
    simp only [if_neg hgrant]
    split at hs
    case isTrue hdeny  =>
      simp only [if_pos hdeny]
      exact h.modify_recorded hs (fun _ => rfl) fun _ => rfl
    case isFalse hdeny =>
      simp only [if_neg hdeny]
      split at hs
      case isTrue  =>
        have hmap := @modify_recorded s s' entries _ ap [] h hs (fun _ => rfl) fun _ => rfl
        simpa using hmap
      case isFalse =>
        cases hs
        exact ⟨entries, h, recorded_refl⟩

theorem keepItems (h : s.Linked entries) (hs : items.foldlM (AuthLists.keepItem ap dp lval) s = some s') :
    ∃ entries', s'.Linked entries' ∧ Recorded entries entries' (grants ap dp lval items) := by
  induction items generalizing s entries
  case nil             =>
    cases hs
    exact ⟨entries, h, grants_nil ▸ recorded_refl⟩
  case cons item items ih =>
    rw [List.foldlM_cons] at hs
    have ⟨s₁, hs₁, hs⟩ := Option.bind_eq_some_iff.mp hs
    have ⟨entries₁, h₁, hr₁⟩ := h.keepItem hs₁
    have ⟨entries₂, h₂, hr₂⟩ := ih h₁ hs
    refine ⟨entries₂, h₂, ?_⟩
    simpa only [← grants_cons] using hr₁.trans hr₂

theorem keepConstraint (h : s.Linked entries) (hs : s.keepConstraint isDefinedClass ap dp cp = some s') :
    ∃ entries', s'.Linked entries' ∧ Recorded entries entries' (constraintGrants isDefinedClass ap dp cp) := by
  rw [AuthLists.keepConstraint] at hs
  unfold constraintGrants
  split at hs
  case isTrue hclass  =>
    cases hs
    have hclass : isDefinedClass cp.classes = false := by simpa using hclass
    simp only [hclass, Bool.false_eq_true, if_false]
    exact ⟨entries, h, recorded_refl⟩
  case isFalse hclass =>
    have hclass : isDefinedClass cp.classes = true := by simpa using hclass
    simp only [hclass, if_true]
    split at hs
    case h_1 hrval =>
      simp only [hrval]
      split at hs
      case isTrue  =>
        have hmap := @modify_recorded s s' entries _ ap [] h hs (fun _ => rfl) fun _ => rfl
        simpa using hmap
      case isFalse =>
        cases hs
        exact ⟨entries, h, recorded_refl⟩
    case h_2 hrval =>
      simp only [hrval]
      exact h.keepItems hs
    case h_3 hrval =>
      cases hs
      simp only [hrval]
      exact ⟨entries, h, recorded_refl⟩

theorem keepConstraints (h : s.Linked entries) (hs : s.keepConstraints isDefinedClass ap dp conlist = some s') :
    ∃ entries', s'.Linked entries' ∧
      Recorded entries entries' fun a => conlist.flatMap fun cp => constraintGrants isDefinedClass ap dp cp a := by
  rw [AuthLists.keepConstraints] at hs
  induction conlist generalizing s entries
  case nil               =>
    cases hs
    exact ⟨entries, h, recorded_refl⟩
  case cons cp conlist ih =>
    rw [List.foldlM_cons] at hs
    have ⟨s₁, hs₁, hs⟩ := Option.bind_eq_some_iff.mp hs
    have ⟨entries₁, h₁, hr₁⟩ := h.keepConstraint hs₁
    have ⟨entries₂, h₂, hr₂⟩ := ih h₁ hs
    exact ⟨entries₂, h₂, hr₁.trans hr₂⟩

section Progress

-- The pointers are to elements of the lists.
variable (ha : a ∈ (entries list).map Prod.fst) (hd : d ∈ (entries list').map Prod.fst)
include ha hd

theorem keepItem_isSome (h : s.Linked entries) (lval item : CString) :
    ∃ s', s.keepItem (some a) (some d) lval item = some s' := by
  rw [AuthLists.keepItem]
  split
  case isTrue  => exact h.modify_isSome ha
  case isFalse =>
    split
    case isTrue  => exact h.modify_isSome hd
    case isFalse =>
      split
      case isTrue  => exact h.modify_isSome ha
      case isFalse => exact ⟨s, rfl⟩

theorem keepItems_isSome (h : s.Linked entries) (lval : CString) (items : List CString) :
    ∃ s', items.foldlM (AuthLists.keepItem (some a) (some d) lval) s = some s' := by
  induction items generalizing s entries
  case nil             => exact ⟨s, rfl⟩
  case cons item items ih =>
    have ⟨s₁, hs₁⟩ := h.keepItem_isSome ha hd lval item
    have ⟨entries₁, h₁, hr₁⟩ := h.keepItem hs₁
    have ⟨s₂, hs₂⟩ := ih (hr₁.addresses list ▸ ha) (hr₁.addresses list' ▸ hd) h₁
    exact ⟨s₂, by rw [List.foldlM_cons, hs₁]; exact hs₂⟩

theorem keepConstraint_isSome (h : s.Linked entries) (cp : AccessConstraint) :
    ∃ s', s.keepConstraint isDefinedClass (some a) (some d) cp = some s' := by
  rw [AuthLists.keepConstraint]
  split
  case isTrue  => exact ⟨s, rfl⟩
  case isFalse =>
    split
    case h_1 =>
      split
      case isTrue  => exact h.modify_isSome ha
      case isFalse => exact ⟨s, rfl⟩
    case h_2 => exact h.keepItems_isSome ha hd _ _
    case h_3 => exact ⟨s, rfl⟩

theorem keepConstraints_isSome (h : s.Linked entries) (conlist : List AccessConstraint) :
    ∃ s', s.keepConstraints isDefinedClass (some a) (some d) conlist = some s' := by
  simp only [AuthLists.keepConstraints]
  induction conlist generalizing s entries
  case nil               => exact ⟨s, rfl⟩
  case cons cp conlist ih =>
    have ⟨s₁, hs₁⟩ : ∃ s₁, s.keepConstraint isDefinedClass (some a) (some d) cp = some s₁ :=
      h.keepConstraint_isSome ha hd cp
    have ⟨entries₁, h₁, hr₁⟩ := h.keepConstraint hs₁
    have ⟨s₂, hs₂⟩ := ih (hr₁.addresses list ▸ ha) (hr₁.addresses list' ▸ hd) h₁
    exact ⟨s₂, by rw [List.foldlM_cons, hs₁]; exact hs₂⟩

end Progress

end Linked
end AuthLists
end CfEngine
