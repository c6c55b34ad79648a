import CfEngine.CfServerd.ServerTransform.Linked

namespace CfEngine
namespace AuthLists

open Function (update)

def constraintHosts (isDefinedClass : CString → Bool) (lval : CString) (cp : AccessConstraint) : List CString :=
  if isDefinedClass cp.classes then
    match cp.rval with
    | .list items => if cp.lval = lval then items else []
    | _           => []
  else
    []

def setFlag (flag : Option (Auth → Auth)) (ap : Option Nat) (s : AuthLists) : Option AuthLists :=
  match flag with
  | none      => some s
  | some flag => s.modify ap flag

-- What the functions have in common.
def keepAuth (isDefinedClass : CString → Bool) (flag : Option (Auth → Auth)) (admits denies : AuthList)
    (listVar : AuthVar) (name : CString) (conlist : List AccessConstraint) (s : AuthLists) : Option AuthLists := do
  let s ← s.provideAuthPath name admits listVar (.top admits)
  let s ← s.provideAuthPath name denies (.list denies) (.top denies)
  let ap ← s.getAuthPath name admits
  let dp ← s.getAuthPath name denies
  let s ← s.setFlag flag ap
  s.keepConstraints isDefinedClass ap dp conlist

variable {s s' : AuthLists} {entries entries' : Entries} {list : AuthList} {listVar : AuthVar} {name : CString} {a d : Nat}

-- The elements of a list after the name has been looked for, and maybe installed.
def provided (name : CString) (a : Nat) (l : List (Nat × Auth)) : List (Nat × Auth) :=
  if unslashedPath name ∈ paths l then l else l ++ [(a, newAuth name)]

theorem find?_path_eq_none {l : List (Nat × Auth)} {path : CString} :
    (l.find? fun e => e.2.path = path) = none ↔ path ∉ paths l := by
  rw [List.find?_eq_none, paths, List.mem_map]
  simp

-- If the name is found then its element is the only one of that name.
theorem find?_path_eq_some {l : List (Nat × Auth)} {path : CString} (h : path ∈ paths l) :
    ∃ e ∈ l, e.2.path = path ∧ (l.find? fun e => e.2.path = path) = some e := by
  cases hf : l.find? fun e => e.2.path = path
  case none   => exact absurd h <| find?_path_eq_none.mp hf
  case some e => exact ⟨e, List.mem_of_find?_eq_some hf, by simpa using List.find?_some hf, rfl⟩

theorem Linked.provide (h : s.Linked entries) (hl : listVar = .list list ∨ entries list ≠ []) :
    ∃ s' a, s.provideAuthPath name list listVar (.top list) = some s' ∧
      s'.Linked (update entries list <| provided name a <| entries list) := by
  rw [provideAuthPath, h.getAuthPath]
  by_cases hm : unslashedPath name ∈ paths (entries list)
  case pos =>
    have ⟨e, _, _, hf⟩ := find?_path_eq_some hm
    refine ⟨s, 0, by rw [hf]; rfl, ?_⟩
    rwa [provided, if_pos hm, Function.update_eq_self]
  case neg =>
    have ⟨s', hs, h'⟩ := @Linked.install s _ list _ name h hl
    refine ⟨s', s.cells.length, by rw [find?_path_eq_none.mpr hm]; exact hs, ?_⟩
    rwa [provided, if_neg hm]

theorem paths_provided {l : List (Nat × Auth)} : paths (provided name a l) =
    if unslashedPath name ∈ paths l then paths l else paths l ++ [name] := by
  rw [provided]
  split
  case isTrue  => rfl
  case isFalse => exact List.map_append

variable {isDefined : CString → Bool} {flag : Option (Auth → Auth)} {admits denies : AuthList} {middle : Entries}
  {conlist : List AccessConstraint} {ap dp : Option Nat}

-- The flag changes nothing that is of interest.
def IsFlag (flag : Auth → Auth) : Prop :=
  ∀ auth, (flag auth).path = auth.path ∧ (flag auth).accesslist = auth.accesslist

theorem Linked.setFlag (h : s.Linked entries) (hflag : ∀ f ∈ flag, IsFlag f) (hs : s.setFlag flag ap = some s') :
    ∃ entries', s'.Linked entries' ∧ Recorded entries entries' fun _ => [] := by
  cases flag
  case none   =>
    cases hs
    exact ⟨entries, h, recorded_refl⟩
  case some f =>
    have hf := hflag f rfl
    have hmodified := @Linked.modify_recorded s s' entries f ap [] h hs (fun auth => (hf auth).left) fun auth =>
      (hf auth).right
    simpa using hmodified

-- The state in which the constraints are looked at.
structure Found (s : AuthLists) (before : Entries) (admits denies : AuthList) (name : CString) (middle : Entries) :
    Prop where
  linked   : s.Linked middle
  admitted : ∃ a, middle admits = provided name a (before admits)
  denied   : ∃ d, middle denies = provided name d (before denies)
  others   : ∀ list, list ≠ admits → list ≠ denies → middle list = before list

def pointerTo (name : CString) (l : List (Nat × Auth)) : Option Nat :=
  (l.find? fun e => e.2.path = unslashedPath name).map Prod.fst

theorem keepAuth_found (h : s.Linked entries) (hne : admits ≠ denies) (hl : listVar = .list admits ∨ entries admits ≠ []) :
    ∃ s₁ middle, Found s₁ entries admits denies name middle ∧
      s.keepAuth isDefined flag admits denies listVar name conlist =
        (s₁.setFlag flag <| pointerTo name <| middle admits) >>=
          keepConstraints isDefined (pointerTo name <| middle admits) (pointerTo name <| middle denies) conlist := by
  have ⟨s₁, a, hs₁, h₁⟩ := @Linked.provide s _ admits _ name h hl
  have ⟨s₂, d, hs₂, h₂⟩ := @Linked.provide s₁ _ denies _ name h₁ <| .inl rfl
  refine ⟨s₂, _, ⟨h₂, ⟨a, ?_⟩, ⟨d, ?_⟩, fun list ha hd => ?_⟩, ?_⟩
  · rw [Function.update_of_ne hne, Function.update_self]
  · rw [Function.update_self, Function.update_of_ne hne.symm]
  · rw [Function.update_of_ne hd, Function.update_of_ne ha]
  · rw [keepAuth, hs₁, Option.bind_eq_bind, Option.bind_some, hs₂, Option.bind_eq_bind, Option.bind_some, h₂.getAuthPath,
      h₂.getAuthPath]
    rfl

-- The names and the hosts of elements.
def views (l : List (Nat × Auth)) : List (CString × List Item) :=
  l.map fun e => (e.2.path, e.2.accesslist)

-- Hosts are put before those of a name, which may be new.
def upsert (name : CString) (hosts : List CString) (l : List (CString × List Item)) : List (CString × List Item) :=
  if name ∈ l.map Prod.fst then
    l.map fun v => if v.1 = name then (v.1, hosts.reverse.map hostItem ++ v.2) else v
  else
    l ++ [(name, hosts.reverse.map hostItem)]

theorem views_paths {l : List (Nat × Auth)} : (views l).map Prod.fst = paths l :=
  List.map_map ..

theorem Recorded.views {hosts : Nat → List CString} (h : Recorded entries entries' hosts) (list : AuthList) :
    views (entries' list) =
      (entries list).map fun e => (e.2.path, (hosts e.1).reverse.map hostItem ++ e.2.accesslist) := by
  have hseen := congrArg (List.map Prod.snd) <| h list
  rwa [List.map_map, List.map_map] at hseen

theorem upsert_provided {l : List (Nat × Auth)} {hosts : List CString}
    (hname : unslashedPath name = name ∨ unslashedPath name ∈ paths l) :
    ((provided name a l).map fun e => (e.2.path,
        (if e.2.path = unslashedPath name then hosts else []).reverse.map hostItem ++ e.2.accesslist)) =
      upsert (unslashedPath name) hosts (views l) := by
  have hpick {l : List (Nat × Auth)} : (l.map fun e => (e.2.path,
      (if e.2.path = unslashedPath name then hosts else []).reverse.map hostItem ++ e.2.accesslist)) =
      (views l).map fun v => if v.1 = unslashedPath name then (v.1, hosts.reverse.map hostItem ++ v.2) else v := by
    rw [views, List.map_map]
    refine List.map_congr_left fun e _ => ?_
    rw [Function.comp_apply]
    split
    case isTrue h  => rfl
    case isFalse h => rfl
  rw [provided, upsert, views_paths]
  by_cases hm : unslashedPath name ∈ paths l
  case pos => rw [if_pos hm, if_pos hm, hpick]
  case neg =>
    have hname := hname.resolve_right hm
    have hkept : ((views l).map fun v => if v.1 = unslashedPath name then (v.1, hosts.reverse.map hostItem ++ v.2) else v) =
        views l := by
      refine (List.map_congr_left fun v hv => ?_).trans <| List.map_id _
      refine if_neg fun he => hm ?_
      rw [← he, ← views_paths]
      exact List.mem_map_of_mem hv
    rw [if_neg hm, if_neg hm, List.map_append, hpick, hkept, List.map_singleton]
    simp [newAuth, hname]

theorem constraintGrants_admits {cp : AccessConstraint} (hne : a ≠ d) :
    constraintGrants isDefined (some a) (some d) cp a = constraintHosts isDefined remoteAccessAdmit cp := by
  obtain ⟨lval, classes, rval⟩ := cp
  rw [constraintGrants, constraintHosts]
  split
  case isFalse => rfl
  case isTrue  =>
    cases rval
    case list items => simp [grants, hne.symm]
    all_goals rfl

theorem constraintGrants_deny {cp : AccessConstraint} (hne : a ≠ d) :
    constraintGrants isDefined (some a) (some d) cp d = constraintHosts isDefined remoteAccessDeny cp := by
  have hlval : remoteAccessDeny ≠ remoteAccessAdmit := by decide
  obtain ⟨lval, classes, rval⟩ := cp
  rw [constraintGrants, constraintHosts]
  split
  case isFalse => rfl
  case isTrue  =>
    cases rval
    case list items =>
      dsimp only
      rw [grants]
      by_cases hd : lval = remoteAccessDeny
      case pos => rw [if_neg (hd ▸ hlval), if_pos hd, if_pos hd, if_pos rfl]
      case neg => simp [hne, hd]
    all_goals rfl

theorem constraintGrants_other {cp : AccessConstraint} {b : Nat} (ha : b ≠ a) (hd : b ≠ d) :
    constraintGrants isDefined (some a) (some d) cp b = [] := by
  rw [constraintGrants]
  split
  case isFalse => rfl
  case isTrue  =>
    split
    case h_1 => simp [grants, ha.symm, hd.symm]
    case h_2 => rfl

-- An element is that of a name if and only if it is at the address.
theorem address_iff {l : List (Nat × Auth)} {path : CString} {e e' : Nat × Auth} (ha : (l.map Prod.fst).Nodup)
    (hp : (paths l).Nodup) (he : e ∈ l) (he' : e' ∈ l) (hpath : e.2.path = path) : e'.1 = e.1 ↔ e'.2.path = path := by
  constructor
  case mp  => exact fun h => List.inj_on_of_nodup_map ha he' he h ▸ hpath
  case mpr => exact fun h => congrArg Prod.fst <| List.inj_on_of_nodup_map hp he' he <| h.trans hpath.symm

theorem nodup_provided {l : List (Nat × Auth)} (hname : unslashedPath name = name ∨ unslashedPath name ∈ paths l)
    (hp : (paths l).Nodup) : (paths <| provided name a l).Nodup ∧ unslashedPath name ∈ paths (provided name a l) := by
  rw [paths_provided]
  split
  case isTrue hm  => exact ⟨hp, hm⟩
  case isFalse hm =>
    have hname := hname.resolve_right hm
    rw [hname] at hm ⊢
    refine ⟨List.nodup_append.mpr ⟨hp, List.nodup_singleton _, fun b hb c hc he => hm ?_⟩, List.mem_append_right _ <| .head _⟩
    rw [← List.mem_singleton.mp hc, ← he]
    exact hb

-- A promise whose name can be found again does what it says.
theorem keepAuth_sound (h : s.Linked entries) (hne : admits ≠ denies) (hl : listVar = .list admits ∨ entries admits ≠ [])
    (hflag : ∀ f ∈ flag, IsFlag f)
    (hadmits : unslashedPath name = name ∨ unslashedPath name ∈ paths (entries admits))
    (hdenies : unslashedPath name = name ∨ unslashedPath name ∈ paths (entries denies))
    (hn : ∀ list, (paths <| entries list).Nodup) :
    ∃ s' entries', s.keepAuth isDefined flag admits denies listVar name conlist = some s' ∧ s'.Linked entries' ∧
      views (entries' admits) = upsert (unslashedPath name)
        (conlist.flatMap <| constraintHosts isDefined remoteAccessAdmit) (views <| entries admits) ∧
      views (entries' denies) = upsert (unslashedPath name)
        (conlist.flatMap <| constraintHosts isDefined remoteAccessDeny) (views <| entries denies) ∧
      ∀ list, list ≠ admits → list ≠ denies → views (entries' list) = views (entries list) := by
  have ⟨s₁, middle, hfound, heq⟩ := @keepAuth_found s entries listVar name isDefined flag admits denies conlist h hne hl
  have ⟨a₀, hma⟩ := hfound.admitted
  have ⟨d₀, hmd⟩ := hfound.denied
  have hpa := @nodup_provided name a₀ _ hadmits <| hn admits
  have hpd := @nodup_provided name d₀ _ hdenies <| hn denies
  rw [← hma] at hpa
  rw [← hmd] at hpd
  have ⟨ea, hea, hpea, hfa⟩ := find?_path_eq_some hpa.right
  have ⟨ed, hed, hped, hfd⟩ := find?_path_eq_some hpd.right
  have hap : pointerTo name (middle admits) = some ea.1 := by rw [pointerTo, hfa]; rfl
  have hdp : pointerTo name (middle denies) = some ed.1 := by rw [pointerTo, hfd]; rfl
  have hma' : ea.1 ∈ (middle admits).map Prod.fst := List.mem_map_of_mem hea
  have hmd' : ed.1 ∈ (middle denies).map Prod.fst := List.mem_map_of_mem hed
  have had : ea.1 ≠ ed.1 := fun he => hne <| hfound.linked.disjoint admits denies ea.1 hma' <| he ▸ hmd'
  have ⟨s₂, hs₂⟩ : ∃ s₂, s₁.setFlag flag (some ea.1) = some s₂ := by
    cases flag
    case none   => exact ⟨s₁, rfl⟩
    case some f => exact hfound.linked.modify_isSome hma'
  have ⟨entries₂, h₂, hr₂⟩ := hfound.linked.setFlag hflag hs₂
  have ⟨s₃, hs₃⟩ : ∃ s₃, s₂.keepConstraints isDefined (some ea.1) (some ed.1) conlist = some s₃ :=
    h₂.keepConstraints_isSome (hr₂.addresses admits ▸ hma') (hr₂.addresses denies ▸ hmd') conlist
  have ⟨entries₃, h₃, hr₃⟩ := h₂.keepConstraints hs₃
  have hviews := (hr₂.trans hr₃).views
  refine ⟨s₃, entries₃, ?_, h₃, ?_, ?_, fun list hla hld => ?_⟩
  · rw [heq, hap, hdp, hs₂]
    exact hs₃
  · rw [hviews, ← @upsert_provided name a₀ _ _ hadmits, ← hma]
    refine List.map_congr_left fun e he => ?_
    have hiff := address_iff (hfound.linked.chained admits).nodup hpa.left hea he hpea
    have hned : e.1 ≠ ed.1 := fun heq => hne <| hfound.linked.disjoint admits denies e.1 (List.mem_map_of_mem he) <| heq ▸ hmd'
    by_cases hpath : e.2.path = unslashedPath name
    case pos => simp only [if_pos hpath, hiff.mpr hpath, constraintGrants_admits had, List.nil_append]
    case neg => simp [hpath, constraintGrants_other (mt hiff.mp hpath) hned]
  · rw [hviews, ← @upsert_provided name d₀ _ _ hdenies, ← hmd]
    refine List.map_congr_left fun e he => ?_
    have hiff := address_iff (hfound.linked.chained denies).nodup hpd.left hed he hped
    have hnea : e.1 ≠ ea.1 := fun heq => hne <| hfound.linked.disjoint admits denies e.1 (heq ▸ hma') <| List.mem_map_of_mem he
    by_cases hpath : e.2.path = unslashedPath name
    case pos => simp only [if_pos hpath, hiff.mpr hpath, constraintGrants_deny had, List.nil_append]
    case neg => simp [hpath, constraintGrants_other hnea (mt hiff.mp hpath)]
  · rw [hviews, ← hfound.others list hla hld, AuthLists.views]
    refine List.map_congr_left fun e he => ?_
    have hnea : e.1 ≠ ea.1 := fun heq => hla <| hfound.linked.disjoint list admits e.1 (List.mem_map_of_mem he) <| heq ▸ hma'
    have hned : e.1 ≠ ed.1 := fun heq => hld <| hfound.linked.disjoint list denies e.1 (List.mem_map_of_mem he) <| heq ▸ hmd'
    simp [constraintGrants_other hnea hned]

-- The list is given by the pointer to the last element, where there is none: it stays empty.
theorem keepAuth_top {f : Auth → Auth} (h : s.Linked entries) (hne : admits ≠ denies) (hnil : entries admits = []) :
    s.keepAuth isDefined (some f) admits denies (.top admits) name conlist = none := by
  have hlist : s.vars (.list admits) = none := (h.chained admits).front_eq.trans <| hnil ▸ rfl
  have htop : s.vars (.top admits) = none := (h.top admits).trans <| hnil ▸ rfl
  have htops (list : AuthList) : AuthVar.list admits ≠ .top list := nofun
  have hfind (s : AuthLists) (hs : s.vars (.list admits) = none) : s.getAuthPath name admits = some none := by
    rw [getAuthPath, hs]
    cases s.cells.length <;> rfl
  have hprovide : s.provideAuthPath name admits (.top admits) (.top admits) =
      some ⟨s.cells ++ [some ⟨newAuth name, none⟩],
        update (update s.vars (.top admits) <| some s.cells.length) (.top admits) <| some s.cells.length⟩ := by
    simp only [provideAuthPath, hfind s hlist, installServerAuthPath, htop]
  -- The other list is provided in any case.
  have hother {s₁ s₂ : AuthLists} (hs : s₁.provideAuthPath name denies (.list denies) (.top denies) = some s₂)
      (hv : s₁.vars (.list admits) = none) : s₂.vars (.list admits) = none := by
    have hkeep : AuthVar.list admits ≠ .list denies := by simpa using hne
    rw [provideAuthPath] at hs
    split at hs
    case h_1 => cases hs
    case h_2 => cases hs; exact hv
    case h_3 =>
      rw [installServerAuthPath] at hs
      split at hs
      case h_1 =>
        cases hs
        dsimp only
        rw [Function.update_of_ne (htops denies), Function.update_of_ne hkeep, hv]
      case h_2 =>
        split at hs
        case h_1 => cases hs
        case h_2 =>
          cases hs
          dsimp only
          rw [Function.update_of_ne (htops denies), hv]
  rw [keepAuth, hprovide, Option.bind_eq_bind, Option.bind_some, Option.bind_eq_none_iff]
  intro s₂ hs₂
  have hv := hother hs₂ <| by
    dsimp only
    rw [Function.update_of_ne (htops admits), Function.update_of_ne (htops admits), hlist]
  rw [hfind s₂ hv, Option.bind_eq_bind, Option.bind_some, Option.bind_eq_none_iff]
  exact fun _ _ => rfl

-- The element is not found under the name under which it has been installed.
theorem keepAuth_slashed {f : Auth → Auth} (h : s.Linked entries) (hne : admits ≠ denies)
    (hl : listVar = .list admits ∨ entries admits ≠ []) (hm : unslashedPath name ∉ paths (entries admits))
    (hname : unslashedPath name ≠ name) : s.keepAuth isDefined (some f) admits denies listVar name conlist = none := by
  have ⟨s₁, middle, hfound, heq⟩ :=
    @keepAuth_found s entries listVar name isDefined (some f) admits denies conlist h hne hl
  have ⟨a, hma⟩ := hfound.admitted
  have hnone : pointerTo name (middle admits) = none := by
    rw [pointerTo, find?_path_eq_none.mpr]
    · rfl
    · rw [hma, paths_provided, if_neg hm, List.mem_append, List.mem_singleton]
      exact fun h => h.elim hm hname
  rw [heq, hnone]
  rfl

-- What a promise does to the names at least.
theorem keepAuth_paths (h : s.Linked entries) (hne : admits ≠ denies) (hl : listVar = .list admits ∨ entries admits ≠ [])
    (hflag : ∀ f ∈ flag, IsFlag f)
    (hs : s.keepAuth isDefined flag admits denies listVar name conlist = some s') :
    ∃ entries', s'.Linked entries' ∧ (∃ a, paths (entries' admits) = paths (provided name a <| entries admits)) ∧
      (∃ d, paths (entries' denies) = paths (provided name d <| entries denies)) ∧
      ∀ list, list ≠ admits → list ≠ denies → paths (entries' list) = paths (entries list) := by
  have ⟨s₁, middle, hfound, heq⟩ := @keepAuth_found s entries listVar name isDefined flag admits denies conlist h hne hl
  rw [heq] at hs
  have ⟨s₂, hs₂, hs₃⟩ := Option.bind_eq_some_iff.mp hs
  have ⟨entries₂, h₂, hr₂⟩ := hfound.linked.setFlag hflag hs₂
  have ⟨entries₃, h₃, hr₃⟩ := h₂.keepConstraints hs₃
  have hpaths := (hr₂.trans hr₃).paths
  have ⟨a, hma⟩ := hfound.admitted
  have ⟨d, hmd⟩ := hfound.denied
  refine ⟨entries₃, h₃, ⟨a, by rw [hpaths, hma]⟩, ⟨d, by rw [hpaths, hmd]⟩, fun list hla hld => ?_⟩
  rw [hpaths, hfound.others list hla hld]

theorem paths_prefix_provided {l : List (Nat × Auth)} : paths l <+: paths (provided name a l) := by
  rw [paths_provided]
  split
  case isTrue  => exact List.prefix_rfl
  case isFalse => exact List.prefix_append ..

theorem keepAuth_prefix (h : s.Linked entries) (hne : admits ≠ denies) (hl : listVar = .list admits ∨ entries admits ≠ [])
    (hflag : ∀ f ∈ flag, IsFlag f)
    (hs : s.keepAuth isDefined flag admits denies listVar name conlist = some s') :
    ∃ entries', s'.Linked entries' ∧ ∀ list, paths (entries list) <+: paths (entries' list) := by
  have ⟨entries', h', ⟨a, ha⟩, ⟨d, hd⟩, hothers⟩ := keepAuth_paths h hne hl hflag hs
  refine ⟨entries', h', fun list => ?_⟩
  by_cases hla : list = admits
  case pos => rw [hla, ha]; exact paths_prefix_provided
  case neg =>
    by_cases hld : list = denies
    case pos => rw [hld, hd]; exact paths_prefix_provided
    case neg => rw [hothers list hla hld]

end AuthLists
end CfEngine
