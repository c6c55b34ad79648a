import CfEngine.CfServerd.ServerTransform.Access

namespace CfEngine
namespace AuthLists

abbrev AccessCall := AccessType × AccessPromise

-- The name that a promise gives to the element.
def accessName : AccessCall → Option CString
  | (.file, pp)             => some <| unslashedPath pp.promiser
  | (.literal .literal, pp) => pp.handle
  | (_, pp)                 => some pp.promiser

-- The promises whose hosts are in the list.
def isFor : AuthList → AccessType → Bool
  | .admitList, type    => type = .file
  | .denyList, type     => type = .file
  | .varadmitList, type => type ≠ .file
  | .vardenyList, type  => type ≠ .file

-- The name by which the element of the list is found.
def nameIn (list : AuthList) (call : AccessCall) : Option CString :=
  if isFor list call.1 then (accessName call).map unslashedPath else none

def hostsLval : AuthList → CString
  | .admitList    => remoteAccessAdmit
  | .denyList     => remoteAccessDeny
  | .varadmitList => remoteAccessAdmit
  | .vardenyList  => remoteAccessDeny

def promiseHosts (isDefinedClass : CString → CString → Bool) (list : AuthList) (pp : AccessPromise) : List CString :=
  pp.conlist.flatMap <| constraintHosts (isDefinedClass pp.ns) (hostsLval list)

-- All hosts that are admitted or denied for the name.
def hostsFor (isDefinedClass : CString → CString → Bool) (list : AuthList) (calls : List AccessCall) (name : CString) :
    List CString :=
  calls.flatMap fun call => if nameIn list call = some name then promiseHosts isDefinedClass list call.2 else []

-- The distinct names in the order in which they appear first.
def appearances (names : List CString) : List CString :=
  names.foldl (fun seen name => if name ∈ seen then seen else seen ++ [name]) []

-- The list is what the promises ask for.
structure Collected (isDefinedClass : CString → CString → Bool) (calls : List AccessCall) (s : AuthLists)
    (list : AuthList) (entries : List (Nat × Auth)) : Prop where
  chained : Links.Chained s.cells (s.vars <| .list list) entries none
  top     : s.vars (.top list) = entries.getLast?.map Prod.fst
  names   : paths entries = appearances (calls.filterMap <| nameIn list)
  hosts   : ∀ e ∈ entries, e.2.accesslist = (hostsFor isDefinedClass list calls e.2.path).reverse.map hostItem

-- The first promise about data of the server is not one about a variable or a context, and a name does not end with a
-- slash where it appears first.
structure WellNamed (calls : List AccessCall) : Prop where
  first     : ∀ before call after, calls = before ++ call :: after → (∀ call' ∈ before, nameIn .varadmitList call' = none) →
    call.1 ≠ .literal .var ∧ call.1 ≠ .literal .context
  unslashed : ∀ before call after list name, calls = before ++ call :: after → isFor list call.1 → accessName call = some name →
    (∀ call' ∈ before, nameIn list call' ≠ some (unslashedPath name)) → unslashedPath name = name

variable {s s' : AuthLists} {entries entries' : Entries} {list : AuthList} {name : CString}
  {isDefinedClass : CString → CString → Bool} {pp : AccessPromise} {calls : List AccessCall} {call : AccessCall}

theorem keepFileAccessPromise_eq : s.keepFileAccessPromise isDefinedClass pp =
    s.keepAuth (isDefinedClass pp.ns) none .admitList .denyList (.list .admitList) (unslashedPath pp.promiser) pp.conlist :=
  rfl

theorem keepLiteralAccessPromise_literal {handle : CString} (h : pp.handle = some handle) :
    s.keepLiteralAccessPromise isDefinedClass pp .literal = s.keepAuth (isDefinedClass pp.ns)
      (some ({ · with literal := true })) .varadmitList .vardenyList (.list .varadmitList) handle pp.conlist := by
  rw [keepLiteralAccessPromise, h]
  rfl

theorem keepLiteralAccessPromise_context : s.keepLiteralAccessPromise isDefinedClass pp .context =
    s.keepAuth (isDefinedClass pp.ns) (some ({ · with classpattern := true })) .varadmitList .vardenyList (.top .varadmitList)
      pp.promiser pp.conlist :=
  rfl

theorem keepLiteralAccessPromise_var : s.keepLiteralAccessPromise isDefinedClass pp .var =
    s.keepAuth (isDefinedClass pp.ns) (some ({ · with var := true })) .varadmitList .vardenyList (.top .varadmitList) pp.promiser
      pp.conlist :=
  rfl

theorem keepQueryAccessPromise_eq : s.keepQueryAccessPromise isDefinedClass pp = s.keepAuth (isDefinedClass pp.ns)
    (some ({ · with literal := true })) .varadmitList .vardenyList (.list .varadmitList) pp.promiser pp.conlist :=
  rfl

def admitsOf (type : AccessType) : AuthList :=
  if type = .file then .admitList else .varadmitList

def deniesOf (type : AccessType) : AuthList :=
  if type = .file then .denyList else .vardenyList

-- What a promise with a name does.
structure Keeps (isDefinedClass : CString → CString → Bool) (call : AccessCall) (name : CString)
    (flag : Option (Auth → Auth)) (listVar : AuthVar) : Prop where
  eq     : ∀ s, keepAccessPromise isDefinedClass s call = s.keepAuth (isDefinedClass call.2.ns) flag (admitsOf call.1)
    (deniesOf call.1) listVar name call.2.conlist
  isFlag : ∀ f ∈ flag, IsFlag f
  file   : call.1 = .file ↔ flag = none
  list   : listVar = .list (admitsOf call.1) → call.1 ≠ .literal .var ∧ call.1 ≠ .literal .context
  top    : listVar = .list (admitsOf call.1) ∨
    listVar = .top (admitsOf call.1) ∧ (call.1 = .literal .var ∨ call.1 = .literal .context)

theorem keepAccessPromise_nameless (h : accessName call = none) : keepAccessPromise isDefinedClass s call = some s := by
  obtain ⟨type, pp⟩ := call
  cases type
  case file         => nomatch h
  case query        => nomatch h
  case literal type =>
    cases type
    case var      => nomatch h
    case context  => nomatch h
    case literal  =>
      have h : pp.handle = none := h
      rw [keepAccessPromise, keepLiteralAccessPromise, h]

theorem keepAccessPromise_keeps (h : accessName call = some name) :
    ∃ flag listVar, Keeps isDefinedClass call name flag listVar := by
  have hflag (f : Auth → Auth) (hf : IsFlag f) : ∀ f' ∈ some f, IsFlag f' := fun f' hf' => Option.some.inj hf' ▸ hf
  obtain ⟨type, pp⟩ := call
  cases type
  case file         =>
    cases h
    exact ⟨none, _, fun _ => keepFileAccessPromise_eq, nofun, by simp, fun _ => ⟨nofun, nofun⟩, .inl rfl⟩
  case query        =>
    cases h
    exact ⟨_, _, fun _ => keepQueryAccessPromise_eq, hflag _ fun _ => ⟨rfl, rfl⟩, by simp, fun _ => ⟨nofun, nofun⟩, .inl rfl⟩
  case literal type =>
    cases type
    case var      =>
      cases h
      exact ⟨_, _, fun _ => keepLiteralAccessPromise_var, hflag _ fun _ => ⟨rfl, rfl⟩, by simp,
        nofun, .inr ⟨rfl, .inl rfl⟩⟩
    case context  =>
      cases h
      exact ⟨_, _, fun _ => keepLiteralAccessPromise_context, hflag _ fun _ => ⟨rfl, rfl⟩, by simp,
        nofun, .inr ⟨rfl, .inr rfl⟩⟩
    case literal  =>
      exact ⟨_, _, fun _ => keepLiteralAccessPromise_literal h, hflag _ fun _ => ⟨rfl, rfl⟩, by simp, fun _ => ⟨nofun, nofun⟩,
        .inl rfl⟩

theorem admitsOf_ne_deniesOf (type : AccessType) : admitsOf type ≠ deniesOf type := by
  rw [admitsOf, deniesOf]
  split <;> nofun

theorem isFor_iff {type : AccessType} : isFor list type = true ↔ list = admitsOf type ∨ list = deniesOf type := by
  rw [admitsOf, deniesOf]
  by_cases h : type = .file <;> cases list <;> simp [isFor, h]

theorem nameIn_of_isFor (h : accessName call = some name) (hf : isFor list call.1 = true) :
    nameIn list call = some (unslashedPath name) := by
  rw [nameIn, if_pos hf, h]
  rfl

theorem nameIn_of_not_isFor (hf : isFor list call.1 = false) : nameIn list call = none := by
  rw [nameIn, hf]
  rfl

theorem nameIn_of_nameless (h : accessName call = none) : nameIn list call = none := by
  rw [nameIn, h]
  split <;> rfl

-- A name is in both lists of its kind.
theorem nameIn_deniesOf (type : AccessType) : nameIn (deniesOf type) call = nameIn (admitsOf type) call := by
  rw [nameIn, nameIn, deniesOf, admitsOf]
  split <;> rfl

theorem appearances_concat {names : List CString} {name : CString} : appearances (names ++ [name]) =
    if name ∈ appearances names then appearances names else appearances names ++ [name] := by
  rw [appearances, List.foldl_append]
  rfl

theorem mem_appearances {names : List CString} {name : CString} : name ∈ appearances names ↔ name ∈ names := by
  induction names using List.reverseRecOn generalizing name
  case nil                       => rfl
  case append_singleton names name' ih =>
    rw [appearances_concat]
    split
    case isTrue h  =>
      rw [ih] at h
      rw [ih]
      constructor
      case mp  => exact List.mem_append_left _
      case mpr =>
        intro hm
        refine (List.mem_append.mp hm).elim id fun hs => ?_
        rwa [List.mem_singleton.mp hs]
    case isFalse h => rw [List.mem_append, List.mem_append, ih]

theorem nodup_appearances (names : List CString) : (appearances names).Nodup := by
  induction names using List.reverseRecOn
  case nil                       => exact List.nodup_nil
  case append_singleton names name ih =>
    rw [appearances_concat]
    split
    case isTrue    => exact ih
    case isFalse h =>
      refine List.nodup_append.mpr ⟨ih, List.nodup_singleton _, fun a ha b hb he => h ?_⟩
      rw [← List.mem_singleton.mp hb, ← he]
      exact ha

theorem appearances_prefix (names names' : List CString) : appearances names <+: appearances (names ++ names') := by
  induction names' using List.reverseRecOn
  case nil                        => rw [List.append_nil]
  case append_singleton names' name ih =>
    rw [← List.append_assoc, appearances_concat]
    split
    case isTrue  => exact ih
    case isFalse => exact ih.trans <| List.prefix_append ..

def namesIn (list : AuthList) (calls : List AccessCall) : List CString :=
  calls.filterMap <| nameIn list

-- The names and the hosts that promises ask for.
def expected (isDefinedClass : CString → CString → Bool) (list : AuthList) (calls : List AccessCall) :
    List (CString × List Item) :=
  (appearances <| namesIn list calls).map fun name =>
    (name, (hostsFor isDefinedClass list calls name).reverse.map hostItem)

theorem expected_names : (expected isDefinedClass list calls).map Prod.fst = appearances (namesIn list calls) := by
  rw [expected, List.map_map]
  exact List.map_id _

theorem hostsFor_concat : hostsFor isDefinedClass list (calls ++ [call]) name =
    hostsFor isDefinedClass list calls name ++
      if nameIn list call = some name then promiseHosts isDefinedClass list call.2 else [] := by
  rw [hostsFor, List.flatMap_append, List.flatMap_singleton]
  rfl

theorem hostsFor_of_not_mem (h : name ∉ namesIn list calls) : hostsFor isDefinedClass list calls name = [] := by
  rw [hostsFor, List.flatMap_eq_nil_iff]
  intro call hc
  exact if_neg fun he => h <| List.mem_filterMap.mpr ⟨call, hc, he⟩

theorem expected_concat_none (h : nameIn list call = none) :
    expected isDefinedClass list (calls ++ [call]) = expected isDefinedClass list calls := by
  have hnames : namesIn list (calls ++ [call]) = namesIn list calls := by
    simp [namesIn, h]
  rw [expected, expected, hnames]
  refine List.map_congr_left fun name _ => ?_
  rw [hostsFor_concat, h, if_neg nofun, List.append_nil]

theorem namesIn_concat (h : nameIn list call = some name) :
    namesIn list (calls ++ [call]) = namesIn list calls ++ [name] := by
  simp [namesIn, h]

theorem expected_concat_some (h : nameIn list call = some name) : expected isDefinedClass list (calls ++ [call]) =
    upsert name (promiseHosts isDefinedClass list call.2) (expected isDefinedClass list calls) := by
  have hpick {name' : CString} : (hostsFor isDefinedClass list (calls ++ [call]) name').reverse.map hostItem =
      (if name' = name then promiseHosts isDefinedClass list call.2 else []).reverse.map hostItem ++
        (hostsFor isDefinedClass list calls name').reverse.map hostItem := by
    rw [hostsFor_concat, h, List.reverse_append, List.map_append]
    simp only [Option.some.injEq, eq_comm]
  have hold : ((appearances <| namesIn list calls).map fun name' =>
      (name', (hostsFor isDefinedClass list (calls ++ [call]) name').reverse.map hostItem)) =
      (expected isDefinedClass list calls).map fun v =>
        if v.1 = name then (v.1, (promiseHosts isDefinedClass list call.2).reverse.map hostItem ++ v.2) else v := by
    rw [expected, List.map_map]
    refine List.map_congr_left fun name' _ => ?_
    rw [hpick, Function.comp_apply]
    split
    case isTrue  => rfl
    case isFalse => rfl
  rw [upsert, expected_names, expected, namesIn_concat h, appearances_concat]
  by_cases hm : name ∈ appearances (namesIn list calls)
  case pos => rw [if_pos hm, if_pos hm, hold]
  case neg =>
    have hnew : hostsFor isDefinedClass list calls name = [] := hostsFor_of_not_mem <| mt mem_appearances.mpr hm
    have hkept : ((expected isDefinedClass list calls).map fun v =>
        if v.1 = name then (v.1, (promiseHosts isDefinedClass list call.2).reverse.map hostItem ++ v.2) else v) =
        expected isDefinedClass list calls := by
      refine (List.map_congr_left fun v hv => ?_).trans <| List.map_id _
      refine if_neg fun he => hm ?_
      rw [← he, ← @expected_names list isDefinedClass]
      exact List.mem_map_of_mem hv
    rw [if_neg hm, if_neg hm, List.map_append, hold, hkept, List.map_singleton, hpick, if_pos rfl, hnew, List.reverse_nil,
      List.map_nil, List.append_nil]

-- What a promise must be like after the ones before.
structure WellNamedAfter (calls : List AccessCall) (call : AccessCall) : Prop where
  first     : (∀ call' ∈ calls, nameIn .varadmitList call' = none) → call.1 ≠ .literal .var ∧ call.1 ≠ .literal .context
  unslashed : ∀ list name, isFor list call.1 → accessName call = some name →
    (∀ call' ∈ calls, nameIn list call' ≠ some (unslashedPath name)) → unslashedPath name = name

theorem wellNamed_concat : WellNamed (calls ++ [call]) ↔ WellNamed calls ∧ WellNamedAfter calls call := by
  constructor
  case mp  =>
    intro h
    have hconcat {before call' after} (he : calls = before ++ call' :: after) :
        calls ++ [call] = before ++ call' :: (after ++ [call]) := by
      rw [he, List.append_assoc]
      rfl
    exact ⟨⟨fun _ _ _ he => h.first _ _ _ <| hconcat he, fun _ _ _ _ _ he => h.unslashed _ _ _ _ _ <| hconcat he⟩,
      ⟨h.first calls call [] rfl, fun list name => h.unslashed calls call [] list name rfl⟩⟩
  case mpr =>
    intro ⟨h, hlast⟩
    have hsplit {before call' after} (he : calls ++ [call] = before ++ call' :: after) :
        (before = calls ∧ call' = call) ∨ ∃ after', calls = before ++ call' :: after' := by
      rcases List.eq_nil_or_concat after with rfl | ⟨after', last, rfl⟩
      case inl =>
        have ⟨hb, hc⟩ := List.append_inj' he rfl
        exact .inl ⟨hb.symm, (List.cons.inj hc).left.symm⟩
      case inr =>
        rw [List.concat_eq_append, ← List.cons_append, ← List.append_assoc] at he
        exact .inr ⟨after', (List.append_inj' he rfl).left⟩
    constructor
    case first =>
      intro before call' after he
      obtain ⟨rfl, rfl⟩ | ⟨after', he⟩ := hsplit he
      · exact hlast.first
      · exact h.first before call' after' he
    case unslashed =>
      intro before call' after list name he
      obtain ⟨rfl, rfl⟩ | ⟨after', he⟩ := hsplit he
      · exact hlast.unslashed list name
      · exact h.unslashed before call' after' list name he

-- The lists are what the promises ask for.
structure Matches (isDefinedClass : CString → CString → Bool) (calls : List AccessCall) (s : AuthLists)
    (entries : Entries) : Prop where
  linked : s.Linked entries
  views  : ∀ list, views (entries list) = expected isDefinedClass list calls

theorem Matches.paths (h : Matches isDefinedClass calls s entries) (list : AuthList) :
    paths (entries list) = appearances (namesIn list calls) := by
  rw [← views_paths, h.views, expected_names]

theorem Matches.mem_paths (h : Matches isDefinedClass calls s entries) :
    name ∈ AuthLists.paths (entries list) ↔ ∃ call ∈ calls, nameIn list call = some name := by
  rw [h.paths, mem_appearances, namesIn, List.mem_filterMap]

-- A list that is still empty.
theorem Matches.eq_nil (h : Matches isDefinedClass calls s entries) :
    entries list = [] ↔ ∀ call ∈ calls, nameIn list call = none := by
  constructor
  case mp  =>
    intro hnil call hc
    by_contra hname
    have ⟨name, hname⟩ := Option.ne_none_iff_exists'.mp hname
    have hm := h.mem_paths.mpr ⟨call, hc, hname⟩
    rw [hnil] at hm
    nomatch hm
  case mpr =>
    intro hnone
    cases he : entries list
    case nil         => rfl
    case cons e rest =>
      have hm : e.2.path ∈ AuthLists.paths (entries list) := he ▸ .head _
      have ⟨call, hc, hname⟩ := h.mem_paths.mp hm
      nomatch (hnone call hc).symm.trans hname

theorem admitsOf_of_context {type : AccessType} (h : type = .literal .var ∨ type = .literal .context) :
    admitsOf type = .varadmitList := by
  obtain rfl | rfl := h <;> rfl

-- A step that is as it must be.
theorem Matches.step (h : Matches isDefinedClass calls s entries) (hw : WellNamedAfter calls call) :
    ∃ s' entries', keepAccessPromise isDefinedClass s call = some s' ∧
      Matches isDefinedClass (calls ++ [call]) s' entries' := by
  cases hname : accessName call
  case none      =>
    refine ⟨s, entries, keepAccessPromise_nameless hname, h.linked, fun list => ?_⟩
    rw [h.views, expected_concat_none <| nameIn_of_nameless hname]
  case some name =>
    have ⟨flag, listVar, hk⟩ : ∃ flag listVar, Keeps isDefinedClass call name flag listVar := keepAccessPromise_keeps hname
    have hl : listVar = .list (admitsOf call.1) ∨ entries (admitsOf call.1) ≠ [] := by
      refine hk.top.imp_right fun ⟨_, hcontext⟩ hnil => ?_
      rw [admitsOf_of_context hcontext] at hnil
      have hfirst := hw.first <| h.eq_nil.mp hnil
      exact hcontext.elim hfirst.left hfirst.right
    have hunslashed (list : AuthList) (hf : isFor list call.1 = true) :
        unslashedPath name = name ∨ unslashedPath name ∈ AuthLists.paths (entries list) := by
      refine or_iff_not_imp_right.mpr fun hm => hw.unslashed list name hf hname fun call' hc he => hm ?_
      exact h.mem_paths.mpr ⟨call', hc, he⟩
    have hadmits := isFor_iff.mpr <| .inl <| Eq.refl <| admitsOf call.1
    have hdenies := isFor_iff.mpr <| .inr <| Eq.refl <| deniesOf call.1
    have ⟨s', entries', hs, h', ha, hd, hothers⟩ := @keepAuth_sound s entries listVar name (isDefinedClass call.2.ns) flag
      _ _ call.2.conlist h.linked (admitsOf_ne_deniesOf call.1) hl hk.isFlag (hunslashed _ hadmits)
      (hunslashed _ hdenies) fun list => h.paths list ▸ nodup_appearances _
    refine ⟨s', entries', (hk.eq s).trans hs, h', fun list => ?_⟩
    by_cases hla : list = admitsOf call.1
    case pos =>
      subst hla
      have hlval : hostsLval (admitsOf call.1) = remoteAccessAdmit := by rw [admitsOf]; split <;> rfl
      rw [ha, h.views, expected_concat_some <| nameIn_of_isFor hname hadmits, promiseHosts, hlval]
    case neg =>
      by_cases hld : list = deniesOf call.1
      case pos =>
        subst hld
        have hlval : hostsLval (deniesOf call.1) = remoteAccessDeny := by rw [deniesOf]; split <;> rfl
        rw [hd, h.views, expected_concat_some <| nameIn_of_isFor hname hdenies, promiseHosts, hlval]
      case neg =>
        have hf : isFor list call.1 = false := Bool.eq_false_iff.mpr fun hf => (isFor_iff.mp hf).elim hla hld
        rw [hothers list hla hld, h.views, expected_concat_none <| nameIn_of_not_isFor hf]

-- The names differ at some place, and go on to do so.
def Deviates (names names' : List CString) : Prop :=
  ∃ common a b, a ≠ b ∧ common ++ [a] <+: names ∧ common ++ [b] <+: names'

theorem Deviates.ne {names names' : List CString} (h : Deviates names names') : names ≠ names' := by
  intro he
  have ⟨common, a, b, hne, ha, hb⟩ := h
  have heq := (List.prefix_of_prefix_length_le (he ▸ ha) hb <| by simp).eq_of_length <| by simp
  exact hne <| (List.cons.inj <| List.append_cancel_left heq).left

theorem Deviates.mono {names names' more more' : List CString} (h : Deviates names names') (hm : names <+: more)
    (hm' : names' <+: more') : Deviates more more' := by
  have ⟨common, a, b, hne, ha, hb⟩ := h
  exact ⟨common, a, b, hne, ha.trans hm, hb.trans hm'⟩

-- Some list has gone wrong.
structure Wrong (calls : List AccessCall) (s : AuthLists) (entries : Entries) : Prop where
  linked   : s.Linked entries
  deviates : ∃ list, Deviates (paths <| entries list) (appearances <| namesIn list calls)

-- A step in whose course no pointer is followed that is not to an element.
theorem Linked.step (h : s.Linked entries) (hs : keepAccessPromise isDefinedClass s call = some s') :
    ∃ entries', s'.Linked entries' ∧ ∀ list, paths (entries list) <+: paths (entries' list) := by
  cases hname : accessName call
  case none      =>
    cases (keepAccessPromise_nameless hname).symm.trans hs
    exact ⟨entries, h, fun _ => List.prefix_rfl⟩
  case some name =>
    have ⟨flag, listVar, hk⟩ : ∃ flag listVar, Keeps isDefinedClass call name flag listVar := keepAccessPromise_keeps hname
    have hs := (hk.eq s).symm.trans hs
    by_cases hl : listVar = .list (admitsOf call.1) ∨ entries (admitsOf call.1) ≠ []
    case pos => exact keepAuth_prefix h (admitsOf_ne_deniesOf _) hl hk.isFlag hs
    case neg =>
      have ⟨hlist, hnil⟩ := not_or.mp hl
      have ⟨htop, hcontext⟩ := hk.top.resolve_left hlist
      cases flag
      case none   => exact absurd (hk.file.mpr rfl) <| by obtain he | he := hcontext <;> simp [he]
      case some f =>
        subst htop
        exact nomatch (keepAuth_top h (admitsOf_ne_deniesOf _) <| not_not.mp hnil).symm.trans hs

theorem Wrong.step (h : Wrong calls s entries) (hs : keepAccessPromise isDefinedClass s call = some s') :
    ∃ entries', Wrong (calls ++ [call]) s' entries' := by
  have ⟨list, hd⟩ := h.deviates
  have ⟨entries', h', hpre⟩ := h.linked.step hs
  refine ⟨entries', h', list, hd.mono (hpre list) ?_⟩
  rw [namesIn, namesIn, List.filterMap_append]
  exact appearances_prefix ..

-- A step that is not as it must be goes wrong for good, if it ends at all.
theorem Matches.wrong (h : Matches isDefinedClass calls s entries) (hw : ¬WellNamedAfter calls call)
    (hs : keepAccessPromise isDefinedClass s call = some s') : ∃ entries', Wrong (calls ++ [call]) s' entries' := by
  cases hname : accessName call
  case none      =>
    refine absurd ⟨fun _ => ?_, fun _ _ _ he => nomatch hname.symm.trans he⟩ hw
    constructor <;> intro he <;> rw [← Prod.mk.eta (p := call), he] at hname <;> nomatch hname
  case some name =>
    have ⟨flag, listVar, hk⟩ : ∃ flag listVar, Keeps isDefinedClass call name flag listVar := keepAccessPromise_keeps hname
    have hs := (hk.eq s).symm.trans hs
    have hne := admitsOf_ne_deniesOf call.1
    have hadmits := isFor_iff.mpr <| .inl <| Eq.refl <| admitsOf call.1
    by_cases hl : listVar = .list (admitsOf call.1) ∨ entries (admitsOf call.1) ≠ []
    case neg =>
      have ⟨hlist, hnil⟩ := not_or.mp hl
      have ⟨htop, hcontext⟩ := hk.top.resolve_left hlist
      cases flag
      case none   => exact absurd (hk.file.mpr rfl) <| by obtain he | he := hcontext <;> simp [he]
      case some f =>
        subst htop
        exact nomatch (keepAuth_top h.linked hne <| not_not.mp hnil).symm.trans hs
    case pos =>
      -- The name ends with a slash where it appears first.
      have hslash : unslashedPath name ≠ name ∧ unslashedPath name ∉ AuthLists.paths (entries <| admitsOf call.1) := by
        by_contra hgood
        refine hw ⟨fun hnone => ?_, fun list name' hf he hnew => ?_⟩
        case refine_1 =>
          rw [← not_or]
          intro hcontext
          have hnil := h.eq_nil.mpr hnone
          rw [← admitsOf_of_context hcontext] at hnil
          have ⟨hvar, hctx⟩ := hk.list <| hl.resolve_right fun hne => hne hnil
          exact hcontext.elim hvar hctx
        case refine_2 =>
          cases hname.symm.trans he
          by_contra hns
          refine hgood ⟨hns, fun hm => ?_⟩
          have ⟨call', hc, he'⟩ := h.mem_paths.mp hm
          have hsame : nameIn list call' = nameIn (admitsOf call.1) call' := by
            obtain rfl | rfl := isFor_iff.mp hf
            · rfl
            · exact nameIn_deniesOf call.1
          exact hnew call' hc <| hsame.trans he'
      cases flag
      case some f => exact nomatch (keepAuth_slashed h.linked hne hl hslash.right hslash.left).symm.trans hs
      case none   =>
        have ⟨entries', h', ⟨a, ha⟩, _⟩ := keepAuth_paths h.linked hne hl hk.isFlag hs
        have hnew := hslash.right
        rw [h.paths] at hnew
        refine ⟨entries', h', admitsOf call.1, appearances (namesIn (admitsOf call.1) calls), name, unslashedPath name,
          hslash.left.symm, ?_, ?_⟩
        · rw [ha, paths_provided, if_neg hslash.right, h.paths]
        · rw [namesIn_concat <| nameIn_of_isFor hname hadmits, appearances_concat, if_neg hnew]

theorem keepAccessPromises_concat : keepAccessPromises isDefinedClass (calls ++ [call]) =
    keepAccessPromises isDefinedClass calls >>= fun s => keepAccessPromise isDefinedClass s call := by
  rw [keepAccessPromises, keepAccessPromises, List.foldlM_append]
  simp

-- What becomes of the lists in the course of promises.
theorem keepAccessPromises_cases (isDefinedClass : CString → CString → Bool) (calls : List AccessCall) :
    (WellNamed calls ∧ ∃ s entries, keepAccessPromises isDefinedClass calls = some s ∧
        Matches isDefinedClass calls s entries) ∨
      (¬WellNamed calls ∧ ∀ s, keepAccessPromises isDefinedClass calls = some s → ∃ entries, Wrong calls s entries) := by
  induction calls using List.reverseRecOn
  case nil                        =>
    refine .inl ⟨⟨fun _ _ _ he => ?_, fun _ _ _ _ _ he => ?_⟩, empty, _, rfl, linked_empty, fun _ => rfl⟩
    · exact nomatch (List.append_eq_nil_iff.mp he.symm).right
    · exact nomatch (List.append_eq_nil_iff.mp he.symm).right
  case append_singleton calls call ih =>
    rw [keepAccessPromises_concat]
    cases ih
    case inl h =>
      have ⟨hw, s, entries, hs, hm⟩ := h
      rw [hs]
      by_cases hlast : WellNamedAfter calls call
      case pos =>
        have ⟨s', entries', hs', hm'⟩ := hm.step hlast
        exact .inl ⟨wellNamed_concat.mpr ⟨hw, hlast⟩, s', entries', hs', hm'⟩
      case neg =>
        exact .inr ⟨fun hw => hlast (wellNamed_concat.mp hw).right, fun s' hs' => hm.wrong hlast hs'⟩
    case inr h =>
      have ⟨hw, hwrong⟩ := h
      refine .inr ⟨fun hw' => hw (wellNamed_concat.mp hw').left, fun s' hs' => ?_⟩
      have ⟨s, hs, hs'⟩ := Option.bind_eq_some_iff.mp hs'
      have ⟨entries, hwrong⟩ := hwrong s hs
      exact hwrong.step hs'

-- The lists are collected as they must be if and only if the promises are well named: others follow a NULL pointer, or
-- install an element that is never found.
theorem keepAccessPromises_collected_iff (isDefinedClass : CString → CString → Bool) (calls : List AccessCall) :
    (∃ s, keepAccessPromises isDefinedClass calls = some s ∧
        ∀ list, ∃ entries, Collected isDefinedClass calls s list entries) ↔ WellNamed calls := by
  obtain ⟨hw, s, entries, hs, hm⟩ | ⟨hw, hwrong⟩ := keepAccessPromises_cases isDefinedClass calls
  case inl =>
    refine iff_of_true ⟨s, hs, fun list => ⟨entries list, hm.linked.chained list, hm.linked.top list, hm.paths list, ?_⟩⟩ hw
    intro e he
    have hv : (e.2.path, e.2.accesslist) ∈ expected isDefinedClass list calls :=
      hm.views list ▸ List.mem_map_of_mem (f := fun e : Nat × Auth => (e.2.path, e.2.accesslist)) he
    have ⟨name, _, heq⟩ := List.mem_map.mp hv
    have ⟨hpath, hhosts⟩ := Prod.mk.inj heq
    rw [← hhosts, hpath]
  case inr =>
    refine iff_of_false (fun ⟨s, hs, hcollected⟩ => ?_) hw
    have ⟨entries, hlinked, list, hd⟩ := hwrong s hs
    have ⟨entries', hc⟩ := hcollected list
    have he : entries list = entries' := (hlinked.chained list).unique hc.chained
    exact hd.ne <| he ▸ hc.names

-- A promise about a context, without any before.
def contextCalls : List AccessCall :=
  [(.literal .context,
    { ns       := "default".toList
      promiser := "agents_.*".toList
      handle   := none
      conlist  := [⟨remoteAccessAdmit, "any".toList, .list ["192.168.1.1".toList]⟩] })]

theorem not_keepAccessPromises_collected :
    keepAccessPromises (fun _ _ => true) contextCalls = none ∧
      ¬∃ s, keepAccessPromises (fun _ _ => true) contextCalls = some s ∧
        ∀ list, ∃ entries, Collected (fun _ _ => true) contextCalls s list entries := by
  have hnone : keepAccessPromises (fun _ _ => true) contextCalls = none := rfl
  exact ⟨hnone, fun ⟨_, hs, _⟩ => nomatch hnone.symm.trans hs⟩

end AuthLists
end CfEngine
