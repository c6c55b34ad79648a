import Mathlib.Data.Set.Finite.Lattice
import CfEngine.Library.Levels
import CfEngine.Libpromises.EnvContext.VariableStore

open Levels

namespace CfEngine

def isNakedVar (str : CString) (vtype : Char) : Bool :=
  match str, str.getLast? with
  | c :: b :: _ :: _, some last =>
    c = vtype && (b = '(' && last = ')' || b = '{' && last = '}') && go 0 str
  | _, _                        => false
where
  go (count : Int) : CString → Bool
    | []     => count = 0
    | c :: s =>
      if c ∈ ['(', '{', '['] then
        go (count + 1) s
      else if c ∈ [')', '}', ']'] then
        if count - 1 = 0 ∧ s ≠ [] then false else go (count - 1) s
      else
        go count s

-- A name that does not fit into the buffer of the caller is undefined behaviour.
def getNaked (s1 : CString) : Option CString :=
  if s1.length < 4 then
    some s1
  else if s1.length - 3 < cfBufSize then
    some <| (s1.drop 2).take (s1.length - 3)
  else
    none

section

variable {α : Type} (ctx : EvalContext) (reg : ScopeRegistry)

-- The body of the loop in `RlistFlatten`. The items that are not scalars are of the type `α`. The loop
-- stops where the process exits, for a variable that is not a list, and at undefined behaviour.
def rlistFlattenItem : CString ⊕ α → Step (CString ⊕ α)
  | .inr _    => .keep
  | .inl item =>
    if isNakedVar item '@' then
      match getNaked item with
      | none       => .stop
      | some naked =>
        if isExpandable naked then
          .keep
        else
          match varRefParse naked with
          | none     => .stop
          | some ref =>
            match ctx.evalContextVariableGet reg ref with
            | none                        => .stop
            | some none                   => .keep
            | some (some (.list rv, _))   => .replace (rv.map .inl)
            | some (some (.scalar _, _)) => .stop
    else
      .keep

-- The list consists of the items before `rp` and those from `rp` on. `RlistAppend` appends to the
-- latter, and `rp->next` is read after that.
def rlistFlatten (fuel : Nat) (list : List (CString ⊕ α)) : Option (Outcome (List (CString ⊕ α))) :=
  run (rlistFlattenItem ctx reg) fuel [] list

def RlistFlattenEnds (list : List (CString ⊕ α)) : Prop :=
  ∃ fuel, (rlistFlatten ctx reg fuel list).isSome

-- The list is left as the in-place flattening.
def FlattensInPlace (list : List (CString ⊕ α)) : Prop :=
  ∃ fuel out, InPlace (rlistFlattenItem ctx reg) 0 list out ∧
    rlistFlatten ctx reg fuel list = some (some <| out.map Prod.fst)

end

variable {α : Type} {ctx : EvalContext} {reg : ScopeRegistry} {list : List (CString ⊕ α)}

theorem AssocHashTable.finite_holds {t : AssocHashTable} : {a | t.Holds a}.Finite := by
  cases t
  case tiny array   => exact array.values.finite_toSet
  case huge buckets =>
    have h i : {a | buckets i = .assoc a}.Finite := by
      apply Set.Subsingleton.finite
      intro a ha a' ha'
      exact Bucket.assoc.inj <| (ha : buckets i = _).symm.trans ha'
    exact Set.finite_iUnion h |>.subset fun a ⟨i, hi⟩ => Set.mem_iUnion.mpr ⟨i, hi⟩

namespace EvalContext

theorem holds_of_evalContextVariableGet {ref : VarRef} {v : Rval × DataType}
    (h : ctx.evalContextVariableGet reg ref = some (some v)) :
    ∃ s ∈ reg.vscope, ∃ a, s.hashtable.Holds a ∧ a.rval = v.1 := by
  simp only [evalContextVariableGet, Option.bind_eq_bind] at h
  obtain ⟨get_scope, h⟩ : ∃ get_scope : Option Nat, (get_scope.bind fun ptr => (reg.hashtable ptr).bind
      fun t => (hashLookupElement t (varRefToString ref false)).bind fun assoc =>
        pure (assoc.rval, assoc.dtype)) = some v := by
    split at h
    case isTrue => exact ⟨_, Option.some.inj h⟩
    case isFalse =>
      obtain ⟨get_scope, _, h⟩ := Option.bind_eq_some_iff.mp h
      exact ⟨get_scope, Option.some.inj h⟩
  obtain ⟨ptr, _, h⟩ := Option.bind_eq_some_iff.mp h
  obtain ⟨t, ht, h⟩ := Option.bind_eq_some_iff.mp h
  obtain ⟨a, ha, hv⟩ := Option.bind_eq_some_iff.mp h
  obtain ⟨s, hs, he⟩ := Option.map_eq_some_iff.mp ht
  subst he
  exact ⟨s, List.mem_of_find?_eq_some hs, a, AssocHashTable.holds_of_hashLookupElement ha,
    congrArg Prod.fst <| Option.some.inj hv⟩

end EvalContext

theorem refers_iff {a b : CString ⊕ α} : Refers (rlistFlattenItem ctx reg) a b ↔
    ∃ rv, rlistFlattenItem ctx reg a = .replace rv ∧ b ∈ rv := by
  simp only [Refers]
  cases rlistFlattenItem ctx reg a <;> simp [Step.items]

-- An item is replaced by the items of a list that is stored.
theorem rlistFlattenItem_eq_replace {a : CString ⊕ α} {items : List (CString ⊕ α)}
    (h : rlistFlattenItem ctx reg a = .replace items) :
    ∃ ref rv type, ctx.evalContextVariableGet reg ref = some (some (.list rv, type)) ∧
      items = rv.map .inl := by
  unfold rlistFlattenItem at h
  split at h
  case h_1 => contradiction
  case h_2 =>
    split at h
    case isFalse => contradiction
    case isTrue =>
      split at h
      case h_1 => contradiction
      case h_2 =>
        split at h
        case isTrue => contradiction
        case isFalse =>
          split at h
          case h_1     => contradiction
          case h_2 ref _ =>
            split at h
            case h_3 rv type hg => exact ⟨ref, rv, type, hg, (Step.replace.inj h).symm⟩
            all_goals contradiction

-- The tables hold finitely many items.
theorem finite_refers : {b | ∃ a, Refers (rlistFlattenItem (α := α) ctx reg) a b}.Finite := by
  have hf : (⋃ s ∈ {s | s ∈ reg.vscope}, ⋃ a ∈ {a | s.hashtable.Holds a},
      {b : CString ⊕ α | ∃ rv, a.rval = .list rv ∧ b ∈ rv.map .inl}).Finite := by
    apply reg.vscope.finite_toSet.biUnion
    intro s _
    apply AssocHashTable.finite_holds.biUnion
    intro a _
    cases a.rval
    case scalar  => simp
    case list rv => simpa using (rv.map (.inl : _ → CString ⊕ α)).finite_toSet
  apply hf.subset
  intro b ⟨a, h⟩
  have ⟨items, hr, hb⟩ := refers_iff.mp h
  have ⟨ref, rv, type, hg, he⟩ := rlistFlattenItem_eq_replace hr
  have ⟨s, hs, a, ha, hv⟩ := EvalContext.holds_of_evalContextVariableGet hg
  exact Set.mem_biUnion hs <| Set.mem_biUnion ha ⟨rv, hv, he ▸ hb⟩

-- The in-place flattening is left exactly if nothing stops the loop and the order by depth is that in
-- place.
theorem flattensInPlace_iff (h : Acyclic (rlistFlattenItem ctx reg) list) :
    FlattensInPlace ctx reg list ↔ ¬Stops (rlistFlattenItem ctx reg) list ∧
      ∀ out, InPlace (rlistFlattenItem ctx reg) 0 list out → byDepth out = out.map Prod.fst := by
  have ⟨k, hk⟩ := acyclic_iff finite_refers |>.mp h
  constructor
  case mp =>
    intro ⟨n, out, hi, hr⟩
    have hs := not_stops_of_run hr
    refine ⟨hs, fun out' hi' => ?_⟩
    cases hi.unique hi'
    have ⟨m, hm⟩ := hi.run_eq hk hs
    exact Option.some.inj <| run_unique hm hr
  case mpr =>
    intro ⟨hs, hd⟩
    have ⟨out, hi⟩ := @exists_inPlace _ _ _ _ 0 hk
    have ⟨n, hn⟩ := hi.run_eq hk hs
    exact ⟨n, out, hi, hd out hi ▸ hn⟩

-- The table of a bundle `main` with the list `v`.
def mainTable (v : List CString) : ScopeRegistry :=
  (PutCall.step .agent (.empty, fun _ => none) (mainPut (.list v) .stringList)).1

def nakedV : CString ⊕ Empty :=
  .inl "@(main.v)".toList

theorem mainTable_replaces :
    ∀ v ∈ [[['1']], ["@(main.v)".toList]],
      (mainPut (.list v) .stringList).Succeeds .agent (.empty, fun _ => none) ∧
        rlistFlattenItem mainContext (mainTable v) nakedV = .replace (v.map .inl) := by
  unfold PutCall.Succeeds
  decide +kernel

theorem rlistFlattenItem_single {c : Char} : rlistFlattenItem ctx reg (.inl [c] : CString ⊕ α) = .keep :=
  rfl

theorem mainTable_item : rlistFlattenItem mainContext (mainTable [['1']]) nakedV = .replace [.inl ['1']] :=
  (mainTable_replaces [['1']] List.mem_cons_self).right

theorem mainTable_inPlace {out : List ((CString ⊕ Empty) × Nat)} {d : Nat} {l : List (CString ⊕ Empty)}
    (h : InPlace (rlistFlattenItem mainContext (mainTable [['1']])) d l out) :
    InPlace (rlistFlattenItem mainContext (mainTable [['1']])) d (nakedV :: l)
      ((.inl ['1'], d + 1) :: out) :=
  .replace mainTable_item (.of_keep rlistFlattenItem_single .nil) h

theorem flattensInPlace_mainTable :
    FlattensInPlace mainContext (mainTable [['1']]) [.inl ['b'], nakedV] := by
  have hk : level (rlistFlattenItem mainContext (mainTable [['1']])) [.inl ['b'], nakedV] 2 = [] := by
    simp [level, next, Step.items, mainTable_item, rlistFlattenItem_single]
  have hr : run (rlistFlattenItem mainContext (mainTable [['1']])) 4 [] [.inl ['b'], nakedV] =
      some (some [.inl ['b'], .inl ['1']]) := by
    simp [run, mainTable_item, rlistFlattenItem_single]
  refine flattensInPlace_iff (acyclic_of_level_eq_nil hk) |>.mpr ⟨not_stops_of_run hr, fun out hi => ?_⟩
  have hi' : InPlace (rlistFlattenItem mainContext (mainTable [['1']])) 0 [.inl ['b'], nakedV]
      [(.inl ['b'], 0), (.inl ['1'], 1)] := .of_keep rlistFlattenItem_single (mainTable_inPlace .nil)
  cases hi.unique hi'
  exact byDepth_of_ascending (by decide)

-- The items of the variable come after the item that follows the reference.
theorem not_flattensInPlace :
    (mainPut (.list [['1']]) .stringList).Succeeds .agent (.empty, fun _ => none) ∧
    Acyclic (rlistFlattenItem mainContext (mainTable [['1']])) [nakedV, .inl ['b']] ∧
    ¬FlattensInPlace mainContext (mainTable [['1']]) [nakedV, .inl ['b']] := by
  refine ⟨?_, ?_, fun ⟨n, out, hi, hr⟩ => ?_⟩
  · exact (mainTable_replaces [['1']] List.mem_cons_self).left
  · have hk : level (rlistFlattenItem mainContext (mainTable [['1']])) [nakedV, .inl ['b']] 2 = [] := by
      simp [level, next, Step.items, mainTable_item, rlistFlattenItem_single]
    exact acyclic_of_level_eq_nil hk
  · have hr' : run (rlistFlattenItem mainContext (mainTable [['1']])) 4 [] [nakedV, .inl ['b']] =
        some (some [.inl ['b'], .inl ['1']]) := by
      simp [run, mainTable_item, rlistFlattenItem_single]
    have hi' : InPlace (rlistFlattenItem mainContext (mainTable [['1']])) 0 [nakedV, .inl ['b']]
        [(.inl ['1'], 1), (.inl ['b'], 0)] := mainTable_inPlace <| .of_keep rlistFlattenItem_single .nil
    cases hi.unique hi'
    exact absurd (run_unique hr hr') (by decide)

theorem rlistFlattenEnds_iff : RlistFlattenEnds ctx reg list ↔
    Acyclic (rlistFlattenItem ctx reg) list ∨ Stops (rlistFlattenItem ctx reg) list := by
  rw [acyclic_iff finite_refers]
  exact run_ends_iff

-- A list that contains itself under its qualified name is stored.
theorem not_rlistFlattenEnds :
    (mainPut (.list ["@(main.v)".toList]) .stringList).Succeeds .agent (.empty, fun _ => none) ∧
    ¬RlistFlattenEnds mainContext (mainTable ["@(main.v)".toList]) [nakedV] := by
  obtain ⟨hput, hitem⟩ := mainTable_replaces ["@(main.v)".toList] (by simp)
  have hself : rlistFlattenItem mainContext (mainTable ["@(main.v)".toList]) nakedV = .replace [nakedV] := hitem
  refine ⟨hput, not_run_ends_of_next_eq ?_ (List.cons_ne_nil _ _) fun a ha => ?_⟩
  · rw [next, List.flatMap_singleton, hself, Step.items]
  · rw [List.mem_singleton.mp ha, hself, Step.stops]

end CfEngine
