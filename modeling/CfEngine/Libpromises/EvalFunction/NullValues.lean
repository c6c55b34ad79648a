import CfEngine.Libpromises.EnvContext.VariableStore
import CfEngine.Libpromises.EvalFunction

namespace CfEngine

-- The list without null values.
def values (l : List CString) : List CString :=
  l.filter (· ≠ cfNullValue)

section

variable {l l' : List CString} {x : CString} {p : CString → Bool} {n : Nat}

@[simp]
theorem mem_values : x ∈ values l ↔ x ∈ l ∧ x ≠ cfNullValue := by
  simp [values]

@[simp]
theorem values_null_cons : values (cfNullValue :: l) = values l := by
  simp [values]

theorem values_cons (hx : x ≠ cfNullValue) : values (x :: l) = x :: values l := by
  simp [values, hx]

@[simp]
theorem values_append : values (l ++ l') = values l ++ values l' := by
  simp [values]

theorem values_reverse : values l.reverse = (values l).reverse := by
  simp [values]

theorem values_filter : values (l.filter p) = (values l).filter p := by
  simp [values, List.filter_filter, Bool.and_comm]

theorem values_eq_nil_iff : values l = [] ↔ ∀ x ∈ l, x = cfNullValue := by
  simp [values]

theorem values_eq_self_iff : values l = l ↔ cfNullValue ∉ l := by
  simp only [values, List.filter_eq_self, decide_eq_true_eq]
  exact ⟨fun h hn => h _ hn rfl, fun h x hx hc => h <| hc ▸ hx⟩

theorem length_values_lt (h : cfNullValue ∈ l) : (values l).length < l.length := by
  apply List.length_filter_lt_length_iff_exists.mpr
  exact ⟨cfNullValue, h, by simp⟩

-- To take the first items goes along with the removal of null values if there are no null values among
-- these items, or no values after them.
theorem values_take_iff : values (l.take n) = (values l).take n ↔
    cfNullValue ∉ l.take n ∨ ∀ x ∈ l.drop n, x = cfNullValue := by
  induction l generalizing n
  case nil => simp [values]
  case cons x s ih =>
    cases n
    case zero => simp [values]
    case succ n =>
      by_cases hx : x = cfNullValue
      case neg => simp [values_cons hx, ih, Ne.symm hx]
      case pos =>
        subst hx
        have hlen : (values (s.take n)).length ≤ n :=
          Nat.le_trans (List.length_filter_le ..) <| List.length_take_le ..
        have hs : values s = values (s.take n) ++ values (s.drop n) := by
          rw [←values_append, List.take_append_drop]
        have ht : (values (s.take n)).take (n + 1) = values (s.take n) :=
          List.take_of_length_le <| Nat.le_succ_of_le hlen
        have hn : ¬n + 1 - (values (s.take n)).length = 0 := by omega
        have hr : (cfNullValue ∉ (cfNullValue :: s).take (n + 1) ∨
            ∀ x ∈ (cfNullValue :: s).drop (n + 1), x = cfNullValue) ↔ values (s.drop n) = [] := by
          simp [values_eq_nil_iff]
        rw [hr, List.take_succ_cons, values_null_cons, values_null_cons, hs, List.take_append, ht,
          List.self_eq_append_right, List.take_eq_nil_iff, or_iff_right hn]

-- The same for the last items.
theorem values_drop_iff : values (l.drop (l.length - n)) =
    (values l).drop ((values l).length - n) ↔
      cfNullValue ∉ l.drop (l.length - n) ∨ ∀ x ∈ l.take (l.length - n), x = cfNullValue := by
  have h := values_take_iff (l := l.reverse) (n := n)
  rw [List.take_reverse, List.drop_reverse, values_reverse, values_reverse, List.take_reverse,
    List.reverse_inj] at h
  simpa using h

section

variable {fn : FilterFn} {max : Int} {returnlist : List CString} {k m : Nat}

theorem filterLoop_returnlist (h : fn = .grep ∨ fn = .filter) :
    (filterLoop fn p max l returnlist k m).1 =
      returnlist ++ (l.filter p).take (max - k).toNat := by
  induction l generalizing returnlist k m
  case nil => simp [filterLoop]
  case cons x s ih =>
    have hs : fn ≠ .some := by cases h <;> simp_all
    have he : fn ≠ .every := by cases h <;> simp_all
    by_cases hk : (k : Int) < max
    case neg =>
      have hz : (max - k).toNat = 0 := by omega
      simp [filterLoop, hk, hz]
    case pos =>
      cases hx : p x
      case false => simp [filterLoop, hk, hx, he, ih]
      case true =>
        have hk' : (max - k).toNat = (max - (k + 1 : Nat)).toNat + 1 := by omega
        simp [filterLoop, hk, hx, hs, ih, hk']

-- As long as all items match, the loop counts as many matches as items.
theorem filterLoop_every : (filterLoop .every p max l returnlist k k).2.1 =
    (filterLoop .every p max l returnlist k k).2.2 ↔ ∀ x ∈ l.take (max - k).toNat, p x := by
  induction l generalizing returnlist k
  case nil => simp [filterLoop]
  case cons x s ih =>
    by_cases hk : (k : Int) < max
    case neg =>
      have hz : (max - k).toNat = 0 := by omega
      simp [filterLoop, hk, hz]
    case pos =>
      have hk' : (max - k).toNat = (max - (k + 1 : Nat)).toNat + 1 := by omega
      cases hx : p x
      case false => simp [filterLoop, hk, hx, hk']
      case true  => simp [filterLoop, hk, hx, hk', ih]

theorem le_filterLoop : k ≤ (filterLoop fn p max l returnlist k m).2.1 := by
  induction l generalizing returnlist k m
  case nil => simp [filterLoop]
  case cons x s ih =>
    simp only [filterLoop]
    split
    case isFalse => exact Nat.le_refl _
    case isTrue =>
      split
      case isTrue =>
        split
        case isTrue  => exact Nat.le_succ _
        case isFalse => exact Nat.le_of_succ_le ih
      case isFalse =>
        split
        case isTrue  => exact Nat.le_refl _
        case isFalse => exact ih

-- If there is a limit at all, then the loop finds a match if there is one.
theorem filterLoop_eq_zero_iff (hf : fn ≠ .every) (hm : 0 < max) :
    (filterLoop fn p max l returnlist 0 m).2.1 = 0 ↔ ∀ x ∈ l, p x = false := by
  induction l generalizing returnlist m
  case nil => simp [filterLoop]
  case cons x s ih =>
    cases hx : p x
    case false => simp [filterLoop, hm, hx, hf, ih]
    case true =>
      refine iff_of_false (fun hz => ?_) (by simp [hx])
      have hm' : ((0 : Nat) : Int) < max := hm
      simp only [filterLoop, hm', hx, ite_true] at hz
      split at hz
      case isTrue  => exact Nat.succ_ne_zero 0 hz
      case isFalse => exact Nat.not_succ_le_zero 0 <| Nat.le_trans le_filterLoop <| Nat.le_of_eq hz

end

theorem nthCell_eq_drop {i : Nat} : nthCell i l = l.drop i := by
  induction i generalizing l
  case zero => cases l <;> simp [nthCell]
  case succ i ih =>
    cases l
    case nil => simp [nthCell]
    case cons x s =>
      have hi : ((i + 1 : Nat) : Int) ≠ 0 := by omega
      have hi' : ((i + 1 : Nat) : Int) - 1 = i := by omega
      rw [nthCell, if_pos hi, hi', ih, List.drop_succ_cons]

theorem nthCell_of_neg {i : Int} (hi : i < 0) : nthCell i l = [] := by
  induction l generalizing i
  case nil => rfl
  case cons x s ih => simp [nthCell, Int.ne_of_lt hi, ih (show i - 1 < 0 by omega)]

-- The glue comes after each value that is not in the last cell.
theorem joinItems_eq (join : CString) : joinItems join l = join.intercalate (values l) ++
    if values l ≠ [] ∧ l.getLast? = some cfNullValue then join else [] := by
  induction l
  case nil => simp [joinItems, values, List.intercalate]
  case cons x s ih =>
    by_cases hx : x = cfNullValue
    case pos =>
      subst hx
      rw [joinItems, if_pos rfl, ih, values_null_cons]
      cases s
      case nil  => simp [values]
      case cons => simp
    case neg =>
      rw [joinItems, if_neg hx, values_cons hx]
      cases s
      case nil => simp [values, List.intercalate, hx]
      case cons y s =>
        rw [if_pos (List.cons_ne_nil y s), ih]
        cases hv : values (y :: s)
        case cons => simp [List.intercalate]
        case nil =>
          have hl : (y :: s).getLast (List.cons_ne_nil y s) = cfNullValue :=
            values_eq_nil_iff.mp hv _ <| List.getLast_mem _
          simp [List.intercalate, List.getLast?_eq_some_getLast, hl]

theorem joinItems_eq_iff {join : CString} : joinItems join l = join.intercalate (values l) ↔
    join = [] ∨ values l = [] ∨ l.getLast? ≠ some cfNullValue := by
  rw [joinItems_eq]
  by_cases hc : values l ≠ [] ∧ l.getLast? = some cfNullValue
  case pos => simp [hc]
  case neg =>
    rw [if_neg hc, List.append_nil]
    exact iff_of_true rfl <| .inr <| Decidable.not_and_iff_or_not.mp hc |>.imp_left not_not.mp

theorem printInt_inj {m : Nat} (h : printInt m = printInt n) : m = n := by
  have hm := Nat.ofDigitChars_toDigits (b := 10) (n := m) (by decide) (by decide)
  rw [←hm, show Nat.toDigits 10 m = Nat.toDigits 10 n from h]
  exact Nat.ofDigitChars_toDigits (by decide) (by decide)

theorem contextResult_eq_iff {P Q : Prop} [Decidable P] [Decidable Q] :
    some (contextResult (decide P)) = some (contextResult (decide Q)) ↔ (P ↔ Q) := by
  by_cases P <;> by_cases Q <;> simp_all [contextResult]

theorem scalarResult_inj {o o' : Option CString} (h : scalarResult o = scalarResult o') : o = o' := by
  cases o <;> cases o' <;> simp_all [scalarResult]

theorem values_idemp_value {start : List CString} (hx : x ≠ cfNullValue) :
    values (rlistAppendScalarIdemp start x) = rlistAppendScalarIdemp (values start) x := by
  by_cases hm : x ∈ start
  case pos => simp [rlistAppendScalarIdemp, hm, hx]
  case neg => simp [rlistAppendScalarIdemp, hm, hx, values]

theorem values_idemp_null {start : List CString} :
    values (rlistAppendScalarIdemp start cfNullValue) = values start := by
  by_cases hm : cfNullValue ∈ start
  case pos => simp [rlistAppendScalarIdemp, hm]
  case neg => simp [rlistAppendScalarIdemp, hm, values]

-- The values in a list of unique items are those that are unique among the values.
theorem values_foldl_idemp {start : List CString} :
    values (l.foldl rlistAppendScalarIdemp start) =
      (values l).foldl rlistAppendScalarIdemp (values start) := by
  induction l generalizing start
  case nil => rfl
  case cons x s ih =>
    by_cases hx : x = cfNullValue
    case pos => rw [hx, List.foldl_cons, ih, values_idemp_null, values_null_cons]
    case neg => rw [List.foldl_cons, ih, values_idemp_value hx, values_cons hx, List.foldl_cons]

end

section

variable {l : List CString} {p : CString → Bool}

theorem exists_mem_iff_exists_mem_values :
    ((∃ x ∈ l, p x) ↔ ∃ x ∈ values l, p x) ↔
      (cfNullValue ∈ l → p cfNullValue → ∃ x ∈ values l, p x) := by
  constructor
  case mp => exact fun he hn hp => he.mp ⟨_, hn, hp⟩
  case mpr =>
    intro hn
    refine ⟨fun ⟨x, hx, hp⟩ => ?_, fun ⟨x, hx, hp⟩ => ⟨x, (mem_values.mp hx).left, hp⟩⟩
    by_cases hc : x = cfNullValue
    case pos => exact hn (hc ▸ hx) (hc ▸ hp)
    case neg => exact ⟨x, mem_values.mpr ⟨hx, hc⟩, hp⟩

theorem sublist_tail {max : Int} (h : 0 < max) :
    sublist false max l = l.drop (l.length - max.toNat) := by
  simp only [sublist, Bool.false_eq_true, ite_false, gt_iff_lt, h, ite_true]
  congr 1
  split <;> omega

theorem sublist_of_nonpos {head : Bool} {max : Int} (h : max ≤ 0) : sublist head max l = [] := by
  have hz : max.toNat = 0 := Int.toNat_of_nonpos h
  cases head
  case true  => simp [sublist, hz]
  case false => simp [sublist, Int.not_lt.mpr h]

end

-- The list that a function results in, up to null values.
def ResultsIn (o : Outcome FnCallResult) (l : List CString) : Prop :=
  ∃ l', o = some (.success (.list l')) ∧ values l' = l

theorem resultsIn_iff {l l' : List CString} :
    ResultsIn (some (.success (.list (cfNullValue :: l)))) l' ↔ values l = l' := by
  constructor
  case mp =>
    intro ⟨l'', he, hv⟩
    simp only [Option.some.injEq, FnCallResult.success.injEq, Rval.list.injEq] at he
    rw [←hv, ←he, values_null_cons]
  case mpr => exact fun hv => ⟨_, rfl, by rw [values_null_cons, hv]⟩

-- The items of the first list that an operation on sets keeps.
def SetopFn.Keeps (fn : SetopFn) (b : List CString) (x : CString) : Prop :=
  match fn with
  | intersection => x ∈ b
  | difference   => x ∉ b

instance {fn : SetopFn} {b : List CString} : DecidablePred (fn.Keeps b) := fun x =>
  match fn with
  | .intersection => inferInstanceAs (Decidable (x ∈ b))
  | .difference   => inferInstanceAs (Decidable (x ∉ b))

theorem values_foldl_setopStep {fn : SetopFn} {l b start : List CString} :
    values (l.foldl (setopStep fn b) start) =
      ((values l).filter (fn.Keeps (values b))).foldl rlistAppendScalarIdemp (values start) := by
  induction l generalizing start
  case nil => rfl
  case cons x s ih =>
    rw [List.foldl_cons, ih]
    by_cases hx : x = cfNullValue
    case pos => simp [setopStep, hx]
    case neg =>
      have hb : x ∈ values b ↔ x ∈ b := by simp [hx]
      rw [values_cons hx, List.filter_cons]
      cases fn
      case intersection =>
        by_cases hm : x ∈ b
        case pos => simp [setopStep, hx, hm, SetopFn.Keeps, values_idemp_value hx]
        case neg => simp [setopStep, hx, hm, SetopFn.Keeps]
      case difference =>
        by_cases hm : x ∈ b
        case pos => simp [setopStep, hx, hm, SetopFn.Keeps]
        case neg => simp [setopStep, hx, hm, SetopFn.Keeps, values_idemp_value hx]

namespace EvalContext

variable {pcre : CString → CString → Bool} {ctx : EvalContext} {reg : ScopeRegistry}
  {name name_b regex join : CString} {l b : List CString}
  (h : ctx.getListReferenceArgument reg name = some (some l))
include h

theorem fnCallLength_iff : ctx.fnCallLength reg name =
    some (.success (.scalar (printInt (values l).length))) ↔
      cfNullValue ∉ l ∨ l = [cfNullValue] := by
  have hr : ctx.fnCallLength reg name = some (.success (.scalar (printInt
      (if l.length = 1 ∧ l.any (· = cfNullValue) then 0 else l.length)))) := by
    simp [fnCallLength, h]
  rw [hr]
  constructor
  case mp =>
    intro he
    simp only [Option.some.injEq, FnCallResult.success.injEq, Rval.scalar.injEq] at he
    have he := printInt_inj he
    by_cases hn : cfNullValue ∈ l
    case neg => exact .inl hn
    case pos =>
      right
      split at he
      case isTrue hc =>
        have ⟨x, hx⟩ := List.length_eq_one_iff.mp hc.left
        rw [hx, List.mem_singleton] at hn
        exact hn ▸ hx
      case isFalse => exact absurd he <| Nat.ne_of_gt <| length_values_lt hn
  case mpr =>
    intro hc
    cases hc
    case inl hn =>
      have ha : ¬l.any (· = cfNullValue) := by simpa using hn
      rw [values_eq_self_iff.mpr hn, if_neg fun hc => ha hc.right]
    case inr hl => simp [hl, values]

theorem fnCallNth_iff :
    (∀ i : Int, ctx.fnCallNth reg name i =
      some (scalarResult (if 0 ≤ i then (values l)[i.toNat]? else none))) ↔ cfNullValue ∉ l := by
  have hr (i : Int) : ctx.fnCallNth reg name i = some (scalarResult (nthCell i l).head?) := by
    simp [fnCallNth, h]
  constructor
  case mp =>
    intro hi hn
    have hv : values l = l := by
      apply List.ext_getElem?
      intro i
      have he := Option.some.inj <| (hr i).symm.trans (hi i)
      simpa [nthCell_eq_drop] using (scalarResult_inj he).symm
    exact values_eq_self_iff.mp hv hn
  case mpr =>
    intro hn i
    rw [hr, values_eq_self_iff.mpr hn]
    by_cases hi : 0 ≤ i
    case neg => simp [hi, nthCell_of_neg (Int.not_le.mp hi)]
    case pos =>
      have ⟨k, hk⟩ := Int.eq_ofNat_of_zero_le hi
      simp [hk, nthCell_eq_drop]

theorem filterInternal_eq {fn : FilterFn} {do_regex invert : Bool} {max : Int} :
    ctx.filterInternal pcre reg fn regex name do_regex invert max =
      let r := filterLoop fn (filterMatches pcre regex do_regex invert) max l [cfNullValue] 0 0
      some (filterResult fn r.1 r.2.1 r.2.2) := by
  simp [filterInternal, h]

theorem fnCallEverySomeNone_eq {fn : FilterFn} : ctx.fnCallEverySomeNone pcre reg fn regex name =
    let r := filterLoop fn (fullTextMatch pcre regex) maxMatches l [cfNullValue] 0 0
    some (filterResult fn r.1 r.2.1 r.2.2) :=
  filterInternal_eq h

-- The items that `every` looks at are those up to the limit.
theorem fnCallEvery_iff : ctx.fnCallEverySomeNone pcre reg .every regex name =
    some (contextResult (∀ x ∈ values l, fullTextMatch pcre regex x)) ↔
      ((∀ x ∈ values l, fullTextMatch pcre regex x) → cfNullValue ∈ l.take maxMatches.toNat →
        fullTextMatch pcre regex cfNullValue) ∧
      ((∀ x ∈ l.take maxMatches.toNat, fullTextMatch pcre regex x) →
        ∀ x ∈ values (l.drop maxMatches.toNat), fullTextMatch pcre regex x) := by
  have hr : ctx.fnCallEverySomeNone pcre reg .every regex name = some (contextResult
      (∀ x ∈ l.take maxMatches.toNat, fullTextMatch pcre regex x)) := by
    rw [fnCallEverySomeNone_eq h]
    exact contextResult_eq_iff.mpr <| by simpa using filterLoop_every (k := 0)
  have hl : values l = values (l.take maxMatches.toNat) ++ values (l.drop maxMatches.toNat) := by
    rw [←values_append, List.take_append_drop]
  rw [hr, contextResult_eq_iff]
  constructor
  case mp =>
    intro he
    constructor
    case left  => exact fun hv hn => he.mpr hv _ hn
    case right => exact fun ht x hx => he.mp ht x <| hl ▸ List.mem_append_right _ hx
  case mpr =>
    intro ⟨hn, hd⟩
    constructor
    case mp =>
      intro ht x hx
      cases List.mem_append.mp (hl ▸ hx)
      case inl hx => exact ht x (mem_values.mp hx).left
      case inr hx => exact hd ht x hx
    case mpr =>
      intro hv x hx
      by_cases hc : x = cfNullValue
      case pos => exact hc ▸ hn hv (hc ▸ hx)
      case neg => exact hv x <| hl ▸ List.mem_append_left _ (mem_values.mpr ⟨hx, hc⟩)

theorem fnCallSome_iff : ctx.fnCallEverySomeNone pcre reg .some regex name =
    some (contextResult (∃ x ∈ values l, fullTextMatch pcre regex x)) ↔
      (cfNullValue ∈ l → fullTextMatch pcre regex cfNullValue →
        ∃ x ∈ values l, fullTextMatch pcre regex x) := by
  have hr : ctx.fnCallEverySomeNone pcre reg .some regex name =
      some (contextResult (∃ x ∈ l, fullTextMatch pcre regex x)) := by
    rw [fnCallEverySomeNone_eq h]
    refine contextResult_eq_iff.mpr <| Nat.pos_iff_ne_zero.trans ?_
    rw [Ne, filterLoop_eq_zero_iff (show FilterFn.some ≠ .every by decide)
      (show (0 : Int) < maxMatches by decide)]
    simp
  rw [hr, contextResult_eq_iff]
  exact exists_mem_iff_exists_mem_values

theorem fnCallNone_iff : ctx.fnCallEverySomeNone pcre reg .none regex name =
    some (contextResult (¬∃ x ∈ values l, fullTextMatch pcre regex x)) ↔
      (cfNullValue ∈ l → fullTextMatch pcre regex cfNullValue →
        ∃ x ∈ values l, fullTextMatch pcre regex x) := by
  have hr : ctx.fnCallEverySomeNone pcre reg .none regex name =
      some (contextResult (¬∃ x ∈ l, fullTextMatch pcre regex x)) := by
    rw [fnCallEverySomeNone_eq h]
    refine contextResult_eq_iff.mpr ?_
    rw [filterLoop_eq_zero_iff (show FilterFn.none ≠ .every by decide)
      (show (0 : Int) < maxMatches by decide)]
    simp
  rw [hr, contextResult_eq_iff, not_iff_not]
  exact exists_mem_iff_exists_mem_values

theorem filterInternal_resultsIn_iff {fn : FilterFn} {do_regex invert : Bool} {max : Int}
    (hf : fn = .grep ∨ fn = .filter) :
    ResultsIn (ctx.filterInternal pcre reg fn regex name do_regex invert max)
        (((values l).filter (filterMatches pcre regex do_regex invert)).take max.toNat) ↔
      cfNullValue ∉ (l.filter (filterMatches pcre regex do_regex invert)).take max.toNat ∨
      ∀ x ∈ (l.filter (filterMatches pcre regex do_regex invert)).drop max.toNat,
        x = cfNullValue := by
  have hr : ctx.filterInternal pcre reg fn regex name do_regex invert max =
      some (.success (.list (cfNullValue ::
        (l.filter (filterMatches pcre regex do_regex invert)).take max.toNat))) := by
    rw [filterInternal_eq h]
    simp only [filterLoop_returnlist hf]
    cases hf
    case inl hf => simp [hf, filterResult]
    case inr hf => simp [hf, filterResult]
  rw [hr, resultsIn_iff, ←values_filter, ←values_take_iff]

theorem fnCallSublist_iff {head : Bool} {max : Int} :
    ResultsIn (ctx.fnCallSublist reg name head max) (sublist head max (values l)) ↔
      max ≤ 0 ∨ if head then cfNullValue ∉ l.take max.toNat ∨ ∀ x ∈ l.drop max.toNat, x = cfNullValue
      else cfNullValue ∉ l.drop (l.length - max.toNat) ∨
        ∀ x ∈ l.take (l.length - max.toNat), x = cfNullValue := by
  have hr : ctx.fnCallSublist reg name head max =
      some (.success (.list (cfNullValue :: sublist head max l))) := by
    simp [fnCallSublist, h]
  rw [hr, resultsIn_iff]
  by_cases hm : max ≤ 0
  case pos => simp [sublist_of_nonpos hm, hm, values]
  case neg =>
    rw [or_iff_right hm]
    cases head
    case true => simpa [sublist] using values_take_iff
    case false =>
      rw [sublist_tail (Int.not_le.mp hm), sublist_tail (Int.not_le.mp hm)]
      simpa using values_drop_iff

theorem fnCallUnique_resultsIn : ResultsIn (ctx.fnCallUnique reg name)
    ((values l).foldl rlistAppendScalarIdemp []) := by
  refine ⟨l.foldl rlistAppendScalarIdemp [cfNullValue], by simp [fnCallUnique, h], ?_⟩
  rw [values_foldl_idemp]
  rfl

theorem fnCallSetop_resultsIn {fn : SetopFn}
    (hb : ctx.getListReferenceArgument reg name_b = some (some b)) :
    ResultsIn (ctx.fnCallSetop reg fn name name_b)
      (((values l).filter (fn.Keeps (values b))).foldl rlistAppendScalarIdemp []) := by
  refine ⟨l.foldl (setopStep fn b) [cfNullValue], by simp [fnCallSetop, h, hb], ?_⟩
  rw [values_foldl_setopStep]
  rfl

theorem fnCallJoin_iff : ctx.fnCallJoin reg join name =
    some (.success (.scalar (join.intercalate (values l)))) ↔
      join = [] ∨ values l = [] ∨ l.getLast? ≠ some cfNullValue := by
  have hr : ctx.fnCallJoin reg join name = some (.success (.scalar (joinItems join l))) := by
    simp only [getListReferenceArgument, Option.bind_eq_bind, Option.bind_eq_some_iff] at h
    have ⟨ref, hp, v, hg, hl⟩ := h
    split at hl
    case h_1 => simp at hl
    case h_3 => simp at hl
    case h_2 l' d =>
      simp only [Option.pure_def, Option.some.injEq] at hl
      simp [fnCallJoin, hp, hg, hl]
  rw [hr, ←joinItems_eq_iff]
  simp

end EvalContext

-- For each of the list functions when it does on the list `l`, which the variable `name` holds, what
-- it means on the values of `l`. Results that are lists are compared up to null values.
structure RespectsValues (pcre : CString → CString → Bool) (ctx : EvalContext) (reg : ScopeRegistry)
    (name : CString) (l : List CString) : Prop where
  length :
    ctx.fnCallLength reg name = some (.success (.scalar (printInt (values l).length))) ↔
      cfNullValue ∉ l ∨ l = [cfNullValue]
  nth :
    (∀ i : Int, ctx.fnCallNth reg name i =
      some (scalarResult (if 0 ≤ i then (values l)[i.toNat]? else none))) ↔ cfNullValue ∉ l
  everyMatch (regex : CString) :
    ctx.fnCallEverySomeNone pcre reg .every regex name =
      some (contextResult (∀ x ∈ values l, fullTextMatch pcre regex x)) ↔
        ((∀ x ∈ values l, fullTextMatch pcre regex x) → cfNullValue ∈ l.take EvalContext.maxMatches.toNat →
          fullTextMatch pcre regex cfNullValue) ∧
        ((∀ x ∈ l.take EvalContext.maxMatches.toNat, fullTextMatch pcre regex x) →
          ∀ x ∈ values (l.drop EvalContext.maxMatches.toNat), fullTextMatch pcre regex x)
  someMatch (regex : CString) :
    ctx.fnCallEverySomeNone pcre reg .some regex name =
      some (contextResult (∃ x ∈ values l, fullTextMatch pcre regex x)) ↔
        (cfNullValue ∈ l → fullTextMatch pcre regex cfNullValue →
          ∃ x ∈ values l, fullTextMatch pcre regex x)
  noneMatch (regex : CString) :
    ctx.fnCallEverySomeNone pcre reg .none regex name =
      some (contextResult (¬∃ x ∈ values l, fullTextMatch pcre regex x)) ↔
        (cfNullValue ∈ l → fullTextMatch pcre regex cfNullValue →
          ∃ x ∈ values l, fullTextMatch pcre regex x)
  grep (regex : CString) :
    ResultsIn (ctx.fnCallGrep pcre reg regex name)
      (((values l).filter (fullTextMatch pcre regex)).take EvalContext.maxMatches.toNat) ↔
        cfNullValue ∉ (l.filter (fullTextMatch pcre regex)).take EvalContext.maxMatches.toNat ∨
        ∀ x ∈ (l.filter (fullTextMatch pcre regex)).drop EvalContext.maxMatches.toNat, x = cfNullValue
  filter (regex : CString) (do_regex invert : Bool) (max : Int) :
    ResultsIn (ctx.fnCallFilter pcre reg regex name do_regex invert max)
      (((values l).filter (filterMatches pcre regex do_regex invert)).take max.toNat) ↔
        cfNullValue ∉ (l.filter (filterMatches pcre regex do_regex invert)).take max.toNat ∨
        ∀ x ∈ (l.filter (filterMatches pcre regex do_regex invert)).drop max.toNat, x = cfNullValue
  sublist (head : Bool) (max : Int) :
    ResultsIn (ctx.fnCallSublist reg name head max) (sublist head max (values l)) ↔
      max ≤ 0 ∨
      if head then cfNullValue ∉ l.take max.toNat ∨ ∀ x ∈ l.drop max.toNat, x = cfNullValue
      else cfNullValue ∉ l.drop (l.length - max.toNat) ∨
        ∀ x ∈ l.take (l.length - max.toNat), x = cfNullValue
  unique :
    ResultsIn (ctx.fnCallUnique reg name) ((values l).foldl rlistAppendScalarIdemp [])
  setop (fn : SetopFn) (name_b : CString) (b : List CString) :
    ctx.getListReferenceArgument reg name_b = some (some b) →
      ResultsIn (ctx.fnCallSetop reg fn name name_b)
        (((values l).filter (fn.Keeps (values b))).foldl rlistAppendScalarIdemp [])
  join (join : CString) :
    ctx.fnCallJoin reg join name =
      some (.success (.scalar (join.intercalate (values l)))) ↔
        join = [] ∨ values l = [] ∨ l.getLast? ≠ some cfNullValue

theorem respectsValues {pcre : CString → CString → Bool} {ctx : EvalContext} {reg : ScopeRegistry}
    {name : CString} {l : List CString}
    (h : ctx.getListReferenceArgument reg name = some (some l)) :
    RespectsValues pcre ctx reg name l where
  length         := EvalContext.fnCallLength_iff h
  nth            := EvalContext.fnCallNth_iff h
  everyMatch _   := EvalContext.fnCallEvery_iff h
  someMatch _    := EvalContext.fnCallSome_iff h
  noneMatch _    := EvalContext.fnCallNone_iff h
  grep _         := EvalContext.filterInternal_resultsIn_iff h (.inl rfl)
  filter _ _ _ _ := EvalContext.filterInternal_resultsIn_iff h (.inr rfl)
  sublist _ _    := EvalContext.fnCallSublist_iff h
  unique         := EvalContext.fnCallUnique_resultsIn h
  setop _ _ _    := EvalContext.fnCallSetop_resultsIn h
  join _         := EvalContext.fnCallJoin_iff h

-- The variable `main.v` holds the list.
def mainList (l : List CString) : ScopeRegistry where
  vscope     := [{
    addr      := 0
    ns        := nsDefault
    scope     := "main".toList
    hashtable := .tiny ⟨[newAssoc ['v'] (.list l) .stringList], by simp [tinyLimit]⟩ }]
  scopeMatch := none
  allocated  := 1

theorem respectsValues_mainList : RespectsValues (fun _ _ => false) mainContext
    (mainList [['a'], cfNullValue]) ['v'] [['a'], cfNullValue] :=
  respectsValues (by decide +kernel)

-- The result of `grep` has a null value that `length` counts.
theorem length_grep_ne :
    mainContext.fnCallGrep (fun _ _ => false) (mainList [['a'], ['b']]) ['a'] ['v'] =
      some (.success (.list [cfNullValue, ['a']])) ∧
    mainContext.getListReferenceArgument (mainList [cfNullValue, ['a']]) ['v'] =
      some (some [cfNullValue, ['a']]) ∧
    mainContext.fnCallLength (mainList [cfNullValue, ['a']]) ['v'] ≠
      some (.success (.scalar (printInt (values [cfNullValue, ['a']]).length))) := by
  decide +kernel

end CfEngine
