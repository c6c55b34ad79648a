import CfEngine.Libpromises.EnvContext.ClassDeletion

namespace CfEngine

open Libutils

variable {s l r buf lval : CString} {c s₁ s₂ : Char} {cur : Nat} {slots : List (Option CString)} {ref ref' : VarRef}
  {ns scope : Option CString}

theorem strchr_of_not_mem (h : c ∉ s) : strchr s c = none := by
  induction s
  case nil         => rfl
  case cons d s ih =>
    have ⟨hd, hs⟩ := List.ne_and_not_mem_of_not_mem_cons h
    rw [strchr, if_neg (Ne.symm hd), ih hs, Option.map_none]

theorem strchr_append (h : c ∉ l) : strchr (l ++ c :: r) c = some (l, r) := by
  induction l
  case nil         => rw [List.nil_append, strchr, if_pos rfl]
  case cons d l ih =>
    have ⟨hd, hl⟩ := List.ne_and_not_mem_of_not_mem_cons h
    rw [List.cons_append, strchr, if_neg (Ne.symm hd), ih hl, Option.map_some]

theorem eq_append_of_strchr (h : strchr s c = some (l, r)) : s = l ++ c :: r := by
  induction s generalizing l
  case nil         => nomatch h
  case cons d s ih =>
    rw [strchr] at h
    split at h
    case isTrue hd  =>
      cases h
      rw [hd, List.nil_append]
    case isFalse hd =>
      have ⟨⟨l', r'⟩, hs, he⟩ := Option.map_eq_some_iff.mp h
      cases he
      rw [ih hs, List.cons_append]

-- The indices as they are written, each between its brackets.
def indexText (indices : List CString) : CString :=
  indices.flatMap fun i => '[' :: i ++ [']']

-- The qualified name before the first index.
def VarRef.name (ref : VarRef) (ns_separator scope_separator : Char) : CString :=
  (ref.ns.map (· ++ [ns_separator])).getD [] ++ (ref.scope.map (· ++ [scope_separator])).getD [] ++ ref.lval

-- The text of a reference, with the separators after the namespace and the scope.
def VarRef.text (ref : VarRef) (ns_separator scope_separator : Char) : CString :=
  ref.name ns_separator scope_separator ++ indexText ref.indices

structure VarRef.WellFormed (ref : VarRef) : Prop where
  ns        : ∀ ns ∈ ref.ns, IsIdentifier ns
  scope     : ∀ scope ∈ ref.scope, IsIdentifier scope
  lval      : IsIdentifier ref.lval
  qualified : ref.ns.isSome → ref.scope.isSome
  indices   : ∀ i ∈ ref.indices, '[' ∉ i ∧ ']' ∉ i

section Parsing

theorem parseIndices_index {i : CString} (hi : '[' ∉ i ∧ ']' ∉ i)
    (hl : buf.length + i.length ≤ defaultMemoryCap) :
    parseIndices cur buf slots (i ++ ']' :: s) = parseIndices cur [] (slots.set cur (some <| buf ++ i)) s := by
  induction i generalizing buf
  case nil         => rw [List.nil_append, parseIndices, List.append_nil]
  case cons c i ih =>
    have ⟨ho, hos⟩ := List.ne_and_not_mem_of_not_mem_cons hi.left
    have ⟨hc, hcs⟩ := List.ne_and_not_mem_of_not_mem_cons hi.right
    rw [List.length_cons] at hl
    have happended : bufferAppended buf [c] = buf ++ [c] :=
      bufferAppended_eq <| (Nat.add_le_add_left (Nat.le_add_left _ _) _).trans hl
    rw [List.cons_append, parseIndices, happended, ih ⟨hos, hcs⟩, List.append_assoc, List.singleton_append]
    · rw [List.length_append, Nat.add_assoc, Nat.add_comm [c].length]
      exact hl
    · exact fun h => ho h.symm
    · exact fun h => hc h.symm

-- The slots of the indices that have been read are filled, and the others are empty.
theorem mapM_id_eq_some_iff {indices : List CString} : slots.mapM id = some indices ↔ slots = indices.map some := by
  induction slots generalizing indices
  case nil => cases indices <;> simp
  case cons slot slots ih =>
    rw [List.mapM_cons]
    cases slot
    case none   => cases indices <;> simp
    case some i =>
      cases hm : slots.mapM id
      case none    =>
        have hne : ∀ l, slots ≠ List.map some l := fun l hl => by simp [ih.mpr hl] at hm
        cases indices <;> simp [hne]
      case some is =>
        rw [ih.mp hm, ← List.map_cons, List.map_inj_right fun _ _ => Option.some.inj]
        simp

theorem indexText_cons {i : CString} {indices : List CString} :
    indexText (i :: indices) = '[' :: (i ++ ']' :: indexText indices) := by
  rw [indexText, List.flatMap_cons, List.cons_append, List.cons_append, List.append_assoc, List.singleton_append,
    indexText]

theorem indexCount_indexText {indices : List CString} (h : ∀ i ∈ indices, '[' ∉ i) :
    indexCount (indexText indices) = indices.length := by
  induction indices
  case nil => rfl
  case cons i indices ih =>
    have hi := List.count_eq_zero_of_not_mem <| h i List.mem_cons_self
    have ih := ih fun j hj => h j <| List.mem_cons_of_mem _ hj
    rw [indexCount] at ih ⊢
    rw [indexText_cons, List.count_cons_self, List.count_append, hi, List.count_cons_of_ne (by decide), ih]
    simp

theorem parseIndices_indexText {i : CString} {done indices : List CString}
    (h : ∀ j ∈ i :: indices, ('[' ∉ j ∧ ']' ∉ j) ∧ j.length ≤ defaultMemoryCap) :
    parseIndices done.length [] (done.map some ++ List.replicate (indices.length + 1) none)
      (i ++ ']' :: indexText indices) = (done ++ i :: indices).map some := by
  induction indices generalizing i done
  case nil =>
    have ⟨hi, hl⟩ := h i List.mem_cons_self
    rw [parseIndices_index hi (by rwa [List.length_nil, Nat.zero_add])]
    simp [indexText, parseIndices]
  case cons j indices ih =>
    have ⟨hi, hl⟩ := h i List.mem_cons_self
    rw [parseIndices_index hi (by rwa [List.length_nil, Nat.zero_add])]
    have hslots : (done.map some ++ List.replicate ((j :: indices).length + 1) none).set done.length (some i) =
        (done ++ [i]).map some ++ List.replicate (indices.length + 1) none := by
      simp [List.replicate_succ]
    have hlength : done.length + 1 = (done ++ [i]).length := by rw [List.length_append, List.length_singleton]
    rw [List.nil_append, hslots, indexText_cons, parseIndices, hlength]
    rw [ih fun k hk => h k <| List.mem_cons_of_mem _ hk, List.append_assoc, List.singleton_append]

theorem IsIdentifier.not_mem_of (h : IsIdentifier s) (hc : ¬(c.isAlphanum ∨ c = '_')) : c ∉ s :=
  fun hm => hc <| h.right c hm

-- A separator is found in the name before the part that it stands behind only.
structure Separates (s₁ s₂ : Char) : Prop where
  ns    : ¬(s₁.isAlphanum ∨ s₁ = '_')
  scope : ¬(s₂.isAlphanum ∨ s₂ = '_')
  ne    : s₁ ≠ s₂
  ns_ne    : s₁ ≠ '['
  scope_ne : s₂ ≠ '['

theorem VarRef.WellFormed.not_mem_name (h : ref.WellFormed) (hs : Separates s₁ s₂) : '[' ∉ ref.name s₁ s₂ := by
  have hb : ¬('['.isAlphanum ∨ '[' = '_') := by decide
  have hl := h.lval.not_mem_of hb
  have hns := fun ns hm => (h.ns ns hm).not_mem_of hb
  have hsc := fun scope hm => (h.scope scope hm).not_mem_of hb
  obtain ⟨ns, scope, lval, indices⟩ := ref
  cases ns <;> cases scope <;> simp_all [name, hs.ns_ne.symm, hs.scope_ne.symm]

-- The part before a separator, if there is one, and the rest.
def splitAt (s : CString) (separator : Char) : Option CString × CString :=
  match strchr s separator with
  | some (l, r) => (some l, r)
  | none        => (none, s)

theorem splitAt_map {part : Option CString} (hp : ∀ p ∈ part, c ∉ p) (hs : c ∉ s) :
    splitAt ((part.map (· ++ [c])).getD [] ++ s) c = (part, s) := by
  cases part
  case none   =>
    simp only [splitAt, Option.map_none, Option.getD_none, List.nil_append, strchr_of_not_mem hs]
  case some p =>
    simp only [splitAt, Option.map_some, Option.getD_some, List.append_assoc, List.singleton_append]
    rw [strchr_append (hp p rfl)]

theorem VarRef.WellFormed.splitAt_name (h : ref.WellFormed) (hs : Separates s₁ s₂) :
    splitAt (ref.name s₁ s₂) s₁ = (ref.ns, (ref.scope.map (· ++ [s₂])).getD [] ++ ref.lval) ∧
      splitAt ((ref.scope.map (· ++ [s₂])).getD [] ++ ref.lval) s₂ = (ref.scope, ref.lval) := by
  have hl := h.lval.not_mem_of hs.ns
  have hsc := fun scope hm => (h.scope scope hm).not_mem_of hs.ns
  constructor
  case left  =>
    rw [name, List.append_assoc]
    apply splitAt_map fun ns hm => (h.ns ns hm).not_mem_of hs.ns
    cases hscope : ref.scope
    case none       => simpa using hl
    case some scope => simp [hsc scope hscope, hl, hs.ne]
  case right => exact splitAt_map (fun scope hm => (h.scope scope hm).not_mem_of hs.scope) <| h.lval.not_mem_of hs.scope

-- What the parser yields for a text with the name before its first bracket.
theorem varRefParse_eq (ns scope : Option CString) : varRefParseFromNamespaceAndScope s ns scope s₁ s₂ =
    let (name, indices) :=
      match strchr s '[' with
      | some (name, rest) => (name, parseIndices 0 [] (List.replicate (indexCount ('[' :: rest)) none) rest)
      | none              => (s, [])
    let (ns', rest) := splitAt name s₁
    let (scope', lval) := splitAt rest s₂
    (indices.mapM id).bind fun indices =>
      some { ns := ns' <|> ns, scope := scope' <|> scope, lval, indices } :=
  rfl

-- What is printed with the separators is read with them.
theorem VarRef.WellFormed.parse_text (h : ref.WellFormed) (hs : Separates s₁ s₂)
    (hl : ∀ i ∈ ref.indices, i.length ≤ defaultMemoryCap) :
    varRefParseFromNamespaceAndScope (ref.text s₁ s₂) none none s₁ s₂ = some ref := by
  have ⟨hns, hscope⟩ := h.splitAt_name hs
  have hname := h.not_mem_name hs
  have hindices := h.indices
  rw [varRefParse_eq, text]
  cases hi : ref.indices
  case nil =>
    rw [indexText, List.flatMap_nil, List.append_nil, strchr_of_not_mem hname]
    simp [hns, hscope, ← hi]
  case cons i indices =>
    have hparse := @parseIndices_indexText i [] indices fun j hj =>
      ⟨hindices j (hi ▸ hj), hl j (hi ▸ hj)⟩
    have hcount : indexCount ('[' :: (i ++ ']' :: indexText indices)) = indices.length + 1 := by
      rw [← indexText_cons, ← hi, indexCount_indexText fun j hj => (hindices j hj).left, hi, List.length_cons]
    rw [indexText_cons, strchr_append hname]
    dsimp only
    simp only [List.map_nil, List.nil_append, List.length_nil] at hparse
    rw [hcount, hparse, hns]
    dsimp only
    rw [hscope, mapM_id_eq_some_iff.mpr rfl, ← hi]
    simp

theorem splitAt_append (s : CString) (c : Char) :
    ((splitAt s c).1.map (· ++ [c])).getD [] ++ (splitAt s c).2 = s := by
  rw [splitAt]
  cases hs : strchr s c
  case none   => rfl
  case some p => simp [eq_append_of_strchr hs]

theorem length_parseIndices : (parseIndices cur buf slots s).length = slots.length := by
  fun_induction parseIndices cur buf slots s
  case case1            => rfl
  case case2 ih         => exact ih
  case case3 ih         => exact ih.trans List.length_set
  case case4 _ _ _ _ ih => exact ih

-- The characters that have gone into the slots, with the bracket behind each of them.
def filledLength (slots : List (Option CString)) : Nat :=
  (slots.map fun slot => slot.elim 0 (·.length + 1)).sum

theorem filledLength_set_le : filledLength (slots.set cur <| some buf) ≤ filledLength slots + buf.length + 1 := by
  induction slots generalizing cur
  case nil => exact Nat.zero_le _
  case cons slot slots ih =>
    cases cur
    case zero     => simp only [filledLength, List.set_cons_zero, List.map_cons, List.sum_cons, Option.elim_some]; omega
    case succ cur =>
      have ih := @ih cur
      simp only [filledLength, List.set_cons_succ, List.map_cons, List.sum_cons] at ih ⊢
      omega

theorem filledLength_parseIndices_le :
    filledLength (parseIndices cur buf slots s) + s.count '[' ≤ filledLength slots + buf.length + s.length := by
  fun_induction parseIndices cur buf slots s
  case case1 => exact Nat.le_add_right _ _
  case case2 cur buf slots s ih =>
    rw [List.count_cons_self, List.length_cons]
    omega
  case case3 cur buf slots s ih =>
    have hset := @filledLength_set_le buf cur slots
    rw [List.count_cons_of_ne (by decide), List.length_cons]
    rw [List.length_nil] at ih
    omega
  case case4 cur buf slots c s ho hc ih =>
    have happended := @length_bufferAppended_le_add buf [c]
    rw [List.count_cons_of_ne ho, List.length_cons]
    rw [List.length_singleton] at happended
    omega

theorem length_indexText (indices : List CString) :
    (indexText indices).length = filledLength (indices.map some) + indices.length := by
  induction indices
  case nil => rfl
  case cons i indices ih =>
    rw [indexText_cons, List.length_cons, List.length_append, List.length_cons, ih]
    simp only [filledLength, List.map_cons, List.sum_cons, Option.elim_some, List.length_cons]
    omega

-- A text is not shorter than the text of the reference that is read from it.
theorem length_text_le (h : varRefParseFromNamespaceAndScope s none none s₁ s₂ = some ref) :
    (ref.text s₁ s₂).length ≤ s.length := by
  rw [varRefParse_eq] at h
  have hname {name : CString} {indices : List (Option CString)}
      (h : ((indices.mapM id).bind fun indices => some (
        { ns      := (splitAt name s₁).1 <|> none
          scope   := (splitAt (splitAt name s₁).2 s₂).1 <|> none
          lval    := (splitAt (splitAt name s₁).2 s₂).2
          indices := indices } : VarRef)) = some ref) :
      ref.name s₁ s₂ = name ∧ indices = ref.indices.map some := by
    obtain ⟨l, hl, hr⟩ := Option.bind_eq_some_iff.mp h
    cases hr
    refine ⟨?_, mapM_id_eq_some_iff.mp hl⟩
    have hor (o : Option CString) : (o <|> none) = o := by cases o <;> rfl
    rw [VarRef.name, hor, hor, List.append_assoc]
    dsimp only
    rw [splitAt_append, splitAt_append]
  cases hs : strchr s '['
  case none   =>
    rw [hs] at h
    have ⟨hn, hi⟩ := hname h
    have hnil : ref.indices = [] := List.map_eq_nil_iff.mp hi.symm
    rw [VarRef.text, hn, hnil, indexText, List.flatMap_nil, List.append_nil]
  case some p =>
    obtain ⟨name, rest⟩ := p
    rw [hs] at h
    have ⟨hn, hi⟩ := hname h
    have hle := @filledLength_parseIndices_le rest [] 0 <| List.replicate (indexCount ('[' :: rest)) none
    have hcount := congrArg List.length hi
    rw [length_parseIndices, List.length_replicate, List.length_map, indexCount, List.count_cons_self] at hcount
    have hfilled (n : Nat) : filledLength (List.replicate n none) = 0 := by simp [filledLength]
    rw [hi, hfilled, List.length_nil] at hle
    rw [VarRef.text, hn, List.length_append, length_indexText, eq_append_of_strchr hs, List.length_append,
      List.length_cons]
    omega

end Parsing

section Printing

theorem flatten_indexPieces (indices : List CString) :
    (indices.flatMap fun i => [['['], i, [']']]).flatten = indexText indices := by
  induction indices
  case nil => rfl
  case cons i indices ih =>
    rw [List.flatMap_cons, List.flatten_append, ih, indexText_cons]
    simp

-- The part of the text that is printed without the namespace and the scope.
def VarRef.suffix (ref : VarRef) : CString :=
  ref.lval ++ indexText ref.indices

theorem flatten_varRefPieces (ref : VarRef) : (varRefPieces ref true).flatten = ref.text ':' '.' := by
  rw [varRefPieces, VarRef.text, VarRef.name, List.flatten_append, flatten_indexPieces]
  cases ref.ns <;> cases ref.scope <;> simp

theorem flatten_varRefPieces_unqualified (ref : VarRef) : (varRefPieces ref false).flatten = ref.suffix := by
  rw [varRefPieces, VarRef.suffix, List.flatten_append, flatten_indexPieces]
  simp

theorem varRefToString_eq {qualified : Bool}
    (h : (varRefPieces ref qualified).flatten.length ≤ defaultMemoryCap) :
    varRefToString ref qualified = (varRefPieces ref qualified).flatten :=
  foldl_bufferAppended_eq <| by rwa [List.length_nil, Nat.zero_add]

theorem length_varRefToString_le {qualified : Bool} : (varRefToString ref qualified).length ≤ defaultMemoryCap :=
  length_foldl_bufferAppended_le (Nat.zero_le _)

theorem length_le_of_mem_indices {i : CString} (h : i ∈ ref.indices) : i.length ≤ ref.suffix.length := by
  have ⟨l, r, hlr⟩ := List.append_of_mem h
  have hlength := length_indexText ref.indices
  rw [VarRef.suffix, List.length_append, hlength, hlr]
  simp [filledLength]
  omega

theorem length_suffix_le : ref.suffix.length ≤ (ref.text s₁ s₂).length := by
  simp only [VarRef.suffix, VarRef.text, VarRef.name, List.length_append]
  omega

-- What is mangled is the suffix of the text that is found in the buffer.
theorem VarRef.WellFormed.mangle_eq (h : ref.WellFormed) :
    ∃ qualifier, varRefMangle ref = qualifier ++ varRefToString ref false ∧
      ref.text '*' '#' = qualifier ++ ref.suffix := by
  have hq := h.qualified
  rw [varRefMangle, VarRef.text, VarRef.name, VarRef.suffix]
  cases hns : ref.ns <;> cases hscope : ref.scope
  case none.none   => exact ⟨[], rfl, by simp⟩
  case none.some   => exact ⟨_, rfl, by simp⟩
  case some.none   => simp [hns, hscope] at hq
  case some.some   => exact ⟨_, rfl, by simp⟩

end Printing

-- What is printed without loss is read again.
theorem VarRef.WellFormed.parse_toString_iff (h : ref.WellFormed) :
    varRefParse (varRefToString ref true) = some ref ↔ (ref.text ':' '.').length ≤ defaultMemoryCap := by
  constructor
  case mp  => exact fun hp => (length_text_le hp).trans length_varRefToString_le
  case mpr =>
    intro hl
    rw [varRefToString_eq <| flatten_varRefPieces ref ▸ hl, flatten_varRefPieces]
    refine h.parse_text ⟨by decide, by decide, by decide, by decide, by decide⟩ fun i hi => ?_
    exact (length_le_of_mem_indices hi).trans <| length_suffix_le.trans hl

theorem VarRef.WellFormed.deMangle_mangle_iff (h : ref.WellFormed) :
    varRefDeMangle (varRefMangle ref) = some ref ↔ ref.suffix.length ≤ defaultMemoryCap := by
  have ⟨qualifier, hmangle, htext⟩ := h.mangle_eq
  constructor
  case mp  =>
    intro hp
    have hle := length_text_le hp
    rw [hmangle, htext, List.length_append, List.length_append] at hle
    exact (Nat.le_of_add_le_add_left hle).trans length_varRefToString_le
  case mpr =>
    intro hl
    have hprinted := varRefToString_eq <| flatten_varRefPieces_unqualified ref ▸ hl
    rw [hmangle, hprinted, flatten_varRefPieces_unqualified, ← htext]
    refine h.parse_text ⟨by decide, by decide, by decide, by decide, by decide⟩ fun i hi => ?_
    exact (length_le_of_mem_indices hi).trans hl

-- A reference is read as it is printed, up to the length that a buffer has room for. Up to that length no two
-- references are mangled into one.
theorem varRef_roundTrips_iff (ref : VarRef) (h : ref.WellFormed) :
    (varRefParse (varRefToString ref true) = some ref ∧ varRefDeMangle (varRefMangle ref) = some ref ↔
      (ref.text ':' '.').length ≤ defaultMemoryCap) ∧
    ∀ ref' : VarRef, ref'.WellFormed → ref.suffix.length ≤ defaultMemoryCap →
      ref'.suffix.length ≤ defaultMemoryCap → varRefMangle ref = varRefMangle ref' → ref = ref' := by
  constructor
  case left  =>
    rw [h.parse_toString_iff, h.deMangle_mangle_iff]
    exact and_iff_left_of_imp length_suffix_le.trans
  case right =>
    intro ref' h' hl hl' he
    have hp := h.deMangle_mangle_iff.mpr hl
    rw [he, h'.deMangle_mangle_iff.mpr hl'] at hp
    exact (Option.some.inj hp).symm

theorem varRef_roundTrips_iff_separators :
    let ref : VarRef := ⟨some ['n'], some ['s'], ['v'], [['a', '.', ':', '*', '#'], []]⟩
    (varRefParse (varRefToString ref true) = some ref ∧ varRefDeMangle (varRefMangle ref) = some ref ↔
      (ref.text ':' '.').length ≤ defaultMemoryCap) ∧
    ∀ ref' : VarRef, ref'.WellFormed → ref.suffix.length ≤ defaultMemoryCap →
      ref'.suffix.length ≤ defaultMemoryCap → varRefMangle ref = varRefMangle ref' → ref = ref' := by
  refine varRef_roundTrips_iff _ ⟨fun ns hns => ?_, fun scope hscope => ?_, by decide, fun _ => rfl, by decide⟩
  · cases hns
    decide
  · cases hscope
    decide

-- The second index does not fit into the buffer behind the first one.
def longRef : VarRef :=
  ⟨none, none, ['a'], [List.replicate 40000 'x', List.replicate 40000 'y']⟩

theorem not_varRef_roundTrips :
    longRef.WellFormed ∧
      ¬(varRefParse (varRefToString longRef true) = some longRef ∧
        varRefDeMangle (varRefMangle longRef) = some longRef) := by
  have h : longRef.WellFormed := by
    refine ⟨nofun, nofun, by decide, nofun, fun i hi => ?_⟩
    have hne {c d : Char} (h : d ≠ c) : d ∉ List.replicate 40000 c := fun hm => h <| List.eq_of_mem_replicate hm
    cases List.mem_pair.mp hi
    case inl he => exact he ▸ ⟨hne (by decide), hne (by decide)⟩
    case inr he => exact he ▸ ⟨hne (by decide), hne (by decide)⟩
  refine ⟨h, fun ⟨hp, _⟩ => ?_⟩
  have hl := h.parse_toString_iff.mp hp
  have hlong : 80000 ≤ filledLength (longRef.indices.map some) := by
    rw [longRef, List.map_cons, List.map_cons, filledLength, List.map_cons, List.map_cons, List.sum_cons, List.sum_cons,
      Option.elim_some, Option.elim_some, List.length_replicate, List.length_replicate]
    omega
  rw [VarRef.text, List.length_append, length_indexText, defaultMemoryCap] at hl
  omega

end CfEngine
