import CfEngine.Libpromises.EnvContext

namespace CfEngine

-- The copy has room for the given number of characters.
def subStrnCopyChr (sep : Char) : Nat → CString → CString
  | 0, _           => []
  | _ + 1, []      => []
  | len + 1, c :: from' =>
    if c = '\\' ∧ from'.head? = some sep then
      sep :: subStrnCopyChr sep len from'.tail
    else if c = sep then
      []
    else
      c :: subStrnCopyChr sep len from'

-- The text goes on behind as many characters as have been copied, and one more. Where it ends before that, the
-- character behind its terminator is looked at, and the loop ends whatever this is. A node without room for a
-- terminator is read past its end.
def rlistFromSplitString (string : CString) (sep : Char) : Outcome (List CString) :=
  match string with
  | []     => some []
  | c :: s =>
    let node := subStrnCopyChr sep cfMaxVarSize (c :: s)
    if cfMaxVarSize ≤ node.length then
      none
    else
      (rlistFromSplitString (s.drop node.length) sep).map (node :: ·)
termination_by string.length

-- A text in which each separator is escaped.
def escapeSeparator (sep : Char) (string : CString) : CString :=
  string.flatMap fun c => if c = sep then ['\\', sep] else [c]

-- The fields that follow, each behind a separator.
def behindSeparators (sep : Char) (fields : List CString) : CString :=
  fields.flatMap (sep :: ·)

-- A separator that follows is not escaped.
def EndsPlain (t : CString) : Prop :=
  t.getLast? ≠ some '\\'

instance (t : CString) : Decidable (EndsPlain t) :=
  inferInstanceAs (Decidable (t.getLast? ≠ some '\\'))

variable {sep c : Char} {s t rest : CString} {fields strings items : List CString} {len : Nat}

theorem intercalate_cons_eq : List.intercalate [sep] (t :: fields) = t ++ behindSeparators sep fields := by
  induction fields generalizing t
  case nil => simp [behindSeparators, List.intercalate]
  case cons f fields ih =>
    rw [List.intercalate_cons_cons, ih, behindSeparators, behindSeparators, List.flatMap_cons, List.append_assoc]
    simp

theorem EndsPlain.tail (h : EndsPlain (c :: t)) : EndsPlain t := by
  cases t
  case nil      => exact nofun
  case cons d t => rwa [EndsPlain, List.getLast?_cons_cons] at h

theorem behindSeparators_head? : ∀ d ∈ (behindSeparators sep fields).head?, d = sep := by
  cases fields
  case nil  => nofun
  case cons =>
    intro d hd
    simpa [behindSeparators, eq_comm] using hd

section Copying

variable (hsep : sep ≠ '\\') (hrest : ∀ d ∈ rest.head?, d = sep)
include hsep hrest

theorem subStrnCopyChr_stops : subStrnCopyChr sep len rest = [] := by
  cases len
  case zero     => rfl
  case succ len =>
    cases rest
    case nil         => rfl
    case cons d rest =>
      have hd : d = sep := hrest d rfl
      rw [subStrnCopyChr, if_neg (fun h => hsep <| hd.symm.trans h.left), if_pos hd]

-- An escape is read where it has been written.
theorem subStrnCopyChr_escapeSeparator (hs : EndsPlain s) (hl : s.length ≤ len) :
    subStrnCopyChr sep len (escapeSeparator sep s ++ rest) = s := by
  induction s generalizing len
  case nil => exact subStrnCopyChr_stops hsep hrest
  case cons c s ih =>
    obtain ⟨len, rfl⟩ : ∃ n, len = n + 1 := ⟨len - 1, by rw [List.length_cons] at hl; omega⟩
    have ih := ih hs.tail <| Nat.le_of_succ_le_succ hl
    rw [escapeSeparator, List.flatMap_cons, ← escapeSeparator, List.append_assoc]
    by_cases hc : c = sep
    case pos =>
      rw [if_pos hc, List.cons_append, subStrnCopyChr, if_pos ⟨rfl, rfl⟩, hc]
      exact congrArg _ ih
    case neg =>
      have hesc : ¬(c = '\\' ∧ (escapeSeparator sep s ++ rest).head? = some sep) := by
        intro ⟨hb, hh⟩
        obtain _ | ⟨d, s⟩ := s
        case nil  => exact hs (by rw [hb]; rfl)
        case cons =>
          rw [escapeSeparator, List.flatMap_cons] at hh
          by_cases hd : d = sep
          case pos => exact hsep (by simpa [hd, eq_comm] using hh)
          case neg => exact hd (by simpa [hd] using hh)
      rw [if_neg hc, List.singleton_append, subStrnCopyChr, if_neg hesc, if_neg hc, ih]

-- The copy ends at the separator behind a text, or before it.
theorem length_subStrnCopyChr_le (ht : EndsPlain t) :
    (subStrnCopyChr sep len (t ++ rest)).length ≤ t.length ∧
      (sep ∈ t → (subStrnCopyChr sep len (t ++ rest)).length < t.length) := by
  induction h : t.length using Nat.strong_induction_on generalizing t len with
  | _ n ih =>
    subst h
    obtain _ | ⟨c, t⟩ := t
    case nil =>
      rw [List.nil_append, subStrnCopyChr_stops hsep hrest]
      exact ⟨Nat.le_refl _, nofun⟩
    case cons =>
      obtain _ | len := len
      case zero => exact ⟨Nat.zero_le _, fun _ => Nat.succ_pos _⟩
      case succ =>
        rw [List.cons_append, subStrnCopyChr]
        split
        case isTrue hesc =>
          obtain _ | ⟨d, t⟩ := t
          case nil  => exact absurd (by rw [hesc.left]; rfl) ht
          case cons =>
            have ih := (@ih t.length (Nat.lt_succ_of_lt <| Nat.lt_succ_self _) t len ht.tail.tail rfl).left
            simp only [List.cons_append, List.tail_cons, List.length_cons]
            omega
        case isFalse hesc =>
          split
          case isTrue hc  => exact ⟨Nat.zero_le _, fun _ => Nat.succ_pos _⟩
          case isFalse hc =>
            have ih := @ih t.length (Nat.lt_succ_self _) t len ht.tail rfl
            refine ⟨Nat.succ_le_succ ih.left, fun hm => Nat.succ_lt_succ <| ih.right ?_⟩
            exact (List.mem_cons.mp hm).resolve_left (Ne.symm hc)

end Copying

theorem rlistFromSplitString_eq (hne : t ≠ []) : rlistFromSplitString t sep =
    let node := subStrnCopyChr sep cfMaxVarSize t
    if cfMaxVarSize ≤ node.length then none
    else (rlistFromSplitString (t.drop (node.length + 1)) sep).map (node :: ·) := by
  obtain _ | ⟨c, t⟩ := t
  case nil  => exact absurd rfl hne
  case cons => rw [rlistFromSplitString]; rfl

theorem exists_of_rlistFromSplitString (hne : t ≠ []) (h : rlistFromSplitString t sep = some items) :
    ∃ items', rlistFromSplitString (t.drop ((subStrnCopyChr sep cfMaxVarSize t).length + 1)) sep = some items' ∧
      items = subStrnCopyChr sep cfMaxVarSize t :: items' := by
  rw [rlistFromSplitString_eq hne] at h
  dsimp only at h
  split at h
  case isTrue  => nomatch h
  case isFalse =>
    have ⟨items', hs, he⟩ := Option.map_eq_some_iff.mp h
    exact ⟨items', hs, he.symm⟩

-- Fields that are not empty and do not end with a backslash.
def Splittable (fields : List CString) : Prop :=
  ∀ f ∈ fields, f ≠ [] ∧ EndsPlain f

theorem EndsPlain.drop (h : EndsPlain t) (n : Nat) : EndsPlain (t.drop n) := by
  induction n generalizing t
  case zero      => exact h
  case succ n ih =>
    obtain _ | ⟨c, t⟩ := t
    case nil  => exact h
    case cons => exact ih h.tail

theorem append_behind_eq_nil : t ++ behindSeparators sep fields = [] ↔ t = [] ∧ fields = [] := by
  rw [List.append_eq_nil_iff]
  cases fields <;> simp [behindSeparators]

theorem drop_append_behind_cons {f : CString} :
    (t ++ behindSeparators sep (f :: fields)).drop (t.length + 1) = f ++ behindSeparators sep fields := by
  have h := @List.drop_left _ (t ++ [sep]) (f ++ behindSeparators sep fields)
  simpa [behindSeparators] using h

-- Where the text goes on behind an item: in the field, at its end, or with the next field.
inductive Continues (sep : Char) (node t : CString) (fields : List CString) : CString → List CString → Prop
  | within (h : node.length < t.length) : Continues sep node t fields (t.drop (node.length + 1)) fields
  | done (h : fields = []) : Continues sep node t fields [] []
  | next {f : CString} {fields' : List CString} (h : fields = f :: fields') (hs : sep ∉ t) :
    Continues sep node t fields f fields'

section Counting

variable (hsep : sep ≠ '\\')
include hsep

theorem rlistFromSplitString_continues (ht : EndsPlain t) (hne : t ++ behindSeparators sep fields ≠ [])
    (h : rlistFromSplitString (t ++ behindSeparators sep fields) sep = some items) :
    ∃ node items' t' fields', items = node :: items' ∧ Continues sep node t fields t' fields' ∧
      rlistFromSplitString (t' ++ behindSeparators sep fields') sep = some items' := by
  have ⟨items', hs, he⟩ := exists_of_rlistFromSplitString hne h
  have ⟨hle, hlt⟩ := @length_subStrnCopyChr_le sep t (behindSeparators sep fields) cfMaxVarSize hsep
    behindSeparators_head? ht
  generalize hnode : subStrnCopyChr sep cfMaxVarSize (t ++ behindSeparators sep fields) = node at hs he hle hlt
  cases Nat.lt_or_eq_of_le hle
  case inl hl =>
    rw [List.drop_append_of_le_length hl] at hs
    exact ⟨_, _, _, _, he, .within hl, hs⟩
  case inr hl =>
    have hm : sep ∉ t := fun hm => Nat.ne_of_lt (hlt hm) hl
    rw [hl] at hs
    obtain _ | ⟨f, fields⟩ := fields
    case nil  =>
      refine ⟨_, _, _, _, he, .done rfl, ?_⟩
      rwa [behindSeparators, List.flatMap_nil, List.append_nil, List.drop_eq_nil_of_le (Nat.le_succ _)] at hs
    case cons =>
      rw [drop_append_behind_cons] at hs
      exact ⟨_, _, _, _, he, .next rfl hm, hs⟩

theorem Continues.length_lt {node t' : CString} {fields' : List CString} (h : Continues sep node t fields t' fields')
    (hne : t ++ behindSeparators sep fields ≠ []) :
    (t' ++ behindSeparators sep fields').length < (t ++ behindSeparators sep fields).length := by
  cases h with
  | within h =>
    simp only [List.length_append, List.length_drop]
    omega
  | done h   => exact List.length_pos_iff.mpr hne
  | next h _ =>
    rw [h]
    simp only [behindSeparators, List.flatMap_cons, List.length_append, List.length_cons]
    omega

-- Each field yields an item at least.
theorem length_lt_of_rlistFromSplitString (hf : Splittable fields) (ht : EndsPlain t)
    (hne : t ++ behindSeparators sep fields ≠ [])
    (h : rlistFromSplitString (t ++ behindSeparators sep fields) sep = some items) : fields.length < items.length := by
  induction hn : (t ++ behindSeparators sep fields).length using Nat.strong_induction_on
    generalizing t fields items with
  | _ n ih =>
    have ⟨node, items', t', fields', he, hc, hs⟩ := rlistFromSplitString_continues hsep ht hne h
    have hlt := hc.length_lt hsep hne
    rw [he, List.length_cons]
    by_cases hne' : t' ++ behindSeparators sep fields' = []
    case pos =>
      have hnil := append_behind_eq_nil.mp hne'
      cases hc with
      | within _   => exact hnil.right ▸ Nat.succ_pos _
      | done hd    => exact hd ▸ Nat.succ_pos _
      | next hd hm =>
        rw [hd] at hf
        exact absurd hnil.left (hf _ List.mem_cons_self).left
    case neg =>
      have ih := fun hf ht => ih _ (hn ▸ hlt) hf ht hne' hs rfl
      cases hc with
      | within _   => exact Nat.lt_succ_of_lt <| ih hf (ht.drop _)
      | done hd    => exact absurd rfl hne'
      | next hd hm =>
        rw [hd] at hf ⊢
        exact Nat.succ_lt_succ <| ih (fun f hm => hf f <| List.mem_cons_of_mem _ hm) (hf _ List.mem_cons_self).right

-- A field with a separator yields another item if it is not the last.
theorem succ_length_lt_of_rlistFromSplitString (hf : Splittable fields) (ht : EndsPlain t) (hne : fields ≠ [])
    (hm : sep ∈ t) (h : rlistFromSplitString (t ++ behindSeparators sep fields) sep = some items) :
    fields.length + 1 < items.length := by
  have hne' {t : CString} : t ++ behindSeparators sep fields ≠ [] := fun hnil => hne (append_behind_eq_nil.mp hnil).right
  have ⟨node, items', t', fields', he, hc, hs⟩ := rlistFromSplitString_continues hsep ht hne' h
  cases hc with
  | within _    => exact he ▸ Nat.succ_lt_succ (length_lt_of_rlistFromSplitString hsep hf (ht.drop _) hne' hs)
  | done hd     => exact absurd hd hne
  | next _ hm'  => exact absurd hm hm'

end Counting

section Exact

theorem escapeSeparator_eq (h : sep ∉ s) : escapeSeparator sep s = s := by
  induction s
  case nil => rfl
  case cons c s ih =>
    have ⟨hc, hs⟩ := List.ne_and_not_mem_of_not_mem_cons h
    rw [escapeSeparator, List.flatMap_cons, ← escapeSeparator, ih hs, if_neg (Ne.symm hc), List.singleton_append]

theorem length_escapeSeparator : (escapeSeparator sep s).length = s.length + s.count sep := by
  induction s
  case nil => rfl
  case cons c s ih =>
    rw [escapeSeparator, List.flatMap_cons, ← escapeSeparator, List.length_append, ih, List.length_cons]
    by_cases hc : c = sep
    case pos =>
      rw [if_pos hc, hc, List.count_cons_self]
      simp only [List.length_cons, List.length_nil]
      omega
    case neg =>
      rw [if_neg hc, List.count_cons_of_ne hc]
      simp only [List.length_cons, List.length_nil]
      omega

variable (hsep : sep ≠ '\\')
include hsep

-- The item of an escaped field is the field, and the text goes on too early by as many characters as were escaped.
theorem rlistFromSplitString_escaped (hs : EndsPlain s) (hl : s.length < cfMaxVarSize)
    (hne : escapeSeparator sep s ++ behindSeparators sep fields ≠ []) :
    rlistFromSplitString (escapeSeparator sep s ++ behindSeparators sep fields) sep =
      (rlistFromSplitString ((escapeSeparator sep s ++ behindSeparators sep fields).drop (s.length + 1)) sep).map
        (s :: ·) := by
  have hcopy := @subStrnCopyChr_escapeSeparator sep s (behindSeparators sep fields) cfMaxVarSize hsep
    behindSeparators_head? hs (Nat.le_of_lt hl)
  rw [rlistFromSplitString_eq hne, hcopy]
  dsimp only
  rw [if_neg (Nat.not_le.mpr hl)]

-- A field without separators is followed by the next one.
theorem rlistFromSplitString_field {f : CString} (hs : EndsPlain s) (hm : sep ∉ s) (hl : s.length < cfMaxVarSize) :
    rlistFromSplitString (s ++ behindSeparators sep (f :: fields)) sep =
      (rlistFromSplitString (f ++ behindSeparators sep fields) sep).map (s :: ·) := by
  have hne : escapeSeparator sep s ++ behindSeparators sep (f :: fields) ≠ [] :=
    fun h => nomatch (append_behind_eq_nil.mp h).right
  have h := rlistFromSplitString_escaped hsep hs hl hne
  rwa [escapeSeparator_eq hm, drop_append_behind_cons] at h

-- A last field without separators is one item.
theorem rlistFromSplitString_last (hs : EndsPlain s) (hm : sep ∉ s) (hl : s.length < cfMaxVarSize) (hne : s ≠ []) :
    rlistFromSplitString s sep = some [s] := by
  have h := @rlistFromSplitString_escaped sep s [] hsep hs hl (by
    rwa [escapeSeparator_eq hm, behindSeparators, List.flatMap_nil, List.append_nil])
  rw [escapeSeparator_eq hm, behindSeparators, List.flatMap_nil, List.append_nil,
    List.drop_eq_nil_of_le (Nat.le_succ _), rlistFromSplitString] at h
  exact h

theorem EndsPlain.escapeSeparator (h : EndsPlain s) : EndsPlain (escapeSeparator sep s) := by
  induction s
  case nil => exact h
  case cons c s ih =>
    obtain _ | ⟨d, s⟩ := s
    case nil  =>
      rw [CfEngine.escapeSeparator, List.flatMap_singleton]
      split
      case isTrue hc  => exact fun he => hsep <| Option.some.inj he
      case isFalse hc => exact h
    case cons =>
      have hne : CfEngine.escapeSeparator sep (d :: s) ≠ [] := fun hnil => by
        have hl := congrArg List.length hnil
        simp [length_escapeSeparator] at hl
      rw [EndsPlain, CfEngine.escapeSeparator, List.flatMap_cons, ← CfEngine.escapeSeparator,
        List.getLast?_append_of_ne_nil _ hne]
      exact ih h.tail

end Exact

-- Items that are joined as they are and read as they have been joined: none has the separator in it, and no
-- separator is behind a backslash.
structure JoinsPlainly (sep : Char) (fields : List CString) : Prop where
  whole     : ∀ f ∈ fields, sep ∉ f
  unescaped : ¬['\\', sep] <:+: List.intercalate [sep] fields

-- The last one is not read if it is blank.
def withoutBlankEnd (fields : List CString) : List CString :=
  if fields.getLast? = some [] then fields.dropLast else fields

theorem withoutBlankEnd_nil : withoutBlankEnd [] = [] :=
  rfl

theorem withoutBlankEnd_singleton : withoutBlankEnd [t] = if t = [] then [] else [t] := by
  simp [withoutBlankEnd]

theorem withoutBlankEnd_cons_cons {f : CString} :
    withoutBlankEnd (t :: f :: fields) = t :: withoutBlankEnd (f :: fields) := by
  rw [withoutBlankEnd, withoutBlankEnd, List.getLast?_cons_cons, List.dropLast_cons_cons]
  split <;> rfl

-- An item is copied up to the separator behind it.
theorem subStrnCopyChr_plain (hs : sep ∉ t) (hrest : ∀ d ∈ rest.head?, d = sep)
    (hplain : ¬['\\', sep] <:+: t ++ rest) : subStrnCopyChr sep len (t ++ rest) = t.take len := by
  have hesc {c : Char} {s : CString} (h : ¬['\\', sep] <:+: c :: s) : ¬(c = '\\' ∧ s.head? = some sep) := by
    rintro ⟨rfl, hhead⟩
    obtain ⟨s, rfl⟩ := List.head?_eq_some_iff.mp hhead
    exact h (List.prefix_append ['\\', sep] s).isInfix
  induction t generalizing len
  case nil =>
    rw [List.nil_append] at hplain ⊢
    rw [List.take_nil]
    cases len
    case zero     => rfl
    case succ len =>
      cases rest
      case nil         => rfl
      case cons d rest => rw [subStrnCopyChr, if_neg (hesc hplain), if_pos (hrest d rfl)]
  case cons c t ih =>
    cases len
    case zero     => rfl
    case succ len =>
      have ⟨hc, hs⟩ := List.ne_and_not_mem_of_not_mem_cons hs
      have ih := @ih len hs fun h => hplain (List.infix_cons h)
      rw [List.cons_append] at hplain ⊢
      rw [subStrnCopyChr, if_neg (hesc hplain), if_neg (Ne.symm hc), ih, List.take_succ_cons]

-- Where an item is read as it stands, no separator in it is escaped.
theorem not_mem_of_subStrnCopyChr (hsep : sep ≠ '\\') (hcopy : subStrnCopyChr sep len (t ++ rest) = t)
    (hlen : t.length < len) : sep ∉ t ∧ (['\\', sep] <:+: t ++ rest → ['\\', sep] <:+: rest) := by
  induction t generalizing len
  case nil         => exact ⟨List.not_mem_nil, id⟩
  case cons c t ih =>
    obtain ⟨len, rfl⟩ := Nat.exists_eq_succ_of_ne_zero (Nat.ne_zero_of_lt hlen)
    rw [List.cons_append, subStrnCopyChr] at hcopy
    split at hcopy
    case isTrue hesc  => exact absurd ((List.cons.inj hcopy).left.trans hesc.left) hsep
    case isFalse hesc =>
      split at hcopy
      case isTrue hc  => cases hcopy
      case isFalse hc =>
        have ⟨hm, hstands⟩ := ih (List.cons.inj hcopy).right (Nat.lt_of_succ_lt_succ hlen)
        refine ⟨List.not_mem_cons_of_ne_of_not_mem (Ne.symm hc) hm, fun h => ?_⟩
        rw [List.cons_append] at h
        obtain hp | hi := List.infix_cons_iff.mp h
        case inl =>
          obtain ⟨hb, hp⟩ := List.cons_prefix_cons.mp hp
          obtain ⟨s, hs⟩ := hp
          exact absurd ⟨hb.symm, by rw [← hs]; rfl⟩ hesc
        case inr => exact hstands hi

theorem JoinsPlainly.of_cons {f : CString} (h : JoinsPlainly sep (t :: f :: fields)) :
    JoinsPlainly sep (f :: fields) := by
  refine ⟨fun g hg => h.whole g <| List.mem_cons_of_mem _ hg, fun hi => h.unescaped ?_⟩
  rw [List.intercalate_cons_cons]
  exact hi.trans (List.suffix_append _ _).isInfix

-- Plainly joined items are read again, but for a last blank one, if each fits into a node.
theorem rlistFromSplitString_of_joinsPlainly (h : JoinsPlainly sep fields) :
    rlistFromSplitString (List.intercalate [sep] fields) sep =
      if ∀ f ∈ withoutBlankEnd fields, f.length < cfMaxVarSize then some (withoutBlankEnd fields) else none := by
  induction fields
  case nil => rw [withoutBlankEnd_nil, if_pos nofun, List.intercalate_nil, rlistFromSplitString]
  case cons t fields ih =>
    have hplain := h.unescaped
    have hwhole := h.whole t List.mem_cons_self
    rw [intercalate_cons_eq] at hplain ⊢
    have hcopy := @subStrnCopyChr_plain sep t (behindSeparators sep fields) cfMaxVarSize hwhole behindSeparators_head?
      hplain
    by_cases hne : t ++ behindSeparators sep fields = []
    case pos =>
      obtain ⟨rfl, rfl⟩ := append_behind_eq_nil.mp hne
      rw [hne, withoutBlankEnd_singleton, if_pos rfl, if_pos nofun, rlistFromSplitString]
    case neg =>
      rw [rlistFromSplitString_eq hne, hcopy]
      dsimp only
      rw [List.length_take]
      by_cases ht : t.length < cfMaxVarSize
      case neg =>
        have ht := Nat.not_lt.mp ht
        rw [if_pos (le_inf (Nat.le_refl _) ht), if_neg]
        intro hall
        refine Nat.not_lt.mpr ht (hall t ?_)
        cases fields
        case nil         =>
          rw [withoutBlankEnd_singleton, if_neg fun h => hne (by rw [h]; rfl)]
          exact List.mem_cons_self
        case cons f rest =>
          rw [withoutBlankEnd_cons_cons]
          exact List.mem_cons_self
      case pos =>
        have hmin : min cfMaxVarSize t.length = t.length := Nat.min_eq_right (Nat.le_of_lt ht)
        rw [hmin, if_neg (Nat.not_le.mpr ht), List.take_of_length_le (Nat.le_of_lt ht)]
        cases fields
        case nil =>
          have ht0 : t ≠ [] := fun h => hne (by rw [h]; rfl)
          rw [behindSeparators, List.flatMap_nil, List.append_nil, List.drop_eq_nil_of_le (Nat.le_succ _),
            rlistFromSplitString, withoutBlankEnd_singleton, if_neg ht0, if_pos (by simpa using ht)]
          rfl
        case cons f rest =>
          rw [drop_append_behind_cons, ← intercalate_cons_eq, ih h.of_cons, withoutBlankEnd_cons_cons]
          simp only [List.forall_mem_cons, ht, true_and]
          split <;> rfl

-- Each item has room for its terminator.
theorem length_lt_of_mem_rlistFromSplitString (h : rlistFromSplitString t sep = some items) :
    ∀ f ∈ items, f.length < cfMaxVarSize := by
  induction hn : t.length using Nat.strong_induction_on generalizing t items with
  | _ n ih =>
    by_cases hne : t = []
    case pos =>
      rw [hne, rlistFromSplitString] at h
      cases h
      exact nofun
    case neg =>
      have ⟨items', hs, he⟩ := exists_of_rlistFromSplitString hne h
      rw [rlistFromSplitString_eq hne] at h
      dsimp only at h
      split at h
      case isTrue      => cases h
      case isFalse hlt =>
        rw [he, List.forall_mem_cons]
        refine ⟨Nat.not_le.mp hlt, ih _ ?_ hs rfl⟩
        have hpos := List.length_pos_iff.mpr hne
        rw [← hn, List.length_drop]
        omega

-- Items that are read as they have been joined have been joined plainly.
theorem joinsPlainly_of_rlistFromSplitString (hsep : sep ≠ '\\')
    (h : rlistFromSplitString (List.intercalate [sep] fields) sep = some (withoutBlankEnd fields)) :
    JoinsPlainly sep fields := by
  induction fields
  case nil => exact ⟨nofun, by simp⟩
  case cons t fields ih =>
    have hlen := length_lt_of_mem_rlistFromSplitString h
    rw [intercalate_cons_eq] at h
    by_cases hne : t ++ behindSeparators sep fields = []
    case pos =>
      obtain ⟨rfl, rfl⟩ := append_behind_eq_nil.mp hne
      exact ⟨by simp, by simp⟩
    case neg =>
      have ⟨items, hs, he⟩ := exists_of_rlistFromSplitString hne h
      cases fields
      case nil =>
        have ht : t ≠ [] := fun h => hne (by rw [h]; rfl)
        rw [withoutBlankEnd_singleton, if_neg ht] at he hlen
        have hcopy := (List.cons.inj he).left
        have ⟨hm, hstands⟩ := not_mem_of_subStrnCopyChr hsep hcopy.symm (hlen t List.mem_cons_self)
        refine ⟨by simpa using hm, fun hi => ?_⟩
        rw [intercalate_cons_eq] at hi
        exact absurd (hstands hi) (by simp [behindSeparators])
      case cons f rest =>
        rw [withoutBlankEnd_cons_cons] at he hlen
        have hcopy := (List.cons.inj he).left
        have ⟨hm, hstands⟩ := not_mem_of_subStrnCopyChr hsep hcopy.symm (hlen t List.mem_cons_self)
        rw [← hcopy, drop_append_behind_cons, ← intercalate_cons_eq, ← (List.cons.inj he).right] at hs
        have ih := ih hs
        refine ⟨List.forall_mem_cons.mpr ⟨hm, ih.whole⟩, fun hi => ?_⟩
        rw [intercalate_cons_eq] at hi
        have hi := hstands hi
        rw [behindSeparators, List.flatMap_cons, ← behindSeparators, List.cons_append, ← intercalate_cons_eq] at hi
        obtain hp | hi := List.infix_cons_iff.mp hi
        case inl => exact hsep (List.cons_prefix_cons.mp hp).left.symm
        case inr => exact ih.unescaped hi

-- The strings, each with its separators escaped, and a separator between each two.
def joinEscaped (sep : Char) (strings : List CString) : CString :=
  List.intercalate [sep] <| strings.map (escapeSeparator sep)

-- What is asked of the strings that are joined.
structure Joinable (strings : List CString) : Prop where
  ne_nil    : ∀ s ∈ strings, s ≠ []
  endsPlain : ∀ s ∈ strings, EndsPlain s
  fits      : ∀ s ∈ strings, s.length < cfMaxVarSize - 1

theorem Joinable.splittable (hsep : sep ≠ '\\') (h : Joinable strings) :
    Splittable (strings.map (escapeSeparator sep)) := by
  intro f hf
  obtain ⟨s, hs, rfl⟩ := List.mem_map.mp hf
  refine ⟨fun hnil => h.ne_nil s hs ?_, (h.endsPlain s hs).escapeSeparator hsep⟩
  have hl := congrArg List.length hnil
  rw [length_escapeSeparator, List.length_nil] at hl
  exact List.length_eq_zero_iff.mp (Nat.eq_zero_of_add_eq_zero_right hl)

theorem Joinable.of_cons (h : Joinable (s :: strings)) : Joinable strings :=
  ⟨fun t ht => h.ne_nil t <| List.mem_cons_of_mem _ ht, fun t ht => h.endsPlain t <| List.mem_cons_of_mem _ ht,
    fun t ht => h.fits t <| List.mem_cons_of_mem _ ht⟩

theorem Joinable.last_iff (hsep : sep ≠ '\\') (h : Joinable [s]) :
    rlistFromSplitString (escapeSeparator sep s) sep = some [s] ↔ s.count sep ≤ 1 := by
  have hs := List.mem_singleton_self s
  have hplain := h.endsPlain s hs
  have hsplit := (h.splittable hsep) (escapeSeparator sep s) <| List.mem_map_of_mem hs
  have heq := @rlistFromSplitString_escaped sep s [] hsep hplain ((h.fits s hs).trans (by decide))
    (by simpa [behindSeparators] using hsplit.left)
  rw [behindSeparators, List.flatMap_nil, List.append_nil] at heq
  have hdrop : (escapeSeparator sep s).drop (s.length + 1) = [] ↔ s.count sep ≤ 1 := by
    rw [List.drop_eq_nil_iff, length_escapeSeparator, Nat.add_le_add_iff_left]
  rw [heq, ← hdrop]
  constructor
  case mp  =>
    intro hi
    have ⟨items, hitems, he⟩ := Option.map_eq_some_iff.mp hi
    rw [(List.cons.inj he).right] at hitems
    by_contra hne
    have hlt := @length_lt_of_rlistFromSplitString sep _ [] [] hsep nofun (hsplit.right.drop (s.length + 1))
      (by simpa [behindSeparators] using hne) (by simpa [behindSeparators] using hitems)
    exact Nat.lt_irrefl _ hlt
  case mpr =>
    intro hd
    rw [hd, rlistFromSplitString]
    rfl

-- The strings are found again when only the last of them has a separator, and no more than one.
theorem rlistFromSplitString_joinEscaped_iff (hsep : sep ≠ '\\') (hne : strings ≠ []) (h : Joinable strings) :
    rlistFromSplitString (joinEscaped sep strings) sep = some strings ↔
      (∀ s ∈ strings.dropLast, sep ∉ s) ∧ ∀ s ∈ strings.getLast?, s.count sep ≤ 1 := by
  obtain _ | ⟨s, strings⟩ := strings
  case nil => exact absurd rfl hne
  case cons =>
    rw [joinEscaped, List.map_cons, intercalate_cons_eq]
    induction strings generalizing s
    case nil =>
      rw [List.map_nil, behindSeparators, List.flatMap_nil, List.append_nil, h.last_iff hsep]
      simp
    case cons s' strings ih =>
      have hs := List.mem_cons_self (a := s) (l := s' :: strings)
      have hplain := h.endsPlain s hs
      rw [List.dropLast_cons_of_ne_nil (List.cons_ne_nil s' strings), List.getLast?_cons_cons, List.forall_mem_cons,
        and_assoc, ← ih s' (List.cons_ne_nil _ _) h.of_cons]
      by_cases hm : sep ∈ s
      case pos =>
        refine iff_of_false (fun he => ?_) fun hn => hn.left hm
        have hmem : sep ∈ escapeSeparator sep s := List.mem_flatMap.mpr ⟨sep, hm, by rw [if_pos rfl]; simp⟩
        have hlt := succ_length_lt_of_rlistFromSplitString hsep (h.of_cons.splittable hsep)
          (hplain.escapeSeparator hsep) (by simp) hmem he
        simp at hlt
      case neg =>
        rw [and_iff_right hm, escapeSeparator_eq hm, List.map_cons, rlistFromSplitString_field hsep hplain hm
          ((h.fits s hs).trans (by decide))]
        constructor
        case mp  =>
          intro he
          have ⟨items, hitems, he⟩ := Option.map_eq_some_iff.mp he
          exact (List.cons.inj he).right ▸ hitems
        case mpr => exact fun he => by rw [he, Option.map_some]

theorem rlistFromSplitString_joinEscaped_last :
    rlistFromSplitString (joinEscaped ',' [['a'], ['b', ',']]) ',' = some [['a'], ['b', ',']] :=
  (rlistFromSplitString_joinEscaped_iff (by decide) (List.cons_ne_nil _ _) ⟨by decide, by decide, by decide⟩).mpr
    ⟨by decide, by decide⟩

-- The separator behind the first string is read once more.
theorem rlistFromSplitString_joinEscaped_ne :
    Joinable [['a', ',', 'b'], ['c']] ∧
      rlistFromSplitString (joinEscaped ',' [['a', ',', 'b'], ['c']]) ',' ≠ some [['a', ',', 'b'], ['c']] := by
  have h : Joinable [['a', ',', 'b'], ['c']] := ⟨by decide, by decide, by decide⟩
  refine ⟨h, fun he => ?_⟩
  have hlt := @succ_length_lt_of_rlistFromSplitString ',' (escapeSeparator ',' ['a', ',', 'b']) [['c']] _ (by decide)
    (@Joinable.splittable ',' _ (by decide) h.of_cons) (by decide) (List.cons_ne_nil _ _) (by decide) he
  exact absurd hlt (by decide)

end CfEngine
