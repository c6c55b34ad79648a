import CfEngine.Libpromises.Rlist.Splitting

namespace CfEngine

-- The text of a scalar, in which single quotes are escaped.
def scalarWrite (s : CString) : CString :=
  s.flatMap fun c => if c = '\'' then ['\\', c] else [c]

-- The items of a list of scalars, with the separators between them and the brace at the end.
def rlistWriteItems : List CString → CString
  | []        => ['}']
  | [s]       => '\'' :: scalarWrite s ++ ['\''] ++ ['}']
  | s :: rest => '\'' :: scalarWrite s ++ ['\''] ++ ',' :: rlistWriteItems rest

def rlistWrite (list : List CString) : CString :=
  [' ', '{'] ++ rlistWriteItems list

def shownSkipped (c : Char) : Bool :=
  c ∈ ['{', ' ', '\'', '"']

def shownKept (c : Char) : Bool :=
  c ≠ '\'' ∧ c ≠ '"'

-- The value that `sscanf` assigns, if both of its conversions match.
def sscanfShown (item : CString) : Option CString :=
  let value := ((item.dropWhile shownSkipped).takeWhile shownKept).take 255
  if item.takeWhile shownSkipped = [] ∨ value = [] then none else some value

-- The loop over the items. A value that nothing has been assigned to is undefined.
def parseShownItems (value : Option CString) : List CString → Outcome (List CString)
  | []           => some []
  | item :: rest =>
    match sscanfShown item <|> value with
    | none       => none
    | some value => (parseShownItems (some value) rest).map (value :: ·)

def rlistParseShown (string : CString) : Outcome (List CString) :=
  (rlistFromSplitString string ',').bind (parseShownItems none)

-- A string that is shown as it is and read as it is shown.
structure ShownPlainly (s : CString) : Prop where
  ne_nil : s ≠ []
  comma  : ',' ∉ s
  kept   : ∀ c ∈ s, shownKept c
  head   : ∀ c ∈ s.head?, ¬shownSkipped c

-- What can be read from an item at all.
structure Scanned (s : CString) : Prop where
  ne_nil : s ≠ []
  kept   : ∀ c ∈ s, shownKept c
  head   : ∀ c ∈ s.head?, ¬shownSkipped c

variable {s t v pre item : CString} {list items : List CString} {value : Option CString} {c : Char}

theorem Scanned.of_sscanfShown (h : sscanfShown item = some v) : Scanned v := by
  rw [sscanfShown] at h
  split at h
  case isTrue    => nomatch h
  case isFalse hne =>
    cases h
    refine ⟨fun hnil => hne (.inr hnil), fun c hc => ?_, fun c hc => ?_⟩
    · exact List.mem_takeWhile_imp <| List.mem_of_mem_take hc
    · rw [List.head?_take, if_neg (by decide), List.head?_takeWhile] at hc
      have hmem := (Option.filter_eq_some_iff.mp hc).left
      have hnot := List.head?_dropWhile_not shownSkipped item
      rw [hmem] at hnot
      exact ne_true_of_eq_false hnot

-- A text behind characters that are skipped.
theorem sscanfShown_append {x : CString} (hp : ∀ c ∈ pre, shownSkipped c) (hpre : pre ≠ [])
    (hx : ∀ c ∈ x.head?, ¬shownSkipped c) (hv : (x.takeWhile shownKept).take 255 ≠ []) :
    sscanfShown (pre ++ x) = some ((x.takeWhile shownKept).take 255) := by
  have hdrop : (pre ++ x).dropWhile shownSkipped = x := by
    rw [List.dropWhile_append_of_pos hp]
    cases x
    case nil       => rfl
    case cons c x  => exact List.dropWhile_cons_of_neg <| hx c rfl
  have htake : (pre ++ x).takeWhile shownSkipped ≠ [] := by
    obtain _ | ⟨c, pre⟩ := pre
    case nil  => exact absurd rfl hpre
    case cons => rw [List.cons_append, List.takeWhile_cons_of_pos (hp c List.mem_cons_self)]; exact List.cons_ne_nil _ _
  rw [sscanfShown, hdrop]
  exact if_neg fun h => h.elim htake hv

theorem Scanned.of_parseShownItems (hv : ∀ v ∈ value, Scanned v) (h : parseShownItems value items = some list) :
    list.length = items.length ∧ ∀ s ∈ list, Scanned s := by
  induction items generalizing value list
  case nil =>
    cases h
    exact ⟨rfl, nofun⟩
  case cons item items ih =>
    rw [parseShownItems] at h
    split at h
    case h_1          => nomatch h
    case h_2 v hscan =>
      have ⟨list', hlist, he⟩ := Option.map_eq_some_iff.mp h
      have hscanned : Scanned v := by
        cases hs : sscanfShown item with
        | none   =>
          rw [hs] at hscan
          exact hv v hscan
        | some w =>
          rw [hs] at hscan
          cases hscan
          exact .of_sscanfShown hs
      have ⟨hl, hall⟩ := ih (fun w hw => Option.some.inj hw ▸ hscanned) hlist
      rw [← he]
      exact ⟨congrArg (· + 1) hl, List.forall_mem_cons.mpr ⟨hscanned, hall⟩⟩

theorem scalarWrite_eq (h : ∀ c ∈ s, shownKept c) : scalarWrite s = s := by
  induction s
  case nil => rfl
  case cons c s ih =>
    have hc : c ≠ '\'' := fun he => absurd (h c List.mem_cons_self) (he ▸ by decide)
    rw [scalarWrite, List.flatMap_cons, if_neg hc, ← scalarWrite, ih fun d hd => h d <| List.mem_cons_of_mem _ hd,
      List.singleton_append]

-- An item as it is written for a string without quotes.
theorem Scanned.sscanfShown (h : Scanned s) (hl : s.length ≤ 255) (hp : ∀ c ∈ pre, shownSkipped c) (post : CString) :
    CfEngine.sscanfShown (pre ++ '\'' :: s ++ '\'' :: post) = some s := by
  have hkept : (s ++ '\'' :: post).takeWhile shownKept = s := by
    rw [List.takeWhile_append_of_pos h.kept, List.takeWhile_cons_of_neg (by decide), List.append_nil]
  have hskipped : ∀ c ∈ pre ++ ['\''], shownSkipped c := by
    intro c hc
    cases List.mem_append.mp hc
    case inl hc => exact hp c hc
    case inr hc => exact List.mem_singleton.mp hc ▸ by decide
  have hx : ∀ c ∈ (s ++ '\'' :: post).head?, ¬shownSkipped c := by
    obtain _ | ⟨d, s⟩ := s
    case nil  => exact absurd rfl h.ne_nil
    case cons => exact h.head
  have hscan := sscanfShown_append hskipped (by simp) hx (by rw [hkept, List.take_of_length_le hl]; exact h.ne_nil)
  rw [hkept, List.take_of_length_le hl] at hscan
  simpa using hscan

-- The items that the text of a list is split into when no string has a comma.
def shownFields : List CString → List CString
  | []        => []
  | [s]       => ['\'' :: s ++ ['\'', '}']]
  | s :: rest => ('\'' :: s ++ ['\'']) :: shownFields rest

theorem length_shownFields : (shownFields list).length = list.length := by
  fun_induction shownFields list
  case case1         => rfl
  case case2         => rfl
  case case3 _ ih    => exact congrArg (· + 1) ih

theorem splittable_shownFields : Splittable (shownFields list) := by
  fun_induction shownFields list
  case case1 => nofun
  case case2 s =>
    intro f hf
    rw [List.mem_singleton.mp hf]
    refine ⟨List.cons_ne_nil _ _, ?_⟩
    rw [EndsPlain, List.getLast?_append_of_ne_nil _ (List.cons_ne_nil _ _)]
    decide
  case case3 s rest hne ih =>
    intro f hf
    cases List.mem_cons.mp hf
    case inl he =>
      rw [he]
      refine ⟨List.cons_ne_nil _ _, ?_⟩
      rw [EndsPlain, List.getLast?_append_of_ne_nil _ (List.cons_ne_nil _ _)]
      decide
    case inr hf => exact ih f hf

theorem shownFields_ne_nil (h : list ≠ []) : shownFields list ≠ [] :=
  fun hnil => h <| List.length_eq_zero_iff.mp <| length_shownFields.symm.trans <| congrArg List.length hnil

theorem behindSeparators_eq {fields : List CString} (h : fields ≠ []) :
    behindSeparators c fields = c :: List.intercalate [c] fields := by
  obtain _ | ⟨f, fields⟩ := fields
  case nil  => exact absurd rfl h
  case cons => rw [intercalate_cons_eq, behindSeparators, List.flatMap_cons, List.cons_append, behindSeparators]

theorem rlistWriteItems_eq (h : ∀ s ∈ list, ∀ c ∈ s, shownKept c) (hne : list ≠ []) :
    rlistWriteItems list = List.intercalate [','] (shownFields list) := by
  fun_induction shownFields list
  case case1 => exact absurd rfl hne
  case case2 s =>
    rw [rlistWriteItems, scalarWrite_eq (h s List.mem_cons_self), intercalate_cons_eq, behindSeparators,
      List.flatMap_nil]
    simp
  case case3 s rest hrest ih =>
    have ih := ih (fun t ht => h t <| List.mem_cons_of_mem _ ht) hrest
    rw [rlistWriteItems, scalarWrite_eq (h s List.mem_cons_self), intercalate_cons_eq,
      behindSeparators_eq (shownFields_ne_nil hrest), ih]
    exact hrest

section Splitting

-- The loop yields one string for each item.
theorem parseShownItems_cons_iff : parseShownItems value (item :: items) = some (s :: list) ↔
    (sscanfShown item <|> value) = some s ∧ parseShownItems (some s) items = some list := by
  rw [parseShownItems]
  cases sscanfShown item <|> value with
  | none   => simp
  | some v =>
    constructor
    case mp  =>
      intro h
      have ⟨list', hl, he⟩ := Option.map_eq_some_iff.mp h
      cases he
      exact ⟨rfl, hl⟩
    case mpr =>
      intro ⟨hv, hl⟩
      cases hv
      rw [Option.map_eq_some_iff]
      exact ⟨list, hl, rfl⟩

theorem bind_parseShownItems_iff {outcome : Outcome (List CString)} :
    (outcome.map (item :: ·)).bind (parseShownItems value) = some (s :: list) ↔
      (sscanfShown item <|> value) = some s ∧ outcome.bind (parseShownItems (some s)) = some list := by
  cases outcome with
  | none       => simp
  | some items => exact parseShownItems_cons_iff

theorem length_parseShownItems (h : parseShownItems value items = some list) : list.length = items.length := by
  induction items generalizing value list
  case nil =>
    cases h
    rfl
  case cons item items ih =>
    rw [parseShownItems] at h
    split at h
    case h_1 => nomatch h
    case h_2 =>
      have ⟨list', hlist, he⟩ := Option.map_eq_some_iff.mp h
      exact he ▸ congrArg (· + 1) (ih hlist)

-- A separator behind a backslash is copied.
theorem subStrnCopyChr_escape (hc : c ≠ '\\') (hm : c ∉ t) {len : Nat} (hl : t.length < len) (r : CString) :
    ∃ x, subStrnCopyChr c len (t ++ '\\' :: c :: r) = t ++ c :: x := by
  induction t generalizing len
  case nil =>
    obtain _ | len := len
    case zero => cases hl
    case succ => exact ⟨_, by rw [List.nil_append, subStrnCopyChr, if_pos ⟨rfl, rfl⟩]; rfl⟩
  case cons d t ih =>
    obtain _ | len := len
    case zero => cases hl
    case succ =>
      obtain ⟨hd, hm⟩ := List.ne_and_not_mem_of_not_mem_cons hm
      obtain ⟨x, hx⟩ := ih hm <| Nat.lt_of_succ_lt_succ hl
      have hhead : ¬(d = '\\' ∧ (t ++ '\\' :: c :: r).head? = some c) := by
        rintro ⟨_, hh⟩
        obtain _ | ⟨e, t⟩ := t
        case nil  => exact hc (Option.some.inj hh).symm
        case cons => exact (List.ne_and_not_mem_of_not_mem_cons hm).left (Option.some.inj hh).symm
      refine ⟨x, ?_⟩
      rw [List.cons_append, subStrnCopyChr, if_neg hhead, if_neg hd.symm, hx, List.cons_append]

-- The backslash before a comma is lost.
theorem sscanfShown_comma_ne {a b x : CString} (hs : Scanned (a ++ '\\' :: ',' :: b))
    (hl : (a ++ '\\' :: ',' :: b).length ≤ 255) (hp : ∀ c ∈ pre, shownSkipped c) :
    (sscanfShown (pre ++ '\'' :: a ++ ',' :: x) <|> value) ≠ some (a ++ '\\' :: ',' :: b) := by
  have hskipped : ∀ c ∈ pre ++ ['\''], shownSkipped c := by
    intro c hc
    cases List.mem_append.mp hc
    case inl hc => exact hp c hc
    case inr hc => exact List.mem_singleton.mp hc ▸ by decide
  have hhead : ∀ c ∈ (a ++ ',' :: x).head?, ¬shownSkipped c := by
    obtain _ | ⟨d, a⟩ := a
    case nil  => exact fun c hc => Option.some.inj hc ▸ by decide
    case cons => exact hs.head
  have ha : a.length < 255 := by
    rw [List.length_append, List.length_cons] at hl
    omega
  have hkept : ((a ++ ',' :: x).takeWhile shownKept).take 255 =
      a ++ ',' :: (x.takeWhile shownKept).take (254 - a.length) := by
    rw [List.takeWhile_append_of_pos fun c hc => hs.kept c <| List.mem_append_left _ hc,
      List.takeWhile_cons_of_pos (by decide), List.take_append, List.take_of_length_le (Nat.le_of_lt ha)]
    rw [show 255 - a.length = 254 - a.length + 1 by omega, List.take_succ_cons]
  have hscan := sscanfShown_append hskipped (by simp) hhead (by rw [hkept]; simp)
  rw [List.append_assoc, List.singleton_append] at hscan
  rw [List.append_assoc, List.cons_append, hscan, hkept]
  intro he
  have hcons := List.append_cancel_left (Option.some.inj he)
  exact absurd (List.cons.inj hcons).left (by decide)

theorem EndsPlain.append_quote (h : EndsPlain s) (pre : CString) : EndsPlain (pre ++ '\'' :: s) := by
  rw [EndsPlain, List.getLast?_append_of_ne_nil _ (List.cons_ne_nil _ _)]
  obtain _ | ⟨c, s⟩ := s
  case nil  => decide
  case cons => rwa [List.getLast?_cons_cons]

-- A string with a comma is not the value of the last item.
theorem last_comma_ne (hs : Scanned s) (hl : s.length ≤ 255) (hp : ∀ c ∈ pre, shownSkipped c) (hpl : pre.length ≤ 2)
    (hpc : ',' ∉ pre) (hc : ',' ∈ s) :
    (rlistFromSplitString (pre ++ ('\'' :: s ++ ['\'', '}'])) ',').bind (parseShownItems value) ≠ some [s] := by
  intro h
  obtain ⟨items, hitems, hparse⟩ := Option.bind_eq_some_iff.mp h
  have hlength := length_parseShownItems hparse
  obtain ⟨a, b, rfl, ha⟩ := List.eq_append_cons_of_mem hc
  by_cases hplain : EndsPlain a
  case pos =>
    have htext : pre ++ ('\'' :: (a ++ ',' :: b) ++ ['\'', '}']) =
        pre ++ '\'' :: a ++ behindSeparators ',' [b ++ ['\'', '}']] := by
      simp [behindSeparators]
    rw [htext] at hitems
    have hfields : Splittable [b ++ ['\'', '}']] := by
      intro f hf
      rw [List.mem_singleton.mp hf]
      refine ⟨by simp, ?_⟩
      rw [EndsPlain, List.getLast?_append_of_ne_nil _ (List.cons_ne_nil _ _)]
      decide
    have hlt := length_lt_of_rlistFromSplitString (by decide) hfields (hplain.append_quote pre) (by simp) hitems
    exact Nat.ne_of_lt hlt hlength
  case neg =>
    obtain ⟨a, rfl⟩ := List.getLast?_eq_some_iff.mp <| Decidable.not_not.mp hplain
    rw [List.append_assoc, List.singleton_append] at hs hl
    have htext : pre ++ ('\'' :: (a ++ ['\\'] ++ ',' :: b) ++ ['\'', '}']) =
        pre ++ '\'' :: a ++ '\\' :: ',' :: (b ++ ['\'', '}']) := by
      simp
    have hm : ',' ∉ pre ++ '\'' :: a := by
      intro hm
      cases List.mem_append.mp hm
      case inl hm => exact hpc hm
      case inr hm => exact ha <| List.mem_append_left _ <| (List.mem_cons.mp hm).resolve_left (by decide)
    have hlen : (pre ++ '\'' :: a).length < cfMaxVarSize := by
      simp only [List.length_append, List.length_cons, cfMaxVarSize] at hl ⊢
      omega
    obtain ⟨x, hx⟩ := subStrnCopyChr_escape (by decide) hm hlen (b ++ ['\'', '}'])
    obtain ⟨items', _, he⟩ := exists_of_rlistFromSplitString (by simp) hitems
    rw [htext, hx] at he
    have hlast : a ++ ['\\'] ++ ',' :: b = a ++ '\\' :: ',' :: b := by
      rw [List.append_assoc, List.singleton_append]
    rw [he, hlast] at hparse
    exact sscanfShown_comma_ne hs hl hp (parseShownItems_cons_iff.mp hparse).left

theorem parseShownItems_iff (hne : list ≠ []) (hs : ∀ s ∈ list, Scanned s ∧ s.length ≤ 255)
    (hp : ∀ c ∈ pre, shownSkipped c) (hpl : pre.length ≤ 2) (hpc : ',' ∉ pre) :
    (rlistFromSplitString (pre ++ rlistWriteItems list) ',').bind (parseShownItems value) = some list ↔
      ∀ s ∈ list, ',' ∉ s := by
  rw [rlistWriteItems_eq (fun s hm => (hs s hm).left.kept) hne]
  fun_induction shownFields list generalizing pre value
  case case1 => exact absurd rfl hne
  case case2 s =>
    obtain ⟨hscan, hl⟩ := hs s List.mem_cons_self
    rw [intercalate_cons_eq, behindSeparators, List.flatMap_nil, List.append_nil, List.forall_mem_singleton]
    by_cases hc : ',' ∈ s
    case pos => exact iff_of_false (last_comma_ne hscan hl hp hpl hpc hc) (not_not_intro hc)
    case neg =>
      have hvalue := hscan.sscanfShown hl hp ['}']
      have hplain : EndsPlain (pre ++ ('\'' :: s ++ ['\'', '}'])) := by
        rw [EndsPlain, ← List.append_assoc, List.getLast?_append_of_ne_nil _ (List.cons_ne_nil _ _)]
        decide
      have hlen : (pre ++ ('\'' :: s ++ ['\'', '}'])).length < cfMaxVarSize := by
        simp only [List.length_append, List.length_cons, List.length_nil, cfMaxVarSize]
        omega
      have hm : ',' ∉ pre ++ ('\'' :: s ++ ['\'', '}']) := by simp [hc, hpc]
      rw [rlistFromSplitString_last (by decide) hplain hm hlen (by simp), Option.bind_some]
      refine iff_of_true (parseShownItems_cons_iff.mpr ⟨?_, rfl⟩) hc
      rw [List.append_assoc] at hvalue
      rw [hvalue]
      rfl
  case case3 s rest hrest ih =>
    obtain ⟨hscan, hl⟩ := hs s List.mem_cons_self
    obtain ⟨f, fields, hfields⟩ := List.exists_cons_of_ne_nil (shownFields_ne_nil hrest)
    rw [intercalate_cons_eq, ← List.append_assoc, List.forall_mem_cons]
    have hplain : EndsPlain (pre ++ ('\'' :: s ++ ['\''])) := by
      rw [EndsPlain, ← List.append_assoc, List.getLast?_append_of_ne_nil _ (List.cons_ne_nil _ _)]
      decide
    by_cases hc : ',' ∈ s
    case pos =>
      refine iff_of_false (fun h => ?_) fun h => h.left hc
      obtain ⟨items, hitems, hparse⟩ := Option.bind_eq_some_iff.mp h
      have hlength := length_parseShownItems hparse
      have hlt := succ_length_lt_of_rlistFromSplitString (by decide) splittable_shownFields hplain
        (shownFields_ne_nil hrest) (by simp [hc]) hitems
      rw [length_shownFields, ← hlength, List.length_cons] at hlt
      exact Nat.lt_irrefl _ hlt
    case neg =>
      have hvalue := hscan.sscanfShown hl hp []
      have hlen : (pre ++ ('\'' :: s ++ ['\''])).length < cfMaxVarSize := by
        simp only [List.length_append, List.length_cons, List.length_nil, cfMaxVarSize]
        omega
      have ih := @ih [] (some s) hrest (fun t ht => hs t <| List.mem_cons_of_mem _ ht) (by simp) (Nat.zero_le _)
        List.not_mem_nil
      rw [hfields, intercalate_cons_eq, List.nil_append] at ih
      rw [hfields, rlistFromSplitString_field (by decide) hplain (by simp [hc, hpc]) hlen, bind_parseShownItems_iff, ih]
      refine and_congr_left fun _ => iff_of_true ?_ hc
      rw [List.append_assoc] at hvalue
      rw [hvalue]
      rfl

end Splitting

-- The strings are read as they were shown when none of them is empty, starts with a blank or a brace, or has a comma
-- or a quote.
theorem rlistParseShown_rlistWrite_iff (hne : list ≠ []) (hl : ∀ s ∈ list, s.length ≤ 255) :
    rlistParseShown (rlistWrite list) = some list ↔ ∀ s ∈ list, ShownPlainly s := by
  have hp : ∀ c ∈ [' ', '\x7b'], shownSkipped c := by decide
  have hiff (hs : ∀ s ∈ list, Scanned s) :
      (rlistFromSplitString ([' ', '{'] ++ rlistWriteItems list) ',').bind (parseShownItems none) = some list ↔
        ∀ s ∈ list, ',' ∉ s :=
    parseShownItems_iff hne (fun s hm => ⟨hs s hm, hl s hm⟩) hp (Nat.le_refl 2) (by decide)
  rw [rlistParseShown, rlistWrite]
  constructor
  case mp  =>
    intro h
    obtain ⟨items, _, hparse⟩ := Option.bind_eq_some_iff.mp h
    have hnone : ∀ v ∈ (none : Option CString), Scanned v := nofun
    have hs := (Scanned.of_parseShownItems hnone hparse).right
    exact fun s hm => ⟨(hs s hm).ne_nil, (hiff hs).mp h s hm, (hs s hm).kept, (hs s hm).head⟩
  case mpr =>
    intro h
    exact (hiff fun s hm => ⟨(h s hm).ne_nil, (h s hm).kept, (h s hm).head⟩).mpr fun s hm => (h s hm).comma

theorem rlistParseShown_rlistWrite_pair :
    rlistParseShown (rlistWrite [['a'], ['b', '\\', '\x7d']]) = some [['a'], ['b', '\\', '\x7d']] := by
  refine (rlistParseShown_rlistWrite_iff (List.cons_ne_nil _ _) (by decide)).mpr ?_
  simp only [List.forall_mem_cons]
  refine ⟨⟨nofun, by decide, by decide, fun c hc => ?_⟩, ⟨nofun, by decide, by decide, fun c hc => ?_⟩, nofun⟩
  all_goals exact Option.some.inj hc ▸ by decide

-- A string with a comma is read as two, of which the second has the value of the first.
theorem rlistParseShown_rlistWrite_ne :
    rlistParseShown (rlistWrite [['a', ',', 'b']]) ≠ some [['a', ',', 'b']] := by
  have hhead : ∀ c ∈ ['a', ',', 'b'].head?, ¬shownSkipped c := fun c hc => Option.some.inj hc ▸ by decide
  have hs : Scanned ['a', ',', 'b'] := ⟨List.cons_ne_nil _ _, by decide, hhead⟩
  have hp : ∀ c ∈ [' ', '\x7b'], shownSkipped c := by decide
  exact last_comma_ne hs (by decide) hp (Nat.le_refl 2) (by decide) (by decide)

end CfEngine
