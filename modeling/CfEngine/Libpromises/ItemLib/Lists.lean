import CfEngine.Libpromises.ItemLib.MatchRegion

namespace CfEngine

open Links

-- A pointer to an item of the list, NULL or the marker.
def IsPlace (file : List (Nat × CString)) (p : ItemPtr) : Prop :=
  p = .undefined ∨ p = .null ∨ ∃ a ∈ file.map Prod.fst, p = .item a

theorem isPlace_front {pre xs : List (Nat × CString)} : IsPlace (pre ++ xs) (.ptr <| front xs none) := by
  cases xs
  case nil       => exact .inr <| .inl rfl
  case cons x xs => exact .inr <| .inr ⟨x.1, List.mem_map_of_mem <| List.mem_append_right _ List.mem_cons_self, rfl⟩

theorem IsPlace.mono {file file' : List (Nat × CString)} {p : ItemPtr} (h : IsPlace file p)
    (hsub : file.Sublist file') : IsPlace file' p :=
  h.imp_right <| Or.imp_right fun ⟨a, ha, hp⟩ => ⟨a, (hsub.map _).subset ha, hp⟩

theorem exists_split {file : List (Nat × CString)} {a : Nat} (ha : a ∈ file.map Prod.fst) :
    ∃ pre x post, file = pre ++ (a, x) :: post := by
  have ⟨⟨_, x⟩, hx, he⟩ := List.mem_map.mp ha
  cases he
  have ⟨pre, post, hfile⟩ := List.append_of_mem hx
  exact ⟨pre, x, post, hfile⟩

theorem IsPlace.exists_front {file : List (Nat × CString)} {p : ItemPtr} (h : IsPlace file p) (hne : p ≠ .undefined) :
    ∃ pre xs, file = pre ++ xs ∧ p = .ptr (front xs none) := by
  obtain rfl | rfl | ⟨a, ha, rfl⟩ := h
  case inl     => exact absurd rfl hne
  case inr.inl => exact ⟨file, [], (List.append_nil _).symm, rfl⟩
  case inr.inr =>
    have ⟨pre, x, post, hfile⟩ := exists_split ha
    exact ⟨pre, (a, x) :: post, hfile, rfl⟩

namespace Items

variable {items : Items} {p terminator : Option Nat} {file pre xs post : List (Nat × CString)} {fuel : Nat}

theorem lt_fuel (h : Chained items p (pre ++ xs) none) : xs.length < items.fuel := by
  have hle := h.length_le
  rw [List.length_append] at hle
  rw [Items.fuel]
  omega

theorem isItemInRegionLoop_eq {isMatch : CString → Bool} (h : Chained items p (pre ++ (xs ++ post)) none)
    (ht : IsTerminator terminator xs post) (hfuel : xs.length < fuel) :
    items.isItemInRegionLoop isMatch (.ptr terminator) fuel (.ptr <| front (xs ++ post) none) =
      .ok (xs.any fun x => isMatch x.2) := by
  induction fuel generalizing pre xs
  case zero         => cases hfuel
  case succ fuel ih =>
    cases xs
    case nil       =>
      have hend : ItemPtr.ptr (front post none) = .ptr terminator ∨ ItemPtr.ptr (front post none) = .null := by
        cases post
        case nil  => exact .inr rfl
        case cons => exact .inl <| congrArg ItemPtr.ptr <| ht.right nofun
      rw [List.nil_append, isItemInRegionLoop, if_pos hend]
      rfl
    case cons x xs =>
      have hend : ¬(ItemPtr.item x.1 = .ptr terminator ∨ ItemPtr.item x.1 = .null) :=
        not_or.mpr ⟨fun he => ht.left x List.mem_cons_self <| ItemPtr.ptr.inj he, nofun⟩
      have ih := @ih (pre ++ [x]) xs (by rwa [List.append_assoc]) ht.tail (Nat.lt_of_succ_lt_succ hfuel)
      rw [List.cons_append, front_cons, isItemInRegionLoop, if_neg hend, deref_item h, EditOutcome.ok_bind, List.any_cons]
      by_cases hm : isMatch x.2
      case pos => simp [hm]
      case neg => simp [hm, ih]

-- A region from an item to the end of the list.
theorem isItemInRegion_eq {rx : TextMatching} {line : CString} {insert_match : List InsertMatchType}
    (h : Chained items p (pre ++ xs) none) :
    items.isItemInRegion rx line (.ptr <| front xs none) .null insert_match =
      .ok (xs.any fun x => matchPolicy rx insert_match line x.2) := by
  have hnil : Chained items p (pre ++ (xs ++ [])) none := by rwa [List.append_nil]
  have heq : items.isItemInRegionLoop (matchPolicy rx insert_match line) _ items.fuel _ = _ :=
    isItemInRegionLoop_eq hnil isTerminator_none (lt_fuel h)
  rwa [List.append_nil] at heq

theorem lastLoop_eq {x : Nat × CString} (h : Chained items p (pre ++ x :: xs) none) (hfuel : xs.length < fuel) :
    ∃ before last y, pre ++ x :: xs = before ++ [(last, y)] ∧ items.lastLoop fuel x.1 = .ok last := by
  induction xs generalizing pre x fuel <;> obtain ⟨fuel, rfl⟩ := Nat.exists_eq_succ_of_ne_zero (Nat.ne_zero_of_lt hfuel)
  case nil             =>
    refine ⟨pre, x.1, x.2, rfl, ?_⟩
    simp [lastLoop, deref_item h]
  case cons x' xs ih =>
    have hrest : Chained items p (pre ++ [x] ++ x' :: xs) none := by rwa [List.append_assoc]
    have ⟨before, last, y, he, hloop⟩ := ih hrest (Nat.lt_of_succ_lt_succ hfuel)
    refine ⟨before, last, y, by rwa [List.append_assoc] at he, ?_⟩
    simp [lastLoop, deref_item h, hloop]

-- What is selected is an item of the region that matches, with a place to insert at, and there is one where some item
-- matches.
def IsSelection (file xs : List (Nat × CString)) (isMatch : CString → Bool) (selected : Option (ItemPtr × ItemPtr)) :
    Prop :=
  (selected.isSome ↔ ∃ x ∈ xs, isMatch x.2) ∧
    ∀ q ∈ selected, (∃ x ∈ xs, isMatch x.2 ∧ q.1 = .item x.1) ∧ IsPlace file q.2

theorem selectNextLoop_eq (isMatch : CString → Bool) {ip_prev : ItemPtr} (h : Chained items p (pre ++ (xs ++ post)) none)
    (hprev : IsPlace (pre ++ (xs ++ post)) ip_prev) (hfuel : xs.length < fuel) :
    ∃ selected, items.selectNextLoop isMatch (.ptr <| front post none) fuel (.ptr <| front (xs ++ post) none) ip_prev =
      .ok selected ∧ IsSelection (pre ++ (xs ++ post)) xs isMatch selected := by
  induction fuel generalizing pre xs ip_prev
  case zero         => cases hfuel
  case succ fuel ih =>
    cases xs
    case nil       =>
      refine ⟨none, ?_, by simp, nofun⟩
      rw [List.nil_append, selectNextLoop, if_pos rfl]
    case cons x xs =>
      have hregion : Chained items p (pre ++ x :: xs ++ post) none := by rwa [List.append_assoc]
      have hend : ItemPtr.item x.1 ≠ .ptr (front post none) := fun he =>
        hregion.ne_front (List.mem_map_of_mem <| List.mem_append_right _ List.mem_cons_self) <| ItemPtr.ptr.inj he
      have hfile : pre ++ [x] ++ (xs ++ post) = pre ++ (x :: xs ++ post) := by rw [List.append_assoc]; rfl
      have hx : IsPlace (pre ++ (x :: xs ++ post)) (.item x.1) := isPlace_front
      have ⟨selected, hloop, hselected⟩ := @ih (pre ++ [x]) xs (.item x.1) (hfile ▸ h) (hfile ▸ hx)
        (Nat.lt_of_succ_lt_succ hfuel)
      rw [hfile] at hselected
      rw [List.cons_append, front_cons, selectNextLoop, if_neg hend, deref_item h, EditOutcome.ok_bind]
      by_cases hm : isMatch x.2
      case pos =>
        refine ⟨some (.item x.1, ip_prev), by rw [if_pos hm], by simp [hm], fun q hq => ?_⟩
        cases hq
        exact ⟨⟨x, List.mem_cons_self, hm, rfl⟩, hprev⟩
      case neg =>
        refine ⟨selected, by rwa [if_neg hm], by simp [hm, hselected.left], fun q hq => ?_⟩
        have ⟨⟨y, hy, hq⟩, hprev⟩ := hselected.right q hq
        exact ⟨⟨y, List.mem_cons_of_mem x hy, hq⟩, hprev⟩

theorem selectLastLoop_eq (isMatch : CString → Bool) {ip_prev : ItemPtr} {us : List (Nat × CString)}
    {last : Option (ItemPtr × ItemPtr)} (h : Chained items p (pre ++ us ++ (xs ++ post)) none)
    (hprev : IsPlace (pre ++ us ++ (xs ++ post)) ip_prev) (hlast : IsSelection (pre ++ us ++ (xs ++ post)) us isMatch last)
    (hfuel : xs.length < fuel) :
    ∃ selected, items.selectLastLoop isMatch (.ptr <| front post none) fuel (.ptr <| front (xs ++ post) none) ip_prev last =
      .ok selected ∧ IsSelection (pre ++ us ++ (xs ++ post)) (us ++ xs) isMatch selected := by
  induction fuel generalizing us xs ip_prev last
  case zero         => cases hfuel
  case succ fuel ih =>
    cases xs
    case nil       =>
      refine ⟨last, ?_, by rwa [List.append_nil]⟩
      rw [List.nil_append, selectLastLoop, if_pos rfl]
    case cons x xs =>
      have hregion : Chained items p (pre ++ us ++ x :: xs ++ post) none := by rwa [List.append_assoc]
      have hend : ItemPtr.item x.1 ≠ .ptr (front post none) := fun he =>
        hregion.ne_front (List.mem_map_of_mem <| List.mem_append_right _ List.mem_cons_self) <| ItemPtr.ptr.inj he
      have hfile : pre ++ (us ++ [x]) ++ (xs ++ post) = pre ++ us ++ (x :: xs ++ post) := by simp
      have hx : IsPlace (pre ++ us ++ (x :: xs ++ post)) (.item x.1) := isPlace_front
      have hlast' : IsSelection (pre ++ us ++ (x :: xs ++ post)) (us ++ [x]) isMatch
          (if isMatch x.2 then some (.item x.1, ip_prev) else last) := by
        by_cases hm : isMatch x.2
        case pos =>
          rw [if_pos hm]
          refine ⟨by simp [hm], fun q hq => ?_⟩
          cases hq
          exact ⟨⟨x, List.mem_append_right _ List.mem_cons_self, hm, rfl⟩, hprev⟩
        case neg =>
          rw [if_neg hm]
          refine ⟨by simp [hlast.left, or_and_right, exists_or, hm], fun q hq => ?_⟩
          have ⟨⟨y, hy, hq⟩, hprev⟩ := hlast.right q hq
          exact ⟨⟨y, List.mem_append_left _ hy, hq⟩, hprev⟩
      have ⟨selected, hloop, hselected⟩ := @ih xs (.item x.1) (us ++ [x]) _ (hfile ▸ h) (hfile ▸ hx) (hfile ▸ hlast')
        (Nat.lt_of_succ_lt_succ hfuel)
      rw [hfile, List.append_assoc us] at hselected
      refine ⟨selected, ?_, hselected⟩
      rw [List.cons_append, front_cons, selectLastLoop, if_neg hend, deref_item h, EditOutcome.ok_bind]
      exact hloop

theorem previousLoop_eq {found prev : ItemPtr} (h : Chained items p (pre ++ xs) none) (hprev : IsPlace (pre ++ xs) prev)
    (hfuel : xs.length < fuel) :
    ∃ prev', items.previousLoop found fuel (.ptr <| front xs none) prev = .ok prev' ∧ IsPlace (pre ++ xs) prev' := by
  induction fuel generalizing pre xs prev
  case zero         => cases hfuel
  case succ fuel ih =>
    cases xs
    case nil       =>
      refine ⟨prev, ?_, hprev⟩
      rw [front_nil, previousLoop, if_pos (.inl rfl)]
    case cons x xs =>
      have hfile : pre ++ [x] ++ xs = pre ++ x :: xs := by rw [List.append_assoc]; rfl
      have hx : IsPlace (pre ++ x :: xs) (.item x.1) := isPlace_front
      have ⟨prev', hloop, hprev'⟩ := @ih (pre ++ [x]) xs (.item x.1) (hfile ▸ h) (hfile ▸ hx) (Nat.lt_of_succ_lt_succ hfuel)
      rw [hfile] at hprev'
      rw [front_cons, previousLoop, deref_item h]
      split
      case isTrue  => exact ⟨prev, rfl, hprev⟩
      case isFalse => exact ⟨prev', hloop, hprev'⟩

theorem selectItemMatching_eq {rx : TextMatching} {regex : CString} {fl : Option CString}
    (h : Chained items p (pre ++ (xs ++ post)) none) :
    ∃ selected, items.selectItemMatching rx (.ptr p) (some regex) (.ptr <| front (xs ++ post) none)
        (.ptr <| front post none) fl = .ok selected ∧
      IsSelection (pre ++ (xs ++ post)) xs (fullTextMatch rx.full regex) selected := by
  have hfuel : xs.length < items.fuel := by
    have := lt_fuel h
    rw [List.length_append] at this
    omega
  have ⟨selected, hselect, hs⟩ : ∃ selected, items.selectMatching rx regex (.ptr <| front (xs ++ post) none)
      (.ptr <| front post none) fl = .ok selected ∧
      IsSelection (pre ++ (xs ++ post)) xs (fullTextMatch rx.full regex) selected := by
    rw [selectMatching]
    split
    case isTrue  => exact selectNextLoop_eq _ h (.inl rfl) hfuel
    case isFalse =>
      have hnone : IsSelection (pre ++ [] ++ (xs ++ post)) [] (fullTextMatch rx.full regex) none := ⟨by simp, nofun⟩
      have hnil : Chained items p (pre ++ [] ++ (xs ++ post)) none := by rwa [List.append_nil]
      have hlast := selectLastLoop_eq _ hnil (.inl rfl) hnone hfuel
      rwa [List.append_nil, List.nil_append] at hlast
  rw [selectItemMatching]
  simp only [hselect, EditOutcome.ok_bind]
  cases selected
  case none   => exact ⟨none, rfl, hs⟩
  case some q =>
    have ⟨found, prev⟩ := q
    have ⟨hfound, hprev⟩ := hs.right _ rfl
    have hall : Chained items p ([] ++ (pre ++ (xs ++ post))) none := h
    have ⟨prev', hprevious, hprev'⟩ : ∃ prev', items.previousItem (.ptr p) found prev = .ok prev' ∧
        IsPlace (pre ++ (xs ++ post)) prev' := by
      rw [previousItem, h.front_eq]
      split
      case isTrue  => exact previousLoop_eq hall (.inl rfl) (lt_fuel hall)
      case isFalse => exact ⟨prev, rfl, hprev⟩
    refine ⟨some (found, prev'), by simp only [hprevious, EditOutcome.ok_bind]; rfl, hs.left, fun q hq => ?_⟩
    cases hq
    exact ⟨hfound, hprev'⟩

end Items

namespace ItemList

variable {list : ItemList} {file : List (Nat × CString)} {string : CString}

theorem prependItemList_eq (h : Chained list.items list.start file none) :
    Chained (list.prependItemList string).items (list.prependItemList string).start
      ((list.items.length, string) :: file) none :=
  h.cons

theorem appendItem_eq (string : CString) (h : Chained list.items list.start file none) :
    ∃ list', list.appendItem string = .ok list' ∧
      Chained list'.items list'.start (file ++ [(list.items.length, string)]) none := by
  cases file
  case nil         =>
    have hstart : list.start = none := h
    refine ⟨⟨_, some list.items.length⟩, by rw [appendItem, hstart], ?_⟩
    exact Chained.cons rfl
  case cons x file =>
    have hstart : list.start = some x.1 := h.front_eq
    have hx : Chained list.items list.start ([] ++ x :: file) none := h
    have hfuel : file.length < list.items.fuel := @Items.lt_fuel _ _ [x] file h
    have ⟨before, last, y, he, hlast⟩ := Items.lastLoop_eq hx hfuel
    rw [List.nil_append] at he
    rw [he] at h ⊢
    have hget := (h.concat (l := some ⟨string, none⟩)).get_eq
    have hins := h.insert (y := string)
    refine ⟨⟨_, list.start⟩, ?_, by rwa [List.append_assoc]⟩
    rw [appendItem, hstart]
    simp only [hlast, EditOutcome.ok_bind, Items.setNext_eq hget]
    rfl

-- The item comes after the one that is given.
theorem insertAfter_item {pre post : List (Nat × CString)} {a : Nat} {x : CString} (string : CString)
    (h : Chained list.items list.start (pre ++ (a, x) :: post) none) :
    ∃ list', list.insertAfter (.item a) string = .ok list' ∧
      Chained list'.items list'.start (pre ++ (a, x) :: (list.items.length, string) :: post) none := by
  have hstart : ¬(list.start = none ∨ ItemPtr.item a = .undefined) := by
    refine not_or.mpr ⟨?_, nofun⟩
    rw [h.front_eq]
    cases pre <;> exact nofun
  have hget := (h.concat (l := some ⟨string, front post none⟩)).get_eq
  refine ⟨⟨_, list.start⟩, ?_, h.insert⟩
  rw [insertAfter, if_neg hstart]
  simp only [Items.deref_item h, EditOutcome.ok_bind, Items.setNext_eq hget]
  rfl

-- It comes after all items where there is none.
theorem insertAfter_end {place : ItemPtr} (string : CString) (h : Chained list.items list.start file none)
    (hplace : place = .undefined ∨ place = .null) :
    ∃ list', list.insertAfter place string = .ok list' ∧
      Chained list'.items list'.start (file ++ [(list.items.length, string)]) none := by
  have happend : list.insertAfter place string = list.appendItem string := by
    obtain rfl | rfl := hplace
    case inl => simp [insertAfter]
    case inr => simp [insertAfter]
  rw [happend]
  exact appendItem_eq string h

theorem insertAfter_sublist {place : ItemPtr} (string : CString) (h : Chained list.items list.start file none)
    (hplace : IsPlace file place) :
    ∃ list' file' n, list.insertAfter place string = .ok list' ∧ Chained list'.items list'.start file' none ∧
      file.Sublist file' ∧ (n, string) ∈ file' := by
  cases or_assoc.mpr hplace
  case inl hend  =>
    have ⟨list', hlist, h'⟩ := insertAfter_end string h hend
    exact ⟨list', _, _, hlist, h', List.sublist_append_left .., List.mem_append_right _ List.mem_cons_self⟩
  case inr hitem =>
    have ⟨a, ha, hplace⟩ := hitem
    have ⟨pre, x, post, hfile⟩ := exists_split ha
    rw [hfile] at h
    have ⟨list', hlist, h'⟩ := insertAfter_item string h
    rw [hplace, hfile]
    refine ⟨list', _, _, hlist, h', ?_, List.mem_append_right _ <| List.mem_cons_of_mem _ List.mem_cons_self⟩
    exact (List.sublist_cons_self ..).cons_cons _ |>.append_left _

-- Where a neighbour matches, there is a match in the list.
theorem neighbourLoop_eq (isMatch : CString → Bool) (pos : EditOrder) (location : ItemPtr) {items : Items}
    {p : Option Nat} {pre xs : List (Nat × CString)} {fuel : Nat} (h : Chained items p (pre ++ xs) none)
    (hfuel : xs.length < fuel) :
    ∃ found, neighbourLoop items isMatch pos location fuel (front xs none) = .ok found ∧
      (found → ∃ x ∈ xs, isMatch x.2) := by
  induction fuel generalizing pre xs
  case zero         => cases hfuel
  case succ fuel ih =>
    cases xs
    case nil       => exact ⟨false, rfl, nofun⟩
    case cons x xs =>
      have hrest : Chained items p (pre ++ [x] ++ xs) none := by rwa [List.append_assoc]
      have ⟨found, hloop, hfound⟩ := ih hrest (Nat.lt_of_succ_lt_succ hfuel)
      have hfound (hf : found) : ∃ y ∈ x :: xs, isMatch y.2 :=
        have ⟨y, hy, hm⟩ := hfound hf
        ⟨y, List.mem_cons_of_mem _ hy, hm⟩
      simp only [front_cons, neighbourLoop, Items.deref_item h, EditOutcome.ok_bind]
      cases pos
      case before =>
        dsimp only
        split
        case isTrue  => exact ⟨isMatch x.2, rfl, fun hm => ⟨x, List.mem_cons_self, hm⟩⟩
        case isFalse => exact ⟨found, hloop, hfound⟩
      case after  =>
        dsimp only
        split
        case isFalse => exact ⟨found, hloop, hfound⟩
        case isTrue  =>
          rcases xs with _ | ⟨y, xs⟩
          · exact ⟨false, rfl, nofun⟩
          · rw [front_cons]
            refine ⟨isMatch y.2, ?_, fun hm => ⟨y, List.mem_cons_of_mem _ List.mem_cons_self, hm⟩⟩
            simp only [Items.deref_item hrest, EditOutcome.ok_bind]

theorem neighbourItemMatches_eq {rx : TextMatching} {location : ItemPtr} {pos : EditOrder}
    {insert_match : List InsertMatchType} (h : Chained list.items list.start file none) :
    ∃ found, list.neighbourItemMatches rx location string pos insert_match = .ok found ∧
      (found → ∃ x ∈ file, matchPolicy rx insert_match string x.2) := by
  have hnil : Chained list.items list.start ([] ++ file) none := h
  have heq := neighbourLoop_eq (matchPolicy rx insert_match string) pos location hnil (Items.lt_fuel hnil)
  rwa [←h.front_eq] at heq

end ItemList

open Links

-- The loop of `SplitString`, with the character before the current one, and what is in the buffer before the index.
def splitStringLoop (sep : Char) : CString → (last : Option Char) → (before : CString) → ItemList → EditOutcome ItemList
  | [], _, before, list         =>
    if cfBufSize ≤ before.length then .error .bufferOverflow else list.appendItem before
  | c :: sp, last, before, list =>
    if cfBufSize ≤ before.length then
      .error .bufferOverflow
    else if c ≠ sep then
      splitStringLoop sep sp (some c) (before ++ [c]) list
    else if last = some '\\' then
      if before = [] then .error .bufferOverflow
      else splitStringLoop sep sp (some c) (before.dropLast ++ [sep]) list
    else do
      let list ← list.appendItem before
      splitStringLoop sep sp (some c) [] list

def splitString (string : CString) (sep : Char) : EditOutcome ItemList :=
  splitStringLoop sep string none [] ⟨[], none⟩

-- The separators in an item are behind backslashes.
def escapeItem (sep : Char) (item : CString) : CString :=
  item.flatMap fun c => if c = sep then ['\\', sep] else [c]

def joinEscapedItems (sep : Char) (items : List CString) : CString :=
  [sep].intercalate <| items.map (escapeItem sep)

section
variable {sep c : Char} {last : Option Char} {before t rest item : CString} {list : ItemList}
  {file : List (Nat × CString)} {items : List CString}

theorem getLast?_or_cons : (c :: t).getLast?.or last = t.getLast?.or (some c) := by
  rw [List.getLast?_cons]
  cases t.getLast? <;> rfl

-- What is left of an item is read into the buffer.
theorem splitStringLoop_item (hsep : sep ≠ '\\') (hlen : before.length + t.length < cfBufSize) :
    splitStringLoop sep (escapeItem sep t ++ rest) last before list =
      splitStringLoop sep rest (t.getLast?.or last) (before ++ t) list := by
  induction t generalizing last before
  case nil         => rw [List.append_nil]; rfl
  case cons c t ih =>
    rw [List.length_cons] at hlen
    have hfits : ¬cfBufSize ≤ before.length := by omega
    have hitem : escapeItem sep (c :: t) = (if c = sep then ['\\', sep] else [c]) ++ escapeItem sep t := List.flatMap_cons
    have ih := @ih (some c) (before ++ [c]) (by rw [List.length_append, List.length_singleton]; omega)
    rw [getLast?_or_cons, hitem, List.append_cons, ←ih]
    by_cases hc : c = sep
    case neg =>
      rw [if_neg hc, List.append_assoc, List.singleton_append, splitStringLoop, if_neg hfits, if_pos hc]
    case pos =>
      -- The backslash is replaced by the separator.
      have hfits' : ¬cfBufSize ≤ (before ++ ['\\']).length := by
        rw [List.length_append, List.length_singleton]
        omega
      rw [if_pos hc, List.append_assoc, List.cons_append, List.singleton_append, splitStringLoop, if_neg hfits,
        if_pos (Ne.symm hsep), splitStringLoop, if_neg hfits', if_neg (not_not_intro rfl), if_pos rfl,
        if_neg (by simp), List.dropLast_concat, hc]

theorem splitStringLoop_join (hsep : sep ≠ '\\') (hne : items ≠ []) (hends : ∀ item ∈ items, item.getLast? ≠ some '\\')
    (hlen : ∀ item ∈ items, item.length < cfBufSize) (hlast : last ≠ some '\\')
    (h : Chained list.items list.start file none) :
    ∃ list' file', splitStringLoop sep (joinEscapedItems sep items) last [] list = .ok list' ∧
      Chained list'.items list'.start file' none ∧ file'.map Prod.snd = file.map Prod.snd ++ items := by
  induction items generalizing last list file
  case nil             => exact absurd rfl hne
  case cons item items ih =>
    have hitem : ([] : CString).length + item.length < cfBufSize := by
      rw [List.length_nil, Nat.zero_add]
      exact hlen item List.mem_cons_self
    have hfits : ¬cfBufSize ≤ item.length := Nat.not_le.mpr <| hlen item List.mem_cons_self
    have ⟨list', happend, hchained⟩ := ItemList.appendItem_eq item h
    have hread {rest : CString} := @splitStringLoop_item sep last [] item rest list hsep hitem
    rw [List.nil_append] at hread
    cases items
    case nil           =>
      have hjoin : joinEscapedItems sep [item] = escapeItem sep item ++ [] := by
        rw [List.append_nil]
        exact List.intercalate_singleton
      refine ⟨list', _, ?_, hchained, List.map_append⟩
      rw [hjoin, hread, splitStringLoop, if_neg hfits, happend]
    case cons e items =>
      have hjoin : joinEscapedItems sep (item :: e :: items) = escapeItem sep item ++ sep :: joinEscapedItems sep (e :: items) := by
        rw [joinEscapedItems, List.map_cons, List.map_cons, List.intercalate_cons_cons, List.append_assoc]
        rfl
      have hbehind : item.getLast?.or last ≠ some '\\' := by
        have hends := hends item List.mem_cons_self
        cases hl : item.getLast?
        case none   => rwa [Option.none_or]
        case some d => rwa [Option.some_or, ←hl]
      have ⟨list'', file'', hloop, hchained'', hfile⟩ := ih nofun (fun i hi => hends i <| List.mem_cons_of_mem _ hi)
        (fun i hi => hlen i <| List.mem_cons_of_mem _ hi) (fun h => hsep <| Option.some.inj h) hchained
      refine ⟨list'', file'', ?_, hchained'', ?_⟩
      case refine_1 =>
        rw [hjoin, hread, splitStringLoop, if_neg hfits, if_neg (not_not_intro rfl), if_neg hbehind, happend,
          EditOutcome.ok_bind, hloop]
      case refine_2 =>
        rw [hfile, List.map_append, List.append_assoc]
        rfl

end

theorem splitString_joinEscapedItems (sep : Char) (items : List CString) (hsep : sep ≠ '\\') (hne : items ≠ [])
    (hends : ∀ item ∈ items, item.getLast? ≠ some '\\') (hlen : ∀ item ∈ items, item.length < cfBufSize) :
    ∃ list file, splitString (joinEscapedItems sep items) sep = .ok list ∧ Chained list.items list.start file none ∧
      file.map Prod.snd = items := by
  have hstart : Chained (ItemList.mk [] none).items (ItemList.mk [] none).start [] none := rfl
  exact @splitStringLoop_join sep none ⟨[], none⟩ [] items hsep hne hends hlen nofun hstart

theorem splitString_example : ∃ list file, splitString (joinEscapedItems ':' [[], "a:b".toList, "c".toList]) ':' = .ok list ∧
    Chained list.items list.start file none ∧ file.map Prod.snd = [[], "a:b".toList, "c".toList] :=
  splitString_joinEscapedItems ':' _ (by decide) (by decide) (by decide) (by decide)

end CfEngine
