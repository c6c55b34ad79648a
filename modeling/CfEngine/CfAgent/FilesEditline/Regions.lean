import CfEngine.CfAgent.FilesEditline.Deletion
import CfEngine.Libpromises.ItemLib.Lists

namespace CfEngine

open Links

section
variable {rx : TextMatching} {region : EditRegion} {items : Items} {list : ItemList} {p : Option Nat}
  {file pre xs : List (Nat × CString)} {fuel : Nat}

def startsRegion (rx : TextMatching) (region : EditRegion) (line : CString) : Bool :=
  region.select_start.any (fullTextMatch rx.full · line)

def endsRegion (rx : TextMatching) (region : EditRegion) (line : CString) : Bool :=
  region.select_end.any (fullTextMatch rx.full · line)

-- The file from the line on that the region starts with.
def fromStart (rx : TextMatching) (region : EditRegion) (file : List (Nat × CString)) : List (Nat × CString) :=
  file.dropWhile fun x => ¬startsRegion rx region x.2

-- The marker of the loop stands for an end that has not been found.
def foundEnd (rx : TextMatching) (region : EditRegion) (xs : List (Nat × CString)) : ItemPtr :=
  match xs.find? fun x => endsRegion rx region x.2 with
  | some y => .item y.1
  | none   => .undefined

-- Within a region, the loop looks for its end.
theorem selectRegionLoop_end {b : Nat} (h : Chained items p (pre ++ xs) none) (hfuel : xs.length < fuel) :
    selectRegionLoop rx items region fuel (front xs none) (.item b) .undefined =
      .ok (some (.item b, foundEnd rx region xs)) := by
  induction fuel generalizing pre xs
  case zero         => cases hfuel
  case succ fuel ih =>
    cases xs
    case nil       => rfl
    case cons x xs =>
      have ih := @ih (pre ++ [x]) xs (by rwa [List.append_assoc]) (Nat.lt_of_succ_lt_succ hfuel)
      rw [front_cons, selectRegionLoop, Items.deref_item h, EditOutcome.ok_bind]
      by_cases hend : endsRegion rx region x.2
      case pos =>
        have hfound : foundEnd rx region (x :: xs) = .item x.1 := by simp [foundEnd, hend]
        rw [endsRegion] at hend
        simp [hend, hfound]
      case neg =>
        have hfound : foundEnd rx region (x :: xs) = foundEnd rx region xs := by simp [foundEnd, hend]
        rw [endsRegion] at hend
        simp [hend, hfound, ih]

-- What the loop finds from a place on.
def foundRegion (rx : TextMatching) (region : EditRegion) (xs : List (Nat × CString)) : Option (ItemPtr × ItemPtr) :=
  match fromStart rx region xs with
  | []        => some (.undefined, .undefined)
  | x :: rest => if ¬region.include_start ∧ rest = [] then none else some (.item x.1, foundEnd rx region rest)

theorem selectRegionLoop_eq (h : Chained items p (pre ++ xs) none) (hfuel : xs.length < fuel) :
    selectRegionLoop rx items region fuel (front xs none) .undefined .undefined = .ok (foundRegion rx region xs) := by
  induction fuel generalizing pre xs
  case zero         => cases hfuel
  case succ fuel ih =>
    cases xs
    case nil       => rfl
    case cons x xs =>
      have hrest : Chained items p (pre ++ [x] ++ xs) none := by rwa [List.append_assoc]
      have hfuel' := Nat.lt_of_succ_lt_succ hfuel
      have ih := @ih (pre ++ [x]) xs hrest hfuel'
      have hloop := @selectRegionLoop_end rx region items p (pre ++ [x]) xs fuel x.1 hrest hfuel'
      rw [front_cons, selectRegionLoop, Items.deref_item h, EditOutcome.ok_bind]
      by_cases hstart : startsRegion rx region x.2
      case pos =>
        have hfound : foundRegion rx region (x :: xs) =
            if ¬region.include_start ∧ xs = [] then none else some (.item x.1, foundEnd rx region xs) := by
          rw [foundRegion, fromStart, List.dropWhile_cons_of_neg (by simpa using hstart)]
        have hnil : front xs none = none ↔ xs = [] := by cases xs <;> simp
        rw [startsRegion] at hstart
        simp only [hstart, hfound, hnil, hloop, true_and, if_true]
        split <;> rfl
      case neg =>
        have hfound : foundRegion rx region (x :: xs) = foundRegion rx region xs := by
          rw [foundRegion, fromStart, List.dropWhile_cons_of_pos (by simpa using hstart)]
          rfl
        rw [startsRegion] at hstart
        simp [hstart, hfound, ih]

-- The region that is selected.
def selectedRegion (rx : TextMatching) (region : EditRegion) (file : List (Nat × CString)) :
    Option (ItemPtr × ItemPtr) :=
  match fromStart rx region file with
  | []        => if region.select_start.isSome then none else some (.undefined, .null)
  | x :: rest =>
    if ¬region.include_start ∧ rest = [] then
      none
    else
      some (.item x.1, if foundEnd rx region rest = .undefined then .null else foundEnd rx region rest)

theorem selectRegion_eq (h : Chained list.items list.start file none) :
    selectRegion rx list region = .ok (selectedRegion rx region file) := by
  have hall : Chained list.items list.start ([] ++ file) none := h
  have hloop := @selectRegionLoop_eq rx region list.items list.start [] file _ hall (Items.lt_fuel hall)
  rw [←h.front_eq] at hloop
  rw [selectRegion, hloop, EditOutcome.ok_bind, foundRegion, selectedRegion]
  cases fromStart rx region file
  case nil         =>
    dsimp only
    split <;> simp_all
  case cons x rest =>
    by_cases hempty : ¬region.include_start ∧ rest = []
    case pos => simp only [if_pos hempty]
    case neg =>
      simp only [if_neg hempty]
      exact if_neg fun hb => nomatch hb.left

end

section
variable {edit : Nat → CString → LineEdit} {isEnd : ItemPtr → Bool} {ed : EditContext} {pre xs post : List (Nat × CString)}
  {fuel : Nat} {retval : Bool}

-- An edit of an item leaves the items that come before and after.
theorem editItem_eq {a : Nat} {x : CString} (edited : LineEdit)
    (h : Chained ed.list.items ed.list.start (pre ++ (a, x) :: xs) none) :
    Chained (editItem ed a ⟨x, front xs none⟩ edited).list.items (editItem ed a ⟨x, front xs none⟩ edited).list.start
      (pre ++ (a, edited.line.getD x) :: xs) none := by
  rw [editItem]
  cases edited.line
  case none      => exact h
  case some name =>
    have ⟨hl, hr, hpre, hxs⟩ := h.split
    exact hl.put_last hr hpre hxs

theorem editLoop_safe (h : Chained ed.list.items ed.list.start (pre ++ (xs ++ post)) none)
    (hend : isEnd (.ptr <| front post none)) (hin : ∀ x ∈ xs, ¬isEnd (.item x.1)) (hfuel : xs.length < fuel) :
    editLoop edit isEnd fuel ed (.ptr <| front (xs ++ post) none) retval ≠ .error .badPointer := by
  induction fuel generalizing ed pre xs retval
  case zero         => cases hfuel
  case succ fuel ih =>
    cases xs
    case nil       =>
      rw [List.nil_append, editLoop, if_pos hend]
      exact nofun
    case cons x xs =>
      rw [List.cons_append, front_cons, editLoop, if_neg (hin x List.mem_cons_self), Items.deref_item h,
        EditOutcome.ok_bind]
      dsimp only
      split
      case isTrue  => exact nofun
      case isFalse =>
        have h' := editItem_eq (edit x.1 x.2) h
        refine @ih _ (pre ++ [(x.1, (edit x.1 x.2).line.getD x.2)]) xs _ ?_ (fun z hz => hin z <| List.mem_cons_of_mem _ hz)
          (Nat.lt_of_succ_lt_succ hfuel)
        rwa [List.append_assoc]

end

-- Where only a warning is promised, the loop goes through the region.
theorem deleteLoop_warn {rx : TextMatching} {promiser : CString} {a : EditAttributes} {ed : EditContext}
    {kept region post : List (Nat × CString)} {initiator terminator : Option Nat} {fuel : Nat} {retval : Bool}
    (hwarn : a.warn) (h : Chained ed.list.items ed.list.start (kept ++ (region ++ post)) none)
    (ht : IsTerminator terminator region post) (hfuel : region.length < fuel) :
    deleteLoop rx promiser a terminator fuel ed initiator (front (region ++ post) none) retval ≠ .error .badPointer := by
  induction fuel generalizing kept region retval
  case zero         => cases hfuel
  case succ fuel ih =>
    cases region
    case nil       =>
      have hend : front post none = terminator ∨ front post none = none := by
        cases post
        case nil  => exact .inr rfl
        case cons => exact .inl <| ht.right (by rintro ⟨⟩)
      rw [List.nil_append, deleteLoop, if_pos hend]
      rintro ⟨⟩
    case cons x xs =>
      have hend : ¬(some x.1 = terminator ∨ some x.1 = none) := not_or.mpr ⟨ht.left x List.mem_cons_self, by rintro ⟨⟩⟩
      have hmatch : ed.list.items.matchRegion rx promiser (.item x.1) _ true = _ := Items.matchRegion_eq h (by rintro ⟨⟩) ht
      have ih := @ih (kept ++ [x]) xs retval (by rwa [List.append_assoc]) ht.tail (Nat.lt_of_succ_lt_succ hfuel)
      have hdelete {n : Nat} : ¬(n ≠ 0 ∧ ¬a.warn) := fun hd => hd.right hwarn
      rw [List.cons_append, front_cons, deleteLoop, if_neg hend, hmatch]
      split
      case isTrue  => rintro ⟨⟩
      case isFalse =>
        simp only [EditOutcome.ok_bind, Items.deref_item h, if_neg hdelete, ite_self]
        exact ih

theorem deletePromisedLinesMatching_safe {rx : TextMatching} {promiser : CString} {a : EditAttributes} {ed : EditContext}
    {file : List (Nat × CString)} {begin_ptr end_ptr : ItemPtr} (h : Chained ed.list.items ed.list.start file none)
    (hregion : HasRegion file begin_ptr end_ptr a.region) :
    deletePromisedLinesMatching rx ed begin_ptr end_ptr a promiser ≠ .error .badPointer := by
  have ⟨heq, h', hfuel⟩ := deletePromisedLinesMatching_eq rx promiser h hregion rfl
  rw [heq]
  by_cases hwarn : a.warn
  case pos => exact deleteLoop_warn hwarn h' regionOf_isTerminator hfuel
  case neg =>
    have hdeletes := @deleteLoop_deletes rx promiser a _ _ ed _ _ _ false _ hwarn h' regionOf_isTerminator (.inl rfl) hfuel
    cases hd : deleteLoop rx promiser a _ _ ed _ _ false
    case ok    => exact nofun
    case error =>
      rw [hd] at hdeletes
      cases hdeletes
      exact nofun

-- The operations that are given the region only follow pointers to items.
def RegionSafe (rx : TextMatching) (list : ItemList) (region : EditRegion) (begin_ptr end_ptr : ItemPtr) : Prop :=
  (∀ ed a promiser, ed.list = list → a.region = region →
    deletePromisedLinesMatching rx ed begin_ptr end_ptr a promiser ≠ .error .badPointer) ∧
  (∀ columnEdit ed promiser, ed.list = list →
    editColumns rx columnEdit ed begin_ptr end_ptr promiser ≠ .error .badPointer) ∧
  (∀ patternEdit ed, ed.list = list → replacePatterns patternEdit ed begin_ptr end_ptr ≠ .error .badPointer) ∧
  (∀ line insert_match, list.items.isItemInRegion rx line begin_ptr end_ptr insert_match ≠ .error .badPointer) ∧
  ∀ regex fl, list.items.selectItemMatching rx (.ptr list.start) regex begin_ptr end_ptr fl ≠ .error .badPointer

-- There is a line after the start of the region that it ends with.
def RegionIsClosed (rx : TextMatching) (region : EditRegion) (file : List (Nat × CString)) : Prop :=
  ∃ y ∈ (fromStart rx region file).tail, endsRegion rx region y.2

section
variable {rx : TextMatching} {region : EditRegion} {list : ItemList} {file : List (Nat × CString)}
  {begin_ptr end_ptr : ItemPtr}

theorem selectedRegion_split (hselect : selectedRegion rx region file = some (begin_ptr, end_ptr))
    (hstart : region.select_start.isSome) :
    ∃ pre x xs post, file = pre ++ (x :: xs ++ post) ∧ begin_ptr = .item x.1 ∧ end_ptr = .ptr (front post none) ∧
      (RegionIsClosed rx region file ↔ post ≠ []) := by
  rw [selectedRegion] at hselect
  rw [RegionIsClosed]
  have ⟨pre, hfile⟩ : ∃ pre, pre ++ fromStart rx region file = file := ⟨_, List.takeWhile_append_dropWhile⟩
  cases hfrom : fromStart rx region file
  case nil         => simp [hfrom, hstart] at hselect
  case cons x rest =>
    rw [hfrom] at hfile hselect
    have ⟨hbegin, hend⟩ : begin_ptr = .item x.1 ∧
        end_ptr = if foundEnd rx region rest = .undefined then .null else foundEnd rx region rest := by
      dsimp only at hselect
      split at hselect
      case isTrue  => cases hselect
      case isFalse =>
        cases hselect
        exact ⟨rfl, rfl⟩
    rw [foundEnd] at hend
    cases hfind : rest.find? fun x => endsRegion rx region x.2
    case none   =>
      rw [hfind] at hend
      refine ⟨pre, x, rest, [], ?_, hbegin, hend, iff_of_false (fun ⟨y, hy, hm⟩ => ?_) (absurd rfl)⟩
      case refine_1 => rw [List.append_nil, hfile]
      case refine_2 => exact List.find?_eq_none.mp hfind y hy hm
    case some y =>
      rw [hfind] at hend
      have ⟨hy, xs, post, hrest, _⟩ := List.find?_eq_some_iff_append.mp hfind
      refine ⟨pre, x, xs, y :: post, ?_, hbegin, hend, iff_of_true ⟨y, List.mem_of_find?_eq_some hfind, hy⟩ nofun⟩
      rw [List.cons_append, ←hrest, hfile]

theorem regionSafe_of_closed (h : Chained list.items list.start file none)
    (hselect : selectedRegion rx region file = some (begin_ptr, end_ptr)) (hstart : region.select_start.isSome)
    (hclosed : region.include_end → RegionIsClosed rx region file) : RegionSafe rx list region begin_ptr end_ptr := by
  obtain ⟨pre, x, xs, post, hfile, hbegin, hend, hiff⟩ := selectedRegion_split hselect hstart
  have h' : Chained list.items list.start (pre ++ (x :: xs ++ post)) none := hfile ▸ h
  have hle := h'.length_le
  have hfuel : (x :: xs).length < list.items.fuel := by
    simp only [List.length_append] at hle
    rw [Items.fuel]
    omega
  have hterminator : IsTerminator (front post none) (x :: xs) post :=
    ⟨fun y hy => (List.append_assoc .. ▸ h').ne_front <| List.mem_map_of_mem <| List.mem_append_right _ hy, fun _ => rfl⟩
  have hin (y : Nat × CString) (hy : y ∈ x :: xs) : ItemPtr.item y.1 ≠ .ptr (front post none) :=
    fun he => hterminator.left y hy <| ItemPtr.ptr.inj he
  rw [hbegin, hend]
  refine ⟨fun ed a promiser hed ha => ?_, fun columnEdit ed promiser hed => ?_, fun patternEdit ed hed => ?_,
    fun line insert_match => ?_, fun regex fl => ?_⟩
  case refine_1 =>
    refine deletePromisedLinesMatching_safe (hed ▸ h) ⟨.inr ⟨x.1, ?_, rfl⟩, .inr ?_⟩
    case refine_1 => simp [hfile]
    case refine_2 =>
      cases post
      case nil  => exact .inl ⟨rfl, fun hinclude => absurd rfl <| hiff.mp <| hclosed <| ha ▸ hinclude⟩
      case cons => exact .inr ⟨_, by simp [hfile], rfl⟩
  case refine_2 =>
    rw [editColumns]
    split
    case isTrue  => rintro ⟨⟩
    case isFalse =>
      subst hed
      exact editLoop_safe h' (decide_eq_true rfl) (by simpa using hin) hfuel
  case refine_3 =>
    subst hed
    exact editLoop_safe h' (decide_eq_true <| .inr rfl) (by simpa using hin) hfuel
  case refine_4 =>
    have hloop : list.items.isItemInRegion rx line (.item x.1) (.ptr <| front post none) insert_match = _ :=
      Items.isItemInRegionLoop_eq h' hterminator hfuel
    rw [hloop]
    rintro ⟨⟩
  case refine_5 =>
    cases regex
    case none       => rintro ⟨⟩
    case some regex =>
      obtain ⟨selected, hselected, _⟩ := @Items.selectItemMatching_eq _ _ _ _ _ rx regex fl h'
      rw [List.cons_append, front_cons] at hselected
      rw [hselected]
      rintro ⟨⟩

-- Without a line to start with, the region starts at the marker.
theorem selectedRegion_of_none (hstart : region.select_start = none) :
    selectedRegion rx region file = some (.undefined, .null) := by
  have hfrom : fromStart rx region file = [] :=
    List.dropWhile_eq_nil_iff.mpr fun x _ => by simp [startsRegion, hstart]
  rw [selectedRegion, hfrom]
  simp [hstart]

theorem select_start_of_regionSafe (hselect : selectedRegion rx region file = some (begin_ptr, end_ptr))
    (hsafe : RegionSafe rx list region begin_ptr end_ptr) : region.select_start.isSome := by
  by_contra hnone
  rw [selectedRegion_of_none <| Option.not_isSome_iff_eq_none.mp hnone] at hselect
  cases hselect
  have ⟨_, _, hreplace, _⟩ := hsafe
  exact hreplace (fun _ _ => .keep) ⟨list, 0⟩ rfl rfl

theorem closed_of_regionSafe (h : Chained list.items list.start file none)
    (hselect : selectedRegion rx region file = some (begin_ptr, end_ptr)) (hstart : region.select_start.isSome)
    (hsafe : RegionSafe rx list region begin_ptr end_ptr) (hinclude : region.include_end) :
    RegionIsClosed rx region file := by
  have ⟨pre, x, xs, post, hfile, hbegin, hend, hiff⟩ := selectedRegion_split hselect hstart
  refine hiff.mpr fun hpost => ?_
  have hb : begin_ptr = .undefined ∨ ∃ b ∈ file.map Prod.fst, begin_ptr = .item b := .inr ⟨x.1, by simp [hfile], hbegin⟩
  rw [hpost, front_nil] at hend
  refine hsafe.left ⟨list, 0⟩ { plainDeletion with region := region } [] rfl rfl ?_
  rw [deletePromisedLinesMatching, deletionInitiator_eq h hb, EditOutcome.ok_bind, hend]
  simp [deletionTerminator, hinclude, Items.deref, Except.map]

-- A region that is selected is safe where it has a line to start with, and a line to end with if that is included.
theorem regionSafe_iff (rx : TextMatching) (list : ItemList) (region : EditRegion) (file : List (Nat × CString))
    (begin_ptr end_ptr : ItemPtr) (h : Chained list.items list.start file none)
    (hselect : selectRegion rx list region = .ok (some (begin_ptr, end_ptr))) :
    RegionSafe rx list region begin_ptr end_ptr ↔
      region.select_start.isSome ∧ (region.include_end → RegionIsClosed rx region file) := by
  have hselect : selectedRegion rx region file = some (begin_ptr, end_ptr) :=
    Except.ok.inj <| (selectRegion_eq h).symm.trans hselect
  constructor
  case mpr => exact fun ⟨hstart, hclosed⟩ => regionSafe_of_closed h hselect hstart hclosed
  case mp  =>
    intro hsafe
    have hstart := select_start_of_regionSafe hselect hsafe
    exact ⟨hstart, closed_of_regionSafe h hselect hstart hsafe⟩

end

theorem regionSafe_threeLines :
    RegionSafe literally threeLines.list ⟨some ['b'], some ['a'], true, true⟩ (.item 1) (.item 2) := by
  refine (regionSafe_iff literally threeLines.list ⟨some ['b'], some ['a'], true, true⟩ _ (.item 1) (.item 2)
    threeLines_chained rfl).mpr ⟨rfl, fun _ => ⟨(2, ['a']), ?_, rfl⟩⟩
  decide

-- Without a line to start with, the marker is followed.
theorem not_regionSafe :
    ¬∀ (rx : TextMatching) (list : ItemList) (region : EditRegion) (file : List (Nat × CString))
      (begin_ptr end_ptr : ItemPtr), Chained list.items list.start file none →
      selectRegion rx list region = .ok (some (begin_ptr, end_ptr)) → RegionSafe rx list region begin_ptr end_ptr := by
  intro h
  have ⟨_, _, hreplace, _⟩ := h literally threeLines.list ⟨none, none, true, false⟩ _ .undefined .null threeLines_chained rfl
  exact hreplace (fun _ _ => .keep) threeLines rfl rfl

end CfEngine
