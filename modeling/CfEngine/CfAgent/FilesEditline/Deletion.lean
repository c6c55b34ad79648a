import Mathlib.Data.List.TakeWhile
import CfEngine.CfAgent.FilesEditline
import CfEngine.Libpromises.ItemLib.MatchRegion

namespace CfEngine

open Links

namespace Items

variable {items : Items} {p : Option Nat} {a n : Nat}

-- The walk stops at the last of the items.
theorem beforeLoop_eq {us vs : List (Nat × CString)} {fuel : Nat} {y : CString}
    (h : Chained items p (us ++ (n, y) :: vs) (some a)) (ha : a ∉ vs.map Prod.fst) (hfuel : vs.length < fuel) :
    ∃ before last z, us ++ (n, y) :: vs = before ++ [(last, z)] ∧ beforeLoop items a fuel (.item n) = .ok last := by
  induction vs generalizing us n y fuel <;> obtain ⟨fuel, rfl⟩ := Nat.exists_eq_succ_of_ne_zero (Nat.ne_zero_of_lt hfuel)
  case nil          =>
    refine ⟨us, n, y, rfl, ?_⟩
    simp [beforeLoop, deref_eq h.get_eq]
  case cons v vs ih =>
    have hne : v.1 ≠ a := fun he => ha <| he ▸ List.mem_cons_self
    have h' : Chained items p (us ++ [(n, y)] ++ v :: vs) (some a) := by rwa [List.append_assoc]
    have ⟨before, last, z, he, hloop⟩ := ih h' (fun hm => ha <| List.mem_cons_of_mem _ hm) (Nat.lt_of_succ_lt_succ hfuel)
    refine ⟨before, last, z, by rwa [List.append_assoc] at he, ?_⟩
    simp [beforeLoop, deref_eq h.get_eq, hne, hloop]

end Items

section
variable {ed : EditContext} {kept rest : List (Nat × CString)} {initiator : Option Nat} {a : Nat} {x : CString}

-- The walk can start from the item, as long as it is the one to be freed or comes before it.
def IsBefore (initiator ip : Option Nat) (kept : List (Nat × CString)) : Prop :=
  initiator = ip ∨ ∃ b ∈ kept.map Prod.fst, initiator = some b

theorem deleteItem_eq (h : Chained ed.list.items ed.list.start (kept ++ (a, x) :: rest) none)
    (hi : IsBefore initiator (some a) kept) :
    ∃ ed' initiator', deleteItem ed initiator (.item a) = .ok (ed', initiator', front rest none) ∧
      Chained ed'.list.items ed'.list.start (kept ++ rest) none ∧ IsBefore initiator' (front rest none) kept ∧
      ed'.num_edits = ed.num_edits + 1 := by
  have hd : ed.list.items.deref (.item a) = .ok ⟨x, front rest none⟩ := Items.deref_item h
  obtain ⟨hl, hr, hkept, hrest⟩ := h.split
  have hlt := lt_length_of_get h.get_eq
  cases kept
  case nil            =>
    -- The item is the first one, so that it is where the walk would start, too.
    have hstart : ed.list.start = some a := h.front_eq
    have hinitiator : initiator = some a := hi.resolve_right fun ⟨_, hb, _⟩ => nomatch hb
    refine ⟨⟨⟨ed.list.items.put a none, front rest none⟩, ed.num_edits + 1⟩, front rest none, ?_, ?_, .inl rfl, rfl⟩
    case refine_1 => simp [deleteItem, hd, hstart, hinitiator]
    case refine_2 => exact hr.put_of_notMem hlt hrest
  case cons k kept =>
    have hstart : ed.list.start = some k.1 := h.front_eq
    have hka : some k.1 ≠ some a := fun he => hkept <| Option.some.inj he ▸ List.mem_cons_self
    obtain ⟨b, hb, hinitiator⟩ : ∃ b ∈ (k :: kept).map Prod.fst,
        (if initiator = some a then some k.1 else initiator) = some b := by
      split
      case isTrue     => exact ⟨k.1, List.mem_cons_self, rfl⟩
      case isFalse hn => exact hi.resolve_left hn
    have hwalk : Chained (ed.list.items.put a none) ed.list.start (k :: kept) (some a) :=
      (chained_append.mp hl).left.put_of_notMem hlt hkept
    obtain ⟨⟨b', y⟩, hy, hyb⟩ := List.mem_map.mp hb
    obtain ⟨us, vs, hus⟩ := List.append_of_mem hy
    cases hyb
    have hfuel : vs.length < Items.fuel (ed.list.items.put a none) := by
      have hle := h.length_le
      rw [hus] at hle
      simp only [Items.fuel, put, List.length_set, List.length_append, List.length_cons] at hle ⊢
      omega
    have hvs : a ∉ vs.map Prod.fst := by
      rw [hus] at hkept
      exact fun hm => hkept <| by simp [List.mem_map.mp hm]
    obtain ⟨before, last, z, hbefore, hloop⟩ := Items.beforeLoop_eq (hus ▸ hwalk) hvs hfuel
    have hlast : k :: kept = before ++ [(last, z)] := hus.trans hbefore
    rw [hlast] at hwalk h ⊢
    have hlink : get (ed.list.items.put a none) last = some ⟨z, some a⟩ := hwalk.get_eq
    have hafter : Chained (ed.list.items.put a none) (front rest none) rest none := hr.put_of_notMem hlt hrest
    have hnot : last ∉ before.map Prod.fst ∧ last ∉ rest.map Prod.fst := by
      have hn := h.nodup
      simp only [List.map_append, List.map_cons, List.append_assoc, List.singleton_append] at hn
      obtain ⟨_, hn, hd⟩ := List.nodup_append.mp hn
      exact ⟨fun hm => hd last hm last List.mem_cons_self rfl,
        fun hm => (List.nodup_cons.mp hn).left <| List.mem_cons_of_mem _ hm⟩
    have hput := hwalk.put_last (y := z) hafter hnot.left hnot.right
    let items : Items := put (put ed.list.items a none) last <| some ⟨z, front rest none⟩
    refine ⟨⟨⟨items, ed.list.start⟩, ed.num_edits + 1⟩, some b', ?_, ?_, .inr ⟨b', hlast ▸ hb, rfl⟩, rfl⟩
    case refine_2 => simpa [List.append_assoc] using hput
    case refine_1 =>
      simp only [deleteItem, hd, EditOutcome.ok_bind, hstart, hka, if_false, hinitiator, hloop, Items.setNext_eq hlink]
      rfl

theorem IsBefore.concat {c : Nat × CString} {ip : Option Nat} (h : IsBefore initiator (some c.1) kept) :
    IsBefore initiator ip (kept ++ [c]) := by
  rw [IsBefore, List.map_append]
  cases h
  case inl h => exact .inr ⟨c.1, List.mem_append_right _ List.mem_cons_self, h⟩
  case inr h =>
    have ⟨b, hb, h⟩ := h
    exact .inr ⟨b, List.mem_append_left _ hb, h⟩

-- The items of a chunk are freed one after the other.
theorem deleteChunk_eq {chunk : List (Nat × CString)}
    (h : Chained ed.list.items ed.list.start (kept ++ (chunk ++ rest)) none)
    (hi : IsBefore initiator (front (chunk ++ rest) none) kept) :
    ∃ ed' initiator', deleteChunk chunk.length ed initiator (front (chunk ++ rest) none) =
        .ok (ed', initiator', front rest none) ∧
      Chained ed'.list.items ed'.list.start (kept ++ rest) none ∧ IsBefore initiator' (front rest none) kept ∧
      ed'.num_edits = ed.num_edits + chunk.length := by
  induction chunk generalizing ed initiator
  case nil             => exact ⟨ed, initiator, rfl, h, hi, rfl⟩
  case cons c chunk ih =>
    have ⟨ed₁, initiator₁, hdelete, h₁, hi₁, hn₁⟩ := deleteItem_eq h hi
    have ⟨ed', initiator', hchunk, h', hi', hn'⟩ := ih h₁ hi₁
    refine ⟨ed', initiator', ?_, h', hi', ?_⟩
    case refine_1 =>
      simp only [List.length_cons, List.cons_append, front_cons, deleteChunk, hdelete, EditOutcome.ok_bind]
      exact hchunk
    case refine_2 =>
      rw [hn', hn₁, List.length_cons]
      omega

end

-- The scan of the claimed meaning: what `matched` counts is deleted where the line is selected.
def scan (isSelected : CString → Bool) (matched : List (Nat × CString) → Nat) :
    (skip : Nat) → List (Nat × CString) → List (Nat × CString)
  | _, []           => []
  | skip + 1, _ :: xs => scan isSelected matched skip xs
  | 0, x :: xs      =>
    if isSelected x.2 ∧ matched (x :: xs) ≠ 0 then
      scan isSelected matched (matched (x :: xs) - 1) xs
    else
      x :: scan isSelected matched 0 xs

-- The parts of the region that the scan looks at.
def visited (isSelected : CString → Bool) (matched : List (Nat × CString) → Nat) :
    (skip : Nat) → List (Nat × CString) → List (List (Nat × CString))
  | _, []           => []
  | skip + 1, _ :: xs => visited isSelected matched skip xs
  | 0, x :: xs      =>
    (x :: xs) :: if isSelected x.2 ∧ matched (x :: xs) ≠ 0 then
      visited isSelected matched (matched (x :: xs) - 1) xs
    else
      visited isSelected matched 0 xs

theorem scan_drop {isSelected : CString → Bool} {matched : List (Nat × CString) → Nat} {skip : Nat}
    {xs : List (Nat × CString)} : scan isSelected matched skip xs = scan isSelected matched 0 (xs.drop skip) := by
  induction xs generalizing skip
  case nil          => simp [scan]
  case cons x xs ih =>
    cases skip
    case zero      => rfl
    case succ skip => exact ih

theorem visited_drop {isSelected : CString → Bool} {matched : List (Nat × CString) → Nat} {skip : Nat}
    {xs : List (Nat × CString)} : visited isSelected matched skip xs = visited isSelected matched 0 (xs.drop skip) := by
  induction xs generalizing skip
  case nil          => simp [visited]
  case cons x xs ih =>
    cases skip
    case zero      => rfl
    case succ skip => exact ih

-- How many lines are to be deleted at the start of what is left of the region.
def matchedAt (rx : TextMatching) (not_matching : Bool) (promiser : CString) (xs : List (Nat × CString)) : Nat :=
  matchedLines not_matching <| chunkLength (lineMatch rx true) (promiser.splitOn '\n') xs

section
variable {rx : TextMatching} {promiser : CString} {a : EditAttributes} {region post : List (Nat × CString)}

theorem matchedAt_le {not_matching : Bool} (h : region ≠ []) :
    matchedAt rx not_matching promiser region ≤ region.length := by
  have hpos : 0 < region.length := List.length_pos_iff.mpr h
  have hle : chunkLength (lineMatch rx true) (promiser.splitOn '\n') region ≤ region.length := by
    rw [chunkLength]
    split
    case isTrue h => exact startsWith_length h
    case isFalse  => exact Nat.zero_le _
  rw [matchedAt, matchedLines]
  split
  case isTrue  => split <;> omega
  case isFalse => exact hle

-- A line of the promiser that is read where the scan comes by does not fit into the buffer.
def ReadsLong (rx : TextMatching) (a : EditAttributes) (promiser : CString) (region post : List (Nat × CString)) : Prop :=
  ∃ xs ∈ visited (selectLine rx a.line_select) (matchedAt rx a.not_matching promiser) 0 region,
    readsLong (lineMatch rx true) (post ≠ []) (promiser.splitOn '\n') xs

-- The lines that the scan leaves of the region.
def scanned (rx : TextMatching) (a : EditAttributes) (promiser : CString) (region : List (Nat × CString)) :
    List (Nat × CString) :=
  scan (selectLine rx a.line_select) (matchedAt rx a.not_matching promiser) 0 region

variable {ed : EditContext} {kept : List (Nat × CString)} {initiator : Option Nat} {fuel : Nat} {retval : Bool}

-- What the loop does with the rest of the region. The items before it are kept.
inductive Deletes (rx : TextMatching) (a : EditAttributes) (promiser : CString) (ed : EditContext) (retval : Bool)
    (kept region post : List (Nat × CString)) : EditOutcome (Bool × EditContext) → Prop
  | overflow : ReadsLong rx a promiser region post → Deletes rx a promiser ed retval kept region post (.error .bufferOverflow)
  | done (ed' : EditContext) (retval' : Bool) :
    ¬ReadsLong rx a promiser region post →
    Chained ed'.list.items ed'.list.start (kept ++ (scanned rx a promiser region ++ post)) none →
    (retval' ↔ retval ∨ scanned rx a promiser region ≠ region) →
    (scanned rx a promiser region = region → ed' = ed) →
    Deletes rx a promiser ed retval kept region post (.ok (retval', ed'))

theorem scan_length_le {isSelected : CString → Bool} {matched : List (Nat × CString) → Nat} {skip : Nat}
    {xs : List (Nat × CString)} : (scan isSelected matched skip xs).length ≤ xs.length := by
  induction xs generalizing skip
  case nil          => simp [scan]
  case cons x xs ih =>
    cases skip
    case succ skip => exact ih.trans <| Nat.le_succ _
    case zero      =>
      rw [scan]
      split
      case isTrue  => exact ih.trans <| Nat.le_succ _
      case isFalse => exact Nat.succ_le_succ ih

theorem scanned_length_le : (scanned rx a promiser region).length ≤ region.length :=
  scan_length_le

variable {x : Nat × CString} {xs : List (Nat × CString)} {outcome : EditOutcome (Bool × EditContext)}

-- The line stays.
theorem Deletes.keep (hlong : ¬readsLong (lineMatch rx true) (post ≠ []) (promiser.splitOn '\n') (x :: xs))
    (hkeep : ¬(selectLine rx a.line_select x.2 ∧ matchedAt rx a.not_matching promiser (x :: xs) ≠ 0))
    (h : Deletes rx a promiser ed retval (kept ++ [x]) xs post outcome) :
    Deletes rx a promiser ed retval kept (x :: xs) post outcome := by
  have hscanned : scanned rx a promiser (x :: xs) = x :: scanned rx a promiser xs := by
    rw [scanned, scan, if_neg hkeep]
    rfl
  have hreads : ReadsLong rx a promiser (x :: xs) post ↔ ReadsLong rx a promiser xs post := by
    rw [ReadsLong, visited, if_neg hkeep]
    simp only [List.mem_cons, exists_eq_or_imp, hlong, Bool.false_eq_true, false_or]
    rfl
  cases h
  case overflow h                            => exact .overflow <| hreads.mpr h
  case done ed' retval' hnot h hretval hsame =>
    rw [List.append_assoc] at h
    refine .done ed' retval' (hreads.not.mpr hnot) ?_ ?_ fun he => ?_
    case refine_1 => rwa [hscanned]
    case refine_2 => simpa [hscanned] using hretval
    case refine_3 =>
      rw [hscanned] at he
      exact hsame (List.cons.inj he).right

-- Lines are deleted.
theorem Deletes.delete {ed₁ : EditContext}
    (hlong : ¬readsLong (lineMatch rx true) (post ≠ []) (promiser.splitOn '\n') (x :: xs))
    (hdelete : selectLine rx a.line_select x.2 ∧ matchedAt rx a.not_matching promiser (x :: xs) ≠ 0)
    (h : Deletes rx a promiser ed₁ true kept ((x :: xs).drop <| matchedAt rx a.not_matching promiser (x :: xs)) post
      outcome) :
    Deletes rx a promiser ed retval kept (x :: xs) post outcome := by
  obtain ⟨m, hm⟩ := Nat.exists_eq_succ_of_ne_zero hdelete.right
  have hscanned : scanned rx a promiser (x :: xs) = scanned rx a promiser (xs.drop m) := by
    rw [scanned, scan, if_pos hdelete, hm, Nat.succ_sub_one, scan_drop]
    rfl
  have hreads : ReadsLong rx a promiser (x :: xs) post ↔ ReadsLong rx a promiser (xs.drop m) post := by
    rw [ReadsLong, visited, if_pos hdelete, hm, Nat.succ_sub_one, visited_drop]
    simp only [List.mem_cons, exists_eq_or_imp, hlong, Bool.false_eq_true, false_or]
    rfl
  have hne : scanned rx a promiser (x :: xs) ≠ x :: xs := by
    intro he
    have hle : (scanned rx a promiser (xs.drop m)).length ≤ (xs.drop m).length := scanned_length_le
    rw [←hscanned, he, List.length_drop, List.length_cons] at hle
    omega
  rw [hm, List.drop_succ_cons] at h
  cases h
  case overflow h                        => exact .overflow <| hreads.mpr h
  case done ed' retval' hnot h hretval _ =>
    refine .done ed' retval' (hreads.not.mpr hnot) ?_ ?_ fun he => absurd he hne
    case refine_1 => rwa [hscanned]
    case refine_2 => exact iff_of_true (hretval.mpr <| .inl rfl) (.inr hne)

theorem deleteLoop_deletes {terminator : Option Nat} (hwarn : ¬a.warn)
    (h : Chained ed.list.items ed.list.start (kept ++ (region ++ post)) none) (ht : IsTerminator terminator region post)
    (hi : IsBefore initiator (front (region ++ post) none) kept) (hfuel : region.length < fuel) :
    Deletes rx a promiser ed retval kept region post <|
      deleteLoop rx promiser a terminator fuel ed initiator (front (region ++ post) none) retval := by
  induction fuel generalizing ed kept region initiator retval
  case zero         => cases hfuel
  case succ fuel ih =>
    cases region
    case nil            =>
      have hend : front post none = terminator ∨ front post none = none := by
        cases post
        case nil  => exact .inr rfl
        case cons => exact .inl <| ht.right nofun
      rw [List.nil_append, deleteLoop, if_pos hend]
      exact .done _ _ (fun ⟨_, hxs, _⟩ => nomatch hxs) h (by simp [scanned, scan]) fun _ => rfl
    case cons x xs =>
      have hd : ed.list.items.deref (.item x.1) = .ok ⟨x.2, front (xs ++ post) none⟩ := Items.deref_item h
      have hend : ¬(some x.1 = terminator ∨ some x.1 = none) := not_or.mpr ⟨ht.left x List.mem_cons_self, nofun⟩
      have hmatch : ed.list.items.matchRegion rx promiser (.item x.1) _ true = _ := Items.matchRegion_eq h nofun ht
      rw [List.cons_append, front_cons, deleteLoop, if_neg hend]
      by_cases hlong : readsLong (lineMatch rx true) (post ≠ []) (promiser.splitOn '\n') (x :: xs)
      case pos =>
        rw [hmatch, if_pos hlong]
        refine .overflow ⟨_, ?_, hlong⟩
        simp only [visited, List.mem_cons_self]
      case neg =>
        have hfuel' : xs.length < fuel := Nat.lt_of_succ_lt_succ hfuel
        have hstay := @ih xs ed (kept ++ [x]) initiator retval (by rwa [List.append_assoc]) ht.tail hi.concat hfuel'
        rw [hmatch, if_neg hlong]
        simp only [EditOutcome.ok_bind, hd]
        rw [show matchedLines a.not_matching _ = matchedAt rx a.not_matching promiser (x :: xs) from rfl]
        by_cases hselect : selectLine rx a.line_select x.2
        case neg =>
          rw [if_pos hselect]
          exact hstay.keep hlong fun hs => hselect hs.left
        case pos =>
          rw [if_neg (not_not.mpr hselect)]
          by_cases hm : matchedAt rx a.not_matching promiser (x :: xs) = 0
          case pos =>
            rw [if_neg fun hs => hs.left hm]
            exact hstay.keep hlong fun hs => hs.right hm
          case neg =>
            rw [if_pos ⟨hm, hwarn⟩]
            let m := matchedAt rx a.not_matching promiser (x :: xs)
            have hm' : ((x :: xs).take m).length = m :=
              List.length_take_of_le <| matchedAt_le <| List.cons_ne_nil x xs
            have hsplit : (x :: xs).take m ++ ((x :: xs).drop m ++ post) = x :: xs ++ post := by
              rw [←List.append_assoc, List.take_append_drop]
            have ⟨ed₁, initiator₁, hchunk, h₁, hi₁, _⟩ := deleteChunk_eq (hsplit.symm ▸ h) (hsplit.symm ▸ hi)
            rw [hsplit, hm', List.cons_append, front_cons] at hchunk
            rw [hchunk, EditOutcome.ok_bind]
            have hfuel₁ : ((x :: xs).drop m).length < fuel := by
              rw [List.length_drop, List.length_cons]
              omega
            exact (ih h₁ (ht.drop m) hi₁ hfuel₁).delete hlong ⟨hselect, hm⟩

end

-- The file before and from where the region starts.
def regionStart (file : List (Nat × CString)) (begin : ItemPtr) (include_start : Bool) :
    List (Nat × CString) × List (Nat × CString) :=
  match begin with
  | .ptr (some b) =>
    let before := file.takeWhile (·.1 ≠ b)
    let rest := file.dropWhile (·.1 ≠ b)
    if include_start then (before, rest) else (before ++ rest.take 1, rest.drop 1)
  | _             => ([], file)

-- The item that the region ends before.
def regionEnd (file : List (Nat × CString)) (ending : ItemPtr) (include_end : Bool) : Option Nat :=
  match ending with
  | .ptr (some e) => if include_end then front ((file.dropWhile (·.1 ≠ e)).drop 1) none else some e
  | _             => none

-- The parts of the file before, in and after the region.
structure FileRegion where
  before : List (Nat × CString)
  lines  : List (Nat × CString)
  after  : List (Nat × CString)

def regionOf (file : List (Nat × CString)) (begin ending : ItemPtr) (region : EditRegion) : FileRegion :=
  let (before, rest) := regionStart file begin region.include_start
  let terminator := regionEnd file ending region.include_end
  ⟨before, rest.takeWhile fun x => some x.1 ≠ terminator, rest.dropWhile fun x => some x.1 ≠ terminator⟩

-- The delimiters are items of the file, or there are none.
def HasRegion (file : List (Nat × CString)) (begin ending : ItemPtr) (region : EditRegion) : Prop :=
  (begin = .undefined ∨ ∃ b ∈ file.map Prod.fst, begin = .item b) ∧
    (ending = .undefined ∨ (ending = .null ∧ ¬region.include_end) ∨ ∃ e ∈ file.map Prod.fst, ending = .item e)

section
variable {file : List (Nat × CString)} {begin ending : ItemPtr} {region : EditRegion} {list : ItemList}

theorem not_of_dropWhile {p : Nat × CString → Bool} {x : Nat × CString} {rest : List (Nat × CString)}
    (h : file.dropWhile p = x :: rest) : p x = false := by
  have hhead := List.head?_dropWhile_not p file
  rwa [h] at hhead

theorem span_of_mem {b : Nat} (h : b ∈ file.map Prod.fst) :
    ∃ y rest, file.dropWhile (·.1 ≠ b) = (b, y) :: rest ∧ file = file.takeWhile (·.1 ≠ b) ++ (b, y) :: rest := by
  have hne : file.dropWhile (·.1 ≠ b) ≠ [] := by
    intro he
    have ⟨x, hx, hxb⟩ := List.mem_map.mp h
    exact absurd hxb <| of_decide_eq_true <| List.dropWhile_eq_nil_iff.mp he x hx
  have ⟨x, rest, he⟩ := List.exists_cons_of_ne_nil hne
  have hx : x.1 = b := not_not.mp <| of_decide_eq_false <| not_of_dropWhile he
  cases hx
  exact ⟨x.2, rest, he, by rw [←he, List.takeWhile_append_dropWhile]⟩

theorem regionStart_append {include_start : Bool} :
    (regionStart file begin include_start).1 ++ (regionStart file begin include_start).2 = file := by
  match begin with
  | .ptr (some b) =>
    rw [regionStart]
    split
    case isTrue  => exact List.takeWhile_append_dropWhile
    case isFalse => rw [List.append_assoc, List.take_append_drop, List.takeWhile_append_dropWhile]
  | .ptr none     => rfl
  | .undefined    => rfl

theorem regionOf_append :
    (regionOf file begin ending region).before ++
      ((regionOf file begin ending region).lines ++ (regionOf file begin ending region).after) = file := by
  rw [regionOf]
  dsimp only
  rw [List.takeWhile_append_dropWhile, regionStart_append]

theorem regionOf_isTerminator : IsTerminator (regionEnd file ending region.include_end)
    (regionOf file begin ending region).lines (regionOf file begin ending region).after := by
  constructor
  case left  =>
    intro x hx
    exact of_decide_eq_true <|
      List.mem_takeWhile_imp (p := fun x : Nat × CString => some x.1 ≠ regionEnd file ending region.include_end) hx
  case right =>
    intro hne
    have ⟨x, rest, he⟩ := List.exists_cons_of_ne_nil hne
    rw [he]
    exact not_not.mp <| of_decide_eq_false <| not_of_dropWhile he

theorem deletionInitiator_eq (h : Chained list.items list.start file none)
    (hbegin : begin = .undefined ∨ ∃ b ∈ file.map Prod.fst, begin = .item b) :
    deletionInitiator list begin region = .ok (front (regionStart file begin region.include_start).2 none) := by
  obtain rfl | ⟨b, hb, rfl⟩ := hbegin
  case inl   => exact congrArg Except.ok h.front_eq
  case inr =>
    have ⟨y, rest, hdrop, hfile⟩ := span_of_mem hb
    rw [hfile] at h
    have hd := Items.deref_item h
    simp only [deletionInitiator, regionStart, hdrop]
    split
    case isTrue  => rfl
    case isFalse =>
      rw [hd]
      rfl

theorem deletionTerminator_eq (h : Chained list.items list.start file none)
    (hending : ending = .undefined ∨ (ending = .null ∧ ¬region.include_end) ∨ ∃ e ∈ file.map Prod.fst, ending = .item e) :
    deletionTerminator list ending region = .ok (regionEnd file ending region.include_end) := by
  obtain rfl | ⟨rfl, hnot⟩ | ⟨e, he, rfl⟩ := hending
  case inl       => rfl
  case inr.inl => exact if_neg hnot
  case inr.inr =>
    have ⟨y, rest, hdrop, hfile⟩ := span_of_mem he
    rw [hfile] at h
    have hd := Items.deref_item h
    simp only [deletionTerminator, regionEnd, hdrop]
    split
    case isTrue  =>
      rw [hd]
      rfl
    case isFalse => rfl

-- The loop goes through the region.
theorem deletePromisedLinesMatching_eq (rx : TextMatching) (promiser : CString) {a : EditAttributes} {ed : EditContext}
    {r : FileRegion} (h : Chained ed.list.items ed.list.start file none) (hregion : HasRegion file begin ending a.region)
    (hr : r = regionOf file begin ending a.region) :
    deletePromisedLinesMatching rx ed begin ending a promiser =
        deleteLoop rx promiser a (regionEnd file ending a.region.include_end) ed.list.items.fuel ed
          (front (r.lines ++ r.after) none) (front (r.lines ++ r.after) none) false ∧
      Chained ed.list.items ed.list.start (r.before ++ (r.lines ++ r.after)) none ∧
      r.lines.length < ed.list.items.fuel := by
  have hrest : (regionStart file begin a.region.include_start).2 = r.lines ++ r.after := by
    rw [hr]
    exact List.takeWhile_append_dropWhile.symm
  have hfile : r.before ++ (r.lines ++ r.after) = file := hr ▸ regionOf_append
  rw [deletePromisedLinesMatching, deletionInitiator_eq h hregion.left, deletionTerminator_eq h hregion.right]
  simp only [EditOutcome.ok_bind]
  rw [hrest]
  rw [←hfile] at h
  have hle := h.length_le
  simp only [List.length_append] at hle
  refine ⟨rfl, h, ?_⟩
  rw [Items.fuel]
  omega

theorem deletePromisedLinesMatching_deletes (rx : TextMatching) (promiser : CString) {a : EditAttributes}
    {ed : EditContext} (hwarn : ¬a.warn) (h : Chained ed.list.items ed.list.start file none)
    (hregion : HasRegion file begin ending a.region) :
    Deletes rx a promiser ed false (regionOf file begin ending a.region).before (regionOf file begin ending a.region).lines
      (regionOf file begin ending a.region).after <| deletePromisedLinesMatching rx ed begin ending a promiser := by
  have ⟨heq, h', hfuel⟩ := deletePromisedLinesMatching_eq rx promiser h hregion rfl
  rw [heq]
  exact deleteLoop_deletes hwarn h' regionOf_isTerminator (.inl rfl) hfuel

theorem splitOn_of_single {promiser : CString} (hsingle : '\n' ∉ promiser) : promiser.splitOn '\n' = [promiser] := by
  rw [List.splitOn_eq_splitOnP]
  refine List.splitOnP_eq_singleton fun c hc => ?_
  exact beq_eq_false_iff_ne.mpr fun he => hsingle <| he ▸ hc

theorem exists_of_mem_scan {isSelected : CString → Bool} {matched : List (Nat × CString) → Nat} {skip : Nat}
    {x : Nat × CString} {lines : List (Nat × CString)} (hx : x ∈ scan isSelected matched skip lines) :
    x ∈ lines ∧ ∃ xs, ¬(isSelected x.2 ∧ matched (x :: xs) ≠ 0) := by
  induction lines generalizing skip
  case nil             =>
    rw [scan] at hx
    cases hx
  case cons y lines ih =>
    have hrest {skip : Nat} (hx : x ∈ scan isSelected matched skip lines) :=
      And.imp_left (List.mem_cons_of_mem y) <| ih hx
    cases skip
    case succ skip => exact hrest hx
    case zero      =>
      rw [scan] at hx
      split at hx
      case isTrue     => exact hrest hx
      case isFalse hn =>
        cases List.mem_cons.mp hx
        case inl he =>
          rw [he]
          exact ⟨List.mem_cons_self, lines, hn⟩
        case inr hx => exact hrest hx

theorem scan_eq_self {isSelected : CString → Bool} {matched : List (Nat × CString) → Nat} {lines : List (Nat × CString)}
    (h : ∀ x ∈ lines, ∀ xs, ¬(isSelected x.2 ∧ matched (x :: xs) ≠ 0)) : scan isSelected matched 0 lines = lines := by
  induction lines
  case nil             => rfl
  case cons x lines ih =>
    rw [scan, if_neg <| h x List.mem_cons_self lines, ih fun y hy => h y <| List.mem_cons_of_mem x hy]

section
variable {rx : TextMatching} {a : EditAttributes} {promiser : CString} {lines after : List (Nat × CString)}

-- With a single line, what is left of the file is not looked at.
theorem matchedAt_of_single (hsingle : '\n' ∉ promiser) {not_matching : Bool} {x : Nat × CString}
    (xs ys : List (Nat × CString)) :
    matchedAt rx not_matching promiser (x :: xs) = matchedAt rx not_matching promiser (x :: ys) := by
  simp only [matchedAt, chunkLength, splitOn_of_single hsingle, startsWith]

theorem readsLong_of_single (hsingle : '\n' ∉ promiser) :
    ReadsLong rx a promiser lines after ↔ lines ≠ [] ∧ cfBufSize ≤ promiser.length := by
  cases lines
  case nil             => exact iff_of_false (by rintro ⟨_, ⟨⟩, _⟩) fun h => h.left rfl
  case cons x lines =>
    have hreads (xs : List (Nat × CString)) : readsLong (lineMatch rx true) (after ≠ []) (promiser.splitOn '\n') xs →
        cfBufSize ≤ promiser.length := by
      rw [splitOn_of_single hsingle]
      cases xs <;> simp [readsLong]
    constructor
    case mp  =>
      rintro ⟨xs, _, hlong⟩
      exact ⟨by rintro ⟨⟩, hreads xs hlong⟩
    case mpr =>
      rintro ⟨_, hlong⟩
      refine ⟨x :: lines, by simp [visited], ?_⟩
      simp [splitOn_of_single hsingle, readsLong, hlong]

-- Where a single line is to be deleted, no line that is left would be.
theorem scanned_of_subset (hsingle : '\n' ∉ promiser) {lines' : List (Nat × CString)}
    (hsub : lines' ⊆ scanned rx a promiser lines) : scanned rx a promiser lines' = lines' := by
  refine scan_eq_self fun x hx xs => ?_
  have ⟨ys, hys⟩ := (exists_of_mem_scan <| hsub hx).right
  rwa [matchedAt_of_single hsingle xs ys]

theorem not_readsLong_of_subset (hsingle : '\n' ∉ promiser) {lines' : List (Nat × CString)}
    (hsub : lines' ⊆ scanned rx a promiser lines) (h : ¬ReadsLong rx a promiser lines after)
    (after' : List (Nat × CString)) : ¬ReadsLong rx a promiser lines' after' := by
  rw [readsLong_of_single hsingle] at h ⊢
  refine fun ⟨hne, hlong⟩ => h ⟨?_, hlong⟩
  have ⟨x, hx⟩ := List.exists_mem_of_ne_nil _ hne
  exact List.ne_nil_of_mem (exists_of_mem_scan <| hsub hx).left

end

-- The claimed meaning: the region is scanned, and the lines outside of it stay. Where a single line is promised, nothing
-- is deleted from what is left of the region.
def DeletesScanned (rx : TextMatching) (ed : EditContext) (file : List (Nat × CString)) (begin ending : ItemPtr)
    (a : EditAttributes) (promiser : CString) : Prop :=
  let region := regionOf file begin ending a.region
  let lines := scanned rx a promiser region.lines
  let file' := region.before ++ (lines ++ region.after)
  ∃ ed' retval, deletePromisedLinesMatching rx ed begin ending a promiser = .ok (retval, ed') ∧
    (retval ↔ lines ≠ region.lines) ∧ Chained ed'.list.items ed'.list.start file' none ∧
    ('\n' ∉ promiser → ∀ begin' ending', HasRegion file' begin' ending' a.region →
      (regionOf file' begin' ending' a.region).lines ⊆ lines →
      deletePromisedLinesMatching rx ed' begin' ending' a promiser = .ok (false, ed'))

theorem deletesScanned_iff {rx : TextMatching} {a : EditAttributes} {promiser : CString} {ed : EditContext}
    (hwarn : ¬a.warn) (h : Chained ed.list.items ed.list.start file none) (hregion : HasRegion file begin ending a.region) :
    DeletesScanned rx ed file begin ending a promiser ↔
      ¬ReadsLong rx a promiser (regionOf file begin ending a.region).lines (regionOf file begin ending a.region).after := by
  have hdeletes := deletePromisedLinesMatching_deletes rx promiser hwarn h hregion
  rw [DeletesScanned]
  generalize deletePromisedLinesMatching rx ed begin ending a promiser = outcome at hdeletes
  cases hdeletes
  case overflow hlong                          =>
    exact iff_of_false (fun ⟨_, _, he, _⟩ => nomatch he) (not_not.mpr hlong)
  case done ed' retval' hnot h' hretval' _ =>
    refine iff_of_true ⟨ed', retval', rfl, ?_, h', fun hsingle begin' ending' hregion' hsub => ?_⟩ hnot
    case refine_1 => simpa using hretval'
    case refine_2 =>
      have hscanned := scanned_of_subset hsingle hsub
      have hagain := deletePromisedLinesMatching_deletes rx promiser hwarn h' hregion'
      generalize deletePromisedLinesMatching rx ed' begin' ending' a promiser = outcome at hagain ⊢
      cases hagain
      case overflow hlong                      =>
        exact absurd hlong <| not_readsLong_of_subset hsingle hsub hnot _
      case done ed'' retval'' _ _ hretval hsame =>
        have hretval : retval'' = false := by simpa [hscanned] using hretval
        rw [hretval, hsame hscanned]

end

def plainDeletion : EditAttributes :=
  ⟨false, ⟨none, none, false, false⟩, ⟨none, .after, none⟩, none, [], ⟨[], [], [], [], [], []⟩, false, false⟩

def threeLines : EditContext :=
  ⟨⟨[some ⟨['a'], some 1⟩, some ⟨['b'], some 2⟩, some ⟨['a'], none⟩], some 0⟩, 0⟩

theorem threeLines_chained :
    Chained threeLines.list.items threeLines.list.start [(0, ['a']), (1, ['b']), (2, ['a'])] none :=
  ⟨rfl, rfl, rfl, rfl, rfl, rfl, rfl⟩

theorem plainDeletion_warn : ¬plainDeletion.warn :=
  Bool.false_ne_true

theorem deletesScanned_threeLines :
    DeletesScanned literally threeLines [(0, ['a']), (1, ['b']), (2, ['a'])] (.item 0) .undefined plainDeletion ['a'] := by
  have hregion : HasRegion [(0, ['a']), (1, ['b']), (2, ['a'])] (.item 0) .undefined plainDeletion.region :=
    ⟨.inr ⟨0, by decide, rfl⟩, .inl rfl⟩
  refine (deletesScanned_iff plainDeletion_warn threeLines_chained hregion).mpr fun h => ?_
  exact absurd ((readsLong_of_single (by decide)).mp h).right (by decide)

-- The promised line fills the buffer, so that its terminator is written past the end.
theorem not_deletesScanned :
    ¬∀ (rx : TextMatching) (ed : EditContext) (file : List (Nat × CString)) (begin ending : ItemPtr) (a : EditAttributes)
      (promiser : CString), ¬a.warn → Chained ed.list.items ed.list.start file none →
      HasRegion file begin ending a.region → DeletesScanned rx ed file begin ending a promiser := by
  intro h
  let promiser : CString := List.replicate 4096 'a'
  have hregion : HasRegion [(0, ['a']), (1, ['b']), (2, ['a'])] .undefined .undefined plainDeletion.region :=
    ⟨.inl rfl, .inl rfl⟩
  have ⟨_, _, hrun, _⟩ := h literally threeLines _ _ _ plainDeletion promiser plainDeletion_warn threeLines_chained hregion
  have hdeletes := deletePromisedLinesMatching_deletes literally promiser plainDeletion_warn threeLines_chained hregion
  have hsingle : '\n' ∉ promiser := fun hm => absurd (List.eq_of_mem_replicate hm) (by decide)
  rw [hrun] at hdeletes
  cases hdeletes
  case done hnot _ _ _ =>
    refine hnot <| (readsLong_of_single hsingle).mpr ⟨nofun, ?_⟩
    rw [List.length_replicate]
    exact Nat.le_refl _

end CfEngine
