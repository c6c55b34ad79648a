import CfEngine.CfAgent.FilesEditline
import CfEngine.Libpromises.ItemLib.Lists

namespace CfEngine

open Links

variable {rx : TextMatching} {a : EditAttributes} {ed : EditContext} {file : List (Nat × CString)}
  {begin_ptr location prev : ItemPtr} {newline promiser : CString}

-- The attributes of the claim: lines are inserted into the whole file, and looked for as they are.
structure InsertsLines (a : EditAttributes) : Prop where
  wholeFile : ¬a.haveregion
  real      : ¬a.warn
  lines     : ¬a.PreservesBlock
  notFile   : a.sourcetype ≠ some CfEngine.file
  exact     : ∀ opt ∈ a.insert_match, opt = .exact

theorem matchPolicy_of_exact (ha : ∀ opt ∈ a.insert_match, opt = .exact) {camel haystack : CString} :
    matchPolicy rx a.insert_match camel haystack = decide (camel = haystack) := by
  cases h : a.insert_match
  case nil           => rfl
  case cons opt opts =>
    rw [ha opt <| h ▸ List.mem_cons_self]
    rfl

-- What one step of an insertion leaves: the file with more lines.
structure Grows (ed : EditContext) (file : List (Nat × CString)) (ed' : EditContext) (file' : List (Nat × CString)) :
    Prop where
  chained : Chained ed'.list.items ed'.list.start file' none
  sublist : file.Sublist file'

theorem Grows.refl (h : Chained ed.list.items ed.list.start file none) : Grows ed file ed file :=
  ⟨h, List.Sublist.refl _⟩

theorem Grows.trans {ed' ed'' : EditContext} {file' file'' : List (Nat × CString)} (h : Grows ed file ed' file')
    (h' : Grows ed' file' ed'' file'') : Grows ed file ed'' file'' :=
  ⟨h'.chained, h.sublist.trans h'.sublist⟩

-- The file has the line.
def HasLine (file : List (Nat × CString)) (line : CString) : Prop :=
  ∃ n, (n, line) ∈ file

theorem HasLine.mono {file' : List (Nat × CString)} (h : HasLine file newline) (hsub : file.Sublist file') :
    HasLine file' newline :=
  h.imp fun _ hn => hsub.subset hn

theorem insertLine_eq {list : ItemList} {file' : List (Nat × CString)} {n : Nat}
    (h : Chained list.items list.start file' none) (hsub : file.Sublist file') (hn : (n, newline) ∈ file') :
    ∃ inserted ed' file', insertLine ed (.ok list) = .ok (inserted, ed') ∧ Grows ed file ed' file' ∧
      HasLine file' newline :=
  ⟨true, ⟨list, ed.num_edits + 1⟩, file', rfl, ⟨h, hsub⟩, n, hn⟩

-- A line is inserted, or it is there.
theorem insertLineAtLocation_eq (ha : InsertsLines a) (h : Chained ed.list.items ed.list.start file none)
    (hlocation : IsPlace file location) (hprev : IsPlace file prev) :
    ∃ inserted ed' file', insertLineAtLocation rx newline ed location prev a = .ok (inserted, ed') ∧
      Grows ed file ed' file' ∧ HasLine file' newline := by
  have hprepend : ∃ inserted ed' file', insertLine ed (.ok <| ed.list.prependItemList newline) = .ok (inserted, ed') ∧
      Grows ed file ed' file' ∧ HasLine file' newline :=
    insertLine_eq (ItemList.prependItemList_eq h) (List.sublist_cons_self _ file) List.mem_cons_self
  rw [insertLineAtLocation]
  split
  case isTrue  =>
    cases file
    case nil         =>
      have hstart : ed.list.start = none := h
      simpa [hstart, ha.real] using hprepend
    case cons x file =>
      have hstart : ed.list.start = some x.1 := h.front_eq
      have hd : ed.list.items.deref (.item x.1) = .ok ⟨x.2, front file none⟩ := Items.deref_eq h.right.left
      simp only [hstart, hd, EditOutcome.ok_bind, ha.real]
      split
      case isTrue      => exact hprepend
      case isFalse hne => exact ⟨false, ed, x :: file, rfl, Grows.refl h, x.1, by simp [←not_not.mp hne]⟩
  case isFalse =>
    have ⟨found, hthere, hfound⟩ : ∃ found, neighbourIsThere rx newline ed.list location a = .ok found ∧
        (found → ∃ x ∈ file, matchPolicy rx a.insert_match newline x.2) := by
      rw [neighbourIsThere, if_neg fun hs => ha.lines <| .inl hs]
      exact ItemList.neighbourItemMatches_eq h
    simp only [hthere, EditOutcome.ok_bind, ha.real]
    split
    case isTrue hf  =>
      have ⟨x, hx, hm⟩ := hfound hf
      rw [matchPolicy_of_exact ha.exact] at hm
      exact ⟨false, ed, file, rfl, Grows.refl h, x.1, of_decide_eq_true hm ▸ hx⟩
    case isFalse hf =>
      have hplace : IsPlace file (if a.location.before_after = .before then prev else location) := by
        split <;> assumption
      have ⟨list', file', n, hlist, h', hsub, hn⟩ := ItemList.insertAfter_sublist newline h hplace
      simp only [hlist]
      exact insertLine_eq h' hsub hn

theorem advance_eq {list : ItemList} {place : ItemPtr} (h : Chained list.items list.start file none)
    (hplace : IsPlace file place) : ∃ place', advance list place = .ok place' ∧ IsPlace file place' := by
  have hfront (pre xs : List (Nat × CString)) : IsPlace (pre ++ xs) (.ptr <| front xs none) := isPlace_front
  have hstart : IsPlace file (.ptr list.start) := h.front_eq ▸ hfront [] file
  obtain rfl | rfl | ⟨b, hb, rfl⟩ := hplace
  case inl       => exact ⟨_, rfl, hstart⟩
  case inr.inl => exact ⟨_, rfl, hstart⟩
  case inr.inr =>
    have ⟨pre, x, post, hfile⟩ := exists_split hb
    rw [hfile] at h
    refine ⟨.ptr <| front post none, ?_, ?_⟩
    case refine_1 =>
      rw [advance, if_neg (by simp), Items.deref_item h]
      rfl
    case refine_2 =>
      have := hfront (pre ++ [(b, x)]) post
      rwa [List.append_assoc, List.singleton_append, ←hfile] at this

theorem lineIsInRegion_eq (ha : InsertsLines a) (h : Chained ed.list.items ed.list.start file none)
    (hbegin : IsPlace file begin_ptr) (hne : begin_ptr ≠ .undefined) :
    ∃ found, lineIsInRegion rx newline ed.list.items begin_ptr .null a = .ok found ∧ (found → HasLine file newline) := by
  have ⟨pre, xs, hfile, hptr⟩ := hbegin.exists_front hne
  rw [hfile] at h ⊢
  rw [lineIsInRegion, if_neg ha.lines, hptr, Items.isItemInRegion_eq h]
  refine ⟨_, rfl, fun hfound => ?_⟩
  have ⟨x, hx, hm⟩ := List.any_eq_true.mp hfound
  rw [matchPolicy_of_exact ha.exact] at hm
  exact ⟨x.1, of_decide_eq_true hm ▸ List.mem_append_right _ hx⟩

theorem insertLines_eq {lines : List CString} {result : Bool} (ha : InsertsLines a)
    (h : Chained ed.list.items ed.list.start file none) (hbegin : IsPlace file begin_ptr) (hne : begin_ptr ≠ .undefined)
    (hlocation : IsPlace file location) (hprev : IsPlace file prev) :
    ∃ result' ed' file', insertLines rx begin_ptr .null a lines ed location prev result = .ok (result', ed') ∧
      Grows ed file ed' file' ∧ ∀ line ∈ lines, selectLine rx a.line_select line → HasLine file' line := by
  induction lines generalizing ed file location prev result
  case nil             => exact ⟨result, ed, file, rfl, Grows.refl h, nofun⟩
  case cons buf more ih =>
    -- The line need not be inserted where it is not selected or in the region.
    have hskip (hbuf : selectLine rx a.line_select buf → HasLine file buf) :
        ∃ result' ed' file', insertLines rx begin_ptr .null a more ed location prev result = .ok (result', ed') ∧
          Grows ed file ed' file' ∧ ∀ line ∈ buf :: more, selectLine rx a.line_select line → HasLine file' line := by
      have ⟨result', ed', file', hrun, hg, hl⟩ := @ih ed file location prev result h hbegin hlocation hprev
      refine ⟨result', ed', file', hrun, hg, fun line hline hselect => ?_⟩
      cases List.mem_cons.mp hline
      case inl he => exact he ▸ (hbuf <| he ▸ hselect).mono hg.sublist
      case inr hm => exact hl line hm hselect
    rw [insertLines]
    split
    case isTrue hs  => exact hskip fun hselect => absurd hselect hs
    case isFalse hs =>
      have ⟨found, hfound, hline⟩ := @lineIsInRegion_eq rx _ _ _ _ buf ha h hbegin hne
      simp only [hfound, EditOutcome.ok_bind]
      split
      case isTrue hf  => exact hskip fun _ => hline hf
      case isFalse =>
        have ⟨inserted, ed₁, file₁, hins, hg₁, hbuf⟩ := @insertLineAtLocation_eq rx _ _ _ _ _ buf ha h hlocation hprev
        have hblock : blockLocation ed₁.list location prev a = location := if_neg fun hb => ha.lines hb.left
        have ⟨prev₁, hprev₁, hp₁⟩ := advance_eq hg₁.chained <| hprev.mono hg₁.sublist
        have ⟨location₁, hlocation₁, hl₁⟩ := advance_eq hg₁.chained <| hlocation.mono hg₁.sublist
        have ⟨result', ed', file', hrun, hg, hl⟩ := @ih ed₁ file₁ location₁ prev₁ (result || inserted) hg₁.chained
          (hbegin.mono hg₁.sublist) hl₁ hp₁
        simp only [hins, EditOutcome.ok_bind, hblock, hprev₁, hlocation₁]
        refine ⟨result', ed', file', hrun, hg₁.trans hg, fun line hline hselect => ?_⟩
        cases List.mem_cons.mp hline
        case inl he => exact he ▸ hbuf.mono hg.sublist
        case inr hm => exact hl line hm hselect

-- Nothing is inserted where all lines are there.
theorem insertLines_of_hasLine {lines : List CString} {result : Bool} (ha : InsertsLines a)
    (h : Chained ed.list.items ed.list.start file none)
    (hlines : ∀ line ∈ lines, selectLine rx a.line_select line → HasLine file line) :
    insertLines rx (.ptr ed.list.start) .null a lines ed location prev result = .ok (result, ed) := by
  induction lines
  case nil              => rfl
  case cons buf more ih =>
    have ih := ih fun line hline => hlines line <| List.mem_cons_of_mem _ hline
    rw [insertLines, ih]
    split
    case isTrue     => rfl
    case isFalse hs =>
      have ⟨n, hn⟩ := hlines buf List.mem_cons_self <| not_not.mp hs
      have hnil : Chained ed.list.items ed.list.start ([] ++ file) none := h
      have hfound : (file.any fun x => matchPolicy rx a.insert_match buf x.2) = true := by
        refine List.any_eq_true.mpr ⟨(n, buf), hn, ?_⟩
        rw [matchPolicy_of_exact ha.exact]
        exact decide_eq_true rfl
      rw [lineIsInRegion, if_neg ha.lines, h.front_eq, Items.isItemInRegion_eq hnil, hfound]
      rfl

-- The lines of a promiser that fit into the buffer are read as they are.
theorem chunkLines_of_short (hshort : ∀ line ∈ promiser.splitOn '\n', line.length < cfBufSize) :
    chunkLines promiser = promiser.splitOn '\n' := by
  have hline {line : CString} (hl : line.length < cfBufSize) (n : Nat) : cappedLine n line = [line] := by
    cases n
    case zero   => rfl
    case succ n => rw [cappedLine, if_pos hl]
  rw [chunkLines]
  generalize promiser.splitOn '\n' = lines at hshort ⊢
  induction lines
  case nil                => rfl
  case cons line lines ih =>
    rw [List.flatMap_cons, hline (hshort line List.mem_cons_self), ih fun l hl => hshort l <| List.mem_cons_of_mem _ hl]
    rfl

theorem readsLong_of_short {isMatch : CString → CString → Bool} {follows : Bool} {lines : List CString}
    {xs : List (Nat × CString)} (hshort : ∀ line ∈ lines, line.length < cfBufSize) :
    readsLong isMatch follows lines xs = false := by
  induction lines generalizing xs
  case nil            => rfl
  case cons buf more ih =>
    have hbuf := Nat.not_le_of_lt <| hshort buf List.mem_cons_self
    cases xs
    case nil  => simp [readsLong, hbuf]
    case cons => simp [readsLong, hbuf, ih fun line hline => hshort line <| List.mem_cons_of_mem _ hline]

theorem mem_of_startsWith {lines : List CString} {xs : List (Nat × CString)}
    (h : startsWith (lineMatch rx false) lines xs) : ∀ line ∈ lines, HasLine xs line := by
  induction lines generalizing xs
  case nil              => exact nofun
  case cons buf more ih =>
    cases xs
    case nil       => cases h
    case cons x xs =>
      have ⟨hbuf, hmore⟩ := Bool.and_eq_true_iff.mp h
      intro line hline
      cases List.mem_cons.mp hline
      case inl he => exact ⟨x.1, List.mem_cons.mpr <| .inl <| Prod.ext rfl <| he.trans <| of_decide_eq_true hbuf⟩
      case inr hm => exact (ih hmore line hm).mono <| List.sublist_cons_self ..

-- `MatchRegion` looks for the lines from a place on. The first line is read at the end of the file, too.
theorem matchRegion_place {items : Items} {p : Option Nat} {pre xs : List (Nat × CString)}
    (h : Chained items p (pre ++ xs) none) :
    items.matchRegion rx promiser (.ptr <| front xs none) .null false =
      if readsLong (lineMatch rx false) (xs = []) (promiser.splitOn '\n') xs then .error .bufferOverflow
      else .ok <| chunkLength (lineMatch rx false) (promiser.splitOn '\n') xs := by
  cases xs
  case nil       =>
    rw [Items.matchRegion]
    cases he : promiser.splitOn '\n'
    case nil            => exact absurd he <| List.splitOn_ne_nil _ _
    case cons buf lines => simp [Items.matchLines, readsLong, chunkLength, startsWith]
  case cons x xs =>
    have hchained : Chained items p (pre ++ (x :: xs ++ [])) none := by rwa [List.append_nil]
    have hmatch : items.matchRegion rx promiser (.item x.1) .null false = _ :=
      Items.matchRegion_eq hchained (by rintro ⟨⟩) isTerminator_none
    simpa using hmatch

-- All lines of the chunk are there, where it is at the location.
theorem matchRegion_hasLine {items : Items} {p : Option Nat} (h : Chained items p file none)
    (hshort : ∀ line ∈ promiser.splitOn '\n', line.length < cfBufSize) (hlocation : IsPlace file location)
    (hne : location ≠ .undefined) :
    ∃ n, items.matchRegion rx promiser location .null false = .ok n ∧
      (n ≠ 0 → ∀ line ∈ promiser.splitOn '\n', HasLine file line) := by
  have ⟨pre, xs, hfile, hptr⟩ := hlocation.exists_front hne
  rw [hfile] at h
  have hmatch := @matchRegion_place rx promiser _ _ _ _ h
  rw [readsLong_of_short hshort, if_neg Bool.false_ne_true, ←hptr] at hmatch
  refine ⟨_, hmatch, fun hn line hline => ?_⟩
  rw [chunkLength] at hn
  split at hn
  case isFalse    => exact absurd rfl hn
  case isTrue hst => exact (mem_of_startsWith hst line hline).mono <| hfile ▸ List.sublist_append_right ..

-- The lines of the promise that are selected are in the file.
def HasLines (rx : TextMatching) (a : EditAttributes) (promiser : CString) (file : List (Nat × CString)) : Prop :=
  ∀ line ∈ promiser.splitOn '\n', selectLine rx a.line_select line → HasLine file line

theorem insertMultipleLinesAtLocation_eq {source : CString → Option (List CString)} (ha : InsertsLines a)
    (h : Chained ed.list.items ed.list.start file none)
    (hshort : ∀ line ∈ promiser.splitOn '\n', line.length < cfBufSize) (hlocation : IsPlace file location)
    (hne : location ≠ .undefined) (hprev : IsPlace file prev) :
    ∃ result ed' file', insertMultipleLinesAtLocation rx source ed (.ptr ed.list.start) .null location prev a promiser =
      .ok (result, ed') ∧ Grows ed file ed' file' ∧ HasLines rx a promiser file' := by
  have ⟨n, hmatch, hlines⟩ := @matchRegion_hasLine rx _ _ _ _ _ h hshort hlocation hne
  have hnotFile : ¬(a.sourcetype = some CfEngine.file ∨ a.sourcetype = some filePreserveBlock) :=
    not_or.mpr ⟨ha.notFile, fun hs => ha.lines <| .inr hs⟩
  rw [insertMultipleLinesAtLocation, if_neg hnotFile, insertCompoundLineAtLocation, hmatch, EditOutcome.ok_bind]
  split
  case isTrue hn => exact ⟨false, ed, file, rfl, Grows.refl h, fun line hline _ => hlines hn line hline⟩
  case isFalse   =>
    have hstart : IsPlace file (.ptr ed.list.start) := h.front_eq ▸ @isPlace_front [] file
    rw [chunkLines_of_short hshort]
    exact insertLines_eq ha h hstart nofun hlocation hprev

-- Where all lines are there, nothing is done.
theorem insertMultipleLinesAtLocation_of_hasLines {source : CString → Option (List CString)} (ha : InsertsLines a)
    (h : Chained ed.list.items ed.list.start file none)
    (hshort : ∀ line ∈ promiser.splitOn '\n', line.length < cfBufSize) (hlocation : IsPlace file location)
    (hne : location ≠ .undefined) (hlines : HasLines rx a promiser file) :
    insertMultipleLinesAtLocation rx source ed (.ptr ed.list.start) .null location prev a promiser = .ok (false, ed) := by
  have ⟨n, hmatch, _⟩ := @matchRegion_hasLine rx _ _ _ _ _ h hshort hlocation hne
  have hnotFile : ¬(a.sourcetype = some CfEngine.file ∨ a.sourcetype = some filePreserveBlock) :=
    not_or.mpr ⟨ha.notFile, fun hs => ha.lines <| .inr hs⟩
  rw [insertMultipleLinesAtLocation, if_neg hnotFile, insertCompoundLineAtLocation, hmatch, EditOutcome.ok_bind]
  split
  case isTrue  => rfl
  case isFalse =>
    rw [chunkLines_of_short hshort]
    exact insertLines_of_hasLine ha h hlines

-- The place is in the file, and there is an item at it.
def IsPlaceIn (file : List (Nat × CString)) (q : ItemPtr × ItemPtr) : Prop :=
  IsPlace file q.1 ∧ q.1 ≠ .undefined ∧ IsPlace file q.2

theorem endOfRegion_eq {items : Items} {p : Option Nat} {pre xs : List (Nat × CString)} {x : Nat × CString} {fuel : Nat}
    (h : Chained items p (pre ++ x :: xs) none) (hprev : IsPlace (pre ++ x :: xs) prev) (hfuel : xs.length < fuel) :
    ∃ us y prev', endOfRegion items .null fuel (some x.1) prev = .ok (some (.item y.1, prev')) ∧
      pre ++ x :: xs = us ++ [y] ∧ IsPlace (pre ++ x :: xs) prev' := by
  induction fuel generalizing pre xs x prev
  case zero         => cases hfuel
  case succ fuel ih =>
    have hx : IsPlace (pre ++ x :: xs) (.item x.1) := isPlace_front
    rw [endOfRegion, Items.deref_item h, EditOutcome.ok_bind]
    rcases xs with _ | ⟨y, xs⟩
    · exact ⟨pre, x, prev, rfl, rfl, hprev⟩
    · have hrest : pre ++ [x] ++ y :: xs = pre ++ x :: y :: xs := by rw [List.append_assoc]; rfl
      have ⟨us, z, prev', hloop, hlast, hprev'⟩ := @ih (.item x.1) (pre ++ [x]) xs y (hrest ▸ h) (hrest ▸ hx)
        (Nat.lt_of_succ_lt_succ hfuel)
      refine ⟨us, z, prev', ?_, hrest ▸ hlast, hrest ▸ hprev'⟩
      simpa using hloop

theorem placeInRegion_eq {list : ItemList} {x : Nat × CString} (h : Chained list.items list.start (x :: file) none) :
    ∃ q, placeInRegion list (.ptr list.start) .null a = .ok (some q) ∧ IsPlaceIn (x :: file) q := by
  have hstart : list.start = some x.1 := h.front_eq
  rw [placeInRegion, hstart]
  cases a.location.before_after
  case before =>
    refine ⟨(.item x.1, .undefined), ?_, @isPlace_front [] (x :: file), by rintro ⟨⟩, .inl rfl⟩
    simp [Items.fuel, startOfRegion]
  case after  =>
    obtain ⟨us, y, prev', hloop, hlast, hprev'⟩ := @endOfRegion_eq .undefined list.items _ [] file x _ h (.inl rfl)
      (@Items.lt_fuel _ _ [x] file h)
    rw [List.nil_append] at hlast hprev'
    exact ⟨_, hloop, hlast ▸ isPlace_front, by rintro ⟨⟩, hprev'⟩

-- The place that lines are inserted at. It is missing where the line that it is given by is not there.
def insertionPlace (rx : TextMatching) (list : ItemList) (a : EditAttributes) :
    EditOutcome (Option (ItemPtr × ItemPtr)) :=
  match a.location.line_matching with
  | none       => if list.start = none then .ok <| some (.null, .undefined) else placeInRegion list (.ptr list.start) .null a
  | some regex => list.items.selectItemMatching rx (.ptr list.start) (some regex) (.ptr list.start) .null
    a.location.first_last

-- The line that the location is given by is in the file.
def IsLocated (rx : TextMatching) (a : EditAttributes) (file : List (Nat × CString)) : Prop :=
  ∀ regex ∈ a.location.line_matching, ∃ x ∈ file, fullTextMatch rx.full regex x.2

theorem insertInRegion_eq {source : CString → Option (List CString)} :
    insertInRegion rx source ed (.ptr ed.list.start) .null a promiser = (insertionPlace rx ed.list a >>= fun place =>
      match place with
      | none                  => .ok (false, ed)
      | some (location, prev) =>
        insertMultipleLinesAtLocation rx source ed (.ptr ed.list.start) .null location prev a promiser) := by
  rw [insertInRegion, insertionPlace]
  cases a.location.line_matching
  case some => rfl
  case none =>
    dsimp only
    rw [insertMultipleLinesToRegion]
    split
    case isTrue hs => rw [hs]; rfl
    case isFalse   => rfl

theorem insertionPlace_eq {list : ItemList} (h : Chained list.items list.start file none) :
    ∃ place, insertionPlace rx list a = .ok place ∧ (IsLocated rx a file → place.isSome) ∧
      ∀ q ∈ place, IsPlaceIn file q := by
  rw [insertionPlace]
  cases hregex : a.location.line_matching
  case none       =>
    dsimp only
    split
    case isTrue         => exact ⟨_, rfl, fun _ => rfl, fun _ he => Option.some.inj he ▸ ⟨.inr <| .inl rfl, nofun, .inl rfl⟩⟩
    case isFalse hstart =>
      cases file
      case nil         => exact absurd h.front_eq hstart
      case cons x file =>
        have ⟨q, hq, hplace⟩ := @placeInRegion_eq a file list x h
        exact ⟨some q, hq, fun _ => rfl, fun _ he => Option.some.inj he ▸ hplace⟩
  case some regex =>
    have hall : Chained list.items list.start ([] ++ (file ++ [])) none := by rwa [List.append_nil]
    have ⟨selected, hselect, hiff, hplace⟩ := @Items.selectItemMatching_eq _ _ _ _ _ rx regex a.location.first_last hall
    rw [List.append_nil, List.nil_append] at hplace
    rw [List.append_nil, front_nil, ←h.front_eq] at hselect
    refine ⟨selected, hselect, fun hlocated => hiff.mpr <| hlocated regex hregex, fun q hq => ?_⟩
    have ⟨⟨x, hx, _, hq₁⟩, hq₂⟩ := hplace q hq
    rw [IsPlaceIn, hq₁]
    exact ⟨.inr <| .inr ⟨x.1, List.mem_map_of_mem hx, rfl⟩, nofun, hq₂⟩

theorem verifyLineInsertions_eq {source : CString → Option (List CString)} (ha : InsertsLines a)
    (hsane : sanityCheckInsertions a) :
    verifyLineInsertions rx source ed a promiser =
      (insertInRegion rx source ed (.ptr ed.list.start) .null a promiser).map fun inserted =>
        { inserted.2 with num_edits := inserted.2.num_edits + if inserted.1 then 1 else 0 } := by
  rw [verifyLineInsertions, if_neg (by simpa using hsane), insertionRegion, if_neg ha.wholeFile]
  rfl

-- A run inserts the lines that are selected, and another one does not insert any more.
theorem verifyLineInsertions_converges (rx : TextMatching) (source : CString → Option (List CString)) (a : EditAttributes)
    (promiser : CString) (ed : EditContext) (file : List (Nat × CString)) (ha : InsertsLines a)
    (hshort : ∀ line ∈ promiser.splitOn '\n', line.length < cfBufSize)
    (h : Chained ed.list.items ed.list.start file none) :
    ∃ ed' file', verifyLineInsertions rx source ed a promiser = .ok ed' ∧ Chained ed'.list.items ed'.list.start file' none ∧
      file.Sublist file' ∧ (sanityCheckInsertions a → IsLocated rx a file → HasLines rx a promiser file') ∧
      verifyLineInsertions rx source ed' a promiser = .ok ed' := by
  by_cases hsane : sanityCheckInsertions a
  case neg =>
    have hrun : verifyLineInsertions rx source ed a promiser = .ok ed := if_pos hsane
    exact ⟨ed, file, hrun, h, List.Sublist.refl _, fun hs => absurd hs hsane, hrun⟩
  case pos =>
    have ⟨place, hplace, hlocated, hin⟩ := @insertionPlace_eq rx a _ _ h
    simp only [verifyLineInsertions_eq ha hsane, insertInRegion_eq]
    rcases place with _ | ⟨location, prev⟩
    · simp only [hplace, EditOutcome.ok_bind]
      exact ⟨ed, file, rfl, h, List.Sublist.refl _, fun _ hl => (nomatch hlocated hl), by rw [hplace]; rfl⟩
    · have ⟨hlocation, hne, hprev⟩ := hin _ rfl
      have ⟨result, ed', file', hrun, hg, hlines⟩ := @insertMultipleLinesAtLocation_eq rx a ed file location prev promiser
        source ha h hshort hlocation hne hprev
      let ed'' : EditContext := { ed' with num_edits := ed'.num_edits + if result then 1 else 0 }
      have h'' : Chained ed''.list.items ed''.list.start file' none := hg.chained
      refine ⟨ed'', file', ?_, h'', hg.sublist, fun _ _ => hlines, ?_⟩
      case refine_1 =>
        simp only [hplace, EditOutcome.ok_bind, hrun]
        rfl
      case refine_2 =>
        have ⟨place', hplace', _, hin'⟩ := @insertionPlace_eq rx a _ _ h''
        rw [hplace', EditOutcome.ok_bind]
        rcases place' with _ | ⟨location', prev'⟩
        · rfl
        · have ⟨hlocation', hne', _⟩ := hin' _ rfl
          dsimp only
          rw [insertMultipleLinesAtLocation_of_hasLines ha h'' hshort hlocation' hne' hlines]
          rfl

-- Lines are inserted at the end of the file, or after one that is given.
def plainInsertion (line_matching : Option CString) : EditAttributes :=
  ⟨false, ⟨none, none, false, false⟩, ⟨line_matching, .after, none⟩, none, [], ⟨[], [], [], [], [], []⟩, false, false⟩

theorem plainInsertion_insertsLines {line_matching : Option CString} : InsertsLines (plainInsertion line_matching) :=
  ⟨Bool.false_ne_true, Bool.false_ne_true, nofun, nofun, nofun⟩

def twoLines : EditContext :=
  ⟨⟨[some ⟨['a'], some 1⟩, some ⟨['b'], none⟩], some 0⟩, 0⟩

theorem twoLines_chained : Chained twoLines.list.items twoLines.list.start [(0, ['a']), (1, ['b'])] none :=
  ⟨rfl, rfl, rfl, rfl, rfl⟩

theorem verifyLineInsertions_twoLines :
    ∃ ed' file', verifyLineInsertions literally (fun _ => none) twoLines (plainInsertion none) ['b', '\n', 'c'] = .ok ed' ∧
      Chained ed'.list.items ed'.list.start file' none ∧ [(0, ['a']), (1, ['b'])].Sublist file' ∧
      HasLines literally (plainInsertion none) ['b', '\n', 'c'] file' ∧
      verifyLineInsertions literally (fun _ => none) ed' (plainInsertion none) ['b', '\n', 'c'] = .ok ed' :=
  have ⟨ed', file', hrun, h, hsub, hlines, hagain⟩ := verifyLineInsertions_converges literally (fun _ => none)
    (plainInsertion none) ['b', '\n', 'c'] twoLines _ plainInsertion_insertsLines (by decide) twoLines_chained
  ⟨ed', file', hrun, h, hsub, hlines (by decide) nofun, hagain⟩

-- Nothing is inserted where the line that the location is given by is not in the file.
theorem not_verifyLineInsertions_hasLines :
    ¬∀ (rx : TextMatching) (source : CString → Option (List CString)) (a : EditAttributes) (promiser : CString)
      (ed : EditContext) (file : List (Nat × CString)), InsertsLines a →
      (∀ line ∈ promiser.splitOn '\n', line.length < cfBufSize) → Chained ed.list.items ed.list.start file none →
      ∃ ed' file', verifyLineInsertions rx source ed a promiser = .ok ed' ∧
        Chained ed'.list.items ed'.list.start file' none ∧ file.Sublist file' ∧ HasLines rx a promiser file' ∧
        verifyLineInsertions rx source ed' a promiser = .ok ed' := by
  intro h
  have ⟨ed', file', hrun, h', _, hlines, _⟩ := h literally (fun _ => none) (plainInsertion <| some ['z']) ['c'] twoLines _
    plainInsertion_insertsLines (by decide) twoLines_chained
  have hsame : verifyLineInsertions literally (fun _ => none) twoLines (plainInsertion <| some ['z']) ['c'] =
      .ok twoLines := rfl
  cases hrun.symm.trans hsame
  have hfile := twoLines_chained.unique h'
  have ⟨n, hn⟩ := hlines ['c'] (by decide) (by decide)
  simp [←hfile] at hn

end CfEngine
