import CfEngine.Libpromises.ItemLib

namespace CfEngine

structure EditRegion where
  select_start  : Option CString
  select_end    : Option CString
  include_start : Bool
  include_end   : Bool

structure EditLocation where
  line_matching : Option CString
  before_after  : EditOrder
  first_last    : Option CString

-- An empty list is the `NULL` pointer.
structure LineSelect where
  startwith_from_list     : List CString
  not_startwith_from_list : List CString
  match_from_list         : List CString
  not_match_from_list     : List CString
  contains_from_list      : List CString
  not_contains_from_list  : List CString

structure EditAttributes where
  haveregion   : Bool
  region       : EditRegion
  location     : EditLocation
  sourcetype   : Option CString
  insert_match : List InsertMatchType
  line_select  : LineSelect
  not_matching : Bool
  warn         : Bool

structure EditContext where
  list      : ItemList
  num_edits : Nat

-- The function uses the first of the lists that is there.
def selectLine (rx : TextMatching) (a : LineSelect) (line : CString) : Bool :=
  if a.startwith_from_list ≠ [] then
    a.startwith_from_list.any fun selector => selector.isPrefixOf line
  else if a.not_startwith_from_list ≠ [] then
    !a.not_startwith_from_list.any fun selector => selector.isPrefixOf line
  else if a.match_from_list ≠ [] then
    a.match_from_list.any fun selector => fullTextMatch rx.full selector line
  else if a.not_match_from_list ≠ [] then
    !a.not_match_from_list.any fun selector => fullTextMatch rx.full selector line
  else if a.contains_from_list ≠ [] then
    a.contains_from_list.any fun selector => rx.block selector line
  else if a.not_contains_from_list ≠ [] then
    !a.not_contains_from_list.any fun selector => rx.block selector line
  else
    true

-- What is found of a region is kept in `beg` and `ending`. The outcome is `none` where the region would be empty.
def selectRegionLoop (rx : TextMatching) (items : Items) (region : EditRegion) :
    Nat → (ip : Option Nat) → (beg ending : ItemPtr) → EditOutcome (Option (ItemPtr × ItemPtr))
  | 0, _, _, _                       => .error .endless
  | _ + 1, none, beg, ending         => .ok <| some (beg, ending)
  | fuel + 1, some ip, beg, ending => do
    let item ← items.deref (.item ip)
    if beg = .undefined ∧ region.select_start.any (fullTextMatch rx.full · item.payload) then
      if ¬region.include_start ∧ item.next = none then
        .ok none
      else
        selectRegionLoop rx items region fuel item.next (.item ip) ending
    else if beg ≠ .undefined ∧ ending = .undefined ∧ region.select_end.any (fullTextMatch rx.full · item.payload) then
      .ok <| some (beg, .item ip)
    else if beg ≠ .undefined ∧ ending ≠ .undefined then
      .ok <| some (beg, ending)
    else
      selectRegionLoop rx items region fuel item.next beg ending

def selectRegion (rx : TextMatching) (list : ItemList) (region : EditRegion) :
    EditOutcome (Option (ItemPtr × ItemPtr)) := do
  match ← selectRegionLoop rx list.items region list.items.fuel list.start .undefined .undefined with
  | none               => .ok none
  | some (beg, ending) =>
    if beg = .undefined ∧ region.select_start.isSome then
      .ok none
    else
      .ok <| some (beg, if ending = .undefined then .null else ending)

-- The walk to the item before `ip`.
def beforeLoop (items : Items) (ip : Nat) : Nat → (lp : ItemPtr) → EditOutcome Nat
  | _, .undefined          => .error .badPointer
  | _, .ptr none           => .error .badPointer
  | 0, .ptr (some _)       => .error .endless
  | fuel + 1, .ptr (some lp) => do
    let item ← items.deref (.item lp)
    if item.next = some ip then .ok lp else beforeLoop items ip fuel (.ptr item.next)

-- The item is freed and taken out of the list, where `initiator` is the item that the walk starts from. The outcome has
-- the new `initiator` and the item after the one that is freed.
def deleteItem (ed : EditContext) (initiator : Option Nat) (ip : ItemPtr) :
    EditOutcome (EditContext × Option Nat × Option Nat) := do
  let item ← ed.list.items.deref ip
  match ip with
  | .ptr (some a) =>
    let np := item.next
    let items : Items := ed.list.items.put a none
    if ed.list.start = some a then
      let initiator := if initiator = ed.list.start then np else initiator
      return (⟨⟨items, np⟩, ed.num_edits + 1⟩, initiator, np)
    else
      let initiator := if initiator = some a then ed.list.start else initiator
      let lp ← beforeLoop items a items.fuel (.ptr initiator)
      let items ← items.setNext lp np
      return (⟨⟨items, ed.list.start⟩, ed.num_edits + 1⟩, initiator, np)
  | _             => .error .badPointer

def deleteChunk : Nat → EditContext → (initiator ip : Option Nat) → EditOutcome (EditContext × Option Nat × Option Nat)
  | 0, ed, initiator, ip           => .ok (ed, initiator, ip)
  | matched + 1, ed, initiator, ip => do
    let (ed, initiator, np) ← deleteItem ed initiator (.ptr ip)
    deleteChunk matched ed initiator np

-- How many lines are matched, by what `MatchRegion` returns.
def matchedLines (not_matching : Bool) (lines : Nat) : Nat :=
  if not_matching then (if lines = 0 then 1 else 0) else lines

def deleteLoop (rx : TextMatching) (promiser : CString) (a : EditAttributes) (terminator : Option Nat) :
    Nat → EditContext → (initiator ip : Option Nat) → (retval : Bool) → EditOutcome (Bool × EditContext)
  | 0, _, _, _, _                     => .error .endless
  | fuel + 1, ed, initiator, ip, retval =>
    if ip = terminator ∨ ip = none then
      .ok (retval, ed)
    else do
      let lines ← ed.list.items.matchRegion rx promiser (.ptr ip) (.ptr terminator) true
      let matched := matchedLines a.not_matching lines
      let item ← ed.list.items.deref (.ptr ip)
      if ¬selectLine rx a.line_select item.payload then
        deleteLoop rx promiser a terminator fuel ed initiator item.next retval
      else if matched ≠ 0 ∧ ¬a.warn then do
        let (ed, initiator, np) ← deleteChunk matched ed initiator ip
        deleteLoop rx promiser a terminator fuel ed initiator np true
      else
        deleteLoop rx promiser a terminator fuel ed initiator item.next retval

-- The items that the region starts and ends with, where the one that it ends with is not part of it.
def deletionInitiator (list : ItemList) (begin : ItemPtr) (region : EditRegion) : EditOutcome (Option Nat) :=
  match begin with
  | .undefined => .ok list.start
  | .ptr p     => if region.include_start then .ok p else (list.items.deref begin).map Link.next

def deletionTerminator (list : ItemList) (ending : ItemPtr) (region : EditRegion) : EditOutcome (Option Nat) :=
  match ending with
  | .undefined => .ok none
  | .ptr p     => if region.include_end then (list.items.deref ending).map Link.next else .ok p

def deletePromisedLinesMatching (rx : TextMatching) (ed : EditContext) (begin ending : ItemPtr) (a : EditAttributes)
    (promiser : CString) : EditOutcome (Bool × EditContext) := do
  let initiator ← deletionInitiator ed.list begin a.region
  let terminator ← deletionTerminator ed.list ending a.region
  deleteLoop rx promiser a terminator ed.list.items.fuel ed initiator initiator false

-- What is made of an item where items are edited one after the other: a new line, if any, and a new value to be returned.
-- The edit may stop there.
structure LineEdit where
  line   : Option CString
  retval : Option Bool
  edits  : Nat
  stop   : Bool

def LineEdit.keep : LineEdit :=
  ⟨none, none, 0, false⟩

def editItem (ed : EditContext) (a : Nat) (item : Link CString) (edit : LineEdit) : EditContext :=
  match edit.line with
  | none      => { ed with num_edits := ed.num_edits + edit.edits }
  | some name => ⟨⟨ed.list.items.put a <| some { item with payload := name }, ed.list.start⟩, ed.num_edits + edit.edits⟩

-- The items from `ip` on are edited.
def editLoop (edit : Nat → CString → LineEdit) (isEnd : ItemPtr → Bool) :
    Nat → EditContext → (ip : ItemPtr) → (retval : Bool) → EditOutcome (Bool × EditContext)
  | 0, _, _, _              => .error .endless
  | fuel + 1, ed, ip, retval =>
    if isEnd ip then
      .ok (retval, ed)
    else do
      let item ← ed.list.items.deref ip
      match ip with
      | .ptr (some a) =>
        let edited := edit a item.payload
        let ed := editItem ed a item edited
        let retval := edited.retval.getD retval
        if edited.stop then .ok (retval, ed) else editLoop edit isEnd fuel ed (.ptr item.next) retval
      | _             => .error .badPointer

-- What is made of a line by replacing is an argument. It may depend on what has been done before, thus on the item.
def replacePatterns (patternEdit : Nat → CString → LineEdit) (ed : EditContext) (file_start file_end : ItemPtr) :
    EditOutcome (Bool × EditContext) :=
  editLoop patternEdit (fun ip => ip = .null ∨ ip = file_end) ed.list.items.fuel ed file_start false

-- So is what is made of a line by an edit of its fields. Here the loop does not look for NULL.
def editColumns (rx : TextMatching) (columnEdit : Nat → CString → LineEdit) (ed : EditContext)
    (file_start file_end : ItemPtr) (promiser : CString) : EditOutcome (Bool × EditContext) :=
  if ¬rx.valid promiser then
    .ok (false, ed)
  else
    editLoop (fun a line => if fullTextMatch rx.full promiser line then columnEdit a line else .keep)
      (fun ip => ip = file_end) ed.list.items.fuel ed file_start false

def file : CString :=
  ['f', 'i', 'l', 'e']

def preserveBlock : CString :=
  ['p', 'r', 'e', 's', 'e', 'r', 'v', 'e', '_', 'b', 'l', 'o', 'c', 'k']

def filePreserveBlock : CString :=
  file ++ '_' :: preserveBlock

def sanityCheckInsertions (a : EditAttributes) : Bool :=
  let with_ := [a.line_select.startwith_from_list, a.line_select.match_from_list, a.line_select.contains_from_list]
  let not_ := [a.line_select.not_startwith_from_list, a.line_select.not_match_from_list,
    a.line_select.not_contains_from_list]
  let withs := with_.countP (· ≠ [])
  let nots := not_.countP (· ≠ [])
  let exact := .exact ∈ a.insert_match
  let ignore_something := ∃ opt ∈ a.insert_match, opt ≠ .exact
  nots ≤ 1 ∧ ¬(withs ≠ 0 ∧ nots ≠ 0) ∧ ¬(ignore_something ∧ a.sourcetype = some preserveBlock) ∧
    ¬(exact ∧ ignore_something)

def insertLine (ed : EditContext) (list : EditOutcome ItemList) : EditOutcome (Bool × EditContext) := do
  return (true, ⟨← list, ed.num_edits + 1⟩)

-- The neighbour is not looked at where blocks are preserved.
def neighbourIsThere (rx : TextMatching) (newline : CString) (list : ItemList) (location : ItemPtr)
    (a : EditAttributes) : EditOutcome Bool :=
  if a.sourcetype = some preserveBlock then
    .ok false
  else
    list.neighbourItemMatches rx location newline a.location.before_after a.insert_match

def insertLineAtLocation (rx : TextMatching) (newline : CString) (ed : EditContext) (location prev : ItemPtr)
    (a : EditAttributes) : EditOutcome (Bool × EditContext) :=
  if prev = .undefined ∧ a.location.before_after = .before then
    match ed.list.start with
    | none       => if a.warn then .ok (true, ed) else insertLine ed <| .ok <| ed.list.prependItemList newline
    | some start => do
      let item ← ed.list.items.deref (.item start)
      if item.payload ≠ newline then
        if a.warn then .ok (true, ed) else insertLine ed <| .ok <| ed.list.prependItemList newline
      else
        .ok (false, ed)
  else do
    if ← neighbourIsThere rx newline ed.list location a then
      .ok (false, ed)
    else if a.warn then
      .ok (true, ed)
    else
      insertLine ed <| ed.list.insertAfter (if a.location.before_after = .before then prev else location) newline

-- The pieces of a line that fit into the buffer. The character after each of them is skipped as if it ended the line.
def cappedLine : Nat → CString → List CString
  | 0, line     => [line]
  | n + 1, line =>
    if line.length < cfBufSize then [line] else line.take (cfBufSize - 1) :: cappedLine n (line.drop cfBufSize)

def chunkLines (chunk : CString) : List CString :=
  (chunk.splitOn '\n').flatMap fun line => cappedLine line.length line

-- The next item, or the first one where there is none.
def advance (list : ItemList) (p : ItemPtr) : EditOutcome ItemPtr :=
  if p = .null ∨ p = .undefined then
    .ok <| .ptr list.start
  else do
    let item ← list.items.deref p
    return .ptr item.next

def EditAttributes.PreservesBlock (a : EditAttributes) : Prop :=
  a.sourcetype = some preserveBlock ∨ a.sourcetype = some filePreserveBlock

instance (a : EditAttributes) : Decidable a.PreservesBlock :=
  inferInstanceAs <| Decidable (_ ∨ _)

-- The region is not looked at where blocks are preserved.
def lineIsInRegion (rx : TextMatching) (buf : CString) (items : Items) (begin_ptr end_ptr : ItemPtr)
    (a : EditAttributes) : EditOutcome Bool :=
  if a.PreservesBlock then .ok false else items.isItemInRegion rx buf begin_ptr end_ptr a.insert_match

-- Where a block is inserted at the start of an empty file, the location becomes the first line.
def blockLocation (list : ItemList) (location prev : ItemPtr) (a : EditAttributes) : ItemPtr :=
  if a.PreservesBlock ∧ a.location.before_after = .before ∧ location = .null ∧ prev = .undefined then
    .ptr list.start
  else
    location

def insertLines (rx : TextMatching) (begin_ptr end_ptr : ItemPtr) (a : EditAttributes) :
    List CString → EditContext → (location prev : ItemPtr) → (result : Bool) → EditOutcome (Bool × EditContext)
  | [], ed, _, _, result                 => .ok (result, ed)
  | buf :: more, ed, location, prev, result =>
    if ¬selectLine rx a.line_select buf then
      insertLines rx begin_ptr end_ptr a more ed location prev result
    else do
      if ← lineIsInRegion rx buf ed.list.items begin_ptr end_ptr a then
        insertLines rx begin_ptr end_ptr a more ed location prev result
      else
        let (inserted, ed) ← insertLineAtLocation rx buf ed location prev a
        let location := blockLocation ed.list location prev a
        let prev ← advance ed.list prev
        let location ← advance ed.list location
        insertLines rx begin_ptr end_ptr a more ed location prev (result || inserted)

def insertCompoundLineAtLocation (rx : TextMatching) (chunk : CString) (ed : EditContext)
    (begin_ptr end_ptr location prev : ItemPtr) (a : EditAttributes) : EditOutcome (Bool × EditContext) := do
  if (← ed.list.items.matchRegion rx chunk location .null false) ≠ 0 then
    .ok (false, ed)
  else
    insertLines rx begin_ptr end_ptr a (chunkLines chunk) ed location prev false

-- Where the pointer `loc` is NULL, it is `location` that is set.
def advanceFile (list : ItemList) (loc : ItemPtr) : EditOutcome ItemPtr :=
  if loc = .null then .ok loc else advance list loc

-- The loop over the lines of a file, as they are read and expanded.
def insertFileLines (rx : TextMatching) (begin_ptr end_ptr : ItemPtr) (a : EditAttributes) :
    List CString → EditContext → (loc prev : ItemPtr) → (retval : Bool) → EditOutcome (Bool × EditContext)
  | [], ed, _, _, retval               => .ok (retval, ed)
  | exp :: more, ed, loc, prev, retval =>
    if ¬selectLine rx a.line_select exp then
      insertFileLines rx begin_ptr end_ptr a more ed loc prev retval
    else do
      if ← lineIsInRegion rx exp ed.list.items begin_ptr end_ptr a then
        insertFileLines rx begin_ptr end_ptr a more ed loc prev retval
      else
        let (inserted, ed) ← insertCompoundLineAtLocation rx exp ed begin_ptr end_ptr loc prev a
        let prev ← advance ed.list prev
        let loc ← advanceFile ed.list loc
        insertFileLines rx begin_ptr end_ptr a more ed loc prev (retval || inserted)

-- The argument `source` stands for the files that lines are taken from.
def insertMultipleLinesAtLocation (rx : TextMatching) (source : CString → Option (List CString)) (ed : EditContext)
    (begin_ptr end_ptr location prev : ItemPtr) (a : EditAttributes) (promiser : CString) :
    EditOutcome (Bool × EditContext) :=
  if a.sourcetype = some file ∨ a.sourcetype = some filePreserveBlock then
    match source promiser with
    | none       => .ok (false, ed)
    | some lines => insertFileLines rx begin_ptr end_ptr a lines ed location prev false
  else
    insertCompoundLineAtLocation rx promiser ed begin_ptr end_ptr location prev a

-- The loops find the place to insert at and the item before it.
def startOfRegion (items : Items) (begin_ptr : ItemPtr) :
    Nat → (ip : Option Nat) → (prev : ItemPtr) → EditOutcome (Option (ItemPtr × ItemPtr))
  | 0, _, _                 => .error .endless
  | _ + 1, none, _          => .ok none
  | fuel + 1, some ip, prev =>
    if .item ip = begin_ptr then
      .ok <| some (.item ip, prev)
    else do
      let item ← items.deref (.item ip)
      startOfRegion items begin_ptr fuel item.next (.item ip)

def endOfRegion (items : Items) (end_ptr : ItemPtr) :
    Nat → (ip : Option Nat) → (prev : ItemPtr) → EditOutcome (Option (ItemPtr × ItemPtr))
  | 0, _, _                 => .error .endless
  | _ + 1, none, _          => .ok none
  | fuel + 1, some ip, prev => do
    let item ← items.deref (.item ip)
    if (item.next ≠ none ∧ .ptr item.next = end_ptr) ∨ item.next = none then
      .ok <| some (.item ip, prev)
    else
      endOfRegion items end_ptr fuel item.next (.item ip)

def placeInRegion (list : ItemList) (begin_ptr end_ptr : ItemPtr) (a : EditAttributes) :
    EditOutcome (Option (ItemPtr × ItemPtr)) :=
  match a.location.before_after with
  | .before => startOfRegion list.items begin_ptr list.items.fuel list.start .undefined
  | .after  => endOfRegion list.items end_ptr list.items.fuel list.start .undefined

def insertMultipleLinesToRegion (rx : TextMatching) (source : CString → Option (List CString)) (ed : EditContext)
    (begin_ptr end_ptr : ItemPtr) (a : EditAttributes) (promiser : CString) : EditOutcome (Bool × EditContext) :=
  if ed.list.start = none then
    insertMultipleLinesAtLocation rx source ed begin_ptr end_ptr .null .undefined a promiser
  else do
    match ← placeInRegion ed.list begin_ptr end_ptr a with
    | none                  => .ok (false, ed)
    | some (location, prev) => insertMultipleLinesAtLocation rx source ed begin_ptr end_ptr location prev a promiser

-- The region that is selected, or the whole file.
def insertionRegion (rx : TextMatching) (ed : EditContext) (a : EditAttributes) :
    EditOutcome (Option (ItemPtr × ItemPtr)) :=
  if a.haveregion then selectRegion rx ed.list a.region else .ok <| some (.ptr ed.list.start, .null)

def insertInRegion (rx : TextMatching) (source : CString → Option (List CString)) (ed : EditContext)
    (begin_ptr end_ptr : ItemPtr) (a : EditAttributes) (promiser : CString) : EditOutcome (Bool × EditContext) :=
  match a.location.line_matching with
  | none       => insertMultipleLinesToRegion rx source ed begin_ptr end_ptr a promiser
  | some regex => do
    match ← ed.list.items.selectItemMatching rx (.ptr ed.list.start) (some regex) begin_ptr end_ptr
      a.location.first_last with
    | none                  => .ok (false, ed)
    | some (location, prev) => insertMultipleLinesAtLocation rx source ed begin_ptr end_ptr location prev a promiser

def verifyLineInsertions (rx : TextMatching) (source : CString → Option (List CString)) (ed : EditContext)
    (a : EditAttributes) (promiser : CString) : EditOutcome EditContext :=
  if ¬sanityCheckInsertions a then
    .ok ed
  else do
    match ← insertionRegion rx ed a with
    | none                      => .ok ed
    | some (begin_ptr, end_ptr) =>
      let (inserted, ed) ← insertInRegion rx source ed begin_ptr end_ptr a promiser
      return { ed with num_edits := ed.num_edits + if inserted then 1 else 0 }

end CfEngine
