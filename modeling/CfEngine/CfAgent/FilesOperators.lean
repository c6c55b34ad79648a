import CfEngine.Library.Fields
import CfEngine.Libutils.Strings
import CfEngine.Libpromises.FilesLib

namespace CfEngine

-- The loop that writes the items, up to the first that cannot be written.
def printItems (printed : CString → Bool) : List CString → Bool × Buffer
  | []         => (true, [])
  | ip :: rest =>
    if printed ip then
      let (ok, text) := printItems printed rest
      (ok, ip ++ '\n' :: text)
    else
      (false, [])

-- What is in the destination afterwards, if it could be opened. The file may not be closed, and an item
-- may not be written.
def saveItemListCallback (opened closed : Bool) (printed : CString → Bool) (liststart : List CString) :
    Bool × Option Buffer :=
  if opened then
    let (ok, text) := printItems printed liststart
    (ok && closed, some text)
  else
    (false, none)

open Lines (unlines)

theorem printItems_of_printed {printed : CString → Bool} {items : List CString}
    (h : (printItems printed items).1) : (printItems printed items).2 = unlines items := by
  induction items
  case nil           => rfl
  case cons ip rest ih =>
    rw [printItems] at h ⊢
    split at h
    case isTrue hp  => simp [hp, ih h]
    case isFalse => exact absurd h Bool.false_ne_true

-- Where the callback does not fail, every item has become a line.
theorem saveItemListCallback_of_true {opened closed : Bool} {printed : CString → Bool}
    {items : List CString} (h : (saveItemListCallback opened closed printed items).1) :
    (saveItemListCallback opened closed printed items).2 = some (unlines items) := by
  rw [saveItemListCallback] at h ⊢
  cases opened
  case false => exact absurd h Bool.false_ne_true
  case true  =>
    simp only [if_true, Bool.and_eq_true] at h
    exact congrArg some <| printItems_of_printed h.1

theorem printItems_always {items : List CString} : (printItems (fun _ => true) items).1 := by
  induction items
  case nil        => rfl
  case cons _ _ ih => simpa [printItems] using ih

-- A file with a newline at its end, unless it is empty.
def withFinalNewline (content : Buffer) : Buffer :=
  if content = [] ∨ content.getLast? = some '\n' then content else content ++ ['\n']

-- The pairs of a backslash and a newline are removed.
def removeJoins : Buffer → Buffer
  | []                    => []
  | '\\' :: '\n' :: content => removeJoins content
  | c :: content          => c :: removeJoins content

-- The text that is edited where a file is.
def editedText (joinlines : Bool) (content : Buffer) : Buffer :=
  if joinlines then removeJoins (withFinalNewline content) else withFinalNewline content

def NoEmptyLine (content : Buffer) : Prop :=
  ¬['\n', '\n'] <:+: '\n' :: content

-- A text of lines that fit into a buffer, each of them with its newline.
def ShortLines (text : Buffer) : Prop :=
  ∃ lines, text = unlines lines ∧ ∀ line ∈ lines, '\n' ∉ line ∧ line.length < cfBufSize

section

variable {line rest content : Buffer} {joinlines : Bool}

theorem removeJoins_cons {c : Char} (h : ¬(c = '\\' ∧ rest.head? = some '\n')) :
    removeJoins (c :: rest) = c :: removeJoins rest := by
  refine removeJoins.eq_3 _ _ fun content hc hrest => h ⟨hc, ?_⟩
  rw [hrest]
  rfl

theorem removeJoins_line (h : '\n' ∉ line) :
    removeJoins (line ++ '\n' :: rest) =
      if line.getLast? = some '\\' then line.dropLast ++ removeJoins rest
      else line ++ '\n' :: removeJoins rest := by
  induction line
  case nil => exact removeJoins_cons (by simp)
  case cons c line ih =>
    rw [List.mem_cons, not_or] at h
    rcases line with _ | ⟨d, line⟩
    · by_cases hc : c = '\\'
      · subst hc
        rfl
      · rw [if_neg (by simpa using hc), List.cons_append, removeJoins_cons fun h => hc h.1,
          List.nil_append, removeJoins_cons (by simp)]
        rfl
    · have hd : ¬(c = '\\' ∧ (d :: line ++ '\n' :: rest).head? = some '\n') := by
        rintro ⟨-, hd⟩
        exact h.2 <| List.mem_cons.mpr <| .inl (Option.some.inj hd).symm
      rw [List.cons_append, removeJoins_cons hd, ih h.2, List.getLast?_cons_cons,
        List.dropLast_cons_cons]
      split <;> rfl

theorem withFinalNewline_line : withFinalNewline (line ++ '\n' :: rest) =
    line ++ '\n' :: withFinalNewline rest := by
  rcases rest with _ | ⟨c, rest⟩
  · simp [withFinalNewline]
  · have hlast : (line ++ '\n' :: c :: rest).getLast? = (c :: rest).getLast? := by
      rw [List.getLast?_append_cons, List.getLast?_cons_cons]
    rw [withFinalNewline, withFinalNewline, hlast]
    simp only [List.append_eq_nil_iff, reduceCtorEq, and_false, false_or]
    split <;> simp

theorem withFinalNewline_last (hne : line ≠ []) (h : '\n' ∉ line) :
    withFinalNewline line = line ++ ['\n'] := by
  rw [withFinalNewline, if_neg]
  rintro (he | hl)
  · exact hne he
  · exact h <| List.mem_of_getLast? hl

theorem editedText_line (h : '\n' ∉ line) :
    editedText joinlines (line ++ '\n' :: rest) =
      if joinlines ∧ line.getLast? = some '\\' then line.dropLast ++ editedText joinlines rest
      else line ++ '\n' :: editedText joinlines rest := by
  cases joinlines <;> simp [editedText, withFinalNewline_line, removeJoins_line h]

theorem editedText_nil : editedText joinlines [] = [] := by
  cases joinlines <;> rfl

theorem editedText_last (hne : line ≠ []) (h : '\n' ∉ line) :
    editedText joinlines line =
      if joinlines ∧ line.getLast? = some '\\' then line.dropLast else line ++ ['\n'] := by
  have := @editedText_line line [] joinlines h
  rw [editedText_nil, List.append_nil] at this
  rw [← this, editedText, editedText, withFinalNewline_last hne h, withFinalNewline_line]
  rfl

theorem newlines_infix_append_iff (h : '\n' ∉ line) :
    ['\n', '\n'] <:+: line ++ rest ↔ ['\n', '\n'] <:+: rest := by
  induction line
  case nil => rfl
  case cons c line ih =>
    rw [List.mem_cons, not_or] at h
    rw [List.cons_append, List.infix_cons_iff, ih h.2, or_iff_right]
    exact fun hp => h.1 (List.cons_prefix_cons.mp hp).1

theorem noEmptyLine_line_iff (h : '\n' ∉ line) :
    NoEmptyLine (line ++ '\n' :: rest) ↔ line ≠ [] ∧ NoEmptyLine rest := by
  rw [NoEmptyLine, List.infix_cons_iff, newlines_infix_append_iff h, not_or, NoEmptyLine]
  refine and_congr_left fun _ => not_congr ?_
  rcases line with _ | ⟨c, line⟩
  · simp
  · rw [List.mem_cons, not_or] at h
    simp [h.1]

theorem noEmptyLine_last (h : '\n' ∉ line) : NoEmptyLine line := by
  have := @newlines_infix_append_iff line [] h
  rw [NoEmptyLine, List.infix_cons_iff, ← List.append_nil line, this]
  rintro (hp | hp)
  · rw [List.cons_prefix_cons, List.append_nil] at hp
    exact h <| hp.2.subset <| List.mem_singleton_self _
  · exact absurd hp (by simp)

theorem shortLines_line_iff (h : '\n' ∉ line) :
    ShortLines (line ++ '\n' :: rest) ↔ line.length < cfBufSize ∧ ShortLines rest := by
  constructor
  case mp =>
    rintro ⟨_ | ⟨line', lines⟩, ht, hlines⟩
    · simp at ht
    · rw [List.forall_mem_cons] at hlines
      rw [Lines.unlines_cons] at ht
      obtain ⟨rfl, rfl⟩ := Lines.append_newline_inj h hlines.1.1 ht
      exact ⟨hlines.1.2, lines, rfl, hlines.2⟩
  case mpr =>
    rintro ⟨hl, lines, rfl, hlines⟩
    exact ⟨line :: lines, Lines.unlines_cons.symm, List.forall_mem_cons.mpr ⟨⟨h, hl⟩, hlines⟩⟩

theorem shortLines_last_iff (h : '\n' ∉ line) : ShortLines line ↔ line = [] := by
  constructor
  case mp =>
    rintro ⟨_ | ⟨line', lines⟩, ht, -⟩
    · exact ht
    · exact absurd (ht ▸ by simp) h
  case mpr =>
    rintro rfl
    exact ⟨[], rfl, nofun⟩

-- Where lines are joined and none of them is empty, the text does not go on with a newline.
theorem editedText_head? (h : NoEmptyLine content) :
    (editedText true content).head? ≠ some '\n' := by
  induction content using Lines.line_induction
  case nil => exact nofun
  case last line hne hnl =>
    rw [editedText_last hne hnl]
    split
    · exact fun hh => hnl <| List.dropLast_subset _ <| List.mem_of_head? hh
    · rw [List.head?_append_of_ne_nil _ hne]
      exact fun hh => hnl <| List.mem_of_head? hh
  case line line rest hnl ih =>
    obtain ⟨hne, hrest⟩ := (noEmptyLine_line_iff hnl).mp h
    rw [editedText_line hnl]
    split
    · by_cases hd : line.dropLast = []
      · rw [hd]
        exact ih hrest
      · rw [List.head?_append_of_ne_nil _ hd]
        exact fun hh => hnl <| List.dropLast_subset _ <| List.mem_of_head? hh
    · rw [List.head?_append_of_ne_nil _ hne]
      exact fun hh => hnl <| List.mem_of_head? hh

-- The text before a newline fits into a buffer, so that what goes on with another character leaves
-- room for it.
theorem ShortLines.length_lt {text : Buffer} (h : ShortLines (line ++ text)) (hl : '\n' ∉ line)
    (hne : line ≠ []) : line.length < cfBufSize ∧
      (text.head? ≠ some '\n' → line.length + 1 < cfBufSize) := by
  by_cases ht : '\n' ∈ text
  case neg =>
    have := (shortLines_last_iff <| by simp [hl, ht]).mp h
    exact absurd (List.append_eq_nil_iff.mp this).1 hne
  case pos =>
    obtain ⟨pre, post, rfl, hpre⟩ := List.eq_append_cons_of_mem ht
    rw [← List.append_assoc, shortLines_line_iff (by simp [hl, hpre]), List.length_append] at h
    refine ⟨by omega, fun hh => ?_⟩
    rcases pre with _ | ⟨c, pre⟩
    · exact absurd rfl hh
    · have := h.1
      rw [List.length_cons] at this
      omega

end

section

variable {joinlines : Bool} {fuel : Nat} {items : List CString} {concat line : CString}
  {rest content : Buffer} {fp : Stream}

theorem strlcat_eq_append {dst src : CString} (h : dst.length + src.length < cfBufSize) :
    strlcat dst src cfBufSize = dst ++ src := by
  rw [strlcat, List.take_of_length_le]
  omega

theorem loadLines_nil (hf : fp.rest = []) :
    loadLines joinlines fuel items concat fp = .loaded items := by
  cases fuel
  case zero => rfl
  case succ =>
    rw [loadLines, Stream.cfReadLine_nil (by decide) hf]
    rfl

-- What the loop does with a line that the buffer holds.
theorem loadLines_of_readLine {n : Nat} {fp' : Stream} (hn : n ≠ 0)
    (hr : fp.cfReadLine [] cfBufSize = (n, line, fp')) :
    loadLines joinlines (fuel + 1) items concat fp =
      if joinlines ∧ line = [] then .underrun
      else if joinlines ∧ line.getLast? = some '\\' then
        loadLines joinlines fuel items (strlcat concat line.dropLast cfBufSize) fp'
      else
        loadLines joinlines fuel
          (if !fp'.eof || strlcat concat line cfBufSize ≠ [] then
            items ++ [strlcat concat line cfBufSize] else items) [] fp' := by
  rw [loadLines, hr]
  simp only [if_neg hn]

theorem cfReadLine_line_eq (hnl : '\n' ∉ line) (h0 : '\x00' ∉ line) (hl : line.length < cfBufSize)
    (hf : fp.rest = line ++ '\n' :: rest) :
    fp.cfReadLine [] cfBufSize = (line.length + 1, line, ⟨rest, false⟩) := by
  rw [Stream.cfReadLine_line (by decide) hnl h0 hf, List.take_of_length_le (by omega)]

theorem cfReadLine_last_eq (hnl : '\n' ∉ line) (h0 : '\x00' ∉ line) (hl : line.length < cfBufSize)
    (hne : line ≠ []) (hf : fp.rest = line) :
    fp.cfReadLine [] cfBufSize = (line.length, line, ⟨[], true⟩) := by
  rw [Stream.cfReadLine_last (by decide) hnl h0 hne hf, List.take_of_length_le (by omega)]

-- A line that is joined with the next one fits into the buffer together with the text before it.
theorem length_of_joined (hc : '\n' ∉ concat) (hnl : '\n' ∉ line) (hne : line ≠ [])
    (he : NoEmptyLine rest)
    (hs : ShortLines (concat ++ (line.dropLast ++ editedText true rest))) :
    line.length < cfBufSize ∧ concat.length + line.dropLast.length < cfBufSize := by
  rw [← List.append_assoc] at hs
  have hd : '\n' ∉ concat ++ line.dropLast := by
    rw [List.mem_append, not_or]
    exact ⟨hc, (hnl <| List.dropLast_subset _ ·)⟩
  have hlast : line.dropLast.length + 1 = line.length := by
    rw [List.length_dropLast]
    exact Nat.sub_add_cancel <| List.length_pos_of_ne_nil hne
  by_cases hnil : concat ++ line.dropLast = []
  case pos =>
    have := congrArg List.length hnil
    rw [List.length_append, List.length_nil] at this
    simp only [cfBufSize]
    omega
  case neg =>
    have := (hs.length_lt hd hnil).2 <| editedText_head? he
    rw [List.length_append] at this
    omega

theorem loadLines_of_shortLines (h0 : '\x00' ∉ content) (hfuel : content.length < fuel)
    (hc : '\n' ∉ concat) (he : joinlines → NoEmptyLine content)
    (hs : ShortLines (concat ++ editedText joinlines content)) (hf : fp.rest = content) :
    ∃ out, loadLines joinlines fuel items concat fp = .loaded out ∧
      unlines out = unlines items ++ concat ++ editedText joinlines content := by
  induction content using Lines.line_induction generalizing fuel items concat fp
  case nil =>
    rw [editedText_nil, List.append_nil, shortLines_last_iff hc] at hs
    exact ⟨items, loadLines_nil hf, by simp [hs, editedText_nil]⟩
  case last line hne hnl =>
    obtain ⟨fuel, rfl⟩ := Nat.exists_eq_add_of_lt <| Nat.zero_lt_of_lt hfuel
    rw [editedText_last hne hnl] at hs ⊢
    split at hs
    case isTrue hj =>
      have hd : '\n' ∉ concat ++ line.dropLast := by
        rw [List.mem_append, not_or]
        exact ⟨hc, (hnl <| List.dropLast_subset _ ·)⟩
      obtain ⟨rfl, hdl⟩ := List.append_eq_nil_iff.mp <| (shortLines_last_iff hd).mp hs
      have hl : line.length < cfBufSize := by
        have := congrArg List.length hdl
        rw [List.length_dropLast, List.length_nil] at this
        simp only [cfBufSize]
        omega
      refine ⟨items, ?_, by rw [if_pos hj, hdl]; simp⟩
      rw [Nat.zero_add, loadLines_of_readLine (Nat.ne_of_gt <| List.length_pos_of_ne_nil hne)
        (cfReadLine_last_eq hnl h0 hl hne hf), if_neg (hne ·.2), if_pos hj]
      exact loadLines_nil rfl
    case isFalse hj =>
      rw [← List.append_assoc, shortLines_line_iff (by simp [hc, hnl]), List.length_append] at hs
      refine ⟨items ++ [concat ++ line], ?_, by rw [if_neg hj]; simp⟩
      rw [Nat.zero_add, loadLines_of_readLine (Nat.ne_of_gt <| List.length_pos_of_ne_nil hne)
        (cfReadLine_last_eq hnl h0 (by omega) hne hf), if_neg (hne ·.2), if_neg hj,
        loadLines_nil rfl, strlcat_eq_append hs.1, if_pos]
      simp [hne]
  case line line rest hnl ih =>
    obtain ⟨fuel, rfl⟩ := Nat.exists_eq_add_of_lt <| Nat.zero_lt_of_lt hfuel
    rw [List.mem_append, List.mem_cons, not_or, not_or] at h0
    have he' := fun hj => (noEmptyLine_line_iff hnl).mp <| he hj
    have hfuel' : rest.length < 0 + fuel := by
      simp only [List.length_append, List.length_cons] at hfuel
      omega
    rw [editedText_line hnl] at hs ⊢
    split at hs
    case isTrue hj =>
      cases joinlines
      case false => exact absurd hj.1 Bool.false_ne_true
      case true  =>
        have hne := (he' rfl).1
        have hlen := length_of_joined hc hnl hne (he' rfl).2 hs
        have hd : '\n' ∉ concat ++ line.dropLast := by
          rw [List.mem_append, not_or]
          exact ⟨hc, (hnl <| List.dropLast_subset _ ·)⟩
        rw [← List.append_assoc] at hs
        obtain ⟨out, hout, hunlines⟩ := @ih (0 + fuel) items (concat ++ line.dropLast)
          ⟨rest, false⟩ h0.2.2 hfuel' hd (fun hj => (he' hj).2) hs rfl
        refine ⟨out, ?_, by rw [if_pos hj, hunlines]; simp⟩
        rw [loadLines_of_readLine (Nat.succ_ne_zero _) (cfReadLine_line_eq hnl h0.1 hlen.1 hf),
          if_neg (hne ·.2), if_pos hj, strlcat_eq_append hlen.2]
        exact hout
    case isFalse hj =>
      rw [← List.append_assoc, shortLines_line_iff (by simp [hc, hnl]), List.length_append] at hs
      obtain ⟨out, hout, hunlines⟩ := @ih (0 + fuel) (items ++ [concat ++ line]) [] ⟨rest, false⟩
        h0.2.2 hfuel' List.not_mem_nil (fun hj => (he' hj).2) hs.2 rfl
      refine ⟨out, ?_, by rw [if_neg hj, hunlines]; simp⟩
      rw [loadLines_of_readLine (Nat.succ_ne_zero _)
        (cfReadLine_line_eq hnl h0.1 (by omega) hf), if_neg fun h => (he' h.1).1 h.2, if_neg hj,
        strlcat_eq_append hs.1]
      exact hout

theorem strlcat_short {dst src : CString} (hd : '\n' ∉ dst ∧ dst.length < cfBufSize)
    (hs : '\n' ∉ src) :
    '\n' ∉ strlcat dst src cfBufSize ∧ (strlcat dst src cfBufSize).length < cfBufSize := by
  rw [strlcat, List.mem_append, not_or, List.length_append, List.length_take]
  exact ⟨⟨hd.1, (hs <| List.mem_of_mem_take ·)⟩, by omega⟩

-- Whatever has been loaded fits into the buffer line by line.
theorem loadLines_shortItems {out : List CString}
    (hi : ∀ item ∈ items, '\n' ∉ item ∧ item.length < cfBufSize)
    (hc : '\n' ∉ concat ∧ concat.length < cfBufSize)
    (h : loadLines joinlines fuel items concat fp = .loaded out) :
    ∀ item ∈ out, '\n' ∉ item ∧ item.length < cfBufSize := by
  induction fuel generalizing items concat fp
  case zero =>
    cases h
    exact hi
  case succ fuel ih =>
    rcases hr : fp.cfReadLine [] cfBufSize with ⟨n, line, fp'⟩
    have hl := (Stream.cfReadLine_short hr).1
    by_cases hn : n = 0
    case pos =>
      rw [loadLines, hr] at h
      simp only [hn, if_true] at h
      cases h
      exact hi
    case neg =>
      rw [loadLines_of_readLine hn hr] at h
      split at h
      case isTrue  => cases h
      case isFalse =>
        split at h
        case isTrue => exact ih hi (strlcat_short hc (hl <| List.dropLast_subset _ ·)) h
        case isFalse =>
          refine ih ?_ ⟨List.not_mem_nil, by decide⟩ h
          split
          case isTrue =>
            exact List.forall_mem_append.mpr
              ⟨hi, List.forall_mem_singleton.mpr <| strlcat_short hc hl⟩
          case isFalse => exact hi

-- An empty line is met before the start of the buffer, if lines are joined.
theorem noEmptyLine_of_loaded {out : List CString} (h0 : '\x00' ∉ content)
    (hfuel : content.length < fuel) (hf : fp.rest = content)
    (h : loadLines true fuel items concat fp = .loaded out) : NoEmptyLine content := by
  induction content using Lines.line_induction generalizing fuel items concat fp
  case nil               => exact noEmptyLine_last List.not_mem_nil
  case last line hne hnl => exact noEmptyLine_last hnl
  case line line rest hnl ih =>
    rw [List.mem_append, List.mem_cons, not_or, not_or] at h0
    obtain ⟨fuel, rfl⟩ := Nat.exists_eq_add_of_lt <| Nat.zero_lt_of_lt hfuel
    have hfuel' : rest.length < 0 + fuel := by
      simp only [List.length_append, List.length_cons] at hfuel
      omega
    rw [noEmptyLine_line_iff hnl]
    rw [loadLines_of_readLine (Nat.succ_ne_zero _)
      (Stream.cfReadLine_line (by decide) hnl h0.1 hf)] at h
    split at h
    case isTrue  => cases h
    case isFalse hne =>
      refine ⟨fun hl => hne ⟨rfl, by rw [hl]; rfl⟩, ?_⟩
      split at h
      case isTrue  => exact ih h0.2.2 hfuel' rfl h
      case isFalse => exact ih h0.2.2 hfuel' rfl h

-- The text that a file has after it has been loaded and saved is the text that is edited exactly if its
-- lines fit into the buffer and, if they are joined, none is empty and the last does not go on.
theorem loadFileAsItemList_saved_iff {file : EditedFile} {edits : EditDefaults}
    (hreg : file.regular) (hread : file.readable)
    (hsize : edits.maxfilesize = 0 ∨ (file.content.length : Int) ≤ edits.maxfilesize)
    (h0 : '\x00' ∉ file.content) :
    (∃ items, loadFileAsItemList (some file) edits = .loaded items ∧
      saveItemListCallback true true (fun _ => true) items =
        (true, some <| editedText edits.joinlines file.content)) ↔
      (edits.joinlines → NoEmptyLine file.content) ∧
        ShortLines (editedText edits.joinlines file.content) := by
  have hload : loadFileAsItemList (some file) edits =
      loadLines edits.joinlines (file.content.length + 1) [] [] ⟨file.content, false⟩ := by
    have hsize' : ¬(edits.maxfilesize ≠ 0 ∧ (file.content.length : Int) > edits.maxfilesize) := by
      omega
    rw [loadFileAsItemList]
    simp only [if_neg hsize', hreg, hread, Bool.not_true, Bool.false_eq_true, if_false]
  have hsave (items : List CString) :
      saveItemListCallback true true (fun _ => true) items = (true, some <| unlines items) := by
    have h : (saveItemListCallback true true (fun _ => true) items).1 := by
      simpa [saveItemListCallback] using printItems_always
    exact Prod.ext h <| saveItemListCallback_of_true h
  simp only [hload, hsave, Prod.mk.injEq, Option.some.injEq, true_and]
  constructor
  case mp =>
    rintro ⟨items, hitems, htext⟩
    refine ⟨fun hj => ?_, items, htext.symm, ?_⟩
    · rw [hj] at hitems
      exact noEmptyLine_of_loaded h0 (Nat.lt_succ_self _) rfl hitems
    · exact loadLines_shortItems (fun _ h => absurd h List.not_mem_nil) ⟨List.not_mem_nil, by decide⟩ hitems
  case mpr =>
    rintro ⟨he, hs⟩
    obtain ⟨items, hitems, htext⟩ := @loadLines_of_shortLines edits.joinlines _ [] [] _
      ⟨file.content, false⟩ h0 (Nat.lt_succ_self _) List.not_mem_nil he hs rfl
    exact ⟨items, hitems, by simpa using htext⟩

-- A newline is missing at the end of the last line, and comes after a backslash in the first.
theorem loadFileAsItemList_saved_joined :
    ∃ items, loadFileAsItemList (some ⟨['a', '\\', '\n', 'b'], true, true⟩) ⟨0, true⟩ =
        .loaded items ∧
      saveItemListCallback true true (fun _ => true) items =
        (true, some <| editedText true ['a', '\\', '\n', 'b']) :=
  (loadFileAsItemList_saved_iff rfl rfl (.inl rfl) (by decide)).mpr
    ⟨fun _ => (by decide : ¬['\n', '\n'] <:+: ['\n', 'a', '\\', '\n', 'b']),
      [['a', 'b']], rfl, by simp [cfBufSize]⟩

-- The file has an empty line.
theorem loadFileAsItemList_underrun :
    loadFileAsItemList (some ⟨['\n'], true, true⟩) ⟨0, true⟩ = .underrun ∧
      ¬∃ items, loadFileAsItemList (some ⟨['\n'], true, true⟩) ⟨0, true⟩ = .loaded items := by
  have h : loadFileAsItemList (some ⟨['\n'], true, true⟩) ⟨0, true⟩ = .underrun := by decide
  refine ⟨h, ?_⟩
  rintro ⟨items, hitems⟩
  exact absurd (h.symm.trans hitems) nofun

end
end CfEngine
