import CfEngine.CfAgent.FilesEditline.Regions

namespace CfEngine

open Links

def cfMaxReplace : Nat := 20

structure ReplaceAttributes where
  occurrences : Option CString
  warn        : Bool

def notAnchored (s : CString) : Bool :=
  if s.head? ≠ some '^' then
    true
  else if s.getLast? ≠ some '$' then
    true
  else
    false

def onceOnly (a : ReplaceAttributes) : Bool :=
  a.occurrences = some ['f', 'i', 'r', 's', 't']

section
-- Where a pattern matches a text, and what the replacement is for the match.
variable (blockTextMatch : CString → CString → Option (Nat × Nat)) (expandScalar : CString → Nat → Nat → CString)

-- The buffer for the text behind the match is shorter than the one for the line.
def replaceMatch (line_buff : CString) (start_off end_off : Nat) : CString :=
  let before := line_buff.take start_off
  let after := (line_buff.drop end_off).take (cfBufSize - 1)
  (before ++ expandScalar line_buff start_off end_off ++ after).take (cfExpandSize - 2)

-- The replacements on one line, of which `left` more are allowed, and whether there has been one.
def replaceLine (promiser : CString) (once_only : Bool) : (left match_len : Nat) → (replaced : Bool) →
    (line_buff : CString) → CString × Bool
  | left, match_len, replaced, line_buff =>
    match blockTextMatch promiser line_buff with
    | none                      => (line_buff, replaced)
    | some (start_off, end_off) =>
      if match_len = line_buff.length then
        (line_buff, replaced)
      else
        match left with
        | 0        => (line_buff, replaced)
        | left + 1 =>
          let line_buff := replaceMatch expandScalar line_buff start_off end_off
          if once_only then
            (line_buff, true)
          else
            replaceLine promiser once_only left (end_off - start_off) true line_buff

-- A line that still matches ends the loop over the lines.
def patternEdit (a : ReplaceAttributes) (promiser name : CString) : LineEdit :=
  let (line_buff, replaced) :=
    replaceLine blockTextMatch expandScalar promiser (onceOnly a) cfMaxReplace 0 false (name.take cfBufSize)
  if notAnchored promiser ∧ (blockTextMatch promiser line_buff).isSome then
    ⟨none, none, 0, true⟩
  else if a.warn then
    .keep
  else if replaced then
    ⟨some line_buff, some true, 1, onceOnly a⟩
  else
    .keep

-- The contents of the buffer in the course of the replacements on a line.
def lineBuffers (promiser : CString) : (left match_len : Nat) → (line_buff : CString) → List CString
  | left, match_len, line_buff =>
    match blockTextMatch promiser line_buff with
    | none                      => [line_buff]
    | some (start_off, end_off) =>
      if match_len = line_buff.length then
        [line_buff]
      else
        match left with
        | 0        => [line_buff]
        | left + 1 =>
          line_buff ::
            lineBuffers promiser left (end_off - start_off) (replaceMatch expandScalar line_buff start_off end_off)

end

section
variable {blockTextMatch : CString → CString → Option (Nat × Nat)} {expandScalar : CString → Nat → Nat → CString}
variable {promiser line_buff name : CString} {left match_len : Nat} {replaced : Bool}
variable {a : ReplaceAttributes}

-- Every line and the contents of the buffer on the way to its replacement fit into the buffers.
def FitsBuffer (blockTextMatch : CString → CString → Option (Nat × Nat)) (expandScalar : CString → Nat → Nat → CString)
    (promiser name : CString) : Prop :=
  ∀ buff ∈ lineBuffers blockTextMatch expandScalar promiser cfMaxReplace 0 name, buff.length < cfBufSize

theorem replaceLine_of_none {once_only : Bool} (h : blockTextMatch promiser line_buff = none) :
    replaceLine blockTextMatch expandScalar promiser once_only left match_len replaced line_buff =
      (line_buff, replaced) := by
  unfold replaceLine
  rw [h]

theorem mem_lineBuffers : line_buff ∈ lineBuffers blockTextMatch expandScalar promiser left match_len line_buff := by
  unfold lineBuffers
  split
  case h_1 => exact List.mem_cons_self
  case h_2 =>
    split
    case isTrue  => exact List.mem_cons_self
    case isFalse =>
      cases left
      case zero      => exact List.mem_cons_self
      case succ left => exact List.mem_cons_self

theorem replaceLine_mem_lineBuffers :
    (replaceLine blockTextMatch expandScalar promiser false left match_len replaced line_buff).1 ∈
      lineBuffers blockTextMatch expandScalar promiser left match_len line_buff := by
  induction left generalizing match_len replaced line_buff
  all_goals
    unfold replaceLine lineBuffers
    cases blockTextMatch promiser line_buff
  case zero.none         => exact List.mem_cons_self
  case succ.none         => exact List.mem_cons_self
  case zero.some r       =>
    dsimp only
    split <;> exact List.mem_cons_self
  case succ.some ih r    =>
    dsimp only
    split
    case isTrue  => exact List.mem_cons_self
    case isFalse => exact List.mem_cons_of_mem _ ih

theorem FitsBuffer.length_lt (h : FitsBuffer blockTextMatch expandScalar promiser name) : name.length < cfBufSize :=
  h name mem_lineBuffers

theorem FitsBuffer.replaceLine_length_lt (h : FitsBuffer blockTextMatch expandScalar promiser name) :
    (replaceLine blockTextMatch expandScalar promiser false cfMaxReplace 0 false name).1.length < cfBufSize :=
  h _ replaceLine_mem_lineBuffers

theorem take_of_length_lt (h : name.length < cfBufSize) : name.take cfBufSize = name :=
  List.take_of_length_le h.le

-- An edit that ends the loop without a change, or whose line is kept by the next run.
def LineEdit.Settles (edit : CString → LineEdit) (name : CString) : Prop :=
  edit name = ⟨none, none, 0, true⟩ ∨ (edit name).stop = false ∧ edit ((edit name).line.getD name) = .keep

theorem patternEdit_eq (hnot : notAnchored promiser) (honce : onceOnly a = false) (hlen : name.length < cfBufSize)
    (hr : replaceLine blockTextMatch expandScalar promiser false cfMaxReplace 0 false name = (line_buff, replaced)) :
    patternEdit blockTextMatch expandScalar a promiser name =
      if (blockTextMatch promiser line_buff).isSome then
        ⟨none, none, 0, true⟩
      else if a.warn = false ∧ replaced then
        ⟨some line_buff, some true, 1, false⟩
      else
        .keep := by
  rw [patternEdit, honce, take_of_length_lt hlen, hr]
  cases a.warn <;> cases replaced <;> simp [hnot]

theorem patternEdit_settles (hnot : notAnchored promiser) (honce : onceOnly a = false)
    (hfits : FitsBuffer blockTextMatch expandScalar promiser name) :
    LineEdit.Settles (patternEdit blockTextMatch expandScalar a promiser) name := by
  have hlen := hfits.replaceLine_length_lt
  cases hr : replaceLine blockTextMatch expandScalar promiser false cfMaxReplace 0 false name
  case mk line_buff replaced =>
    rw [hr] at hlen
    have hedit := @patternEdit_eq _ _ _ _ _ _ a hnot honce hfits.length_lt hr
    split at hedit
    case isTrue hmatch  => exact .inl hedit
    case isFalse hmatch =>
      refine .inr ?_
      split at hedit
      case isTrue hwrite  =>
        -- The line has been written, and it does not match any more.
        have hnone : blockTextMatch promiser line_buff = none := Option.not_isSome_iff_eq_none.mp hmatch
        rw [hedit, Option.getD_some, patternEdit_eq hnot honce hlen (replaceLine_of_none hnone), if_neg hmatch]
        exact ⟨rfl, if_neg nofun⟩
      case isFalse hwrite =>
        rw [hedit]
        exact ⟨rfl, hedit⟩

end

section
variable {edit : CString → LineEdit} {isEnd : ItemPtr → Bool} {ed : EditContext} {pre xs : List (Nat × CString)}
  {fuel : Nat} {retval : Bool}

-- A run from the line on that changes nothing.
def RunKeeps (edit : CString → LineEdit) (isEnd : ItemPtr → Bool) (ed : EditContext) (xs : List (Nat × CString)) : Prop :=
  ∀ fuel retval, xs.length < fuel →
    editLoop (fun _ => edit) isEnd fuel ed (.ptr <| front xs none) retval = .ok (retval, ed)

theorem runKeeps_nil (hnull : isEnd .null) : RunKeeps edit isEnd ed [] := by
  intro fuel retval hfuel
  obtain ⟨fuel, rfl⟩ := Nat.exists_eq_add_one.mpr hfuel
  rw [front_nil, editLoop, if_pos hnull]

theorem RunKeeps.of_isEnd {x : Nat × CString} (hend : isEnd (.item x.1)) : RunKeeps edit isEnd ed (x :: xs) := by
  intro fuel retval hfuel
  obtain ⟨fuel, rfl⟩ := Nat.exists_eq_add_one.mpr <| Nat.zero_lt_of_lt hfuel
  rw [front_cons, editLoop, if_pos hend]

theorem RunKeeps.of_stop {x : Nat × CString} (h : Chained ed.list.items ed.list.start (pre ++ x :: xs) none)
    (hstop : edit x.2 = ⟨none, none, 0, true⟩) : RunKeeps edit isEnd ed (x :: xs) := by
  intro fuel retval hfuel
  obtain ⟨fuel, rfl⟩ := Nat.exists_eq_add_one.mpr <| Nat.zero_lt_of_lt hfuel
  rw [front_cons, editLoop, Items.deref_item h, EditOutcome.ok_bind]
  dsimp only
  rw [hstop]
  exact ite_self _

theorem RunKeeps.cons {x : Nat × CString} (h : Chained ed.list.items ed.list.start (pre ++ x :: xs) none)
    (hkeep : edit x.2 = .keep) (hrest : RunKeeps edit isEnd ed xs) : RunKeeps edit isEnd ed (x :: xs) := by
  intro fuel retval hfuel
  obtain ⟨fuel, rfl⟩ := Nat.exists_eq_add_one.mpr <| Nat.zero_lt_of_lt hfuel
  rw [front_cons, editLoop, Items.deref_item h, EditOutcome.ok_bind]
  dsimp only
  rw [hkeep]
  split
  case isTrue  => rfl
  case isFalse => exact hrest fuel retval <| Nat.lt_of_succ_lt_succ hfuel

-- What a run leaves of the lines is left by the next one, up to the line that ends both.
theorem editLoop_settles (hnull : isEnd .null) (h : Chained ed.list.items ed.list.start (pre ++ xs) none)
    (hsettles : ∀ x ∈ xs, LineEdit.Settles edit x.2) (hfuel : xs.length < fuel) :
    ∃ retval' ed' ys, editLoop (fun _ => edit) isEnd fuel ed (.ptr <| front xs none) retval = .ok (retval', ed') ∧
      front ys none = front xs none ∧ Chained ed'.list.items ed'.list.start (pre ++ ys) none ∧
      RunKeeps edit isEnd ed' ys := by
  induction fuel generalizing ed pre xs retval
  case zero         => cases hfuel
  case succ fuel ih =>
    cases xs
    case nil       =>
      refine ⟨retval, ed, [], ?_, rfl, h, runKeeps_nil hnull⟩
      rw [front_nil, editLoop, if_pos hnull]
    case cons x xs =>
      have hx := hsettles x List.mem_cons_self
      have hxs := fun y hy => hsettles y <| List.mem_cons_of_mem _ hy
      by_cases hend : isEnd (.item x.1)
      case pos =>
        refine ⟨retval, ed, x :: xs, ?_, rfl, h, .of_isEnd hend⟩
        rw [front_cons, editLoop, if_pos hend]
      case neg =>
        rw [front_cons, editLoop, if_neg hend, Items.deref_item h, EditOutcome.ok_bind]
        dsimp only
        obtain hstop | ⟨hgo, hkeep⟩ := hx
        case inl =>
          refine ⟨retval, ed, x :: xs, ?_, rfl, h, .of_stop h hstop⟩
          rw [hstop]
          rfl
        case inr =>
          rw [if_neg (Bool.eq_false_iff.mp hgo)]
          have h' := editItem_eq (edit x.2) h
          have hcons : pre ++ (x.1, (edit x.2).line.getD x.2) :: xs = pre ++ [(x.1, (edit x.2).line.getD x.2)] ++ xs := by
            rw [List.append_assoc, List.singleton_append]
          obtain ⟨retval', ed', ys, hrun, hfront, hed', hkeeps⟩ := @ih _ _ xs ((edit x.2).retval.getD retval)
            (hcons ▸ h') hxs (Nat.lt_of_succ_lt_succ hfuel)
          rw [List.append_assoc, List.singleton_append] at hed'
          exact ⟨retval', ed', (x.1, (edit x.2).line.getD x.2) :: ys, hrun, rfl, hed', .cons hed' hkeep hkeeps⟩

end

-- A second run over the lines that the first one has left changes nothing.
theorem replacePatterns_converges (blockTextMatch : CString → CString → Option (Nat × Nat))
    (expandScalar : CString → Nat → Nat → CString) (a : ReplaceAttributes) (promiser : CString) (ed : EditContext)
    (pre xs : List (Nat × CString)) (file_end : ItemPtr) (hnot : notAnchored promiser) (honce : onceOnly a = false)
    (h : Chained ed.list.items ed.list.start (pre ++ xs) none)
    (hfits : ∀ x ∈ xs, FitsBuffer blockTextMatch expandScalar promiser x.2) :
    ∃ retval ed',
      replacePatterns (fun _ => patternEdit blockTextMatch expandScalar a promiser) ed (.ptr <| front xs none) file_end =
        .ok (retval, ed') ∧
      replacePatterns (fun _ => patternEdit blockTextMatch expandScalar a promiser) ed' (.ptr <| front xs none) file_end =
        .ok (false, ed') := by
  have hsettles : ∀ x ∈ xs, LineEdit.Settles (patternEdit blockTextMatch expandScalar a promiser) x.2 :=
    fun x hx => patternEdit_settles hnot honce <| hfits x hx
  obtain ⟨retval, ed', ys, hrun, hfront, hed', hkeeps⟩ :=
    @editLoop_settles _ (fun ip => ip = .null ∨ ip = file_end) ed pre xs _ false (decide_eq_true <| .inl rfl) h hsettles
      (Items.lt_fuel h)
  have hagain := hkeeps ed'.list.items.fuel false (Items.lt_fuel hed')
  rw [hfront] at hagain
  exact ⟨retval, ed', hrun, hagain⟩

-- Every number sign of a line is replaced, and then it does not match any more.
theorem replacePatterns_signs :
    let blockTextMatch (pattern text : CString) : Option (Nat × Nat) :=
      if pattern.isPrefixOf text then some (0, pattern.length) else none
    let expandScalar (_ : CString) (_ _ : Nat) : CString := ['-']
    let edit (_ : Nat) := patternEdit blockTextMatch expandScalar ⟨some ['a', 'l', 'l'], false⟩ ['#']
    let ed : EditContext := ⟨⟨[some ⟨['#', 'a'], some 1⟩, some ⟨['b'], none⟩], some 0⟩, 0⟩
    ∃ retval ed', replacePatterns edit ed (.item 0) .null = .ok (retval, ed') ∧
      replacePatterns edit ed' (.item 0) .null = .ok (false, ed') := by
  intro blockTextMatch expandScalar edit ed
  have hfits : ∀ x ∈ [(0, ['#', 'a']), (1, ['b'])], FitsBuffer blockTextMatch expandScalar ['#'] x.2 := by
    intro x hx
    rw [FitsBuffer]
    obtain rfl | rfl : x = (0, ['#', 'a']) ∨ x = (1, ['b']) := by simpa using hx
    all_goals decide
  exact replacePatterns_converges blockTextMatch expandScalar ⟨some ['a', 'l', 'l'], false⟩ ['#'] ed []
    [(0, ['#', 'a']), (1, ['b'])] .null (by decide) (by decide) ⟨rfl, rfl, rfl, rfl, rfl⟩ hfits

end CfEngine
