import CfEngine.Libpromises.EnvContext

namespace CfEngine

-- Where the first match of a regular expression in a text starts and ends.
structure BlockMatching where
  blockTextMatch : CString → CString → Option (Nat × Nat)
  bounds         : ∀ {regex text start stop}, blockTextMatch regex text = some (start, stop) →
    start ≤ stop ∧ stop ≤ text.length

theorem BlockMatching.drop_length_lt (m : BlockMatching) {regex sp : CString} {start stop : Nat}
    (h : m.blockTextMatch regex sp = some (start, stop)) (hpos : stop ≠ 0) : (sp.drop stop).length < sp.length := by
  have := m.bounds h
  rw [List.length_drop]
  omega

-- The items that follow `count` others. A node without room for a terminator is read past its end.
def splitRegexLoop (m : BlockMatching) (regex : CString) (max : Nat) (blanks : Bool) (count : Nat) (moved : Bool)
    (sp : CString) : Outcome (List CString) :=
  match _h : m.blockTextMatch regex sp with
  | some (start, stop) =>
    if _hmore : count < max ∧ stop ≠ 0 then
      if cfMaxVarSize ≤ start then
        none
      else if blanks ∨ sp.take start ≠ [] then
        (splitRegexLoop m regex max blanks (count + 1) true (sp.drop stop)).map (sp.take start :: ·)
      else
        splitRegexLoop m regex max blanks count true (sp.drop stop)
    else
      some <| lastItem count moved
  | none => some <| lastItem count moved
termination_by sp.length
decreasing_by all_goals exact m.drop_length_lt _h _hmore.right
where
  lastItem (count : Nat) (moved : Bool) : List CString :=
    if count < max ∧ ((blanks ∧ moved) ∨ sp ≠ []) then [sp.take (cfMaxVarSize - 1)] else []

def rlistFromSplitRegex (m : BlockMatching) (string regex : CString) (max : Nat) (blanks : Bool) :
    Outcome (List CString) :=
  splitRegexLoop m regex max blanks 0 false string

-- A line as it is cut by the matches: the fields with the separators behind them, and the last field.
structure CutLine where
  cuts : List (CString × CString)
  last : CString

def cutLine (m : BlockMatching) (regex line : CString) : CutLine :=
  match _h : m.blockTextMatch regex line with
  | some (start, stop) =>
    if _hpos : stop = 0 then
      ⟨[], line⟩
    else
      let rest := cutLine m regex (line.drop stop)
      ⟨(line.take start, (line.drop start).take (stop - start)) :: rest.cuts, rest.last⟩
  | none => ⟨[], line⟩
termination_by line.length
decreasing_by exact m.drop_length_lt _h _hpos

namespace CutLine

def fields (cut : CutLine) : List CString :=
  cut.cuts.map Prod.fst ++ [cut.last]

-- The fields and the separators in turn.
def strings (cut : CutLine) : List CString :=
  (cut.cuts.flatMap fun c => [c.1, c.2]) ++ [cut.last]

-- The fields as they are copied, where the last one is cut off.
def items (cut : CutLine) : List CString :=
  cut.cuts.map Prod.fst ++ [cut.last.take (cfMaxVarSize - 1)]

end CutLine

section
variable {m : BlockMatching} {regex line sp : CString} {start stop max count : Nat} {moved blanks : Bool}

theorem cutLine_of_match (h : m.blockTextMatch regex line = some (start, stop)) (hpos : stop ≠ 0) :
    cutLine m regex line = ⟨(line.take start, (line.drop start).take (stop - start)) ::
      (cutLine m regex (line.drop stop)).cuts, (cutLine m regex (line.drop stop)).last⟩ := by
  rw [cutLine]
  split
  case h_1 h' =>
    cases h.symm.trans h'
    rw [dif_neg hpos]
  case h_2 h' => cases h.symm.trans h'

-- Where there is no match that moves on, the line is one field.
theorem cutLine_of_none (h : ∀ start stop, m.blockTextMatch regex line = some (start, stop) → stop = 0) :
    cutLine m regex line = ⟨[], line⟩ := by
  rw [cutLine]
  split
  case h_1 h' => rw [dif_pos (h _ _ h')]
  case h_2    => rfl

theorem cutLine_of_noMatch (h : m.blockTextMatch regex line = none) : cutLine m regex line = ⟨[], line⟩ :=
  cutLine_of_none fun _ _ hmatch => nomatch h.symm.trans hmatch

theorem splitRegexLoop_of_match (h : m.blockTextMatch regex sp = some (start, stop)) (hpos : stop ≠ 0)
    (hmore : count < max) : splitRegexLoop m regex max true count moved sp =
      if cfMaxVarSize ≤ start then none
      else (splitRegexLoop m regex max true (count + 1) true (sp.drop stop)).map (sp.take start :: ·) := by
  rw [splitRegexLoop]
  split
  case h_1 h' =>
    cases h.symm.trans h'
    rw [dif_pos ⟨hmore, hpos⟩]
    simp
  case h_2 h' => cases h.symm.trans h'

theorem splitRegexLoop_of_none
    (h : ∀ start stop, m.blockTextMatch regex sp = some (start, stop) → ¬(count < max ∧ stop ≠ 0)) :
    splitRegexLoop m regex max blanks count moved sp = some (splitRegexLoop.lastItem max blanks sp count moved) := by
  rw [splitRegexLoop]
  split
  case h_1 h' => rw [dif_neg (h _ _ h')]
  case h_2    => rfl

-- A match that moves on, or none.
theorem BlockMatching.cases (m : BlockMatching) (regex sp : CString) :
    (∃ start stop, m.blockTextMatch regex sp = some (start, stop) ∧ stop ≠ 0) ∨
      ∀ start stop, m.blockTextMatch regex sp = some (start, stop) → stop = 0 := by
  by_cases h : ∃ start stop, m.blockTextMatch regex sp = some (start, stop) ∧ stop ≠ 0
  case pos => exact .inl h
  case neg => exact .inr fun start stop hmatch => by_contra fun hpos => h ⟨start, stop, hmatch, hpos⟩

-- With blanks, all the fields are copied.
theorem splitRegexLoop_eq (hroom : count + (cutLine m regex sp).cuts.length < max) :
    splitRegexLoop m regex max true count true sp =
      if ∀ c ∈ (cutLine m regex sp).cuts, c.1.length < cfMaxVarSize then some (cutLine m regex sp).items else none := by
  induction hn : sp.length using Nat.strong_induction_on generalizing sp count with
  | _ n ih =>
    obtain ⟨start, stop, h, hpos⟩ | h := m.cases regex sp
    case inl =>
      rw [cutLine_of_match h hpos, List.length_cons] at hroom
      have ih := @ih _ (hn ▸ m.drop_length_lt h hpos) _ (count + 1) (by omega) rfl
      have hlen : (sp.take start).length = start := List.length_take_of_le <| (m.bounds h).left.trans (m.bounds h).right
      rw [splitRegexLoop_of_match h hpos (by omega), ih, cutLine_of_match h hpos]
      simp only [List.forall_mem_cons, hlen, CutLine.items, List.map_cons, List.cons_append]
      by_cases hlong : cfMaxVarSize ≤ start
      case pos => rw [if_pos hlong, if_neg fun h => absurd h.left (Nat.not_lt.mpr hlong)]
      case neg =>
        rw [if_neg hlong]
        simp only [Nat.not_le.mp hlong, true_and]
        split <;> rfl
    case inr =>
      rw [splitRegexLoop_of_none fun start stop hmatch hmore => hmore.right (h start stop hmatch), cutLine_of_none h]
      rw [cutLine_of_none h, List.length_nil, Nat.add_zero] at hroom
      simp [splitRegexLoop.lastItem, CutLine.items, hroom]

-- Where no match is empty, no separator is.
theorem cutLine_separators (hne : ∀ text start stop, m.blockTextMatch regex text = some (start, stop) → start < stop) :
    ∀ c ∈ (cutLine m regex line).cuts, c.2 ≠ [] := by
  induction hn : line.length using Nat.strong_induction_on generalizing line with
  | _ n ih =>
    obtain ⟨start, stop, h, hpos⟩ | h := m.cases regex line
    case inl =>
      rw [cutLine_of_match h hpos]
      refine List.forall_mem_cons.mpr ⟨fun hnil => ?_, ih _ (hn ▸ m.drop_length_lt h hpos) rfl⟩
      have hlen := congrArg List.length hnil
      have := hne _ _ _ h
      have := m.bounds h
      simp only [List.length_take, List.length_drop, List.length_nil] at hlen
      omega
    case inr =>
      rw [cutLine_of_none h]
      exact nofun

theorem rlistFromSplitRegex_eq (h : m.blockTextMatch regex line = some (start, stop)) (hpos : stop ≠ 0)
    (hroom : (cutLine m regex line).cuts.length < max) :
    rlistFromSplitRegex m line regex max true =
      if ∀ c ∈ (cutLine m regex line).cuts, c.1.length < cfMaxVarSize then some (cutLine m regex line).items else none := by
  rw [cutLine_of_match h hpos, List.length_cons] at hroom
  have hloop := @splitRegexLoop_eq m regex (line.drop stop) max 1 (by omega)
  have hlen : (line.take start).length = start := List.length_take_of_le <| (m.bounds h).left.trans (m.bounds h).right
  rw [rlistFromSplitRegex, splitRegexLoop_of_match h hpos (by omega), hloop, cutLine_of_match h hpos]
  simp only [List.forall_mem_cons, hlen, CutLine.items, List.map_cons, List.cons_append]
  by_cases hlong : cfMaxVarSize ≤ start
  case pos => rw [if_pos hlong, if_neg fun h => absurd h.left (Nat.not_lt.mpr hlong)]
  case neg =>
    rw [if_neg hlong]
    simp only [Nat.not_le.mp hlong, true_and]
    split <;> rfl

end

namespace CutLine

variable {cut : CutLine} {cuts : List (CString × CString)} {last sep field : CString} {c : CString × CString} {i : Nat}

theorem items_cons : items ⟨c :: cuts, last⟩ = c.1 :: items ⟨cuts, last⟩ :=
  rfl

theorem strings_cons : strings ⟨c :: cuts, last⟩ = c.1 :: c.2 :: strings ⟨cuts, last⟩ :=
  rfl

theorem items_length : cut.items.length = cut.cuts.length + 1 := by
  rw [items, List.length_append, List.length_map, List.length_singleton]

theorem intersperse_cons {items : List CString} (hne : items ≠ []) :
    (field :: items).intersperse sep = field :: sep :: items.intersperse sep := by
  obtain ⟨item, items, rfl⟩ := List.exists_cons_of_ne_nil hne
  rw [List.intersperse_cons_cons]

theorem items_ne_nil : cut.items ≠ [] :=
  List.append_ne_nil_of_right_ne_nil _ (List.cons_ne_nil _ _)

-- The items with the separator between each two are the strings of the line.
theorem intersperse_eq_iff :
    cut.items.intersperse sep = cut.strings ↔ (∀ c ∈ cut.cuts, c.2 = sep) ∧ cut.last.length < cfMaxVarSize := by
  obtain ⟨cuts, last⟩ := cut
  induction cuts
  case nil            => simp [items, strings, Nat.le_sub_one_iff_lt (show 0 < cfMaxVarSize by decide)]
  case cons c cuts ih =>
    rw [items_cons, strings_cons, intersperse_cons items_ne_nil, List.cons_inj_right, List.cons_eq_cons, ih,
      List.forall_mem_cons, and_assoc, eq_comm]

-- So they are where one of the fields is set.
theorem intersperse_set_eq_iff (hi : i ≤ cut.cuts.length) :
    (cut.items.set i field).intersperse sep = cut.strings.set (2 * i) field ↔
      (∀ c ∈ cut.cuts, c.2 = sep) ∧ (i = cut.cuts.length ∨ cut.last.length < cfMaxVarSize) := by
  obtain ⟨cuts, last⟩ := cut
  induction cuts generalizing i
  case nil            =>
    obtain rfl := Nat.le_zero.mp hi
    simp [items, strings]
  case cons c cuts ih =>
    rw [items_cons, strings_cons, List.forall_mem_cons, and_assoc]
    cases i
    case zero   =>
      have hrest := @intersperse_eq_iff ⟨cuts, last⟩ sep
      rw [List.set_cons_zero, intersperse_cons items_ne_nil, Nat.mul_zero, List.set_cons_zero, List.cons_inj_right,
        List.cons_eq_cons, hrest, eq_comm]
      simp
    case succ i =>
      have hne : (items ⟨cuts, last⟩).set i field ≠ [] := fun h => items_ne_nil <| (List.set_eq_nil_iff _ _).mp h
      have ih := @ih i (Nat.le_of_succ_le_succ hi)
      rw [List.set_cons_succ, intersperse_cons hne, Nat.mul_succ, List.set_cons_succ, List.set_cons_succ,
        List.cons_inj_right, List.cons_eq_cons, ih, eq_comm, List.length_cons, Nat.succ_inj]

theorem cuts_length_le_flatten (hsep : ∀ c ∈ cut.cuts, c.2 ≠ []) : cut.cuts.length ≤ cut.strings.flatten.length := by
  obtain ⟨cuts, last⟩ := cut
  induction cuts
  case nil            => exact Nat.zero_le _
  case cons c cuts ih =>
    have ⟨hc, hcuts⟩ := List.forall_mem_cons.mp hsep
    have hpos := List.length_pos_iff.mpr hc
    have hle := ih hcuts
    rw [strings_cons, List.flatten_cons, List.flatten_cons, List.length_append, List.length_append, List.length_cons]
    dsimp only at hle
    omega

theorem cuts_length_le_set (hsep : ∀ c ∈ cut.cuts, c.2 ≠ []) :
    cut.cuts.length ≤ (cut.strings.set (2 * i) field).flatten.length := by
  obtain ⟨cuts, last⟩ := cut
  induction cuts generalizing i
  case nil            => exact Nat.zero_le _
  case cons c cuts ih =>
    have ⟨hc, hcuts⟩ := List.forall_mem_cons.mp hsep
    have hpos := List.length_pos_iff.mpr hc
    rw [strings_cons, List.length_cons]
    cases i
    case zero   =>
      have hle := @cuts_length_le_flatten ⟨cuts, last⟩ hcuts
      rw [Nat.mul_zero, List.set_cons_zero, List.flatten_cons, List.flatten_cons, List.length_append, List.length_append]
      dsimp only at hle
      omega
    case succ i =>
      have hle := @ih i hcuts
      rw [Nat.mul_succ, List.set_cons_succ, List.set_cons_succ, List.flatten_cons, List.flatten_cons, List.length_append,
        List.length_append]
      dsimp only at hle
      omega

end CutLine
end CfEngine
