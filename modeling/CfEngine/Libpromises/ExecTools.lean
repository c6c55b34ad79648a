import CfEngine.Libutils.Strings
import CfEngine.Library.Outcome

namespace CfEngine

def initialArgs : Int32 := 8

inductive ArgumentError
  | outOfMemory
  | outOfBounds
  deriving DecidableEq

-- The arguments that have been stored, and the number of those that there is room for.
structure ArgArray where
  args    : List CString
  argslen : Int32

def isQuote (c : Char) : Bool :=
  c ∈ ['"', '\'', '\x60']

-- A negative number is far too large when it is taken for a size.
def reallocArgs (args : List CString) (argslen : Int32) : Except ArgumentError ArgArray :=
  if argslen < 0 then .error .outOfMemory else .ok { args, argslen }

def ArgArray.full (array : ArgArray) : Prop :=
  array.args.length = array.argslen.toInt

instance (array : ArgArray) : Decidable array.full :=
  inferInstanceAs <| Decidable (_ = _)

def ArgArray.add (array : ArgArray) (arg : CString) : Except ArgumentError ArgArray := do
  let array ← if array.full then reallocArgs array.args (array.argslen * 2) else .ok array
  if array.args.length < array.argslen.toInt then
    .ok { array with args := array.args ++ [arg] }
  else
    .error .outOfBounds

-- Whether an argument that begins with a character goes on with another one.
def goesOn (c d : Char) : Bool :=
  if isQuote c then d ≠ c else !isspace d

-- The argument that begins with a character, and the text behind it.
def scanArg (c : Char) (s : CString) : CString × CString :=
  let text := if isQuote c then s else c :: s
  let rest := text.dropWhile (goesOn c)
  (text.takeWhile (goesOn c), if rest.head?.any isQuote then rest.tail else rest)

theorem scanArg_length {c : Char} {s : CString} (h : ¬isspace c) : (scanArg c s).2.length ≤ s.length := by
  have hrest (goesOn : Char → Bool) : (s.dropWhile goesOn).length ≤ s.length := (List.dropWhile_suffix _).length_le
  have htail {rest : CString} (hle : rest.length ≤ s.length) :
      (if rest.head?.any isQuote then rest.tail else rest).length ≤ s.length := by
    split
    case isTrue  => exact (List.length_tail ▸ Nat.sub_le _ _).trans hle
    case isFalse => exact hle
  by_cases hq : isQuote c
  case pos =>
    simp only [scanArg, hq, if_true]
    exact htail <| hrest _
  case neg =>
    have hc : goesOn c c = true := by simpa [goesOn, hq] using h
    simp only [scanArg, hq, if_false, Bool.false_eq_true, List.dropWhile_cons_of_pos hc]
    exact htail <| hrest _

def splitArgs (array : ArgArray) : CString → Except ArgumentError ArgArray
  | []     => .ok array
  | c :: s =>
    if isspace c then
      splitArgs array s
    else
      match array.add (scanArg c s).1 with
      | .error e  => .error e
      | .ok array => splitArgs array (scanArg c s).2
termination_by s => s.length
decreasing_by
  · exact Nat.lt_succ_self _
  · exact Nat.lt_succ_of_le <| scanArg_length ‹_›

-- The pointer after the last argument is `NULL`.
def ArgArray.finish (array : ArgArray) : Except ArgumentError (List (Option CString)) := do
  let array ← if array.full then reallocArgs array.args (array.argslen + 1) else .ok array
  if array.args.length < array.argslen.toInt then .ok <| array.args.map some ++ [none] else .error .outOfBounds

def argSplitCommand (comm : CString) : Except ArgumentError (List (Option CString)) := do
  let array ← splitArgs { args := [], argslen := initialArgs } comm
  array.finish

-- How an argument may be written.
inductive ArgText : CString → CString → Prop
  | bare {arg : CString} (ne : arg ≠ []) (hb : ∀ c ∈ arg, ¬isspace c) (hq : ∀ c ∈ arg.head?, ¬isQuote c) :
    ArgText arg arg
  | quoted {arg : CString} {delim : Char} (hq : isQuote delim) (hn : delim ∉ arg) :
    ArgText arg (delim :: (arg ++ [delim]))

def White (s : CString) : Prop :=
  ∀ c ∈ s, isspace c

-- The white space after an argument is not empty if another one follows.
inductive CommandText : List CString → CString → Prop
  | nil {white : CString} (hw : White white) : CommandText [] white
  | cons {white arg text rest : CString} {args : List CString} (hw : White white) (ha : ArgText arg text)
    (hs : CommandText args rest) (hr : ∀ c ∈ rest.head?, isspace c) :
    CommandText (arg :: args) (white ++ (text ++ rest))

section
variable {s white arg text rest : CString} {args : List CString} {array : ArgArray} {c : Char}

theorem splitArgs_white (h : White white) : splitArgs array (white ++ s) = splitArgs array s := by
  induction white
  case nil             => rfl
  case cons c white ih =>
    rw [List.cons_append, splitArgs, if_pos <| h c List.mem_cons_self]
    exact ih fun d hd => h d <| List.mem_cons_of_mem c hd

theorem not_isspace_of_isQuote (h : isQuote c) : ¬isspace c := by
  simp only [isQuote, List.mem_cons, List.not_mem_nil, or_false, decide_eq_true_eq] at h
  rcases h with rfl | rfl | rfl <;> decide

theorem scanArg_of_argText (ha : ArgText arg text) (hr : ∀ c ∈ rest.head?, isspace c) :
    ∃ c s, text ++ rest = c :: s ∧ ¬isspace c ∧ scanArg c s = (arg, rest) := by
  cases ha
  case bare ne hb hq          =>
    obtain ⟨c, t, rfl⟩ := List.exists_cons_of_ne_nil ne
    have hc := Bool.eq_false_iff.mpr <| hq c rfl
    have hgo : ∀ d ∈ c :: t, goesOn c d = true := fun d hd => by simpa [goesOn, hc] using hb d hd
    have hstop : rest.takeWhile (goesOn c) = [] ∧ rest.dropWhile (goesOn c) = rest ∧ ¬rest.head?.any isQuote := by
      cases rest
      case nil         => exact ⟨rfl, rfl, by simp⟩
      case cons d rest =>
        have hd := hr d rfl
        have hnot : ¬goesOn c d = true := by simpa [goesOn, hc] using hd
        exact ⟨List.takeWhile_cons_of_neg hnot, List.dropWhile_cons_of_neg hnot, fun h => not_isspace_of_isQuote h hd⟩
    have htake : (c :: t ++ rest).takeWhile (goesOn c) = c :: t := by
      rw [List.takeWhile_append_of_pos hgo, hstop.left, List.append_nil]
    have hdrop : (c :: t ++ rest).dropWhile (goesOn c) = rest := by
      rw [List.dropWhile_append_of_pos hgo, hstop.right.left]
    refine ⟨c, t ++ rest, rfl, hb c List.mem_cons_self, ?_⟩
    simp only [scanArg, hc, Bool.false_eq_true, if_false, ←List.cons_append, htake, hdrop, if_neg hstop.right.right]
  case quoted delim hq hn =>
    have hgo : ∀ d ∈ arg, goesOn delim d = true := by
      intro d hd
      rw [goesOn, if_pos hq]
      exact decide_eq_true fun he => hn <| he ▸ hd
    have hstop : ¬goesOn delim delim = true := by simp [goesOn, hq]
    have htake : (arg ++ delim :: rest).takeWhile (goesOn delim) = arg := by
      rw [List.takeWhile_append_of_pos hgo, List.takeWhile_cons_of_neg hstop, List.append_nil]
    have hdrop : (arg ++ delim :: rest).dropWhile (goesOn delim) = delim :: rest := by
      rw [List.dropWhile_append_of_pos hgo, List.dropWhile_cons_of_neg hstop]
    have hhead : (delim :: rest).head?.any isQuote := hq
    refine ⟨delim, arg ++ delim :: rest, ?_, not_isspace_of_isQuote hq, ?_⟩
    · rw [List.cons_append, List.append_assoc, List.singleton_append]
    · simp only [scanArg, hq, if_true, htake, hdrop, hhead, List.tail_cons]

theorem splitArgs_arg (ha : ArgText arg text) (hr : ∀ c ∈ rest.head?, isspace c) :
    splitArgs array (text ++ rest) = array.add arg >>= fun array => splitArgs array rest := by
  obtain ⟨c, s, he, hc, hscan⟩ := scanArg_of_argText ha hr
  rw [he, splitArgs, if_neg hc, hscan]
  cases array.add arg <;> rfl

-- The loop adds the arguments one by one.
theorem splitArgs_eq (h : CommandText args s) : splitArgs array s = args.foldlM ArgArray.add array := by
  induction h generalizing array
  case nil white hw                     =>
    rw [←List.append_nil white, splitArgs_white hw, splitArgs]
    rfl
  case cons white arg text rest args hw ha hs hr ih =>
    rw [splitArgs_white hw, splitArgs_arg ha hr, List.foldlM_cons]
    exact congrArg (array.add arg >>= ·) <| funext fun array => ih

-- The room has been doubled a number of times, and never more than it can be.
structure ArgArray.Valid (array : ArgArray) : Prop where
  doubled   : ∃ k ≤ 27, array.argslen.toInt = 8 * 2 ^ k
  length_le : array.args.length ≤ array.argslen.toInt

theorem ArgArray.Valid.length_le_max (h : array.Valid) : array.args.length ≤ 2 ^ 30 := by
  obtain ⟨k, hk, he⟩ := h.doubled
  have hpow : 2 ^ k ≤ 2 ^ 27 := Nat.pow_le_pow_right (by decide) hk
  have hle := h.length_le
  have hcast : ((2 ^ k : Nat) : Int) = 2 ^ k := Int.natCast_pow 2 k
  omega

theorem add_of_lt (h : array.Valid) (hlt : array.args.length < 2 ^ 30) :
    ∃ array', array.add arg = .ok array' ∧ array'.Valid ∧ array'.args = array.args ++ [arg] := by
  obtain ⟨⟨k, hk, he⟩, hle⟩ := h
  by_cases hfull : array.full
  case neg =>
    have hroom : array.args.length < array.argslen.toInt := Int.lt_iff_le_and_ne.mpr ⟨hle, hfull⟩
    refine ⟨{ array with args := array.args ++ [arg] }, ?_, ⟨⟨k, hk, he⟩, ?_⟩, rfl⟩
    · simp only [ArgArray.add, if_neg hfull, Except.ok_bind_eq, if_pos hroom]
    · rw [List.length_append]
      exact hroom
  case pos =>
    have hfull' : (array.args.length : Int) = array.argslen.toInt := hfull
    have hdouble : (array.argslen * 2).toInt = 8 * 2 ^ (k + 1) := by
      have htwo : (2 : Int32).toInt = 2 := rfl
      rw [Int32.toInt_mul, htwo, he, Int.bmod_eq_of_le (by omega) (by omega), Int.pow_succ]
      omega
    have hpos : ¬array.argslen * 2 < 0 := by
      have hzero : (0 : Int32).toInt = 0 := rfl
      rw [Int32.lt_iff_toInt_lt, hdouble, hzero]
      omega
    have hroom : array.args.length < (array.argslen * 2).toInt := by
      have hpow : (0 : Int) < 2 ^ k := Int.pow_pos (by decide)
      rw [hdouble, Int.pow_succ]
      omega
    refine ⟨{ args := array.args ++ [arg], argslen := array.argslen * 2 }, ?_, ⟨⟨k + 1, ?_, hdouble⟩, ?_⟩, rfl⟩
    · simp only [ArgArray.add, if_pos hfull, reallocArgs, if_neg hpos, Except.ok_bind_eq, if_pos hroom]
    · rcases Nat.lt_or_eq_of_le hk with hk | rfl <;> omega
    · rw [List.length_append]
      exact hroom

-- The largest power of two that fits is doubled.
theorem add_of_max (h : array.Valid) (hmax : array.args.length = 2 ^ 30) : array.add arg = .error .outOfMemory := by
  obtain ⟨⟨k, hk, he⟩, hle⟩ := h
  have hpow : 2 ^ k ≤ 2 ^ 27 := Nat.pow_le_pow_right (by decide) hk
  have hcast : ((2 ^ k : Nat) : Int) = 2 ^ k := Int.natCast_pow 2 k
  have hlen : array.argslen = 2 ^ 30 := by
    rw [←Int32.toInt_inj, he]
    have htop : (2 ^ 30 : Int32).toInt = 2 ^ 30 := rfl
    omega
  have hfull : array.full := by
    rw [ArgArray.full, hmax, hlen]
    rfl
  rw [ArgArray.add, if_pos hfull, hlen]
  rfl

theorem foldlM_add (h : array.Valid) :
    if array.args.length + args.length ≤ 2 ^ 30 then
      ∃ array', args.foldlM ArgArray.add array = .ok array' ∧ array'.Valid ∧ array'.args = array.args ++ args
    else
      args.foldlM ArgArray.add array = .error .outOfMemory := by
  induction args generalizing array
  case nil              =>
    rw [if_pos (by simpa using h.length_le_max)]
    exact ⟨array, rfl, h, (List.append_nil _).symm⟩
  case cons arg args ih =>
    rw [List.foldlM_cons, List.length_cons]
    rcases Nat.lt_or_eq_of_le h.length_le_max with hlt | hmax
    · obtain ⟨array', hadd, hvalid, hargs⟩ := @add_of_lt arg array h hlt
      have hrest := ih hvalid
      have hcount : array.args.length + (args.length + 1) = array.args.length + 1 + args.length := by omega
      rw [hargs, List.length_append, List.length_singleton, List.append_assoc] at hrest
      rw [hadd, Except.ok_bind_eq, hcount]
      exact hrest
    · rw [if_neg (by omega), add_of_max h hmax]
      rfl

theorem valid_initial : ({ args := [], argslen := initialArgs } : ArgArray).Valid :=
  ⟨⟨0, by decide, rfl⟩, by decide⟩

-- There is room for the pointer at the end.
theorem finish_of_valid (h : array.Valid) : array.finish = .ok (array.args.map some ++ [none]) := by
  have hle := h.length_le_max
  by_cases hfull : array.full
  case neg =>
    have hroom : array.args.length < array.argslen.toInt := Int.lt_iff_le_and_ne.mpr ⟨h.length_le, hfull⟩
    simp only [ArgArray.finish, if_neg hfull, Except.ok_bind_eq, if_pos hroom]
  case pos =>
    have hfull' : (array.args.length : Int) = array.argslen.toInt := hfull
    have hsum : (array.argslen + 1).toInt = array.args.length + 1 := by
      have hone : (1 : Int32).toInt = 1 := rfl
      rw [Int32.toInt_add, hone, ←hfull', Int.bmod_eq_of_le (by omega) (by omega)]
    have hpos : ¬array.argslen + 1 < 0 := by
      have hzero : (0 : Int32).toInt = 0 := rfl
      rw [Int32.lt_iff_toInt_lt, hsum, hzero]
      omega
    have hroom : array.args.length < (array.argslen + 1).toInt := by omega
    simp only [ArgArray.finish, if_pos hfull, reallocArgs, if_neg hpos, Except.ok_bind_eq, if_pos hroom]

theorem argSplitCommand_eq (h : CommandText args s) :
    argSplitCommand s = if args.length ≤ 2 ^ 30 then .ok (args.map some ++ [none]) else .error .outOfMemory := by
  have hadd := @foldlM_add args _ valid_initial
  rw [argSplitCommand, splitArgs_eq h]
  split
  case isTrue hle  =>
    rw [if_pos (by simpa using hle)] at hadd
    obtain ⟨array, hadd, hvalid, hargs⟩ := hadd
    rw [hadd, Except.ok_bind_eq, finish_of_valid hvalid, hargs, List.nil_append]
  case isFalse hle =>
    rw [if_neg (by simpa using hle)] at hadd
    rw [hadd]
    rfl

end

-- The arguments come back if and only if they are not more than the counter allows.
theorem argSplitCommand_iff (args : List CString) (s : CString) (h : CommandText args s) :
    argSplitCommand s = .ok (args.map some ++ [none]) ↔ args.length ≤ 2 ^ 30 := by
  rw [argSplitCommand_eq h]
  split
  case isTrue hle  => exact iff_of_true rfl hle
  case isFalse hle => exact iff_of_false (by simp) hle

-- An argument in quotes, and one without after it.
theorem commandText_echo : CommandText [['a', ' '], ['b', '"']] ['\'', 'a', ' ', '\'', ' ', 'b', '"'] :=
  @CommandText.cons [] _ ['\'', 'a', ' ', '\''] [' ', 'b', '"'] _ (by simp [White]) (.quoted (by decide) (by decide))
    (@CommandText.cons [' '] _ _ [] _ (by simp [White, isspace]) (.bare (by simp) (by decide) (by simp [isQuote]))
      (.nil <| by simp [White]) (by simp))
    (by simp [isspace])

theorem argSplitCommand_echo : CommandText [['a', ' '], ['b', '"']] ['\'', 'a', ' ', '\'', ' ', 'b', '"'] ∧
    argSplitCommand ['\'', 'a', ' ', '\'', ' ', 'b', '"'] = .ok [some ['a', ' '], some ['b', '"'], none] :=
  ⟨commandText_echo, (argSplitCommand_iff _ _ commandText_echo).mpr <| by decide⟩

theorem commandText_replicate (n : Nat) :
    ∃ s, CommandText (List.replicate n ['a']) s ∧ ∀ c ∈ s.head?, isspace c := by
  induction n
  case zero      => exact ⟨[], .nil <| by simp [White], by simp⟩
  case succ n ih =>
    obtain ⟨s, hs, hr⟩ := ih
    have harg : ArgText ['a'] ['a'] := .bare (by simp) (by decide) (by simp [isQuote])
    refine ⟨[' '] ++ (['a'] ++ s), .cons (by simp [White, isspace]) harg hs hr, ?_⟩
    rintro c ⟨⟩
    rfl

-- With one argument more, the number of bytes that is asked for is out of range.
theorem not_argSplitCommand : ¬∀ args s, CommandText args s → argSplitCommand s = .ok (args.map some ++ [none]) := by
  intro h
  obtain ⟨s, hs, hr⟩ := commandText_replicate (2 ^ 30 + 1)
  have hresult := h _ s hs
  rw [argSplitCommand_eq hs, List.length_replicate, if_neg (by decide)] at hresult
  cases hresult

end CfEngine
