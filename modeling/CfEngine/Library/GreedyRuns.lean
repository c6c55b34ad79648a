import CfEngine.Library.Regex

-- Texts of characters and of greedy runs of characters of a class, as regular expressions.

namespace Regex

inductive Piece
  | lit (c : Char)
  | star
  | plus
  deriving DecidableEq

def Piece.regex (p : Char → Bool) : Piece → Regex
  | lit c => .set (· = c)
  | star  => .star true (.set p)
  | plus  => .seq (.set p) (.star true (.set p))

def ofPieces (p : Char → Bool) : List Piece → Regex
  | []      => .empty
  | x :: xs => .seq (x.regex p) (ofPieces p xs)

-- What is left of the text, where every run takes all that it can.
def runPieces (p : Char → Bool) : List Piece → List Char → Option (List Char)
  | [], s              => some s
  | .lit _ :: _, []    => none
  | .lit c :: xs, d :: s => if d = c then runPieces p xs s else none
  | .star :: xs, s     => runPieces p xs (s.dropWhile p)
  | .plus :: xs, s     => if s.head?.any p then runPieces p xs (s.dropWhile p) else none

-- A run is the last piece, or is followed by a character that is not of its class.
def Settled (p : Char → Bool) : List Piece → Prop
  | []           => True
  | .lit _ :: xs => Settled p xs
  | _ :: xs      => (∀ x ∈ xs.head?, ∃ c, x = .lit c ∧ ¬p c) ∧ Settled p xs

-- The first of the ways from which the rest succeeds.
def search {β : Type} (s : List Char) (r : Regex) (c : Cursor) (rest : Cursor → Option β) : Option β :=
  (ways s r c).findSome? fun w => rest w.2

section
variable {β : Type} {s : List Char} {r t : Regex} {c : Cursor} {rest : Cursor → Option β} {p : Char → Bool} {x : Piece}
  {xs ys : List Piece}

theorem findSome?_andThen {ws : Ways} {next : Cursor → Ways} : (andThen ws next).findSome? (fun w => rest w.2) =
    ws.findSome? fun w => (next w.2).findSome? fun w => rest w.2 := by
  induction ws
  case nil          => rfl
  case cons w ws ih =>
    rw [andThen] at ih
    rw [andThen, List.flatMap_cons, List.findSome?_append, ih, List.findSome?_map, List.findSome?_cons]
    show ((next w.2).findSome? fun w => rest w.2).or _ = _
    cases (next w.2).findSome? fun w => rest w.2 <;> rfl

theorem findSome?_chosen {b : Bool} {ws : Ways} :
    (chosen b ws).findSome? (fun w => rest w.2) = ws.findSome? fun w => rest w.2 := by
  rw [chosen, List.findSome?_map]
  rfl

theorem search_seq : search s (seq r t) c rest = search s r c fun d => search s t d rest :=
  findSome?_andThen

theorem search_set : search s (set p) c rest = if s[c.pos]?.any p then rest ⟨c.pos + 1, c.captured⟩ else none := by
  rw [search, ways]
  split
  case isTrue  => rw [List.findSome?_singleton]
  case isFalse => rfl

-- The longest run is tried first. If a shorter one cannot succeed then, it is the only one.
theorem findSome?_repeatWays {fuel : Nat} (hc : c.pos ≤ s.length) (hfuel : s.length - c.pos < fuel)
    (h : (∀ d, s[d.pos]?.any p → rest d = none) ∨ ∀ d, rest d ≠ none) :
    (repeatWays true (ways s (set p)) fuel c).findSome? (fun w => rest w.2) =
      rest ⟨s.length - ((s.drop c.pos).dropWhile p).length, c.captured⟩ := by
  induction fuel generalizing c
  case zero         => omega
  case succ fuel ih =>
    have hself : ([([], c)] : Ways).findSome? (fun w => rest w.2) = rest c := List.findSome?_singleton
    rw [repeatWays, if_pos rfl, branch, List.findSome?_append, findSome?_chosen, findSome?_chosen, findSome?_andThen, hself]
    have hstep := @search_set _ s c (fun d =>
      (if c.pos < d.pos then repeatWays true (ways s (set p)) fuel d else [([], d)]).findSome? fun w => rest w.2) p
    rw [search] at hstep
    rw [hstep]
    by_cases hp : s[c.pos]?.any p
    case pos =>
      obtain ⟨x, hx, hpx⟩ := Option.any_eq_true _ _ |>.mp hp
      have hlt : c.pos < s.length := List.getElem?_eq_some_iff.mp hx |>.fst
      have hdrop : s.drop c.pos = x :: s.drop (c.pos + 1) := by
        rw [List.drop_eq_getElem_cons hlt, (List.getElem?_eq_some_iff.mp hx).snd]
      have ih := @ih ⟨c.pos + 1, c.captured⟩ hlt (by show s.length - (c.pos + 1) < fuel; omega)
      rw [if_pos hp, if_pos (Nat.lt_succ_self _), ih, hdrop, List.dropWhile_cons_of_pos hpx]
      cases hend : rest ⟨s.length - ((s.drop (c.pos + 1)).dropWhile p).length, c.captured⟩
      case some => rfl
      case none =>
        cases h
        case inl h => exact h c hp
        case inr h => exact absurd hend (h _)
    case neg =>
      have hdrop : (s.drop c.pos).dropWhile p = s.drop c.pos := by
        cases hx : s.drop c.pos
        case nil       => rfl
        case cons x xs =>
          rw [←List.head?_drop, hx] at hp
          exact List.dropWhile_cons_of_neg <| by simpa using hp
      have hpos : s.length - (s.drop c.pos).length = c.pos := by
        rw [List.length_drop]
        omega
      rw [if_neg hp, hdrop, hpos]
      rfl

theorem search_star (hc : c.pos ≤ s.length) (h : (∀ d, s[d.pos]?.any p → rest d = none) ∨ ∀ d, rest d ≠ none) :
    search s (star true (set p)) c rest = rest ⟨s.length - ((s.drop c.pos).dropWhile p).length, c.captured⟩ :=
  findSome?_repeatWays hc (by omega) h

theorem runPieces_append : runPieces p (xs ++ ys) s =
    (runPieces p xs s).bind (runPieces p ys) := by
  induction xs generalizing s
  case nil          => rfl
  case cons x xs ih =>
    cases x
    case lit c =>
      cases s
      case nil      => rfl
      case cons d s =>
        rw [List.cons_append, runPieces, runPieces]
        split
        case isTrue  => exact ih
        case isFalse => rfl
    case star  => exact ih
    case plus  =>
      rw [List.cons_append, runPieces, runPieces]
      split
      case isTrue  => exact ih
      case isFalse => rfl

theorem runPieces_lits {u t : List Char} : runPieces p (u.map .lit) s = some t ↔ s = u ++ t := by
  induction u generalizing s
  case nil         => exact Option.some_inj
  case cons c u ih =>
    cases s
    case nil      => exact iff_of_false nofun nofun
    case cons d s =>
      rw [List.map_cons, runPieces, List.cons_append, List.cons.injEq]
      by_cases hd : d = c
      case pos => rw [if_pos hd, ih, and_iff_right hd]
      case neg => exact iff_of_false (if_neg hd ▸ nofun) fun h => hd h.left

theorem runPieces_suffix {t : List Char} (h : runPieces p xs s = some t) : t <:+ s := by
  induction xs generalizing s
  case nil          => exact Option.some.inj h ▸ List.suffix_refl _
  case cons x xs ih =>
    cases x
    case lit c =>
      cases s
      case nil      => nomatch h
      case cons d s =>
        rw [runPieces] at h
        split at h
        case isTrue  => exact (ih h).trans <| List.suffix_cons _ _
        case isFalse => nomatch h
    case star  => exact (ih h).trans <| List.dropWhile_suffix _
    case plus  =>
      rw [runPieces] at h
      split at h
      case isTrue  => exact (ih h).trans <| List.dropWhile_suffix _
      case isFalse => nomatch h

-- What is behind a run does not start with a character of its class.
theorem search_behind (h : ∀ x ∈ xs.head?, ∃ c, x = .lit c ∧ ¬p c) :
    (∀ d : Cursor, s[d.pos]?.any p → search s (ofPieces p xs) d some = none) ∨
      ∀ d : Cursor, search s (ofPieces p xs) d some ≠ none := by
  cases xs
  case nil       => exact .inr nofun
  case cons x xs =>
    obtain ⟨c, rfl, hc⟩ := h x rfl
    refine .inl fun d hd => ?_
    have ⟨e, he, hpe⟩ := Option.any_eq_true _ _ |>.mp hd
    have hne : ¬s[d.pos]?.any (· = c) := by
      rw [he]
      intro hec
      exact hc <| of_decide_eq_true hec ▸ hpe
    rw [ofPieces, Piece.regex, search_seq, search_set, if_neg hne]

theorem search_ofPieces (hxs : Settled p xs) (hc : c.pos ≤ s.length) : search s (ofPieces p xs) c some =
    (runPieces p xs (s.drop c.pos)).map fun t => ⟨s.length - t.length, c.captured⟩ := by
  induction xs generalizing c
  case nil          =>
    have hpos : s.length - (s.drop c.pos).length = c.pos := by
      rw [List.length_drop]
      omega
    rw [runPieces, Option.map_some, hpos]
    rfl
  case cons x xs ih =>
    have hrun : s.length - ((s.drop c.pos).dropWhile p).length ≤ s.length := Nat.sub_le ..
    have hdrop {t : List Char} (ht : t <:+ s) : s.drop (s.length - t.length) = t := by
      obtain ⟨u, rfl⟩ := ht
      rw [List.length_append, Nat.add_sub_cancel, List.drop_left]
    have hsuffix : (s.drop c.pos).dropWhile p <:+ s := (List.dropWhile_suffix p).trans <| List.drop_suffix _ _
    rw [ofPieces, search_seq]
    cases x
    case lit d =>
      rw [Piece.regex, search_set]
      cases hx : s.drop c.pos
      case nil       =>
        have hnone : s[c.pos]? = none := by rw [←List.head?_drop, hx]; rfl
        rw [hnone]
        rfl
      case cons e t =>
        have hsome : s[c.pos]? = some e := by rw [←List.head?_drop, hx]; rfl
        have hlt : c.pos < s.length := List.getElem?_eq_some_iff.mp hsome |>.fst
        have ht : s.drop (c.pos + 1) = t := by rw [←List.tail_drop, hx]; rfl
        rw [hsome, runPieces, Option.any_some]
        by_cases he : e = d
        case pos => rw [if_pos (decide_eq_true he), if_pos he, @ih ⟨c.pos + 1, c.captured⟩ hxs hlt, ht]
        case neg => rw [if_neg (by simpa using he), if_neg he]; rfl
    case star  =>
      rw [Piece.regex, search_star hc (search_behind hxs.left), ih hxs.right hrun, hdrop hsuffix]
      rfl
    case plus  =>
      rw [Piece.regex, search_seq, search_set, runPieces, List.head?_drop]
      by_cases hp : s[c.pos]?.any p
      case pos =>
        have ⟨e, he, hpe⟩ := Option.any_eq_true _ _ |>.mp hp
        have hlt : c.pos < s.length := List.getElem?_eq_some_iff.mp he |>.fst
        have hcons : s.drop c.pos = e :: s.drop (c.pos + 1) := by
          rw [List.drop_eq_getElem_cons hlt, (List.getElem?_eq_some_iff.mp he).snd]
        rw [hcons, List.dropWhile_cons_of_pos hpe] at hsuffix hrun ⊢
        rw [if_pos hp, if_pos hp, @search_star _ s ⟨c.pos + 1, c.captured⟩ _ p hlt (search_behind hxs.left), ih hxs.right hrun,
          hdrop hsuffix]
      case neg => rw [if_neg hp, if_neg hp]; rfl

-- The match of the whole text.
theorem exists_exec_ofPieces_iff (hxs : Settled p xs) :
    (∃ c, exec (ofPieces p xs) s = some (0, c) ∧ c.pos = s.length) ↔ runPieces p xs s = some [] := by
  have hsearch := @search_ofPieces s ⟨0, 0⟩ p xs hxs (Nat.zero_le _)
  rw [List.drop_zero] at hsearch
  have hhead : (ways s (ofPieces p xs) ⟨0, 0⟩).head?.map Prod.snd = search s (ofPieces p xs) ⟨0, 0⟩ some := by
    rw [search]
    cases ways s (ofPieces p xs) ⟨0, 0⟩ <;> rfl
  rw [hsearch] at hhead
  rw [exec, List.range_succ_eq_map, List.findSome?_cons]
  cases hw : (ways s (ofPieces p xs) ⟨0, 0⟩).head?
  case some w =>
    rw [hw, Option.map_some] at hhead
    obtain ⟨t, ht, hpos⟩ := Option.map_eq_some_iff.mp hhead.symm
    rw [ht, Option.some_inj]
    constructor
    case mp  =>
      rintro ⟨c, hc, hlen⟩
      have hc : w.2 = c := congrArg Prod.snd <| Option.some.inj hc
      have hend : s.length - t.length = s.length := (congrArg Cursor.pos <| hpos.trans hc).trans hlen
      have hle := (runPieces_suffix ht).length_le
      exact List.length_eq_zero_iff.mp <| by omega
    case mpr =>
      intro hnil
      exact ⟨w.2, rfl, by rw [←hpos, hnil]; rfl⟩
  case none   =>
    rw [hw, Option.map_none] at hhead
    have hrun : runPieces p xs s = none := Option.map_eq_none_iff.mp hhead.symm
    rw [hrun]
    refine iff_of_false ?_ (by rintro ⟨⟩)
    rintro ⟨c, hc, _⟩
    -- What is found behind the start does not begin there.
    rw [Option.map_none] at hc
    obtain ⟨i, hi, hfound⟩ := List.exists_of_findSome?_eq_some hc
    obtain ⟨k, _, hk⟩ := List.mem_map.mp hi
    obtain ⟨v, _, hv⟩ := Option.map_eq_some_iff.mp hfound
    have hzero : i = 0 := congrArg Prod.fst hv
    cases hk.trans hzero

end

end Regex
