import CfEngine.Libpromises.ItemLib

namespace CfEngine

open Links

-- The comparison of a line of the chunk with an item.
def lineMatch (rx : TextMatching) (regex : Bool) : CString → CString → Bool :=
  if regex then fullTextMatch rx.full else fun buf name => buf = name

-- The lines are those at the start of the items.
def startsWith (isMatch : CString → CString → Bool) : List CString → List (Nat × CString) → Bool
  | [], _                => true
  | _ :: _, []           => false
  | buf :: more, x :: xs => isMatch buf x.2 && startsWith isMatch more xs

-- The number of lines, where they are.
def chunkLength (isMatch : CString → CString → Bool) (lines : List CString) (xs : List (Nat × CString)) : Nat :=
  if startsWith isMatch lines xs then lines.length else 0

-- One of the lines that is read does not fit into the buffer. Lines are read up to the first one that does not match,
-- where an item that `follows` is looked at, too.
def readsLong (isMatch : CString → CString → Bool) (follows : Bool) : List CString → List (Nat × CString) → Bool
  | [], _                => false
  | buf :: _, []         => follows && cfBufSize ≤ buf.length
  | buf :: more, x :: xs => cfBufSize ≤ buf.length || (isMatch buf x.2 && readsLong isMatch follows more xs)

theorem startsWith_length {isMatch : CString → CString → Bool} {lines : List CString} {xs : List (Nat × CString)}
    (h : startsWith isMatch lines xs) : lines.length ≤ xs.length := by
  induction lines generalizing xs
  case nil            => exact Nat.zero_le _
  case cons buf more ih =>
    cases xs
    case nil       => cases h
    case cons x xs => exact Nat.succ_le_succ <| ih <| (Bool.and_eq_true_iff.mp h).right

-- The item after the region, which may also be one that does not come after it.
def IsTerminator (terminator : Option Nat) (region post : List (Nat × CString)) : Prop :=
  (∀ x ∈ region, some x.1 ≠ terminator) ∧ (post ≠ [] → front post none = terminator)

theorem IsTerminator.drop {terminator : Option Nat} {region post : List (Nat × CString)}
    (h : IsTerminator terminator region post) (m : Nat) : IsTerminator terminator (region.drop m) post :=
  ⟨fun x hx => h.left x <| List.mem_of_mem_drop hx, h.right⟩

theorem IsTerminator.tail {terminator : Option Nat} {x : Nat × CString} {region post : List (Nat × CString)}
    (h : IsTerminator terminator (x :: region) post) : IsTerminator terminator region post :=
  h.drop 1

theorem isTerminator_none {region : List (Nat × CString)} : IsTerminator none region [] :=
  ⟨fun _ _ => nofun, fun h => absurd rfl h⟩

namespace Items

variable {items : Items} {p terminator : Option Nat} {pre xs post : List (Nat × CString)} {a n : Nat} {x : CString}
  {isMatch : CString → CString → Bool}

theorem deref_item (h : Chained items p (pre ++ (a, x) :: post) none) :
    items.deref (.item a) = .ok ⟨x, front post none⟩ :=
  deref_eq h.get_eq

-- `MatchRegion` looks for the lines in the items before the end of the region.
theorem matchLines_eq {lines : List CString} (h : Chained items p (pre ++ xs ++ post) none) (hne : xs ++ post ≠ [])
    (ht : IsTerminator terminator xs post) :
    items.matchLines isMatch (.ptr terminator) lines (.ptr <| front (xs ++ post) none) n =
      if readsLong isMatch (post ≠ []) lines xs then .error .bufferOverflow
      else .ok <| if startsWith isMatch lines xs then n + lines.length else 0 := by
  induction lines generalizing pre xs n
  case nil              => rfl
  case cons buf more ih =>
    rw [matchLines]
    cases xs
    case nil       =>
      cases post
      case nil         => exact absurd rfl hne
      case cons t post =>
        simp only [readsLong, startsWith, ne_eq, reduceCtorEq, not_false_eq_true, decide_true, Bool.true_and,
          decide_eq_true_eq]
        split
        case isTrue  => rfl
        case isFalse =>
          have hend : some t.1 = terminator := ht.right nofun
          rw [List.append_nil] at h
          simp [←hend, deref_item h]
    case cons x xs =>
      have hx : ItemPtr.item x.1 ≠ .ptr terminator := fun he => ht.left x List.mem_cons_self <| ItemPtr.ptr.inj he
      have hd : Chained items p (pre ++ x :: (xs ++ post)) none := by rwa [List.append_assoc] at h
      simp only [readsLong, startsWith, List.cons_append, front_cons, deref_item hd, EditOutcome.ok_bind, hx]
      by_cases hlong : cfBufSize ≤ buf.length
      case pos => simp only [hlong, reduceIte, decide_true, Bool.true_or]
      case neg =>
        by_cases hm : isMatch buf x.2
        case neg => simp [hlong, hm]
        case pos =>
          have ih := @ih (pre ++ [x]) xs (n + 1) <| by rwa [List.append_assoc, List.append_assoc, List.singleton_append]
          simp only [hlong, hm, decide_false, Bool.false_or, Bool.true_and, if_false]
          cases he : xs ++ post
          case nil  =>
            have ⟨hxs, hpost⟩ := List.append_eq_nil_iff.mp he
            rw [hxs, hpost]
            cases more <;> simp [readsLong, startsWith]
          case cons y ys =>
            rw [he] at ih
            have ih := ih nofun ht.tail
            simp only [front_cons] at ih
            have hlen : n + 1 + more.length = n + (more.length + 1) := by omega
            simp only [front_cons, not_true, if_false, List.length_cons, ItemPtr.item_ne_null, ih, hlen]

theorem matchRegion_eq {rx : TextMatching} {chunk : CString} {regex : Bool}
    (h : Chained items p (pre ++ (xs ++ post)) none) (hne : xs ++ post ≠ []) (ht : IsTerminator terminator xs post) :
    items.matchRegion rx chunk (.ptr <| front (xs ++ post) none) (.ptr terminator) regex =
      if readsLong (lineMatch rx regex) (post ≠ []) (chunk.splitOn '\n') xs then .error .bufferOverflow
      else .ok <| chunkLength (lineMatch rx regex) (chunk.splitOn '\n') xs := by
  have hmatch : items.matchRegion rx chunk _ _ regex = _ := matchLines_eq (by rwa [List.append_assoc]) hne ht
  rwa [Nat.zero_add] at hmatch

-- The lines are those of the items that come first, and the end is not among these.
def LinesAre (lines : List CString) (xs : List (Nat × CString)) (ending : ItemPtr) : Prop :=
  (xs.take lines.length).map Prod.snd = lines ∧ ∀ x ∈ xs.take lines.length, ItemPtr.item x.1 ≠ ending

instance {lines : List CString} {ending : ItemPtr} : Decidable (LinesAre lines xs ending) := by
  unfold LinesAre
  infer_instance

theorem linesAre_cons {buf : CString} {more : List CString} {ending : ItemPtr} :
    LinesAre (buf :: more) ((a, x) :: xs) ending ↔ (x = buf ∧ ItemPtr.item a ≠ ending) ∧ LinesAre more xs ending := by
  simp only [LinesAre, List.length_cons, List.take_succ_cons, List.map_cons, List.cons.injEq, List.forall_mem_cons]
  exact and_and_and_comm

-- The end may also be an item that does not come behind the start.
theorem matchLines_literal {lines : List CString} {ending : ItemPtr} (h : Chained items p (pre ++ xs) none)
    (hlines : ∀ line ∈ lines, line.length < cfBufSize) :
    items.matchLines (fun buf name => buf = name) ending lines (.ptr <| front xs none) n =
      .ok (if LinesAre lines xs ending then n + lines.length else 0) := by
  induction lines generalizing pre xs n
  case nil              =>
    have hnil : LinesAre [] xs ending := ⟨rfl, by simp⟩
    rw [matchLines, if_pos hnil]
    rfl
  case cons buf more ih =>
    have hfits : ¬cfBufSize ≤ buf.length := Nat.not_le.mpr <| hlines buf List.mem_cons_self
    have hmore : ∀ line ∈ more, line.length < cfBufSize := fun line hl => hlines line <| List.mem_cons_of_mem _ hl
    rw [matchLines, if_neg hfits]
    cases xs
    case nil       =>
      have hnone : ¬LinesAre (buf :: more) [] ending := fun h => nomatch h.left
      rw [front_nil, if_pos rfl, if_neg hnone]
    case cons y xs =>
      obtain ⟨b, y⟩ := y
      rw [front_cons, if_neg ItemPtr.item_ne_null, deref_item h, EditOutcome.ok_bind]
      by_cases hbuf : buf = y
      case neg =>
        have hne : ¬LinesAre (buf :: more) ((b, y) :: xs) ending := fun h => hbuf (linesAre_cons.mp h).left.left.symm
        rw [if_neg hne, if_pos (by simpa using hbuf)]
      case pos =>
        rw [if_neg (by simpa using hbuf)]
        by_cases hend : ItemPtr.item b = ending
        case pos =>
          have hne : ¬LinesAre (buf :: more) ((b, y) :: xs) ending := fun h => (linesAre_cons.mp h).left.right hend
          rw [if_neg hne, if_pos hend]
        case neg =>
          have hiff : LinesAre (buf :: more) ((b, y) :: xs) ending ↔ LinesAre more xs ending :=
            linesAre_cons.trans <| and_iff_right ⟨hbuf.symm, hend⟩
          rw [if_neg hend, if_congr hiff rfl rfl]
          cases xs
          case nil       =>
            cases more
            case nil  => rfl
            case cons =>
              have hnone {l : CString} {ls : List CString} : ¬LinesAre (l :: ls) [] ending := fun h => nomatch h.left
              rw [if_neg hnone]
              rfl
          case cons z xs =>
            have hchain : Chained items p ((pre ++ [(b, y)]) ++ z :: xs) none := by
              rwa [List.append_assoc, List.singleton_append]
            rw [List.length_cons, Nat.add_comm more.length, ←Nat.add_assoc]
            exact ih hchain hmore

theorem matchRegion_literal (rx : TextMatching) (chunk : CString) (ending : ItemPtr) (h : Chained items p (pre ++ xs) none)
    (hlines : ∀ line ∈ chunk.splitOn '\n', line.length < cfBufSize) :
    items.matchRegion rx chunk (.ptr <| front xs none) ending false =
      .ok (if LinesAre (chunk.splitOn '\n') xs ending then (chunk.splitOn '\n').length else 0) := by
  have hmatch : items.matchRegion rx chunk (.ptr <| front xs none) ending false = _ := matchLines_literal h hlines
  rwa [Nat.zero_add] at hmatch

def twoLines : Items :=
  [some ⟨"one".toList, some 1⟩, some ⟨"two".toList, none⟩]

theorem chained_twoLines : Chained twoLines (some 0) ([] ++ [(0, "one".toList), (1, "two".toList)]) none :=
  ⟨rfl, rfl, rfl, rfl, rfl⟩

theorem matchRegion_twoLines :
    twoLines.matchRegion literally "one\ntwo".toList (.item 0) .null false = .ok 2 :=
  (matchRegion_literal literally "one\ntwo".toList .null chained_twoLines (by decide)).trans <|
    congrArg Except.ok <| if_pos <| by decide

end Items
end CfEngine
