import CfEngine.Libpromises.Matching.MatchPolicy
import CfEngine.Libpromises.Matching.PolicyPieces

namespace CfEngine

open Regex WhitespacePolicy

-- The characters that mean something in an expression wherever they are, but for the two that are escaped.
def isMeta (c : Char) : Bool :=
  c ∈ ['\\', '^', '$', '[', '|', '(', ')', '?', '+']

def pieceText : Piece → CString
  | .lit c => if c = '.' ∨ c = '*' then ['\\', c] else [c]
  | .star  => anySpace
  | .plus  => someSpace

def piecesText (xs : List Piece) : CString :=
  xs.flatMap pieceText

-- The expression for a line under the policies.
def policyText (policies : List InsertMatchType) (l : CString) : CString :=
  piecesText <| policyPieces policies l

-- What the loop makes of the text between the first and the last character.
def embedRuns : CString → CString
  | []     => []
  | c :: s => if isspace c then someSpace ++ embedRuns (s.dropWhile isspace) else c :: embedRuns s
  termination_by s => s.length
  decreasing_by
    · exact Nat.lt_succ_of_le (List.dropWhile_suffix isspace).length_le
    · exact Nat.lt_succ_self _

section
variable {x y lead core trail u s : CString} {c : Char} {policies : List InsertMatchType} {xs ys : List Piece}
  {firstchar lastchar i j : Nat}

theorem piecesText_append : piecesText (xs ++ ys) = piecesText xs ++ piecesText ys :=
  List.flatMap_append

theorem piecesText_cons {z : Piece} : piecesText (z :: xs) = pieceText z ++ piecesText xs :=
  List.flatMap_cons

theorem pieceText_space (hc : isspace c) : pieceText (.lit c) = [c] := by
  rw [pieceText, if_neg]
  rintro (rfl | rfl) <;> exact absurd hc (by decide)

theorem piecesText_spaces (hu : ∀ c ∈ u, isspace c) : piecesText (u.map .lit) = u := by
  induction u
  case nil         => rfl
  case cons c u ih =>
    have hc := pieceText_space <| hu c List.mem_cons_self
    rw [List.map_cons, piecesText_cons, hc, ih fun d hd => hu d <| List.mem_cons_of_mem _ hd]
    rfl

theorem length_pieceText (z : Piece) : (pieceText z).length ≤ 3 := by
  cases z
  case lit c =>
    rw [pieceText]
    split <;> simp
  all_goals decide

theorem length_piecesText : (piecesText xs).length ≤ 3 * xs.length := by
  induction xs
  case nil          => exact Nat.zero_le _
  case cons z xs ih =>
    have hz := length_pieceText z
    rw [piecesText_cons, List.length_append, List.length_cons]
    omega

theorem length_squeezePieces : (squeezePieces x).length ≤ x.length := by
  induction x using squeeze_induction
  case nil             => rw [squeezePieces]; exact Nat.le_refl _
  case space c x hc ih =>
    have hle := (List.dropWhile_suffix (l := x) isspace).length_le
    rw [squeezePieces, if_pos hc, List.length_cons, List.length_cons]
    omega
  case char c x hc ih  =>
    rw [squeezePieces, if_neg hc, List.length_cons, List.length_cons]
    omega

theorem length_parts (x : CString) : (leadOf x).length + (coreOf x).length + (trailOf x).length = x.length := by
  cases blank_or_framed x
  case inl hx =>
    have ⟨hlead, hcore, htrail⟩ := parts_blank hx
    rw [hlead, hcore, htrail]
    rfl
  case inr hx =>
    have h := congrArg List.length hx.right
    rw [List.length_append, List.length_append] at h
    omega

theorem length_policyText (policies : List InsertMatchType) (x : CString) :
    (policyText policies x).length ≤ 3 * x.length + 6 := by
  have hparts := length_parts x
  have hsqueeze := @length_squeezePieces (coreOf x)
  have houter {p : Prop} [Decidable p] {u : CString} : (if p then [.star] else u.map Piece.lit).length ≤ u.length + 1 := by
    split
    case isTrue  => exact Nat.le_add_left ..
    case isFalse => rw [List.length_map]; exact Nat.le_succ _
  have hcore {p : Prop} [Decidable p] :
      (if p then squeezePieces (coreOf x) else (coreOf x).map .lit).length ≤ (coreOf x).length := by
    split
    case isTrue  => exact hsqueeze
    case isFalse => rw [List.length_map]
  have hlead := @houter (.ignoreLeading ∈ policies) _ (leadOf x)
  have htrail := @houter (.ignoreTrailing ∈ policies) _ (trailOf x)
  have hcore := @hcore (.ignoreEmbedded ∈ policies) _
  refine length_piecesText.trans ?_
  rw [policyPieces, List.length_append, List.length_append]
  omega

-- Escaping.
theorem escapeRegexChars_eq {strEscSz strEscPos : Nat} (h : strEscPos + 2 * x.length + 2 ≤ strEscSz) :
    escapeRegexChars strEscSz strEscPos x = piecesText (x.map .lit) := by
  induction x generalizing strEscPos
  case nil         => rfl
  case cons c x ih =>
    rw [List.length_cons] at h
    rw [escapeRegexChars, if_neg (by omega), List.map_cons, piecesText_cons, pieceText]
    split
    case isTrue  => rw [ih (by omega)]; rfl
    case isFalse => rw [ih (by omega)]; rfl

theorem policyPieces_nil (x : CString) : policyPieces [] x = x.map .lit := by
  rw [policyPieces, if_neg List.not_mem_nil, if_neg List.not_mem_nil, if_neg List.not_mem_nil, ←List.map_append,
    ←List.map_append]
  cases blank_or_framed x
  case inl hx =>
    obtain ⟨hlead, hcore, htrail⟩ := parts_blank hx
    rw [hlead, hcore, htrail, List.append_nil, List.append_nil]
  case inr hx => rw [←hx.right]

-- A piece that is not a white space has a text that neither starts nor ends with one.
theorem isCore_pieceText {z : Piece} (hz : ∀ c, z = .lit c → ¬isspace c) : IsCore (pieceText z) := by
  cases z
  case lit c =>
    have hc := hz c rfl
    rw [pieceText]
    split
    case isTrue  =>
      refine ⟨List.cons_ne_nil _ _, fun d hd => ?_, fun d hd => ?_⟩
      case refine_1 =>
        obtain rfl := Option.some.inj hd
        decide
      case refine_2 =>
        obtain rfl := Option.some.inj hd
        exact hc
    case isFalse =>
      refine ⟨List.cons_ne_nil _ _, fun d hd => ?_, fun d hd => ?_⟩
      all_goals
        obtain rfl := Option.some.inj hd
        exact hc
  all_goals exact ⟨List.cons_ne_nil _ _, fun d hd => Option.some.inj hd ▸ by decide, fun d hd => Option.some.inj hd ▸ by decide⟩

theorem starts_piecesText (hxs : ∀ z ∈ xs.head?, ∀ c, z = .lit c → ¬isspace c) :
    ∀ c ∈ (piecesText xs).head?, ¬isspace c := by
  cases xs
  case nil       => nofun
  case cons z xs =>
    have hz := isCore_pieceText <| hxs z rfl
    intro c hc
    rw [piecesText_cons, hz.head?_append] at hc
    exact hz.first c hc

theorem ends_piecesText (hxs : ∀ z ∈ xs.getLast?, ∀ c, z = .lit c → ¬isspace c) :
    ∀ c ∈ (piecesText xs).getLast?, ¬isspace c := by
  cases List.eq_nil_or_concat' xs
  case inl h =>
    rw [h]
    nofun
  case inr h =>
    obtain ⟨ys, z, rfl⟩ := h
    have hz := isCore_pieceText <| hxs z List.getLast?_concat
    have htext : piecesText (ys ++ [z]) = piecesText ys ++ pieceText z := by
      rw [piecesText_append, piecesText, piecesText, List.flatMap_singleton]
    intro c hc
    rw [htext, List.getLast?_append_of_ne_nil _ hz.ne_nil] at hc
    exact hz.last c hc

-- The text of what is between the white space around a line.
def coreText (ignored : Prop) [Decidable ignored] (core : CString) : CString :=
  piecesText <| if ignored then squeezePieces core else core.map .lit

theorem isCore_coreText {p : Prop} [Decidable p] (h : IsCore core) : IsCore (coreText p core) := by
  have ⟨_, hlast, hhead⟩ := @settled_core _ p _ h
  have ⟨c, t, hc⟩ := List.exists_cons_of_ne_nil h.ne_nil
  refine ⟨?_, starts_piecesText fun z hz d hd => ?_, ends_piecesText fun z hz d hd => ?_⟩
  case refine_1 =>
    rw [hc, List.head?_cons, Option.map_some, ←hc] at hhead
    have ⟨ys, hys⟩ := List.head?_eq_some_iff.mp hhead
    rw [coreText, hys, piecesText_cons, pieceText]
    split <;> exact List.cons_ne_nil _ _
  case refine_2 =>
    rw [hhead] at hz
    have ⟨e, he, hez⟩ := Option.map_eq_some_iff.mp hz
    obtain rfl := Piece.lit.inj <| hez.trans hd
    exact h.first e he
  case refine_3 =>
    have ⟨e, hez, he⟩ := hlast z hz
    obtain rfl := Piece.lit.inj <| hez.symm.trans hd
    exact he

-- The texts of the three parts.
theorem Framed.policyText_eq (h : Framed lead core trail) : policyText policies (lead ++ (core ++ trail)) =
    (if .ignoreLeading ∈ policies then anySpace else lead) ++
      (coreText (.ignoreEmbedded ∈ policies) core ++ if .ignoreTrailing ∈ policies then anySpace else trail) := by
  have houter {p : Prop} [Decidable p] {u : CString} (hu : ∀ c ∈ u, isspace c) :
      piecesText (if p then [.star] else u.map .lit) = if p then anySpace else u := by
    split
    case isTrue  => rfl
    case isFalse => exact piecesText_spaces hu
  rw [policyText, h.policyPieces_eq, piecesText_append, piecesText_append, houter h.lead, houter h.trail, coreText]

theorem policyText_blank (hl : ∀ c ∈ x, isspace c) (ht : .ignoreTrailing ∉ policies) :
    policyText policies x = if .ignoreLeading ∈ policies then anySpace else x := by
  rw [policyText, policyPieces_blank hl, if_neg ht, List.append_nil]
  split
  case isTrue  => rfl
  case isFalse => exact piecesText_spaces hl

theorem not_isMeta_space (hc : isspace c) : ¬isMeta c := by
  intro hmeta
  have hall : ∀ d ∈ ['\\', '^', '$', '[', '|', '(', ')', '?', '+'], ¬isspace d := by decide
  exact hall c (of_decide_eq_true hmeta) hc

-- What is written for any white space does not occur in the text of a line.
def Plain (xs : List Piece) : Prop :=
  ∀ z ∈ xs, z ≠ .star ∧ ∀ c, z = .lit c → ¬isMeta c

theorem not_infix_anySpace (hxs : Plain xs) : ¬anySpace <:+: piecesText xs := by
  induction xs
  case nil          => exact fun h => nomatch List.eq_nil_of_infix_nil h
  case cons z xs ih =>
    have ih := ih fun y hy => hxs y <| List.mem_cons_of_mem _ hy
    have ⟨hstar, hmeta⟩ := hxs z List.mem_cons_self
    rw [piecesText_cons]
    cases z
    case star  => exact absurd rfl hstar
    case plus  =>
      simp only [pieceText, someSpace, List.cons_append, List.nil_append, List.infix_cons_iff, anySpace] at ih ⊢
      simp [ih]
    case lit c =>
      have hc := hmeta c rfl
      rw [pieceText]
      split
      case isTrue hesc =>
        have hs : c ≠ 's' ∧ c ≠ '\\' := by
          rcases hesc with (rfl | rfl) <;> decide
        simp only [List.cons_append, List.nil_append, List.infix_cons_iff, anySpace] at ih ⊢
        simp [ih, hs.left.symm, hs.right.symm]
      case isFalse     =>
        have hs : c ≠ '\\' := by
          rintro rfl
          exact hc (by decide)
        simp only [List.cons_append, List.nil_append, List.infix_cons_iff, anySpace] at ih ⊢
        simp [ih, hs.symm]

-- Leading white space.
theorem not_anySpace_spaces (hu : ∀ c ∈ u, isspace c) (hx : ¬anySpace <+: x) : ¬anySpace <+: u ++ x := by
  cases u
  case nil      => exact hx
  case cons c u =>
    intro h
    have ⟨hc, _⟩ := List.cons_prefix_cons.mp h
    exact absurd (hu c List.mem_cons_self) <| hc ▸ by decide

theorem ignoreLeading_spaces (hu : ∀ c ∈ u, isspace c) (hx : ∀ c ∈ x.head?, ¬isspace c) (hnot : ¬anySpace <+: x)
    (hlen : x.length + 4 ≤ cfBufSize) : ignoreLeading (u ++ x) = anySpace ++ x := by
  have hnot := not_anySpace_spaces hu hnot
  rw [ignoreLeading, if_neg fun h => hnot <| List.prefix_iff_eq_take.mpr h.symm, (dropWhile_spaces hu hx).left,
    List.take_of_length_le]
  have hspace : anySpace.length = 3 := rfl
  rw [List.length_append]
  omega

-- Trailing white space.
theorem ignoreTrailing_eq (hlen : 4 ≤ x.length) (hnot : ¬anySpace <+: x.drop (x.length - 4))
    (hbuf : x.length + 4 ≤ cfBufSize) : ignoreTrailing x = .ok (x ++ anySpace) := by
  rw [ignoreTrailing, if_neg (by omega), if_neg fun h => hnot <| List.prefix_iff_eq_take.mpr h.symm, List.take_of_length_le]
  have hspace : anySpace.length = 3 := rfl
  rw [List.length_append]
  omega

-- Embedded white space. What is behind the end of a run does not belong to it.
theorem takeWhile_stop (hy : ∀ c ∈ y.head?, ¬isspace c) : (x ++ y).takeWhile isspace = x.takeWhile isspace ∧
    (x ++ y).dropWhile isspace = x.dropWhile isspace ++ y := by
  have hspaces : ∀ c ∈ x.takeWhile isspace, isspace c := fun c hc => List.mem_takeWhile_imp hc
  have hstop : ∀ c ∈ (x.dropWhile isspace ++ y).head?, ¬isspace c := by
    cases hx : x.dropWhile isspace
    case nil      => exact hy
    case cons d t =>
      have hstarts := starts_dropWhile x
      rw [hx] at hstarts
      exact hstarts
  have h := dropWhile_spaces hspaces hstop
  rw [←List.append_assoc, List.takeWhile_append_dropWhile] at h
  exact h.symm

theorem embedRuns_cons_space (hc : isspace c) : embedRuns (c :: x) = someSpace ++ embedRuns (x.dropWhile isspace) := by
  rw [embedRuns, if_pos hc]

theorem embedRuns_cons (hc : ¬isspace c) : embedRuns (c :: x) = c :: embedRuns x := by
  rw [embedRuns, if_neg hc]

theorem embedRuns_append (hy : ∀ c ∈ y.head?, ¬isspace c) : embedRuns (x ++ y) = embedRuns x ++ embedRuns y := by
  induction x using squeeze_induction
  case nil             =>
    rw [embedRuns]
    rfl
  case space c x hc ih =>
    rw [List.cons_append, embedRuns_cons_space hc, embedRuns_cons_space hc, (takeWhile_stop hy).right, ih, List.append_assoc]
  case char c x hc ih  =>
    rw [List.cons_append, embedRuns_cons hc, embedRuns_cons hc, ih, List.cons_append]

theorem embedRuns_solid_append (hx : ∀ c ∈ x, ¬isspace c) : embedRuns (x ++ y) = x ++ embedRuns y := by
  induction x
  case nil         => rfl
  case cons c x ih =>
    rw [List.cons_append, embedRuns_cons <| hx c List.mem_cons_self, ih fun d hd => hx d <| List.mem_cons_of_mem _ hd,
      List.cons_append]

theorem pieceText_solid (hc : ¬isspace c) : ∀ d ∈ pieceText (.lit c), ¬isspace d := by
  intro d hd
  rw [pieceText] at hd
  split at hd
  case isTrue  =>
    rcases List.mem_pair.mp hd with (rfl | rfl)
    case inl => decide
    case inr => exact hc
  case isFalse => exact List.mem_singleton.mp hd ▸ hc

-- A line is escaped first. What that leaves of its white space is the same.
theorem embedRuns_lits : embedRuns (piecesText (x.map .lit)) = piecesText (squeezePieces x) := by
  induction x using squeeze_induction
  case nil             =>
    rw [squeezePieces]
    exact embedRuns.eq_1
  case space c x hc ih =>
    have hsplit : x = x.takeWhile isspace ++ x.dropWhile isspace := List.takeWhile_append_dropWhile.symm
    have htext : piecesText (x.map .lit) = x.takeWhile isspace ++ piecesText ((x.dropWhile isspace).map .lit) := by
      have hspaces := @piecesText_spaces (x.takeWhile isspace) fun d hd => List.mem_takeWhile_imp hd
      conv => lhs; rw [hsplit, List.map_append, piecesText_append, hspaces]
    have hstop : ∀ d ∈ (piecesText ((x.dropWhile isspace).map .lit)).head?, ¬isspace d := by
      refine starts_piecesText fun z hz d hd => ?_
      rw [List.head?_map] at hz
      obtain ⟨e, he, hez⟩ := Option.map_eq_some_iff.mp hz
      obtain rfl := Piece.lit.inj <| hez.trans hd
      exact starts_dropWhile x e he
    rw [List.map_cons, piecesText_cons, pieceText_space hc, List.singleton_append, embedRuns_cons_space hc, htext,
      (dropWhile_spaces (fun d hd => List.mem_takeWhile_imp hd) hstop).left, ih, squeezePieces, if_pos hc, piecesText_cons]
    rfl
  case char c x hc ih  =>
    rw [List.map_cons, piecesText_cons, squeezePieces, if_neg hc, piecesText_cons, ←ih, embedRuns_solid_append <| pieceText_solid hc]

theorem embeddedLoop_before (h : i + x.length ≤ firstchar + 1) :
    embeddedLoop firstchar lastchar i (x ++ y) = x ++ embeddedLoop firstchar lastchar (i + x.length) y := by
  induction x generalizing i
  case nil         => rfl
  case cons c x ih =>
    rw [List.length_cons] at h
    rw [List.cons_append, embeddedLoop, if_neg (by omega), ih (by omega), List.length_cons, List.cons_append, Nat.add_assoc,
      Nat.add_comm 1]

theorem embeddedLoop_behind (h : lastchar ≤ i) : embeddedLoop firstchar lastchar i x = x := by
  induction x generalizing i
  case nil         => rw [embeddedLoop]
  case cons c x ih => rw [embeddedLoop, if_neg (by omega), ih (by omega)]

theorem embeddedLoop_between (hfirst : firstchar < i) (hlast : i + x.length = lastchar) (hc : ¬isspace c) :
    embeddedLoop firstchar lastchar i (x ++ c :: y) = embedRuns x ++ c :: y := by
  have hstop : ∀ d ∈ (c :: y).head?, ¬isspace d := fun d hd => Option.some.inj hd ▸ hc
  induction x using squeeze_induction generalizing i
  case nil             =>
    rw [embedRuns]
    exact embeddedLoop_behind <| Nat.le_of_eq hlast.symm
  case space d x hd ih =>
    have hlen : (x.takeWhile isspace).length + (x.dropWhile isspace).length = x.length := by
      rw [←List.length_append, List.takeWhile_append_dropWhile]
    have ⟨htake, hdrop⟩ := @takeWhile_stop x (c :: y) hstop
    rw [List.length_cons] at hlast
    rw [List.cons_append, embeddedLoop, if_pos ⟨hfirst, by omega, hd⟩, htake, hdrop, ih (by omega) (by omega),
      embedRuns_cons_space hd, List.append_assoc]
  case char d x hd ih  =>
    rw [List.length_cons] at hlast
    rw [List.cons_append, embeddedLoop, if_neg fun h => hd h.right.right, ih (by omega) (by omega), embedRuns_cons hd,
      List.cons_append]

-- The loop from the end stops at the last character that is not white space.
theorem lastcharLoop_eq {final : CString} (hj : firstchar ≤ j) (hij : j ≤ i) (hspace : ∀ k, j < k → k ≤ i → final[k]?.any isspace)
    (hstop : ¬final[j]?.any isspace) : lastcharLoop final firstchar i = j := by
  induction i
  case zero      => exact (Nat.le_zero.mp hij).symm
  case succ i ih =>
    rw [lastcharLoop]
    by_cases he : j = i + 1
    case pos => rw [if_neg fun h => hstop <| he ▸ h.right, he]
    case neg =>
      rw [if_pos ⟨by omega, hspace _ (by omega) (Nat.le_refl _)⟩]
      exact ih (by omega) fun k hjk hki => hspace k hjk (by omega)

-- What is left of the line if it starts or ends with a character that is not white space.
theorem lastcharLoop_framed (h : Framed lead core trail) :
    lastcharLoop (lead ++ (core ++ trail)) lead.length ((lead ++ (core ++ trail)).length - 1) =
      lead.length + core.length - 1 := by
  have hpos := List.length_pos_iff.mpr h.core.ne_nil
  have hlen : (lead ++ (core ++ trail)).length = lead.length + core.length + trail.length := by
    rw [List.length_append, List.length_append, Nat.add_assoc]
  refine lastcharLoop_eq (by omega) (by omega) (fun k hk hki => ?_) ?_
  case refine_1 =>
    rw [←List.append_assoc, List.getElem?_append_right (by rw [List.length_append]; omega), List.length_append]
    have hlt : k - (lead.length + core.length) < trail.length := by omega
    rw [List.getElem?_eq_getElem hlt]
    exact h.trail _ <| List.getElem_mem hlt
  case refine_2 =>
    rw [List.getElem?_append_right (by omega), List.getElem?_append_left (by omega)]
    have hlast := List.getLast?_eq_getElem? (l := core)
    have hindex : lead.length + core.length - 1 - lead.length = core.length - 1 := by omega
    rw [hindex, ←hlast, List.getLast?_eq_some_getLast h.core.ne_nil]
    exact h.core.last _ <| List.getLast?_eq_some_getLast h.core.ne_nil

theorem ignoreEmbedded_framed (h : Framed lead core trail)
    (hlen : (lead ++ (embedRuns core ++ trail)).length < cfBufSize) :
    ignoreEmbedded (lead ++ (core ++ trail)) = .ok (lead ++ (embedRuns core ++ trail)) := by
  have hloop : embeddedLoop lead.length (lead.length + core.length - 1) 0 (lead ++ (core ++ trail)) =
      lead ++ (embedRuns core ++ trail) := by
    have ⟨c, t, hc⟩ := List.exists_cons_of_ne_nil h.core.ne_nil
    have hfirst := h.core.first c <| hc ▸ rfl
    have hlead : (lead ++ [c]).length = lead.length + 1 := List.length_append
    have hsplit : lead ++ (core ++ trail) = lead ++ [c] ++ (t ++ trail) := by
      rw [hc, List.append_assoc]
      rfl
    rw [hsplit, embeddedLoop_before (by omega), hlead, hc, embedRuns_cons hfirst]
    cases List.eq_nil_or_concat' t
    case inl ht =>
      rw [ht, List.nil_append, embeddedLoop_behind (by rw [List.length_singleton]; omega), embedRuns, List.append_assoc]
    case inr ht =>
      obtain ⟨m, e, rfl⟩ := ht
      have he : ¬isspace e := h.core.last e <| by
        rw [hc, ←List.cons_append]
        exact List.getLast?_concat
      have hstop : ∀ d ∈ [e].head?, ¬isspace d := fun d hd => Option.some.inj hd ▸ he
      have hruns : embedRuns (m ++ [e]) = embedRuns m ++ [e] := by
        rw [embedRuns_append hstop, embedRuns_cons he, embedRuns]
      have hlast : 0 + (lead.length + 1) + m.length = lead.length + (c :: (m ++ [e])).length - 1 := by
        rw [List.length_cons, List.length_append, List.length_singleton]
        omega
      have hbetween := @embeddedLoop_between m trail e lead.length _ _ (by omega) hlast he
      have hend : m ++ [e] ++ trail = m ++ e :: trail := List.append_assoc ..
      rw [hend, hbetween, hruns]
      simp only [List.append_assoc, List.cons_append, List.nil_append]
  rw [ignoreEmbedded, h.dropWhile_eq.right, lastcharLoop_framed h, hloop]
  exact if_neg <| Nat.not_le.mpr hlen

theorem ignoreEmbedded_blank (hl : ∀ c ∈ x, isspace c) (hlen : x.length < cfBufSize) : ignoreEmbedded x = .ok x := by
  have hfirst : x.takeWhile isspace = x := List.takeWhile_eq_self_iff.mpr hl
  have hloop := @embeddedLoop_before x [] x.length (lastcharLoop x x.length (x.length - 1)) 0 (by omega)
  rw [List.append_nil, embeddedLoop, List.append_nil] at hloop
  rw [ignoreEmbedded, hfirst, hloop]
  exact if_neg <| Nat.not_le.mpr hlen

-- The length of the line once it has been escaped.
def escapedLength (x : CString) : Nat :=
  x.length + x.countP fun c => c = '.' ∨ c = '*'

-- The line ends where its trailing white space would be, and is long enough for the comparison of its end.
def EndReached (before : List InsertMatchType) (l : CString) : Prop :=
  (∃ c ∈ l.getLast?, ¬isspace c) ∧
    if .ignoreLeading ∈ before then 2 ≤ escapedLength (coreOf l)
    else 4 ≤ escapedLength l ∨ .ignoreEmbedded ∈ before ∧ ∃ c ∈ coreOf l, isspace c

theorem length_pieceText_lit : (pieceText (.lit c)).length = escapedLength [c] := by
  rw [pieceText, escapedLength]
  split
  case isTrue h  => simp [h]
  case isFalse h => simp [h]

theorem escapedLength_append : escapedLength (x ++ y) = escapedLength x + escapedLength y := by
  rw [escapedLength, escapedLength, escapedLength, List.length_append, List.countP_append]
  omega

theorem length_lits : (piecesText (x.map .lit)).length = escapedLength x := by
  induction x
  case nil         => rfl
  case cons c x ih =>
    have hcons := @escapedLength_append [c] x
    rw [List.map_cons, piecesText_cons, List.length_append, ih, length_pieceText_lit, ←hcons, List.singleton_append]

theorem squeezePieces_solid (hx : ∀ c ∈ x, ¬isspace c) : squeezePieces x = x.map .lit := by
  induction x
  case nil         => rw [squeezePieces]; rfl
  case cons c x ih =>
    rw [squeezePieces, if_neg <| hx c List.mem_cons_self, ih fun d hd => hx d <| List.mem_cons_of_mem _ hd, List.map_cons]

theorem length_squeezePieces_pos (hx : x ≠ []) : 0 < (piecesText (squeezePieces x)).length := by
  have ⟨c, t, hc⟩ := List.exists_cons_of_ne_nil hx
  have hpos (z : Piece) : 0 < (pieceText z).length := by
    cases z
    case lit c =>
      rw [pieceText]
      split <;> exact Nat.zero_lt_succ _
    all_goals exact Nat.zero_lt_succ _
  rw [hc, squeezePieces]
  split
  all_goals
    rw [piecesText_cons, List.length_append]
    exact Nat.lt_of_lt_of_le (hpos _) <| Nat.le_add_right ..

-- A run within the line is written with three characters.
theorem length_squeezePieces_run (hx : ∀ d ∈ x.getLast?, ¬isspace d) (hrun : ∃ c ∈ x, isspace c) :
    4 ≤ (piecesText (squeezePieces x)).length := by
  induction x using squeeze_induction
  case nil             => obtain ⟨_, ⟨⟩, _⟩ := hrun
  case space c x hc _  =>
    have hpos := length_squeezePieces_pos (ends_dropWhile hx hc).left
    have hplus : (pieceText .plus).length = 3 := rfl
    rw [squeezePieces, if_pos hc, piecesText_cons, List.length_append]
    omega
  case char c x hc ih  =>
    obtain ⟨d, hd, hspace⟩ := hrun
    have hd : d ∈ x := (List.mem_cons.mp hd).resolve_left fun he => hc <| he ▸ hspace
    have ih := ih (ends_cons hx) ⟨d, hd, hspace⟩
    rw [squeezePieces, if_neg hc, piecesText_cons, List.length_append]
    omega

theorem length_coreText {p : Prop} [Decidable p] (h : IsCore core) :
    (coreText p core).length = escapedLength core ∨ p ∧ 4 ≤ (coreText p core).length := by
  by_cases hp : p
  case neg => exact .inl <| by rw [coreText, if_neg hp, length_lits]
  case pos =>
    rw [coreText, if_pos hp]
    by_cases hrun : ∃ c ∈ core, isspace c
    case pos => exact .inr ⟨hp, length_squeezePieces_run h.last hrun⟩
    case neg =>
      have hsolid : ∀ c ∈ core, ¬isspace c := fun c hc hspace => hrun ⟨c, hc, hspace⟩
      exact .inl <| by rw [squeezePieces_solid hsolid, length_lits]

theorem escapedLength_spaces (hu : ∀ c ∈ u, isspace c) : escapedLength u = u.length := by
  rw [←length_lits, piecesText_spaces hu]

theorem length_before (h : Framed lead core trail) (hreached : EndReached policies (lead ++ (core ++ trail))) :
    trail = [] ∧ 4 ≤ ((if .ignoreLeading ∈ policies then anySpace else lead) ++
      coreText (.ignoreEmbedded ∈ policies) core).length ∧
      (.ignoreLeading ∈ policies → 2 ≤ (coreText (.ignoreEmbedded ∈ policies) core).length) := by
  have ⟨⟨c, hc, hspace⟩, hlong⟩ := hreached
  have htrail : trail = [] := by
    by_contra hne
    rw [←List.append_assoc, List.getLast?_append_of_ne_nil _ hne] at hc
    exact hspace <| h.trail c <| List.mem_of_getLast? hc
  have hcore := @length_coreText _ (.ignoreEmbedded ∈ policies) _ h.core
  have hany : anySpace.length = 3 := rfl
  refine ⟨htrail, ?_⟩
  rw [h.coreOf_eq, htrail, List.append_nil, escapedLength_append, escapedLength_spaces h.lead] at hlong
  by_cases hp : .ignoreLeading ∈ policies
  case pos =>
    rw [if_pos hp] at hlong
    rw [if_pos hp, List.length_append]
    omega
  case neg =>
    rw [if_neg hp] at hlong
    refine ⟨?_, fun h => absurd h hp⟩
    rw [if_neg hp, List.length_append]
    cases hlong
    case inl hlong => omega
    case inr hrun  =>
      have hlen := length_squeezePieces_run h.core.last hrun.right
      rw [coreText, if_pos hrun.left]
      omega

theorem plain_core {p : Prop} [Decidable p] (hmeta : ∀ c ∈ core, ¬isMeta c) :
    Plain (if p then squeezePieces core else core.map .lit) := by
  split
  case isFalse =>
    intro z hz
    obtain ⟨c, hc, he⟩ := List.mem_map.mp hz
    exact ⟨he ▸ (by rintro ⟨⟩), fun d hd => Piece.lit.inj (he.trans hd) ▸ hmeta c hc⟩
  case isTrue  =>
    induction core using squeeze_induction
    case nil                =>
      rw [squeezePieces]
      rintro _ ⟨⟩
    case space c core hc ih =>
      have ih := ih fun d hd => hmeta d <| List.mem_cons_of_mem _ <| (List.dropWhile_suffix isspace).subset hd
      rw [squeezePieces, if_pos hc]
      exact List.forall_mem_cons.mpr ⟨⟨by rintro ⟨⟩, fun _ he => by cases he⟩, ih⟩
    case char c core hc ih  =>
      have ih := ih fun d hd => hmeta d <| List.mem_cons_of_mem _ hd
      rw [squeezePieces, if_neg hc]
      exact List.forall_mem_cons.mpr ⟨⟨by rintro ⟨⟩, fun d hd => Piece.lit.inj hd ▸ hmeta c List.mem_cons_self⟩, ih⟩

theorem not_anySpace_begins {p : Prop} [Decidable p] (h : IsCore core) (hmeta : ∀ c ∈ core, ¬isMeta c) :
    ¬anySpace <+: coreText p core ++ y := by
  have ⟨_, _, hhead⟩ := @settled_core _ p _ h
  have ⟨c, t, hc⟩ := List.exists_cons_of_ne_nil h.ne_nil
  have hplain : c ≠ '\\' := by
    rintro rfl
    exact hmeta _ (hc ▸ List.mem_cons_self) (by decide)
  rw [hc, List.head?_cons, Option.map_some, ←hc] at hhead
  have ⟨ys, hys⟩ := List.head?_eq_some_iff.mp hhead
  rw [coreText, hys, piecesText_cons, pieceText]
  split
  case isTrue hesc =>
    have hs : c ≠ 's' := by
      rcases hesc with (rfl | rfl) <;> decide
    simp [anySpace, hs.symm]
  case isFalse     => simp [anySpace, hplain.symm]

-- Text without white space around what is between.
theorem IsCore.between {a b : CString} (h : IsCore core) (ha : ∀ c ∈ a, ¬isspace c) (hb : ∀ c ∈ b, ¬isspace c) :
    IsCore (a ++ (core ++ b)) := by
  have hcore : IsCore (core ++ b) := by
    cases List.eq_nil_or_concat' b
    case inl hnil => rwa [hnil, List.append_nil]
    case inr hend =>
      obtain ⟨t, e, rfl⟩ := hend
      refine ⟨List.append_ne_nil_of_left_ne_nil h.ne_nil _, fun c hc => h.first c <| h.head?_append ▸ hc, fun c hc => ?_⟩
      rw [←List.append_assoc, List.getLast?_concat] at hc
      exact hb c <| Option.some.inj hc ▸ List.mem_append_right _ List.mem_cons_self
  cases a
  case nil      => exact hcore
  case cons d t =>
    refine ⟨List.cons_ne_nil _ _, fun c hc => Option.some.inj hc ▸ ha d List.mem_cons_self, fun c hc => hcore.last c ?_⟩
    rwa [List.getLast?_append_of_ne_nil _ hcore.ne_nil] at hc

theorem embedRuns_between {a b : CString} (ha : ∀ c ∈ a, ¬isspace c) (hb : ∀ c ∈ b, ¬isspace c) :
    embedRuns (a ++ (x ++ b)) = a ++ (embedRuns x ++ b) := by
  have hend := @embedRuns_solid_append b [] hb
  rw [List.append_nil, embedRuns, List.append_nil] at hend
  rw [embedRuns_solid_append ha, embedRuns_append fun c hc => hb c <| List.mem_of_head? hc, hend]

theorem anySpace_solid (p : Prop) [Decidable p] : ∀ c ∈ if p then anySpace else [], ¬isspace c := by
  split
  case isTrue  => decide
  case isFalse => nofun

-- Each policy adds its white space to the expression.
theorem Framed.ignoreLeading_policyText (h : Framed lead core trail) (hp : .ignoreLeading ∉ policies)
    (hmeta : ∀ c ∈ core, ¬isMeta c) (hlen : (policyText policies (lead ++ (core ++ trail))).length + 4 ≤ cfBufSize) :
    ignoreLeading (policyText policies (lead ++ (core ++ trail))) =
      policyText (policies ++ [.ignoreLeading]) (lead ++ (core ++ trail)) := by
  have hcore := @isCore_coreText _ (.ignoreEmbedded ∈ policies) _ h.core
  rw [h.policyText_eq, if_neg hp, List.length_append] at hlen
  rw [h.policyText_eq, if_neg hp, h.policyText_eq,
    ignoreLeading_spaces h.lead (fun c hc => hcore.first c <| hcore.head?_append ▸ hc) (not_anySpace_begins h.core hmeta) (by omega)]
  simp

theorem Framed.ignoreTrailing_policyText (h : Framed lead core trail) (hp : .ignoreTrailing ∉ policies)
    (hmeta : ∀ c ∈ core, ¬isMeta c) (hreached : EndReached policies (lead ++ (core ++ trail)))
    (hlen : (policyText policies (lead ++ (core ++ trail))).length + 4 ≤ cfBufSize) :
    ignoreTrailing (policyText policies (lead ++ (core ++ trail))) =
      .ok (policyText (policies ++ [.ignoreTrailing]) (lead ++ (core ++ trail))) := by
  have ⟨htrail, hlong, hleading⟩ := length_before h hreached
  have hplain : Plain (if .ignoreEmbedded ∈ policies then squeezePieces core else core.map .lit) := plain_core hmeta
  have hinfix : ¬anySpace <:+: coreText (.ignoreEmbedded ∈ policies) core := not_infix_anySpace hplain
  rw [h.policyText_eq, if_neg hp, htrail, List.append_nil] at hlen
  rw [h.policyText_eq, if_neg hp, h.policyText_eq, htrail, List.append_nil]
  generalize htext : (if .ignoreLeading ∈ policies then anySpace else lead) ++
    coreText (.ignoreEmbedded ∈ policies) core = text at hlong hlen ⊢
  have hnot : ¬anySpace <+: text.drop (text.length - 4) := by
    intro hbegins
    by_cases hl : .ignoreLeading ∈ policies
    case pos =>
      -- The end of the text is behind the start of what has been written for the leading white space.
      have hrest := hleading hl
      rw [if_pos hl] at htext
      have hcons : text = '\\' :: 's' :: '*' :: coreText (.ignoreEmbedded ∈ policies) core := htext.symm
      have hdrop : text.length - 4 = text.length - 5 + 1 := by
        have hlength := congrArg List.length hcons
        rw [List.length_cons, List.length_cons, List.length_cons] at hlength
        omega
      rw [hdrop, hcons, List.drop_succ_cons] at hbegins
      have hin := hbegins.isInfix.trans (List.drop_suffix _ _).isInfix
      simp [anySpace, List.infix_cons_iff] at hin
      exact hinfix hin
    case neg =>
      have hall : Plain (lead.map .lit ++ if .ignoreEmbedded ∈ policies then squeezePieces core else core.map .lit) := by
        intro z hz
        cases List.mem_append.mp hz
        case inl hz =>
          have ⟨c, hc, he⟩ := List.mem_map.mp hz
          exact ⟨he ▸ nofun, fun d hd => Piece.lit.inj (he.trans hd) ▸ not_isMeta_space (h.lead c hc)⟩
        case inr hz => exact hplain z hz
      rw [if_neg hl] at htext
      refine not_infix_anySpace hall ?_
      rw [piecesText_append, piecesText_spaces h.lead]
      exact htext ▸ hbegins.isInfix.trans (List.drop_suffix _ _).isInfix
  rw [ignoreTrailing_eq hlong hnot hlen, ←htext]
  simp

theorem Framed.ignoreEmbedded_policyText (h : Framed lead core trail) (hp : .ignoreEmbedded ∉ policies)
    (ht : .ignoreTrailing ∈ policies → trail = [])
    (hlen : (policyText (policies ++ [.ignoreEmbedded]) (lead ++ (core ++ trail))).length < cfBufSize) :
    ignoreEmbedded (policyText policies (lead ++ (core ++ trail))) =
      .ok (policyText (policies ++ [.ignoreEmbedded]) (lead ++ (core ++ trail))) := by
  have hcore : IsCore (piecesText (core.map .lit)) := by
    have hcore := @isCore_coreText _ False _ h.core
    rwa [coreText, if_neg not_false] at hcore
  have hl := anySpace_solid (.ignoreLeading ∈ policies)
  have htrail := anySpace_solid (.ignoreTrailing ∈ policies)
  have hframed : Framed (if .ignoreLeading ∈ policies then [] else lead)
      ((if .ignoreLeading ∈ policies then anySpace else []) ++
        (piecesText (core.map .lit) ++ if .ignoreTrailing ∈ policies then anySpace else [])) trail := by
    refine ⟨?_, hcore.between hl htrail, h.trail⟩
    split
    case isTrue  => nofun
    case isFalse => exact h.lead
  -- The white space that is still there is around the text.
  have hsplit {t : CString} : (if .ignoreLeading ∈ policies then anySpace else lead) ++
      (t ++ if .ignoreTrailing ∈ policies then anySpace else trail) =
      (if .ignoreLeading ∈ policies then [] else lead) ++ (((if .ignoreLeading ∈ policies then anySpace else []) ++
        (t ++ if .ignoreTrailing ∈ policies then anySpace else [])) ++ trail) := by
    by_cases hpl : .ignoreLeading ∈ policies <;> by_cases hpt : .ignoreTrailing ∈ policies <;> simp [hpl, hpt, ht]
  have hresult : policyText (policies ++ [.ignoreEmbedded]) (lead ++ (core ++ trail)) =
      (if .ignoreLeading ∈ policies then anySpace else lead) ++
        (piecesText (squeezePieces core) ++ if .ignoreTrailing ∈ policies then anySpace else trail) := by
    rw [h.policyText_eq]
    simp [coreText]
  rw [hresult, hsplit, ←embedRuns_lits, ←embedRuns_between hl htrail] at hlen ⊢
  rw [h.policyText_eq, coreText, if_neg hp, hsplit]
  exact ignoreEmbedded_framed hframed hlen

-- A line of white space only is left out or kept.
theorem applyPolicy_blank {p : InsertMatchType} (hl : ∀ c ∈ x, isspace c) (hp : p = .ignoreLeading ∨ p = .ignoreEmbedded)
    (hnot : p ∉ policies) (ht : .ignoreTrailing ∉ policies) (hlen : x.length + 4 ≤ cfBufSize) :
    applyPolicy (policyText policies x) p = .ok (policyText (policies ++ [p]) x) := by
  have hbehind : .ignoreTrailing ∉ policies ++ [p] := by
    rcases hp with (rfl | rfl) <;> simp [ht]
  rw [policyText_blank hl ht, policyText_blank hl hbehind]
  cases hp
  case inl hp =>
    subst hp
    have hleading := @ignoreLeading_spaces [] x hl nil_starts (by decide) (by decide)
    rw [List.append_nil, List.append_nil] at hleading
    rw [if_neg hnot, applyPolicy, hleading]
    simp
  case inr hp =>
    subst hp
    rw [applyPolicy]
    by_cases hleading : .ignoreLeading ∈ policies
    case neg =>
      rw [if_neg hleading, ignoreEmbedded_blank hl (by omega)]
      simp [hleading]
    case pos =>
      have hcore : IsCore anySpace := isCore_pieceText (z := .star) nofun
      have hframed : Framed [] anySpace [] := ⟨nofun, hcore, nofun⟩
      have hruns := @embedRuns_solid_append anySpace [] (by decide)
      rw [embedRuns, List.append_nil] at hruns
      have hembedded := ignoreEmbedded_framed hframed (by rw [hruns]; decide)
      rw [hruns, List.nil_append, List.append_nil] at hembedded
      rw [if_pos hleading, hembedded]
      simp [hleading]

theorem applyPolicy_policyText {p : InsertMatchType} (hexact : p ≠ .exact) (hp : p ∉ policies) (hmeta : ∀ c ∈ x, ¬isMeta c)
    (hlen : 3 * x.length + 10 ≤ cfBufSize) (ht : .ignoreTrailing ∈ policies → ∃ c ∈ x.getLast?, ¬isspace c)
    (hreached : p = .ignoreTrailing → EndReached policies x) :
    applyPolicy (policyText policies x) p = .ok (policyText (policies ++ [p]) x) := by
  have hblank (hx : ∀ c ∈ x, isspace c) : ¬∃ c ∈ x.getLast?, ¬isspace c := fun ⟨c, hc, hspace⟩ =>
    hspace <| hx c <| List.mem_of_getLast? hc
  have htext := length_policyText policies x
  have hnext := length_policyText (policies ++ [p]) x
  cases blank_or_framed x
  case inl hx =>
    refine applyPolicy_blank hx ?_ hp (fun h => hblank hx <| ht h) (by omega)
    cases p
    case ignoreTrailing => exact absurd (hreached rfl).left <| hblank hx
    case exact          => exact absurd rfl hexact
    case ignoreLeading  => exact .inl rfl
    case ignoreEmbedded => exact .inr rfl
  case inr hx =>
    have ⟨hframed, hsplit⟩ := hx
    have hcore : ∀ c ∈ coreOf x, ¬isMeta c := fun c hc => hmeta c <| by
      rw [hsplit]
      exact List.mem_append_right _ <| List.mem_append_left _ hc
    have htrail (h : ∃ c ∈ x.getLast?, ¬isspace c) : trailOf x = [] := by
      by_contra hne
      have ⟨c, hc, hspace⟩ := h
      rw [hsplit, ←List.append_assoc, List.getLast?_append_of_ne_nil _ hne] at hc
      exact hspace <| hframed.trail c <| List.mem_of_getLast? hc
    rw [hsplit] at htext hnext hreached ⊢
    cases p
    case exact          => exact absurd rfl hexact
    case ignoreLeading  =>
      rw [applyPolicy, hframed.ignoreLeading_policyText hp hcore (by rw [←hsplit] at htext ⊢; omega)]
    case ignoreTrailing =>
      rw [applyPolicy, hframed.ignoreTrailing_policyText hp hcore (hreached rfl) (by rw [←hsplit] at htext ⊢; omega)]
    case ignoreEmbedded =>
      rw [applyPolicy, hframed.ignoreEmbedded_policyText hp (fun h => htrail (ht h)) (by rw [←hsplit] at hnext ⊢; omega)]

end

end CfEngine
