import CfEngine.Library.GreedyRuns
import CfEngine.Libpromises.Matching.Whitespace

namespace CfEngine

open Regex

def squeezePieces : CString → List Piece
  | []     => []
  | c :: s => if isspace c then .plus :: squeezePieces (s.dropWhile isspace) else .lit c :: squeezePieces s
  termination_by s => s.length
  decreasing_by
    · exact Nat.lt_succ_of_le (List.dropWhile_suffix isspace).length_le
    · exact Nat.lt_succ_self _

-- What the policies leave of the line, as pieces of a regular expression.
def policyPieces (policies : List InsertMatchType) (l : CString) : List Piece :=
  (if .ignoreLeading ∈ policies then [.star] else (leadOf l).map .lit) ++
    ((if .ignoreEmbedded ∈ policies then squeezePieces (coreOf l) else (coreOf l).map .lit) ++
      if .ignoreTrailing ∈ policies then [.star] else (trailOf l).map .lit)

section
variable {x lead core trail u v s t : CString} {policies : List InsertMatchType}

-- The pieces match the texts that are the same up to their white space.
theorem runPieces_squeezePieces (hv : ∀ c ∈ v.getLast?, ¬isspace c) : runPieces isspace (squeezePieces v) s = some t ↔
    ∃ u, s = u ++ t ∧ (∀ c ∈ u.getLast?, ¬isspace c) ∧ squeeze u = squeeze v := by
  induction v using squeeze_induction generalizing s
  case nil              =>
    rw [squeezePieces, runPieces, squeeze, Option.some_inj]
    constructor
    case mp  => exact fun h => ⟨[], h, by simp, by rw [squeeze]⟩
    case mpr =>
      rintro ⟨u, hs, _, hu⟩
      rw [squeeze_eq_nil_iff.mp hu] at hs
      exact hs
  case space c v hc ih  =>
    obtain ⟨hne, hends⟩ := ends_dropWhile hv hc
    rw [squeezePieces, if_pos hc, runPieces, squeeze_cons_space hc]
    constructor
    case mp  =>
      intro h
      split at h
      case isFalse       => cases h
      case isTrue hspace =>
        obtain ⟨u, hs, hu, he⟩ := (ih hends).mp h
        obtain ⟨d, hd, hdspace⟩ := Option.any_eq_true _ _ |>.mp hspace
        have hune : u ≠ [] := fun hnil => hne <| squeeze_eq_nil_iff.mp <| he ▸ squeeze_eq_nil_iff.mpr hnil
        obtain ⟨e, w, hw⟩ := List.exists_cons_of_ne_nil hune
        obtain ⟨s, rfl⟩ : ∃ s', s = d :: s' := List.head?_eq_some_iff.mp hd
        rw [List.dropWhile_cons_of_pos hdspace] at hs
        have hstop : ∀ c ∈ u.head?, ¬isspace c := fun c hc => by
          refine starts_dropWhile s c ?_
          rw [hw] at hc
          rwa [hs, hw]
        have hspaces : ∀ c ∈ s.takeWhile isspace, isspace c := fun c hc => List.mem_takeWhile_imp hc
        refine ⟨d :: (s.takeWhile isspace ++ u), ?_, ?_, ?_⟩
        case refine_1 => rw [List.cons_append, List.append_assoc, ←hs, List.takeWhile_append_dropWhile]
        case refine_2 =>
          intro c hc
          rw [←List.cons_append, List.getLast?_append_of_ne_nil _ hune] at hc
          exact hu c hc
        case refine_3 => rw [squeeze_cons_space hdspace, (dropWhile_spaces hspaces hstop).left, he]
    case mpr =>
      rintro ⟨u, hs, hu, he⟩
      cases u
      case nil      =>
        rw [squeeze] at he
        cases he
      case cons d w =>
        have hd : isspace d := by
          by_contra hd
          rw [squeeze_cons hd] at he
          exact hd <| (List.cons.inj he).left ▸ by decide
        rw [squeeze_cons_space hd] at he
        obtain ⟨hwne, hwends⟩ := ends_dropWhile hu hd
        have hdrop : s.dropWhile isspace = w.dropWhile isspace ++ t := by
          rw [hs, List.cons_append, List.dropWhile_cons_of_pos hd, List.dropWhile_append, if_neg]
          simpa using hwne
        have hhead : s.head?.any isspace := by rwa [hs]
        rw [if_pos hhead]
        exact (ih hends).mpr ⟨w.dropWhile isspace, hdrop, hwends, (List.cons.inj he).right⟩
  case char c v hc ih   =>
    rw [squeezePieces, if_neg hc, squeeze_cons hc]
    cases s
    case nil      =>
      refine iff_of_false (by rintro ⟨⟩) ?_
      rintro ⟨u, hs, _, he⟩
      have hu : u = [] := (List.append_eq_nil_iff.mp hs.symm).left
      rw [squeeze_eq_nil_iff.mpr hu] at he
      cases he
    case cons d s =>
      rw [runPieces]
      constructor
      case mp  =>
        intro h
        split at h
        case isFalse   => cases h
        case isTrue hd =>
          obtain ⟨u, hs, hu, he⟩ := (ih <| ends_cons hv).mp h
          refine ⟨c :: u, by rw [hd, hs, List.cons_append], cons_ends hc hu, ?_⟩
          rw [squeeze_cons hc, he]
      case mpr =>
        rintro ⟨u, hs, hu, he⟩
        cases u
        case nil      =>
          rw [squeeze] at he
          cases he
        case cons e u =>
          obtain ⟨hde, hs⟩ := List.cons.inj hs
          by_cases hspace : isspace e
          case pos =>
            rw [squeeze_cons_space hspace] at he
            exact absurd ((List.cons.inj he).left ▸ by decide) hc
          case neg =>
            rw [squeeze_cons hspace] at he
            obtain ⟨hec, he⟩ := List.cons.inj he
            rw [if_pos (hde.trans hec)]
            exact (ih <| ends_cons hv).mpr ⟨u, hs, ends_cons hu, he⟩

theorem nil_starts : ∀ c ∈ ([] : CString).head?, ¬isspace c :=
  nofun

theorem runPieces_star_iff : runPieces isspace [.star] s = some t ↔
    ∃ u, s = u ++ t ∧ (∀ c ∈ u, isspace c) ∧ ∀ c ∈ t.head?, ¬isspace c := by
  rw [runPieces, runPieces, Option.some_inj]
  constructor
  case mp  =>
    rintro rfl
    exact ⟨s.takeWhile isspace, List.takeWhile_append_dropWhile.symm, fun c hc => List.mem_takeWhile_imp hc, starts_dropWhile s⟩
  case mpr =>
    rintro ⟨u, rfl, hu, ht⟩
    exact (dropWhile_spaces hu ht).left

theorem runPieces_outer {p : Prop} [Decidable p] (hlead : ∀ c ∈ lead, isspace c) (ht : ∀ c ∈ t.head?, ¬isspace c) :
    runPieces isspace (if p then [.star] else lead.map .lit) s = some t ↔
      ∃ u, s = u ++ t ∧ (∀ c ∈ u, isspace c) ∧ SamePart p (fun _ => []) u lead := by
  unfold SamePart
  split
  case isTrue  => simp only [runPieces_star_iff, and_iff_left ht, and_true]
  case isFalse =>
    rw [runPieces_lits]
    constructor
    case mp  => exact fun h => ⟨lead, h, hlead, rfl⟩
    case mpr =>
      rintro ⟨u, hs, _, rfl⟩
      exact hs

theorem runPieces_core {p : Prop} [Decidable p] (hcore : IsCore core) :
    runPieces isspace (if p then squeezePieces core else core.map .lit) s = some t ↔
      ∃ u, s = u ++ t ∧ IsCore u ∧ SamePart p squeeze u core := by
  unfold SamePart
  split
  case isTrue  =>
    rw [runPieces_squeezePieces hcore.last]
    refine exists_congr fun u => and_congr_right fun _ => ⟨fun ⟨hu, he⟩ => ?_, fun ⟨hu, he⟩ => ⟨hu.last, he⟩⟩
    exact ⟨isCore_of_squeeze_eq hcore hu he, he⟩
  case isFalse =>
    rw [runPieces_lits]
    constructor
    case mp  => exact fun h => ⟨core, h, hcore, rfl⟩
    case mpr =>
      rintro ⟨u, hs, _, rfl⟩
      exact hs

theorem Framed.policyPieces_eq (h : Framed lead core trail) : policyPieces policies (lead ++ (core ++ trail)) =
    (if .ignoreLeading ∈ policies then [.star] else lead.map .lit) ++
      ((if .ignoreEmbedded ∈ policies then squeezePieces core else core.map .lit) ++
        if .ignoreTrailing ∈ policies then [.star] else trail.map .lit) := by
  rw [policyPieces, h.leadOf_eq, h.coreOf_eq, h.trailOf_eq]

theorem Framed.runPieces_iff (h : Framed lead core trail) :
    runPieces isspace (policyPieces policies (lead ++ (core ++ trail))) s = some [] ↔
      ∃ a b c, Framed a b c ∧ s = a ++ (b ++ c) ∧ SameParts policies lead core trail a b c := by
  rw [h.policyPieces_eq, runPieces_append]
  simp only [runPieces_append, Option.bind_eq_some_iff]
  constructor
  case mp  =>
    intro ⟨t, hlead, w, hcore, htrail⟩
    obtain ⟨b, rfl, hb, hsame⟩ := (runPieces_core h.core).mp hcore
    obtain ⟨c, rfl, hc, hsamec⟩ := (runPieces_outer h.trail nil_starts).mp htrail
    have hstop : ∀ d ∈ (b ++ (c ++ [])).head?, ¬isspace d := fun d hd => hb.first d <| hb.head?_append ▸ hd
    obtain ⟨a, rfl, ha, hsamea⟩ := (runPieces_outer h.lead hstop).mp hlead
    exact ⟨a, b, c, ⟨ha, hb, hc⟩, by rw [List.append_nil], hsamea, hsame, hsamec⟩
  case mpr =>
    rintro ⟨a, b, c, hframed, rfl, hsamea, hsame, hsamec⟩
    have hstop : ∀ d ∈ (b ++ c).head?, ¬isspace d := fun d hd =>
      hframed.core.first d <| hframed.core.head?_append ▸ hd
    exact ⟨b ++ c, (runPieces_outer h.lead hstop).mpr ⟨a, rfl, hframed.lead, hsamea⟩,
      c, (runPieces_core h.core).mpr ⟨b, rfl, hframed.core, hsame⟩,
      (runPieces_outer h.trail nil_starts).mpr ⟨c, (List.append_nil c).symm, hframed.trail, hsamec⟩⟩

theorem policyPieces_blank (hl : ∀ c ∈ x, isspace c) : policyPieces policies x =
    (if .ignoreLeading ∈ policies then [.star] else x.map .lit) ++
      if .ignoreTrailing ∈ policies then [.star] else [] := by
  have ⟨hlead, hcore, htrail⟩ := parts_blank hl
  rw [policyPieces, hlead, hcore, htrail, squeezePieces, List.map_nil, ite_self, List.nil_append]

-- A blank line is not told apart from a shorter one by what is only added behind it.
theorem runPieces_blank_iff (hl : ∀ c ∈ x, isspace c) (ht : .ignoreTrailing ∉ policies) :
    runPieces isspace (policyPieces policies x) s = some [] ↔ EqualUpTo policies x s := by
  rw [policyPieces_blank hl, if_neg ht, List.append_nil, runPieces_outer hl nil_starts, equalUpTo_blank_iff hl, or_iff_right ht]
  unfold SamePart
  simp only [List.append_nil]
  constructor
  case mp  =>
    rintro ⟨u, rfl, hu, he⟩
    refine ⟨hu, ?_⟩
    split at he
    case isTrue hp  => exact .inl hp
    case isFalse hp => exact .inr he
  case mpr =>
    intro ⟨hs, he⟩
    refine ⟨s, rfl, hs, ?_⟩
    split
    case isTrue     => rfl
    case isFalse hp => exact he.resolve_left hp

theorem runPieces_policyPieces_iff (ht : .ignoreTrailing ∈ policies → ∃ c ∈ x.getLast?, ¬isspace c) :
    runPieces isspace (policyPieces policies x) s = some [] ↔ EqualUpTo policies x s := by
  cases blank_or_framed x
  case inl hl =>
    refine runPieces_blank_iff hl fun hp => ?_
    have ⟨c, hc, hspace⟩ := ht hp
    exact hspace <| hl c <| List.mem_of_getLast? hc
  case inr hl =>
    have ⟨hframed, hsplit⟩ := hl
    rw [hsplit, hframed.runPieces_iff, hframed.equalUpTo_iff]

-- Every run is followed by a character that is not white space.
theorem settled_append {xs ys : List Piece} (hys : Settled isspace ys) (hxs : Settled isspace xs)
    (hlast : ∀ x ∈ xs.getLast?, ∃ c, x = .lit c) : Settled isspace (xs ++ ys) := by
  induction xs
  case nil          => exact hys
  case cons x xs ih =>
    have htail : ∀ y ∈ xs.getLast?, ∃ c, y = .lit c := fun y hy => hlast y <| by
      cases xs
      case nil      => nomatch hy
      case cons z t => rwa [List.getLast?_cons_cons]
    cases x
    case lit c => exact ih hxs htail
    all_goals
      refine ⟨fun y hy => hxs.left y ?_, ih hxs.right htail⟩
      cases xs
      case nil      => exact nomatch hlast _ rfl
      case cons z t => exact hy

theorem settled_lits : Settled isspace (u.map .lit) := by
  induction u
  case nil         => trivial
  case cons c u ih => exact ih

theorem head?_squeezePieces (hx : ∀ c ∈ x.head?, ¬isspace c) : (squeezePieces x).head? = x.head?.map .lit := by
  cases x
  case nil      => rw [squeezePieces]; rfl
  case cons c x => rw [squeezePieces, if_neg (hx c rfl)]; rfl

theorem settled_squeezePieces : Settled isspace (squeezePieces x) := by
  induction x using squeeze_induction
  case nil              => rw [squeezePieces]; trivial
  case space c x hc ih  =>
    rw [squeezePieces, if_pos hc]
    refine ⟨fun y hy => ?_, ih⟩
    rw [head?_squeezePieces <| starts_dropWhile x] at hy
    have ⟨d, hd, he⟩ := Option.map_eq_some_iff.mp hy
    exact ⟨d, he.symm, starts_dropWhile x d hd⟩
  case char c x hc ih   =>
    rw [squeezePieces, if_neg hc]
    exact ih

theorem getLast?_squeezePieces (hx : ∀ d ∈ x.getLast?, ¬isspace d) :
    ∀ y ∈ (squeezePieces x).getLast?, ∃ c, y = .lit c ∧ ¬isspace c := by
  induction x using squeeze_induction
  case nil              =>
    rw [squeezePieces]
    nofun
  case space c x hc ih  =>
    have ⟨hne, hends⟩ := ends_dropWhile hx hc
    rw [squeezePieces, if_pos hc]
    have ⟨d, t, ht⟩ := List.exists_cons_of_ne_nil hne
    have hhead := head?_squeezePieces <| starts_dropWhile x
    rw [ht, List.head?_cons, Option.map_some] at hhead
    have ⟨ys, hys⟩ := List.head?_eq_some_iff.mp hhead
    rw [ht, hys, List.getLast?_cons_cons]
    have ih := ih hends
    rwa [ht, hys] at ih
  case char c x hc ih   =>
    rw [squeezePieces, if_neg hc]
    intro y hy
    cases hxs : squeezePieces x
    case nil       =>
      rw [hxs] at hy
      exact ⟨c, (Option.some.inj hy).symm, hc⟩
    case cons z zs =>
      have ih := ih <| ends_cons hx
      rw [hxs] at hy ih
      exact ih y <| by rwa [List.getLast?_cons_cons] at hy

theorem settled_outer {p : Prop} [Decidable p] : Settled isspace (if p then [.star] else u.map .lit) := by
  split
  case isTrue  => exact ⟨nofun, trivial⟩
  case isFalse => exact settled_lits

theorem settled_core {p : Prop} [Decidable p] (h : IsCore core) :
    Settled isspace (if p then squeezePieces core else core.map .lit) ∧
      (∀ y ∈ (if p then squeezePieces core else core.map .lit).getLast?, ∃ c, y = .lit c ∧ ¬isspace c) ∧
      (if p then squeezePieces core else core.map .lit).head? = core.head?.map .lit := by
  split
  case isTrue  => exact ⟨settled_squeezePieces, getLast?_squeezePieces h.last, head?_squeezePieces h.first⟩
  case isFalse =>
    refine ⟨settled_lits, fun y hy => ?_, List.head?_map⟩
    rw [List.getLast?_map] at hy
    have ⟨c, hlast, hc⟩ := Option.map_eq_some_iff.mp hy
    exact ⟨c, hc.symm, h.last c hlast⟩

theorem settled_policyPieces (ht : .ignoreTrailing ∈ policies → ∃ c ∈ x.getLast?, ¬isspace c) :
    Settled isspace (policyPieces policies x) := by
  cases blank_or_framed x
  case inl hx =>
    have hp : .ignoreTrailing ∉ policies := fun hp => by
      have ⟨c, hc, hspace⟩ := ht hp
      exact hspace <| hx c <| List.mem_of_getLast? hc
    rw [policyPieces_blank hx, if_neg hp, List.append_nil]
    exact settled_outer
  case inr hx =>
    have ⟨hx, hsplit⟩ := hx
    have ⟨hcore, hlast, hhead⟩ := @settled_core _ (.ignoreEmbedded ∈ policies) _ hx.core
    have hrest := settled_append (@settled_outer (trailOf x) (.ignoreTrailing ∈ policies) _) hcore fun y hy => (hlast y hy).imp fun _ => And.left
    rw [policyPieces]
    by_cases hp : .ignoreLeading ∈ policies
    case neg =>
      rw [if_neg hp]
      refine settled_append hrest settled_lits fun y hy => ?_
      rw [List.getLast?_map] at hy
      have ⟨c, _, hc⟩ := Option.map_eq_some_iff.mp hy
      exact ⟨c, hc.symm⟩
    case pos =>
      rw [if_pos hp, List.singleton_append]
      refine ⟨fun y hy => ?_, hrest⟩
      have ⟨c, t, hc⟩ := List.exists_cons_of_ne_nil hx.core.ne_nil
      have hfirst := hx.core.first c <| hc ▸ rfl
      rw [hc, List.head?_cons, Option.map_some, ←hc] at hhead
      rw [List.head?_append, hhead] at hy
      exact ⟨c, (Option.some.inj hy).symm, hfirst⟩

theorem mem_of_mem_squeezePieces {c : Char} (hc : .lit c ∈ squeezePieces x) : c ∈ x := by
  induction x using squeeze_induction
  case nil             =>
    rw [squeezePieces] at hc
    nomatch hc
  case space d x hd ih =>
    rw [squeezePieces, if_pos hd] at hc
    have hc := (List.mem_cons.mp hc).resolve_left nofun
    exact List.mem_cons_of_mem _ <| (List.dropWhile_suffix isspace).subset <| ih hc
  case char d x hd ih  =>
    rw [squeezePieces, if_neg hd] at hc
    cases List.mem_cons.mp hc
    case inl he => exact Piece.lit.inj he ▸ List.mem_cons_self
    case inr hc => exact List.mem_cons_of_mem _ <| ih hc

theorem infix_coreOf (x : CString) : coreOf x <:+: x :=
  (List.rdropWhile_prefix ..).isInfix.trans (List.dropWhile_suffix _).isInfix

theorem parts_subset (x : CString) : leadOf x ⊆ x ∧ coreOf x ⊆ x ∧ trailOf x ⊆ x :=
  ⟨(List.takeWhile_prefix _).subset, (infix_coreOf x).subset,
    ((List.rtakeWhile_suffix ..).trans <| List.dropWhile_suffix _).subset⟩

theorem mem_of_mem_policyPieces {c : Char} (hc : .lit c ∈ policyPieces policies x) : c ∈ x := by
  have hlits {u : CString} (hu : .lit c ∈ u.map Piece.lit) : c ∈ u := by
    have ⟨d, hd, he⟩ := List.mem_map.mp hu
    exact Piece.lit.inj he ▸ hd
  have houter {p : Prop} [Decidable p] {u : CString} (hu : .lit c ∈ if p then [.star] else u.map Piece.lit) : c ∈ u := by
    split at hu
    case isTrue  => nomatch List.mem_singleton.mp hu
    case isFalse => exact hlits hu
  have ⟨hlead, hcore, htrail⟩ := parts_subset x
  rw [policyPieces, List.mem_append, List.mem_append] at hc
  rcases hc with (hc | hc | hc)
  case inl     => exact hlead <| houter hc
  case inr.inr => exact htrail <| houter hc
  case inr.inl =>
    split at hc
    case isTrue  => exact hcore <| mem_of_mem_squeezePieces hc
    case isFalse => exact hcore <| hlits hc

-- A part of the pieces without white space is a part of the line.
theorem infix_behind {w as bs : List Piece} (hdisjoint : ∀ z ∈ as, z ∉ w) (h : w <:+: as ++ bs) : w <:+: bs := by
  induction as
  case nil         => exact h
  case cons z as ih =>
    cases List.infix_cons_iff.mp h
    case inr h => exact ih (fun y hy => hdisjoint y <| List.mem_cons_of_mem _ hy) h
    case inl h =>
      cases w
      case nil      => exact List.nil_infix
      case cons y w =>
        have ⟨he, _⟩ := List.cons_prefix_cons.mp h
        exact absurd (he ▸ List.mem_cons_self) <| hdisjoint z List.mem_cons_self

theorem infix_before {w as bs : List Piece} (hdisjoint : ∀ z ∈ bs, z ∉ w) (h : w <:+: as ++ bs) : w <:+: as := by
  have hreverse : ∀ z ∈ bs.reverse, z ∉ w.reverse := fun z hz hw =>
    hdisjoint z (List.mem_reverse.mp hz) <| List.mem_reverse.mp hw
  have h := List.reverse_infix.mpr h
  rw [List.reverse_append] at h
  exact List.reverse_infix.mp <| infix_behind hreverse h

theorem start_of_squeezePieces (hu : ∀ c ∈ u, ¬isspace c) (h : u.map .lit <+: squeezePieces x) : u <+: x := by
  induction u generalizing x
  case nil         => exact List.nil_prefix
  case cons c u ih =>
    cases x
    case nil      =>
      rw [squeezePieces] at h
      nomatch List.prefix_nil.mp h
    case cons d x =>
      rw [squeezePieces] at h
      split at h
      case isTrue  => nomatch (List.cons_prefix_cons.mp h).left
      case isFalse =>
        have ⟨he, h⟩ := List.cons_prefix_cons.mp h
        have hrest := ih (fun e he => hu e <| List.mem_cons_of_mem _ he) h
        exact List.cons_prefix_cons.mpr ⟨Piece.lit.inj he, hrest⟩

theorem infix_of_squeezePieces (hu : ∀ c ∈ u, ¬isspace c) (h : u.map .lit <:+: squeezePieces x) : u <:+: x := by
  induction x using squeeze_induction
  case nil             =>
    rw [squeezePieces] at h
    have hnil : u = [] := List.map_eq_nil_iff.mp <| List.eq_nil_of_infix_nil h
    exact hnil ▸ List.nil_infix
  case space c x hc ih =>
    rw [squeezePieces, if_pos hc] at h
    have hplus : ∀ z ∈ [Piece.plus], z ∉ u.map Piece.lit := by simp
    have hrest := ih <| infix_behind hplus h
    exact hrest.trans <| ((List.dropWhile_suffix isspace).trans <| List.suffix_cons c x).isInfix
  case char c x hc ih  =>
    rw [squeezePieces, if_neg hc] at h
    cases List.infix_cons_iff.mp h
    case inr h => exact (ih h).trans <| (List.suffix_cons c x).isInfix
    case inl h =>
      refine (start_of_squeezePieces hu ?_).isInfix
      rwa [squeezePieces, if_neg hc]

def litChar : Piece → Option Char
  | .lit c => some c
  | _      => none

theorem infix_of_policyPieces (hu : ∀ c ∈ u, ¬isspace c) (h : u.map .lit <:+: policyPieces policies x) : u <:+: x := by
  have hlits {v : CString} (hv : u.map Piece.lit <:+: v.map .lit) : u <:+: v := by
    have h := hv.filterMap litChar
    simpa [List.filterMap_map, Function.comp_def, litChar] using h
  have houter {p : Prop} [Decidable p] {v : CString} (hv : ∀ c ∈ v, isspace c) :
      ∀ z ∈ if p then [.star] else v.map .lit, z ∉ u.map Piece.lit := by
    intro z hz hmem
    obtain ⟨c, hc, he⟩ := List.mem_map.mp hmem
    split at hz
    case isTrue  => cases he.trans <| List.mem_singleton.mp hz
    case isFalse =>
      obtain ⟨d, hd, he'⟩ := List.mem_map.mp hz
      exact hu c hc <| Piece.lit.inj (he'.trans he.symm) ▸ hv d hd
  rw [policyPieces] at h
  have hcore := infix_before (houter fun c hc => List.mem_rtakeWhile_imp hc) <|
    infix_behind (houter fun c hc => List.mem_takeWhile_imp hc) h
  refine List.IsInfix.trans ?_ <| infix_coreOf x
  split at hcore
  case isTrue  => exact infix_of_squeezePieces hu hcore
  case isFalse => exact hlits hcore

end

end CfEngine
