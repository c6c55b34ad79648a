import CfEngine.Libpromises.ItemLib

namespace CfEngine

-- Every run of white space becomes a blank.
def squeeze : CString → CString
  | []     => []
  | c :: s => if isspace c then ' ' :: squeeze (s.dropWhile isspace) else c :: squeeze s
  termination_by s => s.length
  decreasing_by
    · exact Nat.lt_succ_of_le (List.dropWhile_suffix isspace).length_le
    · exact Nat.lt_succ_self _

-- The white space around a line, and what is between.
def leadOf (x : CString) : CString :=
  x.takeWhile isspace

def coreOf (x : CString) : CString :=
  (x.dropWhile isspace).rdropWhile isspace

def trailOf (x : CString) : CString :=
  (x.dropWhile isspace).rtakeWhile isspace

-- A line without the white space that is ignored, where embedded white space is not left out but made the same.
def normalize (policies : List InsertMatchType) (x : CString) : CString :=
  let x := if .ignoreLeading ∈ policies then x.dropWhile isspace else x
  let x := if .ignoreTrailing ∈ policies then x.rdropWhile isspace else x
  if .ignoreEmbedded ∈ policies then leadOf x ++ squeeze (coreOf x) ++ trailOf x else x

def EqualUpTo (policies : List InsertMatchType) (l h : CString) : Prop :=
  normalize policies l = normalize policies h

instance {policies : List InsertMatchType} {l h : CString} : Decidable (EqualUpTo policies l h) :=
  inferInstanceAs <| Decidable (_ = _)

-- A text that starts and ends with a character that is not white space.
structure IsCore (x : CString) : Prop where
  ne_nil : x ≠ []
  first  : ∀ c ∈ x.head?, ¬isspace c
  last   : ∀ c ∈ x.getLast?, ¬isspace c

-- A line with white space around what is between.
structure Framed (lead core trail : CString) : Prop where
  lead  : ∀ c ∈ lead, isspace c
  core  : IsCore core
  trail : ∀ c ∈ trail, isspace c

section
variable {x y lead core trail u s : CString} {c : Char} {policies : List InsertMatchType}

theorem starts_dropWhile (x : CString) : ∀ c ∈ (x.dropWhile isspace).head?, ¬isspace c := by
  intro c hc
  have hstop := List.head?_dropWhile_not isspace x
  rw [Option.mem_def.mp hc] at hstop
  simpa using hstop

theorem dropWhile_spaces (hu : ∀ c ∈ u, isspace c) (hx : ∀ c ∈ x.head?, ¬isspace c) :
    (u ++ x).dropWhile isspace = x ∧ (u ++ x).takeWhile isspace = u := by
  have hstop : x.dropWhile isspace = x ∧ x.takeWhile isspace = [] := by
    cases x
    case nil      => exact ⟨rfl, rfl⟩
    case cons c x => exact ⟨List.dropWhile_cons_of_neg (hx c rfl), List.takeWhile_cons_of_neg (hx c rfl)⟩
  rw [List.dropWhile_append_of_pos hu, List.takeWhile_append_of_pos hu, hstop.left, hstop.right, List.append_nil]
  exact ⟨rfl, rfl⟩

theorem rdropWhile_spaces (hu : ∀ c ∈ u, isspace c) (hx : ∀ c ∈ x.getLast?, ¬isspace c) :
    (x ++ u).rdropWhile isspace = x ∧ (x ++ u).rtakeWhile isspace = u := by
  have h := @dropWhile_spaces x.reverse u.reverse (fun c hc => hu c <| List.mem_reverse.mp hc)
    fun c hc => hx c <| by rwa [List.head?_reverse] at hc
  rw [←List.reverse_append] at h
  rw [List.rdropWhile, List.rtakeWhile, h.left, h.right, List.reverse_reverse, List.reverse_reverse]
  exact ⟨rfl, rfl⟩

theorem IsCore.head?_append (h : IsCore core) : (core ++ x).head? = core.head? := by
  have ⟨c, s, hc⟩ := List.exists_cons_of_ne_nil h.ne_nil
  rw [hc]
  rfl

namespace Framed

variable (h : Framed lead core trail)
include h

theorem dropWhile_eq : (lead ++ (core ++ trail)).dropWhile isspace = core ++ trail ∧
    (lead ++ (core ++ trail)).takeWhile isspace = lead :=
  dropWhile_spaces h.lead fun c hc => h.core.first c <| h.core.head?_append ▸ hc

theorem leadOf_eq : leadOf (lead ++ (core ++ trail)) = lead :=
  h.dropWhile_eq.right

theorem coreOf_eq : coreOf (lead ++ (core ++ trail)) = core := by
  rw [coreOf, h.dropWhile_eq.left]
  exact (rdropWhile_spaces h.trail h.core.last).left

theorem trailOf_eq : trailOf (lead ++ (core ++ trail)) = trail := by
  rw [trailOf, h.dropWhile_eq.left]
  exact (rdropWhile_spaces h.trail h.core.last).right

theorem rdropWhile_eq : (lead ++ (core ++ trail)).rdropWhile isspace = lead ++ core := by
  rw [←List.append_assoc]
  refine (rdropWhile_spaces h.trail fun c hc => h.core.last c ?_).left
  rwa [List.getLast?_append_of_ne_nil _ h.core.ne_nil] at hc

end Framed

-- Every line is blank or has something between white space.
theorem blank_or_framed (x : CString) :
    (∀ c ∈ x, isspace c) ∨ Framed (leadOf x) (coreOf x) (trailOf x) ∧ x = leadOf x ++ (coreOf x ++ trailOf x) := by
  have hx : x = leadOf x ++ x.dropWhile isspace := (List.takeWhile_append_dropWhile (p := isspace)).symm
  by_cases hblank : x.dropWhile isspace = []
  case pos => exact .inl fun c hc => List.dropWhile_eq_nil_iff.mp hblank c hc
  case neg =>
    have hfirst := starts_dropWhile x
    have hsplit : coreOf x ++ trailOf x = x.dropWhile isspace := List.rdropWhile_append_rtakeWhile
    have hne : coreOf x ≠ [] := by
      intro hnil
      have ⟨c, t, hc⟩ := List.exists_cons_of_ne_nil hblank
      have hall := List.rdropWhile_eq_nil_iff.mp hnil
      exact hfirst c (hc ▸ rfl) <| hall c <| hc ▸ List.mem_cons_self
    have hcore : IsCore (coreOf x) := by
      refine ⟨hne, fun c hc => hfirst c ?_, fun c hc => ?_⟩
      case refine_1 =>
        have ⟨d, t, hd⟩ := List.exists_cons_of_ne_nil hne
        rw [←hsplit, hd]
        rwa [hd] at hc
      case refine_2 =>
        have hlast := List.rdropWhile_last_not (p := isspace) (l := x.dropWhile isspace) hne
        rw [Option.mem_def, List.getLast?_eq_some_getLast hne] at hc
        exact Option.some.inj hc ▸ hlast
    refine .inr ⟨⟨fun c hc => List.mem_takeWhile_imp hc, hcore, fun c hc => List.mem_rtakeWhile_imp hc⟩, ?_⟩
    rw [hsplit]
    exact hx

-- One policy after the other.
theorem Framed.strip_leading (h : Framed lead core trail) (p : Prop) [Decidable p] :
    Framed (if p then [] else lead) core trail ∧
      (if p then (lead ++ (core ++ trail)).dropWhile isspace else lead ++ (core ++ trail)) =
        (if p then [] else lead) ++ (core ++ trail) := by
  split
  case isTrue  => exact ⟨⟨fun _ hc => (nomatch hc), h.core, h.trail⟩, h.dropWhile_eq.left⟩
  case isFalse => exact ⟨h, rfl⟩

theorem Framed.strip_trailing (h : Framed lead core trail) (p : Prop) [Decidable p] :
    Framed lead core (if p then [] else trail) ∧
      (if p then (lead ++ (core ++ trail)).rdropWhile isspace else lead ++ (core ++ trail)) =
        lead ++ (core ++ if p then [] else trail) := by
  split
  case isTrue  =>
    rw [List.append_nil]
    exact ⟨⟨h.lead, h.core, fun _ hc => (nomatch hc)⟩, h.rdropWhile_eq⟩
  case isFalse => exact ⟨h, rfl⟩

theorem normalize_framed (h : Framed lead core trail) : normalize policies (lead ++ (core ++ trail)) =
    (if .ignoreLeading ∈ policies then [] else lead) ++
      ((if .ignoreEmbedded ∈ policies then squeeze core else core) ++
        (if .ignoreTrailing ∈ policies then [] else trail)) := by
  have ⟨hl, hleading⟩ := h.strip_leading (.ignoreLeading ∈ policies)
  have ⟨ht, htrailing⟩ := hl.strip_trailing (.ignoreTrailing ∈ policies)
  rw [normalize, hleading, htrailing]
  split
  case isTrue  => rw [ht.leadOf_eq, ht.coreOf_eq, ht.trailOf_eq, List.append_assoc]
  case isFalse => rfl

theorem normalize_blank (h : ∀ c ∈ x, isspace c) :
    normalize policies x = if .ignoreLeading ∈ policies ∨ .ignoreTrailing ∈ policies then [] else x := by
  have hdrop : x.dropWhile isspace = [] := List.dropWhile_eq_nil_iff.mpr h
  have hrdrop : x.rdropWhile isspace = [] := List.rdropWhile_eq_nil_iff.mpr h
  have hparts : leadOf x ++ squeeze (coreOf x) ++ trailOf x = x := by
    rw [leadOf, coreOf, trailOf, hdrop, List.takeWhile_eq_self_iff.mpr h, List.rdropWhile_nil, List.rtakeWhile_nil, squeeze,
      List.append_nil, List.append_nil]
  have hnil : leadOf [] ++ squeeze (coreOf []) ++ trailOf [] = [] := by
    rw [coreOf, List.dropWhile_nil, List.rdropWhile_nil, squeeze]
    rfl
  rw [normalize]
  by_cases hl : .ignoreLeading ∈ policies
  case pos => simp only [hl, hdrop, hnil, if_true, true_or, List.rdropWhile_nil, ite_self]
  case neg =>
    by_cases ht : .ignoreTrailing ∈ policies
    case pos => simp only [hl, ht, hrdrop, hnil, if_true, if_false, or_true, ite_self]
    case neg => simp only [hl, ht, hparts, if_false, or_false, ite_self]

-- The first and the last character stay the same.
theorem squeeze_cons_space (hc : isspace c) : squeeze (c :: x) = ' ' :: squeeze (x.dropWhile isspace) := by
  rw [squeeze, if_pos hc]

theorem squeeze_cons (hc : ¬isspace c) : squeeze (c :: x) = c :: squeeze x := by
  rw [squeeze, if_neg hc]

theorem squeeze_eq_nil_iff : squeeze x = [] ↔ x = [] := by
  cases x
  case nil      => rw [squeeze]
  case cons c x =>
    rw [squeeze]
    split <;> simp

theorem getLast?_dropWhile (hx : x.dropWhile isspace ≠ []) : (x.dropWhile isspace).getLast? = x.getLast? := by
  have hsplit : x.takeWhile isspace ++ x.dropWhile isspace = x := List.takeWhile_append_dropWhile
  have h := @List.getLast?_append_of_ne_nil _ (x.takeWhile isspace) _ hx
  rw [hsplit] at h
  exact h.symm

theorem squeeze_induction {motive : CString → Prop} (nil : motive [])
    (space : ∀ c x, isspace c → motive (x.dropWhile isspace) → motive (c :: x))
    (char : ∀ c x, ¬isspace c → motive x → motive (c :: x)) (x : CString) : motive x := by
  induction hn : x.length using Nat.strongRecOn generalizing x
  case ind n ih =>
    cases x
    case nil      => exact nil
    case cons c x =>
      rw [List.length_cons] at hn
      have hle := (List.dropWhile_suffix (l := x) isspace).length_le
      by_cases hc : isspace c
      case pos => exact space c x hc <| ih _ (by omega) _ rfl
      case neg => exact char c x hc <| ih _ (by omega) _ rfl

theorem ends_dropWhile (hx : ∀ d ∈ (c :: x).getLast?, ¬isspace d) (hc : isspace c) :
    x.dropWhile isspace ≠ [] ∧ ∀ c ∈ (x.dropWhile isspace).getLast?, ¬isspace c := by
  have hne : x.dropWhile isspace ≠ [] := by
    intro hnil
    have hall := List.dropWhile_eq_nil_iff.mp hnil
    have hlast := List.getLast?_eq_some_getLast (List.cons_ne_nil c x)
    refine hx _ hlast ?_
    cases List.mem_cons.mp <| List.getLast_mem (List.cons_ne_nil c x)
    case inl he => rwa [he]
    case inr hm => exact hall _ hm
  have hcons : (c :: x).getLast? = x.getLast? := by
    have hxne : x ≠ [] := fun hnil => hne <| List.dropWhile_eq_nil_iff.mpr <| hnil ▸ nofun
    have ⟨d, t, ht⟩ := List.exists_cons_of_ne_nil hxne
    rw [ht, List.getLast?_cons_cons]
  refine ⟨hne, fun d hd => hx d ?_⟩
  rwa [hcons, ←getLast?_dropWhile hne]

theorem ends_cons (hx : ∀ d ∈ (c :: x).getLast?, ¬isspace d) : ∀ c ∈ x.getLast?, ¬isspace c := by
  intro d hd
  refine hx d ?_
  cases x
  case nil      => nomatch hd
  case cons e t => rwa [List.getLast?_cons_cons]

theorem cons_ends (hc : ¬isspace c) (hx : ∀ c ∈ x.getLast?, ¬isspace c) : ∀ d ∈ (c :: x).getLast?, ¬isspace d := by
  intro d hd
  cases x
  case nil      =>
    obtain rfl := Option.some.inj hd
    exact hc
  case cons e t => exact hx d <| by rwa [List.getLast?_cons_cons] at hd

theorem squeeze_ends (hx : ∀ c ∈ x.getLast?, ¬isspace c) : ∀ c ∈ (squeeze x).getLast?, ¬isspace c := by
  induction x using squeeze_induction
  case nil              => rwa [squeeze]
  case space c x hc ih  =>
    have ⟨hne, hends⟩ := ends_dropWhile hx hc
    have ⟨d, t, ht⟩ := List.exists_cons_of_ne_nil <| mt squeeze_eq_nil_iff.mp hne
    have ih := ih hends
    rw [squeeze_cons_space hc, ht, List.getLast?_cons_cons, ←ht]
    exact ih
  case char c x hc ih   =>
    rw [squeeze_cons hc]
    exact cons_ends hc <| ih <| ends_cons hx

theorem isCore_squeeze (h : IsCore core) : IsCore (squeeze core) := by
  refine ⟨mt squeeze_eq_nil_iff.mp h.ne_nil, fun d hd => ?_, squeeze_ends h.last⟩
  have ⟨c, x, hx⟩ := List.exists_cons_of_ne_nil h.ne_nil
  have hc := h.first c <| hx ▸ rfl
  rw [hx, squeeze_cons hc] at hd
  exact Option.some.inj hd ▸ hc

-- A text that is the same as a core up to its white space is one.
theorem isCore_of_squeeze_eq (h : IsCore core) (hu : ∀ c ∈ u.getLast?, ¬isspace c) (he : squeeze u = squeeze core) :
    IsCore u := by
  have hcore := isCore_squeeze h
  refine ⟨fun hnil => hcore.ne_nil <| he ▸ squeeze_eq_nil_iff.mpr hnil, fun d hd => ?_, hu⟩
  cases u
  case nil      => nomatch hd
  case cons c u =>
    obtain rfl : c = d := Option.some.inj hd
    intro hc
    rw [squeeze_cons_space hc] at he
    exact hcore.first ' ' (he ▸ rfl) (by decide)

-- The same, but for what one policy ignores.
def SamePart {α : Type} (ignored : Prop) [Decidable ignored] (f : α → α) (x y : α) : Prop :=
  (if ignored then f x else x) = if ignored then f y else y

def SameParts (policies : List InsertMatchType) (lead core trail a b c : CString) : Prop :=
  SamePart (.ignoreLeading ∈ policies) (fun _ => []) a lead ∧ SamePart (.ignoreEmbedded ∈ policies) squeeze b core ∧
    SamePart (.ignoreTrailing ∈ policies) (fun _ => []) c trail

-- There is one way to see a line as white space around something.
theorem Framed.inj {a b c : CString} (h : Framed lead core trail) (h' : Framed a b c)
    (he : lead ++ (core ++ trail) = a ++ (b ++ c)) : lead = a ∧ core = b ∧ trail = c := by
  refine ⟨?_, ?_, ?_⟩
  case refine_1 => rw [←h.leadOf_eq, he, h'.leadOf_eq]
  case refine_2 => rw [←h.coreOf_eq, he, h'.coreOf_eq]
  case refine_3 => rw [←h.trailOf_eq, he, h'.trailOf_eq]

theorem Framed.not_blank (h : Framed lead core trail) : ¬∀ c ∈ lead ++ (core ++ trail), isspace c := by
  intro hall
  have ⟨c, t, hc⟩ := List.exists_cons_of_ne_nil h.core.ne_nil
  refine h.core.first c (hc ▸ rfl) <| hall c ?_
  simp [hc]

theorem Framed.normalized (h : Framed lead core trail) : Framed (if .ignoreLeading ∈ policies then [] else lead)
    (if .ignoreEmbedded ∈ policies then squeeze core else core) (if .ignoreTrailing ∈ policies then [] else trail) := by
  refine ⟨?_, ?_, ?_⟩
  case refine_1 =>
    split
    case isTrue  => nofun
    case isFalse => exact h.lead
  case refine_2 =>
    split
    case isTrue  => exact isCore_squeeze h.core
    case isFalse => exact h.core
  case refine_3 =>
    split
    case isTrue  => nofun
    case isFalse => exact h.trail

theorem normalize_of_blank (h : ∀ c ∈ x, isspace c) : ∀ c ∈ normalize policies x, isspace c := by
  rw [normalize_blank h]
  split
  case isTrue  => nofun
  case isFalse => exact h

theorem Framed.equalUpTo_iff (h : Framed lead core trail) : EqualUpTo policies (lead ++ (core ++ trail)) s ↔
    ∃ a b c, Framed a b c ∧ s = a ++ (b ++ c) ∧ SameParts policies lead core trail a b c := by
  constructor
  case mp  =>
    intro he
    rw [EqualUpTo, normalize_framed h] at he
    cases blank_or_framed s
    case inl hblank =>
      have hnot := (@Framed.normalized _ _ _ policies h).not_blank
      rw [he] at hnot
      exact absurd (normalize_of_blank hblank) hnot
    case inr hs     =>
      have ⟨hs, hsplit⟩ := hs
      rw [hsplit, normalize_framed hs] at he
      have ⟨ha, hb, hc⟩ := h.normalized.inj hs.normalized he
      exact ⟨_, _, _, hs, hsplit, ha.symm, hb.symm, hc.symm⟩
  case mpr =>
    rintro ⟨a, b, c, hs, rfl, ha, hb, hc⟩
    unfold SamePart at ha hb hc
    rw [EqualUpTo, normalize_framed h, normalize_framed hs, ha, hb, hc]

theorem equalUpTo_blank_iff (hl : ∀ c ∈ x, isspace c) : EqualUpTo policies x s ↔
    (∀ c ∈ s, isspace c) ∧ (.ignoreLeading ∈ policies ∨ .ignoreTrailing ∈ policies ∨ s = x) := by
  rw [EqualUpTo, normalize_blank hl]
  cases blank_or_framed s
  case inl hblank =>
    rw [normalize_blank hblank, and_iff_right hblank, ←or_assoc]
    split
    case isTrue h  => exact iff_of_true rfl <| .inl h
    case isFalse h => rw [or_iff_right h, eq_comm]
  case inr hs     =>
    have ⟨hs, hsplit⟩ := hs
    refine iff_of_false (fun he => ?_) fun h => hs.not_blank <| hsplit ▸ h.left
    rw [hsplit, normalize_framed hs] at he
    have hnot := (@Framed.normalized _ _ _ policies hs).not_blank
    rw [←he] at hnot
    refine hnot ?_
    split
    case isTrue  => nofun
    case isFalse => exact hl

theorem parts_blank (hl : ∀ c ∈ x, isspace c) : leadOf x = x ∧ coreOf x = [] ∧ trailOf x = [] := by
  have hdrop : x.dropWhile isspace = [] := List.dropWhile_eq_nil_iff.mpr hl
  refine ⟨List.takeWhile_eq_self_iff.mpr hl, ?_, ?_⟩
  case refine_1 => rw [coreOf, hdrop, List.rdropWhile_nil]
  case refine_2 => rw [trailOf, hdrop, List.rtakeWhile_nil]

-- What is the same up to some white space is the same up to more of it.
theorem SamePart.mono {α : Type} {p q : Prop} [Decidable p] [Decidable q] {f : α → α} {a b : α} (hpq : p → q)
    (h : SamePart p f a b) : SamePart q f a b := by
  unfold SamePart at h ⊢
  by_cases hp : p
  case pos =>
    rw [if_pos hp, if_pos hp] at h
    rw [if_pos (hpq hp), if_pos (hpq hp), h]
  case neg =>
    rw [if_neg hp, if_neg hp] at h
    rw [h]

theorem EqualUpTo.mono {policies' : List InsertMatchType} (hsub : policies ⊆ policies') (h : EqualUpTo policies x s) :
    EqualUpTo policies' x s := by
  cases blank_or_framed x
  case inl hx =>
    rw [equalUpTo_blank_iff hx] at h ⊢
    exact ⟨h.left, h.right.imp (@hsub _) <| Or.imp_left (@hsub _)⟩
  case inr hx =>
    have ⟨hx, hsplit⟩ := hx
    rw [hsplit, hx.equalUpTo_iff] at h ⊢
    obtain ⟨a, b, c, hs, he, ha, hb, hc⟩ := h
    exact ⟨a, b, c, hs, he, ha.mono (@hsub _), hb.mono (@hsub _), hc.mono (@hsub _)⟩

end

end CfEngine
