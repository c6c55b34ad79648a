import CfEngine.Libpromises.AddrLib.DottedQuad

namespace CfEngine

-- A part of a range of addresses.
inductive RangePart
  | number (n : CString)
  | range (from' to' : CString)

namespace RangePart

def text : RangePart → CString
  | number n        => n
  | range from' to' => from' ++ '-' :: to'

def IsRange : RangePart → Prop
  | number _  => False
  | range _ _ => True

-- The numbers are written with the given digits.
def Written (digit : Char → Bool) : RangePart → Prop
  | number n        => n ≠ [] ∧ ∀ c ∈ n, digit c
  | range from' to' => (from' ≠ [] ∧ ∀ c ∈ from', digit c) ∧ to' ≠ [] ∧ ∀ c ∈ to', digit c

-- The part is the number or contains it, where the digits have the given value.
def Holds (value : CString → Nat) (part : RangePart) (n : CString) : Prop :=
  match part with
  | number m        => value m = value n
  | range from' to' => value from' ≤ value n ∧ value n ≤ value to'

instance {value : CString → Nat} {part : RangePart} {n : CString} : Decidable (part.Holds value n) := by
  cases part <;> unfold Holds <;> infer_instance

end RangePart

-- A pointer to the first of the parts that are left.
def cursor (sep : Char) (ps : List CString) : Option CString :=
  if ps = [] then none else some <| [sep].intercalate ps

section
variable {sep : Char} {ps : List CString} {p : CString} {buffer : Option CString} {digit : Char → Bool} {part : RangePart}
  {c : Char}

theorem advanceCursor_cursor : advanceCursor (cursor sep (p :: ps)) (p.length + 1) = cursor sep ps := by
  cases ps
  case nil  => simp [cursor, advanceCursor]
  case cons => simp [cursor, advanceCursor, List.intercalate_cons_cons]

theorem scanPart_cursor (hne : p ≠ []) (hsep : sep ∉ p) :
    scanPart sep (cursor sep (p :: ps)) buffer = if cfMaxIpLen ≤ p.length then .error .write else .ok p := by
  have hkeep : ∀ c ∈ p, decide (c ≠ sep) = true := fun c hc => decide_eq_true fun he => hsep <| he ▸ hc
  have htake : ([sep].intercalate (p :: ps)).takeWhile (· ≠ sep) = p := by
    cases ps
    case nil  => rw [List.intercalate_singleton, List.takeWhile_eq_self_iff.mpr hkeep]
    case cons =>
      rw [List.intercalate_cons_cons, List.append_assoc, List.takeWhile_append_of_pos hkeep, List.singleton_append,
        List.takeWhile_cons_of_neg (by simp), List.append_nil]
  rw [cursor, if_neg (List.cons_ne_nil _ _)]
  simp only [scanPart, htake, if_neg hne]

theorem RangePart.Written.text_ne_nil (h : part.Written digit) : part.text ≠ [] := by
  cases part
  case number n       => exact h.left
  case range from' to' => exact List.append_ne_nil_of_right_ne_nil _ (List.cons_ne_nil _ _)

theorem RangePart.Written.mem_text (h : part.Written digit) (hc : c ∈ part.text) : c = '-' ∨ digit c := by
  cases part
  case number n        => exact .inr <| h.right c hc
  case range from' to' =>
    rcases List.mem_append.mp hc with hc | hc
    · exact .inr <| h.left.right c hc
    · exact (List.mem_cons.mp hc).imp_right <| h.right.right c

theorem RangePart.Written.dash_mem_iff (h : part.Written digit) (hdash : ¬digit '-') : '-' ∈ part.text ↔ part.IsRange := by
  cases part
  case number n        => exact iff_of_false (fun hm => hdash <| h.right _ hm) id
  case range from' to' => exact iff_of_true (List.mem_append_right _ List.mem_cons_self) trivial

theorem mem_intercalate_of_mem (hp : p ∈ ps) (hc : c ∈ p) : c ∈ [sep].intercalate ps := by
  induction ps
  case nil          => nomatch hp
  case cons q ps ih =>
    cases ps
    case nil  => rwa [List.intercalate_singleton, ←List.mem_singleton.mp hp]
    case cons =>
      rw [List.intercalate_cons_cons]
      cases List.mem_cons.mp hp
      case inl he => exact List.mem_append_left _ <| List.mem_append_left _ <| he ▸ hc
      case inr hm => exact List.mem_append_right _ <| ih hm

-- What is in the text of a range.
theorem mem_parts {parts : List RangePart} (hparts : ∀ part ∈ parts, part.Written digit)
    (hc : c ∈ [sep].intercalate (parts.map RangePart.text)) : c = sep ∨ c = '-' ∨ digit c := by
  refine (mem_intercalate hc).imp_right fun ⟨p, hp, hc⟩ => ?_
  have ⟨part, hpart, he⟩ := List.mem_map.mp hp
  exact (hparts part hpart).mem_text <| he ▸ hc

theorem dash_mem_parts {parts : List RangePart} (hrange : ∃ part ∈ parts, part.IsRange) :
    '-' ∈ [sep].intercalate (parts.map RangePart.text) := by
  have ⟨part, hpart, hr⟩ := hrange
  refine mem_intercalate_of_mem (List.mem_map_of_mem hpart) ?_
  cases part
  case number => nomatch hr
  case range  => exact List.mem_append_right _ List.mem_cons_self

end

structure IPV4Range where
  parts   : List RangePart
  length  : 1 ≤ parts.length ∧ parts.length ≤ 4
  written : ∀ part ∈ parts, part.Written isdigit
  range   : ∃ part ∈ parts, part.IsRange

namespace IPV4Range

def text (spec : IPV4Range) : CString :=
  ['.'].intercalate <| spec.parts.map RangePart.text

-- Every part is the octet at its position, or contains it.
def Matches (spec : IPV4Range) (q : DottedQuad) : Prop :=
  ∀ x ∈ spec.parts.zip q.parts, x.1.Holds decimal x.2

-- The parts that are looked at are short enough, and the end of the text is not looked at.
structure Fits (spec : IPV4Range) (q : DottedQuad) : Prop where
  short : ∀ before part after, spec.parts = before ++ part :: after →
    (∀ x ∈ before.zip q.parts, x.1.Holds decimal x.2) → part.text.length < cfMaxIpLen
  stops : spec.parts.length = 4 ∨ ¬spec.Matches q

end IPV4Range

-- The range is read within its text, and the result is zero exactly if all parts match.
def MatchesIPV4Range (m : Inet) (spec : IPV4Range) (q : DottedQuad) : Prop :=
  ∃ r, fuzzySetMatch m spec.text q.text = .ok r ∧ (r.value = 0 ↔ spec.Matches q)

-- What the loop comes to.
def outcome4 : List RangePart → List CString → Except AddrFault FuzzyMatch
  | part :: ps, o :: os =>
    if cfMaxIpLen ≤ part.text.length then .error .write
    else if part.Holds decimal o then outcome4 ps os
    else .ok ⟨-1, none⟩
  | [], _ :: _          => .error .read
  | _, []               => .ok ⟨0, none⟩

section
variable {m : Inet} {l : RangeLoop} {part : RangePart} {ps : List RangePart} {o n rest : CString} {os : List CString}
  {r : FuzzyMatch} {spec : IPV4Range} {q : DottedQuad}

theorem Inet.toLong_le_iff {a b : Int} (hb : -2 ^ 31 < b ∧ b < 2 ^ 31 - 1) :
    (m.toLong a ≤ b ↔ a ≤ b) ∧ (b ≤ m.toLong a ↔ b ≤ a) := by
  rw [toLong]
  rcases m.long_32_64 with h | h
  all_goals
    rw [h]
    norm_num
    omega

theorem Inet.toLong_eq {n : Int} (hn : -2 ^ 31 < n ∧ n < 2 ^ 31 - 1) : m.toLong n = n := by
  have ⟨hle, hge⟩ := @toLong_le_iff m n n hn
  exact Int.le_antisymm (hle.mpr <| Int.le_refl n) (hge.mpr <| Int.le_refl n)

theorem scanLong_digits (hne : n ≠ []) (hn : ∀ c ∈ n, isdigit c) (hrest : ∀ c ∈ rest.head?, ¬c.isDigit) :
    m.scanLong (n ++ rest) = some (m.toLong (decimal n), rest) := by
  rw [Inet.scanLong, scanNumber_digits hn hne hrest]
  rfl

theorem scanLong_number (hne : n ≠ []) (hn : ∀ c ∈ n, isdigit c) :
    m.scanLong n = some (m.toLong (decimal n), []) := by
  have h := @scanLong_digits m n [] hne hn nofun
  rwa [List.append_nil] at h

theorem scanLong_octet (ho : IsOctet o) : m.scanLong o = some ((decimal o : Int), []) := by
  rw [scanLong_number ho.ne_nil ho.digits, Inet.toLong_eq]
  have hle := ho.le
  omega

-- What is assigned in the loop does not depend on what has been before.
theorem compare4_eq (hpart : part.Written isdigit) (ho : IsOctet o) : ∃ l',
    l.compare4 m part.text o = (if part.Holds decimal o then some l' else none) ∧
      l'.sp1 = l.sp1 ∧ l'.sp2 = l.sp2 := by
  have hoctet := @scanLong_octet m o ho
  have hle := ho.le
  have hdash := hpart.dash_mem_iff (by decide)
  rw [RangeLoop.compare4]
  cases part
  case number n        =>
    have hscan : m.scanLong n = _ := scanLong_number hpart.left hpart.right
    have hcmp := @Inet.toLong_le_iff m (decimal n) (decimal o) (by omega)
    have heq : m.toLong (decimal n) ≠ decimal o ↔ ¬decimal n = decimal o := by omega
    refine ⟨l.readNumber m.scanLong n o, ?_, rfl, rfl⟩
    rw [if_neg <| hdash.not.mpr id]
    simp only [RangeLoop.readNumber, RangePart.text, hscan, hoctet, Option.map_some, Option.getD_some, heq]
    exact ite_not ..
  case range from' to' =>
    have hfrom : m.scanLong (from' ++ '-' :: to') = _ := scanLong_digits hpart.left.left hpart.left.right (by simp)
    have hto : m.scanLong to' = _ := scanLong_number hpart.right.left hpart.right.right
    have ⟨hgt, _⟩ := @Inet.toLong_le_iff m (decimal from') (decimal o) (by omega)
    have ⟨_, hlt⟩ := @Inet.toLong_le_iff m (decimal to') (decimal o) (by omega)
    have hpos (n : Nat) : 0 ≤ m.toLong n := (@Inet.toLong_le_iff m n 0 (by omega)).right.mpr (Int.natCast_nonneg n)
    have hneg : ¬(m.toLong (decimal from') < 0 ∨ m.toLong (decimal to') < 0) := fun h =>
      h.elim (Int.not_lt.mpr <| hpos _) (Int.not_lt.mpr <| hpos _)
    have hout : m.toLong (decimal from') > decimal o ∨ (decimal o : Int) > m.toLong (decimal to') ↔
        ¬(decimal from' ≤ decimal o ∧ decimal o ≤ decimal to') := by
      omega
    refine ⟨l.readRange m.scanLong (from' ++ '-' :: to') o, ?_, rfl, rfl⟩
    rw [if_pos <| hdash.mpr trivial]
    simp only [RangeLoop.readRange, RangePart.text, scanRange, hfrom, hto, hoctet, Option.map_some, Option.getD_some,
      if_neg hneg, hout]
    exact ite_not ..

theorem fuzzySetMatchRange4_eq (hps : ∀ part ∈ ps, part.Written isdigit) (hos : ∀ o ∈ os, IsOctet o)
    (hsp1 : l.sp1 = cursor '.' (ps.map RangePart.text)) (hsp2 : l.sp2 = cursor '.' os) :
    fuzzySetMatchRange4 m os.length l = outcome4 ps os := by
  induction os generalizing ps l
  case nil          => cases ps <;> rfl
  case cons o os ih =>
    rw [List.length_cons, fuzzySetMatchRange4, hsp1, hsp2]
    cases ps
    case nil          => rfl
    case cons part ps =>
      have hpart := hps part List.mem_cons_self
      have ho := hos o List.mem_cons_self
      have hdot : '.' ∉ part.text := fun hm => absurd (hpart.mem_text hm) (by decide)
      have hdot' : '.' ∉ o := fun hm => absurd (ho.digits _ hm) (by decide)
      have hlen : ¬cfMaxIpLen ≤ o.length := fun h => absurd (Nat.le_trans h ho.length) (by decide)
      rw [List.map_cons, scanPart_cursor hpart.text_ne_nil hdot, outcome4]
      split
      case isTrue  => rfl
      case isFalse =>
        have ⟨l', hcompare, hl1, hl2⟩ := @compare4_eq m (l.next part.text o) part o hpart ho
        rw [RangeLoop.next, hsp1, List.map_cons, advanceCursor_cursor] at hl1
        rw [RangeLoop.next, hsp2, advanceCursor_cursor] at hl2
        rw [Except.bind, if_neg (by simp [hpart.text_ne_nil]), scanPart_cursor ho.ne_nil hdot', if_neg hlen, Except.bind]
        simp only [hcompare]
        by_cases hholds : part.Holds decimal o
        case pos =>
          rw [if_pos hholds, if_pos hholds]
          exact ih (fun p hp => hps p <| List.mem_cons_of_mem _ hp) (fun o ho => hos o <| List.mem_cons_of_mem _ ho) hl1 hl2
        case neg => rw [if_neg hholds, if_neg hholds]

theorem outcome4_value (h : outcome4 ps os = .ok r) (hlen : ps.length ≤ os.length) :
    r.value = 0 ↔ ∀ x ∈ ps.zip os, x.1.Holds decimal x.2 := by
  induction ps generalizing os
  case nil            =>
    cases os
    case nil  =>
      cases h
      exact iff_of_true rfl nofun
    case cons => nomatch h
  case cons part ps ih =>
    cases os
    case nil       => exact absurd hlen (Nat.not_succ_le_zero _)
    case cons o os =>
      rw [outcome4] at h
      rw [List.zip_cons_cons, List.forall_mem_cons]
      split at h
      case isTrue  => nomatch h
      case isFalse =>
        split at h
        case isTrue hholds  => exact (ih h <| Nat.le_of_succ_le_succ hlen).trans (and_iff_right hholds).symm
        case isFalse hholds =>
          cases h
          exact iff_of_false (by decide) fun hall => hholds hall.left

theorem outcome4_ok_iff (hlen : ps.length ≤ os.length) : (∃ r, outcome4 ps os = .ok r) ↔
    (∀ before part after, ps = before ++ part :: after → (∀ x ∈ before.zip os, x.1.Holds decimal x.2) →
      part.text.length < cfMaxIpLen) ∧ (ps.length = os.length ∨ ¬∀ x ∈ ps.zip os, x.1.Holds decimal x.2) := by
  induction ps generalizing os
  case nil            =>
    cases os
    case nil  => exact iff_of_true ⟨_, rfl⟩ ⟨by simp, .inl rfl⟩
    case cons => exact iff_of_false nofun fun h => h.right.elim nofun fun hn => hn nofun
  case cons part ps ih =>
    cases os
    case nil       => exact absurd hlen (Nat.not_succ_le_zero _)
    case cons o os =>
      have ih := ih <| Nat.le_of_succ_le_succ hlen
      rw [outcome4]
      by_cases hlong : cfMaxIpLen ≤ part.text.length
      case pos =>
        rw [if_pos hlong]
        exact iff_of_false nofun fun h => Nat.not_lt.mpr hlong <| h.left [] part ps rfl nofun
      case neg =>
        rw [if_neg hlong]
        by_cases hholds : part.Holds decimal o
        case neg =>
          rw [if_neg hholds]
          refine iff_of_true ⟨_, rfl⟩ ⟨fun before p after he hall => ?_, .inr fun hall => hholds <| hall (part, o) (by simp)⟩
          cases before
          case nil            => exact (List.cons.inj he).left ▸ Nat.not_le.mp hlong
          case cons p' before =>
            cases (List.cons.inj he).left
            exact absurd (hall (part, o) (by simp)) hholds
        case pos =>
          rw [if_pos hholds, ih, List.length_cons, List.length_cons, Nat.succ_inj, List.zip_cons_cons,
            List.forall_mem_cons, and_iff_right (show (part, o).1.Holds decimal (part, o).2 from hholds)]
          refine and_congr_left fun _ => ⟨fun h before p after he hall => ?_, fun h before p after he hall => ?_⟩
          case refine_1 =>
            cases before
            case nil            => exact (List.cons.inj he).left ▸ Nat.not_le.mp hlong
            case cons p' before =>
              have ⟨_, he⟩ := List.cons.inj he
              exact h before p after he fun x hx => hall x <| List.mem_cons_of_mem _ hx
          case refine_2 =>
            refine h (part :: before) p after (he ▸ rfl) fun x hx => ?_
            cases List.mem_cons.mp hx
            case inl hx => exact hx ▸ hholds
            case inr hx => exact hall x hx

theorem fuzzySetMatch_range4 : fuzzySetMatch m spec.text q.text = outcome4 spec.parts q.parts := by
  have hdash : '-' ∈ spec.text := dash_mem_parts spec.range
  have hdash' : '-' ∉ q.text := q.not_mem_text (by decide) (by decide)
  have hslash : '/' ∉ spec.text := fun h => absurd (mem_parts spec.written h) (by decide)
  have hcolon : ':' ∉ spec.text := fun h => absurd (mem_parts spec.written h) (by decide)
  have hcolon' : ':' ∉ q.text := q.not_mem_text (by decide) (by decide)
  have hcmp : ¬CString.strcmp spec.text q.text = 0 := fun h => hdash' <| CString.strcmp_eq_zero_iff.mp h ▸ hdash
  have hparts : spec.parts.map RangePart.text ≠ [] := fun h =>
    absurd spec.length.left <| by rw [List.map_eq_nil_iff.mp h]; decide
  have hq : q.parts ≠ [] := List.ne_nil_of_length_eq_add_one q.length
  have hrun := @fuzzySetMatchRange4_eq m { sp1 := some spec.text, sp2 := some q.text } spec.parts q.parts
    spec.written q.octet (if_neg hparts).symm (if_neg hq).symm
  rw [q.length] at hrun
  simp [fuzzySetMatch, hcmp, hdash, hslash, hcolon, hcolon', q.dot_mem_text, hrun]

end

theorem matchesIPV4Range_iff (m : Inet) (spec : IPV4Range) (q : DottedQuad) :
    MatchesIPV4Range m spec q ↔ spec.Fits q := by
  have hlen : spec.parts.length ≤ q.parts.length := q.length ▸ spec.length.right
  have hok := outcome4_ok_iff hlen
  rw [q.length] at hok
  rw [MatchesIPV4Range, fuzzySetMatch_range4]
  constructor
  case mp  =>
    intro ⟨r, hr, _⟩
    have ⟨hshort, hstops⟩ := hok.mp ⟨r, hr⟩
    exact ⟨hshort, hstops⟩
  case mpr =>
    intro h
    have ⟨r, hr⟩ := hok.mpr ⟨h.short, h.stops⟩
    exact ⟨r, hr, outcome4_value hr hlen⟩

theorem written_example : ∀ part ∈ [RangePart.range ['1'] ['5']], part.Written isdigit := by
  simp [RangePart.Written]
  decide

-- The range of the first octet only is read behind its end.
theorem not_matchesIPV4Range : ¬∀ m spec q, MatchesIPV4Range m spec q := by
  intro h
  have ⟨r, hr, _⟩ := h (exampleInet 64 (.inr rfl)) ⟨[.range ['1'] ['5']], by decide, written_example, by simp [RangePart.IsRange]⟩
    ⟨[['1'], ['2'], ['3'], ['4']], rfl, by decide⟩
  nomatch hr

end CfEngine
