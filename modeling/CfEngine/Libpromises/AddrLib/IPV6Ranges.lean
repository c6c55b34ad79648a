import CfEngine.Libpromises.AddrLib.IPV4Ranges

namespace CfEngine

structure IPV6Range where
  parts   : List RangePart
  length  : parts.length = 8
  written : ∀ part ∈ parts, part.Written isxdigit
  range   : ∃ part ∈ parts, part.IsRange

structure IsHexGroup (s : CString) : Prop where
  digits : ∀ c ∈ s, isxdigit c
  ne_nil : s ≠ []
  length : s.length ≤ 4

instance : DecidablePred IsHexGroup :=
  fun s => decidable_of_iff ((∀ c ∈ s, isxdigit c) ∧ s ≠ [] ∧ s.length ≤ 4)
    ⟨fun ⟨hd, hn, hl⟩ => ⟨hd, hn, hl⟩, fun h => ⟨h.digits, h.ne_nil, h.length⟩⟩

-- An IPv6 address as it is written, with all of its groups.
structure HexGroups where
  groups : List CString
  length : groups.length = 8
  group  : ∀ g ∈ groups, IsHexGroup g

def HexGroups.text (a : HexGroups) : CString :=
  [':'].intercalate a.groups

namespace IPV6Range

def text (spec : IPV6Range) : CString :=
  [':'].intercalate <| spec.parts.map RangePart.text

-- Every group is the number at its position, or is contained in the range.
def Matches (spec : IPV6Range) (a : HexGroups) : Prop :=
  ∀ x ∈ spec.parts.zip a.groups, x.1.Holds hexadecimal x.2

end IPV6Range

-- The decimal number at the start of the text.
def leadingDecimal (s : CString) : Option Nat :=
  if s.takeWhile isdigit = [] then none else some <| decimal <| s.takeWhile isdigit

-- The numbers that are read of a part and of the group at its position, where there are any.
def readPart : RangePart × CString → Option Nat
  | (.number n, _)      => leadingDecimal n
  | (.range from' _, _) => some <| hexadecimal from'

def readGroup : RangePart × CString → Option Nat
  | (.number _, g)  => leadingDecimal g
  | (.range _ _, g) => some <| hexadecimal g

-- The number that has been read last.
def lastRead (read : RangePart × CString → Option Nat) (xs : List (RangePart × CString)) : Option Nat :=
  xs.reverse.findSome? read

-- The group is refused as it is read: a number of the last position with one is compared where there is none, and the
-- start of a range and numbers that are negative as a `long` are not in the range.
def Refused (m : Inet) (before : List (RangePart × CString)) : RangePart × CString → Prop
  | (.number n, g)        => lastRead readPart (before ++ [(.number n, g)]) ≠ lastRead readGroup (before ++ [(.number n, g)])
  | (.range from' to', g) =>
    hexadecimal g ≤ hexadecimal from' ∨ hexadecimal to' < hexadecimal g ∨ 2 ^ (m.longBits - 1) ≤ hexadecimal to'

instance {m : Inet} {before : List (RangePart × CString)} {x : RangePart × CString} : Decidable (Refused m before x) := by
  rcases x with ⟨_ | _, _⟩ <;> unfold Refused <;> infer_instance

-- The parts that are looked at are short enough, and a group is refused exactly if one does not match.
structure IPV6Range.Fits (m : Inet) (spec : IPV6Range) (a : HexGroups) : Prop where
  short  : ∀ before x after, spec.parts.zip a.groups = before ++ x :: after →
    (∀ before' y after', before = before' ++ y :: after' → ¬Refused m before' y) → x.1.text.length < cfMaxIpLen
  agrees : spec.Matches a ↔ ∀ before x after, spec.parts.zip a.groups = before ++ x :: after → ¬Refused m before x

-- The result is zero exactly if all groups match.
def MatchesIPV6Range (m : Inet) (spec : IPV6Range) (a : HexGroups) : Prop :=
  ∃ r, fuzzySetMatch m spec.text a.text = .ok r ∧ (r.value = 0 ↔ spec.Matches a)

-- What the loop comes to behind the given positions.
def outcome6 (m : Inet) (before : List (RangePart × CString)) : List (RangePart × CString) → Except AddrFault FuzzyMatch
  | []      => .ok ⟨0, none⟩
  | x :: xs =>
    if cfMaxIpLen ≤ x.1.text.length then .error .write
    else if Refused m before x then .ok ⟨-1, none⟩
    else outcome6 m (before ++ [x]) xs

-- The value of the number that has been read last, where there is none before the loop.
def Inet.lastLong (m : Inet) (n : Option Nat) : Int :=
  (n.map fun n : Nat => m.toLong n).getD (-1)

section
variable {m : Inet} {l : RangeLoop} {part : RangePart} {ps : List RangePart} {g n rest : CString} {gs : List CString}
  {before xs : List (RangePart × CString)} {x : RangePart × CString} {r : FuzzyMatch}

theorem not_isspace_of_isxdigit {c : Char} (h : isxdigit c) : isspace c = false := by
  simp only [isspace, List.mem_cons, List.not_mem_nil, or_false, decide_eq_false_iff_not]
  rintro (rfl | rfl | rfl | rfl | rfl | rfl) <;> exact absurd h (by decide)

theorem scanHexNumber_digits (hn : ∀ c ∈ n, isxdigit c) (hne : n ≠ []) (hrest : ∀ c ∈ rest.head?, ¬isxdigit c)
    (hx : ∀ c ∈ rest.head?, c ≠ 'x' ∧ c ≠ 'X') : scanHexNumber (n ++ rest) = some ((hexadecimal n : Int), rest) := by
  have hstop : rest.takeWhile isxdigit = [] ∧ rest.dropWhile isxdigit = rest := by
    cases rest
    case nil         => exact ⟨rfl, rfl⟩
    case cons c rest =>
      have hc := hrest c rfl
      exact ⟨List.takeWhile_cons_of_neg hc, List.dropWhile_cons_of_neg hc⟩
  have htake : (n ++ rest).takeWhile isxdigit = n := by
    rw [List.takeWhile_append_of_pos hn, hstop.left, List.append_nil]
  have hdrop : (n ++ rest).dropWhile isxdigit = rest := by
    rw [List.dropWhile_append_of_pos hn, hstop.right]
  cases n
  case nil      => contradiction
  case cons c n =>
    have hc : isxdigit c := hn c List.mem_cons_self
    have hsecond {d : Char} {s : CString} (he : n ++ rest = d :: s) : d ≠ 'x' ∧ d ≠ 'X' := by
      cases n
      case nil      => exact hx d <| congrArg List.head? he
      case cons e n =>
        have hd : isxdigit d := (List.cons.inj he).left ▸ hn e (by simp)
        constructor <;> rintro rfl <;> exact absurd hd (by decide)
    have hsign : scanSign (c :: (n ++ rest)) = (false, c :: (n ++ rest)) := by
      rw [scanSign.eq_def]
      split
      case h_1 he => exact absurd ((List.cons.inj he).left ▸ hc) (by decide)
      case h_2 he => exact absurd ((List.cons.inj he).left ▸ hc) (by decide)
      case h_3    => rfl
    have hzero : skipZeroX (c :: (n ++ rest)) = c :: (n ++ rest) := by
      rw [skipZeroX.eq_def]
      split
      case h_1 he => exact absurd rfl (hsecond (List.cons.inj he).right).left
      case h_2 he => exact absurd rfl (hsecond (List.cons.inj he).right).right
      case h_3    => rfl
    have hspace : (c :: (n ++ rest)).dropWhile isspace = c :: (n ++ rest) :=
      List.dropWhile_cons_of_neg <| by simp [not_isspace_of_isxdigit hc]
    rw [List.cons_append] at htake hdrop ⊢
    simp only [scanHexNumber, hspace, hsign, hzero, htake, hdrop, if_neg hne, Bool.false_eq_true, if_false]

theorem hexadecimal_lt (hs : ∀ c ∈ n, isxdigit c) : hexadecimal n < 16 ^ n.length := by
  induction n using List.reverseRecOn
  case nil                    => decide
  case append_singleton n c ih =>
    have ih := ih fun d hd => hs d <| List.mem_append_left _ hd
    have hc : isxdigit c := hs c <| by simp
    have hlt : char2Hex (hexadecimal n) c < hexadecimal n * 16 + 16 := by
      simp only [isxdigit, isdigit, decide_eq_true_eq, Char.le_def, UInt32.le_iff_toNat_le] at hc
      simp only [char2Hex, Char.le_def, UInt32.le_iff_toNat_le, Char.toNat]
      grind
    rw [hexadecimal_concat, List.length_append, List.length_singleton, Nat.pow_succ]
    omega

theorem decimal_lt (hs : ∀ c ∈ n, isdigit c) : decimal n < 10 ^ n.length := by
  induction n using List.reverseRecOn
  case nil                    => decide
  case append_singleton n c ih =>
    have ih := ih fun d hd => hs d <| List.mem_append_left _ hd
    have hc : isdigit c := hs c <| by simp
    have hlt : char2Dec (decimal n) c < decimal n * 10 + 10 := by
      simp only [isdigit, decide_eq_true_eq, Char.le_def, UInt32.le_iff_toNat_le] at hc
      simp only [char2Dec, Char.toNat]
      grind
    rw [decimal_concat, List.length_append, List.length_singleton, Nat.pow_succ]
    omega

theorem IsHexGroup.hexadecimal_le (h : IsHexGroup g) : hexadecimal g ≤ 65535 := by
  have hlt := hexadecimal_lt h.digits
  have hle : 16 ^ g.length ≤ 16 ^ 4 := Nat.pow_le_pow_right (by decide) h.length
  omega

theorem IsHexGroup.leadingDecimal_le (h : IsHexGroup g) : ∀ n ∈ leadingDecimal g, n ≤ 65535 := by
  intro n hn
  rw [leadingDecimal] at hn
  split at hn
  case isTrue  => nomatch hn
  case isFalse =>
    have hlt := @decimal_lt (g.takeWhile isdigit) fun c hc => List.mem_takeWhile_imp hc
    have hlen : (g.takeWhile isdigit).length ≤ 4 := Nat.le_trans (List.takeWhile_prefix _).length_le h.length
    have hle : 10 ^ (g.takeWhile isdigit).length ≤ 10 ^ 4 := Nat.pow_le_pow_right (by decide) hlen
    cases hn
    omega

theorem isdigit_eq {c : Char} : isdigit c = c.isDigit := by
  rw [isdigit, Bool.decide_and]
  rfl

-- A number that is read as a decimal one, though it need not be.
theorem scanLong_leading (hn : ∀ c ∈ n, isxdigit c) (hne : n ≠ []) :
    (m.scanLong n).map Prod.fst = (leadingDecimal n).map fun n : Nat => m.toLong n := by
  rw [leadingDecimal]
  by_cases hempty : n.takeWhile isdigit = []
  case pos =>
    have ⟨c, t, ht⟩ := List.exists_cons_of_ne_nil hne
    have hc : isxdigit c := hn c <| ht ▸ List.mem_cons_self
    have hdigit : ¬c.isDigit := by
      rw [←isdigit_eq]
      intro h
      rw [ht, List.takeWhile_cons_of_pos h] at hempty
      nomatch hempty
    have hsign : c ≠ '-' ∧ c ≠ '+' := by constructor <;> rintro rfl <;> exact absurd hc (by decide)
    have hnone : scanNumber n = none := by
      simp only [scanNumber, ht, List.dropWhile_cons, not_isspace_of_isxdigit hc, Bool.false_eq_true, if_false]
      split
      case h_1 he => exact absurd (List.cons.inj he).left hsign.left
      case h_2 he => exact absurd (List.cons.inj he).left hsign.right
      case h_3    => rw [List.takeWhile_cons_of_neg hdigit, if_pos rfl]
    rw [if_pos hempty, Inet.scanLong, hnone]
    rfl
  case neg =>
    have hscan := @scanLong_digits m (n.takeWhile isdigit) (n.dropWhile isdigit) hempty
      (fun c hc => List.mem_takeWhile_imp hc) fun c hc => by
        have hstop := List.head?_dropWhile_not isdigit n
        rw [Option.mem_def.mp hc] at hstop
        simpa [isdigit_eq] using hstop
    rw [List.takeWhile_append_dropWhile] at hscan
    rw [if_neg hempty, hscan]
    rfl

theorem scanHexLong_digits (hn : n ≠ [] ∧ ∀ c ∈ n, isxdigit c) (hrest : ∀ c ∈ rest.head?, c = '-') :
    m.scanHexLong (n ++ rest) = some (m.toUnsignedLong (hexadecimal n), rest) := by
  have hscan := @scanHexNumber_digits n rest hn.right hn.left
    (fun c hc => hrest c hc ▸ by decide) (fun c hc => hrest c hc ▸ by decide)
  rw [Inet.scanHexLong, hscan]
  rfl

theorem scanHexLong_number (hn : n ≠ [] ∧ ∀ c ∈ n, isxdigit c) :
    m.scanHexLong n = some (m.toUnsignedLong (hexadecimal n), []) := by
  have h := @scanHexLong_digits m n [] hn nofun
  rwa [List.append_nil] at h

-- The larger half of the numbers is negative as a `long`.
theorem Inet.toUnsignedLong_cases (k : Nat) :
    k < 2 ^ (m.longBits - 1) ∧ m.toUnsignedLong k = k ∨ 2 ^ (m.longBits - 1) ≤ k ∧ m.toUnsignedLong k < 0 := by
  rw [toUnsignedLong]
  rcases m.long_32_64 with h | h
  all_goals
    rw [h]
    norm_num
    omega

theorem Inet.two_pow_le : 2 ^ 31 ≤ 2 ^ (m.longBits - 1) :=
  Nat.pow_le_pow_right (by decide) <| by
    have h := m.long_32_64
    omega

theorem lastRead_concat {read : RangePart × CString → Option Nat} :
    lastRead read (before ++ [x]) = (read x).or (lastRead read before) := by
  rw [lastRead, List.reverse_concat, List.findSome?_cons]
  cases read x <;> rfl

theorem lastLong_or {o o' : Option Nat} : m.lastLong (o.or o') = (o.map fun n : Nat => m.toLong n).getD (m.lastLong o') := by
  cases o <;> rfl

theorem lastLong_inj {o o' : Option Nat} (ho : ∀ n ∈ o', n ≤ 65535) : m.lastLong o = m.lastLong o' ↔ o = o' := by
  have hpos (n : Nat) : 0 ≤ m.toLong n := (@Inet.toLong_le_iff m n 0 (by omega)).right.mpr (Int.natCast_nonneg n)
  cases o' <;> cases o
  case none.none    => exact iff_of_true rfl rfl
  case none.some n  =>
    have hn : m.lastLong (some n) = m.toLong n := rfl
    have hnone : m.lastLong none = -1 := rfl
    have hn' := hpos n
    rw [hn, hnone]
    exact iff_of_false (by omega) nofun
  case some.none n  =>
    have hn : m.lastLong (some n) = m.toLong n := rfl
    have hnone : m.lastLong none = -1 := rfl
    have hn' := hpos n
    rw [hn, hnone]
    exact iff_of_false (by omega) nofun
  case some.some n k =>
    have hle := ho n rfl
    have heq : m.toLong n = n := Inet.toLong_eq (by omega)
    have hiff := @Inet.toLong_le_iff m k n (by omega)
    have hn : m.lastLong (some n) = m.toLong n := rfl
    have hk : m.lastLong (some k) = m.toLong k := rfl
    rw [hn, hk, heq, Option.some_inj]
    omega

theorem lastRead_le (hxs : ∀ y ∈ xs, IsHexGroup y.2) : ∀ n ∈ lastRead readGroup xs, n ≤ 65535 := by
  intro n hn
  have ⟨y, hy, hread⟩ := List.exists_of_findSome?_eq_some hn
  have hgroup := hxs y <| List.mem_reverse.mp hy
  obtain ⟨part, g⟩ := y
  cases part
  case number => exact hgroup.leadingDecimal_le n hread
  case range  => exact Option.some.inj hread ▸ hgroup.hexadecimal_le

-- What the body of the loop leaves for the next group.
structure RangeLoop.Behind (m : Inet) (l : RangeLoop) (before : List (RangePart × CString)) : Prop where
  from' : l.from' = m.lastLong (lastRead readPart before)
  cmp   : l.cmp = m.lastLong (lastRead readGroup before)

theorem compare6_eq (hpart : part.Written isxdigit) (hgroups : ∀ y ∈ before ++ [(part, g)], IsHexGroup y.2)
    (h : l.Behind m before) : ∃ l', l.compare6 m part.text g = (if Refused m before (part, g) then none else some l') ∧
      l'.sp1 = l.sp1 ∧ l'.sp2 = l.sp2 ∧ (¬Refused m before (part, g) → l'.Behind m (before ++ [(part, g)])) := by
  have hg : IsHexGroup g := hgroups (part, g) <| by simp
  have hdash := hpart.dash_mem_iff (by decide)
  rw [RangeLoop.compare6]
  cases part
  case number n        =>
    have hbehind : (l.readNumber m.scanLong n g).Behind m (before ++ [(.number n, g)]) := by
      constructor
      case from' =>
        rw [RangeLoop.readNumber, lastRead_concat, lastLong_or, scanLong_leading hpart.right hpart.left, h.from']
        rfl
      case cmp   =>
        rw [RangeLoop.readNumber, lastRead_concat, lastLong_or, scanLong_leading hg.digits hg.ne_nil, h.cmp]
        rfl
    have hrefused : (l.readNumber m.scanLong n g).from' ≠ (l.readNumber m.scanLong n g).cmp ↔
        Refused m before (.number n, g) := by
      rw [hbehind.from', hbehind.cmp]
      exact (lastLong_inj <| lastRead_le hgroups).not
    refine ⟨l.readNumber m.scanLong n g, ?_, rfl, rfl, fun _ => hbehind⟩
    rw [if_neg <| hdash.not.mpr id]
    simp only [RangePart.text, hrefused]
  case range from' to' =>
    have hfrom : m.scanHexLong (from' ++ '-' :: to') = _ :=
      scanHexLong_digits hpart.left fun c hc => (Option.some.inj hc).symm
    have hto : m.scanHexLong to' = _ := scanHexLong_number hpart.right
    have hcmp : m.scanHexLong g = _ := scanHexLong_number ⟨hg.ne_nil, hg.digits⟩
    have hle := hg.hexadecimal_le
    have hpow := @Inet.two_pow_le m
    have hcases := @Inet.toUnsignedLong_cases m
    have hrefused : (m.toUnsignedLong (hexadecimal from') < 0 ∨ m.toUnsignedLong (hexadecimal to') < 0) ∨
        (m.toUnsignedLong (hexadecimal from') ≥ m.toUnsignedLong (hexadecimal g) ∨
          m.toUnsignedLong (hexadecimal g) > m.toUnsignedLong (hexadecimal to')) ↔ Refused m before (.range from' to', g) := by
      have hf := hcases (hexadecimal from')
      have ht := hcases (hexadecimal to')
      have hc := hcases (hexadecimal g)
      rw [Refused]
      omega
    have hbehind : ¬Refused m before (.range from' to', g) →
        (l.readRange m.scanHexLong (from' ++ '-' :: to') g).Behind m (before ++ [(.range from' to', g)]) := by
      intro hnot
      have hlt : hexadecimal from' < hexadecimal g := Nat.not_le.mp fun hge => hnot <| .inl hge
      constructor
      case from' =>
        have hf := hcases (hexadecimal from')
        rw [lastRead_concat, lastLong_or]
        simp only [RangeLoop.readRange, scanRange, hfrom, readPart, Option.map_some, Option.getD_some]
        rw [Inet.toLong_eq (by omega)]
        omega
      case cmp   =>
        have hc := hcases (hexadecimal g)
        rw [lastRead_concat, lastLong_or]
        simp only [RangeLoop.readRange, hcmp, readGroup, Option.map_some, Option.getD_some]
        rw [Inet.toLong_eq (by omega)]
        omega
    refine ⟨l.readRange m.scanHexLong (from' ++ '-' :: to') g, ?_, rfl, rfl, hbehind⟩
    rw [if_pos <| hdash.mpr trivial]
    simp only [RangeLoop.readRange, RangePart.text, scanRange, hfrom, hto, hcmp, Option.map_some, Option.getD_some]
    rw [←ite_or, if_congr hrefused rfl rfl]

theorem fuzzySetMatchRange6_eq (hparts : ∀ x ∈ xs, x.1.Written isxdigit) (hgroups : ∀ y ∈ before ++ xs, IsHexGroup y.2)
    (hsp1 : l.sp1 = cursor ':' (xs.map (·.1.text))) (hsp2 : l.sp2 = cursor ':' (xs.map Prod.snd))
    (h : l.Behind m before) : fuzzySetMatchRange6 m xs.length l = outcome6 m before xs := by
  induction xs generalizing before l
  case nil          => rfl
  case cons x xs ih =>
    obtain ⟨part, g⟩ := x
    have hpart : part.Written isxdigit := hparts (part, g) List.mem_cons_self
    have hg : IsHexGroup g := hgroups (part, g) <| by simp
    have hcolon : ':' ∉ part.text := fun hm => absurd (hpart.mem_text hm) (by decide)
    have hcolon' : ':' ∉ g := fun hm => absurd (hg.digits _ hm) (by decide)
    have hlen : ¬cfMaxIpLen ≤ g.length := fun h => absurd (Nat.le_trans h hg.length) (by decide)
    rw [List.length_cons, fuzzySetMatchRange6, hsp1, hsp2, List.map_cons, List.map_cons,
      scanPart_cursor hpart.text_ne_nil hcolon, outcome6]
    split
    case isTrue  => rfl
    case isFalse =>
      have hnext : (l.next part.text g).Behind m before := ⟨h.from', h.cmp⟩
      have hgroups' : ∀ y ∈ before ++ [(part, g)], IsHexGroup y.2 := fun y hy =>
        hgroups y <| List.append_cons before _ xs ▸ List.mem_append_left _ hy
      have ⟨l', hcompare, hl1, hl2, hbehind⟩ := compare6_eq hpart hgroups' hnext
      rw [RangeLoop.next, hsp1, List.map_cons, advanceCursor_cursor] at hl1
      rw [RangeLoop.next, hsp2, List.map_cons, advanceCursor_cursor] at hl2
      rw [Except.bind, scanPart_cursor hg.ne_nil hcolon', if_neg hlen, Except.bind]
      simp only [hcompare]
      by_cases hrefused : Refused m before (part, g)
      case pos => rw [if_pos hrefused, if_pos hrefused]
      case neg =>
        rw [if_neg hrefused, if_neg hrefused]
        exact ih (fun x hx => hparts x <| List.mem_cons_of_mem _ hx)
          (fun y hy => hgroups y <| List.append_cons before _ xs ▸ hy) hl1 hl2 (hbehind hrefused)

theorem outcome6_value (h : outcome6 m before xs = .ok r) :
    r.value = 0 ↔ ∀ bs x as, xs = bs ++ x :: as → ¬Refused m (before ++ bs) x := by
  induction xs generalizing before
  case nil          =>
    cases h
    exact iff_of_true rfl fun bs x as he => by simp at he
  case cons x xs ih =>
    rw [outcome6] at h
    split at h
    case isTrue  => nomatch h
    case isFalse =>
      split at h
      case isTrue hrefused  =>
        cases h
        exact iff_of_false (by decide) fun hall => hall [] x xs rfl <| by rwa [List.append_nil]
      case isFalse hrefused =>
        refine (ih h).trans ⟨fun hall bs y as he => ?_, fun hall bs y as he => ?_⟩
        case refine_1 =>
          cases bs
          case nil       => rwa [List.append_nil, ←(List.cons.inj he).left]
          case cons b bs =>
            have ⟨hb, he⟩ := List.cons.inj he
            rw [List.append_cons, ←hb]
            exact hall bs y as he
        case refine_2 =>
          rw [←List.append_cons]
          exact hall (x :: bs) y as (he ▸ rfl)

theorem outcome6_ok_iff : (∃ r, outcome6 m before xs = .ok r) ↔ ∀ bs x as, xs = bs ++ x :: as →
    (∀ bs' y as', bs = bs' ++ y :: as' → ¬Refused m (before ++ bs') y) → x.1.text.length < cfMaxIpLen := by
  induction xs generalizing before
  case nil          => exact iff_of_true ⟨_, rfl⟩ fun bs x as he => by simp at he
  case cons x xs ih =>
    rw [outcome6]
    by_cases hlong : cfMaxIpLen ≤ x.1.text.length
    case pos =>
      rw [if_pos hlong]
      exact iff_of_false nofun fun h => Nat.not_lt.mpr hlong <| h [] x xs rfl fun bs' y as' he => by simp at he
    case neg =>
      rw [if_neg hlong]
      by_cases hrefused : Refused m before x
      case pos =>
        rw [if_pos hrefused]
        refine iff_of_true ⟨_, rfl⟩ fun bs y as he hall => ?_
        cases bs
        case nil       => exact (List.cons.inj he).left ▸ Nat.not_le.mp hlong
        case cons b bs =>
          have hnot := hall [] b bs rfl
          rw [List.append_nil, ←(List.cons.inj he).left] at hnot
          exact absurd hrefused hnot
      case neg =>
        rw [if_neg hrefused, ih]
        refine ⟨fun h bs y as he hall => ?_, fun h bs y as he hall => ?_⟩
        case refine_1 =>
          cases bs
          case nil       => exact (List.cons.inj he).left ▸ Nat.not_le.mp hlong
          case cons b bs =>
            have ⟨hb, he⟩ := List.cons.inj he
            refine h bs y as he fun bs' z as' hbs => ?_
            rw [hb, ←List.append_cons]
            exact hall (b :: bs') z as' (hbs ▸ rfl)
        case refine_2 =>
          refine h (x :: bs) y as (he ▸ rfl) fun bs' z as' hbs => ?_
          cases bs'
          case nil        => rwa [List.append_nil, ←(List.cons.inj hbs).left]
          case cons b bs' =>
            have ⟨hb, hbs⟩ := List.cons.inj hbs
            rw [List.append_cons, ←hb]
            exact hall bs' z as' hbs

section
variable {spec : IPV6Range} {a : HexGroups}

theorem HexGroups.colon_mem_text (a : HexGroups) : ':' ∈ a.text := by
  have hlen := a.length
  rw [text]
  generalize a.groups = groups at hlen ⊢
  match groups, hlen with
  | g :: g' :: gs, _ => simp [List.intercalate_cons_cons]

theorem fuzzySetMatch_range6 : fuzzySetMatch m spec.text a.text = outcome6 m [] (spec.parts.zip a.groups) := by
  have hnot {c : Char} (hcolon : c ≠ ':') (hdigit : ¬isxdigit c) : c ∉ a.text := fun h =>
    (mem_intercalate h).elim hcolon fun ⟨g, hg, hc⟩ => hdigit <| (a.group g hg).digits c hc
  have hdash : '-' ∈ spec.text := dash_mem_parts spec.range
  have hslash : '/' ∉ spec.text := fun h => absurd (mem_parts spec.written h) (by decide)
  have hdot : '.' ∉ spec.text := fun h => absurd (mem_parts spec.written h) (by decide)
  have hdash' : '-' ∉ a.text := hnot (by decide) (by decide)
  have hdot' : '.' ∉ a.text := hnot (by decide) (by decide)
  have hcmp : ¬CString.strcmp spec.text a.text = 0 := fun h => hdash' <| CString.strcmp_eq_zero_iff.mp h ▸ hdash
  have hlen : spec.parts.length = a.groups.length := spec.length.trans a.length.symm
  have htexts : (spec.parts.zip a.groups).map (·.1.text) = spec.parts.map RangePart.text := by
    have hcomp := @List.map_map _ _ _ RangePart.text Prod.fst (spec.parts.zip a.groups)
    rw [List.map_fst_zip (Nat.le_of_eq hlen)] at hcomp
    exact hcomp.symm
  have hgroups : (spec.parts.zip a.groups).map Prod.snd = a.groups := List.map_snd_zip (Nat.le_of_eq hlen.symm)
  have hparts : spec.parts.map RangePart.text ≠ [] := fun h =>
    absurd spec.length <| by rw [List.map_eq_nil_iff.mp h]; decide
  have ha : a.groups ≠ [] := List.ne_nil_of_length_eq_add_one a.length
  have hcolon := a.colon_mem_text
  have hsp1 : some spec.text = cursor ':' ((spec.parts.zip a.groups).map (·.1.text)) := by
    rw [htexts, cursor, if_neg hparts]
    rfl
  have hsp2 : some a.text = cursor ':' ((spec.parts.zip a.groups).map Prod.snd) := by
    rw [hgroups, cursor, if_neg ha]
    rfl
  have hrun := @fuzzySetMatchRange6_eq m { sp1 := some spec.text, sp2 := some a.text } [] (spec.parts.zip a.groups)
    (fun x hx => spec.written x.1 (List.of_mem_zip hx).left) (fun y hy => a.group y.2 (List.of_mem_zip hy).right)
    hsp1 hsp2 ⟨rfl, rfl⟩
  rw [List.length_zip, spec.length, a.length, Nat.min_self] at hrun
  simp [fuzzySetMatch, hcmp, hdash, hslash, hcolon, hdot, hdot', hrun]

end

end

theorem matchesIPV6Range_iff (m : Inet) (spec : IPV6Range) (a : HexGroups) :
    MatchesIPV6Range m spec a ↔ spec.Fits m a := by
  have hok := @outcome6_ok_iff m [] (spec.parts.zip a.groups)
  rw [MatchesIPV6Range, fuzzySetMatch_range6]
  constructor
  case mp  =>
    intro ⟨r, hr, hiff⟩
    exact ⟨hok.mp ⟨r, hr⟩, hiff.symm.trans <| outcome6_value hr⟩
  case mpr =>
    intro h
    have ⟨r, hr⟩ := hok.mpr h.short
    exact ⟨r, hr, (outcome6_value hr).trans h.agrees.symm⟩

theorem written_example6 :
    ∀ part ∈ RangePart.number ['a'] :: RangePart.range ['1'] ['5'] :: List.replicate 6 (.number ['0']),
      part.Written isxdigit := by
  simp [RangePart.Written]
  decide

-- Letters are not read in decimal, and so any two of them are taken for equal.
theorem not_matchesIPV6Range : ¬∀ m spec a, MatchesIPV6Range m spec a := by
  intro h
  obtain ⟨r, hr, hiff⟩ := h (exampleInet 64 (.inr rfl))
    ⟨.number ['a'] :: .range ['1'] ['5'] :: List.replicate 6 (.number ['0']), rfl, written_example6, by simp [RangePart.IsRange]⟩
    ⟨[['b'], ['2'], ['0'], ['0'], ['0'], ['0'], ['0'], ['0']], rfl, by decide⟩
  cases hr
  exact absurd (hiff.mp rfl (.number ['a'], ['b']) List.mem_cons_self) (by decide)

end CfEngine
