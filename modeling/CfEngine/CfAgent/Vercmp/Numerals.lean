import CfEngine.CfAgent.Vercmp
import CfEngine.Library.Numerals

namespace CfEngine

open Numerals

def numeral (n : Nat) : CString :=
  Nat.toDigits 10 n

-- A version is written with its numbers between dots.
def dotted (ns : List Nat) : CString :=
  ['.'].intercalate (ns.map numeral)

-- A version is less where the first number that differs is, or where the other one goes on.
abbrev VersionLt : List Nat → List Nat → Prop :=
  List.Lex (· < ·)

-- The version and its numerals fit into the buffers.
structure FitsBuffers (ns : List Nat) : Prop where
  numerals : ∀ n ∈ ns, (numeral n).length ≤ 29
  version  : (dotted ns).length < cfBufSize

-- The numerals have the same number of digits, or the shorter one is not greater than the start of the longer one.
def SameTextOrder (n m : Nat) : Prop :=
  ((numeral n).length < (numeral m).length → ¬CString.strcmp ((numeral m).take (numeral n).length) (numeral n) < 0) ∧
    ((numeral m).length < (numeral n).length → ¬CString.strcmp ((numeral n).take (numeral m).length) (numeral m) < 0)

-- The first numbers that differ are related.
def AtFirstDifference (r : Nat → Nat → Prop) : List Nat → List Nat → Prop
  | n :: ns, m :: ms => if n = m then AtFirstDifference r ns ms else r n m
  | _, _             => True

-- The versions are read as they are written, and what is read is in the order of their numbers.
structure ReadInOrder (ns ms : List Nat) : Prop where
  fits  : FitsBuffers ns
  fits' : FitsBuffers ms
  order : AtFirstDifference SameTextOrder ns ms

section
variable {a b s : CString} {c : Char} {n m : Nat} {ns ms : List Nat}
variable {run : CString → CString → CString → VersionCmpResult}

theorem strcmp_lt_zero_iff (ha : ∀ c ∈ a, c.isDigit) (hb : ∀ c ∈ b, c.isDigit) (hlen : a.length = b.length) :
    CString.strcmp a b < 0 ↔ value a < value b := by
  induction a generalizing b
  case nil         =>
    obtain rfl := List.length_eq_zero_iff.mp hlen.symm
    exact iff_of_false (by decide) (by decide)
  case cons c a ih =>
    cases b
    case nil      => cases hlen
    case cons d b =>
      have hlen : a.length = b.length := Nat.succ.inj hlen
      have hc := ha c List.mem_cons_self
      have hd := hb d List.mem_cons_self
      have ha := fun e he => ha e <| List.mem_cons_of_mem c he
      have hb := fun e he => hb e <| List.mem_cons_of_mem d he
      rw [CString.strcmp]
      by_cases hcd : c = d
      case pos =>
        rw [if_pos hcd, ih ha hb hlen, value_cons, value_cons, hcd, hlen]
        exact (Nat.add_lt_add_iff_left).symm
      case neg =>
        have hne : c.toNat ≠ d.toNat := fun he => hcd <| Char.toNat_inj.mp he
        rw [if_neg hcd]
        cases Nat.lt_or_gt_of_ne hne
        case inl hlt =>
          have hval := value_lt_of_head ha hc hlt hlen
          exact iff_of_true (by omega) hval
        case inr hgt =>
          have hval := value_lt_of_head hb hd hgt hlen.symm
          exact iff_of_false (by omega) (by omega)

theorem strcmp_longer (hlen : a.length < b.length) :
    CString.strcmp a b < 0 ↔ ¬CString.strcmp (b.take a.length) a < 0 := by
  induction a generalizing b
  case nil         =>
    cases b
    case nil      => cases hlen
    case cons d b =>
      have htake : ¬CString.strcmp ((d :: b).take 0) [] < 0 := by
        rw [List.take_zero]
        decide
      refine iff_of_true ?_ htake
      rw [CString.strcmp]
      omega
  case cons c a ih =>
    cases b
    case nil      => cases hlen
    case cons d b =>
      have ih := ih (Nat.lt_of_succ_lt_succ hlen)
      rw [List.length_cons, List.take_succ_cons, CString.strcmp, CString.strcmp]
      by_cases hcd : c = d
      case pos => rw [if_pos hcd, if_pos hcd.symm, ih]
      case neg =>
        have hne : c.toNat ≠ d.toNat := fun he => hcd <| Char.toNat_inj.mp he
        rw [if_neg hcd, if_neg (Ne.symm hcd)]
        omega

theorem numeral_digits (n : Nat) : ∀ c ∈ numeral n, c.isDigit :=
  fun _ hc => isDigit_of_mem_toDigits hc

theorem strcmp_numeral_ne_zero (hne : n ≠ m) : CString.strcmp (numeral n) (numeral m) ≠ 0 :=
  fun he => hne <| toDigits_injective <| CString.strcmp_eq_zero_iff.mp he

theorem sameTextOrder_iff (hne : n ≠ m) : SameTextOrder n m ↔ (CString.strcmp (numeral n) (numeral m) < 0 ↔ n < m) := by
  have hswap := CString.strcmp_swap (numeral n) (numeral m)
  have hcmp := strcmp_numeral_ne_zero hne
  rw [SameTextOrder]
  rcases Nat.lt_trichotomy (numeral n).length (numeral m).length with hlen | hlen | hlen
  case inl     =>
    have hlt : n < m := lt_of_length_toDigits_lt hlen
    rw [strcmp_longer hlen]
    simp [hlen, hlt, Nat.not_lt.mpr hlen.le]
  case inr.inl =>
    have hval := strcmp_lt_zero_iff (numeral_digits n) (numeral_digits m) hlen
    rw [numeral, numeral, value_toDigits, value_toDigits] at hval
    simp only [hlen, Nat.lt_irrefl, false_implies, true_and, true_iff]
    exact hval
  case inr.inr =>
    have hlt : m < n := lt_of_length_toDigits_lt hlen
    have hlonger := strcmp_longer hlen
    simp only [hlen, Nat.not_lt.mpr hlen.le, true_implies, false_implies, true_and, ←hlonger, Nat.not_lt.mpr hlt.le,
      iff_false]
    omega

-- A numeral that fits into its buffer is read up to its end.
theorem takeWhile_numeral (hlen : (numeral n).length ≤ 29) (hs : ∀ c ∈ s.head?, ¬c.isAlphanum) :
    ((numeral n ++ s).takeWhile Char.isAlphanum).take 29 = numeral n := by
  have hdigits : ∀ c ∈ numeral n, c.isAlphanum := fun c hc => by
    rw [Char.isAlphanum, numeral_digits n c hc, Bool.or_true]
  have hstop : s.takeWhile Char.isAlphanum = [] := by
    cases s
    case nil      => rfl
    case cons c s => exact List.takeWhile_cons_of_neg <| hs c rfl
  rw [List.takeWhile_append_of_pos hdigits, hstop, List.append_nil, List.take_of_length_le hlen]

theorem numeral_ne_nil : numeral n ≠ [] :=
  Nat.toDigits_ne_nil

theorem numeral_append_ne_nil : numeral n ++ s ≠ [] :=
  List.append_ne_nil_of_left_ne_nil numeral_ne_nil _

theorem parsePackageVersion_last (hlen : (numeral n).length ≤ 29) :
    parsePackageVersion (numeral n) = ([numeral n], []) := by
  have hnil : ∀ c ∈ ([] : CString).head?, ¬c.isAlphanum := nofun
  have hnum := takeWhile_numeral hlen hnil
  rw [List.append_nil] at hnum
  rw [parsePackageVersion, if_neg numeral_ne_nil]
  dsimp only
  split
  case h_1        => rw [hnum]
  case h_2 c sp h =>
    rw [hnum, List.drop_length] at h
    cases h

theorem parsePackageVersion_cons (hlen : (numeral n).length ≤ 29) : parsePackageVersion (numeral n ++ '.' :: s) =
    (numeral n :: (parsePackageVersion s).1, ['.'] :: (parsePackageVersion s).2) := by
  have hdot : ∀ c ∈ ('.' :: s).head?, ¬c.isAlphanum := fun c hc => Option.some.inj hc ▸ by decide
  have hnum := takeWhile_numeral hlen hdot
  rw [parsePackageVersion, if_neg numeral_append_ne_nil]
  dsimp only
  split
  case h_1 h      =>
    rw [hnum, List.drop_left] at h
    cases h
  case h_2 c sp h =>
    rw [hnum, List.drop_left] at h
    cases h
    rw [hnum]
    rfl

theorem dotted_cons_cons : dotted (n :: m :: ns) = numeral n ++ '.' :: dotted (m :: ns) := by
  rw [dotted, List.map_cons, List.map_cons, List.intercalate_cons_cons, List.append_assoc]
  rfl

theorem parsePackageVersion_dotted (hne : ns ≠ []) (hlen : ∀ n ∈ ns, (numeral n).length ≤ 29) :
    parsePackageVersion (dotted ns) = (ns.map numeral, List.replicate (ns.length - 1) ['.']) := by
  induction ns
  case nil          => exact absurd rfl hne
  case cons n ns ih =>
    have hn := hlen n List.mem_cons_self
    cases ns
    case nil       =>
      have hsingle : dotted [n] = numeral n := List.intercalate_singleton
      rw [hsingle, parsePackageVersion_last hn]
      rfl
    case cons m ns =>
      have ih := ih (List.cons_ne_nil _ _) fun k hk => hlen k <| List.mem_cons_of_mem _ hk
      rw [dotted_cons_cons, parsePackageVersion_cons hn, ih]
      rfl

theorem mem_dotted (hc : c ∈ dotted ns) : c = '.' ∨ c.isDigit := by
  induction ns
  case nil          => cases hc
  case cons n ns ih =>
    cases ns
    case nil       =>
      rw [dotted, List.map_singleton, List.intercalate_singleton] at hc
      exact .inr <| numeral_digits n c hc
    case cons m ns =>
      rw [dotted_cons_cons, List.mem_append, List.mem_cons] at hc
      rcases hc with hc | hc | hc
      case inl     => exact .inr <| numeral_digits n c hc
      case inr.inl => exact .inl hc
      case inr.inr => exact ih hc

theorem canonifyChar_dotted (hlen : (dotted ns).length < cfBufSize) : canonifyChar (dotted ns) ',' = dotted ns := by
  rw [canonifyChar, List.take_of_length_le (by omega)]
  refine (List.map_congr_left fun c hc => if_neg ?_).trans <| List.map_id _
  rintro rfl
  exact absurd (mem_dotted hc) (by decide)

theorem compatibleSeparators_replicate {k l : Nat} :
    compatibleSeparators (List.replicate k ['.']) (List.replicate l ['.']) := by
  induction k generalizing l
  case zero      => rfl
  case succ k ih =>
    cases l
    case zero   => rfl
    case succ l =>
      have hcmp : ¬CString.strcmp ['.'] ['.'] ≠ 0 := by decide
      rw [List.replicate_succ, List.replicate_succ, compatibleSeparators, if_neg hcmp]
      split
      case isTrue  => rfl
      case isFalse => exact ih

theorem versionNumbers_dotted (hne : ns ≠ []) (h : FitsBuffers ns) : versionNumbers (dotted ns) = ns.map numeral := by
  rw [versionNumbers, canonifyChar_dotted h.version, parsePackageVersion_dotted hne h.numerals]

theorem versionSeparators_dotted (hne : ns ≠ []) (h : FitsBuffers ns) :
    versionSeparators (dotted ns) = List.replicate (ns.length - 1) ['.'] := by
  rw [versionSeparators, canonifyChar_dotted h.version, parsePackageVersion_dotted hne h.numerals]

theorem compatibleVersions_dotted (hns : ns ≠ []) (hms : ms ≠ []) (hn : FitsBuffers ns) (hm : FitsBuffers ms) :
    CompatibleVersions (dotted ns) (dotted ms) := by
  rw [CompatibleVersions, versionSeparators_dotted hns hn, versionSeparators_dotted hms hm]
  exact compatibleSeparators_replicate

theorem numbersLt_iff :
    (NumbersLt (ns.map numeral) (ms.map numeral) ↔ VersionLt ns ms) ↔ AtFirstDifference SameTextOrder ns ms := by
  induction ns generalizing ms <;> cases ms
  case nil.nil               => simp [NumbersLt, VersionLt, AtFirstDifference]
  case nil.cons              => simp [NumbersLt, VersionLt, AtFirstDifference]
  case cons.nil              => simp [NumbersLt, VersionLt, AtFirstDifference]
  case cons.cons n ns ih m ms =>
    rw [List.map_cons, List.map_cons, NumbersLt, VersionLt, List.cons_lex_cons_iff, List.cons_lex_cons_iff,
      AtFirstDifference]
    by_cases hnm : n = m
    case pos =>
      rw [if_pos hnm, ←ih, hnm]
      simp [CString.strcmp_irrefl]
    case neg =>
      have hnum : numeral n ≠ numeral m := fun he => hnm <| toDigits_injective he
      simp only [hnm, hnum, false_and, or_false, if_false]
      exact (sameTextOrder_iff hnm).symm

theorem versionMatches_dotted (hns : ns ≠ []) (hms : ms ≠ []) (hn : FitsBuffers ns) (hm : FitsBuffers ms) :
    (VersionMatches run .lt (dotted ns) (dotted ms) ↔ VersionLt ns ms) ↔ AtFirstDifference SameTextOrder ns ms := by
  rw [versionMatches_lt_iff, and_iff_right (compatibleVersions_dotted hns hms hn hm), versionNumbers_dotted hns hn,
    versionNumbers_dotted hms hm, numbersLt_iff]

theorem parsePackageVersion_numerals (hne : s ≠ []) :
    let token := (s.takeWhile Char.isAlphanum).take 29
    (parsePackageVersion s).1 = token :: (parsePackageVersion <| s.drop (token.length + 1)).1 := by
  rw [parsePackageVersion, if_neg hne]
  dsimp only
  split
  case h_1 h      =>
    rw [List.drop_eq_nil_of_le <| (List.drop_eq_nil_iff.mp h).trans <| Nat.le_succ _, parsePackageVersion, if_pos rfl]
  case h_2 c sp h => rw [←List.drop_drop, h, List.drop_one, List.tail_cons]

-- A numeral fits into its buffer.
theorem length_le_of_mem_parsePackageVersion : ∀ f ∈ (parsePackageVersion s).1, f.length ≤ 29 := by
  induction hk : s.length using Nat.strong_induction_on generalizing s with
  | _ k ih =>
    by_cases hne : s = []
    case pos =>
      rw [hne, parsePackageVersion, if_pos rfl]
      exact nofun
    case neg =>
      have hpos := List.length_pos_iff.mpr hne
      rw [parsePackageVersion_numerals hne, List.forall_mem_cons]
      refine ⟨List.length_take_le .., ih _ ?_ rfl⟩
      rw [List.length_drop]
      omega

-- The numerals do not overlap, and there is a character between each two.
theorem sum_length_parsePackageVersion :
    ((parsePackageVersion s).1.map List.length).sum + (parsePackageVersion s).1.length ≤ s.length + 1 := by
  induction hk : s.length using Nat.strong_induction_on generalizing s with
  | _ k ih =>
    by_cases hne : s = []
    case pos =>
      rw [hne, parsePackageVersion, if_pos rfl]
      exact Nat.zero_le _
    case neg =>
      have hpos := List.length_pos_iff.mpr hne
      have hle : ((s.takeWhile Char.isAlphanum).take 29).length ≤ s.length :=
        ((List.take_prefix ..).trans <| List.takeWhile_prefix _).length_le
      rw [parsePackageVersion_numerals hne]
      generalize ((s.takeWhile Char.isAlphanum).take 29) = token at hle ⊢
      have ih := @ih (s.drop (token.length + 1)).length (by rw [List.length_drop]; omega) _ rfl
      rw [List.length_drop] at ih
      rw [List.map_cons, List.sum_cons, List.length_cons]
      by_cases hlast : token.length = s.length
      case neg => omega
      case pos =>
        rw [List.drop_eq_nil_of_le <| hlast ▸ Nat.le_succ _, parsePackageVersion, if_pos rfl, hlast]
        simp [hk]

theorem length_dotted (hne : ns ≠ []) :
    (dotted ns).length + 1 = ((ns.map numeral).map List.length).sum + (ns.map numeral).length := by
  induction ns
  case nil          => exact absurd rfl hne
  case cons n ns ih =>
    cases ns
    case nil       => simp [dotted]
    case cons m ns =>
      have ih := ih <| List.cons_ne_nil _ _
      have hdot : (dotted (n :: m :: ns)).length = (numeral n).length + ((dotted (m :: ns)).length + 1) := by
        rw [dotted_cons_cons, List.length_append, List.length_cons]
      rw [hdot, ih]
      simp only [List.map_cons, List.sum_cons, List.length_cons]
      omega

-- A version that does not fit is not read as it is written.
theorem versionNumbers_ne (hne : ns ≠ []) (h : ¬FitsBuffers ns) : versionNumbers (dotted ns) ≠ ns.map numeral := by
  intro hread
  refine h ⟨fun n hn => ?_, ?_⟩
  case refine_1 =>
    have hmem : numeral n ∈ versionNumbers (dotted ns) := hread ▸ List.mem_map_of_mem hn
    exact length_le_of_mem_parsePackageVersion _ hmem
  case refine_2 =>
    have hsum := @sum_length_parsePackageVersion (canonifyChar (dotted ns) ',')
    rw [←versionNumbers, hread, ←length_dotted hne, canonifyChar, List.length_map, List.length_take] at hsum
    have hbuf : 0 < cfBufSize := by decide
    omega

end

-- The comparison goes by the text of the numbers. Where they are read, it agrees with their order just where the text
-- does.
theorem compareVersions_lt_iff (run : CString → CString → CString → VersionCmpResult) (equalCommand : Option CString)
    (ns ms : List Nat) (hns : ns ≠ []) (hms : ms ≠ []) :
    let matched := compareVersions run (dotted ns) (dotted ms) ⟨.lt, none, equalCommand⟩ = .matching
    (ReadInOrder ns ms → (matched ↔ VersionLt ns ms)) ∧
      (FitsBuffers ns → FitsBuffers ms → (matched ↔ VersionLt ns ms) → ReadInOrder ns ms) ∧
        (¬FitsBuffers ns → versionNumbers (dotted ns) ≠ ns.map numeral) := by
  refine ⟨fun h => ?_, fun hn hm h => ⟨hn, hm, ?_⟩, versionNumbers_ne hns⟩
  case refine_1 => exact (@versionMatches_dotted ns ms run hns hms h.fits h.fits').mpr h.order
  case refine_2 => exact (@versionMatches_dotted ns ms run hns hms hn hm).mp h

-- The numerals of the second numbers have the same length.
theorem compareVersions_lt_minor :
    compareVersions (fun _ _ _ => .error) (dotted [1, 21]) (dotted [1, 30, 4]) ⟨.lt, none, none⟩ = .matching := by
  have hlt : VersionLt [1, 21] [1, 30, 4] := .cons <| .rel <| by decide
  refine ((compareVersions_lt_iff _ none [1, 21] [1, 30, 4] (by decide) (by decide)).left ⟨?_, ?_, ?_⟩).mpr hlt
  case refine_1 => exact ⟨by decide, by decide⟩
  case refine_2 => exact ⟨by decide, by decide⟩
  case refine_3 => exact ⟨by decide, by decide⟩

theorem fitsBuffers_nine : FitsBuffers [9] :=
  ⟨by decide, by decide⟩

theorem fitsBuffers_ten : FitsBuffers [10] :=
  ⟨by decide, by decide⟩

-- Version 9 is not less than version 10.
theorem not_compareVersions_lt_iff :
    ¬∀ (run : CString → CString → CString → VersionCmpResult) (equalCommand : Option CString) (ns ms : List Nat),
      ns ≠ [] → ms ≠ [] →
        (compareVersions run (dotted ns) (dotted ms) ⟨.lt, none, equalCommand⟩ = .matching ↔ VersionLt ns ms) := by
  intro h
  have hlt : VersionLt [9] [10] := .rel <| by decide
  have hm := (h (fun _ _ _ => .error) none [9] [10] (by decide) (by decide)).mpr hlt
  have hnum := (versionMatches_lt_iff.mp hm).right
  rw [versionNumbers_dotted (by decide) fitsBuffers_nine, versionNumbers_dotted (by decide) fitsBuffers_ten] at hnum
  exact absurd hnum (by decide)

end CfEngine
