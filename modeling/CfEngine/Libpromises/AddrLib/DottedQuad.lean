import CfEngine.Libpromises.AddrLib
import Mathlib.Tactic.IntervalCases

namespace CfEngine

structure IsOctet (s : CString) : Prop extends IsNumeral 255 s where
  length : s.length ≤ 3

instance : DecidablePred IsOctet :=
  fun s => decidable_of_iff (IsNumeral 255 s ∧ s.length ≤ 3) ⟨fun ⟨hn, hl⟩ => ⟨hn, hl⟩, fun h => ⟨h.toIsNumeral, h.length⟩⟩

-- An IPv4 address as it is written.
structure DottedQuad where
  parts  : List CString
  length : parts.length = 4
  octet  : ∀ p ∈ parts, IsOctet p

namespace DottedQuad

def text (q : DottedQuad) : CString :=
  ['.'].intercalate q.parts

def octets (q : DottedQuad) : Vector UInt8 4 :=
  Vector.ofFn fun i => .ofNat <| decimal <| q.parts.getD i []

-- The bits of the address, where the top one is the first.
def bit (q : DottedQuad) (i : Fin 32) : Bool :=
  q.octets[i.val / 8].toBitVec.getMsbD (i.val % 8)

end DottedQuad

section
variable {ps : List CString} {c sep : Char} {s rest : CString} {q : DottedQuad}

theorem mem_intercalate (h : c ∈ [sep].intercalate ps) : c = sep ∨ ∃ p ∈ ps, c ∈ p := by
  induction ps
  case nil          => nomatch h
  case cons p ps ih =>
    cases ps
    case nil  => exact .inr ⟨p, List.mem_cons_self, by rwa [List.intercalate_singleton] at h⟩
    case cons =>
      rw [List.intercalate_cons_cons, List.append_assoc, List.mem_append, List.singleton_append, List.mem_cons] at h
      rcases h with hp | hsep | hps
      · exact .inr ⟨p, List.mem_cons_self, hp⟩
      · exact .inl hsep
      · exact (ih hps).imp_right fun ⟨p, hp, hc⟩ => ⟨p, List.mem_cons_of_mem _ hp, hc⟩

theorem isDigit_of_isdigit (h : isdigit c) : c.isDigit = true := by
  simp only [isdigit, decide_eq_true_eq] at h
  exact Bool.and_eq_true_iff.mpr ⟨decide_eq_true h.left, decide_eq_true h.right⟩

theorem not_isspace_of_isdigit (h : isdigit c) : isspace c = false := by
  simp only [isspace, List.mem_cons, List.not_mem_nil, or_false, decide_eq_false_iff_not]
  rintro (rfl | rfl | rfl | rfl | rfl | rfl) <;> exact absurd h (by decide)

-- A number ends before the first character that is not a digit.
theorem scanNumber_digits (hs : ∀ c ∈ s, isdigit c) (hne : s ≠ []) (hrest : ∀ c ∈ rest.head?, ¬c.isDigit) :
    scanNumber (s ++ rest) = some ((decimal s : Int), rest) := by
  have hdigits : ∀ c ∈ s, c.isDigit = true := fun c hc => isDigit_of_isdigit <| hs c hc
  have hstop : rest.takeWhile Char.isDigit = [] ∧ rest.dropWhile Char.isDigit = rest := by
    cases rest
    case nil         => exact ⟨rfl, rfl⟩
    case cons c rest =>
      have hc := hrest c rfl
      exact ⟨List.takeWhile_cons_of_neg hc, List.dropWhile_cons_of_neg hc⟩
  have htake : (s ++ rest).takeWhile Char.isDigit = s := by
    rw [List.takeWhile_append_of_pos hdigits, hstop.left, List.append_nil]
  have hdrop : (s ++ rest).dropWhile Char.isDigit = rest := by
    rw [List.dropWhile_append_of_pos hdigits, hstop.right]
  cases s
  case nil      => contradiction
  case cons c s =>
    have hc : isdigit c := hs c List.mem_cons_self
    rw [List.cons_append] at htake hdrop
    simp only [scanNumber, List.cons_append, List.dropWhile_cons, not_isspace_of_isdigit hc, Bool.false_eq_true, if_false]
    split
    case h_1 he =>
      cases he
      exact absurd hc (by decide)
    case h_2 he =>
      cases he
      exact absurd hc (by decide)
    case h_3    => simp only [htake, hdrop, if_neg hne, Bool.false_eq_true, if_false]

theorem isdigit_of_mem_toDigits {n : Nat} (h : c ∈ Nat.toDigits 10 n) : isdigit c := by
  have hd := Nat.isDigit_of_mem_toDigits (by decide) (by decide) h
  simpa [isdigit, Char.isDigit, Char.le_def] using hd

theorem decimal_toDigits {n : Nat} : decimal (Nat.toDigits 10 n) = n :=
  Nat.ofDigitChars_toDigits (by decide) (by decide)

namespace DottedQuad

theorem mem_text (h : c ∈ q.text) : c = '.' ∨ isdigit c :=
  (mem_intercalate h).imp_right fun ⟨p, hp, hc⟩ => (q.octet p hp).digits c hc

theorem not_mem_text (hdot : c ≠ '.') (hdigit : ¬isdigit c) : c ∉ q.text :=
  fun h => (mem_text h).elim hdot hdigit

theorem exists_parts (q : DottedQuad) : ∃ a b c d, q.parts = [a, b, c, d] := by
  obtain ⟨parts, hlen, _⟩ := q
  match parts, hlen with
  | [a, b, c, d], _ => exact ⟨a, b, c, d, rfl⟩

theorem dot_mem_text : '.' ∈ q.text := by
  have ⟨a, b, c, d, hq⟩ := q.exists_parts
  simp [text, hq, List.intercalate_cons_cons]

theorem length_text_le : q.text.length ≤ 15 := by
  have ⟨a, b, c, d, hq⟩ := q.exists_parts
  have ha := (q.octet a <| by simp [hq]).length
  have hb := (q.octet b <| by simp [hq]).length
  have hc := (q.octet c <| by simp [hq]).length
  have hd := (q.octet d <| by simp [hq]).length
  simp only [text, hq, List.intercalate_cons_cons, List.intercalate_singleton, List.length_append, List.length_singleton]
  omega

theorem text_ne_nil : q.text ≠ [] :=
  List.ne_nil_of_mem dot_mem_text

end DottedQuad

end

-- The top bits are those that are left by a shift, also in a wider number.
theorem setWidth_ushiftRight_eq_iff {w v n : Nat} (hv : w ≤ v) (hn : n ≤ w) {a b : BitVec w} :
    a.setWidth v >>> (w - n) = b.setWidth v >>> (w - n) ↔ ∀ i < n, a.getMsbD i = b.getMsbD i := by
  constructor
  case mp  =>
    intro h i hi
    have hbit := congrArg (BitVec.getLsbD · (n - 1 - i)) h
    have hplace : w - n + (n - 1 - i) = w - 1 - i := by omega
    have hlt : w - 1 - i < v := by omega
    simp only [BitVec.getLsbD_ushiftRight, BitVec.getLsbD_setWidth, hplace, hlt, decide_true, Bool.true_and] at hbit
    rw [BitVec.getMsbD_eq_getLsbD, BitVec.getMsbD_eq_getLsbD, hbit]
  case mpr =>
    intro h
    refine BitVec.eq_of_getLsbD_eq fun j _ => ?_
    simp only [BitVec.getLsbD_ushiftRight, BitVec.getLsbD_setWidth]
    by_cases hj : j < n
    case pos =>
      have hbit := h (n - 1 - j) (by omega)
      have hplace : w - 1 - (n - 1 - j) = w - n + j := by omega
      have hlt : n - 1 - j < w := by omega
      simp only [BitVec.getMsbD_eq_getLsbD, hplace, hlt, decide_true, Bool.true_and] at hbit
      rw [hbit]
    case neg =>
      rw [BitVec.getLsbD_of_ge a _ (by omega), BitVec.getLsbD_of_ge b _ (by omega)]

section
variable {m : Inet} {q r : DottedQuad} {s1 s2 s : CString} {mask width : Nat}

theorem htonl_getMsbD {octets : Vector UInt8 4} {i j : Nat} (hi : i < 4) (hj : j < 8) :
    (htonl octets).getMsbD (8 * i + j) = octets[i].toBitVec.getMsbD j := by
  interval_cases i
  all_goals
    simp only [htonl, BitVec.getMsbD_eq_getLsbD]
    grind

theorem DottedQuad.getMsbD_eq {i : Fin 32} : (htonl q.octets).getMsbD i = q.bit i := by
  have hi : i.val / 8 < 4 := by omega
  have h := @htonl_getMsbD q.octets (i.val / 8) (i.val % 8) hi (Nat.mod_lt _ (by decide))
  rwa [Nat.div_add_mod] at h

theorem Inet.toInt_eq {n : Int} (hl : -2 ^ 31 ≤ n) (hn : n < 2 ^ 31) : m.toInt n = n := by
  rw [toInt, toLong]
  rcases m.long_32_64 with h | h
  all_goals
    rw [h]
    norm_num
    omega

-- A short address and its mask are read.
theorem scanMask_eq (hslash : '/' ∉ s) (hne : s ≠ []) (hwidth : s.length ≤ width) (hmask : mask < 2 ^ 31) :
    m.scanMask width (s ++ '/' :: Nat.toDigits 10 mask) = (s, (mask : Int)) := by
  have hkeep : ∀ c ∈ s, decide (c ≠ '/') = true := fun c hc => decide_eq_true fun he => hslash <| he ▸ hc
  have htake : (s ++ '/' :: Nat.toDigits 10 mask).takeWhile (· ≠ '/') = s := by
    rw [List.takeWhile_append_of_pos hkeep, List.takeWhile_cons_of_neg (by simp), List.append_nil]
  have hscan := @scanNumber_digits (Nat.toDigits 10 mask) [] (fun _ => isdigit_of_mem_toDigits) Nat.toDigits_ne_nil nofun
  rw [List.append_nil, decimal_toDigits] at hscan
  rw [Inet.scanMask, htake, List.take_of_length_le hwidth, if_neg hne, List.drop_left]
  simp only [hscan, Option.map_some, Option.getD_some]
  rw [Inet.toInt_eq (by omega) (by omega)]

theorem fuzzySetMatch_mask4 (hslash : '/' ∈ s1 ∧ '/' ∉ s2) (hdash : '-' ∉ s1) (hdot : '.' ∈ s1)
    (hcolon : ':' ∉ s1 ∧ ':' ∉ s2) : fuzzySetMatch m s1 s2 = fuzzySetMatchMask4 m s1 s2 := by
  have hne : ¬CString.strcmp s1 s2 = 0 := fun h => hslash.right <| CString.strcmp_eq_zero_iff.mp h ▸ hslash.left
  simp [fuzzySetMatch, hne, hslash.left, hdash, hdot, hcolon.left, hcolon.right]

-- The bits behind the mask are shifted out.
theorem fuzzySetMatchMask4_eq (hlong : m.longBits = 64) (hq : m.inetPton4 q.text = some q.octets)
    (hr : m.inetPton4 r.text = some r.octets) (hmask : mask ≤ 32) :
    (fuzzySetMatchMask4 m (q.text ++ '/' :: Nat.toDigits 10 mask) r.text).map FuzzyMatch.value =
      .ok (if ∀ i : Fin 32, i < mask → q.bit i = r.bit i then 0 else -1) := by
  have hscan := @scanMask_eq m q.text mask 16 (q.not_mem_text (by decide) (by decide)) q.text_ne_nil
    (Nat.le_succ_of_le q.length_text_le) (by omega)
  have hshift {a : BitVec m.longBits} : shiftRight a (32 - (mask : Int)) = .ok (a >>> (32 - mask)) := by
    rw [shiftRight, if_pos (by omega)]
    congr
    omega
  have hbits : (htonl q.octets).setWidth m.longBits >>> (32 - mask) = (htonl r.octets).setWidth m.longBits >>> (32 - mask) ↔
      ∀ i : Fin 32, i < mask → q.bit i = r.bit i := by
    rw [setWidth_ushiftRight_eq_iff (by omega) hmask]
    constructor
    case mp  => exact fun h i hi => DottedQuad.getMsbD_eq ▸ DottedQuad.getMsbD_eq ▸ h i hi
    case mpr =>
      intro h i hi
      have hbit := h ⟨i, by omega⟩ hi
      rwa [←DottedQuad.getMsbD_eq, ←DottedQuad.getMsbD_eq] at hbit
  rw [fuzzySetMatchMask4, hscan]
  simp only [hq, hr, Option.getD_some, hshift, Except.bind, Except.map, hbits]

end

theorem fuzzySetMatch_mask (m : Inet) (q r : DottedQuad) (mask : Nat) (hlong : m.longBits = 64)
    (hq : m.inetPton4 q.text = some q.octets) (hr : m.inetPton4 r.text = some r.octets) (hmask : mask ≤ 32) :
    (fuzzySetMatch m (q.text ++ '/' :: Nat.toDigits 10 mask) r.text).map FuzzyMatch.value = .ok 0 ↔
      ∀ i : Fin 32, i < mask → q.bit i = r.bit i := by
  have hmem {c : Char} (hc : c ≠ '/' ∧ c ≠ '.' ∧ ¬isdigit c) : c ∉ q.text ++ '/' :: Nat.toDigits 10 mask := by
    rw [List.mem_append, List.mem_cons, not_or, not_or]
    exact ⟨q.not_mem_text hc.right.left hc.right.right, hc.left, fun h => hc.right.right <| isdigit_of_mem_toDigits h⟩
  rw [fuzzySetMatch_mask4 ⟨by simp, r.not_mem_text (by decide) (by decide)⟩ (hmem (by decide))
    (List.mem_append_left _ q.dot_mem_text) ⟨hmem (by decide), r.not_mem_text (by decide) (by decide)⟩,
    fuzzySetMatchMask4_eq hlong hq hr hmask]
  split
  case isTrue h  => exact iff_of_true rfl h
  case isFalse h => exact iff_of_false (by simp) h

-- The functions of the system, where IPv4 addresses are those that the parser takes without a port.
def exampleInet (longBits : Nat) (long_32_64 : longBits = 32 ∨ longBits = 64) : Inet where
  longBits   := longBits
  long_32_64 := long_32_64
  inetPton4  := fun s => if ':' ∈ s then none else (ipv4Parser s).map IPV4Address.octets
  inetPton6  := fun _ => none
  addr1      := .replicate 4 0
  addr2      := .replicate 4 0

theorem isOctet_examples :
    (∀ p ∈ ["128".toList, "39".toList, "74".toList, "10".toList], IsOctet p) ∧
      ∀ p ∈ ["128".toList, "39".toList, "75".toList, "56".toList], IsOctet p := by
  decide

def testQuad : DottedQuad :=
  ⟨_, rfl, isOctet_examples.left⟩

def referenceQuad : DottedQuad :=
  ⟨_, rfl, isOctet_examples.right⟩

theorem fuzzySetMatch_mask_example :
    (fuzzySetMatch (exampleInet 64 (.inr rfl)) "128.39.74.10/23".toList "128.39.75.56".toList).map FuzzyMatch.value =
      .ok 0 :=
  (fuzzySetMatch_mask (exampleInet 64 (.inr rfl)) testQuad referenceQuad 23 rfl
    (by decide) (by decide) (by decide)).mpr (by decide)

end CfEngine
