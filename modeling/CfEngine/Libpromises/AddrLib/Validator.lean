import CfEngine.Libpromises.AddrLib.DottedQuad

namespace CfEngine

-- The bytes of an IPv6 address, which are zero if the text is none.
def Inet.bytes6 (m : Inet) (s : CString) : Vector UInt8 16 :=
  (m.inetPton6 s).getD (.replicate 16 0)

-- The match does not shift or compare more than there is, and does not refuse the notation.
structure Guarded (s : CString) (result : Except AddrFault FuzzyMatch) : Prop where
  shift : result ≠ .error .shift
  bytes : result ≠ .error .bytes
  mixed : ∀ r, result = .ok r → r.error ≠ some (mixedNotation s)

-- What the validator is for.
def Inet.Protects (m : Inet) (s a : CString) : Prop :=
  fuzzyMatchParse m s = .ok none → Guarded s (fuzzySetMatch m s a)

-- Masks that are in range, or make no difference.
structure Inet.MaskInRange (m : Inet) (s a : CString) : Prop where
  notation' : ¬('/' ∈ s ∧ '-' ∈ s)
  mask4     : '.' ∈ s ∨ '.' ∈ a → '/' ∈ s → 1 ≤ (m.scanMask 16 s).snd ∧ (m.scanMask 16 s).snd ≤ 32
  mask6     : ':' ∈ s ∨ ':' ∈ a → '/' ∈ s →
    ¬8 ∣ (m.scanMask 40 s).snd ∨ (m.scanMask 40 s).snd ≤ 128 ∨ m.bytes6 (m.scanMask 40 s).fst ≠ m.bytes6 a

section
variable {m : Inet} {s a : CString} {count i n : Nat} {addr1 addr2 : Vector UInt8 16}

-- A colon is no digit, and so it is never looked for.
theorem isAddr_eq : isAddr count s = false := by
  induction s generalizing count
  case nil         => rfl
  case cons c s ih =>
    rw [isAddr]
    split
    case isTrue      => rfl
    case isFalse hx  =>
      have hcolon : c ≠ ':' := by
        rintro rfl
        exact hx (by decide)
      rw [if_neg hcolon]
      split
      · split
        · rfl
        · exact ih
      · exact ih

theorem fuzzyMatchParse_eq : fuzzyMatchParse m s = .ok none := by
  rw [fuzzyMatchParse, isAddr_eq]
  rfl

theorem compareBlocks_eq_bytes_iff (hi : i ≤ 16) :
    compareBlocks addr1 addr2 i n = .error .bytes ↔ 16 < i + n ∧ ∀ j (hj : j < 16), i ≤ j → addr1[j] = addr2[j] := by
  induction n generalizing i
  case zero      => exact iff_of_false nofun fun h => absurd h.left (by omega)
  case succ n ih =>
    rw [compareBlocks]
    by_cases hlt : i < 16
    case neg =>
      rw [dif_neg hlt]
      exact iff_of_true rfl ⟨by omega, fun j hj hle => absurd hj (by omega)⟩
    case pos =>
      rw [dif_pos hlt]
      by_cases hne : addr1[i] = addr2[i]
      case neg =>
        rw [if_pos hne]
        exact iff_of_false nofun fun h => hne <| h.right i hlt (Nat.le_refl _)
      case pos =>
        rw [if_neg (not_not_intro hne), ih hlt, Nat.succ_add_eq_add_succ]
        refine and_congr_right fun _ => ⟨fun h j hj hle => ?_, fun h j hj hle => h j hj <| Nat.le_of_succ_le hle⟩
        cases Nat.eq_or_lt_of_le hle
        case inl he => exact he ▸ hne
        case inr hl => exact h j hj hl

theorem compareBlocks_ok_or_bytes : (∃ v, compareBlocks addr1 addr2 i n = .ok ⟨v, none⟩) ∨
    compareBlocks addr1 addr2 i n = .error .bytes := by
  induction n generalizing i
  case zero      => exact .inl ⟨0, rfl⟩
  case succ n ih =>
    rw [compareBlocks]
    split
    case isTrue  =>
      split
      case isTrue  => exact .inl ⟨-1, rfl⟩
      case isFalse => exact ih
    case isFalse => exact .inr rfl

theorem Guarded.ok {r : FuzzyMatch} (h : r.error ≠ some (mixedNotation s)) : Guarded s (.ok r) :=
  ⟨nofun, nofun, fun _ he => Except.ok.inj he ▸ h⟩

theorem ne_append_of_getElem? {xs ys zs : List Char} {k : Nat} (hk : k < ys.length) (h : xs[k]? ≠ ys[k]?) :
    xs ≠ ys ++ zs := by
  rintro rfl
  exact h <| List.getElem?_append_left hk

-- Errors that differ before the text that they are about.
theorem ne_mixedNotation {k : Nat} {error : CString}
    (hk : k < "Cannot mix CIDR notation with xxx-yyy range notation '".toList.length)
    (h : error[k]? ≠ "Cannot mix CIDR notation with xxx-yyy range notation '".toList[k]?) :
    some error ≠ some (mixedNotation s) := by
  have hassoc : mixedNotation s = "Cannot mix CIDR notation with xxx-yyy range notation '".toList ++ (s ++ ['\'']) :=
    List.append_assoc _ _ _
  rw [hassoc]
  exact fun he => ne_append_of_getElem? hk h (Option.some.inj he)

theorem ne_mixedNotation_of_unqualified :
    some ("Not a valid address range - or not a fully qualified name '".toList ++ s ++ ['\'']) ≠
      some (mixedNotation s) :=
  @ne_mixedNotation s 0 _ (by decide) fun h => absurd (show some 'N' = some 'C' from h) (by decide)

theorem Guarded.silent {v : Int} : Guarded s (.ok ⟨v, none⟩) :=
  .ok nofun

theorem Guarded.read : Guarded s (.error .read) :=
  ⟨nofun, nofun, nofun⟩

theorem Guarded.write : Guarded s (.error .write) :=
  ⟨nofun, nofun, nofun⟩

theorem Guarded.bind_scanPart {delimiter : Char} {sp buffer : Option CString} {f : CString → Except AddrFault FuzzyMatch}
    (h : ∀ part, Guarded s (f part)) : Guarded s ((scanPart delimiter sp buffer).bind f) := by
  cases sp
  case none   => exact read
  case some t =>
    by_cases hempty : t.takeWhile (· ≠ delimiter) = []
    case pos =>
      cases buffer
      case none   => simp only [scanPart, if_pos hempty]; exact read
      case some b => simp only [scanPart, if_pos hempty]; exact h b
    case neg =>
      by_cases hlen : cfMaxIpLen ≤ (t.takeWhile (· ≠ delimiter)).length
      case pos => simp only [scanPart, if_neg hempty, if_pos hlen]; exact write
      case neg => simp only [scanPart, if_neg hempty, if_neg hlen]; exact h _

theorem guarded_range4 {l : RangeLoop} : Guarded s (fuzzySetMatchRange4 m n l) := by
  induction n generalizing l
  case zero      => exact .silent
  case succ n ih =>
    refine .bind_scanPart fun buffer1 => ?_
    split
    case isTrue  => exact .silent
    case isFalse =>
      refine .bind_scanPart fun buffer2 => ?_
      split
      case h_1 => exact .silent
      case h_2 => exact ih

theorem guarded_range6 {l : RangeLoop} : Guarded s (fuzzySetMatchRange6 m n l) := by
  induction n generalizing l
  case zero      => exact .silent
  case succ n ih =>
    refine .bind_scanPart fun buffer1 => .bind_scanPart fun buffer2 => ?_
    split
    case h_1 => exact .silent
    case h_2 => exact ih

-- The match of a mask shifts by what the mask leaves.
theorem guarded_mask4_iff (hlong : m.longBits = 32) : Guarded s (fuzzySetMatchMask4 m s a) ↔
    1 ≤ (m.scanMask 16 s).snd ∧ (m.scanMask 16 s).snd ≤ 32 := by
  rw [fuzzySetMatchMask4]
  by_cases hmask : 1 ≤ (m.scanMask 16 s).snd ∧ (m.scanMask 16 s).snd ≤ 32
  case pos =>
    have hshift : 0 ≤ 32 - (m.scanMask 16 s).snd ∧ 32 - (m.scanMask 16 s).snd < m.longBits := by omega
    simp only [shiftRight, if_pos hshift]
    exact iff_of_true .silent hmask
  case neg =>
    have hshift : ¬(0 ≤ 32 - (m.scanMask 16 s).snd ∧ 32 - (m.scanMask 16 s).snd < m.longBits) := by omega
    simp only [shiftRight, if_neg hshift]
    exact iff_of_false (fun h => h.shift rfl) hmask

theorem guarded_mask6_iff : Guarded s (fuzzySetMatchMask6 m s a) ↔
    ¬8 ∣ (m.scanMask 40 s).snd ∨ (m.scanMask 40 s).snd ≤ 128 ∨ m.bytes6 (m.scanMask 40 s).fst ≠ m.bytes6 a := by
  simp only [fuzzySetMatchMask6]
  by_cases hdvd : (8 : Int) ∣ (m.scanMask 40 s).snd
  case neg =>
    have hmod : (m.scanMask 40 s).snd.tmod 8 ≠ 0 := fun h => hdvd <| Int.dvd_of_tmod_eq_zero h
    rw [if_pos hmod]
    exact iff_of_true (.ok <| @ne_mixedNotation s 7 _ (by decide) (by decide)) <| .inl hdvd
  case pos =>
    have hmod : ¬(m.scanMask 40 s).snd.tmod 8 ≠ 0 := fun h => h <| Int.tmod_eq_zero_of_dvd hdvd
    have hblocks : 16 < 0 + ((m.scanMask 40 s).snd.tdiv 8).toNat ↔ ¬(m.scanMask 40 s).snd ≤ 128 := by
      obtain ⟨k, hk⟩ := hdvd
      rw [hk, Int.mul_tdiv_cancel_left _ (by decide)]
      omega
    rw [if_neg hmod, or_iff_right (not_not_intro hdvd)]
    have hbytes := @compareBlocks_eq_bytes_iff 0 ((m.scanMask 40 s).snd.tdiv 8).toNat (m.bytes6 (m.scanMask 40 s).fst)
      (m.bytes6 a) (by decide)
    have hequal : (∀ j (hj : j < 16), 0 ≤ j → (m.bytes6 (m.scanMask 40 s).fst)[j] = (m.bytes6 a)[j]) ↔
        m.bytes6 (m.scanMask 40 s).fst = m.bytes6 a :=
      ⟨fun h => Vector.ext fun j hj => h j hj (Nat.zero_le _), fun h _ _ _ => by rw [h]⟩
    rw [hblocks, hequal] at hbytes
    rw [←not_and_or.trans (or_congr_left not_not), ←hbytes]
    constructor
    case mp  => exact fun h => h.bytes
    case mpr =>
      intro h
      rcases compareBlocks_ok_or_bytes with ⟨v, hv⟩ | hv
      · rw [hv]
        exact .silent
      · exact absurd hv h

end

theorem protects_iff (m : Inet) (s a : CString) (hlong : m.longBits = 32) :
    m.Protects s a ↔ s = a ∨ (('.' ∈ s ∨ '.' ∈ a) ∧ (':' ∈ s ∨ ':' ∈ a)) ∨ m.MaskInRange s a := by
  have hiff : m.Protects s a ↔ Guarded s (fuzzySetMatch m s a) := ⟨fun h => h fuzzyMatchParse_eq, fun h _ => h⟩
  rw [hiff]
  by_cases he : s = a
  case pos =>
    have hcmp : CString.strcmp s a = 0 := CString.strcmp_eq_zero_iff.mpr he
    rw [fuzzySetMatch, if_pos hcmp]
    exact iff_of_true .silent <| .inl he
  case neg =>
    have hcmp : ¬CString.strcmp s a = 0 := fun h => he <| CString.strcmp_eq_zero_iff.mp h
    rw [fuzzySetMatch, if_neg hcmp, or_iff_right he]
    by_cases h46 : ('.' ∈ s ∨ '.' ∈ a) ∧ (':' ∈ s ∨ ':' ∈ a)
    case pos =>
      rw [if_pos h46]
      exact iff_of_true .silent <| .inl h46
    case neg =>
      rw [if_neg h46, or_iff_right h46]
      by_cases hmix : '/' ∈ s ∧ '-' ∈ s
      case pos =>
        rw [if_pos hmix]
        exact iff_of_false (fun h => h.mixed _ rfl rfl) fun h => h.notation' hmix
      case neg =>
        rw [if_neg hmix]
        by_cases h4 : '.' ∈ s ∨ '.' ∈ a
        case pos =>
          have h6 : ¬(':' ∈ s ∨ ':' ∈ a) := fun h6 => h46 ⟨h4, h6⟩
          have hnone : ¬¬((':' ∈ s ∨ ':' ∈ a) ∨ '.' ∈ s ∨ '.' ∈ a) := not_not_intro <| .inr h4
          rw [if_neg hnone, if_pos h4]
          by_cases hslash : '/' ∈ s
          case pos =>
            have hpart : ¬¬('-' ∈ s ∨ '/' ∈ s) := not_not_intro <| .inr hslash
            rw [if_neg hpart, if_pos hslash, guarded_mask4_iff hlong]
            exact ⟨fun h => ⟨hmix, fun _ _ => h, fun h => absurd h h6⟩, fun h => h.mask4 h4 hslash⟩
          case neg =>
            rw [if_neg hslash]
            refine iff_of_true ?_ ⟨hmix, fun _ h => absurd h hslash, fun _ h => absurd h hslash⟩
            split
            case isTrue  => exact .silent
            case isFalse => exact guarded_range4
        case neg =>
          rw [if_neg h4]
          by_cases hslash : '/' ∈ s
          case pos =>
            have hpart : ¬¬('-' ∈ s ∨ '/' ∈ s) := not_not_intro <| .inr hslash
            by_cases h6 : ':' ∈ s ∨ ':' ∈ a
            case pos =>
              have hnone : ¬¬((':' ∈ s ∨ ':' ∈ a) ∨ '.' ∈ s ∨ '.' ∈ a) := not_not_intro <| .inl h6
              rw [if_neg hnone, if_neg hpart, if_pos hslash, guarded_mask6_iff]
              exact ⟨fun h => ⟨hmix, fun h => absurd h h4, fun _ _ => h⟩, fun h => h.mask6 h6 hslash⟩
            case neg =>
              have hnone : ¬((':' ∈ s ∨ ':' ∈ a) ∨ '.' ∈ s ∨ '.' ∈ a) := fun h => h.elim h6 h4
              rw [if_pos hnone]
              exact iff_of_true (.ok ne_mixedNotation_of_unqualified)
                ⟨hmix, fun h => absurd h h4, fun h => absurd h h6⟩
          case neg =>
            rw [if_neg hslash]
            refine iff_of_true ?_ ⟨hmix, fun _ h => absurd h hslash, fun _ h => absurd h hslash⟩
            split
            case isTrue  => exact .ok ne_mixedNotation_of_unqualified
            case isFalse =>
              split
              case isTrue  => exact .silent
              case isFalse => exact guarded_range6

theorem protects_example : (exampleInet 32 (.inl rfl)).Protects "1.2.3.4/24".toList "1.2.3.5".toList :=
  (protects_iff _ _ _ rfl).mpr <| .inr <| .inr
    ⟨by decide, fun _ _ => by decide, fun h => absurd h (by decide)⟩

-- The shift by a negative amount.
theorem not_protects : ¬(exampleInet 32 (.inl rfl)).Protects "1.2.3.4/40".toList "1.2.3.5".toList :=
  fun h => (h fuzzyMatchParse_eq).shift rfl

end CfEngine
