import Mathlib.Algebra.Group.Nat.Defs
import Mathlib.Data.List.Basic

-- Decimal numerals, and the order of their values.

namespace Numerals

abbrev value (s : List Char) : Nat :=
  Nat.ofDigitChars 10 s 0

section
variable {s t : List Char} {c d : Char} {n m : Nat}

theorem value_cons : value (c :: s) = 10 ^ s.length * (c.toNat - '0'.toNat) + value s := by
  rw [value, Nat.ofDigitChars_cons, Nat.ofDigitChars_eq_ofDigitChars_zero, Nat.mul_zero, Nat.zero_add]

theorem digit_le (hc : c.isDigit) : '0'.toNat ≤ c.toNat ∧ c.toNat ≤ '9'.toNat := by
  rw [Char.isDigit, Bool.and_eq_true, decide_eq_true_iff, decide_eq_true_iff] at hc
  exact hc

theorem value_lt (hs : ∀ c ∈ s, c.isDigit) : value s < 10 ^ s.length := by
  induction s
  case nil         => exact Nat.one_pos
  case cons c s ih =>
    have ih := ih fun d hd => hs d <| List.mem_cons_of_mem _ hd
    have hc : c.toNat - '0'.toNat ≤ 9 := by
      have hc := digit_le <| hs c List.mem_cons_self
      have hzero : '0'.toNat = 48 := rfl
      have hnine : '9'.toNat = 57 := rfl
      omega
    have hmul := Nat.mul_le_mul_left (10 ^ s.length) hc
    rw [value_cons, List.length_cons, Nat.pow_succ]
    omega

-- The first digits that differ decide.
theorem value_lt_of_head (hs : ∀ c ∈ s, c.isDigit) (hc : c.isDigit) (hcd : c.toNat < d.toNat) (hlen : s.length = t.length) :
    value (c :: s) < value (d :: t) := by
  have hlt := value_lt hs
  have hzero := digit_le hc
  have hmul : 10 ^ s.length * (c.toNat - '0'.toNat + 1) ≤ 10 ^ s.length * (d.toNat - '0'.toNat) :=
    Nat.mul_le_mul_left _ (by omega)
  rw [Nat.mul_add, Nat.mul_one] at hmul
  rw [value_cons, value_cons, ←hlen]
  omega

theorem value_toDigits : value (Nat.toDigits 10 n) = n :=
  Nat.ofDigitChars_toDigits (by decide) (by decide)

theorem toDigits_injective (h : Nat.toDigits 10 n = Nat.toDigits 10 m) : n = m := by
  rw [←@value_toDigits n, h, value_toDigits]

theorem isDigit_of_mem_toDigits (h : c ∈ Nat.toDigits 10 n) : c.isDigit :=
  Nat.isDigit_of_mem_toDigits (by decide) (by decide) h

-- A number with more digits is larger.
theorem lt_of_length_toDigits_lt (h : (Nat.toDigits 10 n).length < (Nat.toDigits 10 m).length) : n < m := by
  have hpos : 0 < (Nat.toDigits 10 n).length := Nat.length_toDigits_pos
  have hn := (Nat.length_toDigits_le_iff (by decide) hpos).mp <| Nat.le_refl (Nat.toDigits 10 n).length
  have hm := mt (Nat.length_toDigits_le_iff (by decide) hpos).mpr <| Nat.not_le.mpr h
  omega

end

end Numerals
