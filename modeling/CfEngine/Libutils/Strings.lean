import Mathlib.Algebra.Group.Int.Defs
import Mathlib.Algebra.GroupWithZero.Nat
import Mathlib.Data.List.Basic
import Mathlib.Data.List.DropRight

namespace CfEngine

-- A C string is modelled by the list of its characters before the terminator.
abbrev CString := List Char

instance : LawfulBEq CString :=
  List.instLawfulBEq

-- A property of all characters of a string is decided by looking at these only.
instance (priority := high) {s : CString} {p : Char → Prop} [DecidablePred p] : Decidable (∀ c ∈ s, p c) :=
  List.decidableBAll p s

def cfBufSize : Nat := 4096

def cfExpandSize : Nat := 2 * cfBufSize

def cfBufferMargin : Nat := 128

def cfMaxVarSize : Nat := 1024

def cfMaxIpLen : Nat := 64

def isspace (c : Char) : Bool :=
  c ∈ [' ', '\t', '\n', '\x0b', '\x0c', '\r']

theorem isspace_of_isDigit {c : Char} (h : c.isDigit = true) : isspace c = false := by
  simp only [isspace, List.mem_cons, List.not_mem_nil, or_false, decide_eq_false_iff_not]
  rintro (rfl | rfl | rfl | rfl | rfl | rfl) <;> simp at h

-- A string that is too long is left alone.
def chop (str : CString) (max_length : Nat) : CString :=
  if max_length < str.length then str else str.rdropWhile isspace

-- The bytes of a buffer, among them terminators.
abbrev Buffer := List Char

-- The string at the start of a buffer.
def Buffer.toCString (buffer : Buffer) : CString :=
  buffer.takeWhile (· ≠ '\x00')

theorem Buffer.toCString_length (buffer : Buffer) : buffer.toCString.length ≤ buffer.length :=
  (List.takeWhile_prefix _).length_le

namespace CString

-- Only the sign of the result is specified; we take the difference of the first characters that
-- differ, where the terminator counts as 0.
def strcmp : CString → CString → Int
  | [], []           => 0
  | [], b :: _       => -(b.toNat + 1)
  | a :: _, []       => a.toNat + 1
  | a :: as, b :: bs => if a = b then strcmp as bs else (a.toNat : Int) - b.toNat

theorem strcmp_eq_zero_iff {a b : CString} : strcmp a b = 0 ↔ a = b := by
  induction a generalizing b <;> cases b <;> simp only [strcmp, List.cons.injEq]
  case nil.cons  => simp; omega
  case cons.nil  => simp; omega
  case cons.cons c as ih c' bs =>
    split
    case isTrue h  => simp [h, ih]
    case isFalse h =>
      have : c.toNat ≠ c'.toNat := (h <| Char.toNat_inj.mp ·)
      simp only [h, false_and, iff_false]
      omega

theorem strcmp_swap (a b : CString) : strcmp b a = -strcmp a b := by
  induction a generalizing b <;> cases b <;> simp only [strcmp]
  case nil.nil  => rfl
  case nil.cons => omega
  case cons.cons as ih _ bs =>
    split
    case isTrue h  => simp [h, ih]
    case isFalse h =>
      rw [if_neg (Ne.symm h)]
      omega

theorem strcmp_irrefl (a : CString) : ¬strcmp a a < 0 := by
  simp [strcmp_eq_zero_iff.mpr]

theorem strcmp_trans {a b c : CString} (hab : strcmp a b < 0) (hbc : strcmp b c < 0) :
    strcmp a c < 0 := by
  induction b generalizing a c <;> cases a <;> cases c <;>
    simp only [strcmp] at hab hbc ⊢ <;> try omega
  case cons.cons.cons bs ih a as c cs =>
    split at hab
    case isTrue hab' =>
      cases hab'
      split at hbc
      case isTrue  => simp_all
      case isFalse => simp_all
    case isFalse hab' =>
      split at hbc
      case isTrue hbc' =>
        cases hbc'
        rwa [if_neg hab']
      case isFalse =>
        have hac : a ≠ c := by
          intro h
          cases h
          omega
        rw [if_neg hac]
        omega

end CString

-- One round of the loop in `OatHash`.
def oatStep (h : UInt32) (c : Char) : UInt32 :=
  let h := h + UInt32.ofNat c.toNat
  let h := h + (h <<< 10)
  h ^^^ (h >>> 6)

def oatHash (key : CString) (max : UInt32) : UInt32 :=
  let h := key.foldl oatStep 0
  let h := h + (h <<< 3)
  let h := h ^^^ (h >>> 11)
  let h := h + (h <<< 15)
  h &&& (max - 1)

theorem oatHash_toNat_lt {key : CString} {max : UInt32} (h : 0 < max) :
    (oatHash key max).toNat < max.toNat := by
  have hp : 0 < max.toNat := UInt32.lt_iff_toNat_lt.mp h
  have hm : (max - 1).toNat = max.toNat - 1 := UInt32.toNat_sub_of_le _ _ hp
  simp only [oatHash, UInt32.toNat_and, hm]
  exact Nat.lt_of_le_of_lt Nat.and_le_right (by omega)

end CfEngine

namespace CfEngine.Libutils

def defaultMemoryCap : Nat := 65535

-- The string in a buffer that nobody shares, after `BufferAppend`. What does not fit below the cap is left out.
def bufferAppended (text bytes : CString) : CString :=
  if defaultMemoryCap < bytes.length + text.length then text else text ++ bytes

variable {text bytes : CString} {pieces : List CString}

theorem bufferAppended_eq (h : text.length + bytes.length ≤ defaultMemoryCap) :
    bufferAppended text bytes = text ++ bytes :=
  if_neg <| Nat.not_lt.mpr <| Nat.add_comm bytes.length text.length ▸ h

theorem length_bufferAppended_le (h : text.length ≤ defaultMemoryCap) :
    (bufferAppended text bytes).length ≤ defaultMemoryCap := by
  rw [bufferAppended]
  split
  case isTrue    => exact h
  case isFalse h => exact List.length_append ▸ Nat.add_comm bytes.length text.length ▸ Nat.not_lt.mp h

theorem length_bufferAppended_le_add : (bufferAppended text bytes).length ≤ text.length + bytes.length := by
  rw [bufferAppended]
  split
  case isTrue  => exact Nat.le_add_right _ _
  case isFalse => exact Nat.le_of_eq List.length_append

theorem foldl_bufferAppended_eq (h : text.length + pieces.flatten.length ≤ defaultMemoryCap) :
    pieces.foldl bufferAppended text = text ++ pieces.flatten := by
  induction pieces generalizing text
  case nil => exact text.append_nil.symm
  case cons piece pieces ih =>
    rw [List.flatten_cons, List.length_append, ← Nat.add_assoc] at h
    rw [List.foldl_cons, bufferAppended_eq <| (Nat.le_add_right _ _).trans h, List.flatten_cons, ← List.append_assoc]
    exact ih <| by rwa [List.length_append]

theorem length_foldl_bufferAppended_le (h : text.length ≤ defaultMemoryCap) :
    (pieces.foldl bufferAppended text).length ≤ defaultMemoryCap := by
  induction pieces generalizing text
  case nil           => exact h
  case cons _ _ ih   => exact ih <| length_bufferAppended_le h

end CfEngine.Libutils
