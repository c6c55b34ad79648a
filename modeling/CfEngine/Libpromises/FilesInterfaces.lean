import CfEngine.Libutils.Strings
import Mathlib.Data.List.TakeWhile

namespace CfEngine

-- A file that is read: the bytes that are left, and whether its end has been met.
structure Stream where
  rest : Buffer
  eof  : Bool
  deriving DecidableEq

namespace Stream

-- The bytes that `fgets` stores in front of the terminator, as many as `n` at most. The end is met if
-- another byte was wanted.
def fgetsBytes : Nat → Buffer → Buffer × Stream
  | 0, rest          => ([], ⟨rest, false⟩)
  | _ + 1, []        => ([], ⟨[], true⟩)
  | n + 1, c :: rest =>
    if c = '\n' then
      ([c], ⟨rest, false⟩)
    else
      let (buff, fp) := fgetsBytes n rest
      (c :: buff, fp)

-- The loop that drops the remainder of a line, with the number of its bytes.
def skipLine : Nat → Buffer → Nat × Stream
  | lineLength, []        => (lineLength, ⟨[], true⟩)
  | lineLength, c :: rest =>
    if c = '\n' then (lineLength + 1, ⟨rest, false⟩) else skipLine (lineLength + 1) rest

-- The length is 0 at the end of the file. The buffer is left as it is there.
def cfReadLine (fp : Stream) (buff : CString) (size : Nat) : Nat × CString × Stream :=
  let (bytes, fp) := fgetsBytes (size - 1) fp.rest
  if bytes = [] then (0, buff, fp)
  else
    let buff := Buffer.toCString bytes
    let lineLength := buff.length
    if buff.any (· = '\n') then
      (lineLength, buff.takeWhile (· ≠ '\n'), fp)
    else
      let (lineLength, fp) := skipLine lineLength fp.rest
      (lineLength, buff, fp)

section

variable {n size : Nat} {line rest : Buffer} {buff : CString} {fp : Stream}

theorem fgetsBytes_line (h : '\n' ∉ line) (hn : line.length < n) :
    fgetsBytes n (line ++ '\n' :: rest) = (line ++ ['\n'], ⟨rest, false⟩) := by
  induction line generalizing n
  case nil =>
    obtain ⟨n, rfl⟩ := Nat.exists_eq_add_of_lt hn
    simp [fgetsBytes]
  case cons c line ih =>
    rcases n with _ | n
    · exact absurd hn <| Nat.not_lt_zero _
    · rw [List.mem_cons, not_or] at h
      rw [List.cons_append, fgetsBytes, if_neg (Ne.symm h.1), ih h.2 <| Nat.lt_of_succ_lt_succ hn]
      rfl

theorem fgetsBytes_long (h : '\n' ∉ line) (hn : n ≤ line.length) :
    fgetsBytes n (line ++ rest) = (line.take n, ⟨line.drop n ++ rest, false⟩) := by
  induction line generalizing n
  case nil =>
    cases Nat.le_zero.mp hn
    rfl
  case cons c line ih =>
    rcases n with _ | n
    · rfl
    · rw [List.mem_cons, not_or] at h
      rw [List.cons_append, fgetsBytes, if_neg (Ne.symm h.1), ih h.2 <| Nat.le_of_succ_le_succ hn]
      rfl

theorem fgetsBytes_last (h : '\n' ∉ line) (hn : line.length < n) :
    fgetsBytes n line = (line, ⟨[], true⟩) := by
  induction line generalizing n
  case nil =>
    obtain ⟨n, rfl⟩ := Nat.exists_eq_add_of_lt hn
    simp [fgetsBytes]
  case cons c line ih =>
    rcases n with _ | n
    · exact absurd hn <| Nat.not_lt_zero _
    · rw [List.mem_cons, not_or] at h
      rw [fgetsBytes, if_neg (Ne.symm h.1), ih h.2 <| Nat.lt_of_succ_lt_succ hn]

theorem skipLine_line (h : '\n' ∉ line) :
    skipLine n (line ++ '\n' :: rest) = (n + line.length + 1, ⟨rest, false⟩) := by
  induction line generalizing n
  case nil          => simp [skipLine]
  case cons c line ih =>
    rw [List.mem_cons, not_or] at h
    rw [List.cons_append, skipLine, if_neg (Ne.symm h.1), ih h.2, List.length_cons]
    simp only [Prod.mk.injEq, and_true]
    omega

theorem skipLine_last (h : '\n' ∉ line) : skipLine n line = (n + line.length, ⟨[], true⟩) := by
  induction line generalizing n
  case nil          => rfl
  case cons c line ih =>
    rw [List.mem_cons, not_or] at h
    rw [skipLine, if_neg (Ne.symm h.1), ih h.2, List.length_cons]
    simp only [Prod.mk.injEq, and_true]
    omega

theorem toCString_eq_self {line : Buffer} (h : '\x00' ∉ line) : Buffer.toCString line = line := by
  refine List.takeWhile_eq_self_iff.mpr fun c hc => ?_
  simp only [ne_eq, decide_not, Bool.not_eq_true', decide_eq_false_iff_not]
  rintro rfl
  exact h hc

theorem any_newline_eq_false (h : '\n' ∉ line) : line.any (· = '\n') = false := by
  rw [List.any_eq_false]
  intro c hc
  simp only [decide_eq_true_eq]
  rintro rfl
  exact h hc

theorem cfReadLine_of_newline (h : '\n' ∉ line) (h0 : '\x00' ∉ line) (hl : line.length < size - 1)
    (hf : fp.rest = line ++ '\n' :: rest) :
    fp.cfReadLine buff size = (line.length + 1, line, ⟨rest, false⟩) := by
  have h0' : '\x00' ∉ line ++ ['\n'] := by simp [h0]
  have hline : (line ++ ['\n']).takeWhile (· ≠ '\n') = line := by
    rw [List.takeWhile_append_of_pos]
    · simp
    · intro c hc
      simp only [ne_eq, decide_not, Bool.not_eq_true', decide_eq_false_iff_not]
      rintro rfl
      exact h hc
  rw [Stream.cfReadLine, hf, fgetsBytes_line h hl]
  simp only [List.append_eq_nil_iff, List.cons_ne_self, and_false, if_false, toCString_eq_self h0',
    List.any_append, List.any_cons, decide_true, Bool.true_or, Bool.or_true, if_true, hline,
    List.length_append, List.length_singleton]

theorem cfReadLine_of_skip {bytes : Buffer} {fp' fp'' : Stream} {n : Nat} (h : '\n' ∉ bytes)
    (h0 : '\x00' ∉ bytes) (hne : bytes ≠ []) (hf : fgetsBytes (size - 1) fp.rest = (bytes, fp'))
    (hs : skipLine bytes.length fp'.rest = (n, fp'')) :
    fp.cfReadLine buff size = (n, bytes, fp'') := by
  rw [Stream.cfReadLine, hf]
  simp only [if_neg hne, toCString_eq_self h0, any_newline_eq_false h, Bool.false_eq_true, if_false,
    hs]

-- A line is cut off where the buffer ends, and read up to its newline.
theorem cfReadLine_line (hs : 1 < size) (h : '\n' ∉ line) (h0 : '\x00' ∉ line)
    (hf : fp.rest = line ++ '\n' :: rest) :
    fp.cfReadLine buff size = (line.length + 1, line.take (size - 1), ⟨rest, false⟩) := by
  by_cases hl : line.length < size - 1
  case pos =>
    rw [cfReadLine_of_newline h h0 hl hf, List.take_of_length_le <| Nat.le_of_lt hl]
  case neg =>
    have hl := Nat.le_of_not_lt hl
    have hlong := @fgetsBytes_long _ _ ('\n' :: rest) h hl
    rw [← hf] at hlong
    refine cfReadLine_of_skip (h <| List.mem_of_mem_take ·) (h0 <| List.mem_of_mem_take ·) ?_ hlong ?_
    · exact List.ne_nil_of_length_pos <| (Nat.sub_pos_of_lt hs).trans_eq (List.length_take_of_le hl).symm
    · rw [skipLine_line (h <| List.mem_of_mem_drop ·), List.length_take_of_le hl, List.length_drop]
      simp only [Prod.mk.injEq, and_true]
      omega

theorem cfReadLine_last (hs : 1 < size) (h : '\n' ∉ line) (h0 : '\x00' ∉ line) (hne : line ≠ [])
    (hf : fp.rest = line) :
    fp.cfReadLine buff size = (line.length, line.take (size - 1), ⟨[], true⟩) := by
  rcases fp with ⟨rest, eof⟩
  cases hf
  by_cases hl : rest.length < size - 1
  case pos =>
    rw [List.take_of_length_le <| Nat.le_of_lt hl]
    exact cfReadLine_of_skip h h0 hne (fgetsBytes_last h hl) rfl
  case neg =>
    have hl := Nat.le_of_not_lt hl
    have hlong := @fgetsBytes_long _ _ [] h hl
    rw [List.append_nil, List.append_nil] at hlong
    refine cfReadLine_of_skip (h <| List.mem_of_mem_take ·) (h0 <| List.mem_of_mem_take ·) ?_ hlong ?_
    · exact List.ne_nil_of_length_pos <| (Nat.sub_pos_of_lt hs).trans_eq (List.length_take_of_le hl).symm
    · rw [skipLine_last (h <| List.mem_of_mem_drop ·), List.length_take_of_le hl, List.length_drop]
      simp only [Prod.mk.injEq, and_true]
      omega

theorem length_fgetsBytes_le (n : Nat) (rest : Buffer) : (fgetsBytes n rest).1.length ≤ n := by
  induction n generalizing rest
  case zero => exact Nat.le_refl _
  case succ n ih =>
    rcases rest with _ | ⟨c, rest⟩
    · exact Nat.zero_le _
    · rw [fgetsBytes]
      split
      · simp
      · simpa using ih rest

-- No line that is read is longer than the buffer, or has a newline in it.
theorem cfReadLine_short {fp' : Stream} (hr : fp.cfReadLine [] size = (n, line, fp')) :
    '\n' ∉ line ∧ line.length ≤ size - 1 := by
  have hlen := length_fgetsBytes_le (size - 1) fp.rest
  rw [Stream.cfReadLine] at hr
  generalize fgetsBytes (size - 1) fp.rest = read at hr hlen
  obtain ⟨bytes, fp''⟩ := read
  have hstr : (Buffer.toCString bytes).length ≤ size - 1 :=
    (Buffer.toCString_length bytes).trans hlen
  dsimp only at hr
  split at hr
  case isTrue =>
    cases hr
    exact ⟨List.not_mem_nil, Nat.zero_le _⟩
  case isFalse =>
    split at hr
    case isTrue =>
      cases hr
      refine ⟨fun hmem => ?_, (List.takeWhile_prefix _).length_le.trans hstr⟩
      simpa using List.mem_takeWhile_imp hmem
    case isFalse hany =>
      cases hr
      refine ⟨fun hmem => hany ?_, hstr⟩
      exact List.any_eq_true.mpr ⟨_, hmem, decide_eq_true rfl⟩

theorem cfReadLine_nil (hs : 1 < size) (hf : fp.rest = []) :
    fp.cfReadLine buff size = (0, buff, ⟨[], true⟩) := by
  obtain ⟨n, hn⟩ : ∃ n, size - 1 = n + 1 := ⟨size - 2, by omega⟩
  rw [Stream.cfReadLine, hf, hn]
  rfl

end

end Stream
end CfEngine
