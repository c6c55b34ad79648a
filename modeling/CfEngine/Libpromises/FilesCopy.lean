import CfEngine.Libutils.Strings
import Mathlib.Data.List.TakeWhile

namespace CfEngine

-- Spans at the beginning of a memory area of n bytes.
def memSpan : List UInt8 → UInt8 → Nat → Nat
  | b :: mem, c, n + 1 => if b = c then memSpan mem c n + 1 else 0
  | _, _, _            => 0

def memSpanInverse : List UInt8 → UInt8 → Nat → Nat
  | b :: mem, c, n + 1 => if b = c then 0 else memSpanInverse mem c n + 1
  | _, _, _            => 0

-- An open file.
structure Descriptor where
  content : List UInt8
  offset  : Nat

namespace Descriptor

def empty : Descriptor where
  content := []
  offset  := 0

def seek (d : Descriptor) (n : Nat) : Descriptor :=
  { d with offset := d.offset + n }

-- What lies between the end of the file and the offset is filled with zeros.
def write (d : Descriptor) (bytes : List UInt8) : Descriptor :=
  if bytes = [] then
    d
  else
    let before := (d.content ++ List.replicate (d.offset - d.content.length) 0).take d.offset
    { content := before ++ bytes ++ d.content.drop (d.offset + bytes.length), offset := d.offset + bytes.length }

def truncate (d : Descriptor) (n : Nat) : Descriptor :=
  { d with content := d.content.take n ++ List.replicate (n - d.content.length) 0 }

end Descriptor

-- The calls on the destination, which say whether they have worked.
structure DescriptorCalls where
  lseek     : Descriptor → Nat → Bool × Descriptor
  fullWrite : Descriptor → List UInt8 → Bool × Descriptor
  ftruncate : Descriptor → Nat → Bool × Descriptor

inductive ReadResult
  | eintr
  | error
  | bytes (buf : List UInt8)

theorem memSpan_eq (mem : List UInt8) (c : UInt8) :
    memSpan mem c mem.length = (mem.takeWhile (· = c)).length := by
  induction mem
  case nil           => rfl
  case cons b mem ih =>
    rw [List.length_cons, memSpan, List.takeWhile_cons, ih]
    by_cases hb : b = c <;> simp [hb]

-- A span of one kind or the other is found.
theorem memSpan_progress {cur : List UInt8} (h : cur ≠ []) :
    (cur.drop (memSpan cur 0 cur.length) |>.drop <| memSpanInverse (cur.drop (memSpan cur 0 cur.length)) 0
      (cur.drop (memSpan cur 0 cur.length)).length).length < cur.length := by
  obtain ⟨b, cur, rfl⟩ := List.exists_cons_of_ne_nil h
  rw [List.length_drop]
  by_cases hb : b = 0
  case pos =>
    rw [List.length_cons, memSpan, if_pos hb, List.drop_succ_cons, List.length_drop]
    omega
  case neg =>
    rw [List.length_cons, memSpan, if_neg hb, List.drop_zero, List.length_cons, memSpanInverse, if_neg hb]
    omega

section
variable (calls : DescriptorCalls)

-- Runs of zeros are skipped, the bytes between them are written.
def copySpans (dd : Descriptor) (cur : List UInt8) : Bool × Descriptor :=
  if cur = [] then
    (true, dd)
  else
    let skip := memSpan cur 0 cur.length
    match if 0 < skip then calls.lseek dd skip else (true, dd) with
    | (false, dd) => (false, dd)
    | (true, dd)  =>
      let rest := cur.drop skip
      let copy := memSpanInverse rest 0 rest.length
      match if 0 < copy then calls.fullWrite dd (rest.take copy) else (true, dd) with
      | (false, dd) => (false, dd)
      | (true, dd)  => copySpans dd (rest.drop copy)
termination_by cur.length
decreasing_by
  exact memSpan_progress ‹_›

-- The results of the calls of read are given. There is no result of the copy when they do not come to an end.
def copyData (nReadTotal : Nat) (dd : Descriptor) : List ReadResult → Option (Bool × Descriptor)
  | []                  => none
  | .eintr :: reads     => copyData nReadTotal dd reads
  | .error :: _         => some (false, dd)
  | .bytes buf :: reads =>
    if buf = [] then
      some <| calls.ftruncate dd nReadTotal
    else
      match copySpans calls dd buf with
      | (false, dd) => some (false, dd)
      | (true, dd)  => copyData (nReadTotal + buf.length) dd reads

end

-- The calls do what they are asked to do.
structure DescriptorCalls.Work (calls : DescriptorCalls) : Prop where
  lseek dd n         : calls.lseek dd n = (true, dd.seek n)
  fullWrite dd bytes : calls.fullWrite dd bytes = (true, dd.write bytes)
  ftruncate dd n     : calls.ftruncate dd n = (true, dd.truncate n)

-- Content is read in pieces that fit into the buffer, with interrupted calls between them, up to its end.
inductive ReadsAll (bufSize : Nat) : List UInt8 → List ReadResult → Prop
  | eof {reads} : ReadsAll bufSize [] (.bytes [] :: reads)
  | eintr {content reads} : ReadsAll bufSize content reads → ReadsAll bufSize content (.eintr :: reads)
  | chunk {buf content reads} : 0 < buf.length → buf.length ≤ bufSize → ReadsAll bufSize content reads →
    ReadsAll bufSize (buf ++ content) (.bytes buf :: reads)

-- Zeros at the end are still to be added to what has been copied.
structure Copied (dd : Descriptor) (copied : List UInt8) : Prop where
  offset  : dd.offset = copied.length
  content : ∃ n, copied = dd.content ++ List.replicate n 0

section
variable {calls : DescriptorCalls} {dd : Descriptor} {copied bytes cur content : List UInt8} {n bufSize : Nat}
  {reads : List ReadResult}

theorem copied_empty : Copied .empty [] where
  offset  := rfl
  content := ⟨0, rfl⟩

theorem Copied.seek (h : Copied dd copied) : Copied (dd.seek n) (copied ++ List.replicate n 0) where
  offset  := by rw [Descriptor.seek, h.offset, List.length_append, List.length_replicate]
  content := by
    obtain ⟨m, hm⟩ := h.content
    exact ⟨m + n, by rw [Descriptor.seek, hm, List.append_assoc, List.replicate_append_replicate]⟩

theorem Copied.write (h : Copied dd copied) : Copied (dd.write bytes) (copied ++ bytes) := by
  by_cases hb : bytes = []
  case pos =>
    subst hb
    rwa [Descriptor.write, if_pos rfl, List.append_nil]
  case neg =>
    obtain ⟨m, hm⟩ := h.content
    have hlength : copied.length = dd.content.length + m := by rw [hm, List.length_append, List.length_replicate]
    have hbefore : (dd.content ++ List.replicate (dd.offset - dd.content.length) 0).take dd.offset = copied := by
      rw [h.offset, hlength, Nat.add_sub_cancel_left, ←hm, ←hlength, List.take_length]
    have hbehind : dd.content.drop (dd.offset + bytes.length) = [] := by
      rw [List.drop_eq_nil_iff, h.offset, hlength]
      omega
    simp only [Descriptor.write, if_neg hb, hbefore, hbehind, List.append_nil]
    exact ⟨by rw [h.offset, List.length_append], 0, by rw [List.replicate_zero, List.append_nil]⟩

theorem Copied.truncate (h : Copied dd copied) : (dd.truncate copied.length).content = copied := by
  obtain ⟨m, hm⟩ := h.content
  have hlength : copied.length = dd.content.length + m := by rw [hm, List.length_append, List.length_replicate]
  rw [Descriptor.truncate, hlength, Nat.add_sub_cancel_left, List.take_of_length_le (Nat.le_add_right _ _), ←hm]

theorem take_memSpan : cur.take (memSpan cur 0 cur.length) = List.replicate (memSpan cur 0 cur.length) 0 := by
  rw [memSpan_eq, ←List.prefix_iff_eq_take.mp <| List.takeWhile_prefix _, List.eq_replicate_iff]
  refine ⟨rfl, fun b hb => ?_⟩
  have hzero := List.mem_takeWhile_imp hb
  exact of_decide_eq_true hzero

-- When the calls work, a skip or a write of nothing is none.
theorem copySpans_eq (hw : calls.Work) (h : cur ≠ []) : copySpans calls dd cur =
    let skip := memSpan cur 0 cur.length
    let rest := cur.drop skip
    let copy := memSpanInverse rest 0 rest.length
    copySpans calls ((dd.seek skip).write (rest.take copy)) (rest.drop copy) := by
  have hseek (skip : Nat) : (if 0 < skip then calls.lseek dd skip else (true, dd)) = (true, dd.seek skip) := by
    split
    case isTrue    => exact hw.lseek dd skip
    case isFalse h =>
      obtain rfl := Nat.eq_zero_of_not_pos h
      rfl
  have hwrite (dd : Descriptor) (copy : Nat) (rest : List UInt8) :
      (if 0 < copy then calls.fullWrite dd (rest.take copy) else (true, dd)) = (true, dd.write (rest.take copy)) := by
    split
    case isTrue    => exact hw.fullWrite dd _
    case isFalse h =>
      obtain rfl := Nat.eq_zero_of_not_pos h
      rfl
  rw [copySpans, if_neg h]
  simp only [hseek, hwrite]

theorem copied_copySpans (hw : calls.Work) (h : Copied dd copied) :
    ∃ dd', copySpans calls dd cur = (true, dd') ∧ Copied dd' (copied ++ cur) := by
  induction hn : cur.length using Nat.strongRecOn generalizing dd copied cur
  case ind n ih =>
    subst hn
    by_cases hcur : cur = []
    case pos =>
      subst hcur
      exact ⟨dd, by rw [copySpans, if_pos rfl], by rwa [List.append_nil]⟩
    case neg =>
      have hseek := h.seek (n := memSpan cur 0 cur.length)
      have hstep := @Copied.write _ _ ((cur.drop (memSpan cur 0 cur.length)).take <| memSpanInverse
        (cur.drop (memSpan cur 0 cur.length)) 0 (cur.drop (memSpan cur 0 cur.length)).length) hseek
      obtain ⟨dd', hrun, hcopied⟩ := ih _ (memSpan_progress hcur) hstep rfl
      refine ⟨dd', (copySpans_eq hw hcur).trans hrun, ?_⟩
      rwa [List.append_assoc, List.append_assoc, List.take_append_drop, ←take_memSpan, List.take_append_drop] at hcopied

-- One step for each result of read.
theorem copyData_reads (hw : calls.Work) (hr : ReadsAll bufSize content reads) (h : Copied dd copied) :
    ∃ dd', copyData calls copied.length dd reads = some (true, dd') ∧ dd'.content = copied ++ content := by
  induction hr generalizing dd copied
  case eof                             =>
    refine ⟨dd.truncate copied.length, ?_, ?_⟩
    · rw [copyData, if_pos rfl, hw.ftruncate]
    · rw [h.truncate, List.append_nil]
  case eintr ih                        => exact ih h
  case chunk buf content reads hpos _ _ ih =>
    obtain ⟨dd₁, hspans, hcopied⟩ := @copied_copySpans _ _ _ buf hw h
    obtain ⟨dd', hrun, hcontent⟩ := ih hcopied
    refine ⟨dd', ?_, hcontent.trans <| List.append_assoc ..⟩
    rw [copyData, if_neg (List.ne_nil_of_length_pos hpos)]
    simp only [hspans]
    rwa [←List.length_append]

end

-- The copy is exact, whatever the runs of zeros are and wherever the pieces end.
theorem copyData_exact (calls : DescriptorCalls) (hw : calls.Work) (bufSize : Nat) (content : List UInt8)
    (reads : List ReadResult) (hr : ReadsAll bufSize content reads) :
    ∃ dd, copyData calls 0 .empty reads = some (true, dd) ∧ dd.content = content :=
  copyData_reads hw hr copied_empty

-- A run of zeros that three pieces share, and one at the end.
theorem copyData_runs : ∃ (calls : DescriptorCalls) (dd : Descriptor),
    copyData calls 0 .empty [.eintr, .bytes [1, 0], .bytes [0], .eintr, .bytes [0, 2], .bytes [0, 0], .bytes []] =
      some (true, dd) ∧ dd.content = [1, 0, 0, 0, 2, 0, 0] := by
  let calls : DescriptorCalls := {
    lseek     := fun dd n => (true, dd.seek n)
    fullWrite := fun dd bytes => (true, dd.write bytes)
    ftruncate := fun dd n => (true, dd.truncate n)
  }
  have hreads : ReadsAll 2 ([1, 0] ++ ([0] ++ ([0, 2] ++ ([0, 0] ++ []))))
      [.eintr, .bytes [1, 0], .bytes [0], .eintr, .bytes [0, 2], .bytes [0, 0], .bytes []] :=
    .eintr <| .chunk (by decide) (by decide) <| .chunk (by decide) (by decide) <| .eintr <|
      .chunk (by decide) (by decide) <| .chunk (by decide) (by decide) .eof
  exact ⟨calls, copyData_exact calls ⟨fun _ _ => rfl, fun _ _ => rfl, fun _ _ => rfl⟩ 2 _ _ hreads⟩

end CfEngine
