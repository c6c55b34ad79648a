import CfEngine.Libpromises.FilesNames
import Mathlib.Data.List.Count

namespace CfEngine

def commonLength : CString → CString → Nat
  | c :: commonto, d :: commonfrom => if c = d then commonLength commonto commonfrom + 1 else 0
  | _, _                           => 0

-- The two pointers are moved back until both point at an absolute name.
def backToSeparator (commonto commonfrom : CString) (i : Nat) : Option Nat :=
  if isAbsoluteFileName (commonto.drop i) ∧ isAbsoluteFileName (commonfrom.drop i) then
    some i
  else
    match i with
    | 0     => none
    | i + 1 => backToSeparator commonto commonfrom i

def joinLevels (buff : CString) : Nat → Option CString
  | 0          => some buff
  | levels + 1 =>
    match joinPath buff ['.', '.', '/'] with
    | (none, _)      => none
    | (some buff, _) => joinLevels buff levels

-- The text that is passed to VerifyLink.
def verifyRelativeLink (destination source : CString) : Option CString :=
  if source.head? = some '.' then
    some source
  else
    match compressPath source with
    | (false, _)     => none
    | (true, linkto) =>
      if linkto = destination then
        none
      else
        match backToSeparator linkto destination (commonLength linkto destination) with
        | none   => none
        | some i =>
          match joinLevels ['.', '/'] ((destination.drop i).count '/' - 1) with
          | none      => none
          | some buff => (joinPath buff <| linkto.drop (i + 1)).fst

def stripDots : CString → Nat × CString
  | '.' :: '.' :: '/' :: sp => let (pop, sp) := stripDots sp; (pop + 1, sp)
  | '.' :: '/' :: sp        => stripDots sp
  | sp                      => (0, sp)

def chopNodes (destination : CString) : Nat → CString
  | 0       => destination
  | pop + 1 => chopNodes (chopLastNode destination) pop

-- The result has to fit into a buffer of its own.
def absLinkPath (from' relto : CString) : Option CString :=
  if isAbsoluteFileName relto ∨ cfBufSize ≤ from'.length then
    none
  else
    let (pop, sp) := stripDots relto
    let destination := addSlash (chopNodes from' (pop + 1)) ++ sp
    if cfBufSize ≤ destination.length then none else some destination

open Paths

section
variable {pre pre' a a' b b' p c d s t destination source text : CString} {i j n : Nat}

theorem isAbsoluteFileName_cons {x : Char} :
    isAbsoluteFileName (x :: s) ↔ x = '/' ∨ x = '"' ∧ isAbsoluteFileName s := by
  by_cases hx : x = '"'
  case pos =>
    subst hx
    simp [isAbsoluteFileName]
  case neg => simp [isAbsoluteFileName, hx]

theorem isAbsoluteFileName_iff : isAbsoluteFileName s ↔ ∃ n t, s = List.replicate n '"' ++ '/' :: t := by
  induction s
  case nil       => simp [isAbsoluteFileName]
  case cons c s ih =>
    rw [isAbsoluteFileName_cons, ih]
    constructor
    · rintro (rfl | ⟨rfl, n, t, rfl⟩)
      · exact ⟨0, s, rfl⟩
      · exact ⟨n + 1, t, rfl⟩
    · rintro ⟨n, t, ht⟩
      cases n
      case zero   => exact .inl (List.cons.inj ht).left
      case succ n => exact .inr ⟨(List.cons.inj ht).left, n, t, (List.cons.inj ht).right⟩

-- The texts part behind what they have in common.
theorem exists_parting (h : s ≠ t) : ∃ pre a b, s = pre ++ a ∧ t = pre ++ b ∧ a.head? ≠ b.head? := by
  induction s generalizing t
  case nil       =>
    cases t
    case nil      => exact absurd rfl h
    case cons c t => exact ⟨[], [], c :: t, rfl, rfl, by simp⟩
  case cons c s ih =>
    by_cases hc : t.head? = some c
    case pos =>
      obtain ⟨t, rfl⟩ := List.head?_eq_some_iff.mp hc
      obtain ⟨pre, a, b, rfl, rfl, hne⟩ := ih fun he => h <| he ▸ rfl
      exact ⟨c :: pre, a, b, rfl, rfl, hne⟩
    case neg => exact ⟨[], c :: s, t, rfl, rfl, fun he => hc he.symm⟩

theorem commonLength_append (h : a.head? ≠ b.head?) : commonLength (pre ++ a) (pre ++ b) = pre.length := by
  induction pre
  case nil          =>
    cases a <;> cases b
    all_goals simp_all [commonLength]
  case cons c pre ih => rw [List.cons_append, List.cons_append, commonLength, if_pos rfl, ih, List.length_cons]

theorem parting_unique (ha : pre ++ a = pre' ++ a') (hb : pre ++ b = pre' ++ b') (hhead : a.head? ≠ b.head?)
    (hhead' : a'.head? ≠ b'.head?) : a = a' ∧ b = b' := by
  have hlength : pre.length = pre'.length := by
    rw [←commonLength_append hhead, ha, hb, commonLength_append hhead']
  exact ⟨(List.append_inj ha hlength).right, (List.append_inj hb hlength).right⟩

theorem of_backToSeparator (h : backToSeparator s t n = some i) : i ≤ n ∧
    (isAbsoluteFileName (s.drop i) ∧ isAbsoluteFileName (t.drop i)) ∧
    ∀ j, i < j → j ≤ n → ¬(isAbsoluteFileName (s.drop j) ∧ isAbsoluteFileName (t.drop j)) := by
  induction n
  case zero      =>
    rw [backToSeparator] at h
    split at h
    case isTrue hi =>
      cases h
      exact ⟨le_rfl, hi, fun j hj hle => absurd hj (Nat.not_lt.mpr hle)⟩
    case isFalse   => cases h
  case succ n ih =>
    rw [backToSeparator] at h
    split at h
    case isTrue hi  =>
      cases h
      exact ⟨le_rfl, hi, fun j hj hle => absurd hj (Nat.not_lt.mpr hle)⟩
    case isFalse hi =>
      obtain ⟨hle, habs, hmax⟩ := ih h
      refine ⟨hle.trans <| Nat.le_succ n, habs, fun j hj hle => ?_⟩
      rcases Nat.le_succ_iff.mp hle with hle | rfl
      · exact hmax j hj hle
      · exact hi

-- The way up.
def parents (levels : Nat) : CString :=
  (List.replicate levels ['.', '.', '/']).flatten

theorem parents_succ : parents (n + 1) = '.' :: '.' :: '/' :: parents n := by
  rw [parents, List.replicate_succ, List.flatten_cons]
  rfl

theorem length_parents : (parents n).length = 3 * n := by
  simp [parents, Nat.mul_comm]

theorem parents_sep : ∃ t, '/' :: parents n = t ++ ['/'] := by
  induction n
  case zero      => exact ⟨[], rfl⟩
  case succ n ih =>
    obtain ⟨t, ht⟩ := ih
    exact ⟨'/' :: '.' :: '.' :: t, by rw [parents_succ, ht]; rfl⟩

theorem joinLevels_eq (h : joinLevels (s ++ ['/']) n = some c) : c = s ++ '/' :: parents n := by
  induction n generalizing s
  case zero      => exact (Option.some.inj h).symm
  case succ n ih =>
    rw [joinLevels, joinPath_sep] at h
    have hsep : s ++ ['/', '.', '.', '/'] = (s ++ ['/', '.', '.']) ++ ['/'] := by simp
    split_ifs at h
    simp only [hsep] at h
    rw [ih h, parents_succ]
    simp

theorem joinLevels_isSome (h : s.length + 1 + 3 * n ≤ cfBufSize - cfBufferMargin) :
    ∃ c, joinLevels (s ++ ['/']) n = some c := by
  induction n generalizing s
  case zero      => exact ⟨_, rfl⟩
  case succ n ih =>
    have hsep : s ++ ['/', '.', '.', '/'] = (s ++ ['/', '.', '.']) ++ ['/'] := by simp
    have hfits : ¬cfBufSize - cfBufferMargin < s.length + 1 + ['.', '.', '/'].length := by
      rw [List.length_cons, List.length_cons, List.length_singleton]
      omega
    simp only [joinLevels, joinPath_sep, if_neg hfits, hsep]
    refine ih ?_
    rw [List.length_append, List.length_cons, List.length_cons, List.length_singleton]
    omega

theorem stripDots_of_ne (hup : ∀ s, c ≠ '.' :: '.' :: '/' :: s) (hdot : ∀ s, c ≠ '.' :: '/' :: s) :
    stripDots c = (0, c) := by
  unfold stripDots
  split
  · exact absurd rfl <| hup _
  · exact absurd rfl <| hdot _
  · rfl

theorem stripDots_of_head (h : c.head? ≠ some '.') : stripDots c = (0, c) := by
  refine stripDots_of_ne ?_ ?_
  · rintro s rfl
    exact h rfl
  · rintro s rfl
    exact h rfl

theorem stripDots_node (hn : IsProper p) (hrest : ∀ d ∈ t.head?, d = '/') : stripDots (p ++ t) = (0, p ++ t) := by
  have hhead {a s : CString} (ha : IsName a) (he : p ++ t = a ++ '/' :: s) : p = a := by
    have hnodes := nodes_append hn.toIsName hrest
    rw [he, nodes_append ha (by simp)] at hnodes
    exact (List.cons.inj hnodes).left.symm
  refine stripDots_of_ne (fun s he => ?_) fun s he => ?_
  · exact hn.ne_dotdot <| hhead (a := ['.', '.']) ⟨by decide, by decide⟩ he
  · exact hn.ne_dot <| hhead (a := ['.']) ⟨by decide, by decide⟩ he

theorem stripDots_parents (h : stripDots c = (0, c)) : stripDots ('.' :: '/' :: (parents n ++ c)) = (n, c) := by
  have hup : stripDots (parents n ++ c) = (n, c) := by
    induction n
    case zero      => exact h
    case succ n ih => rw [parents_succ, List.cons_append, List.cons_append, List.cons_append, stripDots, ih]
  rw [stripDots, hup]

theorem chopLastNode_append (h : '/' ∉ t) : chopLastNode (p ++ '/' :: t) = if p = [] then ['/'] else p := by
  simp only [chopLastNode, lastFileSeparator_append h, List.take_left]
  split
  case isTrue hp =>
    subst hp
    rfl
  case isFalse   => rfl

theorem chopNodes_append : chopNodes (p ++ '/' :: d) (d.count '/' + 1) = if p = [] then ['/'] else p := by
  induction hn : d.count '/' generalizing d
  case zero      => rw [chopNodes, chopLastNode_append (List.count_eq_zero.mp hn), chopNodes]
  case succ n ih =>
    have hmem : '/' ∈ d.reverse := List.mem_reverse.mpr <| List.count_pos_iff.mp <| hn ▸ Nat.succ_pos n
    obtain ⟨a, b, hd, ha⟩ := List.eq_append_cons_of_mem hmem
    have hsplit : d = b.reverse ++ '/' :: a.reverse := by
      rw [←List.reverse_reverse d, hd, List.reverse_append, List.reverse_cons, List.append_assoc]
      rfl
    have hnot : '/' ∉ a.reverse := fun h => ha <| List.mem_reverse.mp h
    have hcount : b.reverse.count '/' = n := by
      rw [hsplit, List.count_append, List.count_cons_self, List.count_eq_zero.mpr hnot] at hn
      omega
    have hassoc : p ++ '/' :: (b.reverse ++ '/' :: a.reverse) = (p ++ '/' :: b.reverse) ++ '/' :: a.reverse := by simp
    rw [chopNodes, hsplit, hassoc, chopLastNode_append hnot, if_neg (by simp), ih hcount]

theorem absLinkPath_append (habs : (p ++ '/' :: d).head? = some '/') (hp : p.getLast? ≠ some '/')
    (hc : stripDots c = (0, c)) (hlen : (p ++ '/' :: d).length < cfBufSize) :
    absLinkPath (p ++ '/' :: d) ('.' :: '/' :: (parents (d.count '/') ++ c)) =
      if cfBufSize ≤ (p ++ '/' :: c).length then none else some (p ++ '/' :: c) := by
  have hrel : ¬(isAbsoluteFileName ('.' :: '/' :: (parents (d.count '/') ++ c)) ∨
      cfBufSize ≤ (p ++ '/' :: d).length) := by
    rw [not_or]
    exact ⟨by simp [isAbsoluteFileName], Nat.not_le.mpr hlen⟩
  have hslash : addSlash (if p = [] then ['/'] else p) = p ++ ['/'] := by
    cases p
    case nil      => rfl
    case cons x p =>
      obtain rfl : x = '/' := Option.some.inj habs
      rw [if_neg (List.cons_ne_nil _ _), addSlash, if_neg hp, if_neg]
      exact fun h => h.right List.mem_cons_self
  simp only [absLinkPath, if_neg hrel, stripDots_parents hc, chopNodes_append, hslash, List.append_assoc,
    List.singleton_append]

-- One of the paths goes on with quotes where the other has a separator, and has one behind them.
def Quoted (path quoted : CString) : Prop :=
  ∃ pre n rest rest', path = pre ++ '/' :: rest ∧ quoted = pre ++ '"' :: (List.replicate n '"' ++ '/' :: rest')

-- In normal form, a path has its names behind single separators.
theorem compressed_split (habs : s.head? = some '/') (hs : compressPath s = (true, s)) (h : s = p ++ '/' :: c) :
    p.getLast? ≠ some '/' ∧ stripDots c = (0, c) := by
  have hnormal := of_compressPath habs hs
  have hproper := @isProper_of_mem_normalNodes s
  rw [normalForm] at hnormal
  obtain ⟨hp, hc⟩ := text_split (fun node hnode => (hproper node hnode).toIsName) <| hnormal.symm.trans h
  refine ⟨hp, ?_⟩
  by_cases hne : c = []
  case pos =>
    subst hne
    exact stripDots_of_head (by simp)
  case neg =>
    obtain ⟨node, hnode, rest, rfl, hrest⟩ := hc hne
    exact stripDots_node (hproper node hnode) hrest

theorem verifyRelativeLink_eq (habs : source.head? = some '/') (hs : compressPath source = (true, source))
    (hne : source ≠ destination) (hi : backToSeparator source destination (commonLength source destination) = some i) :
    verifyRelativeLink destination source =
      match joinLevels ['.', '/'] ((destination.drop i).count '/' - 1) with
      | none      => none
      | some buff => (joinPath buff <| source.drop (i + 1)).fst := by
  have hdot : source.head? ≠ some '.' := by
    rw [habs]
    decide
  simp only [verifyRelativeLink, if_neg hdot, hs, if_neg hne, hi]

theorem joinPath_parents : (joinPath ('.' :: '/' :: parents n) c).fst =
    if cfBufSize - cfBufferMargin < 2 + 3 * n + c.length then none else some ('.' :: '/' :: (parents n ++ c)) := by
  obtain ⟨t, ht⟩ := @parents_sep n
  have hbuff : '.' :: '/' :: parents n = ('.' :: t) ++ ['/'] := by
    rw [ht]
    rfl
  have hlength : ('.' :: t).length + 1 = 2 + 3 * n := by
    rw [←List.length_singleton, ←List.length_append, ←hbuff, List.length_cons, List.length_cons, length_parents]
    omega
  have happend : ('.' :: t) ++ '/' :: c = '.' :: '/' :: (parents n ++ c) := by
    rw [List.append_cons, ←hbuff]
    rfl
  rw [hbuff, joinPath_sep, hlength, happend]
  split <;> rfl

theorem backToSeparator_isSome (hs : isAbsoluteFileName s) (ht : isAbsoluteFileName t) :
    ∃ i, backToSeparator s t n = some i := by
  induction n
  case zero      => exact ⟨0, by rw [backToSeparator, if_pos ⟨hs, ht⟩]⟩
  case succ n ih =>
    rw [backToSeparator]
    split
    case isTrue  => exact ⟨_, rfl⟩
    case isFalse => exact ih

theorem verifyRelativeLink_isSome (hsource : source.head? = some '/') (hdest : destination.head? = some '/')
    (hs : compressPath source = (true, source)) (hne : source ≠ destination)
    (hfits : 3 * destination.count '/' + source.length ≤ cfBufSize - cfBufferMargin) :
    ∃ text, verifyRelativeLink destination source = some text := by
  have habs {s : CString} (h : s.head? = some '/') : isAbsoluteFileName s := by
    cases s
    case nil  => cases h
    case cons =>
      cases h
      rfl
  obtain ⟨i, hi⟩ := @backToSeparator_isSome source destination (commonLength source destination)
    (habs hsource) (habs hdest)
  have hcount := (List.drop_sublist i destination).count_le '/'
  have hpos : 0 < destination.count '/' := List.count_pos_iff.mpr <| List.mem_of_mem_head? hdest
  obtain ⟨buff, hbuff⟩ := @joinLevels_isSome ['.'] ((destination.drop i).count '/' - 1) <| by
    rw [List.length_singleton]
    omega
  obtain rfl := joinLevels_eq hbuff
  have hdrop : (source.drop (i + 1)).length = source.length - (i + 1) := List.length_drop
  have hshort : ¬cfBufSize - cfBufferMargin <
      2 + 3 * ((destination.drop i).count '/' - 1) + (source.drop (i + 1)).length := by omega
  have heq := verifyRelativeLink_eq hsource hs hne hi
  simp only [List.singleton_append] at hbuff
  simp only [hbuff, joinPath_parents, if_neg hshort] at heq
  exact ⟨_, heq⟩

theorem of_verifyRelativeLink (habs : source.head? = some '/') (hs : compressPath source = (true, source))
    (hne : source ≠ destination) (h : verifyRelativeLink destination source = some text) :
    ∃ i, backToSeparator source destination (commonLength source destination) = some i ∧
      text = '.' :: '/' :: (parents ((destination.drop i).count '/' - 1) ++ source.drop (i + 1)) := by
  cases hi : backToSeparator source destination (commonLength source destination)
  case none   =>
    rw [verifyRelativeLink, if_neg (by rw [habs]; decide)] at h
    simp [hs, hne, hi] at h
  case some i =>
    refine ⟨i, rfl, ?_⟩
    rw [verifyRelativeLink_eq habs hs hne hi] at h
    cases hl : joinLevels ['.', '/'] ((destination.drop i).count '/' - 1)
    case none      => simp [hl] at h
    case some buff =>
      obtain rfl := joinLevels_eq (s := ['.']) hl
      simp only [hl, List.singleton_append, joinPath_parents] at h
      split_ifs at h
      exact (Option.some.inj h).symm

-- The pointers come back to a separator of what the texts have in common.
theorem exists_common_separator (hi : backToSeparator (pre ++ a) (pre ++ b) pre.length = some i)
    (hlt : i < pre.length) : ∃ p q, pre = p ++ '/' :: q ∧ p.length = i := by
  obtain ⟨-, ⟨ha, hb⟩, hmax⟩ := of_backToSeparator hi
  obtain ⟨p, x, q, rfl, rfl⟩ : ∃ p x q, pre = p ++ x :: q ∧ p.length = i :=
    ⟨pre.take i, pre[i], pre.drop (i + 1), by simp, by simp; omega⟩
  refine ⟨p, q, ?_, rfl⟩
  rw [List.append_assoc, List.cons_append, List.drop_left, isAbsoluteFileName_cons] at ha hb
  obtain rfl : x = '/' := by
    by_contra hx
    refine hmax (p.length + 1) (Nat.lt_succ_self _) hlt ?_
    have hdrop (r : CString) : (p ++ x :: q ++ r).drop (p.length + 1) = q ++ r := by
      rw [List.append_assoc, List.cons_append, List.append_cons, List.drop_left' (by simp)]
    rw [hdrop, hdrop]
    exact ⟨(ha.resolve_left hx).right, (hb.resolve_left hx).right⟩
  rfl

theorem isAbsoluteFileName_quotes : isAbsoluteFileName (List.replicate n '"' ++ '/' :: t) :=
  isAbsoluteFileName_iff.mpr ⟨n, t, rfl⟩

-- Otherwise, both paths may go on with quotes and a separator.
theorem quoted_iff (hhead : a.head? ≠ b.head?) : Quoted (pre ++ b) (pre ++ a) ∨ Quoted (pre ++ a) (pre ++ b) ↔
    isAbsoluteFileName a ∧ isAbsoluteFileName b := by
  constructor
  · rintro (⟨pre', n, r, r', hb, ha⟩ | ⟨pre', n, r, r', ha, hb⟩)
    · obtain ⟨rfl, rfl⟩ := parting_unique ha hb hhead (by simp)
      exact ⟨@isAbsoluteFileName_quotes r' (n + 1), @isAbsoluteFileName_quotes r 0⟩
    · obtain ⟨rfl, rfl⟩ := parting_unique ha hb hhead (by simp)
      exact ⟨@isAbsoluteFileName_quotes r 0, @isAbsoluteFileName_quotes r' (n + 1)⟩
  · rintro ⟨ha, hb⟩
    obtain ⟨n, s, rfl⟩ := isAbsoluteFileName_iff.mp ha
    obtain ⟨m, t, rfl⟩ := isAbsoluteFileName_iff.mp hb
    cases n <;> cases m
    case zero.zero      => exact absurd rfl hhead
    case zero.succ m    => exact .inr ⟨pre, m, s, t, rfl, rfl⟩
    case succ.zero n    => exact .inl ⟨pre, n, t, s, rfl, rfl⟩
    case succ.succ n m  => exact absurd rfl hhead

-- A quote of the source is lost, or one of the destination is taken along.
theorem absLinkPath_quoted (hdest : (pre ++ b).head? = some '/') (hsource : (pre ++ a).head? = some '/')
    (hd : compressPath (pre ++ b) = (true, pre ++ b)) (hs : compressPath (pre ++ a) = (true, pre ++ a))
    (hdlen : (pre ++ b).length < cfBufSize) (hhead : a.head? ≠ b.head?)
    (habs : isAbsoluteFileName a ∧ isAbsoluteFileName b) :
    absLinkPath (pre ++ b) ('.' :: '/' :: (parents (b.count '/' - 1) ++ a.drop 1)) ≠ some (pre ++ a) := by
  obtain ⟨n, s, rfl⟩ := isAbsoluteFileName_iff.mp habs.left
  obtain ⟨m, t, rfl⟩ := isAbsoluteFileName_iff.mp habs.right
  cases n <;> cases m
  case zero.zero      => exact absurd rfl hhead
  case zero.succ m    =>
    have hassoc (r : CString) : pre ++ (List.replicate (m + 1) '"' ++ '/' :: r) =
        (pre ++ List.replicate (m + 1) '"') ++ '/' :: r := (List.append_assoc ..).symm
    have hcount : (List.replicate (m + 1) '"' ++ '/' :: t).count '/' - 1 = t.count '/' := by
      rw [List.count_append, List.count_replicate, List.count_cons_self]
      exact Nat.zero_add _
    have hdots := (compressed_split hsource hs rfl).right
    rw [hcount, hassoc]
    rw [hassoc] at hdest hd hdlen
    have hpre := (compressed_split hdest hd rfl).left
    intro he
    have hlink := (absLinkPath_append hdest hpre hdots hdlen).symm.trans he
    split_ifs at hlink
    have hlength := congrArg List.length <| Option.some.inj hlink
    simp at hlength
  case succ.zero n    =>
    have hpre := (compressed_split hdest hd rfl).left
    have hdots : stripDots (List.replicate n '"' ++ '/' :: s) = (0, List.replicate n '"' ++ '/' :: s) :=
      stripDots_of_head <| by cases n <;> simp [List.replicate_succ]
    have hcount : (List.replicate 0 '"' ++ '/' :: t).count '/' - 1 = t.count '/' := by
      rw [List.replicate_zero, List.nil_append, List.count_cons_self, Nat.add_sub_cancel]
    rw [hcount]
    intro he
    have hlink := (absLinkPath_append hdest hpre hdots hdlen).symm.trans he
    split_ifs at hlink
    have hnext := List.append_cancel_left <| Option.some.inj hlink
    cases hnext
  case succ.succ n m  => exact absurd rfl hhead

-- The link goes elsewhere if one of the paths has quotes where they part.
theorem verifyRelativeLink_iff (destination source : CString) (hdest : destination.head? = some '/')
    (hsource : source.head? = some '/') (hd : compressPath destination = (true, destination))
    (hs : compressPath source = (true, source)) (hdlen : destination.length < cfBufSize)
    (hslen : source.length < cfBufSize) (hne : source ≠ destination) :
    (3 * destination.count '/' + source.length ≤ cfBufSize - cfBufferMargin →
      ∃ text, verifyRelativeLink destination source = some text) ∧
    ∀ text, verifyRelativeLink destination source = some text →
      (absLinkPath destination text = some source ↔ ¬(Quoted destination source ∨ Quoted source destination)) := by
  refine ⟨verifyRelativeLink_isSome hsource hdest hs hne, fun text htext => ?_⟩
  obtain ⟨i, hi, rfl⟩ := of_verifyRelativeLink hsource hs hne htext
  obtain ⟨pre, a, b, rfl, rfl, hhead⟩ := exists_parting hne
  rw [commonLength_append hhead] at hi
  rw [quoted_iff hhead]
  obtain ⟨hle, habs, hmax⟩ := of_backToSeparator hi
  by_cases hik : i = pre.length
  case pos =>
    subst hik
    rw [List.drop_left, List.drop_left] at habs
    rw [List.drop_left, ←List.drop_drop, List.drop_left]
    exact iff_of_false (absLinkPath_quoted hdest hsource hd hs hdlen hhead habs) (not_not_intro habs)
  case neg =>
    have hlt := Nat.lt_of_le_of_ne hle hik
    have hnot := hmax pre.length hlt le_rfl
    rw [List.drop_left, List.drop_left] at hnot
    refine iff_of_true ?_ hnot
    obtain ⟨p, q, rfl, rfl⟩ := exists_common_separator hi hlt
    have happend (r : CString) : p ++ '/' :: q ++ r = p ++ '/' :: (q ++ r) := by simp
    simp only [happend] at hdest hdlen hsource hs hslen ⊢
    obtain ⟨hp, hdots⟩ := compressed_split hsource hs rfl
    have hdrop : (p ++ '/' :: (q ++ a)).drop (p.length + 1) = q ++ a := by
      rw [List.append_cons, List.drop_left' (by simp)]
    rw [List.drop_left, List.count_cons_self, Nat.add_sub_cancel, hdrop, absLinkPath_append hdest hp hdots hdlen,
      if_neg <| Nat.not_le.mpr hslen]

end

-- The names are partly equal.
theorem verifyRelativeLink_partly :
    verifyRelativeLink ['/', 'a', 'b', '/', 'c'] ['/', 'a', '/', 'e'] =
      some ['.', '/', '.', '.', '/', 'a', '/', 'e'] ∧
    absLinkPath ['/', 'a', 'b', '/', 'c'] ['.', '/', '.', '.', '/', 'a', '/', 'e'] = some ['/', 'a', '/', 'e'] := by
  have hd : compressPath ['/', 'a', 'b', '/', 'c'] = (true, ['/', 'a', 'b', '/', 'c']) :=
    compressPath_of_fits rfl (by decide) (by decide)
  have hs : compressPath ['/', 'a', '/', 'e'] = (true, ['/', 'a', '/', 'e']) :=
    compressPath_of_fits rfl (by decide) (by decide)
  have htext : verifyRelativeLink ['/', 'a', 'b', '/', 'c'] ['/', 'a', '/', 'e'] =
      some ['.', '/', '.', '.', '/', 'a', '/', 'e'] :=
    (verifyRelativeLink_eq (i := 0) rfl hs (by decide) (by decide)).trans (by decide)
  have hiff := verifyRelativeLink_iff ['/', 'a', 'b', '/', 'c'] ['/', 'a', '/', 'e'] rfl rfl hd hs (by decide)
    (by decide) (by decide)
  refine ⟨htext, (hiff.right _ htext).mpr ?_⟩
  rintro (⟨pre, n, rest, rest', -, hquoted⟩ | ⟨pre, n, rest, rest', -, hquoted⟩)
  · exact absurd (hquoted ▸ List.mem_append_right _ List.mem_cons_self) (by decide : '"' ∉ ['/', 'a', '/', 'e'])
  · exact absurd (hquoted ▸ List.mem_append_right _ List.mem_cons_self) (by decide : '"' ∉ ['/', 'a', 'b', '/', 'c'])

-- The link that is made for the file in a" leads to the one in a.
theorem not_verifyRelativeLink : ¬∀ destination source text : CString,
    destination.head? = some '/' → source.head? = some '/' → compressPath destination = (true, destination) →
    compressPath source = (true, source) → destination.length < cfBufSize → source.length < cfBufSize →
    source ≠ destination → verifyRelativeLink destination source = some text →
    absLinkPath destination text = some source := by
  intro h
  have hd : compressPath ['/', 'a', '/', 'b'] = (true, ['/', 'a', '/', 'b']) :=
    compressPath_of_fits rfl (by decide) (by decide)
  have hs : compressPath ['/', 'a', '"', '/', 'b'] = (true, ['/', 'a', '"', '/', 'b']) :=
    compressPath_of_fits rfl (by decide) (by decide)
  have htext : verifyRelativeLink ['/', 'a', '/', 'b'] ['/', 'a', '"', '/', 'b'] = some ['.', '/', '/', 'b'] :=
    (verifyRelativeLink_eq (i := 2) rfl hs (by decide) (by decide)).trans (by decide)
  exact absurd (h _ _ _ rfl rfl hd hs (by decide) (by decide) (by decide) htext) (by decide)

end CfEngine
