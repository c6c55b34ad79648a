import Mathlib.Tactic.IntervalCases
import CfEngine.CfServerd.Exec

namespace CfEngine

def removedOptions : List CString :=
  ["-K".toList, "-f".toList, "--no-lock".toList, "--file".toList]

-- The words that ask for classes at a position.
def definesFound (before rest : CString) : Prop :=
  optionFound before rest "--define".toList ∨ optionFound before rest "-D".toList

-- The loop over the arguments from a position on: what is left of them, and the texts for which classes have been
-- asked for.
inductive Examined : CString → CString → CString → List CString → Prop
  | nil {before : CString} : Examined before [] [] []
  | blank {before rest rest' out out' option : CString} {calls : List CString} (ho : option ∈ removedOptions)
    (hf : optionFound before rest option) (hr : rest = option ++ rest')
    (hb : out = List.replicate option.length ' ' ++ out')
    (h : Examined (List.replicate option.length ' ' ++ before) rest' out' calls) : Examined before rest out calls
  | keep {before rest out : CString} {c : Char} {calls calls' : List CString}
    (hn : ∀ option ∈ removedOptions, ¬optionFound before (c :: rest) option) (hc : c ∉ [';', '&', '|'])
    (hd : definesFound before (c :: rest) → calls = (c :: rest) :: calls')
    (hd' : ¬definesFound before (c :: rest) → calls = calls')
    (h : Examined (c :: before) rest out calls') : Examined before (c :: rest) (c :: out) calls

-- The classes for a text have been allowed in the course of the events.
def Allowed (text : CString) (t : List Event) : Prop :=
  ∃ conn exempt, Event.decision (.authorizeRoles text) conn exempt true ∈ t

variable {before rest out text : CString} {host : ServerHost} {s : ServerState} {t : List Event} {calls : List CString}

theorem optionFound_prefix {word : CString} (h : optionFound before rest word = true) : word <+: rest :=
  List.isPrefixOf_iff_prefix.mp (of_decide_eq_true h).left

theorem removedOptions_head {option : CString} (h : option ∈ removedOptions) : option.head? = some '-' := by
  revert option
  decide

theorem not_optionFound_of_head {word : CString} {c : Char} (hw : word.head? = some '-') (hc : c ≠ '-') :
    ¬optionFound before (c :: rest) word := by
  intro h
  have ⟨_, he⟩ := optionFound_prefix h
  cases word
  case nil       => nomatch hw
  case cons d ds =>
    cases Option.some.inj hw
    exact hc (List.cons.inj he).left.symm

theorem not_refused_of_head {c : Char} (hr : rest.head? = some c) (h : c ∉ [';', '&', '|']) :
    ¬rest.head?.any (· ∈ [';', '&', '|']) = true := by
  rw [hr]
  simpa using h

theorem checkArgs_blank {option : CString} {n : Nat} (ho : option ∈ removedOptions)
    (hf : optionFound before (option ++ rest) option) :
    host.checkArgs (n + 1) before (option ++ rest) =
      host.checkArgs n (' ' :: before) (List.replicate (option.length - 1) ' ' ++ rest) := by
  simp only [removedOptions, List.mem_cons, List.not_mem_nil, or_false] at ho
  rw [ServerHost.checkArgs]
  rcases ho with ho | ho | ho | ho
  all_goals
    subst ho
    rw [if_neg (not_refused_of_head rfl (by decide))]
    dsimp only
  · rw [if_neg fun h => h.right <| .inl hf, if_pos <| .inl hf]
    rfl
  · rw [if_neg fun h => h.right <| .inr <| .inl hf, if_pos <| .inr hf]
    rfl
  · rw [if_neg fun h => h.right <| .inr <| .inr <| .inl hf, if_neg (by rintro (h | h) <;> nomatch h), if_pos hf]
    rfl
  · rw [if_neg fun h => h.right <| .inr <| .inr <| .inr hf, if_neg (by rintro (h | h) <;> nomatch h),
      if_neg (by nofun), if_pos hf]
    rfl

theorem checkArgs_keep {c : Char} {n : Nat} (hn : ∀ option ∈ removedOptions, ¬optionFound before (c :: rest) option)
    (hc : c ∉ [';', '&', '|']) :
    host.checkArgs (n + 1) before (c :: rest) =
      if optionFound before (c :: rest) "--define".toList ∨ optionFound before (c :: rest) "-D".toList then do
        if ¬(← host.authorizeRoles (c :: rest)) then
          host.sendNotAuthorized
          return none
        host.checkArgs n (c :: before) rest
      else
        host.checkArgs n (c :: before) rest := by
  have hK := hn _ (.head _)
  have hf := hn _ (.tail _ <| .head _)
  have hl := hn _ (.tail _ <| .tail _ <| .head _)
  have hfile := hn _ (.tail _ <| .tail _ <| .tail _ <| .head _)
  rw [ServerHost.checkArgs, if_neg (not_refused_of_head rfl hc)]
  simp only [hK, hf, hl, hfile, or_self, not_false_eq_true, and_true, if_false, Bool.false_eq_true]
  rfl

theorem checkArgs_blanks (k n : Nat) :
    host.checkArgs (k + n) before (List.replicate k ' ' ++ rest) =
      host.checkArgs n (List.replicate k ' ' ++ before) rest := by
  induction k generalizing before
  case zero      => rw [Nat.zero_add]; rfl
  case succ k ih =>
    have hnot {word : CString} (hw : word.head? = some '-') {rest : CString} :
        ¬optionFound before (' ' :: rest) word := not_optionFound_of_head hw (by decide)
    rw [List.replicate_succ, List.cons_append, Nat.add_right_comm,
      checkArgs_keep (fun _ ho => hnot <| removedOptions_head ho) (by decide), if_neg, ih]
    case hnc => exact fun h => h.elim (hnot rfl) (hnot rfl)
    rw [← List.replicate_succ, List.replicate_succ', List.append_assoc]
    rfl

theorem ensures_refusal :
    (show Serving (Option CString) from do
      host.sendNotAuthorized
      return none).Ensures s t fun r _ _ => ∀ args, r ≠ some (some args) := by
  apply Traced.Ensures.bind (Q := fun _ _ _ => True) trivial
  · exact fun _ _ _ _ => nofun
  · exact fun _ _ _ => nofun

theorem allowed_cons {conn : ServerConnectionState} {exempt : Bool} {asked : CString} :
    Allowed text (.decision (.authorizeRoles asked) conn exempt true :: t) ↔ Allowed text t ∨ text = asked := by
  simp only [Allowed, List.mem_cons, Event.decision.injEq, AccessDecision.authorizeRoles.injEq]
  constructor
  case mp  =>
    intro ⟨conn, exempt, h⟩
    cases h
    case inl h => exact .inr h.left
    case inr h => exact .inl ⟨conn, exempt, h⟩
  case mpr =>
    intro h
    cases h
    case inl h =>
      have ⟨conn, exempt, h⟩ := h
      exact ⟨conn, exempt, .inr h⟩
    case inr h => exact ⟨conn, exempt, .inl ⟨h, rfl, rfl, trivial⟩⟩

-- What the loop leaves of arguments that are not refused.
theorem checkArgs_examined :
    (host.checkArgs rest.length before rest).Ensures s t fun r _ t' => ∀ args, r = some (some args) →
      ∃ out calls, args = before.reverse ++ out ∧ Examined before rest out calls ∧
        ∀ text, Allowed text t' ↔ Allowed text t ∨ text ∈ calls := by
  generalize hl : rest.length = n
  induction n using Nat.strongRecOn generalizing before rest s t
  case ind n ih =>
    cases rest
    case nil         =>
      subst hl
      rw [List.length_nil, ServerHost.checkArgs, Traced.ensures_pure]
      intro args he
      cases he
      exact ⟨[], [], rfl, .nil, fun text => by simp⟩
    case cons c rest =>
      subst hl
      by_cases hopt : ∃ option ∈ removedOptions, optionFound before (c :: rest) option
      case pos =>
        have ⟨option, ho, hf⟩ := hopt
        have ⟨rest', he⟩ := optionFound_prefix hf
        have hpos : option.length = option.length - 1 + 1 := by
          cases option
          case nil       => exact absurd ho (by decide)
          case cons d ds => rfl
        have hlen : (c :: rest).length = option.length - 1 + rest'.length + 1 := by
          rw [← he, List.length_append]
          omega
        have hblanks : List.replicate (option.length - 1) ' ' ++ ' ' :: before =
            List.replicate option.length ' ' ++ before := by
          nth_rewrite 2 [hpos]
          rw [List.replicate_succ', List.append_assoc]
          rfl
        rw [hlen, ← he, checkArgs_blank ho (he ▸ hf), checkArgs_blanks, hblanks]
        apply (ih rest'.length (by omega) rfl).imp
        intro r s' t' h args hr
        have ⟨out, calls, hargs, hexamined, hallowed⟩ := h args hr
        refine ⟨List.replicate option.length ' ' ++ out, calls, ?_, .blank ho (he ▸ hf) rfl rfl hexamined, hallowed⟩
        simpa using hargs
      case neg =>
        have hn : ∀ option ∈ removedOptions, ¬optionFound before (c :: rest) option := by
          intro option ho hf
          exact hopt ⟨option, ho, hf⟩
        by_cases hc : c ∈ [';', '&', '|']
        case pos =>
          have hrefused : (c :: rest).head?.any (· ∈ [';', '&', '|']) = true := by simpa using hc
          rw [List.length_cons, ServerHost.checkArgs, if_pos hrefused]
          exact ensures_refusal.imp fun r _ _ h args hr => absurd hr <| h args
        case neg =>
          rw [List.length_cons, checkArgs_keep hn hc, Traced.ensures_ite]
          constructor
          case left  =>
            intro hd
            rw [Traced.ensures_bind, ServerHost.ensures_authorizeRoles, Traced.then_some, Traced.ensures_ite]
            constructor
            case left  => exact fun _ => ensures_refusal.imp fun r _ _ h args hr => absurd hr <| h args
            case right =>
              intro hgranted
              rw [Decidable.not_not.mp hgranted]
              apply (ih rest.length (by simp) rfl).imp
              intro r s' t' h args hr
              have ⟨out, calls, hargs, hexamined, hallowed⟩ := h args hr
              refine ⟨c :: out, (c :: rest) :: calls, ?_, .keep hn hc (fun _ => rfl) (absurd hd) hexamined, ?_⟩
              · simpa using hargs
              · intro text
                rw [hallowed, allowed_cons, List.mem_cons, or_assoc]
          case right =>
            intro hd
            apply (ih rest.length (by simp) rfl).imp
            intro r s' t' h args hr
            have ⟨out, calls, hargs, hexamined, hallowed⟩ := h args hr
            refine ⟨c :: out, calls, ?_, .keep hn hc (fun h => absurd h hd) (fun _ => rfl) hexamined, hallowed⟩
            simpa using hargs

-- A word may start after the text.
def Edge (before : CString) : Prop :=
  before = [] ∨ before.head? = some ' '

-- A word may start after the part of the arguments, when the options in it have been removed.
def Parted (before part : CString) : Prop :=
  part = [] ∧ Edge before ∨ part ≠ [] ∧ (part.getLast? = some ' ' ∨ ['-', 'K'] <:+ part ∨ ['-', 'f'] <:+ part ∨
    before = [] ∧ (part = "--no-lock".toList ∨ part = "--file".toList))

theorem suffix_append_iff {x y : Char} {l r : CString} (hr : r ≠ []) (hl : l.getLast? ≠ some x) :
    [x, y] <:+ l ++ r ↔ [x, y] <:+ r := by
  constructor
  case mp  =>
    intro ⟨pre, h⟩
    by_cases hle : 2 ≤ r.length
    case pos => exact List.suffix_of_suffix_length_le ⟨pre, h⟩ (List.suffix_append ..) hle
    case neg =>
      have hone : ∃ z, r = [z] := List.length_eq_one_iff.mp <| by
        have := List.length_pos_iff.mpr hr
        omega
      have ⟨z, hz⟩ := hone
      subst hz
      rw [← List.singleton_append, ← List.append_assoc] at h
      have ⟨h, _⟩ := List.append_inj' h rfl
      exact absurd (by rw [← h]; simp) hl
  case mpr => exact fun h => h.trans <| List.suffix_append ..

theorem removedOptions_last {option : CString} (h : option ∈ removedOptions) : option.getLast? ≠ some '-' := by
  revert option
  decide

theorem removedOptions_ne_nil {option : CString} (h : option ∈ removedOptions) : option ≠ [] :=
  fun he => nomatch he ▸ removedOptions_head h

theorem edge_blank {option : CString} (ho : option ∈ removedOptions) :
    Edge (List.replicate option.length ' ' ++ before) := by
  cases option
  case nil       => exact absurd rfl <| removedOptions_ne_nil ho
  case cons c cs => exact .inr rfl

-- A word may start after an option that is removed, unless it is followed by a blank or by nothing.
theorem parted_option {option : CString} (ho : option ∈ removedOptions)
    (hf : optionFound before (option ++ rest) option) (hh : rest.head? = some '-') : Parted before option := by
  have hbefore (hl : option.length ≠ 2) : before = [] := by
    by_contra hb
    have hnext := ((of_decide_eq_true hf).right.resolve_left hl |>.resolve_left hb).right
    rw [List.getElem?_append_right <| Nat.le_refl _, Nat.sub_self, ← List.head?_eq_getElem?, hh] at hnext
    exact absurd hnext (by decide)
  refine .inr ⟨removedOptions_ne_nil ho, ?_⟩
  simp only [removedOptions, List.mem_cons, List.not_mem_nil, or_false] at ho
  rcases ho with ho | ho | ho | ho <;> subst ho
  · exact .inr <| .inl <| List.suffix_refl _
  · exact .inr <| .inr <| .inl <| List.suffix_refl _
  · exact .inr <| .inr <| .inr ⟨hbefore (by decide), .inl rfl⟩
  · exact .inr <| .inr <| .inr ⟨hbefore (by decide), .inr rfl⟩

theorem not_long_option {option part : CString} (ho : option ∈ removedOptions) (hp : part ≠ []) :
    option ++ part ≠ "--no-lock".toList ∧ option ++ part ≠ "--file".toList := by
  simp only [removedOptions, List.mem_cons, List.not_mem_nil, or_false] at ho
  rcases ho with ho | ho | ho | ho <;> subst ho <;> simp [hp]

theorem parted_blank {option part : CString} (ho : option ∈ removedOptions)
    (hf : optionFound before (option ++ (part ++ rest)) option) (hh : rest.head? = some '-') :
    Parted (List.replicate option.length ' ' ++ before) part ↔ Parted before (option ++ part) := by
  by_cases hp : part = []
  case pos =>
    subst hp
    rw [List.append_nil]
    exact iff_of_true (.inl ⟨rfl, edge_blank ho⟩) <| parted_option ho hf hh
  case neg =>
    have hl := removedOptions_last ho
    have hlast : (option ++ part).getLast? = part.getLast? := by
      rw [List.getLast?_append_of_ne_nil _ hp]
    have hlong := not_long_option ho hp
    have hblank : List.replicate option.length ' ' ++ before ≠ [] := by simp [removedOptions_ne_nil ho]
    simp only [Parted, hp, List.append_eq_nil_iff, and_false, false_and, false_or, not_false_eq_true, true_and, hlast,
      suffix_append_iff hp hl, hlong, hblank, ne_eq, or_self]

theorem parted_keep {part : CString} {c : Char} (hn : ∀ option ∈ removedOptions, ¬optionFound before (c :: (part ++ rest)) option) :
    Parted (c :: before) part ↔ Parted before (c :: part) := by
  by_cases hp : part = []
  case pos =>
    subst hp
    simp [Parted, Edge, List.suffix_cons_iff]
  case neg =>
    have hsuffix {x : Char} (hx : ['-', x] ∈ removedOptions) : ['-', x] <:+ c :: part ↔ ['-', x] <:+ part := by
      constructor
      case mp  =>
        intro h
        cases List.suffix_cons_iff.mp h
        case inl he =>
          obtain ⟨rfl, rfl⟩ := List.cons.inj he
          exact absurd (by simp [optionFound]) <| hn _ hx
        case inr h  => exact h
      case mpr => exact fun h => h.trans <| List.suffix_cons ..
    have hlong {option : CString} (ho : option ∈ removedOptions) : ¬(before = [] ∧ c :: part = option) := by
      intro ⟨hb, he⟩
      apply hn option ho
      rw [← List.cons_append, he]
      simp [optionFound, hb]
    have hlast : (c :: part).getLast? = part.getLast? := by
      rw [List.getLast?_cons_of_ne_nil hp]
    have hlock := @hlong "--no-lock".toList (by decide)
    have hfile := @hlong "--file".toList (by decide)
    simp only [Parted, hp, false_and, false_or, ne_eq, not_false_eq_true, true_and, hlast, hsuffix (x := 'K') (by decide),
      hsuffix (x := 'f') (by decide), reduceCtorEq, and_or_left, hlock, hfile, or_self, or_false]

theorem Examined.length_eq (h : Examined before rest out calls) : out.length = rest.length := by
  induction h
  case nil => rfl
  case blank hr hb _ ih => rw [hr, hb, List.length_append, List.length_append, List.length_replicate, ih]
  case keep ih => rw [List.length_cons, List.length_cons, ih]

theorem Examined.calls_length_le (h : Examined before rest out calls) : ∀ text ∈ calls, text.length ≤ rest.length := by
  induction h
  case nil => nofun
  case blank hr _ _ ih =>
    intro text ht
    rw [hr, List.length_append]
    exact (ih text ht).trans <| Nat.le_add_left ..
  case keep before rest out c calls calls' hn hc hd hd' _ ih =>
    intro text ht
    by_cases h : definesFound before (c :: rest)
    case pos =>
      rw [hd h] at ht
      cases ht
      case head      => exact Nat.le_refl _
      case tail _ ht => exact (ih text ht).trans <| Nat.le_succ _
    case neg => exact (ih text <| hd' h ▸ ht).trans <| Nat.le_succ _

-- The loop from a position in the middle on, with the calls that are still to come.
structure ExaminedAt (before rest out : CString) (calls : List CString) (n : Nat) : Prop where
  examined : ∃ calls', Examined ((out.take n).reverse ++ before) (rest.drop n) (out.drop n) calls' ∧
    ∀ text, text.length ≤ (rest.drop n).length → (text ∈ calls ↔ text ∈ calls')
  edge     : (rest.drop n).head? = some '-' → (Edge ((out.take n).reverse ++ before) ↔ Parted before (rest.take n))

-- The position is in the middle of an option that is removed.
structure Blanked (rest out : CString) (n : Nat) : Prop where
  blank : (out.drop n).head? = some ' '
  long  : ¬['-', '-'] <+: rest.drop n
  short : ¬['-', 'D'] <+: rest.drop n

theorem Examined.at_zero (h : Examined before rest out calls) : ExaminedAt before rest out calls 0 :=
  ⟨⟨calls, h, fun _ _ => Iff.rfl⟩, fun _ => by simp [Parted]⟩

theorem blanked_option {option : CString} {n : Nat} (ho : option ∈ removedOptions) (hn : n ≠ 0) (hl : n < option.length) :
    Blanked (option ++ rest) (List.replicate option.length ' ' ++ out) n := by
  constructor
  case blank =>
    rw [List.drop_append_of_le_length (by simpa using Nat.le_of_lt hl), List.drop_replicate]
    cases hk : option.length - n
    case zero   => omega
    case succ k => rfl
  all_goals
    simp only [removedOptions, List.mem_cons, List.not_mem_nil, or_false] at ho
    rcases ho with ho | ho | ho | ho <;> subst ho <;> simp at hl <;> interval_cases n <;> simp at *

theorem Examined.position (h : Examined before rest out calls) (n : Nat) :
    ExaminedAt before rest out calls n ∨ Blanked rest out n := by
  induction h generalizing n
  case nil => exact .inl ⟨⟨[], by simp [Examined.nil], by simp⟩, by simp⟩
  case blank before rest rest' out out' option calls ho hf hr hb h ih =>
    by_cases hn : n = 0
    case pos =>
      subst hn
      exact .inl (Examined.blank ho hf hr hb h).at_zero
    case neg =>
      subst hr hb
      by_cases hl : n < option.length
      case pos => exact .inr <| blanked_option ho hn hl
      case neg =>
        obtain ⟨m, rfl⟩ := Nat.exists_eq_add_of_le <| Nat.not_lt.mp hl
        have hblanks : (List.replicate option.length ' ').length = option.length := List.length_replicate
        have hrest : (option ++ rest').drop (option.length + m) = rest'.drop m := List.drop_length_add_append ..
        have hout : (List.replicate option.length ' ' ++ out').drop (option.length + m) = out'.drop m := by
          rw [List.drop_append, List.drop_eq_nil_of_le (by omega), hblanks, Nat.add_sub_cancel_left, List.nil_append]
        have hbefore : ((List.replicate option.length ' ' ++ out').take (option.length + m)).reverse ++ before =
            (out'.take m).reverse ++ (List.replicate option.length ' ' ++ before) := by
          rw [List.take_append, List.take_of_length_le (by omega), hblanks, Nat.add_sub_cancel_left,
            List.reverse_append, List.reverse_replicate, List.append_assoc]
        cases ih m
        case inr h => exact .inr ⟨hout ▸ h.blank, hrest ▸ h.long, hrest ▸ h.short⟩
        case inl h =>
          refine .inl ⟨?_, ?_⟩
          · rw [hbefore, hrest, hout]
            exact h.examined
          · intro hh
            rw [hrest] at hh
            rw [hbefore, h.edge hh, List.take_length_add_append]
            apply parted_blank ho _ hh
            rwa [List.take_append_drop]
  case keep before rest out c calls calls' hn hc hd hd' h ih =>
    cases n
    case zero   => exact .inl (Examined.keep hn hc hd hd' h).at_zero
    case succ m =>
      have hbefore : ((c :: out).take (m + 1)).reverse ++ before = (out.take m).reverse ++ (c :: before) := by simp
      cases ih m
      case inr h => exact .inr ⟨h.blank, h.long, h.short⟩
      case inl hm =>
        refine .inl ⟨?_, ?_⟩
        · have ⟨calls'', hex, hcalls⟩ := hm.examined
          refine ⟨calls'', hbefore ▸ hex, fun text hl => ?_⟩
          rw [List.drop_succ_cons] at hl
          rw [← hcalls text hl]
          by_cases hf : definesFound before (c :: rest)
          case neg => rw [hd' hf]
          case pos =>
            have hne : text ≠ c :: rest := by
              intro he
              rw [he, List.length_cons, List.length_drop] at hl
              omega
            rw [hd hf, List.mem_cons, or_iff_right hne]
        · intro hh
          rw [hbefore, hm.edge hh]
          exact @parted_keep _ (rest.drop m) _ _ (by rwa [List.take_append_drop])

-- No option of one letter that is removed is in the text.
structure Kept (text : CString) : Prop where
  lock : ¬['-', 'K'] <:+: text
  file : ¬['-', 'f'] <:+: text

theorem Examined.of_out {c : Char} (h : Examined before rest (c :: out) calls) (hc : c ≠ ' ') :
    ∃ rest' calls', rest = c :: rest' ∧ (∀ option ∈ removedOptions, ¬optionFound before rest option) ∧
      c ∉ [';', '&', '|'] ∧ (definesFound before rest → calls = rest :: calls') ∧
      (¬definesFound before rest → calls = calls') ∧ Examined (c :: before) rest' out calls' := by
  cases h with
  | @blank _ _ _ _ _ option _ ho _ _ hb _ =>
    cases option
    case nil       => exact absurd rfl <| removedOptions_ne_nil ho
    case cons d ds => exact absurd (List.cons.inj hb).left hc
  | keep hn hbad hd hd' h => exact ⟨_, _, rfl, hn, hbad, hd, hd', h⟩

theorem Examined.of_out_append {word : CString} (h : Examined before rest (word ++ out) calls) (hw : ∀ c ∈ word, c ≠ ' ') :
    ∃ rest' calls', rest = word ++ rest' ∧ Examined (word.reverse ++ before) rest' out calls' := by
  induction word generalizing before rest calls
  case nil            => exact ⟨rest, calls, rfl, h⟩
  case cons c word ih =>
    have ⟨hc, hw⟩ := List.forall_mem_cons.mp hw
    have ⟨rest₁, calls₁, he₁, _, _, _, _, h⟩ := h.of_out hc
    have ⟨rest₂, calls₂, he₂, h⟩ := ih h hw
    refine ⟨rest₂, calls₂, by rw [he₁, he₂]; rfl, ?_⟩
    simpa using h

theorem Examined.keep_cons {c : Char} (h : Examined before (c :: rest) out calls)
    (hn : ∀ option ∈ removedOptions, ¬optionFound before (c :: rest) option) :
    ∃ out' calls', out = c :: out' ∧ Examined (c :: before) rest out' calls' := by
  cases h with
  | blank ho hf _ _ _ => exact absurd hf <| hn _ ho
  | keep _ _ _ _ h    => exact ⟨_, _, rfl, h⟩

theorem Examined.keep_blanks {k : Nat} (h : Examined before (List.replicate k ' ' ++ rest) out calls) :
    ∃ out' calls', out = List.replicate k ' ' ++ out' ∧ Examined (List.replicate k ' ' ++ before) rest out' calls' := by
  induction k generalizing before out calls
  case zero      => exact ⟨out, calls, rfl, h⟩
  case succ k ih =>
    have ⟨out₁, calls₁, he₁, h⟩ := h.keep_cons fun _ ho =>
      not_optionFound_of_head (removedOptions_head ho) (by decide)
    have ⟨out₂, calls₂, he₂, h⟩ := ih h
    refine ⟨out₂, calls₂, by rw [he₁, he₂]; rfl, ?_⟩
    rw [List.replicate_succ', List.append_assoc]
    exact h

theorem optionFound_long {option : CString} (hl : option.length ≠ 2) (h : optionFound before rest option = true) :
    before = [] ∨ before.head? = some ' ' ∧ (rest[option.length]?).all (· = ' ') :=
  (of_decide_eq_true h).right.resolve_left hl

theorem removedOptions_short {option : CString} (ho : option ∈ removedOptions) (hl : option.length = 2) :
    option = ['-', 'K'] ∨ option = ['-', 'f'] := by
  revert option
  decide

-- A word without the short options is kept as it is.
theorem Examined.keep_word {word : CString} (h : Examined before (word ++ rest) out calls) (hw : ∀ c ∈ word, c ≠ ' ')
    (hk : Kept (word ++ rest.take 1))
    (hl : ∀ option ∈ removedOptions, option.length ≠ 2 → ¬optionFound before (word ++ rest) option) :
    ∃ out' calls', out = word ++ out' ∧ Examined (word.reverse ++ before) rest out' calls' := by
  induction word generalizing before out calls
  case nil            => exact ⟨out, calls, rfl, h⟩
  case cons c word ih =>
    have ⟨hc, hw⟩ := List.forall_mem_cons.mp hw
    have hprefix {x : Char} (hx : ['-', x] <+: c :: word ++ rest) : ['-', x] <:+: c :: word ++ rest.take 1 := by
      have htake : c :: word ++ rest.take 1 <+: c :: word ++ rest :=
        (List.prefix_append_right_inj _).mpr <| List.take_prefix ..
      have hcut := List.prefix_of_prefix_length_le hx htake
      by_cases hr : 2 ≤ (c :: word ++ rest.take 1).length
      case pos => exact (hcut hr).isInfix
      case neg =>
        have hlen := hx.length_le
        simp only [List.length_append, List.length_cons, List.length_take, List.length_nil] at hr hlen
        omega
    have hn : ∀ option ∈ removedOptions, ¬optionFound before (c :: word ++ rest) option := by
      intro option ho hf
      by_cases hlen : option.length = 2
      case neg => exact hl option ho hlen hf
      case pos =>
        have hp := optionFound_prefix hf
        cases removedOptions_short ho hlen
        case inl he => exact hk.lock <| hprefix <| he ▸ hp
        case inr he => exact hk.file <| hprefix <| he ▸ hp
    have ⟨out₁, calls₁, he₁, h⟩ := h.keep_cons hn
    have htail : word ++ rest.take 1 <:+: c :: word ++ rest.take 1 := (List.suffix_cons ..).isInfix
    have hk : Kept (word ++ rest.take 1) := ⟨fun hi => hk.lock <| hi.trans htail, fun hi => hk.file <| hi.trans htail⟩
    have ⟨out₂, calls₂, he₂, h⟩ := ih h hw hk fun option _ hlen hf => by
      cases optionFound_long hlen hf
      case inl hb => nomatch hb
      case inr hb => exact hc <| Option.some.inj hb.left
    refine ⟨out₂, calls₂, by rw [he₁, he₂]; rfl, ?_⟩
    simpa using h

-- The position of a part of what is left that does not start with a blank.
theorem Examined.split {pre : CString} {c : Char} (h : Examined before rest (pre ++ c :: out) calls) (hc : c ≠ ' ') :
    ∃ pre' rest' calls', rest = pre' ++ rest' ∧ pre'.length = pre.length ∧
      Examined (pre.reverse ++ before) rest' (c :: out) calls' ∧
      (∀ text, text.length ≤ rest'.length → (text ∈ calls ↔ text ∈ calls')) ∧
      (c = '-' → (Edge (pre.reverse ++ before) ↔ Parted before pre')) := by
  have hlen := h.length_eq
  cases h.position pre.length
  case inr hb =>
    have hblank := hb.blank
    rw [List.drop_left] at hblank
    exact absurd (Option.some.inj hblank) hc
  case inl hp =>
    have ⟨calls', hex, hcalls⟩ := hp.examined
    have hedge := hp.edge
    rw [List.take_left, List.drop_left] at hex
    rw [List.take_left] at hedge
    refine ⟨rest.take pre.length, rest.drop pre.length, calls', (List.take_append_drop ..).symm, ?_, hex, hcalls, ?_⟩
    · rw [List.length_take, ← hlen, List.length_append]
      omega
    · intro he
      have ⟨rest', _, hr, _⟩ := hex.of_out hc
      exact hedge <| by rw [hr, he]; rfl

theorem Examined.kept (h : Examined before rest out calls) : Kept out := by
  have hshort {x : Char} (hx : x ≠ ' ') (ho : ['-', x] ∈ removedOptions) : ¬['-', x] <:+: out := by
    intro ⟨pre, post, he⟩
    rw [← he, List.append_assoc] at h
    have ⟨_, _, _, _, _, h, _⟩ := h.split (by decide)
    have ⟨rest₁, _, hr₁, hn, _, _, _, h⟩ := h.of_out (by decide)
    have ⟨rest₂, _, hr₂, _⟩ := h.of_out hx
    apply hn _ ho
    rw [hr₁, hr₂]
    simp [optionFound]
  exact ⟨hshort (by decide) (by decide), hshort (by decide) (by decide)⟩

theorem Examined.not_refused (h : Examined before rest out calls) : ∀ c ∈ out, c ∉ [';', '&', '|'] := by
  intro c hm
  by_cases hc : c = ' '
  case pos => exact hc ▸ by decide
  case neg =>
    have ⟨pre, post, he⟩ := List.append_of_mem hm
    rw [he] at h
    have ⟨_, _, _, _, _, h, _⟩ := h.split hc
    have ⟨_, _, _, _, hbad, _⟩ := h.of_out hc
    exact hbad

end CfEngine
