import CfEngine.CfServerd.Exec.Options

namespace CfEngine

def firstWord (text : CString) : CString :=
  text.takeWhile (· ≠ ' ')

-- The word of an option with its list of classes, which is the next word for an option that stands alone.
def classArgument (text : CString) : CString × CString :=
  let word := firstWord text
  (word, if word = "--define".toList ∨ word = "-D".toList then
    firstWord <| (text.drop word.length).dropWhile (· = ' ')
  else
    [])

-- The rest of the text starts with a word.
def WordAt (text pre rest : CString) : Prop :=
  text = pre ++ rest ∧ (pre = [] ∨ pre.getLast? = some ' ')

def DefinesClasses (word : CString) : Prop :=
  word = "--define".toList ∨ "--define=".toList <+: word ∨ "-D".toList <+: word

-- The arguments do not get around the checks. A text for which classes have been allowed is the one of an option if
-- it reaches from there to the end of the arguments, and the list of classes has not been changed in it.
structure SafeArgs (allowed : CString → Prop) (args : CString) : Prop where
  chars   : ∀ c ∈ args, c ∉ [';', '&', '|']
  short   : ∀ pre rest, WordAt args pre rest → ¬['-', 'K'] <+: firstWord rest ∧ ¬['-', 'f'] <+: firstWord rest
  locks   : ∀ pre rest, WordAt args pre rest → firstWord rest ≠ "--no-lock".toList
  files   : ∀ pre rest, WordAt args pre rest → firstWord rest ≠ "--file".toList ∧ ¬"--file=".toList <+: firstWord rest
  classes : ∀ pre rest, WordAt args pre rest → DefinesClasses (firstWord rest) →
    ∃ text, allowed text ∧ text.length = rest.length ∧ classArgument text = classArgument rest

-- The text starts with an option that asks for classes, or will when the options in it have been removed.
def AsksClasses (text : CString) : Prop :=
  "-D".toList <+: text ∨ ∃ tail, text = "--define".toList ++ tail ∧
    (tail = [] ∨ tail.head? = some ' ' ∨ tail.head? = some '=' ∨ ['-', 'K'] <+: tail ∨ ['-', 'f'] <+: tail)

-- No option comes into being by the removal of another one, none has a list of classes after `=`, except at the
-- start, and nothing is removed from the lists of classes.
structure Separated (args : CString) : Prop where
  locks    : ∀ pre rest, args = pre ++ rest → pre ≠ [] → Parted [] pre →
    ¬"--no-lock-K".toList <+: rest ∧ ¬"--no-lock-f".toList <+: rest
  assigned : ∀ pre rest, args = pre ++ rest → pre ≠ [] → Parted [] pre → ¬"--define=".toList <+: rest
  classes  : ∀ pre rest, args = pre ++ rest → Parted [] pre → AsksClasses rest →
    Kept (classArgument rest).1 ∧ Kept (classArgument rest).2 ∧ (classArgument rest).2 ≠ "--no-lock".toList

variable {before rest out args pre word tail text : CString} {calls : List CString}

theorem firstWord_append (hw : ∀ c ∈ word, c ≠ ' ') (ht : tail = [] ∨ tail.head? = some ' ') :
    firstWord (word ++ tail) = word := by
  rw [firstWord, List.takeWhile_append_of_pos fun c hc => by simpa using hw c hc]
  cases ht
  case inl h => rw [h, List.takeWhile_nil, List.append_nil]
  case inr h =>
    cases tail
    case nil         => nomatch h
    case cons c tail =>
      rw [List.takeWhile_cons_of_neg (by simpa using h), List.append_nil]

theorem mem_firstWord {c : Char} (h : c ∈ firstWord text) : c ≠ ' ' := by
  simpa using List.mem_takeWhile_imp h

theorem firstWord_split (text : CString) :
    ∃ tail, text = firstWord text ++ tail ∧ text.drop (firstWord text).length = tail ∧ (tail = [] ∨ tail.head? = some ' ') := by
  have hsplit : text = firstWord text ++ text.dropWhile (· ≠ ' ') := List.takeWhile_append_dropWhile.symm
  refine ⟨text.dropWhile (· ≠ ' '), hsplit, ?_, ?_⟩
  · conv => lhs; arg 2; rw [hsplit]
    exact List.drop_left
  · cases h : text.dropWhile (· ≠ ' ')
    case nil => exact .inl rfl
    case cons c tail =>
      have hc := List.head_dropWhile_not (fun c => decide (c ≠ ' ')) (l := text) (by rw [h]; nofun)
      simp only [h, List.head_cons] at hc
      exact .inr <| by simpa using hc

theorem firstWord_infix : firstWord text <:+: text :=
  (List.takeWhile_prefix _).isInfix

theorem Kept.mono (h : Kept text) (hi : word <:+: text) : Kept word :=
  ⟨fun hk => h.lock <| hk.trans hi, fun hf => h.file <| hf.trans hi⟩

-- The position in the arguments of a word that is left of them.
theorem Examined.wordAt (h : Examined [] args out calls) (hw : WordAt out pre ('-' :: rest)) :
    ∃ part rest' calls', args = part ++ rest' ∧ (part = [] ↔ pre = []) ∧ Parted [] part ∧
      Examined pre.reverse rest' ('-' :: rest) calls' ∧
      ∀ text, text.length ≤ rest'.length → (text ∈ calls ↔ text ∈ calls') := by
  rw [hw.left] at h
  have ⟨part, rest', calls', he, hlen, hex, hcalls, hedge⟩ := h.split (by decide)
  rw [List.append_nil] at hex hedge
  refine ⟨part, rest', calls', he, ?_, (hedge rfl).mp ?_, hex, hcalls⟩
  · rw [← List.length_eq_zero_iff, hlen, List.length_eq_zero_iff]
  · cases hw.right
    case inl hn => exact .inl <| by rw [hn]; rfl
    case inr hl => exact .inr <| by rw [List.head?_reverse]; exact hl

-- What is left at a position of the arguments at which a word starts.
theorem Examined.partAt (h : Examined [] args out calls) {part : CString} (he : args = part ++ rest)
    (hp : Parted [] part) (hr : ['-', '-'] <+: rest ∨ ['-', 'D'] <+: rest) :
    ∃ pre out' calls', WordAt out pre out' ∧ (part = [] ↔ pre = []) ∧ Examined pre.reverse rest out' calls' ∧
      ∀ text, text.length ≤ rest.length → (text ∈ calls ↔ text ∈ calls') := by
  have hlen := h.length_eq
  rw [he, List.length_append] at hlen
  cases h.position part.length
  case inr hb =>
    rw [he] at hb
    cases hr
    case inl hr => exact absurd hr <| by simpa using hb.long
    case inr hr => exact absurd hr <| by simpa using hb.short
  case inl hat =>
    have ⟨calls', hex, hcalls⟩ := hat.examined
    have hedge := hat.edge
    rw [he, List.drop_left, List.append_nil] at hex hedge
    rw [he, List.drop_left] at hcalls
    rw [List.take_left] at hedge
    have hhead : rest.head? = some '-' := by
      rcases hr with ⟨tail, ht⟩ | ⟨tail, ht⟩ <;> rw [← ht] <;> rfl
    refine ⟨out.take part.length, out.drop part.length, calls', ⟨(List.take_append_drop ..).symm, ?_⟩, ?_, hex, hcalls⟩
    · cases (hedge hhead).mpr hp
      case inl hn => exact .inl <| List.reverse_eq_nil_iff.mp hn
      case inr hl => exact .inr <| by rw [← List.head?_reverse]; exact hl
    · rw [← List.length_eq_zero_iff, ← @List.length_eq_zero_iff _ (out.take _), List.length_take]
      have hpos : rest ≠ [] := fun hn => by rw [hn] at hhead; nomatch hhead
      have := List.length_pos_iff.mpr hpos
      omega

theorem head_long_iff {l : CString} (h : l = [] ∨ l.head? = some ' ') (hl : l ≠ []) : ∃ tail, l = ' ' :: tail := by
  cases l
  case nil         => exact absurd rfl hl
  case cons c tail => exact ⟨tail, by rw [Option.some.inj (h.resolve_left hl)]⟩

-- What the arguments have where a blank is left of them after something else.
theorem Examined.of_blank {c d : Char} (h : Examined (c :: before) (d :: rest) (' ' :: out) calls) (hc : c ≠ ' ') :
    d = ' ' ∨ ['-', 'K'] <+: d :: rest ∨ ['-', 'f'] <+: d :: rest := by
  cases h with
  | keep _ _ _ _ _        => exact .inl rfl
  | blank ho hf _ _ _ =>
    rename_i option _ _ _
    by_cases hl : option.length = 2
    case pos =>
      have hp := optionFound_prefix hf
      cases removedOptions_short ho hl
      case inl he => exact .inr <| .inl <| he ▸ hp
      case inr he => exact .inr <| .inr <| he ▸ hp
    case neg =>
      cases optionFound_long hl hf
      case inl hn => nomatch hn
      case inr hb => exact absurd (Option.some.inj hb.left) hc

-- A word that ends here in what is left of the arguments.
theorem Examined.of_word {c : Char} (h : Examined before rest (word ++ (c :: tail)) calls) (hw : ∀ d ∈ word, d ≠ ' ')
    (hc : c ≠ ' ') (ht : tail = [] ∨ tail.head? = some ' ') :
    ∃ rest', rest = word ++ c :: rest' ∧
      (rest' = [] ∨ rest'.head? = some ' ' ∨ ['-', 'K'] <+: rest' ∨ ['-', 'f'] <+: rest') := by
  have ⟨rest₁, calls₁, he₁, h⟩ := h.of_out_append hw
  have ⟨rest₂, calls₂, he₂, _, _, _, _, h⟩ := h.of_out hc
  refine ⟨rest₂, by rw [he₁, he₂], ?_⟩
  have hlen := h.length_eq
  cases rest₂
  case nil         => exact .inl rfl
  case cons d rest =>
    have hne : tail ≠ [] := fun hn => by rw [hn] at hlen; nomatch hlen
    obtain ⟨tail', rfl⟩ := head_long_iff ht hne
    cases h.of_blank hc
    case inl hd => exact .inr <| .inl <| by rw [hd]; rfl
    case inr hd => exact .inr <| .inr hd

theorem noLock_toList : "--no-lock".toList = ['-', '-', 'n', 'o', '-', 'l', 'o', 'c', 'k'] := rfl

-- A lock option is only left where the removal of another option makes a word of it.
theorem Separated.no_locks (hs : Separated args) (h : Examined [] args out calls) :
    ∀ pre rest, WordAt out pre rest → firstWord rest ≠ "--no-lock".toList := by
  intro pre rest hw hword
  obtain ⟨tail, hsplit, _, htail⟩ := firstWord_split rest
  rw [hword, noLock_toList] at hsplit
  subst hsplit
  obtain ⟨part, rest', calls', he, hnil, hp, hex, _⟩ := h.wordAt hw
  obtain ⟨_, _, _, hn, _⟩ := hex.of_out (by decide)
  obtain ⟨rest₂, he₂, hnext⟩ := @Examined.of_word _ _ ['-', '-', 'n', 'o', '-', 'l', 'o', 'c'] _ _ 'k' hex (by decide) (by decide) htail
  have hlock := hn "--no-lock".toList (by decide)
  rw [he₂, noLock_toList] at hlock
  by_cases hpart : part = []
  case pos =>
    rw [hnil.mp hpart] at hlock
    exact hlock <| by simp [optionFound]
  case neg =>
    obtain ⟨hK, hf⟩ := hs.locks part rest' he hpart hp
    rw [he₂] at hK hf
    have hpre : pre.reverse.head? = some ' ' := by
      rw [List.head?_reverse]
      exact hw.right.resolve_left fun hn => hpart <| hnil.mpr hn
    rcases hnext with hr | hr | ⟨r, hr⟩ | ⟨r, hr⟩
    · exact hlock <| by simp [optionFound, hpre, hr]
    · have hget : rest₂[0]? = some ' ' := by rw [← List.head?_eq_getElem?, hr]
      exact hlock <| by simp [optionFound, hpre, hget]
    · exact hK ⟨r, by rw [← hr]; rfl⟩
    · exact hf ⟨r, by rw [← hr]; rfl⟩

theorem Kept.append_blank (h : Kept word) (ht : tail = [] ∨ tail.head? = some ' ') : Kept (word ++ tail.take 1) := by
  cases tail
  case nil         => simpa using h
  case cons c tail =>
    have hc : c = ' ' := Option.some.inj <| ht.resolve_left (by nofun)
    have hshort {x : Char} (hx : x ≠ ' ') (hi : ['-', x] <:+: word ++ [' ']) : ['-', x] <:+: word := by
      cases List.infix_concat_iff.mp hi
      case inl hs =>
        have ⟨pre, he⟩ := hs
        have hlast := congrArg List.getLast? he
        exact absurd (by simpa using hlast) hx
      case inr hi => exact hi
    exact ⟨fun hi => h.lock <| hshort (by decide) <| hc ▸ hi, fun hi => h.file <| hshort (by decide) <| hc ▸ hi⟩

theorem removedOptions_letters {option : CString} (h : option ∈ removedOptions) : ∀ c ∈ option, c ≠ ' ' := by
  revert option
  decide

theorem firstWord_of_found {option : CString} (ho : option ∈ removedOptions) (hl : option.length ≠ 2) (hb : before ≠ [])
    (h : optionFound before rest option = true) : firstWord rest = option := by
  have ⟨tail, he⟩ := optionFound_prefix h
  have hnext := (optionFound_long hl h).resolve_left hb |>.right
  rw [← he, List.getElem?_append_right (Nat.le_refl _), Nat.sub_self, ← List.head?_eq_getElem?] at hnext
  rw [← he]
  apply firstWord_append (removedOptions_letters ho)
  cases tail
  case nil         => exact .inl rfl
  case cons c tail => exact .inr <| by simpa using hnext

-- The first word is kept with the end that it has.
theorem Examined.keep_firstWord (h : Examined before rest out calls) (hk : Kept (firstWord rest))
    (hl : ∀ option ∈ removedOptions, option.length ≠ 2 → ¬optionFound before rest option) :
    ∃ rest' out' calls', rest = firstWord rest ++ rest' ∧ out = firstWord rest ++ out' ∧
      (rest' = [] ∨ rest'.head? = some ' ') ∧ (out' = [] ∨ out'.head? = some ' ') ∧
      Examined ((firstWord rest).reverse ++ before) rest' out' calls' := by
  have ⟨tail, hsplit, _, ht⟩ := firstWord_split rest
  rw [hsplit] at h hl
  have ⟨out', calls', he, hex⟩ := h.keep_word (fun _ => mem_firstWord) (hk.append_blank ht) hl
  refine ⟨tail, out', calls', hsplit, he, ht, ?_, hex⟩
  cases tail
  case nil           => exact .inl <| List.length_eq_zero_iff.mp hex.length_eq
  case cons c tail _ =>
    have hc : c = ' ' := Option.some.inj <| ht.resolve_left nofun
    subst hc
    have ⟨out₁, _, he₁, _⟩ := hex.keep_cons fun _ ho => not_optionFound_of_head (removedOptions_head ho) (by decide)
    exact .inr <| by rw [he₁]; rfl

theorem blanks_split (text : CString) : ∃ k, text = List.replicate k ' ' ++ text.dropWhile (· = ' ') := by
  refine ⟨(text.takeWhile (· = ' ')).length, ?_⟩
  have hblanks : text.takeWhile (· = ' ') = List.replicate (text.takeWhile (· = ' ')).length ' ' :=
    List.eq_replicate_length.mpr fun c hc => by simpa using List.mem_takeWhile_imp hc
  rw [← hblanks]
  exact List.takeWhile_append_dropWhile.symm

theorem dropWhile_blanks (k : Nat) : (List.replicate k ' ' ++ text).dropWhile (· = ' ') = text.dropWhile (· = ' ') :=
  List.dropWhile_append_of_pos fun c hc => by simpa using List.eq_of_mem_replicate hc

-- The word after the blanks is kept, too.
theorem Examined.keep_nextWord (h : Examined before rest out calls) (hb : before ≠ [])
    (hk : Kept (firstWord <| rest.dropWhile (· = ' ')))
    (hn : firstWord (rest.dropWhile (· = ' ')) ≠ "--no-lock".toList) :
    firstWord (out.dropWhile (· = ' ')) = firstWord (rest.dropWhile (· = ' ')) := by
  obtain ⟨k, hsplit⟩ := blanks_split rest
  rw [hsplit] at h
  obtain ⟨out₁, calls₁, he₁, h⟩ := h.keep_blanks
  have hlong : ∀ option ∈ removedOptions, option.length ≠ 2 →
      ¬optionFound (List.replicate k ' ' ++ before) (rest.dropWhile (· = ' ')) option := by
    intro option ho hl hf
    have hword := firstWord_of_found ho hl (by simp [hb]) hf
    simp only [removedOptions, List.mem_cons, List.not_mem_nil, or_false] at ho
    rcases ho with ho | ho | ho | ho
    · exact hl <| by rw [ho]; rfl
    · exact hl <| by rw [ho]; rfl
    · exact hn <| hword.trans ho
    · apply hk.file
      rw [hword, ho]
      exact ⟨['-'], "ile".toList, rfl⟩
  obtain ⟨rest₂, out₂, calls₂, hrest₂, hout₂, hr₂, ht₂, h₂⟩ := h.keep_firstWord hk hlong
  rw [he₁, dropWhile_blanks]
  cases hword : firstWord (rest.dropWhile (· = ' '))
  case nil =>
    have hnil : rest.dropWhile (· = ' ') = [] := by
      rw [hword, List.nil_append] at hrest₂
      rw [← hrest₂] at hr₂
      apply hr₂.resolve_right
      intro hh
      have hne : rest.dropWhile (· = ' ') ≠ [] := fun hn => by rw [hn] at hh; cases hh
      have hhead := List.head_dropWhile_not (fun c => decide (c = ' ')) hne
      rw [List.head?_eq_some_head hne] at hh
      simp [Option.some.inj hh] at hhead
    have hlen := h.length_eq
    rw [hnil] at hlen
    rw [List.length_eq_zero_iff.mp hlen]
    rfl
  case cons c word =>
    rw [hword] at hout₂
    have hc : c ≠ ' ' := mem_firstWord <| hword ▸ List.mem_cons_self
    have hdrop : out₁.dropWhile (· = ' ') = out₁ := by
      rw [hout₂]
      exact List.dropWhile_cons_of_neg (by simpa using hc)
    rw [hdrop, hout₂]
    exact firstWord_append (fun _ hd => mem_firstWord <| hword ▸ hd) ht₂

theorem define_toList : "--define".toList = ['-', '-', 'd', 'e', 'f', 'i', 'n', 'e'] := rfl

theorem assigned_toList : "--define=".toList = ['-', '-', 'd', 'e', 'f', 'i', 'n', 'e', '='] := rfl

-- The first letters of an option that asks for classes.
theorem AsksClasses.start (h : AsksClasses rest) :
    (∃ tail, rest = '-' :: 'D' :: tail) ∨ ∃ tail, rest = "--define".toList ++ tail := by
  cases h
  case inl h =>
    have ⟨tail, ht⟩ := h
    exact .inl ⟨tail, ht.symm⟩
  case inr h =>
    have ⟨tail, ht, _⟩ := h
    exact .inr ⟨tail, ht⟩

theorem AsksClasses.not_removed (h : AsksClasses rest) : ∀ option ∈ removedOptions, ¬optionFound before rest option := by
  intro option ho hf
  have ⟨post, hp⟩ := optionFound_prefix hf
  simp only [removedOptions, List.mem_cons, List.not_mem_nil, or_false] at ho
  rcases h.start with ⟨tail, ht⟩ | ⟨tail, ht⟩
  · rcases ho with ho | ho | ho | ho <;> subst ho <;> rw [ht] at hp <;> simp at hp
  · rw [define_toList] at ht
    rcases ho with ho | ho | ho | ho <;> subst ho <;> rw [ht] at hp <;> simp at hp

-- The list of classes of an option is kept if it is.
theorem Examined.keep_classArgument (h : Examined before rest out calls) (ha : AsksClasses rest)
    (hk : Kept (classArgument rest).1) (hk' : Kept (classArgument rest).2)
    (hn : (classArgument rest).2 ≠ "--no-lock".toList) : classArgument out = classArgument rest := by
  have ⟨rest', out', calls', hrest, hout, _, hb, hex⟩ := h.keep_firstWord hk fun option ho _ => ha.not_removed option ho
  have hword : firstWord out = firstWord rest := by
    rw [hout]
    exact firstWord_append (fun _ => mem_firstWord) hb
  have hdropOut : out.drop (firstWord rest).length = out' := by
    conv => lhs; arg 2; rw [hout]
    exact List.drop_left
  have hdropRest : rest.drop (firstWord rest).length = rest' := by
    conv => lhs; arg 2; rw [hrest]
    exact List.drop_left
  simp only [classArgument, hword, hdropOut, hdropRest] at hk' hn ⊢
  by_cases hw : firstWord rest = "--define".toList ∨ firstWord rest = "-D".toList
  case neg => rw [if_neg hw, if_neg hw]
  case pos =>
    rw [if_pos hw] at hk' hn
    rw [if_pos hw, if_pos hw]
    have hne : firstWord rest ≠ [] := by
      rcases hw with hw | hw <;> rw [hw] <;> exact (by decide)
    rw [hex.keep_nextWord (by simp [hne]) hk' hn]

theorem firstWord_prefix (h : word <+: firstWord text) : word <+: text :=
  h.trans <| List.takeWhile_prefix _

-- The arguments have an option where an option is left.
theorem Examined.asks (h : Examined before rest out calls) (hd : DefinesClasses (firstWord out)) : AsksClasses rest := by
  rcases hd with hd | hd | hd
  · have ⟨tail, hsplit, _, ht⟩ := firstWord_split out
    rw [hd, define_toList] at hsplit
    rw [hsplit] at h
    have ⟨rest', he, hnext⟩ := @Examined.of_word _ _ ['-', '-', 'd', 'e', 'f', 'i', 'n'] _ _ 'e' h (by decide) (by decide) ht
    refine .inr ⟨rest', he, ?_⟩
    rcases hnext with hr | hr | hr | hr
    · exact .inl hr
    · exact .inr <| .inl hr
    · exact .inr <| .inr <| .inr <| .inl hr
    · exact .inr <| .inr <| .inr <| .inr hr
  · have ⟨tail, ht⟩ := firstWord_prefix hd
    rw [← ht, assigned_toList] at h
    have ⟨rest', _, he, _⟩ := h.of_out_append (by decide)
    exact .inr ⟨'=' :: rest', he, .inr <| .inr <| .inl rfl⟩
  · have ⟨tail, ht⟩ := firstWord_prefix hd
    have ht : '-' :: 'D' :: tail = out := ht
    rw [← ht] at h
    have ⟨rest₁, _, he₁, _, _, _, _, h⟩ := h.of_out (by decide)
    have ⟨rest₂, _, he₂, _⟩ := h.of_out (by decide)
    exact .inl ⟨rest₂, by rw [he₁, he₂]; rfl⟩

-- The option is found by the loop, unless it has a list of classes after `=`.
theorem AsksClasses.found (ha : AsksClasses rest) (hk : Kept (firstWord rest)) (hb : Edge before)
    (hassigned : before ≠ [] → ¬"--define=".toList <+: rest) : definesFound before rest := by
  cases ha
  case inl hD =>
    obtain ⟨tail, ht⟩ := hD
    exact .inr <| by rw [← ht]; simp [optionFound]
  case inr h =>
    obtain ⟨tail, ht, hnext⟩ := h
    rw [define_toList] at ht
    have hshort {x : Char} (hx : x ≠ ' ') (hp : ['-', x] <+: tail) : ['-', x] <:+: firstWord rest := by
      obtain ⟨post, he⟩ := hp
      refine ⟨['-', '-', 'd', 'e', 'f', 'i', 'n', 'e'], firstWord post, ?_⟩
      rw [ht, ← he]
      simp [firstWord, hx]
    left
    rw [define_toList, ht]
    by_cases hn : before = []
    case pos => simp [optionFound, hn]
    case neg =>
      have hblank := hb.resolve_left hn
      rcases hnext with hr | hr | hr | hr | hr
      · simp [optionFound, hr, hblank]
      · have hget : tail[0]? = some ' ' := by rw [← List.head?_eq_getElem?, hr]
        simp [optionFound, hblank, hget]
      · obtain ⟨tail', he⟩ : ∃ tail', tail = '=' :: tail' := by
          cases tail
          case nil         => cases hr
          case cons c tail => exact ⟨tail, by rw [Option.some.inj hr]⟩
        exact absurd ⟨tail', by rw [ht, he]; rfl⟩ <| hassigned hn
      · exact absurd (hshort (by decide) hr) hk.lock
      · exact absurd (hshort (by decide) hr) hk.file

-- The loop asks for classes exactly where it finds an option for them.
theorem Examined.mem_calls_iff (h : Examined before rest out calls) (hne : rest ≠ [])
    (hn : ∀ option ∈ removedOptions, ¬optionFound before rest option) :
    (∃ text ∈ calls, text.length = rest.length) ↔ definesFound before rest := by
  cases h with
  | nil                                    => exact absurd rfl hne
  | blank ho hf _ _ _                      => exact absurd hf <| hn _ ho
  | @keep _ rest out c _ calls' _ _ hd hd' h =>
    have hshort {text : CString} (ht : text ∈ calls') : text.length ≠ (c :: rest).length := by
      have := h.calls_length_le text ht
      rw [List.length_cons]
      omega
    by_cases hf : definesFound before (c :: rest)
    case pos =>
      rw [hd hf]
      exact iff_of_true ⟨_, List.mem_cons_self, rfl⟩ hf
    case neg =>
      rw [hd' hf]
      exact iff_of_false (fun ⟨text, ht, hl⟩ => hshort ht hl) hf

theorem Examined.eq_of_mem_calls (h : Examined before rest out calls) (hne : rest ≠ [])
    (hn : ∀ option ∈ removedOptions, ¬optionFound before rest option) (ht : text ∈ calls)
    (hl : text.length = rest.length) : text = rest := by
  cases h with
  | nil                                    => exact absurd rfl hne
  | blank ho hf _ _ _                      => exact absurd hf <| hn _ ho
  | @keep _ rest out c _ calls' _ _ hd hd' h =>
    have hshort (ht : text ∈ calls') : text.length ≠ (c :: rest).length := by
      have := h.calls_length_le text ht
      rw [List.length_cons]
      omega
    by_cases hf : definesFound before (c :: rest)
    case pos =>
      rw [hd hf] at ht
      cases ht
      case head      => rfl
      case tail _ ht => exact absurd hl <| hshort ht
    case neg => exact absurd hl <| hshort <| hd' hf ▸ ht

theorem DefinesClasses.head (h : DefinesClasses (firstWord rest)) : ∃ tail, rest = '-' :: tail := by
  have ⟨tail, hsplit, _, _⟩ := firstWord_split rest
  have hhead : (firstWord rest).head? = some '-' := by
    rcases h with h | ⟨post, h⟩ | ⟨post, h⟩
    · rw [h]; rfl
    · rw [← h]; rfl
    · rw [← h]; rfl
  cases hword : firstWord rest
  case nil         => rw [hword] at hhead; nomatch hhead
  case cons c word =>
    rw [hword] at hhead hsplit
    exact ⟨word ++ tail, by rw [hsplit, Option.some.inj hhead]; rfl⟩

-- Every option that is left has been checked, with the list of classes that is left.
theorem Separated.safe_classes (hs : Separated args) (h : Examined [] args out calls) :
    ∀ pre rest, WordAt out pre rest → DefinesClasses (firstWord rest) →
      ∃ text ∈ calls, text.length = rest.length ∧ classArgument text = classArgument rest := by
  intro pre rest hw hd
  obtain ⟨tail, rfl⟩ := hd.head
  have ⟨part, rest', calls', he, hnil, hp, hex, hcalls⟩ := h.wordAt hw
  have ha := hex.asks hd
  have ⟨hk, hk', hn⟩ := hs.classes part rest' he hp ha
  have hedge : Edge pre.reverse := by
    cases hw.right
    case inl hn => exact .inl <| by rw [hn]; rfl
    case inr hl => exact .inr <| by rw [List.head?_reverse]; exact hl
  have hfound := ha.found hk hedge fun hne =>
    hs.assigned part rest' he (fun hp => hne <| by rw [hnil.mp hp]; rfl) hp
  have hne : rest' ≠ [] := fun hn => by
    have hlen := hex.length_eq
    rw [hn] at hlen
    nomatch hlen
  have ⟨text, ht, hl⟩ := (hex.mem_calls_iff hne ha.not_removed).mpr hfound
  have htext := hex.eq_of_mem_calls hne ha.not_removed ht hl
  refine ⟨text, (hcalls text <| Nat.le_of_eq hl).mpr ht, hl.trans hex.length_eq.symm, ?_⟩
  rw [htext, hex.keep_classArgument ha hk hk' hn]

theorem Separated.safeArgs (hs : Separated args) (h : Examined [] args out calls) :
    SafeArgs (· ∈ calls) out := by
  have hinfix {pre rest : CString} (hw : WordAt out pre rest) : firstWord rest <:+: out := by
    rw [hw.left]
    exact firstWord_infix.trans (List.suffix_append ..).isInfix
  constructor
  case chars   => exact h.not_refused
  case short   =>
    exact fun pre rest hw => ⟨fun hp => h.kept.lock <| hp.isInfix.trans <| hinfix hw,
      fun hp => h.kept.file <| hp.isInfix.trans <| hinfix hw⟩
  case locks   => exact hs.no_locks h
  case files   =>
    intro pre rest hw
    constructor
    case left  =>
      intro he
      have hi := hinfix hw
      rw [he] at hi
      exact h.kept.file <| .trans ⟨['-'], "ile".toList, rfl⟩ hi
    case right => exact fun hp => h.kept.file <| .trans ⟨['-'], "ile=".toList, rfl⟩ <| hp.isInfix.trans <| hinfix hw
  case classes =>
    intro pre rest hw hd
    have ⟨text, ht, hl, hc⟩ := hs.safe_classes h pre rest hw hd
    exact ⟨text, ht, hl, hc⟩

theorem Kept.append_letter (h : Kept word) (hl : word.getLast? ≠ some '-') : Kept (word ++ tail.take 1) := by
  cases tail
  case nil         => simpa using h
  case cons c tail =>
    have hshort {x : Char} (hi : ['-', x] <:+: word ++ [c]) : ['-', x] <:+: word := by
      cases List.infix_concat_iff.mp hi
      case inr hi => exact hi
      case inl hs =>
        have ⟨pre, he⟩ := hs
        have hlast := congrArg (List.getLast? ∘ List.dropLast) he
        exact absurd (by simpa [List.dropLast_append] using hlast.symm) hl
    exact ⟨fun hi => h.lock <| hshort hi, fun hi => h.file <| hshort hi⟩

theorem Examined.head_of_removed {option : CString} (h : Examined before (option ++ rest) out calls)
    (ho : option ∈ removedOptions) (hl : option.length = 2) : out.head? = some ' ' := by
  have hf : optionFound before (option ++ rest) option = true := by simp [optionFound, hl]
  cases h' : option ++ rest
  case nil         => exact absurd (List.append_eq_nil_iff.mp h').left <| removedOptions_ne_nil ho
  case cons c tail =>
    rw [h'] at h hf
    cases h with
    | keep hn _ _ _ _ => exact absurd hf <| hn _ ho
    | @blank _ _ _ _ _ option' _ ho' _ _ hb _ =>
      cases option'
      case nil       => exact absurd rfl <| removedOptions_ne_nil ho'
      case cons d ds => rw [hb]; rfl

theorem not_found_long {option : CString} (ho : option ∈ removedOptions) (hl : option.length ≠ 2) (hb : before ≠ [])
    (hw : firstWord rest ≠ option) : ¬optionFound before rest option :=
  fun hf => hw <| firstWord_of_found ho hl hb hf

-- A lock option that another option follows at once is left.
theorem Examined.locks_left {option : CString} (h : Examined before ("--no-lock".toList ++ (option ++ rest)) out calls)
    (hb : before ≠ []) (ho : option = ['-', 'K'] ∨ option = ['-', 'f']) : firstWord out = "--no-lock".toList := by
  have hremoved : option ∈ removedOptions := by
    cases ho
    case inl h => rw [h]; decide
    case inr h => rw [h]; decide
  have htake : (option ++ rest).take 1 = ['-'] := by
    cases ho
    case inl h => rw [h]; rfl
    case inr h => rw [h]; rfl
  have hlong : ∀ option' ∈ removedOptions, option'.length ≠ 2 →
      ¬optionFound before ("--no-lock".toList ++ (option ++ rest)) option' := by
    intro option' ho' hl
    apply not_found_long ho' hl hb
    rw [noLock_toList]
    simp only [removedOptions, List.mem_cons, List.not_mem_nil, or_false] at ho'
    rcases ho' with ho' | ho' | ho' | ho'
    · exact absurd (by rw [ho']; rfl) hl
    · exact absurd (by rw [ho']; rfl) hl
    · rcases ho with ho | ho <;> rw [ho, ho', noLock_toList] <;> simp [firstWord]
    · rcases ho with ho | ho <;> rw [ho, ho'] <;> simp [firstWord]
  obtain ⟨out', calls', he, hex⟩ := h.keep_word (by decide) (by rw [htake]; exact ⟨by decide, by decide⟩) hlong
  have hhead := hex.head_of_removed hremoved <| by rcases ho with ho | ho <;> rw [ho] <;> rfl
  rw [he]
  exact firstWord_append (by decide) (.inr hhead)

theorem firstWord_append_word (hw : ∀ c ∈ word, c ≠ ' ') : firstWord (word ++ text) = word ++ firstWord text :=
  List.takeWhile_append_of_pos fun c hc => by simpa using hw c hc

-- An option is left where the arguments have one.
theorem AsksClasses.left (ha : AsksClasses rest) (h : Examined before rest out calls) : DefinesClasses (firstWord out) := by
  have hlong := fun option ho (_ : option.length ≠ 2) => @AsksClasses.not_removed before rest ha option ho
  cases ha
  case inl hD =>
    have ⟨tail, ht⟩ := hD
    rw [← ht] at h hlong
    have ⟨out', _, he, _⟩ := h.keep_word (by decide) (Kept.append_letter ⟨by decide, by decide⟩ (by decide)) hlong
    rw [he, firstWord_append_word (by decide)]
    exact .inr <| .inr <| List.prefix_append ..
  case inr hdefine =>
    have ⟨tail, ht, hnext⟩ := hdefine
    rw [ht] at h hlong
    have ⟨out', calls', he, hex⟩ := h.keep_word (by decide) (Kept.append_letter ⟨by decide, by decide⟩ (by decide)) hlong
    rw [he]
    have hstop (hb : out' = [] ∨ out'.head? = some ' ') : DefinesClasses (firstWord ("--define".toList ++ out')) :=
      .inl <| firstWord_append (by decide) hb
    rcases hnext with hr | hr | hr | ⟨post, hr⟩ | ⟨post, hr⟩
    · have hlen := hex.length_eq
      rw [hr] at hlen
      exact hstop <| .inl <| List.length_eq_zero_iff.mp hlen
    · cases tail
      case nil         => nomatch hr
      case cons c tail =>
        rw [Option.some.inj hr] at hex
        have ⟨out₁, _, he₁, _⟩ := hex.keep_cons fun _ ho => not_optionFound_of_head (removedOptions_head ho) (by decide)
        exact hstop <| .inr <| by rw [he₁]; rfl
    · cases tail
      case nil         => nomatch hr
      case cons c tail =>
        rw [Option.some.inj hr] at hex
        have ⟨out₁, _, he₁, _⟩ := hex.keep_cons fun _ ho => not_optionFound_of_head (removedOptions_head ho) (by decide)
        rw [he₁, firstWord_append_word (by decide)]
        exact .inr <| .inl ⟨firstWord out₁, rfl⟩
    · rw [← hr] at hex
      exact hstop <| .inr <| hex.head_of_removed (by decide) rfl
    · rw [← hr] at hex
      exact hstop <| .inr <| hex.head_of_removed (by decide) rfl

theorem SafeArgs.separated_locks (hs : SafeArgs (· ∈ calls) out) (h : Examined [] args out calls) :
    ∀ part rest, args = part ++ rest → part ≠ [] → Parted [] part →
      ¬"--no-lock-K".toList <+: rest ∧ ¬"--no-lock-f".toList <+: rest := by
  intro part rest he hpart hp
  have hleft {option tail : CString} (ho : option = ['-', 'K'] ∨ option = ['-', 'f'])
      (hr : rest = "--no-lock".toList ++ (option ++ tail)) : False := by
    rw [hr] at he
    have ⟨pre, out', calls', hw, hnil, hex, _⟩ := h.partAt he hp (.inl ⟨_, rfl⟩)
    have hpre : pre.reverse ≠ [] := fun hn => hpart <| hnil.mpr <| List.reverse_eq_nil_iff.mp hn
    exact hs.locks pre out' hw <| hex.locks_left hpre ho
  constructor
  case left  =>
    intro ⟨tail, ht⟩
    exact hleft (.inl rfl) ht.symm
  case right =>
    intro ⟨tail, ht⟩
    exact hleft (.inr rfl) ht.symm

-- What is allowed for a word that is left has been asked for at its place.
theorem SafeArgs.asked (hs : SafeArgs (· ∈ calls) out) {pre rest out' : CString} {calls' : List CString}
    (hw : WordAt out pre out') (hd : DefinesClasses (firstWord out')) (ha : AsksClasses rest)
    (h : Examined before rest out' calls') (hcalls : ∀ text, text.length ≤ rest.length → (text ∈ calls ↔ text ∈ calls')) :
    definesFound before rest ∧ classArgument rest = classArgument out' := by
  have ⟨text, ht, hl, hc⟩ := hs.classes pre out' hw hd
  have hl := hl.trans h.length_eq
  have ht := (hcalls text <| Nat.le_of_eq hl).mp ht
  have hne : rest ≠ [] := by
    rcases ha.start with ⟨tail, he⟩ | ⟨tail, he⟩ <;> rw [he] <;> nofun
  refine ⟨(h.mem_calls_iff hne ha.not_removed).mp ⟨text, ht, hl⟩, ?_⟩
  rw [← h.eq_of_mem_calls hne ha.not_removed ht hl, hc]

theorem SafeArgs.separated_assigned (hs : SafeArgs (· ∈ calls) out) (h : Examined [] args out calls) :
    ∀ part rest, args = part ++ rest → part ≠ [] → Parted [] part → ¬"--define=".toList <+: rest := by
  intro part rest he hpart hp ⟨tail, ht⟩
  have ha : AsksClasses rest := .inr ⟨'=' :: tail, ht.symm, .inr <| .inr <| .inl rfl⟩
  have ⟨pre, out', calls', hw, hnil, hex, hcalls⟩ := h.partAt he hp (.inl ⟨_, ht⟩)
  have ⟨hfound, _⟩ := hs.asked hw (ha.left hex) ha hex hcalls
  have hpre : pre.reverse ≠ [] := fun hn => hpart <| hnil.mpr <| List.reverse_eq_nil_iff.mp hn
  rw [← ht, assigned_toList] at hfound
  cases hfound
  case inl hfound =>
    have hnext := (optionFound_long (by decide) hfound).resolve_left hpre |>.right
    exact absurd hnext (by simp [define_toList])
  case inr hfound => exact absurd hfound (by simp [optionFound])

-- The word after the option is a word of the text.
theorem wordAt_next (hw : WordAt out pre text) (hn : firstWord ((text.drop (firstWord text).length).dropWhile (· = ' ')) ≠ []) :
    ∃ pre', WordAt out pre' ((text.drop (firstWord text).length).dropWhile (· = ' ')) := by
  have ⟨tail, hsplit, hdrop, ht⟩ := firstWord_split text
  rw [hdrop] at hn ⊢
  have ⟨k, hk⟩ := blanks_split tail
  refine ⟨pre ++ (firstWord text ++ List.replicate k ' '), ?_, .inr ?_⟩
  · rw [hw.left, List.append_assoc, List.append_assoc, ← hk, ← hsplit]
  · cases k
    case succ k => rw [List.replicate_succ', ← List.append_assoc, ← List.append_assoc, List.getLast?_concat]
    case zero   =>
      cases ht
      case inl ht => rw [ht] at hn; exact absurd rfl hn
      case inr ht =>
        have hne : tail ≠ [] := fun hn => by rw [hn] at ht; nomatch ht
        have hdrop : tail.dropWhile (· = ' ') = tail := by simpa using hk.symm
        have hhead := List.head_dropWhile_not (fun c => decide (c = ' ')) (hdrop.symm ▸ hne)
        rw [List.head?_eq_some_head hne] at ht
        simp only [hdrop, Option.some.inj ht] at hhead
        nomatch hhead

theorem SafeArgs.separated (hs : SafeArgs (· ∈ calls) out) (h : Examined [] args out calls) : Separated args := by
  refine ⟨hs.separated_locks h, hs.separated_assigned h, ?_⟩
  intro part rest he hp ha
  have hstart : ['-', '-'] <+: rest ∨ ['-', 'D'] <+: rest := by
    rcases ha.start with ⟨tail, ht⟩ | ⟨tail, ht⟩
    · exact .inr ⟨tail, ht.symm⟩
    · exact .inl ⟨"define".toList ++ tail, ht.symm⟩
  have ⟨pre, out', calls', hw, _, hex, hcalls⟩ := h.partAt he hp hstart
  have ⟨_, hargument⟩ := hs.asked hw (ha.left hex) ha hex hcalls
  have hinfix : out' <:+: out := hw.left ▸ (List.suffix_append ..).isInfix
  rw [hargument]
  refine ⟨h.kept.mono <| firstWord_infix.trans hinfix, ?_, ?_⟩
  · simp only [classArgument]
    split
    case isTrue  =>
      apply h.kept.mono
      exact firstWord_infix.trans <| (List.dropWhile_suffix _).isInfix.trans <| (List.drop_suffix ..).isInfix.trans hinfix
    case isFalse => exact h.kept.mono (List.nil_infix)
  · intro hlock
    simp only [classArgument] at hlock
    split at hlock
    case isFalse => exact absurd hlock (by decide)
    case isTrue  =>
      have ⟨pre', hw'⟩ := wordAt_next hw (by rw [hlock]; decide)
      exact hs.locks pre' _ hw' hlock

-- The arguments of a request that is not refused are safe if and only if its options are separated.
theorem checkArgs_safeArgs_iff (host : ServerHost) (s : ServerState) (args : CString) :
    (host.checkArgs args.length [] args).Ensures s [] fun r _ t => ∀ out, r = some (some out) →
      (SafeArgs (Allowed · t) out ↔ Separated args) := by
  apply checkArgs_examined.imp
  intro r _ t h out hr
  have ⟨out', calls, he, hex, hcalls⟩ := h out hr
  have he : out = out' := he
  have hallowed : (Allowed · t) = (· ∈ calls) := by
    funext text
    rw [hcalls, eq_iff_iff]
    exact or_iff_right fun ⟨_, _, hn⟩ => nomatch hn
  rw [hallowed, he]
  exact ⟨fun hs => hs.separated hex, fun hs => hs.safeArgs hex⟩

def execState : ServerState where
  conn  := publicPeer ['g']
  sv    := publicSv
  inbox := []
  sends := 0
where
  publicSv : ServerAccess := ⟨[], [], [], [], [], [], [], []⟩

-- A list of classes after `=` is not checked.
theorem not_checkArgs_safeArgs :
    ¬∀ (host : ServerHost) (s : ServerState) (args : CString), (host.checkArgs args.length [] args).Ensures s []
      fun r _ t => ∀ out, r = some (some out) → SafeArgs (Allowed · t) out := by
  intro h
  have hrun : publicHost.checkArgs 13 [] "-I --define=a".toList execState [] =
      (some (some "-I --define=a".toList), execState, []) := rfl
  have h := h publicHost execState "-I --define=a".toList
  rw [show "-I --define=a".toList.length = 13 from rfl, Traced.Ensures, hrun] at h
  have hword : WordAt "-I --define=a".toList "-I ".toList "--define=a".toList := ⟨rfl, .inr rfl⟩
  obtain ⟨_, ⟨_, _, hn⟩, _⟩ := (h _ rfl).classes _ _ hword (.inr <| .inl ⟨['a'], rfl⟩)
  cases hn

end CfEngine
