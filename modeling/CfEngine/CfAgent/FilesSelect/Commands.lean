import CfEngine.Libpromises.EnvContext

namespace CfEngine

-- What is put out behind the `outCount` characters that are there. A buffer that is filled by single characters is not
-- terminated.
def replaceStrLoop (outSz : Nat) (from' to' : CString) (outCount : Nat) (in' : CString) : Bool × CString :=
  match in' with
  | []     => (true, [])
  | c :: s =>
    if outSz ≤ outCount then
      (true, [])
    else if from'.isPrefixOf (c :: s) then
      if outSz ≤ outCount + to'.length then
        (false, [])
      else
        let (done, out) := replaceStrLoop outSz from' to' (outCount + to'.length) (s.drop (from'.length - 1))
        (done, to' ++ out)
    else
      let (done, out) := replaceStrLoop outSz from' to' (outCount + 1) s
      (done, c :: out)
termination_by in'.length
decreasing_by
  · exact Nat.lt_succ_of_le <| List.drop_sublist _ _ |>.length_le
  · exact Nat.lt_succ_self _

def replaceStr (in' : CString) (outSz : Nat) (from' to' : CString) : Bool × CString :=
  replaceStrLoop outSz from' to' 0 in'

def thisPromiser (opening closing : Char) : CString :=
  ['$', opening, 't', 'h', 'i', 's', '.', 'p', 'r', 'o', 'm', 'i', 's', 'e', 'r', closing]

def parenPromiser : CString :=
  thisPromiser '(' ')'

def bracePromiser : CString :=
  thisPromiser '\x7b' '\x7d'

-- The second replacement overwrites what the first one has made. A command that is not terminated is read past the end
-- of its buffer.
def execCommand (prog filename : CString) : Outcome CString :=
  let _buf := (replaceStr prog cfMaxVarSize parenPromiser filename).2
  let buf := (replaceStr prog cfMaxVarSize bracePromiser filename).2
  if buf.length < cfMaxVarSize then some buf else none

-- A command is made up of characters and of references to the promiser.
inductive CommandPiece
  | char (c : Char)
  | paren
  | brace
  deriving DecidableEq

def CommandPiece.render (paren brace : CString) : CommandPiece → CString
  | .char c => [c]
  | .paren  => paren
  | .brace  => brace

def commandPieces (prog : CString) : List CommandPiece :=
  match prog with
  | []     => []
  | c :: s =>
    if parenPromiser.isPrefixOf (c :: s) then
      .paren :: commandPieces (s.drop (parenPromiser.length - 1))
    else if bracePromiser.isPrefixOf (c :: s) then
      .brace :: commandPieces (s.drop (bracePromiser.length - 1))
    else
      .char c :: commandPieces s
termination_by prog.length

-- The command with every reference to the promiser replaced.
def substituted (filename prog : CString) : CString :=
  (commandPieces prog).flatMap (CommandPiece.render filename filename)

section
variable {s t u w x y out prog filename : CString} {c : Char} {n outSz : Nat} {ps qs : List CommandPiece}

theorem bracePromiser_not_isPrefixOf (hc : c ≠ '$') : ¬bracePromiser.isPrefixOf (c :: s) := by
  simp [bracePromiser, thisPromiser, Ne.symm hc]

theorem commandPieces_paren : commandPieces (parenPromiser ++ s) = .paren :: commandPieces s := by
  rw [parenPromiser, thisPromiser, List.cons_append, commandPieces]
  simp [parenPromiser, thisPromiser]

theorem commandPieces_brace : commandPieces (bracePromiser ++ s) = .brace :: commandPieces s := by
  rw [bracePromiser, thisPromiser, List.cons_append, commandPieces]
  simp [parenPromiser, bracePromiser, thisPromiser]

theorem commandPieces_char (hp : ¬parenPromiser.isPrefixOf (c :: s)) (hb : ¬bracePromiser.isPrefixOf (c :: s)) :
    commandPieces (c :: s) = .char c :: commandPieces s := by
  rw [commandPieces, if_neg hp, if_neg hb]

-- A command starts with a reference or with another character.
theorem command_cases (motive : CString → Prop) (nil : motive []) (paren : ∀ s, motive s → motive (parenPromiser ++ s))
    (brace : ∀ s, motive s → motive (bracePromiser ++ s))
    (char : ∀ c s, ¬parenPromiser.isPrefixOf (c :: s) → ¬bracePromiser.isPrefixOf (c :: s) → motive s → motive (c :: s))
    (prog : CString) : motive prog := by
  induction hn : prog.length using Nat.strong_induction_on generalizing prog with
  | _ n ih =>
    cases prog
    case nil      => exact nil
    case cons c s =>
      by_cases hp : parenPromiser.isPrefixOf (c :: s)
      case pos =>
        obtain ⟨t, ht⟩ := List.isPrefixOf_iff_prefix.mp hp
        rw [←ht] at hn ⊢
        refine paren t <| ih _ ?_ t rfl
        rw [←hn, List.length_append]
        exact Nat.lt_add_of_pos_left (by decide)
      case neg =>
        by_cases hb : bracePromiser.isPrefixOf (c :: s)
        case pos =>
          obtain ⟨t, ht⟩ := List.isPrefixOf_iff_prefix.mp hb
          rw [←ht] at hn ⊢
          refine brace t <| ih _ ?_ t rfl
          rw [←hn, List.length_append]
          exact Nat.lt_add_of_pos_left (by decide)
        case neg => exact char c s hp hb <| ih _ (hn ▸ Nat.lt_succ_self _) s rfl

-- The pieces make up the command.
theorem commandPieces_text : (commandPieces prog).flatMap (CommandPiece.render parenPromiser bracePromiser) = prog := by
  induction prog using command_cases
  case nil             => rw [commandPieces, List.flatMap_nil]
  case paren s ih      => rw [commandPieces_paren, List.flatMap_cons, ih, CommandPiece.render]
  case brace s ih      => rw [commandPieces_brace, List.flatMap_cons, ih, CommandPiece.render]
  case char c s hp hb ih =>
    rw [commandPieces_char hp hb, List.flatMap_cons, ih, CommandPiece.render, List.singleton_append]

-- What the second replacement makes of the pieces where there is room.
def braced (filename : CString) (ps : List CommandPiece) : CString :=
  ps.flatMap (CommandPiece.render parenPromiser filename)

theorem braced_cons {p : CommandPiece} :
    braced filename (p :: ps) = p.render parenPromiser filename ++ braced filename ps :=
  List.flatMap_cons

theorem braced_append : braced filename (ps ++ qs) = braced filename ps ++ braced filename qs :=
  List.flatMap_append

theorem replaceStrLoop_full (h : outSz ≤ n) : (replaceStrLoop outSz w t n s).2 = [] := by
  cases s
  case nil  => rw [replaceStrLoop]
  case cons => rw [replaceStrLoop, if_pos h]

theorem replaceStrLoop_char (h : ¬w.isPrefixOf (c :: s)) (hn : n < outSz) :
    (replaceStrLoop outSz w t n (c :: s)).2 = c :: (replaceStrLoop outSz w t (n + 1) s).2 := by
  rw [replaceStrLoop, if_neg (Nat.not_le.mpr hn), if_neg h]

theorem replaceStrLoop_brace (hn : n < outSz) : (replaceStrLoop outSz bracePromiser t n (bracePromiser ++ s)).2 =
    if outSz ≤ n + t.length then [] else t ++ (replaceStrLoop outSz bracePromiser t (n + t.length) s).2 := by
  have hcons : bracePromiser ++ s = '$' :: (bracePromiser.tail ++ s) := rfl
  have hprefix : bracePromiser.isPrefixOf ('$' :: (bracePromiser.tail ++ s)) := by
    rw [←hcons]
    exact List.isPrefixOf_iff_prefix.mpr <| List.prefix_append _ _
  rw [hcons, replaceStrLoop, if_neg (Nat.not_le.mpr hn), if_pos hprefix]
  split
  case isTrue  => rfl
  case isFalse => rfl

-- Characters among which no reference starts are put out as far as there is room.
theorem replaceStrLoop_plain (ht : '$' ∉ u) : (replaceStrLoop outSz bracePromiser t n (u ++ s)).2 =
    if n + u.length ≤ outSz then
      u ++ (replaceStrLoop outSz bracePromiser t (n + u.length) s).2
    else
      u.take (outSz - n) := by
  induction u generalizing n
  case nil =>
    rw [List.nil_append, List.length_nil, Nat.add_zero, List.nil_append]
    split
    case isTrue    => rfl
    case isFalse h => rw [replaceStrLoop_full (Nat.le_of_not_le h), List.take_nil]
  case cons d u ih =>
    have ⟨hd, hu⟩ := List.ne_and_not_mem_of_not_mem_cons ht
    rw [List.cons_append]
    by_cases hn : n < outSz
    case pos =>
      obtain ⟨k, hk⟩ : ∃ k, outSz - n = k + 1 := ⟨outSz - n - 1, by omega⟩
      have hrest : outSz - (n + 1) = k := by omega
      have hlen : n + (u.length + 1) = n + 1 + u.length := by omega
      rw [replaceStrLoop_char (bracePromiser_not_isPrefixOf <| Ne.symm hd) hn, ih hu, hk, List.take_succ_cons,
        List.length_cons, List.cons_append, hrest, hlen]
      split <;> rfl
    case neg =>
      have hle := Nat.le_of_not_lt hn
      rw [replaceStrLoop_full hle, List.length_cons, if_neg (by omega), Nat.sub_eq_zero_of_le hle, List.take_zero]

-- What is put out: all of the pieces, as much of them as fills the buffer, or those ahead of a reference for which there
-- is no room.
structure PutsOut (outSz n : Nat) (filename out : CString) (ps : List CommandPiece) : Prop where
  isPrefix : out <+: braced filename ps
  stops    : outSz ≤ n + out.length ∨ out = braced filename ps ∨ ∃ done rest,
    ps = done ++ .brace :: rest ∧ out = braced filename done ∧ outSz ≤ n + out.length + filename.length

theorem PutsOut.cons {p : CommandPiece} (hx : p.render parenPromiser filename = x)
    (h : PutsOut outSz (n + x.length) filename out ps) : PutsOut outSz n filename (x ++ out) (p :: ps) := by
  refine ⟨?_, ?_⟩
  case refine_1 =>
    rw [braced_cons, hx]
    exact (List.prefix_append_right_inj x).mpr h.isPrefix
  case refine_2 =>
    rw [List.length_append, ←Nat.add_assoc, braced_cons, hx]
    refine h.stops.imp id <| Or.imp (congrArg _) ?_
    rintro ⟨done, rest, rfl, hout, hlen⟩
    refine ⟨p :: done, rest, rfl, ?_, hlen⟩
    rw [braced_cons, hx, hout]

theorem PutsOut.full (h : outSz ≤ n) : PutsOut outSz n filename [] ps :=
  ⟨List.nil_prefix, .inl h⟩

theorem replaceStrLoop_paren (hn : n < outSz) : (replaceStrLoop outSz bracePromiser t n (parenPromiser ++ s)).2 =
    if n + parenPromiser.length ≤ outSz then
      parenPromiser ++ (replaceStrLoop outSz bracePromiser t (n + parenPromiser.length) s).2
    else
      parenPromiser.take (outSz - n) := by
  obtain ⟨k, hk⟩ : ∃ k, outSz - n = k + 1 := ⟨outSz - n - 1, by omega⟩
  have hcons : parenPromiser ++ s = '$' :: (parenPromiser.tail ++ s) := rfl
  have hprefix : ¬bracePromiser.isPrefixOf ('$' :: (parenPromiser.tail ++ s)) := by
    simp [parenPromiser, bracePromiser, thisPromiser]
  have hlen : n + 1 + parenPromiser.tail.length = n + parenPromiser.length := Nat.add_assoc ..
  rw [hcons, replaceStrLoop_char hprefix hn, replaceStrLoop_plain (by decide), hlen, hk,
    show outSz - (n + 1) = k by omega]
  split <;> rfl

theorem replaceStrLoop_putsOut :
    PutsOut outSz n filename (replaceStrLoop outSz bracePromiser filename n prog).2 (commandPieces prog) := by
  induction prog using command_cases generalizing n
  case nil               =>
    rw [replaceStrLoop, commandPieces]
    exact ⟨List.nil_prefix, .inr <| .inl rfl⟩
  case paren s ih        =>
    rw [commandPieces_paren]
    by_cases hn : n < outSz
    case pos =>
      rw [replaceStrLoop_paren hn]
      split
      case isTrue    => exact .cons rfl ih
      case isFalse h =>
        refine ⟨?_, .inl ?_⟩
        case refine_1 => exact (List.take_prefix _ _).trans <| List.prefix_append _ _
        case refine_2 =>
          rw [List.length_take]
          omega
    case neg =>
      rw [replaceStrLoop_full (Nat.le_of_not_lt hn)]
      exact .full <| Nat.le_of_not_lt hn
  case brace s ih        =>
    rw [commandPieces_brace]
    by_cases hn : n < outSz
    case pos =>
      rw [replaceStrLoop_brace hn]
      split
      case isTrue h  => exact ⟨List.nil_prefix, .inr <| .inr ⟨[], _, rfl, rfl, h⟩⟩
      case isFalse h => exact .cons rfl ih
    case neg =>
      rw [replaceStrLoop_full (Nat.le_of_not_lt hn)]
      exact .full <| Nat.le_of_not_lt hn
  case char c s hp hb ih =>
    rw [commandPieces_char hp hb]
    by_cases hn : n < outSz
    case pos =>
      rw [replaceStrLoop_char hb hn, ←List.singleton_append]
      exact .cons rfl ih
    case neg =>
      rw [replaceStrLoop_full (Nat.le_of_not_lt hn)]
      exact .full <| Nat.le_of_not_lt hn

-- A text without a dollar sign is not repeated behind what another text and such a sign are behind.
theorem append_ne_of_dollar (hw : '$' ∉ w) (hne : w ≠ []) : w ++ (u ++ x) ≠ u ++ '$' :: y := by
  induction hn : u.length using Nat.strong_induction_on generalizing u with
  | _ n ih =>
    intro he
    by_cases hlt : u.length < w.length
    case pos =>
      have hget := congrArg (·[u.length]?) he
      simp only [List.getElem?_append_left hlt, List.getElem?_append_right (Nat.le_refl u.length), Nat.sub_self,
        List.getElem?_cons_zero] at hget
      exact hw <| List.mem_of_getElem? hget
    case neg =>
      have hpre : w <+: u := List.prefix_of_prefix_length_le (he ▸ List.prefix_append _ _) (List.prefix_append _ _)
        (Nat.le_of_not_lt hlt)
      obtain ⟨u', rfl⟩ := hpre
      have hpos := List.length_pos_iff.mpr hne
      have hdrop : w ++ (u' ++ x) = u' ++ '$' :: y := by
        simpa [List.append_assoc] using he
      refine ih u'.length ?_ rfl hdrop
      rw [←hn, List.length_append]
      omega

def replaced (filename : CString) (ps : List CommandPiece) : CString :=
  ps.flatMap (CommandPiece.render filename filename)

theorem replaced_append : replaced filename (ps ++ qs) = replaced filename ps ++ replaced filename qs :=
  List.flatMap_append

theorem replaced_cons {p : CommandPiece} :
    replaced filename (p :: ps) = p.render filename filename ++ replaced filename ps :=
  List.flatMap_cons

theorem substituted_eq : substituted filename prog = replaced filename (commandPieces prog) :=
  rfl

theorem braced_eq_replaced (h : .paren ∉ ps ∨ filename = parenPromiser) :
    braced filename ps = replaced filename ps := by
  obtain h | rfl := h
  case inl =>
    induction ps
    case nil          => rfl
    case cons p ps ih =>
      have ⟨hp, hps⟩ := List.ne_and_not_mem_of_not_mem_cons h
      rw [braced_cons, replaced_cons, ih hps]
      cases p
      case char  => rfl
      case paren => exact absurd rfl hp
      case brace => rfl
  case inr => rfl

theorem braced_length : (braced filename ps).length + ps.count .paren * filename.length =
    (replaced filename ps).length + ps.count .paren * parenPromiser.length := by
  induction ps
  case nil          =>
    rw [List.count_nil, Nat.zero_mul, Nat.zero_mul, braced, replaced, List.flatMap_nil, List.flatMap_nil]
  case cons p ps ih =>
    rw [braced_cons, replaced_cons, List.length_append, List.length_append]
    cases p
    case char c =>
      have hne : CommandPiece.char c ≠ .paren := nofun
      rw [List.count_cons_of_ne hne, CommandPiece.render, CommandPiece.render]
      omega
    case paren  =>
      rw [List.count_cons_self, Nat.succ_mul, Nat.succ_mul, CommandPiece.render, CommandPiece.render]
      omega
    case brace  =>
      have hne : CommandPiece.brace ≠ .paren := nofun
      rw [List.count_cons_of_ne hne, CommandPiece.render, CommandPiece.render]
      omega

-- Up to the first reference, both replacements are the same.
theorem braced_split (h : .paren ∈ ps) : ∃ t qs, braced filename ps = t ++ (parenPromiser ++ braced filename qs) ∧
    replaced filename ps = t ++ (filename ++ replaced filename qs) := by
  obtain ⟨as, qs, rfl, has⟩ := List.eq_append_cons_of_mem h
  refine ⟨braced filename as, qs, ?_, ?_⟩
  case refine_1 => rw [braced_append, braced_cons, CommandPiece.render]
  case refine_2 => rw [replaced_append, replaced_cons, CommandPiece.render, braced_eq_replaced (.inl has)]

theorem braced_ne_replaced (h : .paren ∈ ps) (hne : filename ≠ parenPromiser) :
    braced filename ps ≠ replaced filename ps := by
  intro he
  have hlen := @braced_length filename ps
  rw [he, Nat.add_left_cancel_iff, Nat.mul_left_cancel_iff (List.count_pos_iff.mpr h)] at hlen
  obtain ⟨t, qs, hb, hr⟩ := @braced_split filename ps h
  rw [hb, hr, List.append_cancel_left_eq] at he
  exact hne (List.append_inj_left he hlen.symm).symm

-- The characters ahead of the next reference, or of the text behind.
theorem exists_plain : ∃ u x y, braced filename ps = u ++ x ∧
    replaced filename ps ++ (filename ++ t) = u ++ (filename ++ y) := by
  induction ps
  case nil          => exact ⟨[], [], t, rfl, rfl⟩
  case cons p ps ih =>
    rw [braced_cons, replaced_cons]
    cases p
    case char c =>
      obtain ⟨u, x, y, hb, hr⟩ := ih
      refine ⟨c :: u, x, y, ?_, ?_⟩
      case refine_1 => rw [hb, CommandPiece.render, List.singleton_append, List.cons_append]
      case refine_2 => rw [CommandPiece.render, List.append_assoc, hr, List.singleton_append, List.cons_append]
    case paren  => exact ⟨[], _, _, rfl, List.append_assoc ..⟩
    case brace  => exact ⟨[], _, _, rfl, List.append_assoc ..⟩

-- Where there is no room for a reference, what has been put out is not the command.
theorem braced_ne_of_stops {done rest : List CommandPiece} (hshort : (braced filename done).length < outSz)
    (hstops : outSz ≤ (braced filename done).length + filename.length)
    (hfits : (replaced filename (done ++ .brace :: rest)).length < outSz) :
    braced filename done ≠ replaced filename (done ++ .brace :: rest) := by
  intro he
  have hrest : replaced filename (done ++ .brace :: rest) =
      replaced filename done ++ (filename ++ replaced filename rest) := by
    rw [replaced_append, replaced_cons, CommandPiece.render]
  have hne : filename ≠ [] := by
    rintro rfl
    exact Nat.lt_irrefl _ <| Nat.lt_of_lt_of_le hshort hstops
  rw [hrest, List.length_append, List.length_append] at hfits
  have hlen := @braced_length filename done
  have hmul : done.count .paren * filename.length < done.count .paren * parenPromiser.length := by omega
  have hpos := Nat.pos_of_mul_pos_right <| Nat.zero_lt_of_lt hmul
  have hlt := Nat.lt_of_mul_lt_mul_left hmul
  obtain ⟨t, qs, hb, hr⟩ := @braced_split filename done <| List.count_pos_iff.mp hpos
  obtain ⟨u, x, y, hu, hy⟩ := @exists_plain (replaced filename rest) filename qs
  rw [hrest, hb, hr, List.append_assoc, List.append_cancel_left_eq, List.append_assoc, hu, hy] at he
  have hpre : filename <+: parenPromiser := List.prefix_of_prefix_length_le
    (he ▸ List.prefix_append filename _) (List.prefix_append _ _) hlt.le
  obtain ⟨w, hw⟩ := hpre
  cases filename
  case nil             => exact hne rfl
  case cons d filename =>
    have hcons : d :: (filename ++ w) = '$' :: parenPromiser.tail := hw
    obtain ⟨rfl, htail⟩ := List.cons_eq_cons.mp hcons
    have hdollar : '$' ∉ w := by
      intro hm
      have hm := htail ▸ List.mem_append_right filename hm
      exact absurd hm (by decide)
    have hw_ne : w ≠ [] := by
      rintro rfl
      rw [←hw, List.append_nil] at hlt
      exact Nat.lt_irrefl _ hlt
    rw [←hw, List.append_assoc, List.append_cancel_left_eq] at he
    exact append_ne_of_dollar hdollar hw_ne he

theorem infix_of_append (ht : '$' ∉ t) (h : parenPromiser <:+: t ++ s) : parenPromiser <:+: s := by
  induction t
  case nil         => exact h
  case cons c t ih =>
    have ⟨hc, ht⟩ := List.ne_and_not_mem_of_not_mem_cons ht
    obtain hpre | hin := List.infix_cons_iff.mp h
    case inl => exact absurd (List.cons_prefix_cons.mp hpre).left hc
    case inr => exact ih ht hin

-- References do not overlap, so that each of them is a piece.
theorem paren_mem_iff : .paren ∈ commandPieces prog ↔ parenPromiser <:+: prog := by
  constructor
  case mp  =>
    intro h
    obtain ⟨as, bs, hs⟩ := List.append_of_mem h
    rw [←@commandPieces_text prog, hs, List.flatMap_append, List.flatMap_cons, CommandPiece.render]
    exact ⟨_, _, List.append_assoc ..⟩
  case mpr =>
    intro h
    induction prog using command_cases
    case nil               => cases List.infix_nil.mp h
    case paren s ih        =>
      rw [commandPieces_paren]
      exact List.mem_cons_self
    case brace s ih        =>
      rw [commandPieces_brace]
      have hcons : bracePromiser ++ s = '$' :: (bracePromiser.tail ++ s) := rfl
      rw [hcons] at h
      obtain hpre | hin := List.infix_cons_iff.mp h
      case inl =>
        have hsecond := (List.cons_prefix_cons.mp (List.cons_prefix_cons.mp hpre).right).left
        exact absurd hsecond (by decide)
      case inr => exact List.mem_cons_of_mem _ <| ih <| infix_of_append (by decide) hin
    case char c s hp hb ih =>
      rw [commandPieces_char hp hb]
      obtain hpre | hin := List.infix_cons_iff.mp h
      case inl => exact absurd (List.isPrefixOf_iff_prefix.mpr hpre) hp
      case inr => exact List.mem_cons_of_mem _ <| ih hin

-- The command is the given one where there is no reference that only the first replacement looks for, or where the
-- reference is what it stands for.
theorem execCommand_eq_iff (hfits : (substituted filename prog).length < cfMaxVarSize) :
    execCommand prog filename = some (substituted filename prog) ↔
      ¬parenPromiser <:+: prog ∨ filename = parenPromiser := by
  have hputs : PutsOut cfMaxVarSize 0 filename (replaceStrLoop cfMaxVarSize bracePromiser filename 0 prog).2
      (commandPieces prog) := replaceStrLoop_putsOut
  have hexec : execCommand prog filename = some (substituted filename prog) ↔
      (replaceStrLoop cfMaxVarSize bracePromiser filename 0 prog).2 = substituted filename prog := by
    rw [execCommand, replaceStr]
    split
    case isTrue    => exact Option.some_inj
    case isFalse h => exact iff_of_false nofun fun he => h (he ▸ hfits)
  rw [hexec, ←paren_mem_iff]
  generalize (replaceStrLoop cfMaxVarSize bracePromiser filename 0 prog).2 = out at hputs
  rw [substituted_eq] at hfits ⊢
  constructor
  case mp  =>
    rintro rfl
    by_contra hnot
    obtain ⟨hmem, hne⟩ := not_or.mp hnot
    have hmem := Decidable.not_not.mp hmem
    obtain hfull | hall | ⟨done, rest, hps, hout, hlen⟩ := hputs.stops
    case inl         => omega
    case inr.inl     => exact braced_ne_replaced hmem hne hall.symm
    case inr.inr     =>
      rw [hps] at hfits hout hlen
      rw [Nat.zero_add, hout] at hlen
      exact braced_ne_of_stops (hout ▸ hfits) hlen hfits hout.symm
  case mpr =>
    intro h
    have hsame := @braced_eq_replaced filename (commandPieces prog) (h.imp_left id)
    have hle := hputs.isPrefix.length_le
    rw [hsame] at hle
    obtain hfull | hall | ⟨done, rest, hps, hout, hlen⟩ := hputs.stops
    case inl     => omega
    case inr.inl => rw [hall, hsame]
    case inr.inr =>
      rw [←hsame, hps, braced_append, braced_cons, ←hout, CommandPiece.render, List.length_append,
        List.length_append] at hfits
      omega

end

end CfEngine
