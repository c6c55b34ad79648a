import CfEngine.Libpromises.Modes

namespace CfEngine

-- Each element stands in the context that it needs, which is what stands before it.
def Along {α : Type*} (r : List α → α → Prop) (before : List α) : List α → Prop
  | []      => True
  | a :: as => r before a ∧ Along r (before ++ [a]) as

section
variable {α : Type*} {r : List α → α → Prop} {before l l' : List α}

theorem along_append : Along r before (l ++ l') ↔ Along r before l ∧ Along r (before ++ l) l' := by
  induction l generalizing before
  case nil         => simp [Along]
  case cons a l ih => simp [Along, ih, and_assoc]

theorem along_of_forall (h : ∀ before, ∀ a ∈ l, r before a) : Along r before l := by
  induction l generalizing before
  case nil         => trivial
  case cons a l ih => exact ⟨h before a List.mem_cons_self, ih fun b c hc => h b c <| List.mem_cons_of_mem a hc⟩

end

namespace ModeToken

-- The scan is not given up at the token.
def Readable (before : List ModeToken) (t : ModeToken) : Prop :=
  t.Known ∧ (t.IsAction → ∀ a ∈ before, ¬a.Acts)

-- Classes stand before the operator, permissions and numbers after it, where in the first clause it may be
-- missing. A number does not stand next to a letter.
structure InContext (first : Bool) (before : List ModeToken) (t : ModeToken) : Prop where
  who     : t.IsWho → ∀ a ∈ before, ¬a.Acts
  which   : t.IsPerm ∨ t.IsNumber → first ∨ ∃ a ∈ before, a.Acts
  unmixed : ∀ a ∈ before.getLast?, (t.IsNumber → a.Acts) ∧ (a.IsNumber → t.Acts)

def reachStep (affected value : BitVec 32) (t : ModeToken) : BitVec 32 × BitVec 32 :=
  match t with
  | letter _ => (t.affect affected, value ||| t.grant affected)
  | number _ => (t.affect affected, t.grant affected)

-- The classes that the tokens name, and the permissions that they grant them.
def reach (ts : List ModeToken) : BitVec 32 × BitVec 32 :=
  ts.foldl (fun r t => reachStep r.1 r.2 t) (0, 0)

def sortAfter : Option ModeToken → ModeSort
  | none            => .unknown
  | some (letter c) => if (modeAction c).isSome then .unknown else .symbolic
  | some (number _) => .numeric

def actionAfter (action : ModeAction) : ModeToken → ModeAction
  | letter c => (modeAction c).getD action
  | number _ => action

end ModeToken

open ModeToken

-- What the parser knows within a clause comes from the tokens that it has read.
structure ReadUpTo (first : Bool) (ts : List ModeToken) (p : ModeParser) : Prop where
  affected  : p.affected = (reach ts).1
  value     : p.value = (reach ts).2
  gotaction : p.gotaction ↔ ∃ a ∈ ts, a.Acts
  which     : (∃ a ∈ ts, a.Acts) → p.state = .which
  start     : ¬(∃ a ∈ ts, a.Acts) → p.state = if first then .wild else .who
  sort      : p.sort = sortAfter ts.getLast?
  action    : p.action = ts.foldl actionAfter .assign

-- The masks are kept, and something is reported if and only if the tokens are not in their contexts.
structure Reports (quiet : Prop) (p p' : ModeParser) : Prop where
  plusmask  : p'.plusmask = p.plusmask
  minusmask : p'.minusmask = p.minusmask
  messages  : ∃ messages, p'.messages = p.messages ++ messages ∧ (messages = [] ↔ quiet)

-- The tokens are read in this context, or one of them is not readable.
def ReadFrom (first : Bool) (before ts : List ModeToken) (p : ModeParser) : Option ModeParser → Prop
  | some p' =>
    Along Readable before ts ∧ ReadUpTo first (before ++ ts) p' ∧ Reports (Along (InContext first) before ts) p p'
  | none    => ¬Along Readable before ts

section
variable {p p' : ModeParser} {c : Char} {t : ModeToken} {ts : List ModeToken} {first : Bool}

inductive LetterKind (c : Char) : Prop
  | who (mask : BitVec 32) (h : whoMask c = some mask) (action : modeAction c = none) (perm : ∀ a, permMask a c = none)
  | action (action : ModeAction) (who : whoMask c = none) (h : modeAction c = some action) (perm : ∀ a, permMask a c = none)
  | perm (who : whoMask c = none) (action : modeAction c = none) (h : ∀ a, ∃ mask, permMask a c = some mask)
  | other (who : whoMask c = none) (action : modeAction c = none) (perm : ∀ a, permMask a c = none)

theorem letterKind (c : Char) : LetterKind c := by
  cases hwho : whoMask c
  case some mask =>
    refine .who mask hwho ?_ ?_
    all_goals
      unfold whoMask at hwho
      split at hwho
      case h_5 => cases hwho
      all_goals first | rfl | exact fun _ => rfl
  case none      =>
    cases haction : modeAction c
    case some action =>
      refine .action action hwho haction ?_
      unfold modeAction at haction
      split at haction
      case h_4 => cases haction
      all_goals exact fun _ => rfl
    case none        =>
      by_cases hperm : ∃ a, permMask a c ≠ none
      case pos =>
        obtain ⟨a, ha⟩ := hperm
        refine .perm hwho haction ?_
        unfold permMask at ha
        split at ha
        case h_6 => exact absurd rfl ha
        all_goals exact fun _ => ⟨_, rfl⟩
      case neg => exact .other hwho haction fun a => not_not.mp <| not_exists.mp hperm a

theorem checkModeState_eq_none {stateA stateB : ModeState} {sortA sortB : ModeSort} :
    checkModeState stateA stateB sortA sortB c = none ↔
      (stateA = .wild ∨ stateB = .wild ∨ stateA = stateB) ∧ (sortA = .unknown ∨ sortB = .unknown ∨ sortA = sortB) := by
  unfold checkModeState
  split
  case isTrue h  => simp [h]
  case isFalse h =>
    split
    case isTrue h'  => simp [h']
    case isFalse h' =>
      refine iff_of_true rfl ⟨?_, ?_⟩
      all_goals
        by_contra hn
        simp only [not_or] at hn
        contradiction

theorem exists_acts_snoc : (∃ a ∈ ts ++ [t], a.Acts) ↔ (∃ a ∈ ts, a.Acts) ∨ t.Acts := by
  simp [or_and_right, exists_or]

theorem reach_snoc : reach (ts ++ [t]) = reachStep (reach ts).1 (reach ts).2 t := by
  rw [reach, List.foldl_append]
  rfl

theorem acts_letter : (ModeToken.letter c).Acts ↔ (modeAction c).isSome :=
  or_iff_left id

theorem acts_number {d : CString} : (ModeToken.number d).Acts :=
  .inr trivial

theorem sortAfter_unmixed {last : Option ModeToken} :
    ModeSort.symbolic = .unknown ∨ sortAfter last = .unknown ∨ ModeSort.symbolic = sortAfter last ↔ ∀ a ∈ last, ¬a.IsNumber := by
  cases last
  case none => simp [sortAfter]
  case some a =>
    cases a
    case letter c =>
      cases hc : modeAction c <;> simp [sortAfter, hc, IsNumber]
    case number d => simp [sortAfter, IsNumber]

theorem sortAfter_acting {last : Option ModeToken} :
    ModeSort.numeric = .unknown ∨ sortAfter last = .unknown ∨ ModeSort.numeric = sortAfter last ↔ ∀ a ∈ last, a.Acts := by
  cases last
  case none => simp [sortAfter]
  case some a =>
    cases a
    case letter c =>
      cases hc : modeAction c <;> simp [sortAfter, hc, acts_letter]
    case number d => simp [sortAfter, acts_number]

namespace ReadUpTo
variable (h : ReadUpTo first ts p)
include h

theorem who_iff : .who = ModeState.wild ∨ p.state = .wild ∨ .who = p.state ↔ ∀ a ∈ ts, ¬a.Acts := by
  by_cases hacts : ∃ a ∈ ts, a.Acts
  case pos =>
    rw [h.which hacts]
    refine iff_of_false (by decide) fun hn => ?_
    obtain ⟨a, ha, hacts⟩ := hacts
    exact hn a ha hacts
  case neg =>
    rw [h.start hacts]
    refine iff_of_true ?_ fun a ha hacts' => hacts ⟨a, ha, hacts'⟩
    cases first <;> simp

theorem which_iff : .which = ModeState.wild ∨ p.state = .wild ∨ .which = p.state ↔ first ∨ ∃ a ∈ ts, a.Acts := by
  by_cases hacts : ∃ a ∈ ts, a.Acts
  case pos => simp [h.which hacts, hacts]
  case neg =>
    rw [h.start hacts]
    cases first <;> simp [hacts]

theorem snoc_letter {affected value : BitVec 32} {noError : Bool} {messages : List ModeMessage}
    (hc : modeAction c = none) (ha : affected = p.affected ||| (whoMask c).getD 0)
    (hv : value = p.value ||| (permMask p.affected c).getD 0) :
    ReadUpTo first (ts ++ [.letter c])
      { p with affected := affected, value := value, noError := noError, messages := messages, sort := .symbolic } where
  affected  := by rw [reach_snoc, reachStep, affect, ha, h.affected]
  value     := by rw [reach_snoc, reachStep, grant, hv, h.value, h.affected]
  gotaction := by rw [exists_acts_snoc, acts_letter, hc, h.gotaction]; simp
  which     := by
    rw [exists_acts_snoc, acts_letter, hc]
    exact fun hacts => h.which <| hacts.resolve_right <| by decide
  start     := by
    rw [exists_acts_snoc, acts_letter, hc]
    exact fun hacts => h.start fun ha => hacts <| .inl ha
  sort      := by rw [List.getLast?_append]; simp [sortAfter, hc]
  action    := by rw [List.foldl_append, ←h.action]; simp [actionAfter, hc]

theorem snoc_action {action : ModeAction} {noError : Bool} {messages : List ModeMessage}
    (hw : whoMask c = none) (hc : modeAction c = some action) (hp : ∀ a, permMask a c = none) :
    ReadUpTo first (ts ++ [.letter c])
      { p with
        action := action, state := .which, gotaction := true, noError := noError, messages := messages, sort := .unknown } where
  affected  := by rw [reach_snoc, reachStep, affect, hw, h.affected]; simp
  value     := by rw [reach_snoc, reachStep, grant, hp, h.value]; simp
  gotaction := by rw [exists_acts_snoc, acts_letter, hc]; simp
  which     := fun _ => rfl
  start     := by rw [exists_acts_snoc, acts_letter, hc]; simp
  sort      := by rw [List.getLast?_append]; simp [sortAfter, hc]
  action    := by rw [List.foldl_append]; simp [actionAfter, hc]

theorem snoc_number {d : CString} {noError : Bool} {messages : List ModeMessage} :
    ReadUpTo first (ts ++ [.number d])
      { p with
        affected := 0o7777, value := scanOctal d, state := .which, gotaction := true, noError := noError,
        messages := messages, sort := .numeric } where
  affected  := by rw [reach_snoc]; rfl
  value     := by rw [reach_snoc]; rfl
  gotaction := by rw [exists_acts_snoc]; simp [acts_number]
  which     := fun _ => rfl
  start     := by rw [exists_acts_snoc]; simp [acts_number]
  sort      := by rw [List.getLast?_append]; rfl
  action    := by rw [List.foldl_append, ←h.action]; rfl

end ReadUpTo

theorem Reports.trans {p'' : ModeParser} {quiet quiet' : Prop} (h : Reports quiet p p') (h' : Reports quiet' p' p'') :
    Reports (quiet ∧ quiet') p p'' := by
  obtain ⟨ms, hms, hq⟩ := h.messages
  obtain ⟨ms', hms', hq'⟩ := h'.messages
  refine ⟨h'.plusmask.trans h.plusmask, h'.minusmask.trans h.minusmask, ms ++ ms', ?_, ?_⟩
  · rw [hms', hms, List.append_assoc]
  · rw [List.append_eq_nil_iff, hq, hq']

theorem reports_check {quiet : Prop} {state : ModeState} {sort : ModeSort} (hplus : p'.plusmask = p.plusmask)
    (hminus : p'.minusmask = p.minusmask) (hmessages : p'.messages = (p.check state sort c).messages)
    (h : checkModeState state p.state sort p.sort c = none ↔ quiet) : Reports quiet p p' := by
  refine ⟨hplus, hminus, (checkModeState state p.state sort p.sort c).toList, hmessages, ?_⟩
  rw [Option.toList_eq_nil_iff, h]

theorem inContext_who {mask : BitVec 32} (hw : whoMask c = some mask) (hc : modeAction c = none)
    (hp : ∀ a, permMask a c = none) :
    (ModeToken.letter c).InContext first ts ↔ (∀ a ∈ ts, ¬a.Acts) ∧ ∀ a ∈ ts.getLast?, ¬a.IsNumber := by
  have hacts : ¬(ModeToken.letter c).Acts := by
    rw [acts_letter, hc]
    decide
  have hwho : (ModeToken.letter c).IsWho := by
    rw [IsWho, hw]
    rfl
  refine ⟨fun h => ⟨h.who hwho, fun a ha hn => hacts <| (h.unmixed a ha).right hn⟩, fun h => ⟨fun _ => h.left, ?_, ?_⟩⟩
  · rw [IsPerm, hp]
    rintro (hp | hn)
    case inl => cases hp
    case inr => cases hn
  · exact fun a ha => ⟨fun hn => hn.elim, fun hn => (h.right a ha hn).elim⟩

theorem inContext_perm (hw : whoMask c = none) (hc : modeAction c = none) (hp : ∀ a, ∃ mask, permMask a c = some mask) :
    (ModeToken.letter c).InContext first ts ↔ (first ∨ ∃ a ∈ ts, a.Acts) ∧ ∀ a ∈ ts.getLast?, ¬a.IsNumber := by
  have hacts : ¬(ModeToken.letter c).Acts := by
    rw [acts_letter, hc]
    decide
  have hperm : (ModeToken.letter c).IsPerm := by
    obtain ⟨mask, hmask⟩ := hp 0
    rw [IsPerm, hmask]
    rfl
  refine ⟨fun h => ⟨h.which <| .inl hperm, fun a ha hn => hacts <| (h.unmixed a ha).right hn⟩,
    fun h => ⟨?_, fun _ => h.left, ?_⟩⟩
  · rw [IsWho, hw]
    rintro ⟨⟩
  · exact fun a ha => ⟨fun hn => hn.elim, fun hn => (h.right a ha hn).elim⟩

theorem inContext_number {d : CString} :
    (ModeToken.number d).InContext first ts ↔ (first ∨ ∃ a ∈ ts, a.Acts) ∧ ∀ a ∈ ts.getLast?, a.Acts :=
  ⟨fun h => ⟨h.which <| .inr trivial, fun a ha => (h.unmixed a ha).left trivial⟩,
    fun h => ⟨fun hw => hw.elim, fun _ => h.left, fun a ha => ⟨fun _ => h.right a ha, fun _ => acts_number⟩⟩⟩

-- In front of an operator nothing acts, if the scan is not given up there.
theorem inContext_action {action : ModeAction} (hw : whoMask c = none) (hc : modeAction c = some action)
    (hp : ∀ a, permMask a c = none) : (ModeToken.letter c).InContext first ts := by
  refine ⟨?_, ?_, ?_⟩
  · rw [IsWho, hw]
    rintro ⟨⟩
  · rw [IsPerm, hp]
    rintro (hp | hn)
    case inl => cases hp
    case inr => cases hn
  · refine fun a _ => ⟨fun hn => hn.elim, fun _ => ?_⟩
    rw [acts_letter, hc]
    rfl

theorem readFrom_one (ht : t.Readable ts) (hp : ReadUpTo first (ts ++ [t]) p') (hr : Reports (t.InContext first ts) p p') :
    ReadFrom first ts [t] p (some p') :=
  ⟨⟨ht, trivial⟩, hp, hr.plusmask, hr.minusmask, hr.messages.imp fun _ h => ⟨h.left, h.right.trans (iff_of_eq <| and_true _).symm⟩⟩

theorem readFrom_unreadable (ht : ¬t.Readable ts) : ReadFrom first ts [t] p none :=
  fun h => ht h.left

theorem readFrom_letter (h : ReadUpTo first ts p) (hd : ¬c.isDigit) :
    ReadFrom first ts [.letter c] p (readToken p (.letter c)) := by
  have hoct : isOctal c = false := Bool.eq_false_iff.mpr fun ho => hd <| isDigit_of_isOctal ho
  cases letterKind c
  case who mask hw hc hp =>
    have hstep : readToken p (.letter c) = some (p.who mask c) := by
      simp only [readToken, modeStep, hw]
    rw [hstep]
    refine readFrom_one ⟨.inl ?_, ?_⟩ ?_ <| reports_check rfl rfl rfl ?_
    · rw [IsWho, hw]
      rfl
    · rw [IsAction, hc]
      rintro ⟨⟩
    · refine h.snoc_letter hc ?_ ?_
      · rw [hw]
        rfl
      · rw [hp]
        exact (BitVec.or_zero).symm
    · rw [checkModeState_eq_none, inContext_who hw hc hp, h.who_iff, h.sort, sortAfter_unmixed]
  case action action hw hc hp =>
    have hact : (ModeToken.letter c).IsAction := by
      rw [IsAction, hc]
      rfl
    cases hgot : p.gotaction
    case true  =>
      have hstep : readToken p (.letter c) = none := by
        simp only [readToken, modeStep, hw, hc, hgot, if_true]
      obtain ⟨a, ha, hacts⟩ := h.gotaction.mp hgot
      rw [hstep]
      exact readFrom_unreadable fun hr => hr.right hact a ha hacts
    case false =>
      have hstep : readToken p (.letter c) = some (p.act action c) := by
        simp only [readToken, modeStep, hw, hc, hgot, Bool.false_eq_true, if_false]
      have hacts : ∀ a ∈ ts, ¬a.Acts := fun a ha hacts => by
        have := h.gotaction.mpr ⟨a, ha, hacts⟩
        rw [hgot] at this
        cases this
      rw [hstep]
      refine readFrom_one ⟨.inr <| .inl hact, fun _ => hacts⟩ (h.snoc_action hw hc hp) <| reports_check rfl rfl rfl ?_
      rw [checkModeState_eq_none, h.who_iff, h.sort, sortAfter_unmixed]
      refine iff_of_true ⟨hacts, fun a ha hn => ?_⟩ <| inContext_action hw hc hp
      exact hacts a (List.mem_of_getLast? ha) <| .inr hn
  case perm hw hc hp =>
    obtain ⟨mask, hmask⟩ := hp p.affected
    have hstep : readToken p (.letter c) = some (p.perm mask c) := by
      simp only [readToken, modeStep, hw, hc, hmask]
    rw [hstep]
    refine readFrom_one ⟨.inr <| .inr ?_, ?_⟩ ?_ <| reports_check rfl rfl rfl ?_
    · obtain ⟨mask, hmask⟩ := hp 0
      rw [IsPerm, hmask]
      rfl
    · rw [IsAction, hc]
      rintro ⟨⟩
    · refine h.snoc_letter hc ?_ ?_
      · rw [hw]
        exact (BitVec.or_zero).symm
      · rw [hmask]
        rfl
    · rw [checkModeState_eq_none, inContext_perm hw hc hp, h.which_iff, h.sort, sortAfter_unmixed]
  case other hw hc hp =>
    have hstep : readToken p (.letter c) = none := by
      simp only [readToken, modeStep, hw, hc, hp, hoct, Bool.false_eq_true, if_false]
    rw [hstep]
    refine readFrom_unreadable fun hr => ?_
    rcases hr.left with hr | hr | hr
    · rw [IsWho, hw] at hr
      cases hr
    · rw [IsAction, hc] at hr
      cases hr
    · rw [IsPerm, hp] at hr
      cases hr

theorem readFrom_number {d : CString} (h : ReadUpTo first ts p) (hd : c.isDigit) :
    ReadFrom first ts [.number (c :: d)] p (readToken p (.number (c :: d))) := by
  have hstep : readToken p (.number (c :: d)) =
      if isOctal c ∧ ¬(0o7777#32).slt (scanOctal (c :: d)) then some (p.number (scanOctal (c :: d)) c) else none := by
    rw [readToken, modeStep_digit hd]
    cases isOctal c
    case false => simp
    case true  =>
      rw [ModeParser.number]
      dsimp only
      cases (0o7777#32).slt (scanOctal (c :: d)) <;> simp
  have hknown : (ModeToken.number (c :: d)).Known ↔ isOctal c ∧ ¬(0o7777#32).slt (scanOctal (c :: d)) := by
    simp [Known]
  rw [hstep]
  split
  case isTrue hk  =>
    refine readFrom_one ⟨hknown.mpr hk, fun ha => ha.elim⟩ h.snoc_number <| reports_check rfl rfl rfl ?_
    rw [checkModeState_eq_none, inContext_number, h.which_iff, h.sort, sortAfter_acting]
  case isFalse hk => exact readFrom_unreadable fun hr => hk <| hknown.mp hr.left

theorem readFrom_token (h : ReadUpTo first ts p) (ht : t.Scanned) : ReadFrom first ts [t] p (readToken p t) := by
  cases ht
  case letter c hc   => exact readFrom_letter h hc
  case number d hne hd =>
    cases d
    case nil      => exact absurd rfl hne
    case cons c d => exact readFrom_number h <| hd c List.mem_cons_self

theorem readFrom_tokens (h : ReadUpTo first ts p) {us : List ModeToken} (hu : ∀ t ∈ us, t.Scanned) :
    ReadFrom first ts us p (readTokens p us) := by
  induction us generalizing ts p
  case nil          =>
    have hread : readTokens p [] = some p := rfl
    rw [hread]
    exact ⟨trivial, (List.append_nil ts).symm ▸ h, rfl, rfl, [], (List.append_nil _).symm, iff_of_true rfl trivial⟩
  case cons t us ih =>
    have hone := readFrom_token h <| hu t List.mem_cons_self
    have ht := fun u hm => hu u <| List.mem_cons_of_mem t hm
    rw [readTokens, List.foldlM_cons]
    cases hread : readToken p t
    case none    =>
      rw [hread] at hone
      exact fun hr => hone ⟨hr.left, trivial⟩
    case some p' =>
      rw [hread] at hone
      obtain ⟨hr, hup, hreports⟩ := hone
      have hrest := ih hup ht
      rw [readTokens] at hrest
      show ReadFrom first ts (t :: us) p (us.foldlM readToken p')
      cases hrest' : us.foldlM readToken p'
      case none     =>
        rw [hrest'] at hrest
        exact fun hn => hrest hn.right
      case some p'' =>
        rw [hrest'] at hrest
        obtain ⟨hr', hup', hreports'⟩ := hrest
        rw [List.append_assoc] at hup'
        refine ⟨⟨hr.left, hr'⟩, hup', ?_⟩
        obtain ⟨hplus, hminus, ms, hms, hq⟩ := hreports.trans hreports'
        exact ⟨hplus, hminus, ms, hms, hq.trans ⟨fun hc => ⟨hc.left.left, hc.right⟩, fun hc => ⟨⟨hc.left, trivial⟩, hc.right⟩⟩⟩

theorem readFrom_clause (h : ReadUpTo first [] p) (s : CString) :
    ReadFrom first [] (modeTokens s) p (readClause p s) :=
  readFrom_tokens h fun _ ht => scanned_of_mem_modeTokens ht

theorem readUpTo_initial : ReadUpTo true [] .initial where
  affected  := rfl
  value     := rfl
  gotaction := iff_of_false (by decide) (by simp)
  which     := by simp
  start     := fun _ => rfl
  sort      := rfl
  action    := rfl

theorem readUpTo_comma (p : ModeParser) : ReadUpTo false [] p.comma where
  affected  := rfl
  value     := rfl
  gotaction := iff_of_false (by simp [ModeParser.comma]) (by simp)
  which     := by simp
  start     := fun _ => rfl
  sort      := rfl
  action    := rfl

end

end CfEngine
