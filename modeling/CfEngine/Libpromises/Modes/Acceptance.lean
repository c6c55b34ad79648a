import CfEngine.Libpromises.Modes.Contexts

namespace CfEngine

open ModeToken

-- The scan of a string is that of its clauses, with the work of the commas between them.
def readClauses (p : ModeParser) (s : CString) : List CString → Option ModeParser
  | []      => readClause p s
  | s' :: l => (readClause p s).bind fun p => readClauses p.comma s' l

-- The masks after a clause has been added to them.
def clauseMasks (masks : BitVec 32 × BitVec 32) (clause : CString) : BitVec 32 × BitVec 32 :=
  let (affected, value) := reach (modeTokens clause)
  setModeMask ((modeTokens clause).foldl actionAfter .assign) value affected masks.1 masks.2

def ReadableClause (clause : CString) : Prop :=
  Along Readable [] (modeTokens clause)

def ClauseInContext (first : Bool) (clause : CString) : Prop :=
  Along (InContext first) [] (modeTokens clause)

def affectedBy (ts : List ModeToken) : BitVec 32 :=
  ts.foldl affect 0

def ModeInContext (s : CString) : Prop :=
  ∀ first ∈ (s.splitOn ',').head?, ClauseInContext true first ∧ ∀ t ∈ (s.splitOn ',').tail, ClauseInContext false t

-- A token grants a permission, and no number comes after it.
def Grants (ts : List ModeToken) : Prop :=
  ∃ l t r, ts = l ++ t :: r ∧ (∀ n ∈ r, ¬n.IsNumber) ∧ t.grant (affectedBy l) ≠ 0

-- The last clause has an operator or a number, which the only one need not, and grants something. Otherwise
-- the string is one of the numbers that may be zero.
def Effective (s : CString) : Prop :=
  let last := modeTokens <| (s.splitOn ',').getLast <| List.splitOn_ne_nil ',' s
  (((s.splitOn ',').length = 1 ∨ ∃ t ∈ last, t.Acts) ∧ Grants last) ∨ s = ['0', '0', '0', '0'] ∨ s = ['0', '0', '0']

-- What has been read of the clauses, with what has been reported so far.
structure ReadClauses (first : Bool) (s : CString) (l : List CString) (p p' : ModeParser) : Prop where
  last     : ReadUpTo (first && l.isEmpty) (modeTokens <| (s :: l).getLast <| List.cons_ne_nil s l) p'
  masks    : setModeMask p'.action p'.value p'.affected p'.plusmask p'.minusmask =
    (s :: l).foldl clauseMasks (p.plusmask, p.minusmask)
  messages : ∃ messages, p'.messages = p.messages ++ messages ∧
    (messages = [] ↔ ClauseInContext first s ∧ ∀ s' ∈ l, ClauseInContext false s')

section
variable {p p' : ModeParser} {s ms : CString} {l : List CString} {first : Bool} {t : ModeToken} {ts : List ModeToken}

theorem scanMode_nil : scanMode ms p [] = p.finish ms := by
  rw [scanMode]

theorem scanMode_comma : scanMode ms p (',' :: s) = scanMode ms p.comma s := by
  rw [scanMode, if_pos rfl]

theorem scanMode_clauses (hl : ∀ t ∈ s :: l, ',' ∉ t) :
    match readClauses p s l with
    | some p' => scanMode ms p ([','].intercalate (s :: l)) = p'.finish ms
    | none    => (scanMode ms p ([','].intercalate (s :: l))).accepted = false := by
  induction l generalizing p s
  case nil          =>
    have hscan := @scanMode_clause p s [] ms (hl s List.mem_cons_self) (by simp)
    rw [List.append_nil] at hscan
    rw [List.intercalate_singleton, readClauses]
    cases hread : readClause p s
    case none    => rwa [hread] at hscan
    case some p' =>
      rw [hread] at hscan
      exact hscan.trans scanMode_nil
  case cons s' l ih =>
    have hscan := @scanMode_clause p s (',' :: [','].intercalate (s' :: l)) ms (hl s List.mem_cons_self) (by simp)
    rw [List.intercalate_cons_cons, List.append_assoc, readClauses]
    cases hread : readClause p s
    case none    => rwa [hread] at hscan
    case some p' =>
      rw [hread] at hscan
      have ih := @ih p'.comma s' fun t ht => hl t <| List.mem_cons_of_mem s ht
      dsimp only at hscan
      rw [List.singleton_append, hscan, scanMode_comma]
      exact ih

theorem clauseMasks_of_readUpTo (h : ReadUpTo first (modeTokens s) p) {plus minus : BitVec 32} :
    setModeMask p.action p.value p.affected plus minus = clauseMasks (plus, minus) s := by
  rw [clauseMasks, h.action, h.value, h.affected]

theorem readClauses_outcome (h : ReadUpTo first [] p) :
    match readClauses p s l with
    | some p' => (∀ t ∈ s :: l, ReadableClause t) ∧ ReadClauses first s l p p'
    | none    => ¬∀ t ∈ s :: l, ReadableClause t := by
  induction l generalizing p s first
  case nil          =>
    have hread := readFrom_clause h s
    rw [readClauses]
    cases hp : readClause p s
    case none    =>
      rw [hp] at hread
      exact fun hn => hread <| hn s List.mem_cons_self
    case some p' =>
      rw [hp] at hread
      obtain ⟨hr, hup, hreports⟩ := hread
      rw [List.nil_append] at hup
      refine ⟨List.forall_mem_singleton.mpr hr, ?_, ?_, ?_⟩
      · rwa [List.isEmpty_nil, Bool.and_true]
      · rw [clauseMasks_of_readUpTo hup, hreports.plusmask, hreports.minusmask]
        rfl
      · obtain ⟨messages, hms, hq⟩ := hreports.messages
        exact ⟨messages, hms, hq.trans (by simp [ClauseInContext])⟩
  case cons s' l ih =>
    have hread := readFrom_clause h s
    rw [readClauses]
    cases hp : readClause p s
    case none    =>
      rw [hp] at hread
      exact fun hn => hread <| hn s List.mem_cons_self
    case some p' =>
      rw [hp] at hread
      obtain ⟨hr, hup, hreports⟩ := hread
      rw [List.nil_append] at hup
      have ih := @ih p'.comma s' false <| readUpTo_comma p'
      show match readClauses p'.comma s' l with
        | some p'' => _
        | none     => _
      cases hp' : readClauses p'.comma s' l
      case none     =>
        rw [hp'] at ih
        exact fun hn => ih fun t ht => hn t <| List.mem_cons_of_mem s ht
      case some p'' =>
        rw [hp'] at ih
        obtain ⟨hrs, hlast, hmasks, messages', hms', hq'⟩ := ih
        obtain ⟨messages, hms, hq⟩ := hreports.messages
        refine ⟨List.forall_mem_cons.mpr ⟨hr, hrs⟩, ?_, ?_, messages ++ messages', ?_, ?_⟩
        · rw [List.isEmpty_cons, Bool.and_false]
          rwa [Bool.false_and] at hlast
        · have hcomma : (p'.comma.plusmask, p'.comma.minusmask) = clauseMasks (p.plusmask, p.minusmask) s := by
            rw [←hreports.plusmask, ←hreports.minusmask, ←clauseMasks_of_readUpTo hup]
            rfl
          rw [hmasks, hcomma]
          rfl
        · rw [hms', ←List.append_assoc, ←hms]
          rfl
        · rw [List.append_eq_nil_iff, hq, hq', List.forall_mem_cons]
          rfl

theorem comma_notMem_splitOn : ∀ t ∈ s.splitOn ',', ',' ∉ t := by
  induction s
  case nil         => simp
  case cons c s ih =>
    rw [List.splitOn_cons_eq_if_modifyHead]
    split
    case isTrue  => simpa using ih
    case isFalse hc =>
      obtain ⟨u, us, hu⟩ := List.exists_cons_of_ne_nil <| List.splitOn_ne_nil ',' s
      rw [hu, List.forall_mem_cons] at ih
      rw [hu, List.modifyHead_cons, List.forall_mem_cons, List.mem_cons]
      exact ⟨fun hm => hm.elim (fun he => hc <| beq_iff_eq.mpr he.symm) ih.left, ih.right⟩

theorem reach_affected : (reach ts).1 = affectedBy ts := by
  induction ts using List.reverseRecOn
  case nil               => rfl
  case append_singleton ts t ih =>
    rw [reach_snoc, affectedBy, List.foldl_append, ←affectedBy, ←ih]
    cases t <;> rfl

theorem grants_snoc : Grants (ts ++ [t]) ↔ t.grant (affectedBy ts) ≠ 0 ∨ ¬t.IsNumber ∧ Grants ts := by
  constructor
  case mp  =>
    rintro ⟨l, u, r, he, hr, hg⟩
    cases r using List.reverseRecOn
    case nil =>
      obtain ⟨rfl, hu⟩ := List.append_inj' he rfl
      cases hu
      exact .inl hg
    case append_singleton r v =>
      rw [←List.cons_append, ←List.append_assoc] at he
      obtain ⟨rfl, hu⟩ := List.append_inj' he rfl
      cases hu
      exact .inr ⟨hr t (by simp), l, u, _, rfl, fun n hn => hr n <| List.mem_append_left _ hn, hg⟩
  case mpr =>
    rintro (hg | ⟨ht, l, u, r, rfl, hr, hg⟩)
    case inl => exact ⟨ts, t, [], rfl, by simp, hg⟩
    case inr =>
      refine ⟨l, u, r ++ [t], by simp, fun n hn => ?_, hg⟩
      cases List.mem_append.mp hn
      case inl hn => exact hr n hn
      case inr hn => exact List.mem_singleton.mp hn ▸ ht

theorem reach_value_ne_zero_iff : (reach ts).2 ≠ 0 ↔ Grants ts := by
  induction ts using List.reverseRecOn
  case nil               => simp [reach, Grants]
  case append_singleton ts t ih =>
    rw [reach_snoc, grants_snoc, ←ih, ←reach_affected]
    cases t
    case letter c => simp [reachStep, IsNumber, BitVec.or_eq_zero_iff]; tauto
    case number d => simp [reachStep, IsNumber]

theorem effective_iff (hs : ms.splitOn ',' = s :: l) :
    Effective ms ↔
      (((s :: l).length = 1 ∨ ∃ t ∈ modeTokens ((s :: l).getLast <| List.cons_ne_nil s l), t.Acts) ∧
        Grants (modeTokens <| (s :: l).getLast <| List.cons_ne_nil s l)) ∨ ms = ['0', '0', '0', '0'] ∨ ms = ['0', '0', '0'] := by
  rw [Effective]
  simp only [hs]

theorem not_refused_iff (h : ReadUpTo first ts p) :
    ¬((p.state = .who ∨ p.value = 0) ∧ ms ≠ ['0', '0', '0', '0'] ∧ ms ≠ ['0', '0', '0']) ↔
      ((first ∨ ∃ t ∈ ts, t.Acts) ∧ Grants ts) ∨ ms = ['0', '0', '0', '0'] ∨ ms = ['0', '0', '0'] := by
  have hstate : p.state = .who ↔ ¬(first ∨ ∃ t ∈ ts, t.Acts) := by
    by_cases hacts : ∃ t ∈ ts, t.Acts
    case pos => simp [h.which hacts, hacts]
    case neg =>
      rw [h.start hacts]
      cases first <;> simp [hacts]
  have hvalue : p.value = 0 ↔ ¬Grants ts := by
    rw [←reach_value_ne_zero_iff, h.value, not_not]
  rw [hstate, hvalue, not_and_or, not_or, not_not, not_not, not_and_or, not_ne_iff, not_ne_iff]

-- What is returned for a string with these clauses.
structure ParseOutcome (s : CString) (r : ModeResult) : Prop where
  accepted : r.accepted ↔ (∀ t ∈ s.splitOn ',', ReadableClause t) ∧ Effective s
  masks    : r.accepted → (r.plusmask, r.minusmask) = (s.splitOn ',').foldl clauseMasks (0, 0)
  messages : r.accepted → (r.messages = [] ↔ ModeInContext s)

theorem parseModeString_outcome (s : CString) : ParseOutcome s (parseModeString (some s)) := by
  obtain ⟨u, us, hs⟩ := List.exists_cons_of_ne_nil <| List.splitOn_ne_nil ',' s
  have hcomma := @comma_notMem_splitOn s
  have htext : [','].intercalate (u :: us) = s := hs ▸ List.intercalate_splitOn ','
  have hscan := @scanMode_clauses .initial u s us (hs ▸ hcomma)
  have hread := @readClauses_outcome .initial u us true readUpTo_initial
  rw [htext] at hscan
  rw [parseModeString]
  cases hp : readClauses .initial u us
  case none   =>
    rw [hp] at hscan hread
    have hnot : ¬(scanMode s .initial s).accepted := Bool.eq_false_iff.mp hscan
    refine ⟨iff_of_false hnot fun h => hread <| hs ▸ h.left, fun h => absurd h hnot, fun h => absurd h hnot⟩
  case some p =>
    rw [hp] at hscan hread
    obtain ⟨hr, hlast, hmasks, messages, hms, hq⟩ := hread
    have hrefused := @not_refused_iff p s _ _ hlast
    have hone : (true && us.isEmpty) = true ↔ (u :: us).length = 1 := by
      cases us <;> simp
    rw [hone, ←effective_iff hs] at hrefused
    dsimp only at hscan
    rw [hscan, ModeParser.finish]
    split
    case isTrue hfin  =>
      have hnot : ¬p.reject.accepted := by
        rintro ⟨⟩
      exact ⟨iff_of_false hnot fun h => hrefused.mpr h.right hfin, fun h => absurd h hnot, fun h => absurd h hnot⟩
    case isFalse hfin =>
      refine ⟨iff_of_true rfl ⟨hs ▸ hr, hrefused.mp hfin⟩, fun _ => hs ▸ hmasks, fun _ => ?_⟩
      rw [ModeInContext, hs]
      show p.messages = [] ↔ _
      rw [hms]
      simpa [ModeParser.initial] using hq

end

end CfEngine
