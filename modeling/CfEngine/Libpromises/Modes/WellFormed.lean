import CfEngine.Libpromises.Modes.Sequences

namespace CfEngine

open ModeToken

-- The numeric part of a clause begins with its first digit.
def numericPart (clause : CString) : CString :=
  clause.dropWhile fun c => !c.isDigit

def OctalWithin (digits : CString) : Prop :=
  (∀ c ∈ digits, isOctal c) ∧ Nat.ofDigitChars 8 digits 0 ≤ 0o7777

inductive WellFormedClause : CString → Prop
  | symbolic (c : SymbolicClause) : WellFormedClause c.text
  | numeric {digits : CString} (ne : digits ≠ []) (h : OctalWithin digits) : WellFormedClause digits

def WithinMode (mask : BitVec 32) : Prop :=
  mask &&& 0o7777 = mask

instance {mask : BitVec 32} : Decidable (WithinMode mask) :=
  inferInstanceAs (Decidable (_ = _))

section
variable {s d : CString} {c : Char} {a b : BitVec 32} {t : ModeToken} {ts : List ModeToken}
variable {masks : BitVec 32 × BitVec 32} {l : List CString}

theorem WithinMode.or (ha : WithinMode a) (hb : WithinMode b) : WithinMode (a ||| b) := by
  rw [WithinMode, BitVec.and_or_distrib_right, ha, hb]

theorem WithinMode.and (hb : WithinMode b) : WithinMode (a &&& b) := by
  rw [WithinMode, BitVec.and_assoc, hb]

theorem WithinMode.and_left (ha : WithinMode a) : WithinMode (a &&& b) := by
  rw [BitVec.and_comm]
  exact .and ha

theorem withinMode_whoMask : WithinMode ((whoMask c).getD 0) := by
  unfold whoMask
  split <;> decide

theorem withinMode_permMask : WithinMode ((permMask a c).getD 0) := by
  unfold permMask
  split
  case h_5 => decide
  case h_6 => decide
  all_goals exact .and_left <| by decide

theorem scanOctal_of_within (h : OctalWithin d) : scanOctal d = .ofNat 32 (Nat.ofDigitChars 8 d 0) := by
  have hmin : min (Nat.ofDigitChars 8 d 0) (2 ^ 64 - 1) = Nat.ofDigitChars 8 d 0 := Nat.min_eq_left <| h.right.trans <| by decide
  rw [scanOctal, List.takeWhile_eq_self_iff.mpr h.left, hmin]

theorem withinMode_scanOctal (h : OctalWithin d) : WithinMode (scanOctal d) := by
  have hlt : Nat.ofDigitChars 8 d 0 < 2 ^ 12 := Nat.lt_succ_of_le h.right
  rw [WithinMode, scanOctal_of_within h]
  refine BitVec.eq_of_toNat_eq ?_
  have hpow : ((0o7777 : BitVec 32)).toNat = 2 ^ 12 - 1 := rfl
  rw [BitVec.toNat_and, hpow, BitVec.toNat_ofNat, Nat.mod_eq_of_lt (by omega), Nat.and_two_pow_sub_one_of_lt_two_pow hlt]

theorem not_slt_scanOctal (h : OctalWithin d) : ¬(0o7777#32).slt (scanOctal d) := by
  have hlt : Nat.ofDigitChars 8 d 0 < 2 ^ 12 := Nat.lt_succ_of_le h.right
  rw [scanOctal_of_within h]
  have hnat : (BitVec.ofNat 32 (Nat.ofDigitChars 8 d 0)).toNat = Nat.ofDigitChars 8 d 0 := by
    rw [BitVec.toNat_ofNat, Nat.mod_eq_of_lt (by omega)]
  have hn : (BitVec.ofNat 32 (Nat.ofDigitChars 8 d 0)).toInt = (Nat.ofDigitChars 8 d 0 : Int) := by
    rw [BitVec.toInt_eq_toNat_of_lt (by omega), hnat]
  have hlimit : (0o7777#32).toInt = 4095 := by decide
  rw [BitVec.slt, hn, hlimit, decide_eq_true_eq]
  omega

-- A number of a clause is the whole of its numeric part, if that has digits only.
theorem eq_numericPart (h : ∀ c ∈ numericPart s, isOctal c) (hd : .number d ∈ modeTokens s) : d = numericPart s := by
  induction s using modeTokens.induct
  case case1           =>
    rw [modeTokens] at hd
    cases hd
  case case2 c s hc ih =>
    have hpart : numericPart (c :: s) = c :: s := List.dropWhile_cons_of_neg <| by simp [hc]
    rw [hpart] at h ⊢
    have hs : ∀ e ∈ s, e.isDigit := fun e he => isDigit_of_isOctal <| h e <| List.mem_cons_of_mem c he
    have hdrop : s.dropWhile Char.isDigit = [] := List.dropWhile_eq_nil_iff.mpr hs
    rw [modeTokens, if_pos hc, hdrop, modeTokens, List.takeWhile_eq_self_iff.mpr hs, List.mem_singleton] at hd
    cases hd
    rfl
  case case3 c s hc ih =>
    have hpart : numericPart (c :: s) = numericPart s := List.dropWhile_cons_of_pos <| by simp [hc]
    rw [hpart] at h ⊢
    rw [modeTokens, if_neg hc, List.mem_cons] at hd
    exact ih h <| hd.resolve_left <| by rintro ⟨⟩

theorem withinMode_reach (h : ∀ d, .number d ∈ ts → OctalWithin d) : WithinMode (reach ts).1 ∧ WithinMode (reach ts).2 := by
  induction ts using List.reverseRecOn
  case nil               => exact ⟨by decide, by decide⟩
  case append_singleton ts t ih =>
    have ih := ih fun d hd => h d <| List.mem_append_left _ hd
    rw [reach_snoc]
    cases t
    case letter c => exact ⟨ih.left.or withinMode_whoMask, ih.right.or withinMode_permMask⟩
    case number d =>
      have hall : WithinMode 0o7777 := by decide
      exact ⟨hall, withinMode_scanOctal <| h d <| List.mem_append_right _ <| List.mem_singleton.mpr rfl⟩

theorem withinMode_setModeMask {action : ModeAction} {value affected : BitVec 32} (hvalue : WithinMode value)
    (haffected : WithinMode affected) (hp : WithinMode a) (hm : WithinMode b) :
    WithinMode (setModeMask action value affected a b).1 ∧ WithinMode (setModeMask action value affected a b).2 := by
  cases action
  case plus   => exact ⟨hp.or hvalue, hm⟩
  case minus  => exact ⟨hp, hm.or hvalue⟩
  case assign => exact ⟨hp.or hvalue, hm.or <| .and haffected⟩

theorem withinMode_clauses (h : ∀ t ∈ l, OctalWithin (numericPart t)) (hp : WithinMode masks.1) (hm : WithinMode masks.2) :
    WithinMode (l.foldl clauseMasks masks).1 ∧ WithinMode (l.foldl clauseMasks masks).2 := by
  induction l generalizing masks
  case nil         => exact ⟨hp, hm⟩
  case cons t l ih =>
    have ht := h t List.mem_cons_self
    have hreach := @withinMode_reach (modeTokens t) fun d hd => eq_numericPart ht.left hd ▸ ht
    refine ih (fun u hu => h u <| List.mem_cons_of_mem t hu) ?_ ?_
    · exact (withinMode_setModeMask hreach.right hreach.left hp hm).left
    · exact (withinMode_setModeMask hreach.right hreach.left hp hm).right

theorem WellFormedClause.readable (h : WellFormedClause s) : ReadableClause s := by
  cases h
  case symbolic c     => exact c.readableClause_text
  case numeric hne h =>
    obtain ⟨c, d, rfl⟩ := List.exists_cons_of_ne_nil hne
    have hdigits : ∀ e ∈ d, e.isDigit := fun e he => isDigit_of_isOctal <| h.left e <| List.mem_cons_of_mem c he
    have hc := h.left c List.mem_cons_self
    have htokens : modeTokens (c :: d) = [.number (c :: d)] := by
      rw [modeTokens, if_pos <| isDigit_of_isOctal hc, List.dropWhile_eq_nil_iff.mpr hdigits, modeTokens,
        List.takeWhile_eq_self_iff.mpr hdigits]
    rw [ReadableClause, htokens]
    exact ⟨⟨⟨⟨c, rfl, hc⟩, not_slt_scanOctal h⟩, fun ha => ha.elim⟩, trivial⟩

end

def SymbolicClause.userNothing : SymbolicClause :=
  { userReads with perms := [], perms_ne := .inr rfl, perms_mask := List.forall_mem_nil _ }

-- A string is accepted only if it is well-formed, and a well-formed one is accepted, if and only if in a string that
-- the scan gets through each token is in its context, and the numbers are within the limit, and the last
-- clause of a well-formed one grants something.
theorem parseModeString_wellFormed_iff (s : CString) :
    ((parseModeString <| some s).accepted →
        (parseModeString <| some s).messages = [] ∧ (∀ t ∈ s.splitOn ',', OctalWithin (numericPart t)) ∧
          WithinMode (parseModeString <| some s).plusmask ∧ WithinMode (parseModeString <| some s).minusmask) ∧
        ((∀ t ∈ s.splitOn ',', WellFormedClause t) → (parseModeString <| some s).accepted) ↔
      ((∀ t ∈ s.splitOn ',', ReadableClause t) ∧ Effective s →
        ModeInContext s ∧ ∀ t ∈ s.splitOn ',', OctalWithin (numericPart t)) ∧
        ((∀ t ∈ s.splitOn ',', WellFormedClause t) → Effective s) := by
  obtain ⟨haccepted, hmasks, hmessages⟩ := parseModeString_outcome s
  rw [←haccepted]
  constructor
  case mp  =>
    rintro ⟨hsound, hcomplete⟩
    refine ⟨fun ha => ⟨(hmessages ha).mp (hsound ha).left, (hsound ha).right.left⟩, fun hw => ?_⟩
    exact (haccepted.mp <| hcomplete hw).right
  case mpr =>
    rintro ⟨hsound, hcomplete⟩
    refine ⟨fun ha => ?_, fun hw => haccepted.mpr ⟨fun t ht => (hw t ht).readable, hcomplete hw⟩⟩
    obtain ⟨hcontext, hwithin⟩ := hsound ha
    have hm := @withinMode_clauses (0, 0) _ hwithin (by decide) (by decide)
    rw [←hmasks ha] at hm
    exact ⟨(hmessages ha).mpr hcontext, hwithin, hm⟩

-- An assignment without permissions is well-formed.
theorem not_parseModeString_wellFormed : ¬∀ s : CString,
    ((parseModeString <| some s).accepted →
        (parseModeString <| some s).messages = [] ∧ (∀ t ∈ s.splitOn ',', OctalWithin (numericPart t)) ∧
          WithinMode (parseModeString <| some s).plusmask ∧ WithinMode (parseModeString <| some s).minusmask) ∧
      ((∀ t ∈ s.splitOn ',', WellFormedClause t) → (parseModeString <| some s).accepted) := by
  intro h
  have hne : [SymbolicClause.userNothing] ≠ [] := by decide
  have hsplit := clausesText_splitOn hne
  have haccepted := (h <| clausesText [.userNothing]).right fun t ht => by
    rw [hsplit] at ht
    exact List.mem_singleton.mp ht ▸ .symbolic .userNothing
  have heffective := ((parseModeString_outcome _).accepted.mp haccepted).right
  simp only [Effective, hsplit, List.map_cons, List.map_nil, List.getLast_singleton] at heffective
  obtain ⟨_, hgrants⟩ | hzero := heffective
  case inl => exact absurd ((SymbolicClause.userNothing).grants_text.mp hgrants) (by decide)
  case inr => exact absurd hzero (by decide)

end CfEngine
