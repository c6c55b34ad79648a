import CfEngine.Libpromises.Modes.Acceptance
import CfEngine.Library.Masking

namespace CfEngine

open ModeToken

-- Classes, an operator and permissions, which may be missing after an assignment.
structure SymbolicClause where
  who        : CString
  op         : Char
  perms      : CString
  who_ne     : who ≠ []
  who_mask   : ∀ c ∈ who, (whoMask c).isSome
  op_action  : (modeAction op).isSome
  perms_ne   : perms ≠ [] ∨ op = '='
  perms_mask : ∀ c ∈ perms, (permMask 0 c).isSome

namespace SymbolicClause

def text (c : SymbolicClause) : CString :=
  c.who ++ c.op :: c.perms

def affects (c : SymbolicClause) : BitVec 32 :=
  c.who.foldl (fun a w => a ||| (whoMask w).getD 0) 0

def grants (c : SymbolicClause) : BitVec 32 :=
  c.perms.foldl (fun v p => v ||| (permMask c.affects p).getD 0) 0

def action (c : SymbolicClause) : ModeAction :=
  (modeAction c.op).get c.op_action

-- Permissions are added, taken away, or they replace those of the classes.
def apply (c : SymbolicClause) (mode : BitVec 32) : BitVec 32 :=
  match c.action with
  | .plus   => mode ||| c.grants
  | .minus  => mode &&& ~~~c.grants
  | .assign => (mode &&& ~~~c.affects) ||| c.grants

def sets (c : SymbolicClause) : BitVec 32 :=
  match c.action with
  | .plus | .assign => c.grants
  | .minus          => 0

def clears (c : SymbolicClause) : BitVec 32 :=
  match c.action with
  | .plus   => 0
  | .minus  => c.grants
  | .assign => ~~~c.grants &&& c.affects

end SymbolicClause

def clausesText (cs : List SymbolicClause) : CString :=
  [','].intercalate (cs.map SymbolicClause.text)

def applyClauses (cs : List SymbolicClause) (mode : BitVec 32) : BitVec 32 :=
  cs.foldl (fun m c => c.apply m) mode

def setsOf : List SymbolicClause → BitVec 32
  | []      => 0
  | c :: cs => c.sets ||| setsOf cs

def clearsOf : List SymbolicClause → BitVec 32
  | []      => 0
  | c :: cs => c.clears ||| clearsOf cs

-- No clause sets a bit that an earlier one clears, unless it is cleared again by a clause after that one.
def SettledClauses : List SymbolicClause → Prop
  | []      => True
  | c :: cs => c.clears &&& setsOf cs &&& ~~~clearsOf cs = 0 ∧ SettledClauses cs

section
variable {c : SymbolicClause} {cs : List SymbolicClause} {ch : Char} {s r : CString} {mode : BitVec 32} {i : Nat}
variable {masks : BitVec 32 × BitVec 32}

theorem not_isDigit_of_isSome {affected : BitVec 32}
    (h : (whoMask ch).isSome ∨ (modeAction ch).isSome ∨ (permMask affected ch).isSome) : ¬ch.isDigit := by
  intro hd
  rw [whoMask_digit hd, modeAction_digit hd, permMask_digit hd] at h
  simp at h

theorem modeTokens_letters (h : ∀ ch ∈ s, ¬ch.isDigit) : modeTokens s = s.map .letter := by
  induction s
  case nil          => rw [modeTokens, List.map_nil]
  case cons ch s ih =>
    have hs := fun d hd => h d <| List.mem_cons_of_mem ch hd
    rw [modeTokens, if_neg <| h ch List.mem_cons_self, ih hs, List.map_cons]

namespace SymbolicClause

theorem modeTokens_text (c : SymbolicClause) :
    modeTokens c.text = c.who.map .letter ++ .letter c.op :: c.perms.map .letter := by
  have hdigits : ∀ ch ∈ c.text, ¬ch.isDigit := by
    intro ch hm
    refine @not_isDigit_of_isSome ch 0 ?_
    rcases List.mem_append.mp hm with hm | hm
    · exact .inl <| c.who_mask ch hm
    · rcases List.mem_cons.mp hm with hm | hm
      · exact hm ▸ .inr (.inl c.op_action)
      · exact .inr <| .inr <| c.perms_mask ch hm
  rw [modeTokens_letters hdigits, text, List.map_append, List.map_cons]

end SymbolicClause

theorem reach_who {affected value : BitVec 32} (h : ∀ ch ∈ s, (whoMask ch).isSome) :
    (s.map ModeToken.letter).foldl (fun r t => reachStep r.1 r.2 t) (affected, value) =
      (s.foldl (fun a w => a ||| (whoMask w).getD 0) affected, value) := by
  induction s generalizing affected
  case nil          => rfl
  case cons ch s ih =>
    have ih := @ih (affected ||| (whoMask ch).getD 0) fun d hd => h d <| List.mem_cons_of_mem ch hd
    have hstep : reachStep affected value (.letter ch) = (affected ||| (whoMask ch).getD 0, value) := by
      have hsome := h ch List.mem_cons_self
      cases letterKind ch
      case who _ _ hp     => simp [reachStep, affect, grant, hp]
      case action hw _ _  => simp [hw] at hsome
      case perm hw _ _    => simp [hw] at hsome
      case other hw _ _   => simp [hw] at hsome
    rw [List.map_cons, List.foldl_cons, hstep, ih, List.foldl_cons]

theorem reach_perms {affected value : BitVec 32} (h : ∀ ch ∈ s, (permMask 0 ch).isSome) :
    (s.map ModeToken.letter).foldl (fun r t => reachStep r.1 r.2 t) (affected, value) =
      (affected, s.foldl (fun v p => v ||| (permMask affected p).getD 0) value) := by
  induction s generalizing value
  case nil          => rfl
  case cons ch s ih =>
    have ih := @ih (value ||| (permMask affected ch).getD 0) fun d hd => h d <| List.mem_cons_of_mem ch hd
    have hstep : reachStep affected value (.letter ch) = (affected, value ||| (permMask affected ch).getD 0) := by
      have hsome := h ch List.mem_cons_self
      cases letterKind ch
      case who _ _ _ hp    => simp [hp] at hsome
      case action _ _ _ hp => simp [hp] at hsome
      case perm hw _ _     => simp [reachStep, affect, grant, hw]
      case other _ _ hp    => simp [hp] at hsome
    rw [List.map_cons, List.foldl_cons, hstep, ih, List.foldl_cons]

theorem actionAfter_letters {action : ModeAction} (h : ∀ ch ∈ s, modeAction ch = none) :
    (s.map ModeToken.letter).foldl actionAfter action = action := by
  induction s
  case nil          => rfl
  case cons ch s ih =>
    have hstep : actionAfter action (.letter ch) = action := by
      rw [actionAfter, h ch List.mem_cons_self]
      rfl
    rw [List.map_cons, List.foldl_cons, hstep, ih fun d hd => h d <| List.mem_cons_of_mem ch hd]

theorem modeAction_of_who (h : (whoMask ch).isSome) : modeAction ch = none := by
  cases letterKind ch
  case who _ _ ha _   => exact ha
  case action hw _ _  => simp [hw] at h
  case perm hw _ _    => simp [hw] at h
  case other hw _ _   => simp [hw] at h

theorem modeAction_of_perm (h : (permMask 0 ch).isSome) : modeAction ch = none := by
  cases letterKind ch
  case who _ _ _ hp    => simp [hp] at h
  case action _ _ _ hp => simp [hp] at h
  case perm ha _       => exact ha
  case other _ _ hp    => simp [hp] at h

namespace SymbolicClause

theorem zero_getLsbD : (0 : BitVec 32).getLsbD i = false :=
  BitVec.getLsbD_zero

-- The clause as a switch for one of the bits.
def switch (c : SymbolicClause) (i : Nat) : Switch where
  set      := c.sets.getLsbD i
  clear    := c.clears.getLsbD i
  disjoint := by
    unfold sets clears
    cases c.action
    case plus   => exact Bool.and_eq_false_imp.mpr fun _ => zero_getLsbD
    case minus  => exact Bool.and_eq_false_imp.mpr fun h => absurd (zero_getLsbD.symm.trans h) (by decide)
    case assign =>
      dsimp only
      rw [BitVec.getLsbD_and, BitVec.getLsbD_not]
      cases c.grants.getLsbD i <;> simp

theorem apply_getLsbD (c : SymbolicClause) : (c.apply mode).getLsbD i = (c.switch i).apply (mode.getLsbD i) := by
  have hi : mode.getLsbD i = true → i < 32 := BitVec.lt_of_getLsbD
  have hg : c.grants.getLsbD i = true → i < 32 := BitVec.lt_of_getLsbD
  show (c.apply mode).getLsbD i = ((mode.getLsbD i || c.sets.getLsbD i) && !c.clears.getLsbD i)
  unfold apply sets clears
  cases c.action
  case plus   => simp only [BitVec.getLsbD_or, zero_getLsbD, Bool.not_false, Bool.and_true]
  case minus  =>
    simp only [BitVec.getLsbD_and, BitVec.getLsbD_not, zero_getLsbD, Bool.or_false]
    grind
  case assign =>
    simp only [BitVec.getLsbD_and, BitVec.getLsbD_or, BitVec.getLsbD_not]
    grind

theorem reach_text (c : SymbolicClause) : reach (modeTokens c.text) = (c.affects, c.grants) := by
  have hop : reachStep c.affects 0 (.letter c.op) = (c.affects, 0) := by
    have hsome := c.op_action
    cases letterKind c.op
    case who _ _ ha _     => simp [ha] at hsome
    case action _ hw _ hp => simp [reachStep, affect, grant, hw, hp]
    case perm _ ha _      => simp [ha] at hsome
    case other _ ha _     => simp [ha] at hsome
  rw [reach, modeTokens_text, List.foldl_append, reach_who c.who_mask, List.foldl_cons]
  rw [←affects, hop, reach_perms c.perms_mask, grants]

theorem action_text (c : SymbolicClause) : (modeTokens c.text).foldl actionAfter .assign = c.action := by
  have hop : actionAfter .assign (.letter c.op) = c.action := by
    obtain ⟨action, ha⟩ := Option.isSome_iff_exists.mp c.op_action
    simp [actionAfter, SymbolicClause.action, ha]
  rw [modeTokens_text, List.foldl_append, actionAfter_letters fun ch hm => modeAction_of_who <| c.who_mask ch hm,
    List.foldl_cons, hop, actionAfter_letters fun ch hm => modeAction_of_perm <| c.perms_mask ch hm]

theorem readableClause_text (c : SymbolicClause) : ReadableClause c.text := by
  have hwho : ∀ before, ∀ t ∈ c.who.map ModeToken.letter, Readable before t := by
    intro before t ht
    obtain ⟨w, hw, rfl⟩ := List.mem_map.mp ht
    have hmask := c.who_mask w hw
    refine ⟨.inl hmask, fun ha => ?_⟩
    rw [IsAction, modeAction_of_who hmask] at ha
    cases ha
  have hperms : ∀ before, ∀ t ∈ c.perms.map ModeToken.letter, Readable before t := by
    intro before t ht
    obtain ⟨w, hw, rfl⟩ := List.mem_map.mp ht
    have hmask := c.perms_mask w hw
    refine ⟨.inr <| .inr hmask, fun ha => ?_⟩
    rw [IsAction, modeAction_of_perm hmask] at ha
    cases ha
  have hacts : ∀ a ∈ c.who.map ModeToken.letter, ¬a.Acts := by
    intro a ha
    obtain ⟨w, hw, rfl⟩ := List.mem_map.mp ha
    rw [acts_letter, modeAction_of_who <| c.who_mask w hw]
    rintro ⟨⟩
  rw [ReadableClause, modeTokens_text, along_append]
  exact ⟨along_of_forall hwho, ⟨.inr <| .inl c.op_action, fun _ => hacts⟩, along_of_forall hperms⟩

theorem acts_text (c : SymbolicClause) : ∃ t ∈ modeTokens c.text, t.Acts := by
  refine ⟨.letter c.op, ?_, acts_letter.mpr c.op_action⟩
  rw [modeTokens_text]
  exact List.mem_append_right _ List.mem_cons_self

theorem grants_text (c : SymbolicClause) : Grants (modeTokens c.text) ↔ c.grants ≠ 0 := by
  rw [←reach_value_ne_zero_iff, reach_text]

theorem affects_within (c : SymbolicClause) : 0o7777 &&& c.affects = c.affects := by
  have hfold : ∀ (s : CString) (a : BitVec 32), 0o7777 &&& a = a →
      0o7777 &&& s.foldl (fun a w => a ||| (whoMask w).getD 0) a = s.foldl (fun a w => a ||| (whoMask w).getD 0) a := by
    intro s
    induction s
    case nil         => exact fun a ha => ha
    case cons w s ih =>
      refine fun a ha => ih _ ?_
      have hw : 0o7777 &&& (whoMask w).getD 0 = (whoMask w).getD 0 := by
        unfold whoMask
        split <;> decide
      rw [BitVec.and_or_distrib_left, ha, hw]
  exact hfold c.who 0 rfl

theorem clauseMasks_text (c : SymbolicClause) : clauseMasks masks c.text = (masks.1 ||| c.sets, masks.2 ||| c.clears) := by
  rw [clauseMasks, reach_text, action_text, sets, clears]
  cases c.action
  case plus   => simp [setModeMask]
  case minus  => simp [setModeMask]
  case assign => simp only [setModeMask, BitVec.and_assoc, affects_within]

end SymbolicClause

theorem foldl_clauseMasks : (cs.map SymbolicClause.text).foldl clauseMasks masks =
    (masks.1 ||| setsOf cs, masks.2 ||| clearsOf cs) := by
  induction cs generalizing masks
  case nil          => simp [setsOf, clearsOf]
  case cons c cs ih =>
    rw [List.map_cons, List.foldl_cons, c.clauseMasks_text, ih, setsOf, clearsOf, BitVec.or_assoc, BitVec.or_assoc]

theorem clausesText_splitOn (hne : cs ≠ []) : (clausesText cs).splitOn ',' = cs.map SymbolicClause.text := by
  refine List.splitOn_intercalate ',' (fun t ht => ?_) (by simpa using hne)
  obtain ⟨c, _, rfl⟩ := List.mem_map.mp ht
  intro hm
  rcases List.mem_append.mp hm with hm | hm
  · exact absurd (c.who_mask _ hm) (by decide)
  · rcases List.mem_cons.mp hm with hm | hm
    · exact absurd (hm ▸ c.op_action) (by decide)
    · exact absurd (c.perms_mask _ hm) (by decide)

theorem sets_getLsbD : (setsOf cs).getLsbD i = Switch.sets (cs.map (·.switch i)) := by
  induction cs
  case nil          => simp [setsOf, Switch.sets]
  case cons c cs ih => rw [setsOf, BitVec.getLsbD_or, ih, List.map_cons, Switch.sets_cons]; rfl

theorem clears_getLsbD : (clearsOf cs).getLsbD i = Switch.clears (cs.map (·.switch i)) := by
  induction cs
  case nil          => simp [clearsOf, Switch.clears]
  case cons c cs ih => rw [clearsOf, BitVec.getLsbD_or, ih, List.map_cons, Switch.clears_cons]; rfl

theorem applyClauses_getLsbD : (applyClauses cs mode).getLsbD i = Switch.run (cs.map (·.switch i)) (mode.getLsbD i) := by
  induction cs generalizing mode
  case nil          => rfl
  case cons c cs ih =>
    have ih := @ih (c.apply mode)
    rw [c.apply_getLsbD] at ih
    exact ih

theorem eq_iff_getLsbD {a b : BitVec 32} : a = b ↔ ∀ i < 32, a.getLsbD i = b.getLsbD i :=
  ⟨fun h _ _ => h ▸ rfl, fun h => BitVec.eq_of_getLsbD_eq fun i hi => h i hi⟩

theorem settledClauses_iff : SettledClauses cs ↔ ∀ i < 32, Switch.Settled (cs.map (·.switch i)) := by
  induction cs
  case nil          => simp [SettledClauses, Switch.Settled]
  case cons c cs ih =>
    simp only [SettledClauses, List.map_cons, Switch.Settled, ih, forall_and, eq_iff_getLsbD]
    refine and_congr (forall₂_congr fun i hi => ?_) Iff.rfl
    rw [BitVec.getLsbD_and, BitVec.getLsbD_and, BitVec.getLsbD_not, SymbolicClause.zero_getLsbD, sets_getLsbD, clears_getLsbD,
      decide_eq_true hi, Bool.true_and]
    rfl

theorem masks_eq_applyClauses_iff :
    (mode ||| setsOf cs) &&& ~~~clearsOf cs = applyClauses cs mode ↔ SettledClauses cs := by
  rw [eq_iff_getLsbD, settledClauses_iff]
  refine forall₂_congr fun i hi => ?_
  rw [applyClauses_getLsbD, ←@Switch.run_eq_iff _ (mode.getLsbD i), BitVec.getLsbD_and, BitVec.getLsbD_or,
    BitVec.getLsbD_not, sets_getLsbD, clears_getLsbD, decide_eq_true hi, Bool.true_and]
  exact eq_comm

theorem clausesText_accepted (hne : cs ≠ []) (hgrants : (cs.getLast hne).grants ≠ 0) :
    (parseModeString <| some <| clausesText cs).accepted := by
  refine (parseModeString_outcome _).accepted.mpr ⟨?_, .inl ⟨.inr ?_, ?_⟩⟩
  · rw [clausesText_splitOn hne]
    intro t ht
    obtain ⟨c, _, rfl⟩ := List.mem_map.mp ht
    exact c.readableClause_text
  all_goals
    simp only [clausesText_splitOn hne, List.getLast_map]
  · exact SymbolicClause.acts_text _
  · exact (SymbolicClause.grants_text _).mpr hgrants

end

-- The masks are those of the clauses one after another, if and only if what they clear stays clear.
theorem parseModeString_masks_iff (cs : List SymbolicClause) (mode : BitVec 32)
    (haccepted : (parseModeString <| some <| clausesText cs).accepted) :
    (mode ||| (parseModeString <| some <| clausesText cs).plusmask) &&&
        ~~~(parseModeString <| some <| clausesText cs).minusmask = applyClauses cs mode ↔
      SettledClauses cs := by
  have hout := parseModeString_outcome (clausesText cs)
  have hne : cs ≠ [] := by
    rintro rfl
    have hempty : (parseModeString <| some []).accepted = true := haccepted
    rw [parseModeString, scanMode_nil] at hempty
    exact absurd hempty (by decide)
  have hmasks := hout.masks haccepted
  rw [clausesText_splitOn hne, foldl_clauseMasks, Prod.mk.injEq] at hmasks
  obtain ⟨hplus, hminus⟩ := hmasks
  have zero_or : ∀ x : BitVec 32, 0 ||| x = x := fun _ => BitVec.zero_or
  rw [hplus, hminus]
  dsimp only
  rw [zero_or, zero_or]
  exact masks_eq_applyClauses_iff

namespace SymbolicClause

def userReads : SymbolicClause :=
  ⟨['u'], '=', ['r'], by decide, by decide, by decide, by decide, by decide⟩

def userWrites : SymbolicClause :=
  ⟨['u'], '+', ['w'], by decide, by decide, by decide, by decide, by decide⟩

def userNotWrites : SymbolicClause :=
  ⟨['u'], '-', ['w'], by decide, by decide, by decide, by decide, by decide⟩

end SymbolicClause

theorem parseModeString_masks_userReads : (parseModeString <| some <| clausesText [.userNotWrites, .userReads]).accepted ∧
    (0o755 ||| (parseModeString <| some <| clausesText [.userNotWrites, .userReads]).plusmask) &&&
        ~~~(parseModeString <| some <| clausesText [.userNotWrites, .userReads]).minusmask = 0o455 := by
  have hne : [SymbolicClause.userNotWrites, .userReads] ≠ [] := by decide
  have haccepted := clausesText_accepted hne <| show SymbolicClause.userReads.grants ≠ 0 by decide
  have hsettled : SettledClauses [.userNotWrites, .userReads] := ⟨by decide, by decide, trivial⟩
  have hmasks := (parseModeString_masks_iff _ 0o755 haccepted).mpr hsettled
  exact ⟨haccepted, hmasks.trans <| by decide⟩

-- The permission to write is taken away and given back, and it is not there in the end.
theorem not_parseModeString_masks : ¬∀ (cs : List SymbolicClause) (mode : BitVec 32),
    (parseModeString <| some <| clausesText cs).accepted →
      (mode ||| (parseModeString <| some <| clausesText cs).plusmask) &&&
        ~~~(parseModeString <| some <| clausesText cs).minusmask = applyClauses cs mode := by
  intro h
  have hne : [SymbolicClause.userNotWrites, .userWrites] ≠ [] := by decide
  have haccepted := clausesText_accepted hne <| show SymbolicClause.userWrites.grants ≠ 0 by decide
  have hmasks := (parseModeString_outcome _).masks haccepted
  rw [clausesText_splitOn hne, foldl_clauseMasks, Prod.mk.injEq] at hmasks
  have hmode := h _ 0o644 haccepted
  rw [hmasks.left, hmasks.right] at hmode
  exact absurd hmode (by decide)

end CfEngine
