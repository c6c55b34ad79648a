import CfEngine.Libutils.IpAddress.IPV4Texts

namespace CfEngine

def isLowerHex (c : Char) : Bool :=
  isdigit c ∨ ('a' ≤ c ∧ c ≤ 'f')

def hexadecimal (s : CString) : Nat :=
  s.foldl char2Hex 0

namespace IPV6Parse

-- What is kept where the state is changed.
def reset (parse : IPV6Parse) : IPV6Parse :=
  { parse with sixteen := 0, port := 0, char_counter := 0, is_upper_hexdigit := false }

-- The bracket at the end of the address is read.
def close (parse : IPV6Parse) : IPV6Parse :=
  { (if parse.state = 7 then parse.storeSixteen else parse.storeUnsorted).reset with
    bracket_expected := false, state := 8 }

-- The character leads to the state for errors.
def FailsAt (parse : IPV6Parse) (c : Char) : Prop :=
  ∃ parse', parse.step c = some parse' ∧ parse'.state = 11 ∧ parse'.unsorted_sixteen = parse.unsorted_sixteen

-- The parser reads the groups of an address.
structure InGroups (parse : IPV6Parse) : Prop where
  state_le          : parse.state ≤ 7
  sixteen_le        : parse.sixteen ≤ 65535
  port              : parse.port = 0
  is_upper_hexdigit : parse.is_upper_hexdigit = false

section
variable {parse parse' : IPV6Parse} {c : Char}

theorem isLowerHex_spec (h : isLowerHex c) :
    isxdigit c ∧ ¬('A' ≤ c ∧ c ≤ 'Z') ∧ c ≠ '[' ∧ c ≠ ':' ∧ c ≠ ']' := by
  have hne {x : Char} (hx : ¬isLowerHex x) : c ≠ x := fun he => hx <| he ▸ h
  have ⟨hx, hu⟩ : isxdigit c ∧ ¬('A' ≤ c ∧ c ≤ 'Z') := by
    simp only [isLowerHex, isdigit, isxdigit, decide_eq_true_eq, Char.le_def, UInt32.le_iff_toNat_le] at h ⊢
    grind
  exact ⟨hx, hu, hne (by decide), hne (by decide), hne (by decide)⟩

theorem isUpperHex (hx : isxdigit c) (hc : ¬isLowerHex c) : ¬isdigit c ∧ 'A' ≤ c ∧ c ≤ 'Z' := by
  simp only [isLowerHex, isdigit, isxdigit, decide_eq_true_eq, Char.le_def, UInt32.le_iff_toNat_le] at hx hc ⊢
  have hz : 'F'.val.toNat ≤ 'Z'.val.toNat := by decide
  omega

theorem step_lower (h : InGroups parse) (hc : isLowerHex c) : parse.step c =
    if char2Hex parse.sixteen c ≤ 65535 then
      some { parse with sixteen := char2Hex parse.sixteen c, char_counter := parse.char_counter + 1 }
    else none := by
  have ⟨hx, hu, hbracket, hcolon, hclosing⟩ := isLowerHex_spec hc
  have ⟨hstate, _, hport, hupper⟩ := h
  obtain ⟨state, sixteen, unsorted, br, port, counter, upper, zero, already, address⟩ := parse
  dsimp only at hstate hport hupper
  subst hport hupper
  by_cases hle : char2Hex sixteen c ≤ 65535
  case pos =>
    have hlt : ¬65535 < char2Hex sixteen c := by omega
    interval_cases state <;> simp [step, switch, check, hexdigit, hx, hu, hbracket, hcolon, hclosing, hle, hlt]
  case neg =>
    have hlt : 65535 < char2Hex sixteen c := by omega
    interval_cases state <;> simp [step, switch, check, hexdigit, hx, hu, hbracket, hcolon, hclosing, hle, hlt]

-- Any other character but the separators leads to the state for errors.
theorem step_other (h : InGroups parse) (hc : ¬isLowerHex c) (hcolon : c ≠ ':') (hclosing : c ≠ ']')
    (hbracket : c = '[' → parse.state ≠ 0 ∨ parse.char_counter ≠ 0) :
    parse.FailsAt c := by
  have ⟨hstate, hsixteen, hport, hupper⟩ := h
  have hlt : ¬65535 < parse.sixteen := by omega
  obtain ⟨state, sixteen, unsorted, br, port, counter, upper, zero, already, address⟩ := parse
  dsimp only at *
  subst hport hupper
  by_cases hx : isxdigit c
  case pos =>
    have ⟨hd, hu⟩ := isUpperHex hx hc
    have hne : c ≠ '[' := fun he => by rw [he] at hx; nomatch hx
    interval_cases state <;> simp [FailsAt, step, switch, check, hexdigit, goto, hx, hd, hu, hne, hlt]
  case neg =>
    by_cases hb : c = '['
    case pos => interval_cases state <;> simp_all [FailsAt, step, switch, check, goto]
    case neg => interval_cases state <;> simp [FailsAt, step, switch, check, goto, hx, hb, hcolon, hclosing, hlt]

theorem step_opening (h : InGroups parse) (hstate : parse.state = 0) (hcounter : parse.char_counter = 0) :
    parse.step '[' = some { parse with bracket_expected := true, char_counter := 1 } := by
  have ⟨_, hsixteen, hport, hupper⟩ := h
  have hlt : ¬65535 < parse.sixteen := by omega
  obtain ⟨state, sixteen, unsorted, br, port, counter, upper, zero, already, address⟩ := parse
  dsimp only at *
  subst hport hupper hstate hcounter
  have hx : isxdigit '[' = false := rfl
  simp [step, switch, check, hx, hlt]

-- The state after a colon.
def afterColon (parse : IPV6Parse) : IPV6Parse :=
  if parse.state ≤ 1 then
    { (if parse.state = 1 ∧ parse.char_counter = 0 then parse.compress else parse.storeSixteen).reset with
      state := parse.state + 1 }
  else if parse.char_counter = 0 then
    { parse.compress with char_counter := 1 }
  else
    { (if parse.zero_compression then parse.storeUnsorted else parse.storeSixteen).reset with state := parse.state + 1 }

theorem step_colon (h : InGroups parse) (hstate : parse.state < 7)
    (hcounter : 2 ≤ parse.state → parse.char_counter = 0 → parse.already_compressed = false) :
    parse.step ':' = some parse.afterColon := by
  have ⟨_, hsixteen, hport, hupper⟩ := h
  have hlt : ¬65535 < parse.sixteen := by omega
  obtain ⟨state, sixteen, unsorted, br, port, counter, upper, zero, already, address⟩ := parse
  dsimp only at *
  subst hport hupper
  have hx : isxdigit ':' = false := rfl
  by_cases hk : counter = 0
  case pos => interval_cases state <;> simp_all [step, switch, check, goto, afterColon, reset, compress, storeSixteen]
  case neg =>
    interval_cases state <;> cases zero <;>
      simp [step, switch, check, goto, afterColon, reset, storeSixteen, storeUnsorted, hx, hk, hlt]

theorem step_colon_error (h : InGroups parse)
    (hstate : parse.state = 7 ∨ 2 ≤ parse.state ∧ parse.char_counter = 0 ∧ parse.already_compressed = true) :
    parse.FailsAt ':' := by
  have ⟨hle, hsixteen, hport, hupper⟩ := h
  have hlt : ¬65535 < parse.sixteen := by omega
  obtain ⟨state, sixteen, unsorted, br, port, counter, upper, zero, already, address⟩ := parse
  dsimp only at *
  subst hport hupper
  have hx : isxdigit ':' = false := rfl
  interval_cases state <;> simp_all [FailsAt, step, switch, check, goto]

theorem step_closing (h : InGroups parse) (hbracket : parse.bracket_expected)
    (hstate : parse.state = 7 ∨ 2 ≤ parse.state ∧ parse.zero_compression) :
    parse.step ']' = some parse.close := by
  have ⟨hle, hsixteen, hport, hupper⟩ := h
  have hlt : ¬65535 < parse.sixteen := by omega
  obtain ⟨state, sixteen, unsorted, br, port, counter, upper, zero, already, address⟩ := parse
  dsimp only at *
  subst hport hupper
  have hx : isxdigit ']' = false := rfl
  interval_cases state <;> simp_all [step, switch, check, goto, close, reset, storeSixteen, storeUnsorted]

theorem step_closing_error (h : InGroups parse)
    (hstate : ¬(parse.bracket_expected ∧ (parse.state = 7 ∨ 2 ≤ parse.state ∧ parse.zero_compression))) :
    parse.FailsAt ']' := by
  have ⟨hle, hsixteen, hport, hupper⟩ := h
  have hlt : ¬65535 < parse.sixteen := by omega
  obtain ⟨state, sixteen, unsorted, br, port, counter, upper, zero, already, address⟩ := parse
  dsimp only at *
  subst hport hupper
  have hx : isxdigit ']' = false := rfl
  cases br <;> cases zero <;> interval_cases state <;> simp_all [FailsAt, step, switch, check, goto]

-- The parser is behind the brackets.
structure Behind (parse : IPV6Parse) : Prop where
  sixteen           : parse.sixteen = 0
  port              : parse.port ≤ 65535
  is_upper_hexdigit : parse.is_upper_hexdigit = false

theorem behind_close : (close parse).Behind :=
  ⟨rfl, Nat.zero_le _, rfl⟩

theorem step_closed (h : Behind parse) (hstate : parse.state = 8) :
    parse.step ':' = some { parse.reset with state := 9 } := by
  obtain ⟨state, sixteen, unsorted, br, port, counter, upper, zero, already, address⟩ := parse
  have ⟨hsixteen, hport, hupper⟩ := h
  dsimp only at *
  subst hstate hsixteen hupper
  have hx : isxdigit ':' = false := rfl
  simp [step, switch, check, goto, reset, hx, hport]

theorem step_closed_error (h : Behind parse) (hstate : parse.state = 8) (hc : c ≠ ':') :
    parse.FailsAt c := by
  obtain ⟨state, sixteen, unsorted, br, port, counter, upper, zero, already, address⟩ := parse
  have ⟨hsixteen, hport, hupper⟩ := h
  dsimp only at *
  subst hstate hsixteen hupper
  have hlt : ¬65535 < port := by omega
  by_cases hx : isxdigit c <;> by_cases hd : isdigit c <;> simp [FailsAt, step, switch, check, goto, hx, hd, hc, hlt]

theorem step_port (h : Behind parse) (hstate : parse.state = 9) (hc : isdigit c) : parse.step c =
    if char2Dec parse.port c ≤ 65535 then
      some { parse with port := char2Dec parse.port c, char_counter := parse.char_counter + 1 }
    else none := by
  obtain ⟨state, sixteen, unsorted, br, port, counter, upper, zero, already, address⟩ := parse
  have ⟨hsixteen, _, hupper⟩ := h
  dsimp only at *
  subst hstate hsixteen hupper
  by_cases hle : char2Dec port c ≤ 65535
  case pos => simp [step, switch, check, hc, hle]
  case neg => simp [step, switch, check, hc, hle]

theorem step_port_error (h : Behind parse) (hstate : parse.state = 9) (hc : ¬isdigit c) :
    parse.FailsAt c := by
  obtain ⟨state, sixteen, unsorted, br, port, counter, upper, zero, already, address⟩ := parse
  have ⟨hsixteen, hport, hupper⟩ := h
  dsimp only at *
  subst hstate hsixteen hupper
  have hlt : ¬65535 < port := by omega
  by_cases hx : isxdigit c
  case pos => simp [FailsAt, step, switch, check, goto, hx, hc, hlt]
  case neg => simp [FailsAt, step, switch, check, goto, hx, hc, hlt]

theorem step_error (h : parse.state = 11) : parse.step c = none := by
  obtain ⟨state, sixteen, unsorted, br, port, counter, upper, zero, already, address⟩ := parse
  dsimp only at h
  subst h
  by_cases hx : isxdigit c <;> by_cases hd : isdigit c <;> simp [step, switch, hx, hd]

end

end IPV6Parse

end CfEngine
