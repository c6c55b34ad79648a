import CfEngine.Libutils.Json.Parsing

namespace CfEngine

def isJsonDigit (c : Char) : Bool :=
  c = '0' ∨ isNonzeroDigit c

-- A number without a fraction has no superfluous zero at its start.
inductive IsWhole : List Char → Prop
  | zero : IsWhole ['0']
  | nonzero {d : Char} {digits : List Char} (first : isNonzeroDigit d = true)
      (rest : digits.all isJsonDigit = true) : IsWhole (d :: digits)

inductive IsSigned : List Char → Prop
  | plain {digits : List Char} (whole : IsWhole digits) : IsSigned digits
  | negative {digits : List Char} (whole : IsWhole digits) : IsSigned ('-' :: digits)

def IsFraction (digits : List Char) : Prop :=
  digits ≠ [] ∧ digits.all isJsonDigit = true

-- What comes before the first character of a kind.
theorem append_unique_of_head {P : Char → Bool} {text₁ text₂ tail₁ tail₂ : List Char}
    (h : text₁ ++ tail₁ = text₂ ++ tail₂) (h₁ : ∀ c ∈ text₁, P c = false) (h₂ : ∀ c ∈ text₂, P c = false)
    (ht₁ : tail₁.head?.all P = true) (ht₂ : tail₂.head?.all P = true) : text₁ = text₂ ∧ tail₁ = tail₂ := by
  have take {text tail : List Char} (h : ∀ c ∈ text, P c = false) (ht : tail.head?.all P = true) :
      (text ++ tail).takeWhile (!P ·) = text := by
    rw [List.takeWhile_append_of_pos fun c hc => by simp [h c hc]]
    cases tail <;> simp_all
  have he : text₁ = text₂ := (take h₁ ht₁).symm.trans <| (congrArg _ h).trans <| take h₂ ht₂
  exact ⟨he, List.append_cancel_left (he ▸ h)⟩

theorem isJsonDigit_of_isNonzeroDigit {c : Char} (h : isNonzeroDigit c = true) :
    isJsonDigit c = true :=
  decide_eq_true <| .inr h

theorem IsWhole.all_isJsonDigit {whole : List Char} (h : IsWhole whole) :
    whole.all isJsonDigit = true := by
  cases h
  case zero           => decide
  case nonzero hf hr => exact List.all_cons ▸ Bool.and_eq_true _ _ ▸ ⟨isJsonDigit_of_isNonzeroDigit hf, hr⟩

theorem IsSigned.chars {text : List Char} {c : Char} (h : IsSigned text) (hc : c ∈ text) :
    c = '-' ∨ isJsonDigit c = true := by
  cases h
  case plain h    => exact .inr <| List.all_eq_true.mp h.all_isJsonDigit c hc
  case negative h =>
    cases List.mem_cons.mp hc
    case inl hc => exact .inl hc
    case inr hc => exact .inr <| List.all_eq_true.mp h.all_isJsonDigit c hc

theorem IsSigned.head {text tail : List Char} (h : IsSigned text) :
    (text ++ tail).head?.any (fun c => c = '-' ∨ c = '0' ∨ isNonzeroDigit c) = true := by
  cases h
  case negative => rfl
  case plain h  =>
    cases h
    case zero         => rfl
    case nonzero hf _ => exact decide_eq_true <| .inr <| .inr hf

theorem isJsonDigit_ne {c d : Char} (h : isJsonDigit c = true) (hd : isJsonDigit d = false) : c ≠ d :=
  fun he => Bool.false_ne_true <| hd.symm.trans <| he ▸ h

theorem isSeparator_of_isJsonDigit {c : Char} (h : isJsonDigit c = true) : isSeparator c = false := by
  have hne {d} (hd : isJsonDigit d = false) : c ≠ d := isJsonDigit_ne h hd
  simp [isSeparator, isWhitespace, hne (d := ' ') (by decide), hne (d := '\t') (by decide),
    hne (d := '\n') (by decide), hne (d := '\r') (by decide), hne (d := ',') (by decide),
    hne (d := ']') (by decide), hne (d := '}') (by decide)]

theorem isJsonDigit_of_isDigit {c : Char} (h : c.isDigit = true) : isJsonDigit c = true := by
  have h : '0' ≤ c ∧ c ≤ '9' := by simpa [Char.isDigit, Char.le_def] using h
  by_cases hc : c = '0'
  case pos => exact decide_eq_true <| .inl hc
  case neg =>
    have hlt : '0'.toNat < c.toNat := Nat.lt_of_le_of_ne h.left fun he => hc <| (Char.toNat_inj.mp he).symm
    exact decide_eq_true <| .inr <| decide_eq_true ⟨Nat.succ_le_of_lt hlt, h.right⟩

theorem isNonzeroDigit_head_toDigits {n : Nat} (h : 0 < n) :
    ∃ d digits, Nat.toDigits 10 n = d :: digits ∧ isNonzeroDigit d = true := by
  induction n using Nat.strongRecOn
  case ind n ih =>
    by_cases hn : n < 10
    case pos =>
      have hd : ∀ n < 10, 0 < n → isNonzeroDigit n.digitChar = true := by decide
      exact ⟨_, _, Nat.toDigits_of_lt_base hn, hd n hn h⟩
    case neg =>
      have ⟨d, digits, hd, hz⟩ := ih (n / 10) (by omega) (by omega)
      rw [Nat.toDigits_of_base_le (by decide) (by omega), hd]
      exact ⟨d, _, rfl, hz⟩

theorem isWhole_toDigits {n : Nat} : IsWhole (Nat.toDigits 10 n) := by
  cases n
  case zero   => exact .zero
  case succ n =>
    have ⟨d, digits, hd, hz⟩ := isNonzeroDigit_head_toDigits (Nat.succ_pos n)
    rw [hd]
    refine .nonzero hz <| List.all_eq_true.mpr fun c hc => ?_
    apply isJsonDigit_of_isDigit
    exact Nat.isDigit_of_mem_toDigits (by decide) (by decide) (hd ▸ List.mem_cons_of_mem _ hc)

theorem isSigned_toString {n : Int} : IsSigned (toString n).toList := by
  cases n
  case ofNat n   =>
    show IsSigned (toString n).toList
    rw [Nat.toString_eq_ofList_toDigits, String.toList_ofList]
    exact .plain isWhole_toDigits
  case negSucc n =>
    have hn : (toString (Int.negSucc n)).toList = '-' :: (toString (n + 1)).toList :=
      String.toList_append
    rw [hn, Nat.toString_eq_ofList_toDigits, String.toList_ofList]
    exact .negative isWhole_toDigits

namespace JsonElement

namespace NumberScan

-- The loop passes the text, from one state of the scan to another one.
inductive Passes : NumberScan → List Char → NumberScan → Prop
  | nil {scan : NumberScan} : Passes scan [] scan
  | cons {scan scan₁ scan₂ : NumberScan} {c : Char} {text : List Char} (no_separator : isSeparator c = false)
      (switch : scan.switch c = .ok scan₁) (next : Passes { scan₁ with prev_char := c } text scan₂) :
      Passes scan (c :: text) scan₂

variable {scan scan₁ scan₂ : NumberScan} {c : Char} {text text₁ text₂ tail last value digits whole : List Char}

theorem Passes.append (h₁ : Passes scan text₁ scan₁) (h₂ : Passes scan₁ text₂ scan₂) :
    Passes scan (text₁ ++ text₂) scan₂ := by
  induction h₁
  case nil             => exact h₂
  case cons hs hc _ ih => exact .cons hs hc <| ih h₂

theorem Passes.run (h : Passes scan text scan₁) (value last tail : List Char) :
    ∃ last', (text ≠ [] → last'.drop 1 = tail) ∧
      scan.run value last (text ++ tail) = scan₁.run (value ++ text) last' tail := by
  induction h generalizing value last
  case nil                                => exact ⟨last, absurd rfl, by rw [List.append_nil]; rfl⟩
  case cons scan _ _ c text hs hc hn ih =>
    have ⟨last', hl, hr⟩ := ih (value ++ [c]) (c :: (text ++ tail))
    rw [List.cons_append, NumberScan.run, if_neg <| Bool.eq_false_iff.mp hs, hc]
    cases text
    case nil  =>
      cases hn
      exact ⟨c :: tail, fun _ => rfl, rfl⟩
    case cons =>
      rw [List.append_assoc] at hr
      exact ⟨last', fun _ => hl <| List.cons_ne_nil _ _, hr⟩

theorem afterDigit_of_isJsonDigit (scan : NumberScan) (h : isJsonDigit scan.prev_char = true) : scan.afterDigit = true :=
  h

theorem switch_digit (hc : isJsonDigit c = true) (hz : scan.afterLeadingZero = false)
    (hp : scan.prev_char ≠ '\x00') : scan.switch c = .ok scan := by
  have hne {d} (hd : isJsonDigit d = false) : c ≠ d := isJsonDigit_ne hc hd
  have he : ¬(c = 'e' ∨ c = 'E') := not_or.mpr ⟨hne (by decide), hne (by decide)⟩
  by_cases h0 : c = '0'
  · simp [switch, h0, hz, hp]
  · have hn : isNonzeroDigit c = true := (of_decide_eq_true hc).resolve_left h0
    simp [switch, hne (d := '-') (by decide), hne (d := '+') (by decide), h0,
      hne (d := '.') (by decide), he, hz, hn]

theorem passes_digits (scan : NumberScan) (hd : digits.all isJsonDigit = true) (hz : scan.afterLeadingZero = false)
    (hp : scan.prev_char ≠ '\x00') :
    ∃ prev, Passes scan digits { scan with prev_char := prev } ∧
      (isJsonDigit scan.prev_char = true ∨ digits ≠ [] → isJsonDigit prev = true) := by
  induction digits generalizing scan
  case nil               => exact ⟨scan.prev_char, .nil, fun h => h.resolve_right (· rfl)⟩
  case cons c digits ih =>
    rw [List.all_cons, Bool.and_eq_true] at hd
    have hc : c ≠ '\x00' := isJsonDigit_ne hd.left (by decide)
    have ⟨prev, hr, he⟩ := ih { scan with prev_char := c } hd.right hz hc
    have hs := switch_digit hd.left hz hp
    exact ⟨prev, .cons (isSeparator_of_isJsonDigit hd.left) hs hr, fun _ => he <| .inl hd.left⟩

theorem switch_nonzero (hc : isNonzeroDigit c = true) (hz : scan.afterLeadingZero = false) :
    scan.switch c = .ok scan := by
  have hne {d} (hd : isNonzeroDigit d = false) : c ≠ d :=
    fun he => Bool.false_ne_true <| hd.symm.trans <| he ▸ hc
  have he : ¬(c = 'e' ∨ c = 'E') := not_or.mpr ⟨hne (by decide), hne (by decide)⟩
  simp [switch, hne (d := '-') (by decide), hne (d := '+') (by decide), hne (d := '0') (by decide),
    hne (d := '.') (by decide), he, hz, hc]

-- The state of a scan that has passed an integer.
structure Integral (scan : NumberScan) : Prop where
  after_digit : scan.afterDigit = true
  no_dot      : scan.seen_dot = false
  no_exponent : scan.seen_exponent = false

theorem passes_whole (prev : Char) (h : IsWhole whole) :
    ∃ scan, Passes { prev_char := prev } whole scan ∧ scan.Integral := by
  cases h
  case zero =>
    have hs : ({ prev_char := prev } : NumberScan).switch '0' =
        .ok { zero_started := false || prev = '\x00', prev_char := prev } := rfl
    exact ⟨_, .cons (by decide) hs .nil, rfl, rfl, rfl⟩
  case nonzero d digits hf hr =>
    have hd := isJsonDigit_of_isNonzeroDigit hf
    have hs : ({ prev_char := prev } : NumberScan).switch d = .ok { prev_char := prev } :=
      switch_nonzero hf rfl
    have ⟨prev', hp, he⟩ := passes_digits { prev_char := d } hr rfl
      (isJsonDigit_ne hd (by decide))
    have ha := afterDigit_of_isJsonDigit { prev_char := prev' } <| he <| .inl hd
    exact ⟨_, .cons (isSeparator_of_isJsonDigit hd) hs hp, ha, rfl, rfl⟩

theorem passes_signed (h : IsSigned text) : ∃ scan, Passes {} text scan ∧ scan.Integral := by
  cases h
  case plain h    => exact passes_whole _ h
  case negative h =>
    have ⟨scan, hp, hi⟩ := passes_whole '-' h
    exact ⟨scan, .cons (by decide) rfl hp, hi⟩

theorem passes_fraction (hs : scan.afterDigit = true) (hf : IsFraction digits) :
    ∃ scan', Passes scan ('.' :: digits) scan' ∧ scan'.afterDigit = true ∧ scan'.seen_dot = true ∧
      scan'.seen_exponent = scan.seen_exponent := by
  have hd : scan.switch '.' = .ok { scan with seen_dot := true } := by
    simp [switch, hs]
  have hz : ({ scan with seen_dot := true, prev_char := '.' } : NumberScan).afterLeadingZero = false := by
    simp [afterLeadingZero]
  have ⟨prev, hp, he⟩ := passes_digits _ hf.right hz (fun h => absurd h (by simp))
  have ha := afterDigit_of_isJsonDigit { scan with seen_dot := true, prev_char := prev } <|
    he <| .inr hf.left
  exact ⟨_, .cons (by decide) hd hp, ha, rfl, rfl⟩

end NumberScan

variable {text tail whole digits : List Char}

-- A number ends before a separator, or at the end of the input.
theorem parseAsNumber_append {scan : NumberScan} (hp : NumberScan.Passes {} text scan)
    (ha : scan.afterDigit = true) (hs : tail.head?.all isSeparator = true) :
    ∃ last, last.drop 1 = tail ∧ parseAsNumber (text ++ tail) =
      .ok (primitive (if scan.seen_dot then .real else .integer) text, last) := by
  have hne : text ≠ [] := by
    rintro rfl
    cases hp
    cases ha
  have ⟨last, hl, hr⟩ := hp.run [] (text ++ tail) tail
  have hend : scan.run text last tail = .ok (scan, text, last) := by
    rcases tail with _ | ⟨c, tail⟩
    · rfl
    · exact if_pos hs
  rw [List.nil_append, hend] at hr
  refine ⟨last, hl hne, ?_⟩
  simp [parseAsNumber, hr, ha]

theorem head_all_of_any (h : tail.head?.any isSeparator = true) : tail.head?.all isSeparator = true := by
  cases tail
  case nil  => rfl
  case cons => exact h

theorem parseAsNumber_signed (h : IsSigned text) (hs : tail.head?.any isSeparator = true) :
    ∃ last, last.drop 1 = tail ∧ parseAsNumber (text ++ tail) = .ok (primitive .integer text, last) := by
  have ⟨scan, hp, hi⟩ := NumberScan.passes_signed h
  have ⟨last, hl, hr⟩ := parseAsNumber_append hp hi.after_digit <| head_all_of_any hs
  rw [hi.no_dot] at hr
  exact ⟨last, hl, hr⟩

theorem parseAsNumber_real (h : IsSigned whole) (hf : IsFraction digits)
    (hs : tail.head?.any isSeparator = true) :
    ∃ last, last.drop 1 = tail ∧ parseAsNumber (whole ++ '.' :: digits ++ tail) =
      .ok (primitive .real (whole ++ '.' :: digits), last) := by
  have ⟨_, hw, hi⟩ := NumberScan.passes_signed h
  have ⟨scan, hf, ha, hd, _⟩ := NumberScan.passes_fraction hi.after_digit hf
  have ⟨last, hl, hr⟩ := parseAsNumber_append (hw.append hf) ha <| head_all_of_any hs
  rw [hd] at hr
  exact ⟨last, hl, hr⟩

end JsonElement
end CfEngine
