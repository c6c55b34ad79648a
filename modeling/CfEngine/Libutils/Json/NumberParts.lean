import CfEngine.Libutils.Json.Grammar

namespace CfEngine

-- A number as it is scanned: its parts are an integer, fractions, an exponent, or an empty text, and
-- the fractions after that.
structure NumberParts where
  whole     : List Char
  fractions : List (List Char)
  exponent  : List Char
  after     : List (List Char)

namespace NumberParts

def behindDots (fractions : List (List Char)) : List Char :=
  fractions.flatMap ('.' :: ·)

def text (parts : NumberParts) : List Char :=
  parts.whole ++ behindDots parts.fractions ++ (parts.exponent ++ behindDots parts.after)

inductive IsScannedWhole : List Char → Prop
  | plain {digits : List Char} (whole : IsWhole digits) : IsScannedWhole digits
  | negative {digits : List Char} (digits_ok : IsFraction digits) : IsScannedWhole ('-' :: digits)

structure Scanned (parts : NumberParts) : Prop where
  whole     : IsScannedWhole parts.whole
  fractions : ∀ f ∈ parts.fractions, IsFraction f
  exponent  : parts.exponent = [] ∧ parts.after = [] ∨ IsExponent parts.exponent
  after     : ∀ f ∈ parts.after, IsFraction f

-- A minus before a superfluous zero, a second fraction, a fraction after the exponent, and an exponent
-- without a fraction.
def Misread (parts : NumberParts) : Prop :=
  (∃ d digits, parts.whole = '-' :: '0' :: d :: digits) ∨ 2 ≤ parts.fractions.length ∨
    parts.after ≠ [] ∨ parts.fractions = [] ∧ parts.exponent ≠ []

end NumberParts

namespace JsonElement.NumberScan

open NumberParts

variable {scan scan' : NumberScan} {c : Char} {text : List Char}

-- What the scan does at a character that it accepts.
inductive Switched (scan : NumberScan) (c : Char) : NumberScan → Prop
  | minus (char : c = '-') (h : scan.prev_char = '\x00' ∨ scan.afterExponent = true) : Switched scan c scan
  | plus (char : c = '+') (h : scan.afterExponent = true) : Switched scan c scan
  | zero (char : c = '0') (h : scan.afterLeadingZero = false) :
      Switched scan c { scan with zero_started := scan.zero_started || scan.prev_char = '\x00' }
  | dot (char : c = '.') (h : scan.afterDigit = true) : Switched scan c { scan with seen_dot := true }
  | exponent (char : c = 'e' ∨ c = 'E') (first : scan.seen_exponent = false) (h : scan.afterDigit = true) :
      Switched scan c { scan with seen_exponent := true }
  | digit (char : isNonzeroDigit c = true) (h : scan.afterLeadingZero = false) : Switched scan c scan

theorem switched (h : scan.switch c = .ok scan') : Switched scan c scan' := by
  unfold switch at h
  split_ifs at h with hminus hprev hplus hprev hzero hlead hdot hprev hexp hseen hprev hlead hdigit
  all_goals cases h
  · exact .minus hminus (by_contra fun hc => hprev ⟨fun h => hc (.inl h), fun h => hc (.inr h)⟩)
  · exact .plus hplus hprev
  · exact .zero hzero (Bool.eq_false_iff.mpr hlead)
  · exact .dot hdot hprev
  · exact .exponent hexp (Bool.eq_false_iff.mpr hseen) hprev
  · exact .digit hdigit (Bool.eq_false_iff.mpr hlead)

theorem Switched.ne_nul (h : Switched scan c scan') : c ≠ '\x00' := by
  cases h with
  | digit hc _      => exact isJsonDigit_ne (isJsonDigit_of_isNonzeroDigit hc) rfl
  | exponent hc _ _ => rcases hc with rfl | rfl <;> decide
  | _ hc _          => exact hc ▸ by decide

-- What may follow in a number after its exponent has begun, and what may follow before that.
def Exponential (scan : NumberScan) (text : List Char) : Prop :=
  ∃ sign digits after, text = sign ++ digits ++ behindDots after ∧
    (sign = [] ∨ scan.afterExponent = true ∧ (sign = ['+'] ∨ sign = ['-'])) ∧
    digits.all isJsonDigit = true ∧ (scan.afterDigit = true ∨ digits ≠ []) ∧ ∀ f ∈ after, IsFraction f

def Fractional (scan : NumberScan) (text : List Char) : Prop :=
  ∃ digits fractions exponent after,
    text = digits ++ behindDots fractions ++ (exponent ++ behindDots after) ∧
    digits.all isJsonDigit = true ∧ (scan.afterDigit = true ∨ digits ≠ []) ∧
    (scan.afterLeadingZero = true → digits = []) ∧ (∀ f ∈ fractions, IsFraction f) ∧
    (exponent = [] ∧ after = [] ∨ IsExponent exponent) ∧ ∀ f ∈ after, IsFraction f

theorem isFraction_cons {digits : List Char} {fractions : List (List Char)}
    (h : digits.all isJsonDigit = true) (hne : digits ≠ []) (hf : ∀ f ∈ fractions, IsFraction f) :
    ∀ f ∈ digits :: fractions, IsFraction f :=
  List.forall_mem_cons.mpr ⟨⟨hne, h⟩, hf⟩

theorem afterExponent_prev_char (he : c ≠ 'e') (hE : c ≠ 'E') :
    ({ scan with prev_char := c } : NumberScan).afterExponent = false := by
  simp [afterExponent, he, hE]

theorem afterExponent_of_isJsonDigit (hc : isJsonDigit c = true) :
    ({ scan with prev_char := c } : NumberScan).afterExponent = false :=
  afterExponent_prev_char (isJsonDigit_ne hc rfl) (isJsonDigit_ne hc rfl)

-- A sign can only follow the letter of the exponent.
theorem Exponential.digits (h : { scan with prev_char := c }.Exponential text) (he : c ≠ 'e') (hE : c ≠ 'E') :
    ∃ digits after, text = digits ++ behindDots after ∧ digits.all isJsonDigit = true ∧
      (isJsonDigit c = true ∨ digits ≠ []) ∧ ∀ f ∈ after, IsFraction f := by
  have ⟨sign, digits, after, ht, hs, hd, hne, hf⟩ := h
  cases hs.resolve_right fun hs => Bool.false_ne_true <| afterExponent_prev_char he hE |>.symm.trans hs.left
  exact ⟨digits, after, ht, hd, hne, hf⟩

theorem Passes.exponential (h : Passes scan text scan') (he : scan.seen_exponent = true)
    (hp : scan.prev_char ≠ '\x00') (ha : scan'.afterDigit = true) : scan.Exponential text := by
  induction h
  case nil => exact ⟨[], [], [], rfl, .inl rfl, rfl, .inl ha, by simp⟩
  case cons scan scan₁ _ c text _ hs _ ih =>
    have signed (h : scan.afterExponent = true) (hc : c = '+' ∨ c = '-')
        (ih : { scan with prev_char := c }.Exponential text) : scan.Exponential (c :: text) := by
      have ⟨digits, after, ht, hd, hne, hf⟩ := ih.digits (by grind) (by grind)
      have hn : isJsonDigit c = false := by rcases hc with rfl | rfl <;> rfl
      have hne := hne.resolve_left <| Bool.eq_false_iff.mp hn
      refine ⟨[c], digits, after, by rw [ht]; rfl, .inr ⟨h, ?_⟩, hd, .inr hne, hf⟩
      exact hc.imp (congrArg ([·])) (congrArg ([·]))
    have digit (hc : isJsonDigit c = true) (scan₁ : NumberScan)
        (ih : { scan₁ with prev_char := c }.Exponential text) : scan.Exponential (c :: text) := by
      have ⟨digits, after, ht, hd, _, hf⟩ := ih.digits (isJsonDigit_ne hc rfl) (isJsonDigit_ne hc rfl)
      exact ⟨[], c :: digits, after, by rw [ht]; rfl, .inl rfl, by simp [hc, hd], .inr (by simp), hf⟩
    have hnul := (switched hs).ne_nul
    cases switched hs with
    | minus hc h => exact signed (h.resolve_left hp) (.inr hc) <| ih he hnul ha
    | plus hc h  => exact signed h (.inl hc) <| ih he hnul ha
    | zero hc h  => exact digit (hc ▸ rfl) _ <| ih he hnul ha
    | digit hc h => exact digit (isJsonDigit_of_isNonzeroDigit hc) _ <| ih he hnul ha
    | dot hc h   =>
      subst hc
      have ⟨digits, after, ht, hd, hne, hf⟩ := (ih he hnul ha).digits (by decide) (by decide)
      have hne := hne.resolve_left (by decide)
      refine ⟨[], [], digits :: after, ?_, .inl rfl, rfl, .inl h, isFraction_cons hd hne hf⟩
      rw [ht]
      rfl
    | exponent hc hn h =>
      rw [he] at hn
      contradiction

-- The letter of the exponent with what follows it.
theorem Exponential.exponent (hc : c = 'e' ∨ c = 'E')
    (h : { scan with prev_char := c }.Exponential text) :
    ∃ exponent after, c :: text = exponent ++ behindDots after ∧ IsExponent exponent ∧
      ∀ f ∈ after, IsFraction f := by
  have ⟨sign, digits, after, ht, hs, hd, hne, hf⟩ := h
  have ha : ({ scan with prev_char := c } : NumberScan).afterDigit = false := by
    rcases hc with rfl | rfl <;> rfl
  have hfraction : IsFraction digits := ⟨hne.resolve_left <| Bool.eq_false_iff.mp ha, hd⟩
  refine ⟨c :: sign ++ digits, after, by rw [ht, List.cons_append, List.cons_append], ?_, hf⟩
  rcases hs with rfl | ⟨_, rfl | rfl⟩
  · exact .plain hc hfraction
  · exact .signed hc (.inl rfl) hfraction
  · exact .signed hc (.inr rfl) hfraction

theorem Passes.fractional (h : Passes scan text scan') (he : scan.seen_exponent = false)
    (hp : scan.prev_char ≠ '\x00') (hpe : scan.afterExponent = false) (ha : scan'.afterDigit = true) :
    scan.Fractional text := by
  induction h
  case nil => exact ⟨[], [], [], [], rfl, rfl, .inl ha, fun _ => rfl, by simp, .inl ⟨rfl, rfl⟩, by simp⟩
  case cons scan scan₁ _ c text _ hs hn ih =>
    have hnul := (switched hs).ne_nul
    have digit (hc : isJsonDigit c = true) (scan₁ : NumberScan) (hl : scan.afterLeadingZero = false)
        (ih : { scan₁ with prev_char := c }.Fractional text) : scan.Fractional (c :: text) := by
      have ⟨digits, fractions, exponent, after, ht, hd, _, _, hrest⟩ := ih
      refine ⟨c :: digits, fractions, exponent, after, by rw [ht]; rfl, by simp [hc, hd], .inr (by simp),
        fun h => ?_, hrest⟩
      rw [hl] at h
      contradiction
    cases switched hs with
    | minus hc h => exact absurd hpe (Bool.not_eq_false _ ▸ h.resolve_left hp)
    | plus hc h  => exact absurd hpe (Bool.not_eq_false _ ▸ h)
    | zero hc h  =>
      have hc : isJsonDigit c = true := hc ▸ rfl
      exact digit hc _ h <| ih he hnul (afterExponent_of_isJsonDigit hc) ha
    | digit hc h =>
      have hc := isJsonDigit_of_isNonzeroDigit hc
      exact digit hc _ h <| ih he hnul (afterExponent_of_isJsonDigit hc) ha
    | dot hc h   =>
      subst hc
      have ⟨digits, fractions, exponent, after, ht, hd, hne, _, hf, hrest⟩ :=
        ih he hnul rfl ha
      have hne := hne.resolve_left fun h => Bool.false_ne_true h
      refine ⟨[], digits :: fractions, exponent, after, ?_, rfl, .inl h, fun _ => rfl,
        isFraction_cons hd hne hf, hrest⟩
      rw [ht]
      simp [behindDots]
    | exponent hc _ h =>
      have ⟨exponent, after, ht, hx, hf⟩ := (hn.exponential rfl hnul ha).exponent hc
      exact ⟨[], [], exponent, after, ht, rfl, .inl h, fun _ => rfl, by simp, .inr hx, hf⟩

-- The text that a scan passes up to a digit is that of its parts.
theorem Passes.scanned (h : Passes {} text scan) (ha : scan.afterDigit = true) :
    ∃ parts : NumberParts, parts.Scanned ∧ parts.text = text := by
  cases h with
  | nil => contradiction
  | cons hsep hs hn =>
    have hnul := (switched hs).ne_nul
    cases switched hs with
    | minus hc h =>
      subst hc
      have ⟨digits, fractions, exponent, after, ht, hd, hne, _, hf, hx, hf'⟩ := hn.fractional rfl hnul rfl ha
      have hne := hne.resolve_left fun h => Bool.false_ne_true h
      exact ⟨⟨_, fractions, exponent, after⟩, ⟨.negative ⟨hne, hd⟩, hf, hx, hf'⟩, by rw [ht]; rfl⟩
    | plus hc h     => contradiction
    | dot hc h      => contradiction
    | exponent _ _ h => contradiction
    | zero hc h =>
      subst hc
      have ⟨digits, fractions, exponent, after, ht, _, _, hz, hf, hx, hf'⟩ := hn.fractional rfl hnul rfl ha
      cases hz rfl
      exact ⟨⟨_, fractions, exponent, after⟩, ⟨.plain .zero, hf, hx, hf'⟩, by rw [ht]; rfl⟩
    | digit hc h =>
      have hc' := isJsonDigit_of_isNonzeroDigit hc
      have ⟨digits, fractions, exponent, after, ht, hd, _, _, hf, hx, hf'⟩ :=
        hn.fractional rfl hnul (afterExponent_of_isJsonDigit hc') ha
      exact ⟨⟨_, fractions, exponent, after⟩, ⟨.plain <| .nonzero hc hd, hf, hx, hf'⟩, by rw [ht]; rfl⟩

theorem passes_fractions {fractions : List (List Char)} (scan : NumberScan)
    (hs : scan.afterDigit = true) (hf : ∀ f ∈ fractions, IsFraction f) :
    ∃ scan', Passes scan (behindDots fractions) scan' ∧ scan'.afterDigit = true ∧
      scan'.seen_exponent = scan.seen_exponent := by
  induction fractions generalizing scan
  case nil => exact ⟨scan, .nil, hs, rfl⟩
  case cons f fractions ih =>
    have ⟨hd, hf⟩ := List.forall_mem_cons.mp hf
    have ⟨scan₁, hp, ha, _, he⟩ := passes_fraction hs hd
    have ⟨scan₂, hp', ha', he'⟩ := ih scan₁ ha hf
    exact ⟨scan₂, hp.append hp', ha', he'.trans he⟩

theorem passes_exponent {exponent : List Char} (hs : scan.afterDigit = true)
    (hn : scan.seen_exponent = false) (h : IsExponent exponent) :
    ∃ scan', Passes scan exponent scan' ∧ scan'.afterDigit = true := by
  have letter {e : Char} (he : e = 'e' ∨ e = 'E') : isSeparator e = false ∧
      scan.switch e = .ok { scan with seen_exponent := true } := by
    rcases he with rfl | rfl <;> exact ⟨rfl, by simp [switch, hs, hn]⟩
  have digits (prev : Char) (hp : prev ≠ '\x00') {digits : List Char} (hd : IsFraction digits) :
      ∃ scan', Passes { scan with seen_exponent := true, prev_char := prev } digits scan' ∧
        scan'.afterDigit = true := by
    obtain ⟨prev', hp, ha⟩ := passes_digits { scan with seen_exponent := true, prev_char := prev } hd.right
      (by simp [afterLeadingZero]) hp
    exact ⟨_, hp, afterDigit_of_isJsonDigit _ <| ha <| .inr hd.left⟩
  cases h with
  | @plain e _ he hd =>
    obtain ⟨hsep, hc⟩ := letter he
    obtain ⟨scan', hp, ha⟩ := digits e (by rcases he with rfl | rfl <;> decide) hd
    exact ⟨scan', .cons hsep hc hp, ha⟩
  | @signed e sign _ he hsign hd =>
    obtain ⟨hsep, hc⟩ := letter he
    have hs : isSeparator sign = false ∧
        ({ scan with seen_exponent := true, prev_char := e } : NumberScan).switch sign =
          .ok { scan with seen_exponent := true, prev_char := e } := by
      rcases he with rfl | rfl <;> rcases hsign with rfl | rfl <;>
        exact ⟨rfl, by simp [switch, afterExponent]⟩
    obtain ⟨scan', hp, ha⟩ := digits sign (by rcases hsign with rfl | rfl <;> decide) hd
    exact ⟨scan', .cons hsep hc <| .cons hs.left hs.right hp, ha⟩

theorem passes_scannedWhole {whole : List Char} (h : IsScannedWhole whole) :
    ∃ scan, Passes {} whole scan ∧ scan.afterDigit = true ∧ scan.seen_exponent = false := by
  cases h with
  | plain hw =>
    have ⟨scan, hp, hi⟩ := passes_whole '\x00' hw
    exact ⟨scan, hp, hi.after_digit, hi.no_exponent⟩
  | negative hd =>
    have ⟨prev, hp, ha⟩ := passes_digits { prev_char := '-' } hd.right rfl (by decide)
    exact ⟨_, .cons rfl rfl hp, afterDigit_of_isJsonDigit _ <| ha <| .inr hd.left, rfl⟩

theorem passes_parts {parts : NumberParts} (h : parts.Scanned) :
    ∃ scan, Passes {} parts.text scan ∧ scan.afterDigit = true := by
  have ⟨scan₁, hp₁, ha₁, he₁⟩ := passes_scannedWhole h.whole
  have ⟨scan₂, hp₂, ha₂, he₂⟩ := passes_fractions scan₁ ha₁ h.fractions
  have exponent : ∃ scan, Passes scan₂ parts.exponent scan ∧ scan.afterDigit = true := by
    cases h.exponent
    case inl h => exact ⟨scan₂, h.left ▸ .nil, ha₂⟩
    case inr h => exact passes_exponent ha₂ (he₂.trans he₁) h
  have ⟨scan₃, hp₃, ha₃⟩ := exponent
  have ⟨scan₄, hp₄, ha₄, _⟩ := passes_fractions scan₃ ha₃ h.after
  exact ⟨scan₄, (hp₁.append hp₂).append (hp₃.append hp₄), ha₄⟩

theorem Passes.seen_dot (h : Passes scan text scan') :
    scan'.seen_dot = (scan.seen_dot || text.contains '.') := by
  induction h
  case nil => simp
  case cons hs _ ih =>
    rw [ih, List.contains_cons]
    simp [switch_seen_dot hs, Bool.or_assoc, Bool.beq_eq_decide_eq, eq_comm]

-- The text up to the first separator is scanned to its end.
theorem passes_of_run {str value last data cursor : List Char}
    (h : scan.run str last data = .ok (scan', value, cursor)) :
    Passes scan (data.takeWhile (!isSeparator ·)) scan' := by
  induction data generalizing scan str last
  case nil =>
    cases h
    exact .nil
  case cons c data ih =>
    unfold run at h
    split at h
    case isTrue hs =>
      cases h
      simpa [hs] using Passes.nil
    case isFalse hs =>
      split at h
      case h_1    => cases h
      case h_2 hc =>
        rw [List.takeWhile_cons_of_pos (by simpa using hs)]
        exact .cons (Bool.eq_false_iff.mpr hs) hc <| ih h

end JsonElement.NumberScan

namespace NumberParts

variable {parts parts' : NumberParts}

theorem not_mem_of_all_isJsonDigit {digits : List Char} {c : Char} (hc : isJsonDigit c = false)
    (h : digits.all isJsonDigit = true) : c ∉ digits :=
  fun hm => Bool.false_ne_true <| hc.symm.trans <| List.all_eq_true.mp h c hm

theorem behindDots_cons {f : List Char} {fractions : List (List Char)} :
    behindDots (f :: fractions) = '.' :: (f ++ behindDots fractions) := by
  simp [behindDots]

theorem head_behindDots {fractions : List (List Char)} :
    (behindDots fractions).head?.all (fun c => decide (c = '.')) = true := by
  cases fractions
  case nil  => rfl
  case cons => rw [behindDots_cons]; rfl

theorem behindDots_unique {text text' : List Char} {fractions fractions' : List (List Char)}
    (h : text ++ behindDots fractions = text' ++ behindDots fractions')
    (ht : '.' ∉ text) (ht' : '.' ∉ text') (hf : ∀ f ∈ fractions, IsFraction f)
    (hf' : ∀ f ∈ fractions', IsFraction f) : text = text' ∧ fractions = fractions' := by
  have ne {text : List Char} (h : '.' ∉ text) : ∀ c ∈ text, decide (c = '.') = false :=
    fun c hc => decide_eq_false fun he => h <| he ▸ hc
  induction fractions generalizing text text' fractions'
  case nil =>
    have ⟨he, hd⟩ := append_unique_of_head h (ne ht) (ne ht') head_behindDots head_behindDots
    cases fractions'
    case nil  => exact ⟨he, rfl⟩
    case cons => rw [behindDots_cons] at hd; contradiction
  case cons f fractions ih =>
    have ⟨he, hd⟩ := append_unique_of_head h (ne ht) (ne ht') head_behindDots head_behindDots
    cases fractions'
    case nil => rw [behindDots_cons] at hd; contradiction
    case cons f' fractions' =>
      have ⟨hff, hf⟩ := List.forall_mem_cons.mp hf
      have ⟨hff', hf'⟩ := List.forall_mem_cons.mp hf'
      rw [behindDots_cons, behindDots_cons] at hd
      have ⟨hd, hr⟩ := ih (List.cons.inj hd).right (not_mem_of_all_isJsonDigit rfl hff.right)
        (not_mem_of_all_isJsonDigit rfl hff'.right) hf hf'
      exact ⟨he, by rw [hd, hr]⟩

-- The letters of an exponent.
def isLetter (c : Char) : Bool :=
  c = 'e' ∨ c = 'E'

theorem isLetter_of_isJsonDigit {c : Char} (h : isJsonDigit c = true) : isLetter c = false := by
  simp [isLetter, isJsonDigit_ne h (d := 'e') rfl, isJsonDigit_ne h (d := 'E') rfl]

theorem IsScannedWhole.chars {whole : List Char} (h : IsScannedWhole whole) :
    ∀ c ∈ whole, c = '-' ∨ isJsonDigit c = true := by
  cases h with
  | plain hw    => exact fun c hc => .inr <| List.all_eq_true.mp hw.all_isJsonDigit c hc
  | negative hd => exact List.forall_mem_cons.mpr ⟨.inl rfl, fun c hc => .inr <| List.all_eq_true.mp hd.right c hc⟩

theorem isLetter_behindDots {fractions : List (List Char)} (h : ∀ f ∈ fractions, IsFraction f) :
    ∀ c ∈ behindDots fractions, isLetter c = false := by
  intro c hc
  have ⟨f, hf, hc⟩ := List.mem_flatMap.mp hc
  cases List.mem_cons.mp hc
  case inl hc => exact hc ▸ rfl
  case inr hc => exact isLetter_of_isJsonDigit <| List.all_eq_true.mp (h f hf).right c hc

theorem exponent_cases {exponent : List Char} (h : IsExponent exponent) :
    ∃ c s, exponent = c :: s ∧ isLetter c = true ∧ '.' ∉ c :: s := by
  cases h with
  | @plain c digits hc hd =>
    have hn : '.' ∉ digits := not_mem_of_all_isJsonDigit rfl hd.right
    refine ⟨c, digits, rfl, decide_eq_true hc, ?_⟩
    rcases hc with rfl | rfl <;> simpa using hn
  | @signed c sign digits hc hs hd =>
    have hn : '.' ∉ digits := not_mem_of_all_isJsonDigit rfl hd.right
    refine ⟨c, sign :: digits, rfl, decide_eq_true hc, ?_⟩
    rcases hc with rfl | rfl <;> rcases hs with rfl | rfl <;> simpa using hn

namespace Scanned

variable (h : parts.Scanned)
include h

theorem dot_not_mem_whole : '.' ∉ parts.whole :=
  fun hm => (h.whole.chars '.' hm).elim (by decide) (by decide)

theorem isLetter_mantissa : ∀ c ∈ parts.whole ++ behindDots parts.fractions, isLetter c = false := by
  intro c hc
  cases List.mem_append.mp hc
  case inr hc => exact isLetter_behindDots h.fractions c hc
  case inl hc =>
    cases h.whole.chars c hc
    case inl hc => exact hc ▸ rfl
    case inr hc => exact isLetter_of_isJsonDigit hc

theorem head_exponent : (parts.exponent ++ behindDots parts.after).head?.all isLetter = true := by
  rcases h.exponent with ⟨hx, ha⟩ | hx
  · rw [hx, ha]
    rfl
  · have ⟨c, s, he, hc, _⟩ := exponent_cases hx
    rw [he]
    exact hc

theorem dot_not_mem_exponent : '.' ∉ parts.exponent := by
  rcases h.exponent with ⟨hx, _⟩ | hx
  · rw [hx]
    exact List.not_mem_nil
  · have ⟨c, s, he, _, hd⟩ := exponent_cases hx
    exact he ▸ hd

-- The parts are where the dots and the letters of a text are.
theorem unique (h' : parts'.Scanned) (ht : parts.text = parts'.text) : parts = parts' := by
  have ⟨hm, hx⟩ := append_unique_of_head ht h.isLetter_mantissa h'.isLetter_mantissa h.head_exponent
    h'.head_exponent
  have ⟨hw, hf⟩ := behindDots_unique hm h.dot_not_mem_whole h'.dot_not_mem_whole h.fractions h'.fractions
  have ⟨hx, ha⟩ := behindDots_unique hx h.dot_not_mem_exponent h'.dot_not_mem_exponent h.after h'.after
  cases parts
  cases parts'
  simp_all

theorem dot_mem_iff : '.' ∈ parts.text ↔ parts.fractions ≠ [] ∨ parts.after ≠ [] := by
  have hd {fractions : List (List Char)} : '.' ∈ behindDots fractions ↔ fractions ≠ [] := by
    cases fractions
    case nil  => simp [behindDots]
    case cons => simp [behindDots_cons]
  simp [text, hd, h.dot_not_mem_whole, h.dot_not_mem_exponent]

theorem letter_mem_iff : 'e' ∈ parts.text ∨ 'E' ∈ parts.text ↔ parts.exponent ≠ [] := by
  have hl {c : Char} (hc : isLetter c = true) : c ∉ parts.whole ++ behindDots parts.fractions ∧
      c ∉ behindDots parts.after :=
    ⟨fun hm => Bool.false_ne_true <| (h.isLetter_mantissa c hm).symm.trans hc,
      fun hm => Bool.false_ne_true <| (isLetter_behindDots h.after c hm).symm.trans hc⟩
  have hlow := hl (c := 'e') rfl
  have hupp := hl (c := 'E') rfl
  have hx : 'e' ∈ parts.exponent ∨ 'E' ∈ parts.exponent ↔ parts.exponent ≠ [] := by
    rcases h.exponent with ⟨hx, _⟩ | hx
    · simp [hx]
    · have ⟨c, s, he, hc, _⟩ := exponent_cases hx
      rw [he]
      rcases of_decide_eq_true hc with rfl | rfl <;> simp
  simp only [text, List.mem_append (t := parts.exponent ++ _), hlow, hupp, false_or]
  simpa only [List.mem_append, hlow.right, hupp.right, or_false] using hx

end Scanned

-- The integers of the grammar have no superfluous zero after a minus.
theorem isSigned_iff {whole : List Char} :
    IsSigned whole ↔ IsScannedWhole whole ∧ ∀ d digits, whole ≠ '-' :: '0' :: d :: digits := by
  constructor
  case mp =>
    intro h
    cases h with
    | plain hw =>
      refine ⟨.plain hw, fun d digits he => ?_⟩
      have := List.all_eq_true.mp hw.all_isJsonDigit '-' (he ▸ List.mem_cons_self ..)
      contradiction
    | negative hw =>
      cases hw with
      | zero          => exact ⟨.negative ⟨by decide, rfl⟩, by simp⟩
      | nonzero hf hr =>
        have hd := isJsonDigit_of_isNonzeroDigit hf
        refine ⟨.negative ⟨nofun, by simp [hd, hr]⟩, fun d digits he => ?_⟩
        have hc := (List.cons.inj (List.cons.inj he).right).left
        rw [hc] at hf
        contradiction
  case mpr =>
    intro ⟨h, hz⟩
    cases h with
    | plain hw => exact .plain hw
    | @negative digits hd =>
      refine .negative ?_
      cases digits with
      | nil => exact absurd rfl hd.left
      | cons d digits =>
        have hall := hd.right
        rw [List.all_cons, Bool.and_eq_true] at hall
        rcases of_decide_eq_true hall.left with rfl | hn
        · cases digits
          case nil  => exact .zero
          case cons => exact absurd rfl (hz _ _)
        · exact .nonzero hn hall.right

theorem Scanned.isNumberText (h : parts.Scanned) (hm : ¬parts.Misread) : IsNumberText parts.text := by
  have hl : parts.fractions.length < 2 := by_contra fun hc => hm <| .inr <| .inl <| not_lt.mp hc
  have ha : parts.after = [] := by_contra fun hc => hm <| .inr <| .inr <| .inl hc
  have hs : IsSigned parts.whole :=
    isSigned_iff.mpr ⟨h.whole, fun d digits hc => hm <| .inl ⟨d, digits, hc⟩⟩
  obtain ⟨whole, fractions, exponent, after⟩ := parts
  cases ha
  have ht : (⟨whole, fractions, exponent, []⟩ : NumberParts).text = whole ++ behindDots fractions ++ exponent := by
    simp [NumberParts.text, behindDots]
  rw [ht]
  match fractions with
  | [] =>
    rw [show behindDots [] = [] from rfl, List.append_nil]
    rcases h.exponent with ⟨hx, _⟩ | hx
    · cases hx
      exact (List.append_nil whole).symm ▸ .integer hs
    · exact .integerExponent hs hx
  | [f] =>
    have hf := h.fractions f (List.mem_singleton_self f)
    rw [behindDots_cons, show behindDots [] = [] from rfl, List.append_nil]
    rcases h.exponent with ⟨hx, _⟩ | hx
    · cases hx
      exact (List.append_nil (whole ++ _)).symm ▸ .real hs hf
    · exact .realExponent hs hf hx
  | _ :: _ :: _ => exact absurd hl (by simp)

theorem exists_of_isNumberText {text : List Char} (h : IsNumberText text) :
    ∃ parts : NumberParts, parts.Scanned ∧ parts.text = text ∧ parts.fractions.length ≤ 1 ∧
      parts.after = [] ∧ ∀ d digits, parts.whole ≠ '-' :: '0' :: d :: digits := by
  cases h with
  | integer hs =>
    have ⟨hw, hz⟩ := isSigned_iff.mp hs
    exact ⟨⟨text, [], [], []⟩, ⟨hw, by simp, .inl ⟨rfl, rfl⟩, by simp⟩, by simp [NumberParts.text, behindDots],
      by simp, rfl, hz⟩
  | @real whole digits hs hf =>
    have ⟨hw, hz⟩ := isSigned_iff.mp hs
    exact ⟨⟨whole, [digits], [], []⟩, ⟨hw, by simpa using hf, .inl ⟨rfl, rfl⟩, by simp⟩,
      by simp [NumberParts.text, behindDots], by simp, rfl, hz⟩
  | @integerExponent whole exponent hs hx =>
    have ⟨hw, hz⟩ := isSigned_iff.mp hs
    exact ⟨⟨whole, [], exponent, []⟩, ⟨hw, by simp, .inr hx, by simp⟩,
      by simp [NumberParts.text, behindDots], by simp, rfl, hz⟩
  | @realExponent whole digits exponent hs hf hx =>
    have ⟨hw, hz⟩ := isSigned_iff.mp hs
    exact ⟨⟨whole, [digits], exponent, []⟩, ⟨hw, by simpa using hf, .inr hx, by simp⟩,
      by simp [NumberParts.text, behindDots], by simp, rfl, hz⟩

-- What is accepted beyond the grammar.
theorem Scanned.not_isNumberText (h : parts.Scanned) (hm : (∃ d digits, parts.whole = '-' :: '0' :: d :: digits) ∨
    2 ≤ parts.fractions.length ∨ parts.after ≠ []) : ¬IsNumberText parts.text := by
  intro ht
  have ⟨parts', h', ht', hl, ha, hz⟩ := exists_of_isNumberText ht
  cases h.unique h' ht'.symm
  rcases hm with ⟨d, digits, hw⟩ | hm | hm
  · exact hz d digits hw
  · omega
  · exact hm ha

end NumberParts

end CfEngine
