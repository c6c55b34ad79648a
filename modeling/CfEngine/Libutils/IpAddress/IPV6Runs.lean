import CfEngine.Libutils.IpAddress.IPV6Steps

namespace CfEngine

open Fields

-- A string of lower-case digits, possibly empty, with a value of at most 0xFFFF.
structure HexDigits (s : CString) : Prop where
  digits : ∀ c ∈ s, isLowerHex c
  le     : hexadecimal s ≤ 65535

instance : DecidablePred HexDigits :=
  fun s => decidable_of_iff ((∀ c ∈ s, isLowerHex c) ∧ hexadecimal s ≤ 65535) ⟨fun ⟨hd, hl⟩ => ⟨hd, hl⟩, fun h => ⟨h.digits, h.le⟩⟩

section
variable {s : CString} {c : Char}

@[simp]
theorem hexadecimal_nil : hexadecimal [] = 0 :=
  rfl

theorem hexadecimal_concat : hexadecimal (s ++ [c]) = char2Hex (hexadecimal s) c := by
  rw [hexadecimal, List.foldl_append]
  rfl

theorem le_char2Hex (n : Nat) (c : Char) : n ≤ char2Hex n c := by
  rw [char2Hex]
  grind

theorem hexDigits_nil : HexDigits [] :=
  ⟨fun _ h => (nomatch h), Nat.zero_le _⟩

theorem HexDigits.concat (h : HexDigits s) (hc : isLowerHex c) (hle : char2Hex (hexadecimal s) c ≤ 65535) :
    HexDigits (s ++ [c]) where
  digits := fun x hx => (List.mem_append.mp hx).elim (h.digits x) fun hx => List.mem_singleton.mp hx ▸ hc
  le     := hexadecimal_concat ▸ hle

theorem HexDigits.of_concat (h : HexDigits (s ++ [c])) : HexDigits s ∧ isLowerHex c where
  left  := ⟨fun x hx => h.digits x <| List.mem_append_left _ hx,
    Nat.le_trans (le_char2Hex _ _) (hexadecimal_concat ▸ h.le)⟩
  right := h.digits c <| List.mem_append_right _ <| List.mem_singleton_self c

end

-- The groups that have been read, where the others are zero.
def sixteenOf (groups : List CString) : Vector UInt16 8 :=
  Vector.ofFn fun i => .ofNat <| hexadecimal <| groups.getD i []

def opening (bracket : Bool) : CString :=
  if bracket then ['['] else []

-- What is read of the groups of an address: those before the colons of the zero compression, those after them, if
-- they have been read, and the digits of the current one.
structure GroupsRead where
  before  : List CString
  after   : Option (List CString)
  current : CString

namespace GroupsRead

open IPV6Parse

def text (r : GroupsRead) : CString :=
  terminated ':' r.before ++ (r.after.elim [] (':' :: terminated ':' ·) ++ r.current)

-- The place of the current group, where the colons of the zero compression stand for the groups up to the second one.
def place (r : GroupsRead) : Nat :=
  match r.after with
  | none       => r.before.length
  | some after => max 2 r.before.length + after.length

-- The state of the parser. After colons of the zero compression that do not change it, the counter of characters is one.
def parse (r : GroupsRead) (bracket : Bool) : IPV6Parse :=
  match r.after with
  | none       =>
    { state := r.place, sixteen := hexadecimal r.current, bracket_expected := bracket,
      char_counter := (if bracket ∧ r.before = [] then 1 else 0) + r.current.length,
      address := ⟨sixteenOf r.before, 0⟩ }
  | some after =>
    { state := r.place, sixteen := hexadecimal r.current,
      unsorted_sixteen := after.map hexadecimal, bracket_expected := bracket,
      char_counter := (if 2 ≤ r.before.length ∧ after = [] then 1 else 0) + r.current.length,
      zero_compression := true, already_compressed := true, address := ⟨sixteenOf r.before, 0⟩ }

-- The first group may be empty, and so may be the first one after the colons if these do not change the state.
structure Fits (r : GroupsRead) : Prop where
  current : HexDigits r.current
  before  : ∀ g ∈ r.before, HexDigits g
  tail    : ∀ g ∈ r.before.tail, g ≠ []
  length  : r.before.length ≤ 7
  after   : ∀ after ∈ r.after, r.before ≠ [] ∧ r.before.length ≤ 6 ∧ max 2 r.before.length + after.length ≤ 7 ∧
    (∀ g ∈ after, HexDigits g) ∧ (∀ g ∈ after.tail, g ≠ []) ∧ ([] ∈ after.head? → 2 ≤ r.before.length)

def push (r : GroupsRead) (c : Char) : GroupsRead :=
  { r with current := r.current ++ [c] }

def colon (r : GroupsRead) : GroupsRead :=
  match r.after with
  | none       => if r.before ≠ [] ∧ r.current = [] then ⟨r.before, some [], []⟩ else ⟨r.before ++ [r.current], none, []⟩
  | some after => ⟨r.before, some <| after ++ [r.current], []⟩

-- A colon may come next.
def TakesColon (r : GroupsRead) : Prop :=
  r.place < 7 ∧ ∀ after ∈ r.after, r.current = [] → 2 ≤ r.before.length ∧ after = []

instance : DecidablePred TakesColon :=
  fun r => inferInstanceAs <| Decidable <|
    r.place < 7 ∧ ∀ after ∈ r.after, r.current = [] → 2 ≤ r.before.length ∧ after = []

-- A bracket may come next, if one is expected.
def Closes (r : GroupsRead) : Prop :=
  r.place = 7 ∨ r.after ≠ none

section
variable {r : GroupsRead} {bracket : Bool} {c : Char}

theorem store_sixteenOf {groups : List CString} {g : CString} :
    store ⟨sixteenOf groups, 0⟩ groups.length (hexadecimal g) = ⟨sixteenOf (groups ++ [g]), 0⟩ := by
  refine IPV6Address.ext (Vector.ext fun i hi => ?_) rfl
  simp only [store, sixteenOf, Vector.getElem_setIfInBounds, Vector.getElem_ofFn]
  split
  case isTrue he  => simp [←he]
  case isFalse he => grind

theorem Fits.inGroups (h : r.Fits) : (r.parse bracket).InGroups := by
  obtain ⟨before, after, current⟩ := r
  cases after
  case none       => exact ⟨h.length, h.current.le, rfl, rfl⟩
  case some after => exact ⟨(h.after after rfl).right.right.left, h.current.le, rfl, rfl⟩

@[simp]
theorem parse_sixteen : (r.parse bracket).sixteen = hexadecimal r.current := by
  rw [parse]
  split <;> rfl

@[simp]
theorem parse_state : (r.parse bracket).state = r.place := by
  rw [parse]
  split <;> rfl

@[simp]
theorem parse_bracket_expected : (r.parse bracket).bracket_expected = bracket := by
  rw [parse]
  split <;> rfl

theorem Fits.unsorted_lt (h : r.Fits) : (r.parse bracket).unsorted_sixteen.length < 6 := by
  cases ha : r.after
  case none       => simp [parse, ha]
  case some after =>
    have hmax := (h.after after ha).right.right.left
    simp only [parse, ha, List.length_map]
    omega

theorem Fits.unsorted_close_lt (h : r.Fits) : (r.parse bracket).close.unsorted_sixteen.length < 6 := by
  have hlt := @Fits.unsorted_lt r bracket h
  rw [close, parse_state]
  split
  case isTrue      => exact hlt
  case isFalse hne =>
    cases ha : r.after
    case none       => simp [storeUnsorted, reset, parse, ha]
    case some after =>
      have hmax := (h.after after ha).right.right.left
      simp only [place, ha] at hne
      simp only [storeUnsorted, reset, parse, ha, List.length_append, List.length_map, List.length_singleton]
      omega

theorem text_push : (r.push c).text = r.text ++ [c] := by
  simp [text, push]

theorem parse_push : (r.push c).parse bracket =
    { r.parse bracket with sixteen := char2Hex (r.parse bracket).sixteen c, char_counter := (r.parse bracket).char_counter + 1 } := by
  obtain ⟨before, after, current⟩ := r
  cases after <;>
    simp only [parse, push, hexadecimal_concat, List.length_append, List.length_singleton, Nat.add_assoc] <;> rfl

theorem Fits.push (h : r.Fits) (hc : isLowerHex c) (hle : char2Hex (hexadecimal r.current) c ≤ 65535) :
    (r.push c).Fits :=
  { h with current := h.current.concat hc hle }

theorem text_colon : r.colon.text = r.text ++ [':'] := by
  obtain ⟨before, after, current⟩ := r
  cases after
  case none       =>
    simp only [colon]
    split
    case isTrue h  => simp [text, h.right, terminated]
    case isFalse h => simp [text, terminated_concat]
  case some after => simp [text, colon, terminated_concat]

theorem TakesColon.state_lt (h : r.TakesColon) : (r.parse bracket).state < 7 :=
  parse_state ▸ h.left

theorem TakesColon.already_compressed (h : r.TakesColon) (hcounter : (r.parse bracket).char_counter = 0) :
    (r.parse bracket).already_compressed = false := by
  cases ha : r.after
  case none       => simp [parse, ha]
  case some after =>
    have hcurrent : r.current = [] := by
      simp only [parse, ha] at hcounter
      exact List.length_eq_zero_iff.mp (by omega)
    have := h.right after ha hcurrent
    simp [parse, ha, this] at hcounter

theorem parse_colon (h : r.Fits) (hc : r.TakesColon) : r.colon.parse bracket = (r.parse bracket).afterColon := by
  obtain ⟨before, after, current⟩ := r
  have hstore (groups : List CString) := (@store_sixteenOf groups current).symm
  cases after
  case none       =>
    rcases before with _ | ⟨a, _ | ⟨b, before⟩⟩
    · simp [parse, place, colon, afterColon, storeSixteen, reset]
      exact hstore []
    · by_cases hcurrent : current = []
      case pos => simp [parse, place, colon, afterColon, compress, reset, hcurrent]
      case neg =>
        simp [parse, place, colon, afterColon, storeSixteen, reset, hcurrent]
        exact hstore [a]
    · by_cases hcurrent : current = []
      case pos => simp [parse, place, colon, afterColon, compress, reset, hcurrent]
      case neg =>
        simp [parse, place, colon, afterColon, storeSixteen, reset, hcurrent]
        exact hstore (a :: b :: before)
  case some after =>
    have hstate : ¬max 2 before.length + after.length ≤ 1 := by omega
    have hcounter : (if 2 ≤ before.length ∧ after = [] then 1 else 0) + current.length ≠ 0 := by
      by_cases hcurrent : current = []
      case pos => simp [hc.right after rfl hcurrent]
      case neg => simp [hcurrent]
    simp only [parse, place, colon, afterColon, if_neg hstate, if_neg hcounter]
    simp [storeUnsorted, reset, Nat.add_assoc]

theorem Fits.colon (h : r.Fits) (hc : r.TakesColon) : r.colon.Fits := by
  obtain ⟨before, after, current⟩ := r
  have hall {gs : List CString} (hgs : ∀ g ∈ gs, HexDigits g) : ∀ g ∈ gs ++ [current], HexDigits g := fun g hg =>
    (List.mem_append.mp hg).elim (hgs g) fun hg => List.mem_singleton.mp hg ▸ h.current
  have htail {gs : List CString} (hgs : ∀ g ∈ gs.tail, g ≠ []) (hne : gs ≠ [] → current ≠ []) :
      ∀ g ∈ (gs ++ [current]).tail, g ≠ [] := by
    cases gs
    case nil       => exact fun g hg => nomatch hg
    case cons e gs =>
      intro g hg
      exact (List.mem_append.mp hg).elim (hgs g) fun hg => List.mem_singleton.mp hg ▸ hne nofun
  cases after
  case none       =>
    have hlt : before.length < 7 := hc.left
    simp only [GroupsRead.colon]
    split
    case isTrue hz  =>
      exact ⟨hexDigits_nil, h.before, h.tail, h.length, fun after ha => by cases ha; grind⟩
    case isFalse hz =>
      refine ⟨hexDigits_nil, hall h.before, htail h.tail fun hb hcurrent => hz ⟨hb, hcurrent⟩, ?_, nofun⟩
      rw [List.length_append]
      exact hlt
  case some after =>
    have ⟨hne, hle, _, hafter, htail', hhead⟩ := h.after after rfl
    have hlt : max 2 before.length + after.length < 7 := hc.left
    have hempty := hc.right after rfl
    refine ⟨hexDigits_nil, h.before, h.tail, h.length, fun after' ha => ?_⟩
    cases ha
    refine ⟨hne, hle, ?_, hall hafter, htail htail' fun ha hcurrent => ha (hempty hcurrent).right, fun hm => ?_⟩
    case refine_1 =>
      rw [List.length_append]
      exact hlt
    case refine_2 =>
      cases after
      case nil    => exact (hempty <| Option.some.inj hm).left
      case cons g => exact hhead hm

-- The parser comes from its first state to the state that stands for what has been read.
def Runs (r : GroupsRead) (bracket : Bool) : Prop :=
  (opening bracket ++ r.text).foldlM step {} = some (r.parse bracket)

theorem runs_start : Runs ⟨[], none, []⟩ bracket := by
  cases bracket <;> rfl

theorem Runs.push (h : r.Runs bracket) (hr : r.Fits) (hc : isLowerHex c)
    (hle : char2Hex (hexadecimal r.current) c ≤ 65535) : (r.push c).Runs bracket := by
  have hstep := step_lower (@Fits.inGroups r bracket hr) hc
  rw [parse_sixteen, if_pos hle] at hstep
  rw [Runs, text_push, ←List.append_assoc, List.foldlM_append, h, parse_push, parse_sixteen]
  simp [hstep]

theorem Runs.colon (h : r.Runs bracket) (hr : r.Fits) (hc : r.TakesColon) : r.colon.Runs bracket := by
  have hstep := step_colon (@Fits.inGroups r bracket hr) hc.state_lt fun _ => hc.already_compressed
  rw [Runs, text_colon, ←List.append_assoc, List.foldlM_append, h, parse_colon hr hc]
  simp [hstep]

theorem runs_current {before : List CString} {after : Option (List CString)} {current : CString}
    (h : (GroupsRead.mk before after current).Fits) (hruns : (GroupsRead.mk before after []).Runs bracket) :
    (GroupsRead.mk before after current).Runs bracket := by
  induction current using List.reverseRecOn
  case nil                          => exact hruns
  case append_singleton current c ih =>
    have ⟨hcurrent, hc⟩ := h.current.of_concat
    have h' : (GroupsRead.mk before after current).Fits := { h with current := hcurrent }
    exact (ih h').push h' hc <| hexadecimal_concat ▸ h.current.le

-- Only the first group may be empty.
theorem ne_nil_of_tail {groups : List CString} {g : CString} (h : ∀ e ∈ (groups ++ [g]).tail, e ≠ []) (hne : groups ≠ []) :
    g ≠ [] := by
  cases groups
  case nil            => exact absurd rfl hne
  case cons e groups => exact h g <| List.mem_append_right _ <| List.mem_singleton_self g

theorem tail_of_tail {groups : List CString} {g : CString} (h : ∀ e ∈ (groups ++ [g]).tail, e ≠ []) :
    ∀ e ∈ groups.tail, e ≠ [] := by
  cases groups
  case nil            => exact fun e he => nomatch he
  case cons e groups => exact fun e he => h e <| List.mem_append_left _ he

theorem runs_before {before : List CString} (h : (GroupsRead.mk before none []).Fits) :
    (GroupsRead.mk before none []).Runs bracket := by
  induction before using List.reverseRecOn
  case nil                         => exact runs_start
  case append_singleton before g ih =>
    have hlt : before.length < 7 := Nat.lt_of_succ_le <| by simpa using h.length
    have hcolon : (GroupsRead.mk before none g).colon = ⟨before ++ [g], none, []⟩ :=
      if_neg fun ⟨hne, hg⟩ => ne_nil_of_tail h.tail hne hg
    have hg : HexDigits g := h.before g <| List.mem_append_right _ <| List.mem_singleton_self g
    have hfits : (GroupsRead.mk before none g).Fits :=
      ⟨hg, fun e he => h.before e <| List.mem_append_left _ he, tail_of_tail h.tail, Nat.le_of_lt hlt, nofun⟩
    have hruns := runs_current hfits <| ih { hfits with current := hexDigits_nil }
    exact hcolon ▸ hruns.colon hfits ⟨hlt, nofun⟩

theorem runs_after {before after : List CString} (h : (GroupsRead.mk before (some after) []).Fits) :
    (GroupsRead.mk before (some after) []).Runs bracket := by
  have ⟨hne, hle, hmax, hafter, htail, hhead⟩ := h.after after rfl
  induction after using List.reverseRecOn
  case nil                        =>
    have hfits : (GroupsRead.mk before none []).Fits := ⟨hexDigits_nil, h.before, h.tail, h.length, nofun⟩
    have hcolon : (GroupsRead.mk before none []).colon = ⟨before, some [], []⟩ := if_pos ⟨hne, rfl⟩
    exact hcolon ▸ (runs_before hfits).colon hfits ⟨Nat.lt_succ_of_le hle, nofun⟩
  case append_singleton after g ih =>
    have hg : HexDigits g := hafter g <| List.mem_append_right _ <| List.mem_singleton_self g
    have hlt : max 2 before.length + after.length < 7 := by
      rw [List.length_append, List.length_singleton] at hmax
      exact hmax
    have hhead' : [] ∈ after.head? → 2 ≤ before.length := by
      cases after
      case nil    => exact fun hm => nomatch hm
      case cons e => exact hhead
    have hfits : (GroupsRead.mk before (some after) g).Fits := by
      refine ⟨hg, h.before, h.tail, h.length, fun after' ha => ?_⟩
      cases ha
      exact ⟨hne, hle, Nat.le_of_lt hlt, fun e he => hafter e <| List.mem_append_left _ he, tail_of_tail htail, hhead'⟩
    have hempty (after' : List CString) (ha : after' ∈ some after) (hnil : g = []) :
        2 ≤ before.length ∧ after' = [] := by
      cases ha
      have hnil' : after = [] := by_contra fun hne => ne_nil_of_tail htail hne hnil
      exact ⟨hhead <| by rw [hnil', hnil]; rfl, hnil'⟩
    have hruns := runs_current hfits <| ih { hfits with current := hexDigits_nil } hne hle (Nat.le_of_lt hlt)
      (fun e he => hafter e <| List.mem_append_left _ he) (tail_of_tail htail) hhead'
    exact hruns.colon hfits ⟨hlt, hempty⟩

theorem Fits.runs (h : r.Fits) : r.Runs bracket := by
  have hstart : (GroupsRead.mk r.before r.after []).Fits := { h with current := hexDigits_nil }
  refine runs_current h ?_
  cases ha : r.after
  case none       => exact runs_before <| ha ▸ hstart
  case some after => exact runs_after <| ha ▸ hstart

theorem closes_iff : (r.parse bracket).state = 7 ∨ 2 ≤ (r.parse bracket).state ∧ (r.parse bracket).zero_compression ↔
    r.Closes := by
  cases ha : r.after
  case none       => simp [Closes, parse, place, ha]
  case some after => simp [Closes, parse, place, ha]; omega

theorem runs_closed (h : r.Fits) (hc : r.Closes) :
    ('[' :: (r.text ++ [']'])).foldlM step {} = some (r.parse true).close := by
  have hruns : ('[' :: r.text).foldlM step {} = some (r.parse true) := @Fits.runs r true h
  rw [←List.cons_append, List.foldlM_append, hruns]
  simp [step_closing h.inGroups parse_bracket_expected (closes_iff.mpr hc)]

-- The digits of the port are read behind the brackets.
def portRead (parse : IPV6Parse) (p : CString) : IPV6Parse :=
  { parse with state := 9, port := decimal p, char_counter := p.length }

theorem behind_portRead {parse : IPV6Parse} {p : CString} (h : parse.Behind) (hp : DigitsUpTo 65535 p) :
    (portRead parse p).Behind :=
  ⟨h.sixteen, hp.le, h.is_upper_hexdigit⟩

theorem runs_port {p : CString} (h : r.Fits) (hc : r.Closes) (hp : DigitsUpTo 65535 p) :
    ('[' :: (r.text ++ ']' :: ':' :: p)).foldlM step {} = some (portRead (r.parse true).close p) := by
  induction p using List.reverseRecOn
  case nil                    =>
    have hs : '[' :: (r.text ++ [']', ':']) = '[' :: (r.text ++ [']']) ++ [':'] := by simp
    rw [hs, List.foldlM_append, runs_closed h hc]
    simp only [Option.bind_eq_bind, Option.bind_some, List.foldlM_cons, List.foldlM_nil, step_closed behind_close rfl]
    rfl
  case append_singleton p c ih =>
    have ⟨hp', hd⟩ := hp.of_concat
    have hle : char2Dec (decimal p) c ≤ 65535 := decimal_concat ▸ hp.le
    have hs : '[' :: (r.text ++ ']' :: ':' :: (p ++ [c])) = '[' :: (r.text ++ ']' :: ':' :: p) ++ [c] := by simp
    have hstep := step_port (behind_portRead (@behind_close (r.parse true)) hp') rfl hd
    rw [portRead, if_pos hle] at hstep
    rw [hs, List.foldlM_append, ih hp', portRead, portRead, decimal_concat, List.length_append]
    simp [hstep]

end

-- What is read of a text, with the state of the parser after it.
inductive Reached : CString → IPV6Parse → Prop
  | groups {r : GroupsRead} {bracket : Bool} (h : r.Fits) : Reached (opening bracket ++ r.text) (r.parse bracket)
  | closed {r : GroupsRead} (h : r.Fits) (hc : r.Closes) : Reached ('[' :: (r.text ++ [']'])) (r.parse true).close
  | port {r : GroupsRead} {p : CString} (h : r.Fits) (hc : r.Closes) (hp : DigitsUpTo 65535 p) :
    Reached ('[' :: (r.text ++ ']' :: ':' :: p)) (portRead (r.parse true).close p)
  | error {s : CString} {parse : IPV6Parse} (h : parse.state = 11) (hu : parse.unsorted_sixteen.length < 6) :
    Reached s parse

section
variable {r : GroupsRead} {bracket : Bool} {c : Char} {s : CString} {parse parse' : IPV6Parse}

theorem Reached.of_failsAt {c : Char} (herror : parse.FailsAt c) (hu : parse.unsorted_sixteen.length < 6)
    (hc : parse.step c = some parse') : Reached s parse' := by
  have ⟨parse'', hstep, hstate, hunsorted⟩ := herror
  cases Option.some.inj <| hc.symm.trans hstep
  exact .error hstate <| hunsorted ▸ hu

theorem state_of_not_takesColon (h : r.Fits) (hc : ¬r.TakesColon) : (r.parse bracket).state = 7 ∨
    2 ≤ (r.parse bracket).state ∧ (r.parse bracket).char_counter = 0 ∧ (r.parse bracket).already_compressed = true := by
  have hle := (@Fits.inGroups r bracket h).state_le
  obtain ⟨before, after, current⟩ := r
  cases after
  case none       => exact .inl <| Nat.le_antisymm hle <| Nat.le_of_not_lt fun hlt => hc ⟨hlt, nofun⟩
  case some after =>
    by_cases hlt : max 2 before.length + after.length < 7
    case neg => exact .inl <| Nat.le_antisymm hle <| Nat.le_of_not_lt hlt
    case pos =>
      have ⟨hcurrent, hne⟩ : current = [] ∧ ¬(2 ≤ before.length ∧ after = []) := by
        by_contra hn
        refine hc ⟨hlt, fun after' ha hcurrent => ?_⟩
        cases ha
        exact by_contra fun hne => hn ⟨hcurrent, hne⟩
      refine .inr ⟨show 2 ≤ max 2 before.length + after.length by omega, ?_, rfl⟩
      rw [parse, hcurrent]
      exact if_neg hne

theorem fits_start : (GroupsRead.mk [] none []).Fits :=
  ⟨hexDigits_nil, fun _ h => (nomatch h), fun _ h => (nomatch h), Nat.zero_le _, nofun⟩

theorem eq_start (hstate : (r.parse bracket).state = 0) (hcounter : (r.parse bracket).char_counter = 0) :
    r = ⟨[], none, []⟩ ∧ bracket = false := by
  obtain ⟨before, after, current⟩ := r
  cases after
  case some after =>
    have hzero : max 2 before.length + after.length = 0 := hstate
    omega
  case none       =>
    cases List.length_eq_zero_iff.mp hstate
    cases bracket
    case true  => simp [parse] at hcounter
    case false =>
      have hcurrent : current = [] := by simpa [parse] using hcounter
      exact ⟨by rw [hcurrent], rfl⟩

theorem Reached.step_groups (h : r.Fits) (hc : (r.parse bracket).step c = some parse') :
    Reached (opening bracket ++ r.text ++ [c]) parse' := by
  have hin := @Fits.inGroups r bracket h
  by_cases hlower : isLowerHex c
  case pos =>
    rw [step_lower hin hlower] at hc
    split at hc
    case isFalse    => nomatch hc
    case isTrue hle =>
      rw [←Option.some.inj hc, ←parse_push, List.append_assoc, ←text_push]
      exact .groups <| h.push hlower <| parse_sixteen ▸ hle
  case neg =>
    by_cases hcolon : c = ':'
    case pos =>
      subst hcolon
      by_cases htakes : r.TakesColon
      case pos =>
        rw [step_colon hin htakes.state_lt fun _ => htakes.already_compressed] at hc
        rw [←Option.some.inj hc, ←parse_colon h htakes, List.append_assoc, ←text_colon]
        exact .groups <| h.colon htakes
      case neg => exact .of_failsAt (step_colon_error hin <| state_of_not_takesColon h htakes) h.unsorted_lt hc
    case neg =>
      by_cases hclosing : c = ']'
      case pos =>
        subst hclosing
        by_cases hcloses : bracket ∧ r.Closes
        case pos =>
          rw [step_closing hin (parse_bracket_expected.trans hcloses.left) (closes_iff.mpr hcloses.right)] at hc
          rw [←Option.some.inj hc, hcloses.left]
          exact .closed h hcloses.right
        case neg =>
          have herror := step_closing_error hin fun ⟨hbracket, hstate⟩ =>
            hcloses ⟨parse_bracket_expected.symm.trans hbracket, closes_iff.mp hstate⟩
          exact .of_failsAt herror h.unsorted_lt hc
      case neg =>
        by_cases hopening : c = '[' ∧ (r.parse bracket).state = 0 ∧ (r.parse bracket).char_counter = 0
        case pos =>
          have ⟨hopening, hstate, hcounter⟩ := hopening
          subst hopening
          have ⟨hr, hbracket⟩ := eq_start hstate hcounter
          rw [step_opening hin hstate hcounter, hr, hbracket] at hc
          rw [←Option.some.inj hc, hr, hbracket]
          exact @Reached.groups ⟨[], none, []⟩ true fits_start
        case neg => exact .of_failsAt (step_other hin hlower hcolon hclosing <| by grind) h.unsorted_lt hc

theorem Reached.step (h : Reached s parse) (hc : parse.step c = some parse') : Reached (s ++ [c]) parse' := by
  cases h
  case groups r bracket h => exact step_groups h hc
  case closed r h hcloses =>
    by_cases hcolon : c = ':'
    case pos =>
      subst hcolon
      rw [step_closed behind_close rfl] at hc
      rw [←Option.some.inj hc]
      have hs : '[' :: (r.text ++ [']']) ++ [':'] = '[' :: (r.text ++ ']' :: ':' :: []) := by simp
      exact hs ▸ .port h hcloses digitsUpTo_nil
    case neg => exact .of_failsAt (step_closed_error behind_close rfl hcolon) h.unsorted_close_lt hc
  case port r p h hcloses hp =>
    have hbehind := behind_portRead (@behind_close (r.parse true)) hp
    by_cases hd : isdigit c
    case pos =>
      rw [step_port hbehind rfl hd] at hc
      split at hc
      case isFalse    => nomatch hc
      case isTrue hle =>
        have hs : '[' :: (r.text ++ ']' :: ':' :: p) ++ [c] = '[' :: (r.text ++ ']' :: ':' :: (p ++ [c])) := by simp
        have hr := Reached.port h hcloses <| hp.concat hd hle
        rw [portRead, decimal_concat, List.length_append] at hr
        rw [←Option.some.inj hc, hs]
        exact hr
    case neg => exact .of_failsAt (step_port_error hbehind rfl hd) h.unsorted_close_lt hc
  case error h _ => nomatch (step_error h).symm.trans hc

theorem reached_of_foldlM (h : s.foldlM IPV6Parse.step {} = some parse) : Reached s parse := by
  induction s using List.reverseRecOn generalizing parse
  case nil             =>
    rw [←Option.some.inj h]
    exact @Reached.groups ⟨[], none, []⟩ false fits_start
  case append_singleton s c ih =>
    rw [List.foldlM_append] at h
    have ⟨parse₀, h₀, hc⟩ := Option.bind_eq_some_iff.mp h
    exact (ih h₀).step <| by simpa using hc

theorem Reached.unsorted_lt (h : Reached s parse) : parse.unsorted_sixteen.length < 6 := by
  cases h
  case groups hr     => exact hr.unsorted_lt
  case closed hr _   => exact hr.unsorted_close_lt
  case port hr _ _   => exact hr.unsorted_close_lt
  case error _ hu    => exact hu

end

end GroupsRead

end CfEngine
