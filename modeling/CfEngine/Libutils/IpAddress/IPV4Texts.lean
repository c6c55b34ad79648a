import CfEngine.Libutils.IpAddress.RoundTrip
import CfEngine.Libutils.Scanf

namespace CfEngine

open Fields

-- A string of digits, possibly empty, with a value of at most `max`.
structure DigitsUpTo (max : Nat) (s : CString) : Prop where
  digits : ∀ c ∈ s, isdigit c
  le     : decimal s ≤ max

structure IsNumeral (max : Nat) (s : CString) : Prop extends DigitsUpTo max s where
  ne_nil : s ≠ []

instance {max : Nat} : DecidablePred (IsNumeral max) :=
  fun s => decidable_of_iff ((∀ c ∈ s, isdigit c) ∧ decimal s ≤ max ∧ s ≠ [])
    ⟨fun ⟨hd, hl, hn⟩ => ⟨⟨hd, hl⟩, hn⟩, fun h => ⟨h.digits, h.le, h.ne_nil⟩⟩

-- An address as it is written, with its port, if any.
structure IPV4Text where
  octets : List CString
  port   : Option CString

namespace IPV4Text

def text (t : IPV4Text) : CString :=
  ['.'].intercalate t.octets ++ t.port.elim [] (':' :: ·)

structure Valid (t : IPV4Text) : Prop where
  length : t.octets.length = 4
  octets : ∀ d ∈ t.octets, IsNumeral 255 d
  port   : ∀ p ∈ t.port, IsNumeral 65535 p

structure Denotes (t : IPV4Text) (address : IPV4Address) : Prop where
  octets : address.octets.toList.map UInt8.toNat = t.octets.map decimal
  port   : address.port.toNat = (t.port.map decimal).getD 0

end IPV4Text

-- The parser accepts the source exactly if it is the text of an address, and gives this address.
def ReadsIPV4 (source : CString) : Prop :=
  ∀ address, ipv4Parser source = some address ↔ ∃ t : IPV4Text, t.Valid ∧ t.text = source ∧ t.Denotes address

section
variable {max : Nat} {s t source : CString} {c : Char} {ds : List CString} {d : CString}

@[simp]
theorem decimal_nil : decimal [] = 0 :=
  rfl

theorem decimal_concat : decimal (s ++ [c]) = char2Dec (decimal s) c := by
  rw [decimal, Nat.ofDigitChars_append, Nat.ofDigitChars_cons, Nat.ofDigitChars_nil, Nat.mul_comm]
  rfl

theorem le_char2Dec (n : Nat) (c : Char) : n ≤ char2Dec n c := by
  rw [char2Dec]
  omega

theorem digitsUpTo_nil : DigitsUpTo max [] :=
  ⟨fun _ h => (nomatch h), Nat.zero_le _⟩

theorem DigitsUpTo.concat (h : DigitsUpTo max s) (hc : isdigit c) (hle : char2Dec (decimal s) c ≤ max) :
    DigitsUpTo max (s ++ [c]) where
  digits := fun x hx => (List.mem_append.mp hx).elim (h.digits x) fun hx => List.mem_singleton.mp hx ▸ hc
  le     := decimal_concat ▸ hle

theorem DigitsUpTo.of_concat (h : DigitsUpTo max (s ++ [c])) : DigitsUpTo max s ∧ isdigit c where
  left  := ⟨fun x hx => h.digits x <| List.mem_append_left _ hx,
    Nat.le_trans (le_char2Dec _ _) (decimal_concat ▸ h.le)⟩
  right := h.digits c <| List.mem_append_right _ <| List.mem_singleton_self c

-- The character that has to come after the octet.
def octetEnd (i : Nat) : Char :=
  if i < 3 then '.' else ':'

-- After the digits of an octet comes one other character than the one that has to, and nothing after it.
def EndsInError (source : CString) : Prop :=
  ∃ ds d c, ds.length ≤ 3 ∧ (∀ d ∈ ds, IsNumeral 255 d) ∧ IsNumeral 255 d ∧ ¬isdigit c ∧ c ≠ octetEnd ds.length ∧
    source = terminated '.' ds ++ (d ++ [c])

end

namespace IPV4Parse

def readingPort (address : IPV4Address) (v k : Nat) : IPV4Parse :=
  { state := 5, port := v, char_counter := k, address }

-- The octets that have been read, where the others are zero.
def octetsOf (ds : List CString) : Vector UInt8 4 :=
  Vector.ofFn fun i => .ofNat <| decimal <| ds.getD i []

-- What is read of a text, with the state of the parser after it.
inductive Reached : CString → IPV4Parse → Prop
  | octet {ds : List CString} {t : CString} (hl : ds.length ≤ 3) (hds : ∀ d ∈ ds, IsNumeral 255 d)
    (ht : DigitsUpTo 255 t) :
    Reached (terminated '.' ds ++ t) (reading ds.length ⟨octetsOf ds, 0⟩ (decimal t) t.length)
  | port {ds : List CString} {d t : CString} (hl : ds.length = 3) (hds : ∀ e ∈ ds ++ [d], IsNumeral 255 e)
    (ht : DigitsUpTo 65535 t) :
    Reached (terminated '.' ds ++ (d ++ ':' :: t)) (readingPort ⟨octetsOf (ds ++ [d]), 0⟩ (decimal t) t.length)
  | error {s : CString} {parse : IPV4Parse} (h : EndsInError s) (hp : parse.state = 7) : Reached s parse

variable {s t d : CString} {c : Char} {ds : List CString} {address : IPV4Address} {parse : IPV4Parse} {i v k : Nat}

theorem step_reading (hi : i ≤ 3) (hv : v ≤ 255) : (reading i address v k).step c =
    if isdigit c then
      if char2Dec v c ≤ 255 then some <| reading i address (char2Dec v c) (k + 1) else none
    else if k = 0 then none
    else if c = octetEnd i then some { state := if i < 3 then i + 1 else 5, address := store address i v }
    else some { state := 7, address } := by
  have hoctet : ¬255 < v := by omega
  by_cases hd : isdigit c
  case pos =>
    have hdot : c ≠ '.' := fun hc => by rw [hc] at hd; nomatch hd
    have hcolon : c ≠ ':' := fun hc => by rw [hc] at hd; nomatch hd
    rw [if_pos hd]
    by_cases hle : char2Dec v c ≤ 255
    case pos =>
      have hlt : ¬255 < char2Dec v c := by omega
      rw [if_pos hle]
      interval_cases i <;> simp [step, switch, check, reading, digit, hd, hdot, hcolon, hlt]
    case neg =>
      have hlt : 255 < char2Dec v c := by omega
      rw [if_neg hle]
      interval_cases i <;> simp [step, switch, check, reading, digit, hd, hlt]
  case neg =>
    rw [if_neg hd]
    by_cases hk : k = 0
    case pos =>
      rw [if_pos hk, hk]
      interval_cases i <;>
        simp only [step, switch, check, reading, hd, storeOctet, reduceIte, Bool.false_eq_true] <;> grind
    case neg =>
      have hpos : 0 < k := Nat.pos_of_ne_zero hk
      rw [if_neg hk]
      by_cases hc : c = octetEnd i
      case pos =>
        rw [if_pos hc, hc]
        interval_cases i <;> simp [step, switch, check, reading, octetEnd, storeOctet, store, isdigit, hpos, hoctet]
      case neg =>
        rw [if_neg hc]
        interval_cases i <;> simp [octetEnd] at hc <;>
          simp [step, switch, check, reading, hd, hc, hpos, hoctet] <;> grind

-- No digits are noticed in the port, so that nothing may come after it.
theorem step_readingPort : (readingPort address v k).step c =
    if isdigit c ∧ char2Dec v c ≤ 65535 then some <| readingPort address (char2Dec v c) (k + 1) else none := by
  by_cases hd : isdigit c
  case pos =>
    have hdot : c ≠ '.' := fun hc => by rw [hc] at hd; nomatch hd
    have hcolon : c ≠ ':' := fun hc => by rw [hc] at hd; nomatch hd
    by_cases hle : char2Dec v c ≤ 65535
    case pos =>
      have hlt : ¬65535 < char2Dec v c := by omega
      simp [step, switch, check, readingPort, hd, hdot, hcolon, hlt, hle]
    case neg =>
      have hlt : 65535 < char2Dec v c := by omega
      simp [step, switch, check, readingPort, hd, hlt, hle]
  case neg => simp [step, switch, check, readingPort, hd]

theorem store_octetsOf : store ⟨octetsOf ds, 0⟩ ds.length (decimal d) = ⟨octetsOf (ds ++ [d]), 0⟩ := by
  refine IPV4Address.ext (Vector.ext fun i hi => ?_) rfl
  simp only [store, octetsOf, Vector.getElem_setIfInBounds, Vector.getElem_ofFn]
  split
  case isTrue he  => simp [←he]
  case isFalse he => grind

theorem Reached.step {parse' : IPV4Parse} (h : Reached s parse) (hc : parse.step c = some parse') :
    Reached (s ++ [c]) parse' := by
  cases h
  case octet ds t hl hds ht =>
    rw [step_reading hl ht.le] at hc
    split at hc
    case isTrue hd  =>
      rw [←decimal_concat] at hc
      split at hc
      case isFalse    => nomatch hc
      case isTrue hle =>
        have hlen : t.length + 1 = (t ++ [c]).length := by rw [List.length_append, List.length_singleton]
        rw [←Option.some.inj hc, hlen, List.append_assoc]
        exact .octet hl hds <| ht.concat hd <| decimal_concat ▸ hle
    case isFalse hd =>
      split at hc
      case isTrue     => nomatch hc
      case isFalse hk =>
        have ht : IsNumeral 255 t := ⟨ht, fun hn => hk <| hn ▸ rfl⟩
        have hds' : ∀ d ∈ ds ++ [t], IsNumeral 255 d := fun d hd =>
          (List.mem_append.mp hd).elim (hds d) fun hd => List.mem_singleton.mp hd ▸ ht
        rw [store_octetsOf] at hc
        split at hc
        case isTrue he  =>
          rw [←Option.some.inj hc, he, octetEnd]
          split
          case isTrue hlt  =>
            have hr := @Reached.octet (ds ++ [t]) [] (by rw [List.length_append]; exact hlt) hds' digitsUpTo_nil
            rw [terminated_concat, List.append_nil, List.length_append] at hr
            rw [List.append_assoc]
            exact hr
          case isFalse hlt =>
            rw [List.append_assoc]
            exact .port (Nat.le_antisymm hl <| Nat.le_of_not_lt hlt) hds' digitsUpTo_nil
        case isFalse he =>
          rw [←Option.some.inj hc, List.append_assoc]
          exact .error ⟨ds, t, c, hl, hds, ht, hd, he, rfl⟩ rfl
  case port ds d t hl hds ht =>
    rw [step_readingPort] at hc
    split at hc
    case isFalse   => nomatch hc
    case isTrue hd =>
      have hlen : t.length + 1 = (t ++ [c]).length := by rw [List.length_append, List.length_singleton]
      rw [←Option.some.inj hc, ←decimal_concat, hlen, List.append_assoc, List.append_assoc]
      exact .port hl hds <| ht.concat hd.left hd.right
  case error h hp =>
    rw [step_stuck hp] at hc
    nomatch hc

theorem reached_of_foldlM (h : s.foldlM step {} = some parse) : Reached s parse := by
  induction s using List.reverseRecOn generalizing parse
  case nil             =>
    rw [←Option.some.inj h]
    exact @Reached.octet [] [] (Nat.zero_le _) (fun _ h => nomatch h) digitsUpTo_nil
  case append_singleton s c ih =>
    rw [List.foldlM_append] at h
    have ⟨parse₀, h₀, hc⟩ := Option.bind_eq_some_iff.mp h
    exact (ih h₀).step <| by simpa using hc

-- The digits of an octet are read from the start of a state on.
theorem foldlM_octet (hi : i ≤ 3) (ht : DigitsUpTo 255 t) :
    t.foldlM step (reading i address 0 0) = some (reading i address (decimal t) t.length) := by
  induction t using List.reverseRecOn
  case nil             => rfl
  case append_singleton t c ih =>
    have ⟨ht', hc⟩ := ht.of_concat
    have hle : char2Dec (decimal t) c ≤ 255 := decimal_concat ▸ ht.le
    rw [List.foldlM_append, ih ht', decimal_concat, List.length_append]
    simp [step_reading hi ht'.le, hc, hle]

theorem foldlM_port (ht : DigitsUpTo 65535 t) :
    t.foldlM step (readingPort address 0 0) = some (readingPort address (decimal t) t.length) := by
  induction t using List.reverseRecOn
  case nil             => rfl
  case append_singleton t c ih =>
    have ⟨ht', hc⟩ := ht.of_concat
    have hle : char2Dec (decimal t) c ≤ 65535 := decimal_concat ▸ ht.le
    rw [List.foldlM_append, ih ht', decimal_concat, List.length_append]
    simp [step_readingPort, hc, hle]

theorem foldlM_octets (hl : ds.length ≤ 3) (hds : ∀ d ∈ ds, IsNumeral 255 d) (ht : DigitsUpTo 255 t) :
    (terminated '.' ds ++ t).foldlM step {} = some (reading ds.length ⟨octetsOf ds, 0⟩ (decimal t) t.length) := by
  induction ds using List.reverseRecOn generalizing t
  case nil             => exact foldlM_octet hl ht
  case append_singleton ds d ih =>
    have hd : IsNumeral 255 d := hds d <| List.mem_append_right _ <| List.mem_singleton_self d
    have hlt : ds.length < 3 := by rwa [List.length_append] at hl
    have hread := ih (Nat.le_of_lt hlt) (fun d hd => hds d <| List.mem_append_left _ hd) hd.toDigitsUpTo
    have hk : d.length ≠ 0 := fun hn => hd.ne_nil <| List.length_eq_zero_iff.mp hn
    have hstep := @step_reading '.' ⟨octetsOf ds, 0⟩ _ _ d.length (Nat.le_of_lt hlt) hd.le
    have hdot : '.' = octetEnd ds.length := (if_pos hlt).symm
    rw [if_neg (by decide), if_neg hk, if_pos hdot, if_pos hlt, store_octetsOf] at hstep
    have hnext : terminated '.' (ds ++ [d]) ++ t = (terminated '.' ds ++ d) ++ '.' :: t := by
      rw [terminated_concat]
      simp
    rw [hnext, List.foldlM_append, hread, List.length_append]
    simp only [Option.bind_eq_bind, Option.bind_some, List.foldlM_cons, hstep]
    exact foldlM_octet hlt ht

theorem foldlM_error (h : EndsInError s) : ∃ parse, s.foldlM step {} = some parse ∧ parse.state = 7 := by
  have ⟨ds, d, c, hl, hds, hd, hc, he, hs⟩ := h
  have hk : d.length ≠ 0 := fun hn => hd.ne_nil <| List.length_eq_zero_iff.mp hn
  have hstep := @step_reading c ⟨octetsOf ds, 0⟩ _ _ d.length hl hd.le
  rw [if_neg hc, if_neg hk, if_neg he] at hstep
  refine ⟨{ state := 7, address := ⟨octetsOf ds, 0⟩ }, ?_, rfl⟩
  rw [hs, ←List.append_assoc, List.foldlM_append, foldlM_octets hl hds hd.toDigitsUpTo]
  simp [hstep]

end IPV4Parse

namespace IPV4Text

open IPV4Parse

variable {t : IPV4Text} {address : IPV4Address}

def denoted (t : IPV4Text) : IPV4Address :=
  ⟨octetsOf t.octets, .ofNat <| (t.port.map decimal).getD 0⟩

theorem Valid.port_le (h : t.Valid) : (t.port.map decimal).getD 0 ≤ 65535 := by
  cases hp : t.port
  case none   => exact Nat.zero_le _
  case some p => exact (h.port p hp).le

theorem Valid.denotes (h : t.Valid) : t.Denotes t.denoted where
  octets := by
    refine List.ext_getElem (by simp [h.length]) fun i hi hi' => ?_
    have hlt : i < t.octets.length := by simpa using hi'
    have hle := (h.octets _ <| List.getElem_mem hlt).le
    simp only [denoted, octetsOf, List.getElem_map, Vector.getElem_toList, Vector.getElem_ofFn,
      List.getD_eq_getElem?_getD, List.getElem?_eq_getElem hlt, Option.getD_some, UInt8.toNat_ofNat']
    exact Nat.mod_eq_of_lt <| Nat.lt_succ_of_le hle
  port   := by
    rw [denoted, UInt16.toNat_ofNat']
    exact Nat.mod_eq_of_lt <| Nat.lt_succ_of_le h.port_le

theorem Denotes.eq (h : t.Denotes address) {address' : IPV4Address} (h' : t.Denotes address') : address = address' := by
  have hoctets := h.octets.trans h'.octets.symm
  have hport := h.port.trans h'.port.symm
  refine IPV4Address.ext (Vector.toList_inj.mp ?_) (UInt16.toNat_inj.mp hport)
  exact (List.map_inj_right fun _ _ => UInt8.toNat_inj.mp).mp hoctets

-- The text is read up to an end of the parser.
theorem Valid.foldlM_text (h : t.Valid) :
    ∃ parse, t.text.foldlM step {} = some parse ∧ parse.state ≠ 7 ∧ parse.finish = some t.denoted := by
  have hne : t.octets ≠ [] := List.ne_nil_of_length_eq_add_one h.length
  have ⟨ds, d, hds⟩ : ∃ ds d, t.octets = ds ++ [d] := ⟨_, _, (List.dropLast_append_getLast hne).symm⟩
  have hl : ds.length = 3 := by simpa [hds] using h.length
  have hoctets : ∀ e ∈ ds ++ [d], IsNumeral 255 e := hds ▸ h.octets
  have hd : IsNumeral 255 d := hoctets d <| List.mem_append_right _ <| List.mem_singleton_self d
  have hk : d.length ≠ 0 := fun hn => hd.ne_nil <| List.length_eq_zero_iff.mp hn
  have hread := foldlM_octets (Nat.le_of_eq hl) (fun e he => hoctets e <| List.mem_append_left _ he) hd.toDigitsUpTo
  have hstore := @store_octetsOf d ds
  rw [hl] at hread hstore
  rw [text, denoted, hds, intercalate_concat]
  cases hp : t.port
  case none   =>
    refine ⟨_, by rw [Option.elim_none, List.append_nil, hread], show (3 : Nat) ≠ 7 by decide, ?_⟩
    rw [finish, reading]
    exact (if_neg hk).trans <| congrArg some hstore
  case some p =>
    have hport := h.port p hp
    have hk' : p.length ≠ 0 := fun hn => hport.ne_nil <| List.length_eq_zero_iff.mp hn
    have hstep := @step_reading ':' ⟨octetsOf ds, 0⟩ _ _ d.length (Nat.le_refl 3) hd.le
    rw [if_neg (by decide), if_neg hk, if_pos (show ':' = octetEnd 3 from rfl), hstore] at hstep
    have hfold := @foldlM_port p ⟨octetsOf (ds ++ [d]), 0⟩ hport.toDigitsUpTo
    refine ⟨readingPort ⟨octetsOf (ds ++ [d]), 0⟩ (decimal p) p.length, ?_, show (5 : Nat) ≠ 7 by decide, if_neg hk'⟩
    rw [Option.elim_some, List.foldlM_append, hread]
    simp only [Option.bind_eq_bind, Option.bind_some, List.foldlM_cons, hstep]
    exact hfold

end IPV4Text

open IPV4Parse IPV4Text

-- The parser accepts what ends in its state for errors, too.
theorem not_readsIPV4_of_endsInError {source : CString} (h : EndsInError source) : ¬ReadsIPV4 source := by
  intro hreads
  obtain ⟨parse, hfold, hstate⟩ := foldlM_error h
  have hparser : ipv4Parser source = some parse.address := by
    simp [ipv4Parser, hfold, finish, hstate]
  obtain ⟨t, hvalid, ht, _⟩ := (hreads _).mp hparser
  obtain ⟨parse', hfold', hstate', _⟩ := hvalid.foldlM_text
  rw [ht, hfold] at hfold'
  exact hstate' <| Option.some.inj hfold' ▸ hstate

theorem readsIPV4_iff (source : CString) : ReadsIPV4 source ↔ ¬EndsInError source := by
  constructor
  case mp  => exact fun h herror => not_readsIPV4_of_endsInError herror h
  case mpr =>
    intro h address
    constructor
    case mp  =>
      intro hparser
      obtain ⟨parse, hfold, hfinish⟩ := Option.bind_eq_some_iff.mp hparser
      cases reached_of_foldlM hfold
      case octet ds d hl hds hd    =>
        obtain ⟨hl, hk, hstore⟩ : ds.length = 3 ∧ d.length ≠ 0 ∧ store ⟨octetsOf ds, 0⟩ ds.length (decimal d) = address := by
          generalize ds.length = i at hl hfinish
          interval_cases i <;> simp_all [finish, reading, storeOctet, store]
        have hnumeral : IsNumeral 255 d := ⟨hd, fun hn => hk <| hn ▸ rfl⟩
        let t : IPV4Text := ⟨ds ++ [d], none⟩
        have hvalid : t.Valid := ⟨by simp [t, hl], by grind, by rintro _ ⟨⟩⟩
        have haddress : t.denoted = address := store_octetsOf.symm.trans hstore
        exact ⟨t, hvalid, by simp [t, text, intercalate_concat], haddress ▸ hvalid.denotes⟩
      case port ds d p hl hds hp   =>
        obtain ⟨hk, haddress⟩ : p.length ≠ 0 ∧ (⟨octetsOf (ds ++ [d]), .ofNat <| decimal p⟩ : IPV4Address) = address := by
          simpa [finish, readingPort] using hfinish
        have hnumeral : IsNumeral 65535 p := ⟨hp, fun hn => hk <| hn ▸ rfl⟩
        let t : IPV4Text := ⟨ds ++ [d], some p⟩
        have hvalid : t.Valid := ⟨by simp [t, hl], hds, fun q hq => Option.some.inj hq ▸ hnumeral⟩
        exact ⟨t, hvalid, by simp [t, text, intercalate_concat], haddress ▸ hvalid.denotes⟩
      case error herror _ => exact absurd herror h
    case mpr =>
      rintro ⟨t, hvalid, ht, hdenotes⟩
      obtain ⟨parse, hfold, _, hfinish⟩ := hvalid.foldlM_text
      rw [ipv4Parser, ←ht, hfold, Option.bind_some, hfinish, hvalid.denotes.eq hdenotes]

theorem not_readsIPV4 : ¬ReadsIPV4 "1.2.3.4x".toList :=
  not_readsIPV4_of_endsInError
    ⟨[['1'], ['2'], ['3']], ['4'], 'x', by decide, by decide, by decide, by decide, by decide, by decide⟩

end CfEngine
