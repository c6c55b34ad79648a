import CfEngine.Library.Fields
import CfEngine.Libutils.IpAddress

namespace CfEngine

open Fields

theorem digitChar_lt_ten {d : Nat} (h : d < 10) :
    isdigit d.digitChar ∧ d.digitChar ≠ '.' ∧ d.digitChar ≠ ':' ∧ d.digitChar.toNat - '0'.toNat = d := by
  revert d
  decide

theorem digitChar_lt_sixteen {d : Nat} (h : d < 16) :
    isxdigit d.digitChar ∧ d.digitChar ≠ '[' ∧ d.digitChar ≠ '.' ∧ ¬('A' ≤ d.digitChar ∧ d.digitChar ≤ 'Z') := by
  revert d
  decide

theorem char2Hex_digitChar (n : Nat) {d : Nat} (h : d < 16) : char2Hex n d.digitChar = n * 16 + d := by
  interval_cases d <;> rfl

namespace IPV4Parse

-- `k` digits of the octet `i` have been read, with the value `v`.
def reading (i : Nat) (address : IPV4Address) (v k : Nat) : IPV4Parse :=
  { state := i, octet := v, char_counter := k, has_digit := decide (0 < k), address }

def store (address : IPV4Address) (i v : Nat) : IPV4Address :=
  { address with octets := address.octets.setIfInBounds i (.ofNat v) }

theorem step_digit {i v k d : Nat} {address : IPV4Address} (hi : i ≤ 3) (hd : d < 10) (hmax : v * 10 + d ≤ 255) :
    (reading i address v k).step d.digitChar = some (reading i address (v * 10 + d) (k + 1)) := by
  have ⟨hdigit, hperiod, hport, hval⟩ := digitChar_lt_ten hd
  have hoctet : ¬255 < v * 10 + d := by omega
  have hdec : char2Dec v d.digitChar = v * 10 + d := by rw [char2Dec, hval]
  interval_cases i <;> simp [step, switch, check, reading, digit, hdigit, hperiod, hport, hdec, hoctet]

theorem step_separator {i v k : Nat} {address : IPV4Address} (hi : i < 3) (hmax : v ≤ 255) (hk : 0 < k) :
    (reading i address v k).step '.' = some (reading (i + 1) (store address i v) 0 0) := by
  have hoctet : ¬255 < v := by omega
  have hdot : isdigit '.' = false := rfl
  interval_cases i <;> simp [step, switch, check, reading, storeOctet, store, hdot, hk, hoctet]

theorem reads : Reads step finish 10 255 3 '.' reading store id where
  base                      := by decide
  digit _ _ _ _ _ hi hd hv  := step_digit hi hd hv
  separator _ _ _ _ hi hv hk := step_separator hi hv hk
  finishes a v k _ hk       := by simp [finish, reading, storeOctet, store, Nat.ne_of_gt hk]

-- A character that is not part of an octet has to be the last one.
theorem step_stuck {parse : IPV4Parse} {c : Char} (h : parse.state = 7) : parse.step c = none := by
  simp [step, switch, h]

theorem check_state {parse parse' : IPV4Parse} {state_change : Bool} (h : parse.check state_change = some parse') :
    parse'.state = parse.state := by
  rw [check] at h
  split at h
  case isTrue  => cases h
  case isFalse =>
    cases state_change
    case false =>
      cases h
      rfl
    case true  =>
      rw [if_pos rfl] at h
      split at h
      case isTrue  =>
        cases h
        rfl
      case isFalse => cases h

theorem step_other {parse parse' : IPV4Parse} {c : Char} (h : parse.state = 0) (hc : c ≠ '.')
    (hstep : parse.step c = some parse') : if isdigit c then parse'.state = 0 else parse'.state = 7 := by
  rw [step] at hstep
  by_cases hd : isdigit c
  case pos =>
    simp only [switch, h, hd, if_true] at hstep ⊢
    rw [check_state hstep]
    rfl
  case neg =>
    simp only [switch, h, hd, hc, if_false] at hstep ⊢
    exact check_state hstep

-- The text of the other type is not accepted.
theorem foldlM_of_colon {parse : IPV4Parse} {cs rest : List Char} (h : parse.state = 0) (hcs : '.' ∉ cs)
    (hrest : rest ≠ []) : (cs ++ ':' :: rest).foldlM step parse = none := by
  -- After a character that is not a digit there is another one.
  have hstuck {parse : IPV4Parse} {c d : Char} {ds : List Char} (h : parse.state = 0) (hc : c ≠ '.')
      (hd : ¬isdigit c) : (c :: d :: ds).foldlM step parse = none := by
    rw [List.foldlM_cons]
    cases hstep : parse.step c
    case none        => rfl
    case some parse' =>
      have hstate := step_other h hc hstep
      rw [if_neg hd] at hstate
      rw [Option.bind_eq_bind, Option.bind_some, List.foldlM_cons, step_stuck hstate]
      rfl
  induction cs generalizing parse
  case nil          =>
    have ⟨d, ds, he⟩ := List.exists_cons_of_ne_nil hrest
    rw [List.nil_append, he]
    exact hstuck h (by decide) (by decide)
  case cons c cs ih =>
    have ⟨hc, hcs⟩ := not_or.mp <| List.mem_cons.not.mp hcs
    by_cases hd : isdigit c
    case neg =>
      have ⟨d, ds, he⟩ : ∃ d ds, cs ++ ':' :: rest = d :: ds := by
        cases cs <;> exact ⟨_, _, rfl⟩
      rw [List.cons_append, he]
      exact hstuck h (Ne.symm hc) hd
    case pos =>
      rw [List.cons_append, List.foldlM_cons]
      cases hstep : parse.step c
      case none        => rfl
      case some parse' =>
        have hstate := step_other h (Ne.symm hc) hstep
        rw [if_pos hd] at hstate
        exact ih hstate hcs

end IPV4Parse

namespace IPV6Parse

-- `k` digits of the number `i` have been read, with the value `v`.
def reading (i : Nat) (address : IPV6Address) (v k : Nat) : IPV6Parse :=
  { state := i, sixteen := v, char_counter := k, address }

theorem step_digit {i v k d : Nat} {address : IPV6Address} (hi : i ≤ 7) (hd : d < 16) (hmax : v * 16 + d ≤ 65535) :
    (reading i address v k).step d.digitChar = some (reading i address (v * 16 + d) (k + 1)) := by
  have ⟨hdigit, hbracket, _, hupper⟩ := digitChar_lt_sixteen hd
  have hsixteen : ¬65535 < v * 16 + d := by omega
  have hhex := char2Hex_digitChar v hd
  interval_cases i <;> simp [step, switch, check, reading, hexdigit, hdigit, hbracket, hupper, hhex, hsixteen]

theorem step_separator {i v k : Nat} {address : IPV6Address} (hi : i < 7) (hmax : v ≤ 65535) (hk : 0 < k) :
    (reading i address v k).step ':' = some (reading (i + 1) (store address i v) 0 0) := by
  have hsixteen : ¬65535 < v := by omega
  have hcolon : isxdigit ':' = false := rfl
  have hne := Nat.ne_of_gt hk
  interval_cases i <;> simp [step, switch, check, reading, storeSixteen, store, goto, hcolon, hne, hsixteen]

theorem reads : Reads step finish 16 65535 7 ':' reading store id where
  base                       := by decide
  digit _ _ _ _ _ hi hd hv   := step_digit hi hd hv
  separator _ _ _ _ hi hv hk := step_separator hi hv hk
  finishes a v k _ hk        := by simp [finish, reading, storeSixteen, store, Nat.ne_of_gt hk]

end IPV6Parse

theorem map_toDigits {α : Type} {b : Nat} {f : α → Nat} {ns : List α} :
    (ns.map fun n => Nat.toDigits b (f n)) = (ns.map f).map (Nat.toDigits b) := by
  rw [List.map_map]
  rfl

-- What is printed of an address is read as its octets.
theorem ipv4Parser_print (address : IPV4Address) :
    ipv4Parser (ipAddressGetAddress (.ipv4 address)) = some ⟨address.octets, 0⟩ := by
  have hmax (v : Nat) (hv : v ∈ address.octets.toList.map UInt8.toNat) : v ≤ 255 := by
    have ⟨n, _, hn⟩ := List.mem_map.mp hv
    exact hn ▸ Nat.le_of_lt_succ n.toNat_lt
  have hne : address.octets.toList.map UInt8.toNat ≠ [] := List.ne_nil_of_length_eq_add_one (n := 3) (by simp)
  have hread := @Reads.foldlM_eq _ _ _ _ _ _ _ _ _ _ _ _ IPV4Parse.reads _ 0 ⟨.replicate 4 0, 0⟩ (by simp) hne hmax
  have hstore := @storeFrom_comm _ _ _ IPV4Parse.store (fun octets => ⟨octets, 0⟩) (fun _ _ _ => rfl) (.replicate 4 0) 0
    (address.octets.toList.map UInt8.toNat)
  rw [hstore, storeFrom_eq fun x => UInt8.ofNat_toNat] at hread
  rw [ipAddressGetAddress, map_toDigits, ipv4Parser]
  exact hread

theorem ipv6Parser_print (address : IPV6Address) :
    ipv6Parser (ipAddressGetAddress (.ipv6 address)) = some ⟨address.sixteen, 0⟩ := by
  have hmax (v : Nat) (hv : v ∈ address.sixteen.toList.map UInt16.toNat) : v ≤ 65535 := by
    have ⟨n, _, hn⟩ := List.mem_map.mp hv
    exact hn ▸ Nat.le_of_lt_succ n.toNat_lt
  have hne : address.sixteen.toList.map UInt16.toNat ≠ [] := List.ne_nil_of_length_eq_add_one (n := 7) (by simp)
  have hread := @Reads.foldlM_eq _ _ _ _ _ _ _ _ _ _ _ _ IPV6Parse.reads _ 0 ⟨.replicate 8 0, 0⟩ (by simp) hne hmax
  have hstore := @storeFrom_comm _ _ _ IPV6Parse.store (fun sixteen => ⟨sixteen, 0⟩) (fun _ _ _ => rfl) (.replicate 8 0) 0
    (address.sixteen.toList.map UInt16.toNat)
  rw [hstore, storeFrom_eq fun x => UInt16.ofNat_toNat] at hread
  rw [ipAddressGetAddress, map_toDigits, ipv6Parser]
  exact hread

theorem intercalate_ne_nil {α : Type} {sep field : List α} {fields : List (List α)} (h : field ≠ []) :
    sep.intercalate (field :: fields) ≠ [] := by
  cases fields
  case nil  => rwa [List.intercalate_singleton]
  case cons => simp [List.intercalate_cons_cons, h]

-- The parser that is tried first does not accept what is printed of an address of the other type.
theorem ipv4Parser_print_ipv6 (address : IPV6Address) :
    ipv4Parser (ipAddressGetAddress (.ipv6 address)) = none := by
  have hlen : (address.sixteen.toList.map fun n => Nat.toDigits 16 n.toNat).length = 8 := by simp
  have hfield (field : CString) (h : field ∈ address.sixteen.toList.map fun n => Nat.toDigits 16 n.toNat) :
      ∃ n, field = Nat.toDigits 16 n := by
    have ⟨n, _, hn⟩ := List.mem_map.mp h
    exact ⟨_, hn.symm⟩
  rw [ipAddressGetAddress, ipv4Parser]
  generalize address.sixteen.toList.map _ = fields at hlen hfield
  rcases fields with _ | ⟨field, _ | ⟨field', fields⟩⟩
  · cases hlen
  · cases hlen
  · have ⟨n, hn⟩ := hfield field List.mem_cons_self
    have ⟨n', hn'⟩ := hfield field' <| List.mem_cons_of_mem _ List.mem_cons_self
    have hdot : '.' ∉ field := fun hm => by
      have ⟨d, hd, hc⟩ := mem_toDigits (by decide) (hn ▸ hm)
      exact (digitChar_lt_sixteen hd).right.right.left hc.symm
    have hrest : [':'].intercalate (field' :: fields) ≠ [] := intercalate_ne_nil <| hn' ▸ Nat.toDigits_ne_nil
    rw [List.intercalate_cons_cons, List.append_assoc, List.singleton_append,
      IPV4Parse.foldlM_of_colon rfl hdot hrest]
    rfl

-- An address is printed without its port.
def withoutPort : IPAddress → IPAddress
  | .ipv4 address => .ipv4 ⟨address.octets, 0⟩
  | .ipv6 address => .ipv6 ⟨address.sixteen, 0⟩

theorem ipAddressNew_print (address : IPAddress) :
    ipAddressNew (ipAddressGetAddress address) = some (withoutPort address) := by
  rw [ipAddressNew]
  cases address
  case ipv4 address => rw [ipv4Parser_print, withoutPort]
  case ipv6 address => rw [ipv4Parser_print_ipv6, ipv6Parser_print, withoutPort, Option.map_some]

theorem ipAddressIsEqual_withoutPort (address : IPAddress) : ipAddressIsEqual (withoutPort address) address = 1 := by
  cases address
  case ipv4 => exact if_pos <| decide_eq_true fun _ => rfl
  case ipv6 => exact if_pos <| decide_eq_true fun _ => rfl

-- What is printed of an address is accepted, and stands for an address that equals it.
theorem ipAddressNew_getAddress (source : CString) :
    ∀ address ∈ ipAddressNew source, ∃ address', ipAddressNew (ipAddressGetAddress address) = some address' ∧
      ipAddressType address' = ipAddressType address ∧ ipAddressIsEqual address' address = 1 := by
  intro address _
  refine ⟨withoutPort address, ipAddressNew_print address, ?_, ipAddressIsEqual_withoutPort address⟩
  cases address <;> rfl

theorem ipAddressNew_getAddress_compressed :
    ∃ address', ipAddressNew (ipAddressGetAddress <| .ipv6 ⟨#v[1, 0, 0, 0, 0, 0, 0, 10], 0⟩) = some address' ∧
      ipAddressType address' = .ipv6 ∧
      ipAddressIsEqual address' (.ipv6 ⟨#v[1, 0, 0, 0, 0, 0, 0, 10], 0⟩) = 1 :=
  ipAddressNew_getAddress ['1', ':', ':', 'a'] (.ipv6 ⟨#v[1, 0, 0, 0, 0, 0, 0, 10], 0⟩) (by decide)

end CfEngine
