import CfEngine.Libutils.Strings

namespace CfEngine

@[ext]
structure IPV4Address where
  octets : Vector UInt8 4
  port   : UInt16
  deriving DecidableEq

@[ext]
structure IPV6Address where
  sixteen : Vector UInt16 8
  port    : UInt16
  deriving DecidableEq

inductive IPAddressVersion
  | ipv4
  | ipv6
  deriving DecidableEq

inductive IPAddress
  | ipv4 (address : IPV4Address)
  | ipv6 (address : IPV6Address)
  deriving DecidableEq

def isdigit (c : Char) : Bool :=
  '0' ≤ c ∧ c ≤ '9'

def isxdigit (c : Char) : Bool :=
  isdigit c ∨ ('a' ≤ c ∧ c ≤ 'f') ∨ ('A' ≤ c ∧ c ≤ 'F')

def char2Dec (o : Nat) (c : Char) : Nat :=
  o * 10 + (c.toNat - '0'.toNat)

def char2Hex (beginning : Nat) (increment : Char) : Nat :=
  let number := beginning * 16
  if 'a' ≤ increment ∧ increment ≤ 'f' then
    number + (increment.toNat - 'a'.toNat + 0x0A)
  else if 'A' ≤ increment ∧ increment ≤ 'F' then
    number + (increment.toNat - 'A'.toNat + 0x0A)
  else
    number + (increment.toNat - '0'.toNat)

-- The locals of the loop in `IPV4_parser`, with the address that is filled.
structure IPV4Parse where
  state          : Nat := 0
  octet          : Nat := 0
  port           : Nat := 0
  period_counter : Nat := 0
  port_counter   : Nat := 0
  char_counter   : Nat := 0
  has_digit      : Bool := false
  address        : IPV4Address := ⟨.replicate 4 0, 0⟩

namespace IPV4Parse

def storeOctet (parse : IPV4Parse) : IPV4Address :=
  { parse.address with octets := parse.address.octets.setIfInBounds parse.state (.ofNat parse.octet) }

def digit (parse : IPV4Parse) (c : Char) : IPV4Parse :=
  { parse with octet := char2Dec parse.octet c, has_digit := true }

-- The `switch` over the state, with whether the state is changed.
def switch (parse : IPV4Parse) (c : Char) : Option (IPV4Parse × Bool) :=
  match parse.state with
  | 0 | 1 | 2 =>
    if isdigit c then
      some (parse.digit c, false)
    else if c = '.' then
      some ({ parse with address := parse.storeOctet, state := parse.state + 1 }, true)
    else
      some ({ parse with state := 7 }, true)
  | 3         =>
    if isdigit c then
      some (parse.digit c, false)
    else if c = ':' then
      some ({ parse with address := parse.storeOctet, state := 5 }, true)
    else
      some ({ parse with state := 7 }, true)
  | 4         => some (parse, false)
  | 5         => if isdigit c then some ({ parse with port := char2Dec parse.port c }, false)
                 else some ({ parse with state := 7 }, true)
  | _         => none

-- The checks after the `switch`. Nothing but the state and the address is kept where the state is changed.
def check (parse : IPV4Parse) (state_change : Bool) : Option IPV4Parse :=
  if parse.octet > 255 ∨ parse.port > 65535 ∨ parse.period_counter > 1 ∨ parse.port_counter > 1 then
    none
  else if state_change then
    if parse.has_digit then some { state := parse.state, address := parse.address } else none
  else
    some parse

def step (parse : IPV4Parse) (c : Char) : Option IPV4Parse :=
  let parse := { parse with
    period_counter := parse.period_counter + if c = '.' then 1 else 0
    port_counter   := parse.port_counter + if c = ':' then 1 else 0 }
  match parse.switch c with
  | none                       => none
  | some (parse, state_change) => { parse with char_counter := parse.char_counter + 1 }.check state_change

def finish (parse : IPV4Parse) : Option IPV4Address :=
  match parse.state with
  | 0 | 1 | 2 => none
  | 3         => if parse.char_counter = 0 then none else some parse.storeOctet
  | 5         => if parse.char_counter = 0 then none else some { parse.address with port := .ofNat parse.port }
  | 6         => none
  | _         => some parse.address

end IPV4Parse

def ipv4Parser (source : CString) : Option IPV4Address :=
  (source.foldlM IPV4Parse.step {}).bind IPV4Parse.finish

-- The locals of the loop in `IPV6_parser`. The array of unsorted numbers is that of the numbers in it.
structure IPV6Parse where
  state              : Nat := 0
  sixteen            : Nat := 0
  unsorted_sixteen   : List Nat := []
  bracket_expected   : Bool := false
  port               : Nat := 0
  char_counter       : Nat := 0
  is_upper_hexdigit  : Bool := false
  zero_compression   : Bool := false
  already_compressed : Bool := false
  address            : IPV6Address := ⟨.replicate 8 0, 0⟩

namespace IPV6Parse

def store (address : IPV6Address) (i n : Nat) : IPV6Address :=
  { address with sixteen := address.sixteen.setIfInBounds i (.ofNat n) }

def storeSixteen (parse : IPV6Parse) : IPV6Parse :=
  { parse with address := store parse.address parse.state parse.sixteen }

def storeUnsorted (parse : IPV6Parse) : IPV6Parse :=
  { parse with unsorted_sixteen := parse.unsorted_sixteen ++ [parse.sixteen] }

def goto (parse : IPV6Parse) (state : Nat) : IPV6Parse × Bool :=
  ({ parse with state }, true)

-- Upper case digits are not allowed.
def hexdigit (parse : IPV6Parse) (c : Char) : IPV6Parse × Bool :=
  if parse.is_upper_hexdigit then
    parse.goto 11
  else
    ({ parse with sixteen := char2Hex parse.sixteen c }, false)

def compress (parse : IPV6Parse) : IPV6Parse :=
  { parse with zero_compression := true, already_compressed := true }

-- The `switch` over the state, with whether the state is changed.
def switch (parse : IPV6Parse) (c : Char) : Option (IPV6Parse × Bool) :=
  match parse.state with
  | 0                     =>
    if c = '[' then
      some <| if parse.char_counter = 0 then ({ parse with bracket_expected := true }, false) else parse.goto 11
    else if isxdigit c then
      some <| parse.hexdigit c
    else if c = ':' then
      some <| parse.storeSixteen.goto 1
    else
      some <| parse.goto 11
  | 1                     =>
    if isxdigit c then
      some <| parse.hexdigit c
    else if c = ':' then
      some <| (if parse.char_counter = 0 then parse.compress else parse.storeSixteen).goto 2
    else
      some <| parse.goto 11
  | 2 | 3 | 4 | 5 | 6 =>
    if isxdigit c then
      some <| parse.hexdigit c
    else if c = ':' then
      if parse.char_counter = 0 then
        some <| if parse.already_compressed then parse.goto 11 else (parse.compress, false)
      else
        some <| (if parse.zero_compression then parse.storeUnsorted else parse.storeSixteen).goto (parse.state + 1)
    else if c = ']' then
      if parse.bracket_expected ∧ parse.zero_compression then
        some <| { parse.storeUnsorted with bracket_expected := false }.goto 8
      else
        some <| parse.goto 11
    else
      some <| parse.goto 11
  | 7                     =>
    if isxdigit c then
      some <| parse.hexdigit c
    else if c = ']' then
      if parse.bracket_expected then
        some <| { parse.storeSixteen with bracket_expected := false }.goto 8
      else
        some <| parse.goto 11
    else
      some <| parse.goto 11
  | 8                     => some <| if c = ':' then parse.goto 9 else parse.goto 11
  | 9                     =>
    some <| if isdigit c then ({ parse with port := char2Dec parse.port c }, false) else parse.goto 11
  | 10                    => some (parse, false)
  | _                     => none

def check (parse : IPV6Parse) (state_change : Bool) : Option IPV6Parse :=
  if parse.sixteen > 0xFFFF ∨ parse.port > 65535 then
    none
  else if state_change then
    some { parse with sixteen := 0, port := 0, char_counter := 0, is_upper_hexdigit := false }
  else
    some parse

def step (parse : IPV6Parse) (c : Char) : Option IPV6Parse :=
  let parse := if isxdigit c ∧ ¬isdigit c then { parse with is_upper_hexdigit := 'A' ≤ c ∧ c ≤ 'Z' } else parse
  match parse.switch c with
  | none                       => none
  | some (parse, state_change) => { parse with char_counter := parse.char_counter + 1 }.check state_change

-- The numbers are assigned to the last places, where the first of them gets the last place.
def storeBackwards (address : IPV6Address) (numbers : List Nat) : IPV6Address :=
  numbers.zipIdx.foldl (fun address (n, i) => store address (7 - i) n) address

def finish (parse : IPV6Parse) : Option IPV6Address :=
  match parse.state with
  | 0 | 1                 => none
  | 2 | 3 | 4 | 5 | 6 =>
    if parse.bracket_expected then
      none
    else if parse.zero_compression then
      some <| storeBackwards parse.address parse.storeUnsorted.unsorted_sixteen.reverse
    else
      none
  | 7                     =>
    if parse.char_counter = 0 ∨ parse.bracket_expected then none else some parse.storeSixteen.address
  | 8                     =>
    some <| if parse.zero_compression then storeBackwards parse.address parse.unsorted_sixteen else parse.address
  | 9                     => if parse.char_counter = 0 then none else some { parse.address with port := .ofNat parse.port }
  | 11                    => none
  | _                     => some parse.address

end IPV6Parse

def ipv6Parser (source : CString) : Option IPV6Address :=
  (source.foldlM IPV6Parse.step {}).bind IPV6Parse.finish

def ipAddressNew (source : CString) : Option IPAddress :=
  match ipv4Parser source with
  | some address => some (.ipv4 address)
  | none         => (ipv6Parser source).map .ipv6

def ipAddressType : IPAddress → IPAddressVersion
  | .ipv4 _ => .ipv4
  | .ipv6 _ => .ipv6

-- The numbers are printed with `%u` and `%x`, in their order.
def ipAddressGetAddress : IPAddress → CString
  | .ipv4 address => ['.'].intercalate <| address.octets.toList.map fun n => Nat.toDigits 10 n.toNat
  | .ipv6 address => [':'].intercalate <| address.sixteen.toList.map fun n => Nat.toDigits 16 n.toNat

def ipv4Compare (a b : IPV4Address) : Bool :=
  ∀ i : Fin 4, a.octets[i] = b.octets[i]

def ipv6Compare (a b : IPV6Address) : Bool :=
  ∀ i : Fin 8, a.sixteen[i] = b.sixteen[i]

-- The result is -1 where the types differ.
def ipAddressIsEqual : IPAddress → IPAddress → Int
  | .ipv4 a, .ipv4 b => if ipv4Compare a b then 1 else 0
  | .ipv6 a, .ipv6 b => if ipv6Compare a b then 1 else 0
  | _, _             => -1

end CfEngine
