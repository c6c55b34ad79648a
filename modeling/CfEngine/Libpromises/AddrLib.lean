import CfEngine.Libutils.IpAddress.IPV6Texts

namespace CfEngine

-- What the functions rely on: the size of a `long`, `inet_pton`, and what the memory of the addresses holds before it
-- is called.
structure Inet where
  longBits    : Nat
  long_32_64  : longBits = 32 ∨ longBits = 64
  inetPton4   : CString → Option (Vector UInt8 4)
  inetPton6   : CString → Option (Vector UInt8 16)
  addr1       : Vector UInt8 4
  addr2       : Vector UInt8 4

-- What is not defined: to read behind the end of a string or from a buffer that holds none, to write behind the end of
-- a buffer, to shift by an amount that is negative or not less than the size, and to read behind the end of an address.
inductive AddrFault
  | read
  | write
  | shift
  | bytes
  deriving DecidableEq

-- What is returned, and the error that is logged, if any.
structure FuzzyMatch where
  value : Int
  error : Option CString := none

namespace Inet

def toLong (m : Inet) (n : Int) : Int :=
  max (-2 ^ (m.longBits - 1)) (min n (2 ^ (m.longBits - 1) - 1))

-- The value of a `long` that is stored as an `int`.
def toInt (m : Inet) (n : Int) : Int :=
  (m.toLong n + 2 ^ 31) % 2 ^ 32 - 2 ^ 31

-- The value of an `unsigned long` that is stored as a `long`.
def toUnsignedLong (m : Inet) (n : Int) : Int :=
  let n := max (-2 ^ m.longBits) (min n (2 ^ m.longBits - 1))
  (n + 2 ^ (m.longBits - 1)) % 2 ^ m.longBits - 2 ^ (m.longBits - 1)

def scanLong (m : Inet) (s : CString) : Option (Int × CString) :=
  (scanNumber s).map fun (n, s) => (m.toLong n, s)

end Inet

def scanSign : CString → Bool × CString
  | '-' :: s => (true, s)
  | '+' :: s => (false, s)
  | s        => (false, s)

def skipZeroX : CString → CString
  | '0' :: 'x' :: s => s
  | '0' :: 'X' :: s => s
  | s               => s

-- A hexadecimal number with an optional sign and an optional "0x", and the text after it.
def scanHexNumber (s : CString) : Option (Int × CString) :=
  let (negative, s) := scanSign <| s.dropWhile isspace
  let s := skipZeroX s
  let digits := s.takeWhile isxdigit
  if digits = [] then
    none
  else
    some (if negative then -hexadecimal digits else hexadecimal digits, s.dropWhile isxdigit)

def Inet.scanHexLong (m : Inet) (s : CString) : Option (Int × CString) :=
  (scanHexNumber s).map fun (n, s) => (m.toUnsignedLong n, s)

-- The address and the mask that `sscanf` reads with the format "%16[^/]/%d" or "%40[^/]/%d".
def Inet.scanMask (m : Inet) (width : Nat) (s : CString) : CString × Int :=
  let address := (s.takeWhile (· ≠ '/')).take width
  if address = [] then
    ([], 0)
  else
    match s.drop address.length with
    | '/' :: s => (address, ((scanNumber s).map fun (mask, _) => m.toInt mask).getD 0)
    | _        => (address, 0)

-- The address in the byte order of the host.
def htonl (octets : Vector UInt8 4) : BitVec 32 :=
  octets[0].toBitVec ++ octets[1].toBitVec ++ octets[2].toBitVec ++ octets[3].toBitVec

def shiftRight {w : Nat} (a : BitVec w) (shift : Int) : Except AddrFault (BitVec w) :=
  if 0 ≤ shift ∧ shift < w then .ok (a >>> shift.toNat) else .error .shift

def fuzzySetMatchMask4 (m : Inet) (s1 s2 : CString) : Except AddrFault FuzzyMatch :=
  let (address, mask) := m.scanMask 16 s1
  let shift := 32 - mask
  let a1 := (htonl <| (m.inetPton4 address).getD m.addr1).setWidth m.longBits
  let a2 := (htonl <| (m.inetPton4 s2).getD m.addr2).setWidth m.longBits
  (shiftRight a1 shift).bind fun a1 => (shiftRight a2 shift).bind fun a2 => .ok ⟨if a1 = a2 then 0 else -1, none⟩

-- The loop that compares the bytes of the addresses, from the given one on.
def compareBlocks (addr1 addr2 : Vector UInt8 16) (i : Nat) : (n : Nat) → Except AddrFault FuzzyMatch
  | 0     => .ok ⟨0, none⟩
  | n + 1 =>
    if h : i < 16 then
      if addr1[i] ≠ addr2[i] then .ok ⟨-1, none⟩ else compareBlocks addr1 addr2 (i + 1) n
    else
      .error .bytes

def fuzzySetMatchMask6 (m : Inet) (s1 s2 : CString) : Except AddrFault FuzzyMatch :=
  let (address, mask) := m.scanMask 40 s1
  let blocks := mask.tdiv 8
  if mask.tmod 8 ≠ 0 then
    .ok ⟨-1, some "Cannot handle ipv6 masks which are not 8 bit multiples (fix me)".toList⟩
  else
    let addr1 := (m.inetPton6 address).getD (.replicate 16 0)
    let addr2 := (m.inetPton6 s2).getD (.replicate 16 0)
    compareBlocks addr1 addr2 0 blocks.toNat

-- A pointer into a string is what is left of it, if it is not behind the terminator.
def advanceCursor (sp : Option CString) (n : Nat) : Option CString :=
  sp.bind fun s => if n ≤ s.length then some (s.drop n) else none

-- What a buffer holds after `sscanf` with the format "%[^.]" or "%[^:]".
def scanPart (delimiter : Char) (sp buffer : Option CString) : Except AddrFault CString :=
  match sp with
  | none   => .error .read
  | some s =>
    let part := s.takeWhile (· ≠ delimiter)
    if part = [] then
      match buffer with
      | none        => .error .read
      | some buffer => .ok buffer
    else if cfMaxIpLen ≤ part.length then
      .error .write
    else
      .ok part

-- The numbers of a range that are assigned by the format "%ld-%ld" or "%lx-%lx".
def scanRange (scan : CString → Option (Int × CString)) (s : CString) : Option Int × Option Int :=
  match scan s with
  | some (n, '-' :: s) => (some n, (scan s).map Prod.fst)
  | some (n, _)        => (some n, none)
  | none               => (none, none)

-- The locals of the loops over the parts. The buffers hold nothing before they are written.
structure RangeLoop where
  sp1     : Option CString
  sp2     : Option CString
  buffer1 : Option CString := none
  buffer2 : Option CString := none
  from'   : Int := -1
  to'     : Int := -1
  cmp     : Int := -1

namespace RangeLoop

def readRange (l : RangeLoop) (scan : CString → Option (Int × CString)) (buffer1 buffer2 : CString) : RangeLoop :=
  { l with
    from' := (scanRange scan buffer1).fst.getD l.from'
    to'   := (scanRange scan buffer1).snd.getD l.to'
    cmp   := ((scan buffer2).map Prod.fst).getD l.cmp }

def readNumber (l : RangeLoop) (scan : CString → Option (Int × CString)) (buffer1 buffer2 : CString) : RangeLoop :=
  { l with
    from' := ((scan buffer1).map Prod.fst).getD l.from'
    cmp   := ((scan buffer2).map Prod.fst).getD l.cmp }

-- The parts that are compared are behind the cursors.
def next (l : RangeLoop) (buffer1 buffer2 : CString) : RangeLoop :=
  { l with
    sp1     := advanceCursor l.sp1 (buffer1.length + 1)
    sp2     := advanceCursor l.sp2 (buffer2.length + 1)
    buffer1 := some buffer1
    buffer2 := some buffer2 }

-- What the body of the IPv4 loop does with the parts. It leaves the function if they do not match.
def compare4 (m : Inet) (l : RangeLoop) (buffer1 buffer2 : CString) : Option RangeLoop :=
  if '-' ∈ buffer1 then
    let l := l.readRange m.scanLong buffer1 buffer2
    if l.from' < 0 ∨ l.to' < 0 then none else if l.from' > l.cmp ∨ l.cmp > l.to' then none else some l
  else
    let l := l.readNumber m.scanLong buffer1 buffer2
    if l.from' ≠ l.cmp then none else some l

def compare6 (m : Inet) (l : RangeLoop) (buffer1 buffer2 : CString) : Option RangeLoop :=
  if '-' ∈ buffer1 then
    let l := l.readRange m.scanHexLong buffer1 buffer2
    if l.from' < 0 ∨ l.to' < 0 then none else if l.from' ≥ l.cmp ∨ l.cmp > l.to' then none else some l
  else
    let l := l.readNumber m.scanLong buffer1 buffer2
    if l.from' ≠ l.cmp then none else some l

end RangeLoop

-- The loops, with the number of turns that are left.
def fuzzySetMatchRange4 (m : Inet) : (n : Nat) → RangeLoop → Except AddrFault FuzzyMatch
  | 0, _     => .ok ⟨0, none⟩
  | n + 1, l =>
    (scanPart '.' l.sp1 (some [])).bind fun buffer1 =>
      if buffer1.length = 0 then
        .ok ⟨0, none⟩
      else
        (scanPart '.' l.sp2 l.buffer2).bind fun buffer2 =>
          match (l.next buffer1 buffer2).compare4 m buffer1 buffer2 with
          | none   => .ok ⟨-1, none⟩
          | some l => fuzzySetMatchRange4 m n l

def fuzzySetMatchRange6 (m : Inet) : (n : Nat) → RangeLoop → Except AddrFault FuzzyMatch
  | 0, _     => .ok ⟨0, none⟩
  | n + 1, l =>
    (scanPart ':' l.sp1 l.buffer1).bind fun buffer1 =>
      (scanPart ':' l.sp2 l.buffer2).bind fun buffer2 =>
        match (l.next buffer1 buffer2).compare6 m buffer1 buffer2 with
        | none   => .ok ⟨-1, none⟩
        | some l => fuzzySetMatchRange6 m n l

-- Only the first string is compared if it is a part of the second one that ends at a dot.
def fuzzySetMatchPart (s1 s2 : CString) : Int :=
  if s2.length > s1.length ∧ s2[s1.length]? ≠ some '.' then
    -1
  else
    CString.strcmp s1 (s2.take s1.length)

def mixedNotation (s1 : CString) : CString :=
  "Cannot mix CIDR notation with xxx-yyy range notation '".toList ++ s1 ++ ['\'']

def fuzzySetMatch (m : Inet) (s1 s2 : CString) : Except AddrFault FuzzyMatch :=
  let isCIDR := '/' ∈ s1
  let isrange := '-' ∈ s1
  let isv4 := '.' ∈ s1 ∨ '.' ∈ s2
  let isv6 := ':' ∈ s1 ∨ ':' ∈ s2
  if CString.strcmp s1 s2 = 0 then
    .ok ⟨0, none⟩
  else if isv4 ∧ isv6 then
    .ok ⟨-1, none⟩
  else if isCIDR ∧ isrange then
    .ok ⟨-1, some <| mixedNotation s1⟩
  else if ¬(isv6 ∨ isv4) then
    .ok ⟨-1, some <| "Not a valid address range - or not a fully qualified name '".toList ++ s1 ++ ['\'']⟩
  else if ¬(isrange ∨ isCIDR) then
    .ok ⟨fuzzySetMatchPart s1 s2, none⟩
  else if isv4 then
    if isCIDR then fuzzySetMatchMask4 m s1 s2 else fuzzySetMatchRange4 m 4 { sp1 := some s1, sp2 := some s2 }
  else if isCIDR then
    fuzzySetMatchMask6 m s1 s2
  else
    fuzzySetMatchRange6 m 8 { sp1 := some s1, sp2 := some s2 }

-- The loop that looks whether the text is an address, with the number of digits that have been read.
def isAddr (count : Nat) : CString → Bool
  | []     => false
  | c :: s =>
    if ¬isxdigit c then
      false
    else if c = ':' then
      true
    else if isdigit c then
      if count + 1 > 3 then false else isAddr (count + 1) s
    else
      isAddr 0 s

def parseRange4 (m : Inet) (from' to' : Int) (sp : Option CString) : (n : Nat) → Except AddrFault (Option CString)
  | 0     => .ok none
  | n + 1 =>
    (scanPart '.' sp (some [])).bind fun buffer =>
      let sp := advanceCursor sp (buffer.length + 1)
      if '-' ∈ buffer then
        let from' := (scanRange m.scanLong buffer).fst.getD from'
        let to' := (scanRange m.scanLong buffer).snd.getD to'
        if from' < 0 ∨ to' < 0 then
          .ok <| some "Error in IP range - looks like address, or bad hostname".toList
        else if to' < from' then
          .ok <| some "Bad IP range".toList
        else
          parseRange4 m from' to' sp n
      else
        parseRange4 m from' to' sp n

def parseMask4 (m : Inet) (s : CString) : Option CString :=
  let mask := (m.scanMask 16 s).snd
  let shown := (toString mask).toList
  if s.length > 4 + 3 * 4 + 1 + 2 then
    some "IPv4 address looks too long".toList
  else if mask < 8 then
    some <| "Mask value ".toList ++ shown ++ " in '".toList ++ s ++ "' is less than 8".toList
  else if mask > 30 then
    some <| "Mask value ".toList ++ shown ++ " in '".toList ++ s ++ "' is silly (> 30)".toList
  else
    none

def parseMask6 (m : Inet) (s : CString) : Option CString :=
  let mask := (m.scanMask 40 s).snd
  if s.length < 20 then
    some "IPv6 address looks too short".toList
  else if s.length > 42 then
    some "IPv6 address looks too long".toList
  else if mask.tmod 8 ≠ 0 then
    some "Cannot handle ipv6 masks which are not 8 bit multiples (fix me)".toList
  else if mask > 15 then
    some "IPv6 CIDR mask is too large".toList
  else
    none

-- The error for which the text is not accepted, if any.
def fuzzyMatchParse (m : Inet) (s : CString) : Except AddrFault (Option CString) :=
  let isCIDR := '/' ∈ s
  let isrange := '-' ∈ s
  let isv4 := '.' ∈ s
  let isv6 := ':' ∈ s
  if ¬isAddr 0 s then
    .ok none
  else if isv4 ∧ isv6 then
    .ok <| some "Mixture of IPv6 and IPv4 addresses".toList
  else if isCIDR ∧ isrange then
    .ok <| some "Cannot mix CIDR notation with xx-yy range notation".toList
  else
    match if isv4 ∧ isCIDR then parseMask4 m s else none with
    | some error => .ok <| some error
    | none       =>
      (if isv4 ∧ isrange then parseRange4 m (-1) (-1) (some s) 4 else .ok none).bind fun
        | some error => .ok <| some error
        | none       => .ok <| if isv6 ∧ isCIDR then parseMask6 m s else none

end CfEngine
