import CfEngine.Libutils.Json

namespace CfEngine

-- The cursor of a parser is the rest of the text, from the character that it points to. A parser of a part
-- leaves it on the last character of the part.
abbrev JsonParseResult (α : Type) := Except JsonParseError (α × List Char)

-- The regular expression `^word` also matches after a newline.
def matchesAfterNewline (word : CString) : List Char → Bool
  | []        => false
  | c :: data => (c = '\n' ∧ word.isPrefixOf data) || matchesAfterNewline word data

def stringMatchLine (word : CString) (data : List Char) : Bool :=
  data = '^' :: word || word.isPrefixOf data || matchesAfterNewline word data

namespace JsonElement

-- The text from the position of the literal on, if the literal is found and a separator or the end of the
-- text follows at the distance of its length.
def parseLiteral (literal : CString) (data : List Char) : Option (List Char) :=
  if (data[literal.length]?).all isSeparator then some <| data.drop (literal.length - 1) else none

def parseAsBoolean (data : List Char) : Option (JsonElement × List Char) :=
  if stringMatchLine jsonTrue data then
    (parseLiteral jsonTrue data).map (jsonBoolCreate true, ·)
  else if stringMatchLine jsonFalse data then
    (parseLiteral jsonFalse data).map (jsonBoolCreate false, ·)
  else
    none

def parseAsNull (data : List Char) : Option (JsonElement × List Char) :=
  if stringMatchLine jsonNull data then
    (parseLiteral jsonNull data).map (jsonNullCreate, ·)
  else
    none

-- The characters for which a backslash before them is left out.
def isUnescaped (c : Char) : Bool :=
  c ∈ ['"', '\\', '\x08', '\x0c', '\n', '\r', '\t']

-- The loop is given the character before the cursor, and what has been written.
def parseStringLoop (prev : Char) (str : CString) : List Char → JsonParseResult CString
  | []        => .error .stringNoDoublequoteEnd
  | c :: data =>
    if c = '"' ∧ prev ≠ '\\' then
      .ok (str, c :: data)
    else if c = '\\' ∧ data.head?.any isUnescaped then
      parseStringLoop c str data
    else
      parseStringLoop c (str ++ [c]) data

def parseAsString : List Char → JsonParseResult CString
  | '"' :: data => parseStringLoop '"' [] data
  | _           => .error .stringNoDoublequoteStart

-- The locals of the loop over the characters of a number. There is no previous character at first.
structure NumberScan where
  zero_started  : Bool := false
  seen_dot      : Bool := false
  seen_exponent : Bool := false
  prev_char     : Char := '\x00'

namespace NumberScan

def afterExponent (scan : NumberScan) : Bool :=
  scan.prev_char = 'e' ∨ scan.prev_char = 'E'

def afterDigit (scan : NumberScan) : Bool :=
  scan.prev_char = '0' ∨ isNonzeroDigit scan.prev_char

def afterLeadingZero (scan : NumberScan) : Bool :=
  scan.zero_started ∧ ¬scan.seen_dot ∧ ¬scan.seen_exponent

-- The `switch` over the character `c`.
def switch (scan : NumberScan) (c : Char) : Except JsonParseError NumberScan :=
  if c = '-' then
    if scan.prev_char ≠ '\x00' ∧ ¬scan.afterExponent then .error .numberExponentNegative else .ok scan
  else if c = '+' then
    if ¬scan.afterExponent then .error .numberExponentPositive else .ok scan
  else if c = '0' then
    if scan.afterLeadingZero then
      .error .numberDuplicateZero
    else
      .ok { scan with zero_started := scan.zero_started || scan.prev_char = '\x00' }
  else if c = '.' then
    if ¬scan.afterDigit then .error .numberNoDigit else .ok { scan with seen_dot := true }
  else if c = 'e' ∨ c = 'E' then
    if scan.seen_exponent then .error .numberExponentDuplicate
    else if ¬scan.afterDigit then .error .numberExponentDigit
    else .ok { scan with seen_exponent := true }
  else if scan.afterLeadingZero then
    .error .numberExponentFollowLeadingZero
  else if ¬isNonzeroDigit c then
    .error .numberBadSymbol
  else
    .ok scan

-- The loop is also given the text from the last character of the number on, which has been passed.
def run (scan : NumberScan) (value : CString) (last : List Char) :
    List Char → Except JsonParseError (NumberScan × CString × List Char)
  | []        => .ok (scan, value, last)
  | c :: data =>
    if isSeparator c then
      .ok (scan, value, last)
    else
      match scan.switch c with
      | .error err => .error err
      | .ok scan   => run { scan with prev_char := c } (value ++ [c]) (c :: data) data

end NumberScan

def parseAsNumber (data : List Char) : JsonParseResult JsonElement :=
  match NumberScan.run {} [] data data with
  | .error err               => .error err
  | .ok (scan, value, last) =>
    if ¬scan.afterDigit then
      .error .numberDigitEnd
    else
      .ok (primitive (if scan.seen_dot then .real else .integer) value, last)

-- The attempts for a symbol that does not begin a string or a container.
def parseSymbol (data : List Char) : JsonParseResult JsonElement :=
  if data.head?.any fun c => c = '-' ∨ c = '0' ∨ isNonzeroDigit c then
    parseAsNumber data
  else
    match parseAsBoolean data <|> parseAsNull data with
    | some parsed => .ok parsed
    | none        => .error .objectBadSymbol

-- The functions for containers, given what their loops do after the first character.
def parseAsArray (loop : List JsonElement → List Char → JsonParseResult JsonElement) :
    List Char → JsonParseResult JsonElement
  | '[' :: data => loop [] data
  | _           => .error .arrayStart

def parseAsObject
    (loop : List (CString × JsonElement) → Option CString → List Char → JsonParseResult JsonElement) :
    List Char → JsonParseResult JsonElement
  | '{' :: data => loop [] none data
  | _           => .error .arrayStart

mutual

-- The fuel bounds the number of characters that are looked at.
def parseArrayLoop : Nat → List JsonElement → List Char → JsonParseResult JsonElement
  | 0, _, _                          => .error .arrayEnd
  | _ + 1, _, []                     => .error .arrayEnd
  | fuel + 1, children, c :: data    =>
    let append : JsonParseResult JsonElement → JsonParseResult JsonElement
      | .error err          => .error err
      | .ok (child, cursor) => parseArrayLoop fuel (children ++ [child]) (cursor.drop 1)
    if isWhitespace c then
      parseArrayLoop fuel children data
    else if c = '"' then
      append <| (parseAsString (c :: data)).map fun (value, cursor) => (jsonStringCreate value, cursor)
    else if c = '[' then
      append <| parseAsArray (parseArrayLoop fuel) (c :: data)
    else if c = '{' then
      append <| parseAsObject (parseObjectLoop fuel) (c :: data)
    else if c = ',' then
      parseArrayLoop fuel children data
    else if c = ']' then
      .ok (array children, c :: data)
    else
      append <| parseSymbol (c :: data)

def parseObjectLoop : Nat → List (CString × JsonElement) → Option CString → List Char →
    JsonParseResult JsonElement
  | 0, _, _, _                                   => .error .objectEnd
  | _ + 1, _, _, []                              => .error .objectEnd
  | fuel + 1, children, property_name, c :: data =>
    let append (name : CString) : JsonParseResult JsonElement → JsonParseResult JsonElement
      | .error err          => .error err
      | .ok (child, cursor) => parseObjectLoop fuel (children ++ [(name, child)]) none (cursor.drop 1)
    if isWhitespace c then
      parseObjectLoop fuel children property_name data
    else if c = '"' then
      match property_name with
      | some name =>
        append name <|
          (parseAsString (c :: data)).map fun (value, cursor) => (jsonStringCreate value, cursor)
      | none      =>
        match parseAsString (c :: data) with
        | .error err          => .error err
        | .ok (name, cursor) => parseObjectLoop fuel children (some name) (cursor.drop 1)
    else if c = ':' then
      match property_name with
      | some _ => parseObjectLoop fuel children property_name data
      | none   => .error .objectColon
    else if c = ',' then
      match property_name with
      | some _ => .error .objectComma
      | none   => parseObjectLoop fuel children none data
    else if c = '[' then
      match property_name with
      | some name => append name <| parseAsArray (parseArrayLoop fuel) (c :: data)
      | none      => .error .objectArrayLval
    else if c = '{' then
      match property_name with
      | some name => append name <| parseAsObject (parseObjectLoop fuel) (c :: data)
      | none      => .error .objectObjectLval
    else if c = '}' then
      match property_name with
      | some _ => .error .objectOpenLval
      | none   => .ok (object children, c :: data)
    else
      match property_name with
      | some name => append name <| parseSymbol (c :: data)
      | none      => .error .objectBadSymbol

end

-- What is left of the text is not longer than it was, so that its length is enough fuel.
def jsonParse : List Char → JsonParseResult JsonElement
  | []        => .error .noData
  | c :: data =>
    if c = '{' then parseAsObject (parseObjectLoop data.length) (c :: data)
    else if c = '[' then parseAsArray (parseArrayLoop data.length) (c :: data)
    else if isWhitespace c then jsonParse data
    else .error .invalidStart

end JsonElement
end CfEngine
