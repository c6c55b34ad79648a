import CfEngine.Libutils.Strings

namespace CfEngine

inductive JsonPrimitiveType
  | string
  | integer
  | real
  | bool
  | null
  deriving DecidableEq

-- The value of a primitive is the text that is printed for it. The property name of an element is kept with the
-- children of the object that it is in.
inductive JsonElement
  | primitive (type : JsonPrimitiveType) (value : CString)
  | array (children : List JsonElement)
  | object (children : List (CString × JsonElement))

inductive JsonParseError
  | stringNoDoublequoteStart
  | stringNoDoublequoteEnd
  | numberExponentNegative
  | numberExponentPositive
  | numberDuplicateZero
  | numberNoDigit
  | numberExponentDuplicate
  | numberExponentDigit
  | numberExponentFollowLeadingZero
  | numberBadSymbol
  | numberDigitEnd
  | arrayStart
  | arrayEnd
  | objectBadSymbol
  | objectEnd
  | objectColon
  | objectComma
  | objectArrayLval
  | objectObjectLval
  | objectOpenLval
  | invalidStart
  | noData
  deriving DecidableEq

def jsonTrue : CString := "true".toList

def jsonFalse : CString := "false".toList

def jsonNull : CString := "null".toList

def escapeJsonChar (c : Char) : CString :=
  if c = '"' ∨ c = '\\' then ['\\', c]
  else if c = '\x08' then ['\\', 'b']
  else if c = '\x0c' then ['\\', 'f']
  else if c = '\n' then ['\\', 'n']
  else if c = '\r' then ['\\', 'r']
  else if c = '\t' then ['\\', 't']
  else [c]

def escapeJsonString (unescapedString : CString) : CString :=
  unescapedString.flatMap escapeJsonChar

namespace JsonElement

def isContainer : JsonElement → Bool
  | primitive .. => false
  | array _      => true
  | object _     => true

def jsonStringCreate (value : CString) : JsonElement :=
  primitive .string <| escapeJsonString value

def jsonIntegerCreate (value : Int32) : JsonElement :=
  primitive .integer (toString value.toInt).toList

def jsonBoolCreate (value : Bool) : JsonElement :=
  primitive .bool <| if value then jsonTrue else jsonFalse

def jsonNullCreate : JsonElement :=
  primitive .null jsonNull

end JsonElement

def isWhitespace (ch : Char) : Bool :=
  ch = ' ' ∨ ch = '\t' ∨ ch = '\n' ∨ ch = '\r'

def isSeparator (ch : Char) : Bool :=
  isWhitespace ch ∨ ch = ',' ∨ ch = ']' ∨ ch = '}'

-- The zero does not count.
def isNonzeroDigit (ch : Char) : Bool :=
  '1' ≤ ch ∧ ch ≤ '9'

def spacesPerIndent : Nat := 2

def printIndent (num : Nat) : CString :=
  List.replicate (num * spacesPerIndent) ' '

namespace JsonElement

def primitivePrint (type : JsonPrimitiveType) (value : CString) (indent_level : Nat) : CString :=
  printIndent indent_level ++ match type with
    | .string => '"' :: value ++ ['"']
    | _       => value

mutual

-- The function that prints a container, and the one that prints any element.
def print : JsonElement → Nat → CString
  | primitive type value, indent_level => primitivePrint type value indent_level
  | array children, indent_level       =>
    if children.isEmpty then
      ['[', ']']
    else
      ['[', '\n'] ++ printArray children (indent_level + 1) ++ printIndent indent_level ++ [']']
  | object children, indent_level      =>
    ['{', '\n'] ++ printObject children (indent_level + 1) ++ printIndent indent_level ++ ['}']

def printArray : List JsonElement → Nat → CString
  | [], _                          => []
  | child :: children, indent_level =>
    let printed :=
      match child with
      | primitive type value => primitivePrint type value indent_level
      | container            => printIndent indent_level ++ print container indent_level
    let separator := if children.isEmpty then ['\n'] else [',', '\n']
    printed ++ separator ++ printArray children indent_level

def printObject : List (CString × JsonElement) → Nat → CString
  | [], _                                          => []
  | (propertyName, child) :: children, indent_level =>
    let printed :=
      match child with
      | primitive type value => primitivePrint type value 0
      | container            => print container indent_level
    let separator := if children.isEmpty then ['\n'] else [',', '\n']
    printIndent indent_level ++ '"' :: propertyName ++ ['"', ':', ' '] ++ printed ++ separator ++
      printObject children indent_level

end
end JsonElement
end CfEngine
