import CfEngine.Libutils.Strings

namespace CfEngine

-- The argument `pcre` stands for the library: whether the regular expression compiles and matches the
-- full string.
def fullTextMatch (pcre : CString → CString → Bool) (regexp teststring : CString) : Bool :=
  regexp = teststring || pcre regexp teststring

inductive RegexSpecial
  | norm
  | norepeat
  | literal
  deriving DecidableEq

-- The locals of the loop in `IsRegex`.
structure RegexScan where
  special : RegexSpecial := .norepeat
  bracket : Nat := 0
  paren   : Nat := 0
  ret     : Bool := false

namespace RegexScan

-- The `switch` over the character `c`.
def switch (scan : RegexScan) (c : Char) (first : Bool) : Option RegexScan :=
  if c = '^' then
    some { scan with special := if first then .norepeat else .norm }
  else if c = '*' ∨ c = '+' then
    if scan.special = .norepeat then none else some { scan with special := .norepeat, ret := true }
  else if c = '[' then
    some { scan with special := .norm, bracket := scan.bracket + 1, ret := true }
  else if c = ']' then
    if scan.bracket = 0 then none else some { scan with special := .norm, bracket := 0 }
  else if c = '(' then
    some { scan with special := .norepeat, paren := scan.paren + 1 }
  else if c = ')' then
    if scan.paren = 0 then none else some { scan with special := .norm, paren := scan.paren - 1 }
  else if c = '|' then
    some { scan with special := .norepeat, ret := scan.ret || 0 < scan.paren }
  else
    some { scan with special := .norm }

def step (scan : RegexScan) (c : Char) (first : Bool) : Option RegexScan :=
  if scan.special = .literal then
    some { scan with special := .norm }
  else if c = '\\' then
    some { scan with special := .literal }
  else if 0 < scan.bracket ∧ c ≠ ']' then
    if c = '[' then none else some scan
  else
    scan.switch c first

def run (scan : RegexScan) (first : Bool) : CString → Option RegexScan
  | []     => some scan
  | c :: s => (scan.step c first).bind fun scan => scan.run false s

end RegexScan

def isRegex (str : CString) : Bool :=
  match RegexScan.run {} true str with
  | none      => false
  | some scan => scan.bracket = 0 ∧ scan.paren = 0 ∧ scan.special ≠ .literal ∧ scan.ret

end CfEngine
