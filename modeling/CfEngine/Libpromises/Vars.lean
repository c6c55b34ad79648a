import CfEngine.Libutils.Strings

namespace CfEngine

def IsOpening (c : Char) : Prop :=
  c = '(' ∨ c = '{'

instance : DecidablePred IsOpening :=
  fun c => inferInstanceAs (Decidable (c = '(' ∨ c = '{'))

def IsClosing (c : Char) : Prop :=
  c = ')' ∨ c = '}'

instance : DecidablePred IsClosing :=
  fun c => inferInstanceAs (Decidable (c = ')' ∨ c = '}'))

def StartsOpening : CString → Prop
  | []     => False
  | c :: _ => IsOpening c

instance : DecidablePred StartsOpening
  | []     => inferInstanceAs (Decidable False)
  | c :: _ => inferInstanceAs (Decidable (IsOpening c))

-- The text `s` continues with `v` and the bracket that closes `c`.
def closesVar (c : Char) (s v : CString) : Bool :=
  v.isPrefixOf s &&
    match s.drop v.length with
    | []     => false
    | e :: _ => (c = '(' && e = ')') || (c = '{' && e = '}')

def stringContainsVar : (s v : CString) → Bool
  | [], _     => false
  | c :: s, v =>
    if c = '$' ∨ c = '@' then
      match s with
      | []     => false
      | b :: r => closesVar b r v || stringContainsVar s v
    else
      stringContainsVar s v

-- The locals of the loops in `IsCf3VarString`, `IsCf3Scalar` and `IsExpandable`.
structure BracketScan where
  left   : Char := 'x'
  right  : Char := 'x'
  dollar : Bool := false
  bracks : Int  := 0
  vars   : Nat  := 0

namespace BracketScan

-- The `switch` over the character `c`, where `s` is the text that follows it. The functions differ in
-- the characters that start a variable.
def switch (sigils : List Char) (scan : BracketScan) (c : Char) (s : CString) : BracketScan :=
  if c ∈ sigils then
    if StartsOpening s then { scan with dollar := true } else scan
  else if IsOpening c ∧ scan.dollar then
    { scan with left := c, bracks := scan.bracks + 1 }
  else if IsClosing c ∧ scan.dollar then
    { scan with right := c, bracks := scan.bracks - 1 }
  else
    scan

def count (scan : BracketScan) : BracketScan :=
  if (scan.left = '(' ∧ scan.right = ')' ∨ scan.left = '{' ∧ scan.right = '}') ∧ scan.dollar ∧
      scan.bracks = 0 then
    { scan with vars := scan.vars + 1, dollar := false }
  else
    scan

end BracketScan

def isCf3VarString (str : CString) : Bool :=
  go {} str
where
  go (scan : BracketScan) : CString → Bool
    | []     => !(scan.dollar && scan.bracks ≠ 0) && scan.vars ≠ 0
    | c :: s =>
      let scan := scan.switch ['$', '@'] c s
      if scan.bracks > 0 ∧ c = '/' then false else go scan.count s

def isExpandable (str : CString) : Bool :=
  go {} str
where
  go (scan : BracketScan) : CString → Bool
    | []     => scan.bracks = 0 && scan.vars > 0
    | c :: s => go (scan.switch ['$'] c s).count s

-- The loop of `ExtractInnerCf3VarString` yields the text up to the bracket that balances the count.
def extractInnerCf3VarString : (str : CString) → Option CString
  | _ :: b :: s => if IsOpening b then (go 1 s).filter (· ≠ []) else none
  | _           => none
where
  go : (bracks : Nat) → CString → Option CString
    | _, []          => none
    | bracks, c :: s =>
      let bracks := if IsOpening c then bracks + 1 else if IsClosing c then bracks - 1 else bracks
      if bracks = 0 then some [] else (go bracks s).map (c :: ·)

def isQualifiedVariable : CString → Bool
  | []     => false
  | c :: s => c ≠ '[' && (c = '.' || isQualifiedVariable s)

end CfEngine
