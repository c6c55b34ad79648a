import CfEngine.Libpromises.Matching
import CfEngine.Libutils.StringMatch
import CfEngine.Libpromises.ItemLib.Lists

namespace CfEngine

open Regex

def oveccount : Nat :=
  30

-- The result of 0, where the groups do not fit into the vector, is a match here.
def regExMatchSubString (rx : Regex) (teststring : CString) : Option (Nat × Nat) :=
  (pcreExec rx teststring oveccount).map fun m => (m.start, m.ending)

def regExMatchFullString (rx : Regex) (teststring : CString) : Bool :=
  match regExMatchSubString rx teststring with
  | some (match_start, match_len) => match_start = 0 ∧ match_len = teststring.length
  | none                          => false

def compileAndMatch (compile : CString → Option Regex) (regexp teststring : CString) : Bool :=
  match compile regexp with
  | none    => false
  | some rx => regExMatchFullString rx teststring

section
variable {compile : CString → Option Regex} {rx : Regex} {regexp teststring : CString}

theorem fullTextMatch_iff (h : compile regexp = some rx) :
    fullTextMatch (compileAndMatch compile) regexp teststring ↔
      regexp = teststring ∨ ∃ c, PrefersWhole rx teststring c := by
  simp only [prefersWhole_iff]
  rw [fullTextMatch, compileAndMatch, h]
  dsimp only
  rw [regExMatchFullString, regExMatchSubString, pcreExec]
  cases rx.exec teststring
  case none   => simp
  case some m => simp [Prod.ext_iff]

-- The whole string is matched in the sense of languages.
def InLanguage (rx : Regex) (teststring : CString) : Prop :=
  Regex.Matches teststring rx 0 teststring.length

theorem PrefersWhole.inLanguage {c : Cursor} (h : PrefersWhole rx teststring c) : InLanguage rx teststring := by
  have ⟨⟨_, htakes, _⟩, hpos⟩ := h
  rw [InLanguage, ←hpos]
  exact htakes.matches

-- The tests for a full match are those of the language.
def FullMatches (compile : CString → Option Regex) (rx : Regex) (regexp teststring : CString) : Prop :=
  (fullTextMatch (compileAndMatch compile) regexp teststring ↔ regexp = teststring ∨ InLanguage rx teststring) ∧
    (stringMatchFull compile regexp teststring ↔ regexp = teststring ∨ InLanguage rx teststring)

-- No match of a shorter start of the string is preferred, and the groups of the match fit into the vector.
theorem fullMatches_iff (compile : CString → Option Regex) (rx : Regex) (regexp teststring : CString)
    (h : compile regexp = some rx) :
    FullMatches compile rx regexp teststring ↔ regexp = teststring ∨ (InLanguage rx teststring →
      ∃ c, PrefersWhole rx teststring c ∧ (teststring = [] ∨ c.captured < stringMatchOveccount / 3)) := by
  rw [FullMatches, fullTextMatch_iff h, stringMatchFull_iff h]
  by_cases he : regexp = teststring
  case pos => simp [he]
  case neg =>
    simp only [he, false_or]
    constructor
    case mp  => exact fun ⟨_, hstring⟩ => hstring.mpr
    case mpr =>
      intro hlanguage
      refine ⟨⟨fun ⟨c, hc⟩ => hc.inLanguage, fun hl => ?_⟩, ⟨fun ⟨c, hc, _⟩ => hc.inLanguage, hlanguage⟩⟩
      have ⟨c, hc, _⟩ := hlanguage hl
      exact ⟨c, hc⟩

end

def alternatives : CString :=
  ['a', '|', 'a', 'b']

-- The library, for one expression.
def compileAlternatives (regexp : CString) : Option Regex :=
  if regexp = alternatives then some (.alt (.set (· = 'a')) (.seq (.set (· = 'a')) (.set (· = 'b')))) else none

theorem fullMatches_a :
    FullMatches compileAlternatives (.alt (.set (· = 'a')) (.seq (.set (· = 'a')) (.set (· = 'b')))) alternatives ['a'] :=
  (fullMatches_iff compileAlternatives _ alternatives ['a'] rfl).mpr <|
    .inr fun _ => ⟨⟨1, 0⟩, prefersWhole_iff.mpr ⟨rfl, rfl⟩, .inr (by decide)⟩

-- The first alternative matches the first character, and the other one is not tried.
theorem not_fullMatches_ab :
    ¬∀ (compile : CString → Option Regex) (rx : Regex) (regexp teststring : CString), compile regexp = some rx →
      FullMatches compile rx regexp teststring := by
  intro h
  have hmatches := (h compileAlternatives _ alternatives ['a', 'b'] rfl).left
  have hlanguage : InLanguage (.alt (.set (· = 'a')) (.seq (.set (· = 'a')) (.set (· = 'b')))) ['a', 'b'] :=
    .right <| .seq (.set rfl rfl) (.set rfl rfl)
  exact absurd (hmatches.mpr <| .inr hlanguage) (by decide)

-- The characters that are escaped are written to the buffer only up to its last two bytes.
def escapeRegexChars (strEscSz : Nat) (strEscPos : Nat) : CString → CString
  | []      => []
  | c :: sp =>
    if strEscSz - 2 ≤ strEscPos then
      []
    else if c = '.' ∨ c = '*' then
      '\\' :: c :: escapeRegexChars strEscSz (strEscPos + 2) sp
    else
      c :: escapeRegexChars strEscSz (strEscPos + 1) sp

namespace WhitespacePolicy

def anySpace : CString :=
  ['\\', 's', '*']

def someSpace : CString :=
  ['\\', 's', '+']

-- Where `lastchar` is after its loop, from the given index on.
def lastcharLoop (final : CString) (firstchar : Nat) : Nat → Nat
  | 0     => 0
  | i + 1 => if firstchar < i + 1 ∧ final[i + 1]?.any isspace then lastcharLoop final firstchar i else i + 1

-- What the loop writes from the given index on.
def embeddedLoop (firstchar lastchar : Nat) (i : Nat) : CString → CString
  | []      => []
  | c :: sp =>
    if firstchar < i ∧ i < lastchar ∧ isspace c then
      someSpace ++ embeddedLoop firstchar lastchar (i + 1 + (sp.takeWhile isspace).length) (sp.dropWhile isspace)
    else
      c :: embeddedLoop firstchar lastchar (i + 1) sp
  termination_by sp => sp.length
  decreasing_by
    · exact Nat.lt_succ_of_le (List.dropWhile_suffix isspace).length_le
    · exact Nat.lt_succ_self _

def ignoreEmbedded (final : CString) : EditOutcome CString :=
  let firstchar := (final.takeWhile isspace).length
  let lastchar := lastcharLoop final firstchar (final.length - 1)
  let work := embeddedLoop firstchar lastchar 0 final
  if cfBufSize ≤ work.length then .error .bufferOverflow else .ok work

def ignoreLeading (final : CString) : CString :=
  if final.take 3 = anySpace then final
  else (anySpace ++ final.dropWhile isspace).take (cfBufSize - 1)

-- The comparison starts four characters before the end, which may be before the buffer.
def ignoreTrailing (final : CString) : EditOutcome CString :=
  if final.length < 4 then .error .badPointer
  else if (final.drop (final.length - 4)).take 3 = anySpace then .ok final
  else .ok <| (final ++ anySpace).take (cfBufSize - 1)

def applyPolicy (final : CString) : InsertMatchType → EditOutcome CString
  | .ignoreEmbedded => ignoreEmbedded final
  | .ignoreLeading  => .ok <| ignoreLeading final
  | .ignoreTrailing => ignoreTrailing final
  | .exact          => .ok final

-- The variables that the loop over the policies changes.
structure PolicyLoop where
  final   : CString
  escaped : Bool
  ok      : Bool

def policyLoop (pcre : CString → CString → Bool) (camel name haystack : CString) :
    List InsertMatchType → PolicyLoop → EditOutcome PolicyLoop
  | [], l        => .ok l
  | opt :: rp, l =>
    if opt = .exact then
      .ok { l with ok := l.ok || camel = haystack }
    else do
      let final ← applyPolicy (if l.escaped then l.final else escapeRegexChars (cfBufSize - 1) 0 name) opt
      policyLoop pcre camel name haystack rp ⟨final, true, l.ok || fullTextMatch pcre final haystack⟩

-- The loop over the lines. They are escaped only until one has been.
def linesLoop (pcre : CString → CString → Bool) (camel haystack : CString) (insert_match : List InsertMatchType)
    (list : Items) : Nat → (ip : Option Nat) → (escaped ok : Bool) → EditOutcome Bool
  | 0, _, _, _                   => .error .endless
  | _ + 1, none, _, ok           => .ok ok
  | fuel + 1, some a, escaped, _ => do
    let ip ← list.deref (.item a)
    if insert_match = [] then
      .ok (camel = haystack)
    else
      let l ← policyLoop pcre camel ip.payload haystack insert_match ⟨ip.payload.take (cfBufSize - 1), escaped, false⟩
      if l.ok then linesLoop pcre camel haystack insert_match list fuel ip.next l.escaped true else .ok false

def matchPolicy (pcre : CString → CString → Bool) (camel haystack : CString) (insert_match : List InsertMatchType) :
    EditOutcome Bool := do
  let list ← splitString camel '\n'
  linesLoop pcre camel haystack insert_match list.items list.items.fuel list.start false false

end WhitespacePolicy

end CfEngine
