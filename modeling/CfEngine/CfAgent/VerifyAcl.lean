import CfEngine.Libutils.Strings

namespace CfEngine

def scanPastChars (scanpast input : CString) : CString :=
  input.dropWhile (· ∈ scanpast)

inductive AclMethod
  | append
  | overwrite
  deriving DecidableEq

def cfValidOpsMethodOverwrite : CString :=
  ['=', '+', '-']

def cfValidOpsMethodAppend : CString :=
  ['=', '+', '-']

def AclMethod.validOps : AclMethod → CString
  | append    => cfValidOpsMethodAppend
  | overwrite => cfValidOpsMethodOverwrite

def cfValidGperms : CString :=
  ['r', 'w', 'x']

def cfValidNpermsPosix : CString :=
  ['r', 'w', 'x']

theorem scanPastChars_length (scanpast input : CString) : (scanPastChars scanpast input).length ≤ input.length :=
  (List.dropWhile_sublist _).length_le

-- A turn of the loop up to the character after the permissions. Next to it is whether the native permissions are
-- valid and end with their separator.
def checkModeEntry (valid_ops valid_nperms mode : CString) : Bool × CString :=
  match scanPastChars cfValidGperms <| scanPastChars valid_ops mode with
  | '(' :: mode =>
    match scanPastChars valid_nperms mode with
    | ')' :: mode => (true, mode)
    | mode        => (false, mode)
  | mode        => (true, mode)

theorem checkModeEntry_length (valid_ops valid_nperms mode : CString) :
    (checkModeEntry valid_ops valid_nperms mode).2.length ≤ mode.length := by
  have hops := scanPastChars_length valid_ops mode
  have hgperms := scanPastChars_length cfValidGperms <| scanPastChars valid_ops mode
  rw [checkModeEntry]
  split
  case h_2          => exact hgperms.trans hops
  case h_1 mode' hm =>
    have hnperms := scanPastChars_length valid_nperms mode'
    rw [hm, List.length_cons] at hgperms
    split
    case h_1 mode'' hn =>
      rw [hn, List.length_cons] at hnperms
      dsimp only
      omega
    case h_2           =>
      dsimp only
      omega

def checkModeEntries (valid_ops valid_nperms mode : CString) : Bool × CString :=
  match h : checkModeEntry valid_ops valid_nperms mode with
  | (false, mode)       => (false, mode)
  | (true, [])          => (true, [])
  | (true, ':' :: mode) => (true, ':' :: mode)
  | (true, ',' :: mode) => checkModeEntries valid_ops valid_nperms mode
  | (true, mode)        => (false, mode)
termination_by mode.length
decreasing_by
  exact (congrArg (fun r => r.2.length) h).ge.trans <| checkModeEntry_length ..

-- Whether the mode is valid, and the string from the character after it.
def checkModeSyntax (valid_ops valid_nperms : CString) : CString → Bool × CString
  | []          => (true, [])
  | ':' :: mode => (true, ':' :: mode)
  | mode        => checkModeEntries valid_ops valid_nperms mode

end CfEngine
