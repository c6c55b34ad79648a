import CfEngine.Library.Regex
import CfEngine.Libutils.Strings

namespace CfEngine

open Regex

-- The offsets of a match that `pcre_exec` finds, with the number of the highest group plus one. It is 0 where the vector
-- is too small for the groups.
structure ExecMatch where
  result : Nat
  start  : Nat
  ending : Nat

def pcreExec (pattern : Regex) (str : CString) (ovecsize : Nat) : Option ExecMatch :=
  (pattern.exec str).map fun m => ⟨if m.2.captured < ovecsize / 3 then m.2.captured + 1 else 0, m.1, m.2.pos⟩

def stringMatchOveccount : Nat :=
  30

-- The offsets are those of the match only if the result is not 0. The argument `compile` stands for `pcre_compile`.
def stringMatchInternal (compile : CString → Option Regex) (regex str : CString) : Option (Nat × Nat) :=
  if regex = str then
    some (0, str.length)
  else
    match compile regex with
    | none         => none
    | some pattern =>
      match pcreExec pattern str stringMatchOveccount with
      | none   => none
      | some m => if m.result ≠ 0 then some (m.start, m.ending) else some (0, 0)

def stringMatchFull (compile : CString → Option Regex) (regex str : CString) : Bool :=
  match stringMatchInternal compile regex str with
  | none                 => false
  | some (start, ending) => start = 0 ∧ ending = str.length

-- The match that is preferred at the start of the string is one of the whole string.
def PrefersWhole (pattern : Regex) (str : CString) (c : Cursor) : Prop :=
  (∃ as, pattern.Preferred str ⟨0, 0⟩ as c) ∧ c.pos = str.length

section
variable {pattern : Regex} {str : CString} {c : Cursor}

theorem prefersWhole_iff : PrefersWhole pattern str c ↔ pattern.exec str = some (0, c) ∧ c.pos = str.length := by
  refine and_congr_left fun _ => ⟨fun ⟨as, hp⟩ => exec_of_preferred hp, fun hexec => ?_⟩
  have ⟨_, as, htakes⟩ := exec_takes hexec
  have ⟨bs, d, hp⟩ := exists_preferred htakes
  cases hexec.symm.trans <| exec_of_preferred hp
  exact ⟨bs, hp⟩

theorem stringMatchFull_iff {compile : CString → Option Regex} {regex : CString} (h : compile regex = some pattern) :
    stringMatchFull compile regex str ↔
      regex = str ∨ ∃ c, PrefersWhole pattern str c ∧ (str = [] ∨ c.captured < stringMatchOveccount / 3) := by
  simp only [prefersWhole_iff]
  rw [stringMatchFull, stringMatchInternal]
  by_cases he : regex = str
  case pos => simp [he]
  case neg =>
    rw [if_neg he, h]
    dsimp only
    rw [pcreExec]
    cases hexec : pattern.exec str
    case none   => simp [he]
    case some m =>
      have ⟨i, d⟩ := m
      by_cases hfits : d.captured < stringMatchOveccount / 3
      case pos => simp [he, hfits]
      case neg =>
        have ⟨hi, as, htakes⟩ := exec_takes hexec
        have hpos := htakes.le_length hi
        simp only [Option.map_some, hfits]
        cases str
        case nil  => simp_all
        case cons => simp_all

end

end CfEngine
