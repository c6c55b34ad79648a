import CfEngine.Libpromises.FilesInterfaces
import CfEngine.Libpromises.ItemLib

namespace CfEngine

structure EditDefaults where
  maxfilesize : Int
  joinlines   : Bool

-- What `stat` and `fopen` find under the name of a file.
structure EditedFile where
  content  : Buffer
  regular  : Bool
  readable : Bool

-- The list is not built in the case of `refused`. Memory before the buffer of the line is accessed in
-- the case of `underrun`.
inductive LoadOutcome
  | refused
  | underrun
  | loaded (items : List CString)
  deriving DecidableEq

def strlcat (dst src : CString) (size : Nat) : CString :=
  dst ++ src.take (size - 1 - dst.length)

-- The loop over the lines of a file. The items and the text that has been joined so far are its state,
-- and it ends at the latest after `fuel` lines.
def loadLines (joinlines : Bool) : Nat → List CString → CString → Stream → LoadOutcome
  | 0, items, _, _              => .loaded items
  | fuel + 1, items, concat, fp =>
    let (res, line, fp) := fp.cfReadLine [] cfBufSize
    if res = 0 then .loaded items
    else if joinlines ∧ line = [] then .underrun
    else if joinlines ∧ line.getLast? = some '\\' then
      loadLines joinlines fuel items (strlcat concat line.dropLast cfBufSize) fp
    else
      let concat := strlcat concat line cfBufSize
      let items := if !fp.eof || concat ≠ [] then items ++ [concat] else items
      loadLines joinlines fuel items [] fp

def loadFileAsItemList (file : Option EditedFile) (edits : EditDefaults) : LoadOutcome :=
  match file with
  | none      => .refused
  | some file =>
    if edits.maxfilesize ≠ 0 ∧ (file.content.length : Int) > edits.maxfilesize then .refused
    else if !file.regular then .refused
    else if !file.readable then .refused
    else loadLines edits.joinlines (file.content.length + 1) [] [] ⟨file.content, false⟩

end CfEngine
