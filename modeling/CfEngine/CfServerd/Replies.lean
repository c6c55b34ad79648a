import CfEngine.CfServerd.Connection

namespace CfEngine

-- The number of the type in the reply.
def FileType.number : FileType → Nat
  | regular => 0
  | link    => 1
  | dir     => 2
  | fifo    => 3
  | block   => 4
  | char    => 5
  | sock    => 6

-- The value as an `int`.
def truncated (n : Int) : Int :=
  (n + 2 ^ 31) % 2 ^ 32 - 2 ^ 31

-- The unit of the blocks in a `struct stat`.
def devBSize : Nat := 512

-- The numbers in the reply about a file. The permissions of a link are given as well.
def statFields (statbuf : Stat) (lmode : UInt32) : List Int :=
  let makeholes := if statbuf.blocks.toNat * devBSize < statbuf.size.toNat then 1 else 0
  [statbuf.type.number, statbuf.mode.toNat, lmode.toNat, statbuf.uid.toNat, statbuf.gid.toNat,
    statbuf.size.toInt64.toInt, statbuf.atime.toInt, statbuf.mtime.toInt, statbuf.ctime.toInt, makeholes,
    truncated statbuf.ino.toInt, truncated statbuf.nlink.toInt, statbuf.dev.toInt]

def statReply (statbuf : Stat) (lmode : UInt32) : CString :=
  printed <| "OK:".toList ++ (statFields statbuf lmode).flatMap fun n => ' ' :: (toString n).toList

theorem length_toString_le {n : Int} (h : -2 ^ 63 ≤ n) (h' : n < 2 ^ 64) :
    (toString n).toList.length ≤ 20 := by
  have hnat {k m : Nat} (hm : 0 < m) (hk : k < 10 ^ m) : k.repr.toList.length ≤ m := by
    rw [String.length_toList]
    exact (Nat.length_repr_le_iff hm).mpr hk
  cases n
  case ofNat n   =>
    have h' : (n : Int) < 2 ^ 64 := h'
    exact hnat (by decide) (by omega)
  case negSucc n =>
    have hn : (n + 1).repr.toList.length ≤ 19 := hnat (by decide) (by omega)
    show ("-" ++ Nat.repr (n + 1)).toList.length ≤ 20
    rw [String.toList_append, List.length_append]
    exact Nat.add_le_add_left hn 1

theorem length_flatMap_toString {fields : List Int} (h : ∀ n ∈ fields, -2 ^ 63 ≤ n ∧ n < 2 ^ 64) :
    (fields.flatMap fun n => ' ' :: (toString n).toList).length ≤ 21 * fields.length := by
  induction fields
  case nil                => exact Nat.le_refl _
  case cons n fields ih =>
    have hn := h n List.mem_cons_self
    have hlen := length_toString_le hn.left hn.right
    have ih := ih fun m hm => h m <| List.mem_cons_of_mem _ hm
    rw [List.flatMap_cons, List.length_append, List.length_cons, List.length_cons]
    omega

theorem statFields_bounds {statbuf : Stat} {lmode : UInt32} :
    ∀ n ∈ statFields statbuf lmode, -2 ^ 63 ≤ n ∧ n < 2 ^ 64 := by
  have h32 (n : UInt32) : -2 ^ 63 ≤ (n.toNat : Int) ∧ (n.toNat : Int) < 2 ^ 64 := by
    have := n.toNat_lt
    omega
  have h64 (n : Int64) : -2 ^ 63 ≤ n.toInt ∧ n.toInt < 2 ^ 64 := by
    have h₁ := n.le_toInt
    have h₂ := n.toInt_lt
    omega
  have ht (n : Int) : -2 ^ 63 ≤ truncated n ∧ truncated n < 2 ^ 64 := by
    unfold truncated
    omega
  have htype : -2 ^ 63 ≤ (statbuf.type.number : Int) ∧ (statbuf.type.number : Int) < 2 ^ 64 := by
    cases statbuf.type <;> decide
  intro n hn
  simp only [statFields, List.mem_cons, List.not_mem_nil, or_false] at hn
  rcases hn with rfl | rfl | rfl | rfl | rfl | rfl | rfl | rfl | rfl | rfl | rfl | rfl | rfl
  · exact htype
  · exact h32 _
  · exact h32 _
  · exact h32 _
  · exact h32 _
  · exact h64 _
  · exact h64 _
  · exact h64 _
  · exact h64 _
  · split <;> decide
  · exact ht _
  · exact ht _
  · exact h64 _

theorem fits_statReply {statbuf : Stat} {lmode : UInt32} : FitsText (statReply statbuf lmode) := by
  apply fitsText_printed
  have h : _ ≤ 21 * (statFields statbuf lmode).length := length_flatMap_toString statFields_bounds
  have hl : (statFields statbuf lmode).length = 13 := rfl
  have ht : ("OK:".toList).length = 3 := rfl
  rw [List.length_append, ht]
  simp only [cfBufSize, cfInbandOffset]
  omega

-- The file that a link leads to is described by the data of the link apart from these.
def derefLink (link target : Stat) : Stat :=
  { link with
    size := target.size, type := target.type, mode := target.mode, uid := target.uid,
    gid := target.gid, mtime := target.mtime, ctime := target.ctime }

def suspiciousName (filename : CString) : CString :=
  printed <| "BAD: Filename suspiciously long [".toList ++ filename ++ "]\n".toList

def statFailure (filename : CString) : CString :=
  printed <| "BAD: unable to stat file ".toList ++ filename

def openFailure (dirname : CString) : CString :=
  printed <| "BAD: cfengine, couldn't open dir ".toList ++ dirname ++ ['\n']

namespace Surroundings

variable (now : Surroundings)

def sendStat (statbuf : Stat) (lmode : UInt32) (linkbuf : CString) : Serving Unit := do
  let _ ← Serving.sendText <| statReply statbuf lmode
  let _ ← Serving.sendText <| "OK:".toList ++ linkbuf

-- Where the file is gone after it has been found, the buffer for the reply has not been set.
def statFile (ofilename : CString) : Serving Unit := do
  let filename := translatePath ofilename
  if cfMaxLinkSize < (readLastNode filename).length then
    let _ ← Serving.sendText <| suspiciousName filename
    return
  Traced.emit <| .opened .attributes filename
  match now.fs.lstat filename with
  | none         =>
    let _ ← Serving.sendText <| statFailure filename
  | some statbuf =>
    if statbuf.type = .link then
      match now.fs.readlink filename with
      | none         =>
        let _ ← Serving.sendText "BAD: unable to read link\n".toList
      | some linkbuf =>
        let target := ((now.fs.stat filename).map <| derefLink statbuf).getD statbuf
        sendStat target statbuf.mode linkbuf
    else
      match now.fs.stat filename with
      | none         =>
        let _ ← Serving.sendText now.leftText
      | some statbuf => sendStat statbuf 0 []

def hashFile (crypto : Crypto) (filename : CString) : Buffer :=
  match now.fs.read filename with
  | some data => crypto.hashString <| data.getD []
  | none      => now.leftData

-- The digest in the request comes after its text.
def compareLocalHash (crypto : Crypto) (recvbuffer : Buffer) : Serving Unit := do
  let input := recvbuffer.toCString
  let rfilename := (assignedText (sscanf input <| scanLiteral "MD5".toList ++ [.blanks, .line cfBufSize])
    0).getD now.leftText
  let digest1 := bytesFrom (recvbuffer.drop <| input.length + 2) cfMd5Len
  let filename := translatePath rfilename
  Traced.emit <| .opened .hash filename
  let digest2 := now.hashFile crypto filename
  if hashesMatch digest1 digest2 then
    let _ ← Serving.sendText "CFD_FALSE".toList
  else
    let _ ← Serving.sendText "CFD_TRUE".toList

-- A reply that is a text goes to the peer as it is, or encrypted together with its terminator.
def sendReply (crypto : Crypto) (encrypted : Bool) (text : CString) : Serving Unit := do
  if encrypted then
    let _ ← Serving.sendEncrypted crypto (text ++ ['\x00']) .done
  else
    let _ ← Serving.sendText text

-- There are no literals in this edition.
def getServerLiteral (crypto : Crypto) (encrypted : Bool) : Serving Unit :=
  sendReply crypto encrypted "BAD: Not found".toList

def contextReply : List CString → CString → CString
  | [], sendbuffer              => sendbuffer
  | name :: classes, sendbuffer =>
    if sendbuffer.length + name.length < cfBufSize - 3 then
      contextReply classes (sendbuffer ++ name ++ [','])
    else
      sendbuffer

def replyServerContext (crypto : Crypto) (encrypted : Bool) (classes : List CString) :
    Serving Unit :=
  sendReply crypto encrypted <| contextReply classes []

-- The loop that packs the names in a directory, with the names packed so far.
def packNames (send : Buffer → TransactionStatus → Serving Bool) : List CString → Buffer →
    Serving Unit
  | [], packed            => do
    let _ ← send (packed ++ cfdTerminator ++ ['\x00', '\x00']) .done
  | name :: names, packed => do
    if cfBufSize - cfMaxLinkSize ≤ name.length + 1 + packed.length then
      let _ ← send (packed ++ ['\x00']) .more
      packNames send names (name ++ ['\x00'])
    else
      packNames send names (packed ++ name ++ ['\x00'])

-- The two functions for directories differ in how they send, and in that the name is not translated if
-- the reply is encrypted.
def openDirectory (reply : CString → Serving Unit) (send : Buffer → TransactionStatus → Serving Bool)
    (dirname : CString) : Serving Unit := do
  if ¬isAbsoluteFileName dirname then
    reply "BAD: request to access a non-absolute filename\n".toList
  else
    Traced.emit <| .opened .listing dirname
    match now.fs.readdir dirname with
    | none       => reply <| openFailure dirname
    | some names => packNames send names []

def cfOpenDirectory (crypto : Crypto) (oldDirname : CString) : Serving Unit :=
  now.openDirectory (sendReply crypto false)
    (fun packed status => Serving.sendTransaction packed (some packed.length) status)
    (translatePath oldDirname)

def cfSecOpenDirectory (crypto : Crypto) (dirname : CString) : Serving Unit :=
  now.openDirectory (sendReply crypto true) (Serving.sendEncrypted crypto) dirname

end Surroundings
end CfEngine
