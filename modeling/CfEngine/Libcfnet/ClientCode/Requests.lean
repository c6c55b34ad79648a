import CfEngine.CfServerd.Replies
import CfEngine.Library.Numerals
import CfEngine.Library.Run
import CfEngine.Libcfnet.ClientCode
import CfEngine.Libpromises.Conversion
import CfEngine.Libpromises.FilesCopy

namespace CfEngine

-- A number of at most `width` characters, its sign included. No width below is one in which a number overflows.
def scanWidth (width : Nat) (s : CString) : Option (Int × CString) :=
  let s := s.dropWhile isspace
  (scanNumber <| s.take width).map fun (n, rest) => (n, rest ++ s.drop width)

-- The numbers that are assigned before the first one that is missing.
def scanWidths : List Nat → CString → List Int
  | [], _              => []
  | width :: widths, s =>
    match scanWidth width s with
    | none        => []
    | some (n, s) => n :: scanWidths widths s

def statWidths : List Nat :=
  [1, 5, 14, 14, 14, 18, 14, 14, 14, 1, 14, 14, 18]

section
variable {s rest : CString} {n m : Int} {k width : Nat} {ns ms : List Int} {widths : List Nat}

theorem toDigits_ne_nil : Nat.toDigits 10 k ≠ [] := by
  intro h
  have hpos := @Nat.length_toDigits_pos 10 k
  rw [h] at hpos
  cases hpos

theorem isDigit_of_mem_toDigits {c : Char} : c ∈ Nat.toDigits 10 k → c.isDigit :=
  Numerals.isDigit_of_mem_toDigits

-- The text of a number is the text of its absolute value, after its sign.
theorem toList_toString (n : Int) :
    (toString n).toList = if n < 0 then '-' :: Nat.toDigits 10 n.natAbs else Nat.toDigits 10 n.natAbs := by
  cases n
  case ofNat k   => exact Nat.toList_repr.trans (if_neg <| Int.not_lt.mpr <| Int.natCast_nonneg k).symm
  case negSucc k =>
    rw [if_pos <| Int.negSucc_lt_zero k]
    show ("-" ++ Nat.repr (k + 1)).toList = _
    rw [String.toList_append, Nat.toList_repr]
    rfl

theorem signedDigits_toString : SignedDigits (toString n).toList n := by
  have hvalue : decimal (Nat.toDigits 10 n.natAbs) = n.natAbs := Numerals.value_toDigits
  rw [toList_toString]
  split
  case isTrue h  =>
    have hdigits := @SignedDigits.minus _ (@toDigits_ne_nil n.natAbs) fun _ => isDigit_of_mem_toDigits
    rwa [hvalue, Int.ofNat_natAbs_of_nonpos h.le, Int.neg_neg] at hdigits
  case isFalse h =>
    have hdigits := @SignedDigits.plain _ (@toDigits_ne_nil n.natAbs) fun _ => isDigit_of_mem_toDigits
    rwa [hvalue, Int.natAbs_of_nonneg <| Int.not_lt.mp h] at hdigits

-- The number has at most so many characters, its sign included.
def FitsWidth (width : Nat) (n : Int) : Prop :=
  n.natAbs < 10 ^ (if n < 0 then width - 1 else width)

theorem length_toDigits_le (hk : 0 < n.natAbs ∨ 0 < k) : (Nat.toDigits 10 n.natAbs).length ≤ k ↔ n.natAbs < 10 ^ k := by
  cases k
  case zero   =>
    have hpos := List.length_pos_of_ne_nil <| @toDigits_ne_nil n.natAbs
    omega
  case succ k => exact Nat.length_toDigits_le_iff (by decide) k.succ_pos

theorem FitsWidth.length_le (hw : 0 < width) (h : FitsWidth width n) : (toString n).toList.length ≤ width := by
  rw [FitsWidth] at h
  rw [toList_toString]
  by_cases hn : n < 0
  case pos =>
    rw [if_pos hn] at h ⊢
    have hlen := (length_toDigits_le <| .inl <| by omega).mpr h
    rw [List.length_cons]
    omega
  case neg =>
    rw [if_neg hn] at h ⊢
    exact (length_toDigits_le <| .inr hw).mpr h

-- So many characters are enough for no other numbers.
theorem SignedDigits.fitsWidth (hs : SignedDigits s n) (hlen : s.length ≤ width) : FitsWidth width n := by
  have hlt {d : CString} {k : Nat} (hd : ∀ c ∈ d, c.isDigit) (hk : d.length ≤ k) : decimal d < 10 ^ k :=
    (Numerals.value_lt hd).trans_le <| Nat.pow_le_pow_right (by decide) hk
  rw [FitsWidth]
  cases hs
  case plain hne hd =>
    rw [if_neg <| Int.not_lt.mpr <| Int.natCast_nonneg _, Int.natAbs_natCast]
    exact hlt hd hlen
  case plus hne hd  =>
    rw [if_neg <| Int.not_lt.mpr <| Int.natCast_nonneg _, Int.natAbs_natCast]
    exact hlt hd <| (Nat.le_succ _).trans hlen
  case minus hne hd =>
    rw [List.length_cons] at hlen
    rw [Int.natAbs_neg, Int.natAbs_natCast]
    apply hlt hd
    split <;> omega

theorem fitsWidth_of_scanWidth (h : scanWidth width s = some (n, rest)) : FitsWidth width n := by
  obtain ⟨⟨m, rest'⟩, hscan, he⟩ := Option.map_eq_some_iff.mp h
  obtain ⟨rfl, -⟩ := Prod.mk.inj he
  obtain ⟨t, ht, hsplit, -⟩ := scanNumber_eq_some hscan
  have hsuffix := (List.dropWhile_suffix (l := (s.dropWhile isspace).take width) isspace).length_le
  have hlen : t.length ≤ (t ++ rest').length := by
    rw [List.length_append]
    exact Nat.le_add_right ..
  rw [←hsplit] at hlen
  exact ht.fitsWidth <| (hlen.trans hsuffix).trans <| List.length_take_le ..

theorem dropWhile_toString : (' ' :: ((toString n).toList ++ rest)).dropWhile isspace = (toString n).toList ++ rest := by
  rw [List.dropWhile_cons_of_pos (by decide), toList_toString]
  split
  case isTrue  => exact List.dropWhile_cons_of_neg (by decide)
  case isFalse =>
    cases hd : Nat.toDigits 10 n.natAbs
    case nil       => exact absurd hd toDigits_ne_nil
    case cons c ds =>
      have hc := isspace_of_isDigit <| isDigit_of_mem_toDigits <| hd ▸ List.mem_cons_self
      exact List.dropWhile_cons_of_neg <| by simp [hc]

theorem scanWidth_of_fits (hw : 0 < width) (h : FitsWidth width n) (hr : ∀ c ∈ rest.head?, ¬c.isDigit) :
    scanWidth width (' ' :: ((toString n).toList ++ rest)) = some (n, rest) := by
  have hlen := h.length_le hw
  have hr' : ∀ c ∈ (rest.take (width - (toString n).toList.length)).head?, ¬c.isDigit := by
    intro c hc
    rw [List.head?_take] at hc
    split at hc
    case isTrue  => cases hc
    case isFalse => exact hr c hc
  simp only [scanWidth]
  rw [dropWhile_toString, List.take_append, List.take_of_length_le hlen, scanNumber_signed signedDigits_toString hr',
    Option.map_some, List.drop_append, List.drop_of_length_le hlen, List.nil_append, List.take_append_drop]

def fieldsText (ns : List Int) : CString :=
  ns.flatMap fun n => ' ' :: (toString n).toList

theorem fieldsText_cons : fieldsText (n :: ns) = ' ' :: ((toString n).toList ++ fieldsText ns) :=
  rfl

theorem head_fieldsText : ∀ c ∈ (fieldsText ns).head?, ¬c.isDigit := by
  cases ns
  case nil       => simp [fieldsText]
  case cons n ns =>
    rintro c ⟨⟩
    decide

theorem scanWidths_of_fits (hw : ∀ width ∈ widths, 0 < width) (h : List.Forall₂ FitsWidth widths ns) :
    scanWidths widths (fieldsText ns) = ns := by
  induction h
  case nil         => rfl
  case cons hn _ ih =>
    rw [fieldsText_cons, scanWidths, scanWidth_of_fits (hw _ List.mem_cons_self) hn head_fieldsText]
    exact congrArg _ <| ih fun width hm => hw width <| List.mem_cons_of_mem _ hm

-- The first number that is too long is read as another one, whatever becomes of those after it.
theorem fits_of_scanWidths (hw : ∀ width ∈ widths, 0 < width) (hlen : widths.length = ns.length)
    (h : List.Forall₂ (fun p m => ¬FitsWidth p.1 p.2 → m = p.2) (widths.zip ns) (scanWidths widths (fieldsText ns))) :
    List.Forall₂ FitsWidth widths ns := by
  induction widths generalizing ns
  case nil                  => exact List.length_eq_zero_iff.mp hlen.symm ▸ .nil
  case cons width widths ih =>
    cases ns
    case nil       => cases hlen
    case cons n ns =>
      have hpos := hw width List.mem_cons_self
      rw [List.zip_cons_cons, fieldsText_cons, scanWidths] at h
      by_cases hn : FitsWidth width n
      case pos =>
        rw [scanWidth_of_fits hpos hn head_fieldsText] at h
        exact .cons hn <| ih (fun width hm => hw width <| List.mem_cons_of_mem _ hm) (Nat.succ.inj hlen)
          (List.forall₂_cons.mp h).right
      case neg =>
        cases hscan : scanWidth width (' ' :: ((toString n).toList ++ fieldsText ns))
        case none   =>
          rw [hscan] at h
          cases h
        case some r =>
          rw [hscan] at h
          have he : r.1 = n := (List.forall₂_cons.mp h).left hn
          exact absurd (he ▸ fitsWidth_of_scanWidth hscan) hn

end

-- The data about a file that a connection keeps. The number of the type is one digit, not always one of a type.
structure ClientStat where
  filename : CString
  server   : CString
  type     : Int
  lmode    : UInt32
  mode     : UInt32
  uid      : UInt32
  gid      : UInt32
  size     : Int64
  atime    : Int64
  mtime    : Int64
  ctime    : Int64
  readlink : Option CString
  failed   : Bool
  nlink    : Int
  ino      : Int
  dev      : UInt64
  deriving DecidableEq

-- The `struct stat` that is filled in.
structure StatBuf where
  mode  : UInt32
  uid   : UInt32
  gid   : UInt32
  size  : Int64
  atime : Int64
  mtime : Int64
  ctime : Int64
  ino   : UInt64
  dev   : UInt64
  nlink : UInt64
  deriving DecidableEq

structure AgentConnection where
  this_server : CString
  session_key : Option Buffer
  cache       : List ClientStat

def sIflnk : UInt32 := 0o120000

-- The bits for the type in `st_mode`.
def typeBits : Int → UInt32
  | 0 => 0o100000
  | 1 => sIflnk
  | 2 => 0o040000
  | 3 => 0o010000
  | 4 => 0o060000
  | 5 => 0o020000
  | 6 => 0o140000
  | _ => 0

def ClientStat.statBuf (sp : ClientStat) (stattype : CString) : StatBuf where
  mode  := if sp.lmode ≠ 0 ∧ stattype = "link".toList then sp.lmode else sp.mode
  uid   := sp.uid
  gid   := sp.gid
  size  := sp.size
  atime := sp.atime
  mtime := sp.mtime
  ctime := sp.ctime
  ino   := .ofInt sp.ino
  dev   := sp.dev
  nlink := .ofInt sp.nlink

def clientCacheLookup (conn : AgentConnection) (server_name file_name : CString) : Option ClientStat :=
  conn.cache.find? fun sp => server_name = sp.server ∧ file_name = sp.filename

-- What is found for a file, which may be that the call failed.
def cacheStat (conn : AgentConnection) (file stattype : CString) : Option (Option StatBuf) :=
  (clientCacheLookup conn conn.this_server file).map fun sp => if sp.failed then none else some <| sp.statBuf stattype

def newClientCache (data : ClientStat) (conn : AgentConnection) : AgentConnection :=
  { conn with cache := data :: conn.cache }

def okProtoReply (buf : Buffer) : Bool :=
  "OK:".toList.isPrefixOf buf

-- What is kept if all of the numbers have been assigned. The numbers of the holes are not looked at.
def statOfFields (server file readlink : CString) : List Int → Option ClientStat
  | [d1, d2, d3, d4, d5, d6, d7, d8, d9, _, d11, d12, d13] =>
    let lmode := UInt32.ofInt d3
    some {
      filename := file
      server   := server
      type     := d1
      lmode    := if lmode ≠ 0 then lmode ||| sIflnk else lmode
      mode     := .ofInt d2 ||| typeBits d1
      uid      := .ofInt d4
      gid      := .ofInt d5
      size     := .ofInt d6
      atime    := .ofInt d7
      mtime    := .ofInt d8
      ctime    := .ofInt d9
      readlink := if 3 < readlink.length then some <| readlink.drop 3 else none
      failed   := false
      nlink    := truncated d12
      ino      := truncated d11
      dev      := .ofInt d13
    }
  | _ => none

def syncText (tloc : Int64) (file : CString) : CString :=
  "SYNCH ".toList ++ (toString tloc.toInt).toList ++ " STAT ".toList ++ file

-- The keyword and the length of what follows.
def secureHeader (keyword : CString) (length : Nat) : CString :=
  keyword ++ ' ' :: Nat.toDigits 10 length

-- An encrypted text behind its header. What is left in the buffer between them is sent as well.
def securePacket (keyword : CString) (out left : Buffer) : Buffer :=
  bytesFrom (overwrite (secureHeader keyword out.length ++ ['\x00']) left) cfProtoOffset ++ out

-- The request, which is missing where the text cannot be encrypted: a negative number of bytes is copied.
def statRequest (crypto : Crypto) (conn : AgentConnection) (file : CString) (encrypt : Bool) (tloc : Int64)
    (left : Buffer) : Outcome Buffer :=
  if encrypt then
    (crypto.encrypt conn.session_key ((syncText tloc file).take (cfBufSize - 2) ++ ['\x00'])).map
      (securePacket "SSYNCH".toList · left)
  else
    some <| printed <| syncText tloc file

-- What the call does with the packets that come back.
def statReceived (conn : AgentConnection) (file stattype : CString) : List Buffer → Option StatBuf × AgentConnection
  | []                      => (none, conn)
  | recvbuffer :: packets =>
    let recvbuffer := recvbuffer.toCString
    if "unsynchronized".toList <:+: recvbuffer then
      (none, conn)
    else if badProtoReply recvbuffer then
      (none, conn)
    else if okProtoReply recvbuffer then
      match packets with
      | []            => (none, conn)
      | readlink :: _ =>
        match statOfFields conn.this_server file readlink.toCString (scanWidths statWidths <| recvbuffer.drop 3) with
        | none      => (none, conn)
        | some cfst => (some <| cfst.statBuf stattype, newClientCache cfst conn)
    else
      (none, conn)

-- The peer gives back some packets for the request, or it cannot be sent.
def cfRemoteStat (crypto : Crypto) (conn : AgentConnection) (file stattype : CString) (encrypt : Bool) (tloc : Int64)
    (left : Buffer) (transact : Buffer → Option (List Buffer)) : Outcome (Option StatBuf × AgentConnection) :=
  if cfBufSize - 30 < file.length then
    some (none, conn)
  else
    match cacheStat conn file stattype with
    | some buf => some (buf, conn)
    | none     =>
      if encrypt ∧ conn.session_key = none then
        some (none, conn)
      else
        (statRequest crypto conn file encrypt tloc left).map fun request =>
          match transact request with
          | none         => (none, conn)
          | some packets => statReceived conn file stattype packets

-- The digest of the local file. Where it cannot be read, the buffer keeps the digest of the file before.
def localDigest (crypto : Crypto) (data : Option Buffer) (d : Buffer) : Buffer :=
  data.elim d crypto.hashString

-- The digest comes after the text of the request and a byte that is not set.
def hashText (file1 : CString) (gap : Char) (d : Buffer) : Buffer :=
  printed ("MD5 ".toList ++ file1) ++ ['\x00', gap] ++ bytesFrom d cfMd5Len

-- There is no request where the digest does not fit into the buffer, or the text cannot be encrypted.
def hashRequest (crypto : Crypto) (conn : AgentConnection) (file1 : CString) (encrypt : Bool) (gap : Char)
    (d left : Buffer) : Outcome Buffer :=
  if cfBufSize < (hashText file1 gap d).length then
    none
  else if encrypt then
    (crypto.encrypt conn.session_key <| hashText file1 gap d).map (securePacket "SMD5".toList · left)
  else
    some <| hashText file1 gap d

-- Whether the files differ, and the digest that is kept for the next call.
def compareHashNet (crypto : Crypto) (conn : AgentConnection) (file1 : CString) (file2 : Option Buffer) (encrypt : Bool)
    (gap : Char) (d left : Buffer) (transact : Buffer → Option (List Buffer)) : Outcome (Bool × Buffer) :=
  let d := localDigest crypto file2 d
  (hashRequest crypto conn file1 encrypt gap d left).map fun request =>
    match transact request with
    | none                   => (false, d)
    | some []                => (false, d)
    | some (recvbuffer :: _) => (recvbuffer.toCString = "CFD_TRUE".toList, d)

-- The bytes that the characters stand for.
def Buffer.bytes (data : Buffer) : List UInt8 :=
  data.map fun c => .ofNat c.toNat

-- The zeros are not written.
def fsWrite (calls : DescriptorCalls) (dd : Descriptor) (buf : Buffer) : Bool × Descriptor :=
  copySpans calls dd buf.bytes

-- The loop of `CopyRegularFileNet` with the file as it is on the disk, and the number of bytes that it has come to.
def fileCopyLoop (calls : DescriptorCalls) (size : Nat) :
    Nat → RecvStream → Buffer → Nat → Descriptor → Outcome (Option (Descriptor × Nat))
  | 0, _, _, _, _                              => none
  | fuel + 1, stream, buf, n_read_total, dd => do
    let toget := if copyBufSize ≤ size - n_read_total then copyBufSize else size - n_read_total
    let received ← stream.recvSocketStream toget
    if received.value = -1 then
      return none
    let buf := receivedInto received.buffer buf
    if looksRefused n_read_total buf then
      return none
    let (written, dd) := fsWrite calls dd <| buf.take received.value.toNat
    if ¬written then
      return none
    let n_read_total := n_read_total + toget
    if size ≤ n_read_total then
      return some (dd, n_read_total)
    fileCopyLoop calls size fuel received.stream buf n_read_total dd

def fileCopyRegularFileNet (calls : DescriptorCalls) (new : CString) (opened sent : Bool) (size : Nat)
    (stream : RecvStream) (buf : Buffer) : Outcome (Option Descriptor) := do
  if cfBufSize - 20 < new.length ∨ ¬opened ∨ ¬sent then
    return none
  match ← fileCopyLoop calls size (size + 1) stream buf 0 .empty with
  | none                    => return none
  | some (dd, n_read_total) =>
    let (truncated, dd) := calls.ftruncate dd n_read_total
    return if truncated then some dd else none

section
variable {calls : DescriptorCalls} {dd : Descriptor} {copied data : Buffer} {n size fuel : Nat}

theorem Buffer.bytes_append : Buffer.bytes (copied ++ data) = copied.bytes ++ data.bytes :=
  List.map_append

theorem Buffer.length_bytes : data.bytes.length = data.length :=
  List.length_map ..

-- The file is cut off or filled up, just as what has been copied.
theorem content_truncate (h : Copied dd copied.bytes) : (dd.truncate n).content = (ftruncate n copied).bytes := by
  obtain ⟨m, hm⟩ := h.content
  have hlen : copied.length = dd.content.length + m := by
    rw [←Buffer.length_bytes, hm, List.length_append, List.length_replicate]
  have hzeros (k : Nat) : Buffer.bytes (List.replicate k '\x00') = List.replicate k 0 := List.map_replicate
  have htake : (Buffer.bytes (copied.take n)) = (dd.content ++ List.replicate m 0).take n := by
    rw [←hm]
    exact List.map_take
  have hfill : min (n - dd.content.length) m + (n - copied.length) = n - dd.content.length := by omega
  rw [ftruncate, Buffer.bytes_append, hzeros, htake, List.take_append, List.take_replicate, List.append_assoc,
    List.replicate_append_replicate, hfill]
  rfl

theorem fsWrite_spec (hw : calls.Work) (h : Copied dd copied.bytes) :
    ∃ dd', fsWrite calls dd data = (true, dd') ∧ Copied dd' (Buffer.bytes <| copied ++ data) := by
  obtain ⟨dd', hspans, hcopied⟩ := @copied_copySpans calls dd copied.bytes data.bytes hw h
  rw [←Buffer.bytes_append] at hcopied
  exact ⟨dd', hspans, hcopied⟩

-- The copy on the disk has come as far as the one in memory.
inductive SameCopy (size : Nat) : Outcome (Option Buffer) → Outcome (Option (Descriptor × Nat)) → Prop
  | stuck : SameCopy size none none
  | failed : SameCopy size (some none) (some none)
  | copied {dd : Descriptor} {written : Buffer} (h : Copied dd written.bytes) :
    SameCopy size (some <| some written) (some <| some (dd, size))

theorem sameCopy_loop (hw : calls.Work) (h : Copied dd copied.bytes) (hn : n ≤ size) {stream : RecvStream} {buf : Buffer} :
    SameCopy size (copyLoop size fuel stream buf n copied) (fileCopyLoop calls size fuel stream buf n dd) := by
  induction fuel generalizing stream buf n copied dd
  case zero         => exact .stuck
  case succ fuel ih =>
    rw [copyLoop, fileCopyLoop]
    generalize hget : (if copyBufSize ≤ size - n then copyBufSize else size - n) = toget
    cases stream.recvSocketStream toget
    case none          => exact .stuck
    case some received =>
      simp only [Option.bind_eq_bind, Option.bind_some]
      by_cases hlost : received.value = -1
      case pos => simpa [hlost] using SameCopy.failed
      case neg =>
        by_cases hseen : looksRefused n (receivedInto received.buffer buf) = true
        case pos => simpa [hlost, hseen] using SameCopy.failed
        case neg =>
          obtain ⟨dd', hwrite, hcopied⟩ := @fsWrite_spec calls dd copied
            ((receivedInto received.buffer buf).take received.value.toNat) hw h
          have hle : n + toget ≤ size := by
            split at hget <;> omega
          by_cases hend : size ≤ n + toget
          case pos =>
            have heq : n + toget = size := Nat.le_antisymm hle hend
            simpa [hlost, hseen, hwrite, heq] using SameCopy.copied hcopied
          case neg => simpa [hlost, hseen, hwrite, hend] using ih hcopied hle

-- The file is what would have been written without holes.
theorem fileCopyRegularFileNet_eq (hw : calls.Work) {new : CString} {opened sent : Bool} {stream : RecvStream} {buf : Buffer} :
    (fileCopyRegularFileNet calls new opened sent size stream buf).map (·.map Descriptor.content) =
      (copyRegularFileNet ⟨new, opened, sent, true⟩ size stream buf).map (·.map Buffer.bytes) := by
  have hsame := @sameCopy_loop calls .empty [] 0 size (size + 1) hw copied_empty (Nat.zero_le _) stream buf
  rw [fileCopyRegularFileNet, copyRegularFileNet]
  by_cases hready : cfBufSize - 20 < new.length ∨ ¬opened = true ∨ ¬sent = true
  case pos =>
    rw [if_pos hready, if_pos hready]
    rfl
  case neg =>
    rw [if_neg hready, if_neg hready]
    generalize copyLoop size (size + 1) stream buf 0 [] = plain at hsame ⊢
    generalize fileCopyLoop calls size (size + 1) stream buf 0 .empty = sparse at hsame ⊢
    cases hsame
    case stuck    => rfl
    case failed   => rfl
    case copied h =>
      simp [hw.ftruncate, content_truncate h]

end

-- The calls on a file that always work.
def workingCalls : DescriptorCalls :=
  ⟨fun dd n => (true, dd.seek n), fun dd bytes => (true, dd.write bytes), fun dd n => (true, dd.truncate n)⟩

theorem work_workingCalls : workingCalls.Work :=
  ⟨fun _ _ => rfl, fun _ _ => rfl, fun _ _ => rfl⟩

theorem fileCopyRegularFileNet_working :
    (fileCopyRegularFileNet workingCalls ['b'] true true 4 ⟨['x', '\x00', '\x00'], true, [.bytes 0]⟩ []).map
        (·.map Descriptor.content) =
      (copyRegularFileNet ⟨['b'], true, true, true⟩ 4 ⟨['x', '\x00', '\x00'], true, [.bytes 0]⟩ []).map
        (·.map Buffer.bytes) :=
  fileCopyRegularFileNet_eq work_workingCalls

-- The messages are looked for behind a header, which has been taken off before.
def messageSeen (n_read_total : Nat) (buf : Buffer) : Bool :=
  (n_read_total = 0 ∧ cfFailedStr.isPrefixOf (buf.drop cfInbandOffset)) ||
    (cfChangedStr1 ++ cfChangedStr2).isPrefixOf (buf.drop cfInbandOffset)

-- The transactions that come, as long as there are more of them. The decryption of the library can fail.
def encryptCopyLoop (calls : DescriptorCalls) (decrypt : Buffer → Option Buffer) :
    List (Buffer × TransactionStatus) → Buffer → Nat → Descriptor → Option Descriptor
  | [], _, _, _                                      => none
  | (data, status) :: packets, buf, n_read_total, dd =>
    if messageSeen n_read_total (receivedInto data buf) then
      none
    else
      (decrypt data).bind fun workbuf =>
        let (written, dd) := fsWrite calls dd workbuf
        if ¬written then
          none
        else if status = .more then
          encryptCopyLoop calls decrypt packets (receivedInto data buf) (n_read_total + workbuf.length) dd
        else
          let (truncated, dd) := calls.ftruncate dd (n_read_total + workbuf.length)
          if truncated then some dd else none

-- The file if the function returns true. An empty one is not asked for.
def encryptCopyRegularFileNet (calls : DescriptorCalls) (decrypt : Buffer → Option Buffer) (new : CString)
    (opened sent : Bool) (size : Nat) (packets : List (Buffer × TransactionStatus)) (buf : Buffer) : Option Descriptor :=
  if cfBufSize - 20 < new.length ∨ ¬opened then
    none
  else if size = 0 then
    some .empty
  else if ¬sent then
    none
  else
    encryptCopyLoop calls decrypt packets buf 0 .empty

-- A call, with the time, what is left in its buffer, and the peer that it meets.
structure StatCall where
  file     : CString
  stattype : CString
  encrypt  : Bool
  tloc     : Int64
  left     : Buffer
  transact : Buffer → Option (List Buffer)

def StatCall.run (crypto : Crypto) (conn : AgentConnection) (call : StatCall) : Outcome (Option StatBuf × AgentConnection) :=
  cfRemoteStat crypto conn call.file call.stattype call.encrypt call.tloc call.left call.transact

-- The results of the calls on a connection.
def statRun (crypto : Crypto) : AgentConnection → List StatCall → Outcome (List (Option StatBuf))
  | _, []               => some []
  | conn, call :: calls => do
    let (buf, conn) ← call.run crypto conn
    let bufs ← statRun crypto conn calls
    return buf :: bufs

section
variable {crypto : Crypto} {conn conn' : AgentConnection} {file stattype server readlink : CString} {packets : List Buffer}
  {call : StatCall} {calls : List StatCall} {buf : Option StatBuf} {bufs : List (Option StatBuf)} {sp : ClientStat}

-- What a call may leave behind in the cache.
inductive Learns (conn : AgentConnection) (file stattype : CString) : Option StatBuf → AgentConnection → Prop
  | nothing : Learns conn file stattype none conn
  | entry {cfst : ClientStat} (hs : cfst.server = conn.this_server) (hf : cfst.filename = file) (ho : cfst.failed = false) :
    Learns conn file stattype (some <| cfst.statBuf stattype) (newClientCache cfst conn)

theorem statOfFields_names {ms : List Int} (h : statOfFields server file readlink ms = some sp) :
    sp.server = server ∧ sp.filename = file ∧ sp.failed = false := by
  unfold statOfFields at h
  split at h
  case h_1 =>
    cases Option.some.inj h
    exact ⟨rfl, rfl, rfl⟩
  case h_2 => cases h

theorem learns_statReceived (h : statReceived conn file stattype packets = (buf, conn')) :
    Learns conn file stattype buf conn' := by
  have hnothing (h : (none, conn) = (buf, conn')) : Learns conn file stattype buf conn' := by
    cases h
    exact .nothing
  rcases packets with _ | ⟨recvbuffer, packets⟩
  · exact hnothing h
  · unfold statReceived at h
    dsimp only at h
    split at h
    case isTrue  => exact hnothing h
    case isFalse =>
      split at h
      case isTrue  => exact hnothing h
      case isFalse =>
        split at h
        case isFalse => exact hnothing h
        case isTrue  =>
          rcases packets with _ | ⟨readlink, packets⟩
          · exact hnothing h
          · dsimp only at h
            split at h
            case h_1            => exact hnothing h
            case h_2 cfst hcfst =>
              cases h
              obtain ⟨hs, hf, ho⟩ := statOfFields_names hcfst
              exact .entry hs hf ho

-- A call finds the file in the cache, or learns something about it.
theorem StatCall.run_cases (h : call.run crypto conn = some (buf, conn')) :
    (∃ sp, clientCacheLookup conn conn.this_server call.file = some sp ∧ ¬cfBufSize - 30 < call.file.length ∧ conn' = conn ∧
        buf = if sp.failed then none else some <| sp.statBuf call.stattype) ∨
      (clientCacheLookup conn conn.this_server call.file = none ∨ cfBufSize - 30 < call.file.length) ∧
        Learns conn call.file call.stattype buf conn' := by
  unfold StatCall.run cfRemoteStat at h
  split at h
  case isTrue hlong   =>
    cases h
    exact .inr ⟨.inr hlong, .nothing⟩
  case isFalse hshort =>
    cases hlookup : clientCacheLookup conn conn.this_server call.file
    case some sp =>
      rw [cacheStat, hlookup, Option.map_some] at h
      cases h
      exact .inl ⟨sp, rfl, hshort, rfl, rfl⟩
    case none    =>
      rw [cacheStat, hlookup, Option.map_none] at h
      refine .inr ⟨.inl rfl, ?_⟩
      dsimp only at h
      split at h
      case isTrue  =>
        cases h
        exact .nothing
      case isFalse =>
        obtain ⟨request, -, hsent⟩ := Option.map_eq_some_iff.mp h
        split at hsent
        case h_1 =>
          cases hsent
          exact .nothing
        case h_2 => exact learns_statReceived hsent

theorem StatCall.this_server_run (h : call.run crypto conn = some (buf, conn')) : conn'.this_server = conn.this_server := by
  rcases run_cases h with ⟨sp, -, -, rfl, -⟩ | ⟨-, hlearns⟩
  · rfl
  · cases hlearns <;> rfl

theorem clientCacheLookup_newClientCache : clientCacheLookup (newClientCache sp conn) server file =
    if server = sp.server ∧ file = sp.filename then some sp else clientCacheLookup conn server file := by
  rw [clientCacheLookup, newClientCache, List.find?_cons]
  by_cases h : server = sp.server ∧ file = sp.filename
  case pos => simp [h]
  case neg =>
    rw [decide_eq_false h, if_neg h]
    rfl

-- What is known stays known.
theorem StatCall.lookup_run (h : call.run crypto conn = some (buf, conn'))
    (hsp : clientCacheLookup conn conn.this_server file = some sp) (hfile : file.length ≤ cfBufSize - 30) :
    clientCacheLookup conn' conn.this_server file = some sp := by
  rcases run_cases h with ⟨_, -, -, rfl, -⟩ | ⟨hnone, hlearns⟩
  · exact hsp
  · cases hlearns
    case nothing          => exact hsp
    case entry hs hf ho =>
      have hother : file ≠ call.file := by
        rintro rfl
        rcases hnone with hnone | hlong
        · rw [hnone] at hsp
          cases hsp
        · exact Nat.not_lt.mpr hfile hlong
      rw [clientCacheLookup_newClientCache, if_neg fun h => hother <| h.right.trans hf]
      exact hsp

-- What is said about a file comes from the cache that is left.
theorem StatCall.lookup_of_run {statbuf : StatBuf} (h : call.run crypto conn = some (some statbuf, conn')) :
    ∃ sp, clientCacheLookup conn' conn.this_server call.file = some sp ∧ sp.failed = false ∧
      statbuf = sp.statBuf call.stattype := by
  rcases run_cases h with ⟨sp, hsp, -, rfl, hbuf⟩ | ⟨-, hlearns⟩
  · split at hbuf
    case isTrue     => cases hbuf
    case isFalse ho => exact ⟨sp, hsp, Bool.eq_false_iff.mpr ho, Option.some.inj hbuf⟩
  · cases hlearns
    case entry cfst hs hf ho =>
      refine ⟨cfst, ?_, ho, rfl⟩
      rw [clientCacheLookup_newClientCache, if_pos ⟨hs.symm, hf.symm⟩]

theorem StatCall.length_of_run {statbuf : StatBuf} (h : call.run crypto conn = some (some statbuf, conn')) :
    call.file.length ≤ cfBufSize - 30 := by
  apply Nat.not_lt.mp
  intro hlong
  rw [run, cfRemoteStat, if_pos hlong] at h
  cases h

theorem StatCall.run_of_lookup (hsp : clientCacheLookup conn conn.this_server call.file = some sp) (ho : sp.failed = false)
    (hfile : call.file.length ≤ cfBufSize - 30) : call.run crypto conn = some (some <| sp.statBuf call.stattype, conn) := by
  simp [run, cfRemoteStat, Nat.not_lt.mpr hfile, cacheStat, hsp, ho]

-- All of the calls after the file is known give the same data.
theorem statRun_of_lookup (h : statRun crypto conn calls = some bufs)
    (hsp : clientCacheLookup conn conn.this_server file = some sp) (ho : sp.failed = false)
    (hfile : file.length ≤ cfBufSize - 30) {j : Nat} (hj : calls[j]? = some call) (hcall : call.file = file) :
    bufs[j]? = some (some <| sp.statBuf call.stattype) := by
  induction calls generalizing conn bufs j
  case nil                  => cases hj
  case cons first calls ih =>
    obtain ⟨⟨buf, conn'⟩, hrun, h⟩ := Option.bind_eq_some_iff.mp h
    obtain ⟨rest, hrest, h⟩ := Option.bind_eq_some_iff.mp h
    cases Option.some.inj h
    cases j
    case zero   =>
      cases Option.some.inj hj
      subst hcall
      rw [StatCall.run_of_lookup hsp ho hfile] at hrun
      cases hrun
      rfl
    case succ j =>
      have hsp' := StatCall.lookup_run hrun hsp hfile
      rw [←StatCall.this_server_run hrun] at hsp'
      exact ih hrest hsp' hj

-- Once a call has succeeded, all of the later ones for the same file tell the same about it, whatever the peer sends.
theorem statRun_agree (h : statRun crypto conn calls = some bufs) {i j : Nat} {call' : StatCall} {statbuf : StatBuf}
    (hij : i < j) (hi : calls[i]? = some call) (hj : calls[j]? = some call') (hfile : call'.file = call.file)
    (hbuf : bufs[i]? = some (some statbuf)) :
    ∃ sp : ClientStat, statbuf = sp.statBuf call.stattype ∧ bufs[j]? = some (some <| sp.statBuf call'.stattype) := by
  induction calls generalizing conn bufs i j
  case nil                  => cases hi
  case cons first calls ih =>
    obtain ⟨⟨buf, conn'⟩, hrun, h⟩ := Option.bind_eq_some_iff.mp h
    obtain ⟨rest, hrest, h⟩ := Option.bind_eq_some_iff.mp h
    cases Option.some.inj h
    obtain ⟨j, rfl⟩ := Nat.exists_eq_succ_of_ne_zero <| Nat.ne_of_gt <| Nat.lt_of_le_of_lt (Nat.zero_le i) hij
    cases i
    case zero   =>
      cases Option.some.inj hi
      have hbuf : buf = some statbuf := Option.some.inj hbuf
      subst hbuf
      obtain ⟨sp, hsp, ho, hstat⟩ := StatCall.lookup_of_run hrun
      rw [←StatCall.this_server_run hrun] at hsp
      exact ⟨sp, hstat, statRun_of_lookup hrest hsp ho (StatCall.length_of_run hrun) hj hfile⟩
    case succ i => exact ih hrest (Nat.lt_of_succ_lt_succ hij) hi hj hbuf

end

-- Where a link leads to: the local one if the first server is `localhost`, else what the connection keeps about it.
def cfReadlink (readlink : Option CString) (conn : AgentConnection) (sourcefile : CString) (buffsize : Nat) :
    List CString → Option CString
  | []          => readlink.map (·.take <| buffsize - 1)
  | server :: _ =>
    if server = "localhost".toList then
      readlink.map (·.take <| buffsize - 1)
    else
      (clientCacheLookup conn server sourcefile).bind fun sp =>
        sp.readlink.bind fun linkbuf => if buffsize < linkbuf.length + 1 then none else some linkbuf

-- The connection after a call, if the call has come to its end.
def StatCall.outcome (crypto : Crypto) (conn : Option AgentConnection) (call : StatCall) : Option AgentConnection :=
  conn.bind fun conn => (call.run crypto conn).map Prod.snd

-- What a connection keeps is about its own server. This is what it keeps about the file.
structure AgentConnection.Keeps (server file : CString) (sp : ClientStat) (conn : AgentConnection) : Prop where
  this_server : conn.this_server = server
  own         : ∀ cfst ∈ conn.cache, cfst.server = server
  kept        : clientCacheLookup conn server file = some sp

namespace AgentConnection.Keeps

variable {crypto : Crypto} {conn conn' : AgentConnection} {server file : CString} {servers : List CString} {sp : ClientStat}
  {call : StatCall} {calls : List StatCall} {buf : Option StatBuf} {readlink : Option CString} {buffsize : Nat}

theorem run (h : conn.Keeps server file sp) (hfile : file.length ≤ cfBufSize - 30)
    (hrun : call.run crypto conn = some (buf, conn')) : conn'.Keeps server file sp where
  this_server := (StatCall.this_server_run hrun).trans h.this_server
  own         := by
    rcases StatCall.run_cases hrun with ⟨_, -, -, rfl, -⟩ | ⟨-, hlearns⟩
    · exact h.own
    · cases hlearns
      case nothing        => exact h.own
      case entry hs hf ho => exact List.forall_mem_cons.mpr ⟨hs.trans h.this_server, h.own⟩
  kept        := by
    have hkept := h.kept
    rw [←h.this_server] at hkept ⊢
    exact StatCall.lookup_run hrun hkept hfile

theorem always (h : conn.Keeps server file sp) (hfile : file.length ≤ cfBufSize - 30) :
    Run.Always (fun conn => ∀ c ∈ conn, AgentConnection.Keeps server file sp c) (StatCall.outcome crypto) (some conn)
      calls := by
  apply (Run.everyStep_of_forall (G := fun _ _ => True) fun _ _ => trivial).always
  · rintro c hc
    cases hc
    exact h
  · rintro state call hstate - c' hc'
    obtain ⟨c, hc, hstep⟩ := Option.bind_eq_some_iff.mp hc'
    obtain ⟨r, hrun, rfl⟩ := Option.map_eq_some_iff.mp hstep
    exact (hstate c hc).run hfile hrun

-- The link is looked for under the name of the first server, which need not be that of the connection.
theorem link_eq (h : conn.Keeps server file sp) {first : CString} (hfirst : first ≠ "localhost".toList)
    (hfits : ∀ linkbuf ∈ sp.readlink, linkbuf.length < buffsize) :
    cfReadlink readlink conn file buffsize (first :: servers) = if first = server then sp.readlink else none := by
  rw [cfReadlink, if_neg hfirst]
  by_cases hs : first = server
  case pos =>
    subst hs
    rw [h.kept, if_pos rfl, Option.bind_some]
    cases hlink : sp.readlink
    case none         => rfl
    case some linkbuf => exact if_neg <| Nat.not_lt.mpr <| hfits linkbuf hlink
  case neg =>
    have hnone : clientCacheLookup conn first file = none := by
      apply List.find?_eq_none.mpr
      intro cfst hmem hfound
      exact hs <| (of_decide_eq_true hfound).left.trans <| h.own cfst hmem
    rw [hnone, if_neg hs]
    rfl

end AgentConnection.Keeps

-- A connection without a key, and a call on it that meets the given peer, for examples.
def plainAgent : AgentConnection where
  this_server := ['s']
  session_key := none
  cache       := []

def plainCall (packets : Option (List Buffer)) : StatCall where
  file     := ['a']
  stattype := []
  encrypt  := false
  tloc     := 1
  left     := []
  transact := fun _ => packets

theorem statRun_agree_lost :
    ∃ sp : ClientStat, ⟨0o100644, 0, 0, 1, 0, 0, 0, 2, 0, 1⟩ = sp.statBuf [] ∧
      [some ⟨0o100644, 0, 0, 1, 0, 0, 0, 2, 0, 1⟩, some ⟨0o100644, 0, 0, 1, 0, 0, 0, 2, 0, 1⟩][1]? =
        some (some <| sp.statBuf []) :=
  @statRun_agree .padding plainAgent (plainCall <| some ["OK: 0 420 0 0 0 1 0 0 0 0 2 1 0".toList, "OK:".toList])
    [plainCall <| some ["OK: 0 420 0 0 0 1 0 0 0 0 2 1 0".toList, "OK:".toList], plainCall none] _ (by decide +kernel) 0 1
    (plainCall none) _ Nat.one_pos rfl rfl rfl rfl

end CfEngine
