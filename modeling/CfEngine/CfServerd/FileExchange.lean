import CfEngine.CfServerd.Authentication.Agreement

namespace CfEngine

-- What the server has to say about a file: its data, the permissions of the link if it is one, and where it leads to.
inductive Describes (fs : FileSystem) (filename : CString) : Stat → UInt32 → CString → Prop
  | file {statbuf found : Stat} (hl : fs.lstat filename = some found) (ht : found.type ≠ .link)
      (hs : fs.stat filename = some statbuf) :
    Describes fs filename statbuf 0 []
  | link {found target : Stat} {linkbuf : CString} (hl : fs.lstat filename = some found) (ht : found.type = .link)
      (hr : fs.readlink filename = some linkbuf) (hs : fs.stat filename = some target) :
    Describes fs filename (derefLink found target) found.mode linkbuf
  | dangling {found : Stat} {linkbuf : CString} (hl : fs.lstat filename = some found) (ht : found.type = .link)
      (hr : fs.readlink filename = some linkbuf) (hs : fs.stat filename = none) :
    Describes fs filename found found.mode linkbuf

-- The client may look at the file, with a clock that is close enough.
structure ServesStat (host : ServerHost) (now : Surroundings) (s : ServerState) (tloc : Int64) (file : CString) : Prop where
  running  : now.terminating = false
  verified : s.conn.id_verified = true
  granted  : (host.matchers.accessControl now.fs s.sv s.conn file true).1 = true
  clocks   : ∃ time, now.time = some time ∧ host.clocksApart (truncated (time.toInt - tloc.toInt)) = false

-- What the client is to know about the file.
def describedStat (server file : CString) (statbuf : Stat) (lmode : UInt32) (linkbuf : CString) : ClientStat where
  filename := file
  server   := server
  type     := statbuf.type.number
  lmode    := if lmode ≠ 0 then lmode ||| sIflnk else lmode
  mode     := statbuf.mode ||| typeBits statbuf.type.number
  uid      := statbuf.uid
  gid      := statbuf.gid
  size     := statbuf.size.toInt64
  atime    := statbuf.atime
  mtime    := statbuf.mtime
  ctime    := statbuf.ctime
  readlink := if linkbuf = [] then none else some linkbuf
  failed   := false
  nlink    := truncated statbuf.nlink.toInt
  ino      := truncated statbuf.ino.toInt
  dev      := .ofInt statbuf.dev.toInt

-- The numbers that the client has enough room for.
structure FitsStat (statbuf : Stat) : Prop where
  size  : FitsWidth 18 statbuf.size.toInt64.toInt
  atime : FitsWidth 14 statbuf.atime.toInt
  mtime : FitsWidth 14 statbuf.mtime.toInt
  ctime : FitsWidth 14 statbuf.ctime.toInt
  dev   : FitsWidth 18 statbuf.dev.toInt

section
variable {statbuf : Stat} {lmode : UInt32} {linkbuf server file : CString} {ns ms : List Int} {n : Int}

theorem statReply_eq : statReply statbuf lmode = "OK:".toList ++ fieldsText (statFields statbuf lmode) := by
  apply List.take_of_length_le
  have h : _ ≤ 21 * (statFields statbuf lmode).length := length_flatMap_toString statFields_bounds
  have hl : (statFields statbuf lmode).length = 13 := rfl
  have ht : ("OK:".toList).length = 3 := rfl
  rw [List.length_append, ht, cfBufSize]
  omega

theorem mem_fieldsText {c : Char} (h : c ∈ fieldsText ns) : c = ' ' ∨ c = '-' ∨ c.isDigit := by
  obtain ⟨n, -, hc⟩ := List.mem_flatMap.mp h
  rw [toList_toString, List.mem_cons] at hc
  rcases hc with hc | hc
  · exact .inl hc
  · split at hc
    case isTrue  => exact .inr <| (List.mem_cons.mp hc).imp_right isDigit_of_mem_toDigits
    case isFalse => exact .inr <| .inr <| isDigit_of_mem_toDigits hc

theorem not_mem_statReply {c : Char} (h : c ∉ "OK: -".toList) (hd : c.isDigit = false) : c ∉ statReply statbuf lmode := by
  rw [statReply_eq, List.mem_append]
  rintro (hc | hc)
  · exact h <| List.mem_append_left [' ', '-'] hc
  · rcases mem_fieldsText hc with rfl | rfl | hc
    · exact h <| by decide
    · exact h <| by decide
    · exact absurd hc <| Bool.eq_false_iff.mp hd

theorem fitsWidth_of_mem_zip {widths : List Nat} {s : CString} {width : Nat}
    (h : (width, n) ∈ widths.zip (scanWidths widths s)) : FitsWidth width n := by
  induction widths generalizing s
  case nil                  => cases h
  case cons width' widths ih =>
    rw [scanWidths] at h
    cases hscan : scanWidth width' s
    case none   =>
      rw [hscan] at h
      cases h
    case some r =>
      rw [hscan, List.zip_cons_cons, List.mem_cons] at h
      rcases h with h | h
      · obtain ⟨rfl, rfl⟩ := Prod.mk.inj h
        exact fitsWidth_of_scanWidth hscan
      · exact ih h

theorem fitsWidth_natCast {width k : Nat} : FitsWidth width (k : Int) ↔ k < 10 ^ width := by
  rw [FitsWidth, if_neg <| Int.not_lt.mpr <| Int.natCast_nonneg k, Int.natAbs_natCast]

theorem fitsWidth_truncated : FitsWidth 14 (truncated n) := by
  rw [FitsWidth, truncated]
  split <;> omega

theorem fits_statFields (hmode : statbuf.mode.toNat < 2 ^ 12) :
    List.Forall₂ FitsWidth statWidths (statFields statbuf lmode) ↔ FitsStat statbuf := by
  have hword (k : UInt32) : FitsWidth 14 (k.toNat : Int) := fitsWidth_natCast.mpr <| k.toNat_lt.trans <| by decide
  have htype : FitsWidth 1 (statbuf.type.number : Int) := by
    cases statbuf.type <;> exact fitsWidth_natCast.mpr <| by decide
  have hperm : FitsWidth 5 (statbuf.mode.toNat : Int) := fitsWidth_natCast.mpr <| hmode.trans <| by decide
  simp only [statWidths, statFields, List.forall₂_cons, htype, hperm, hword, fitsWidth_truncated, true_and]
  constructor
  case mp  =>
    rintro ⟨hsize, hatime, hmtime, hctime, -, hdev, -⟩
    exact ⟨hsize, hatime, hmtime, hctime, hdev⟩
  case mpr =>
    intro h
    refine ⟨h.size, h.atime, h.mtime, h.ctime, ?_, h.dev, .nil⟩
    split
    case isTrue  => exact fitsWidth_natCast.mpr <| by decide
    case isFalse => exact fitsWidth_natCast.mpr <| by decide

theorem length_statFields : statWidths.length = (statFields statbuf lmode).length :=
  rfl

theorem pos_of_mem_statWidths : ∀ width ∈ statWidths, 0 < width := by
  decide

-- A number that has been read is not changed by the type that it is kept in.
theorem Int64.toInt_ofInt_of_fits {width : Nat} (hw : width ≤ 18) (h : FitsWidth width n) : (Int64.ofInt n).toInt = n := by
  have hpow : 10 ^ (if n < 0 then width - 1 else width) ≤ 10 ^ 18 := Nat.pow_le_pow_right (by decide) <| by split <;> omega
  rw [FitsWidth] at h
  rw [Int64.toInt_ofInt_of_le] <;> omega

theorem UInt32.ofInt_toNat {k : UInt32} : UInt32.ofInt (k.toNat : Int) = k := by
  have hlt := k.toNat_lt
  rw [UInt32.ofInt, Int.emod_eq_of_lt (by omega) (by omega), Int.toNat_natCast, UInt32.ofNat_toNat]

theorem UInt64.ofInt_inj_of_fits {width : Nat} {m : Int64} (hw : width ≤ 18) (h : FitsWidth width n)
    (he : UInt64.ofInt n = UInt64.ofInt m.toInt) : n = m.toInt := by
  have hlow := m.le_toInt
  have hhigh := m.toInt_lt
  have hpow : 10 ^ (if n < 0 then width - 1 else width) ≤ 10 ^ 18 := Nat.pow_le_pow_right (by decide) <| by split <;> omega
  have he := congrArg UInt64.toNat he
  rw [FitsWidth] at h
  simp only [UInt64.ofInt, UInt64.toNat_ofNat'] at he
  omega

theorem truncated_truncated : truncated (truncated n) = truncated n := by
  simp only [truncated]
  omega

theorem statOfFields_statFields : statOfFields server file ("OK:".toList ++ linkbuf) (statFields statbuf lmode) =
    some (describedStat server file statbuf lmode linkbuf) := by
  have hlink : (if 3 < ("OK:".toList ++ linkbuf).length then some <| ("OK:".toList ++ linkbuf).drop 3 else none) =
      if linkbuf = [] then none else some linkbuf := by
    cases linkbuf
    case nil       => rfl
    case cons c cs => exact (if_pos <| by simp).trans (if_neg <| List.cons_ne_nil c cs).symm
  simp only [statOfFields, statFields, describedStat, hlink, UInt32.ofInt_toNat, Int64.ofInt_toInt, truncated_truncated]

-- The numbers that have been read are those of the file where the data are.
theorem fitsStat_of_statOfFields {readlink stattype : CString} {cfst : ClientStat} (hmode : statbuf.mode.toNat < 2 ^ 12)
    (h : statOfFields server file readlink (scanWidths statWidths <| fieldsText <| statFields statbuf lmode) = some cfst)
    (he : cfst.statBuf stattype = (describedStat server file statbuf lmode linkbuf).statBuf stattype) : FitsStat statbuf := by
  have hmem {width : Nat} {m : Int} := @fitsWidth_of_mem_zip m statWidths (fieldsText <| statFields statbuf lmode) width
  have hword (k : UInt32) : FitsWidth 14 (k.toNat : Int) := fitsWidth_natCast.mpr <| k.toNat_lt.trans <| by decide
  have htype : FitsWidth 1 (statbuf.type.number : Int) := by
    cases statbuf.type <;> exact fitsWidth_natCast.mpr <| by decide
  have hperm : FitsWidth 5 (statbuf.mode.toNat : Int) := fitsWidth_natCast.mpr <| hmode.trans <| by decide
  have hholes {p : Prop} [Decidable p] : FitsWidth 1 (if p then 1 else 0) := by
    split
    case isTrue  => exact fitsWidth_natCast.mpr <| by decide
    case isFalse => exact fitsWidth_natCast.mpr <| by decide
  apply (fits_statFields hmode).mp
  apply fits_of_scanWidths pos_of_mem_statWidths (@length_statFields statbuf lmode)
  generalize scanWidths statWidths (fieldsText <| statFields statbuf lmode) = ms at h hmem ⊢
  unfold statOfFields at h
  split at h
  case h_2 => cases h
  case h_1 d1 d2 d3 d4 d5 d6 d7 d8 d9 d10 d11 d12 d13 =>
    cases Option.some.inj h
    have hsize : Int64.ofInt d6 = statbuf.size.toInt64 := congrArg StatBuf.size he
    have hatime : Int64.ofInt d7 = statbuf.atime := congrArg StatBuf.atime he
    have hmtime : Int64.ofInt d8 = statbuf.mtime := congrArg StatBuf.mtime he
    have hctime : Int64.ofInt d9 = statbuf.ctime := congrArg StatBuf.ctime he
    have hdev : UInt64.ofInt d13 = UInt64.ofInt statbuf.dev.toInt := congrArg StatBuf.dev he
    have h6 : FitsWidth 18 d6 := hmem <| by simp [statWidths]
    have h7 : FitsWidth 14 d7 := hmem <| by simp [statWidths]
    have h8 : FitsWidth 14 d8 := hmem <| by simp [statWidths]
    have h9 : FitsWidth 14 d9 := hmem <| by simp [statWidths]
    have h13 : FitsWidth 18 d13 := hmem <| by simp [statWidths]
    simp only [statWidths, statFields, List.zip_cons_cons, List.forall₂_cons, htype, hperm, hword, hholes,
      fitsWidth_truncated, not_true_eq_false, false_implies, true_and]
    rw [←hsize, ←hatime, ←hmtime, ←hctime]
    simp only [Int64.toInt_ofInt_of_fits (Nat.le_refl 18) h6, Int64.toInt_ofInt_of_fits (by decide) h7,
      Int64.toInt_ofInt_of_fits (by decide) h8, Int64.toInt_ofInt_of_fits (by decide) h9, implies_true, true_and]
    exact ⟨fun _ => UInt64.ofInt_inj_of_fits (Nat.le_refl 18) h13 hdev, .nil⟩

end

namespace Surroundings

variable {host : ServerHost} {now : Surroundings} {s : ServerState} {t : List Event} {statbuf : Stat} {lmode : UInt32}
  {linkbuf file : CString} {recvbuffer : Buffer} {tloc : Int64}

-- Where a link leads to fits into a reply.
structure FitsLink (linkbuf : CString) : Prop where
  no_terminator : '\x00' ∉ linkbuf
  length_le     : linkbuf.length ≤ cfBufSize - cfInbandOffset - 3

theorem sendStat_spec (hlink : FitsLink linkbuf) :
    (sendStat statbuf lmode linkbuf).Finishes s t fun _ _ t' =>
      sentPackets t' = sentPackets t ++ [statReply statbuf lmode, "OK:".toList ++ linkbuf] := by
  have hreply : '\x00' ∉ statReply statbuf lmode := not_mem_statReply (by decide) rfl
  have hfits : (statReply statbuf lmode).length ≤ cfBufSize - cfInbandOffset := by
    have hf : FitsText (statReply statbuf lmode) := fits_statReply
    rwa [FitsText, Stream.toCString_eq_self hreply] at hf
  have hok : '\x00' ∉ "OK:".toList ++ linkbuf := by
    rw [List.mem_append]
    exact fun h => h.elim (by decide) hlink.no_terminator
  have hlen : ("OK:".toList ++ linkbuf).length ≤ cfBufSize - cfInbandOffset := by
    have hl := hlink.length_le
    have ht : ("OK:".toList).length = 3 := rfl
    rw [List.length_append, ht]
    simp only [cfBufSize, cfInbandOffset] at hl ⊢
    omega
  refine (Serving.sendText_spec hreply hfits).bind fun _ s t h => ?_
  refine (Serving.sendText_spec hok hlen).bind fun _ s t h' => Traced.finishes_pure ?_
  rw [h'.right, h.right, List.append_assoc]
  rfl

theorem statFile_spec (hname : (readLastNode <| translatePath file).length ≤ cfMaxLinkSize)
    (hd : Describes now.fs (translatePath file) statbuf lmode linkbuf) (hlink : FitsLink linkbuf) :
    (now.statFile file).Finishes s t fun _ _ t' =>
      sentPackets t' = sentPackets t ++ [statReply statbuf lmode, "OK:".toList ++ linkbuf] := by
  have hopened : sentPackets (.opened .attributes (translatePath file) :: t) = sentPackets t := sentPackets_silent rfl
  rw [statFile, if_neg <| Nat.not_lt.mpr hname]
  apply Traced.finishes_emit_bind
  rw [←hopened]
  cases hd
  case file found hl ht hs     =>
    simp only [hl, ht, if_false, hs]
    exact sendStat_spec hlink
  case link found target hl ht hr hs =>
    simp only [hl, ht, if_true, hr, hs]
    exact sendStat_spec hlink
  case dangling hl ht hr hs    =>
    simp only [hl, ht, if_true, hr, hs]
    exact sendStat_spec hlink

theorem serveSync_spec (hserves : ServesStat host now s tloc file) (hfile : IsRequestName file) (htloc : tloc ≠ 0)
    (htext : Buffer.toCString recvbuffer = syncText tloc file)
    (hname : (readLastNode <| translatePath file).length ≤ cfMaxLinkSize)
    (hd : Describes now.fs (translatePath file) statbuf lmode linkbuf) (hlink : FitsLink linkbuf) :
    (host.serveSync now recvbuffer).Ensures s t fun _ _ t' =>
      sentPackets t' = sentPackets t ++ [statReply statbuf lmode, "OK:".toList ++ linkbuf] := by
  obtain ⟨time, htime, hclocks⟩ := hserves.clocks
  have hscan : ServerHost.scanSync (Buffer.toCString recvbuffer) = (tloc.toInt, file) := by
    rw [htext, scanSync_syncText hfile]
  have hzero : tloc.toInt ≠ 0 := fun h => htloc <| Int64.toInt_inj.mp <| h.trans Int64.toInt_zero.symm
  unfold ServerHost.serveSync
  apply (ServerHost.ensures_verified hserves.verified).mpr
  rw [hscan]
  dsimp only
  rw [if_neg <| not_or.mpr ⟨hzero, hfile.ne_nil⟩, htime]
  apply Traced.ensures_bind.mpr
  rw [ServerHost.ensures_accessControl, Traced.then_some, hserves.granted, if_neg <| not_not_intro rfl,
    hclocks, if_neg Bool.false_ne_true]
  apply Traced.Finishes.ensures
  refine (statFile_spec hname hd hlink).bind fun _ _ _ h => Traced.finishes_pure ?_
  rw [h, sentPackets_silent rfl]

end Surroundings

section
variable {host : ServerHost} {now : Surroundings} {s : ServerState} {conn : AgentConnection} {statbuf : Stat}
  {lmode : UInt32} {linkbuf file stattype : CString} {encrypt : Bool} {tloc : Int64} {left request : Buffer}

theorem length_syncText (hfile : IsRequestName file) : (syncText tloc file).length ≤ 4048 := by
  have hlen := hfile.length_le
  have hdigits : (toString tloc.toInt).toList.length ≤ 20 :=
    length_toString_le tloc.le_toInt <| tloc.toInt_lt.trans (by decide)
  have hsync : ("SYNCH ".toList).length = 6 := rfl
  have hstat : (" STAT ".toList).length = 6 := rfl
  unfold syncText
  generalize (toString tloc.toInt).toList = digits at hdigits ⊢
  rw [List.length_append, List.length_append, List.length_append, hsync, hstat]
  rw [cfBufSize] at hlen
  omega

theorem no_terminator_syncText (hfile : IsRequestName file) : '\x00' ∉ syncText tloc file := by
  have hdigits : '\x00' ∉ (toString tloc.toInt).toList := by
    intro h
    have h := @mem_fieldsText [tloc.toInt] '\x00' <| List.mem_flatMap.mpr ⟨_, List.mem_cons_self, List.mem_cons_of_mem _ h⟩
    revert h
    decide
  unfold syncText
  generalize (toString tloc.toInt).toList = digits at hdigits ⊢
  simp only [List.mem_append, not_or]
  exact ⟨⟨⟨by decide, hdigits⟩, by decide⟩, hfile.no_terminator⟩

theorem getCommand_syncText : getCommand (syncText tloc file) = .sync := by
  unfold syncText
  generalize (toString tloc.toInt).toList = digits
  rfl

theorem getCommand_secureHeader {k : Nat} : getCommand (secureHeader "SSYNCH".toList k) = .syncSecure := by
  unfold secureHeader
  generalize Nat.toDigits 10 k = digits
  rfl

theorem isSecureKeyword_ssynch : IsSecureKeyword "SSYNCH".toList :=
  ⟨by decide, by decide⟩

theorem syncText_ne_nil : syncText tloc file ≠ [] := by
  intro h
  have hcommand := @getCommand_syncText file tloc
  rw [h] at hcommand
  cases hcommand

theorem replies_plain (hserves : ServesStat host now s tloc file) (hfile : IsRequestName file) (htloc : tloc ≠ 0)
    (hname : (readLastNode <| translatePath file).length ≤ cfMaxLinkSize)
    (hd : Describes now.fs (translatePath file) statbuf lmode linkbuf) (hlink : Surroundings.FitsLink linkbuf) :
    host.replies now s (printed <| syncText tloc file) = some [statReply statbuf lmode, "OK:".toList ++ linkbuf] := by
  have hlen := @length_syncText file tloc hfile
  have hprinted : printed (syncText tloc file) = syncText tloc file := List.take_of_length_le <| hlen.trans <| by decide
  have htext : Buffer.toCString (syncText tloc file) = syncText tloc file :=
    Stream.toCString_eq_self <| no_terminator_syncText hfile
  have hserves' : ServesStat host now { s with inbox := [] } tloc file :=
    ⟨hserves.running, hserves.verified, hserves.granted, hserves.clocks⟩
  have hsync := @Surroundings.serveSync_spec host now { s with inbox := [] } [.request] statbuf lmode linkbuf file
    (syncText tloc file) tloc hserves' hfile htloc htext hname hd hlink
  rw [hprinted]
  refine ServerHost.replies_eq (hlen.trans <| by decide) ?_ hserves.running (htext ▸ getCommand_syncText) ?_
  · rw [htext]
    exact syncText_ne_nil
  · exact hsync

theorem replies_secure (hserves : ServesStat host now s tloc file) (hfile : IsRequestName file) (htloc : tloc ≠ 0)
    (hname : (readLastNode <| translatePath file).length ≤ cfMaxLinkSize)
    (hd : Describes now.fs (translatePath file) statbuf lmode linkbuf) (hlink : Surroundings.FitsLink linkbuf)
    (hkey : s.conn.session_key ≠ none) {out : Buffer}
    (hout : host.crypto.encrypt s.conn.session_key (syncText tloc file ++ ['\x00']) = some out)
    (hin : host.crypto.decrypt s.conn.session_key out = syncText tloc file ++ ['\x00']) :
    host.replies now s (securePacket "SSYNCH".toList out left) =
      some [statReply statbuf lmode, "OK:".toList ++ linkbuf] := by
  have hlen := @length_syncText file tloc hfile
  have hout := host.crypto.encrypt_length _ _ _ hout
  rw [List.length_append, List.length_singleton] at hout
  have hsize : out.length < cfBufSize := by
    rw [cfBufSize]
    omega
  have hpacket := @toCString_securePacket "SSYNCH".toList out left isSecureKeyword_ssynch hsize
  have htext : Buffer.toCString (overwrite (syncText tloc file ++ ['\x00']) <| securePacket "SSYNCH".toList out left) =
      syncText tloc file := by
    rw [overwrite, List.append_assoc]
    exact toCString_append <| no_terminator_syncText hfile
  have hserves' : ServesStat host now { s with inbox := [] } tloc file :=
    ⟨hserves.running, hserves.verified, hserves.granted, hserves.clocks⟩
  have hsync := @Surroundings.serveSync_spec host now { s with inbox := [] } [.cipher s.conn.session_key, .request] statbuf
    lmode linkbuf file _ tloc hserves' hfile htloc htext hname hd hlink
  have hplain : "SYNCH".toList <+: syncText tloc file ++ ['\x00'] := by
    unfold syncText
    generalize (toString tloc.toInt).toList = digits
    exact ⟨' ' :: (digits ++ " STAT ".toList ++ file ++ ['\x00']), by simp⟩
  refine ServerHost.replies_eq ?_ ?_ hserves.running (hpacket ▸ getCommand_secureHeader) ?_
  · rw [length_securePacket, cfProtoOffset]
    simp only [cfBufSize, cfInbandOffset]
    omega
  · rw [hpacket, secureHeader]
    exact List.append_ne_nil_of_right_ne_nil _ <| List.cons_ne_nil _ _
  · exact (ServerHost.ensures_decrypted (s := { s with inbox := [] }) isSecureKeyword_ssynch hsize hkey hin hplain).mpr hsync

theorem statReceived_eq : statReceived conn file stattype [statReply statbuf lmode, "OK:".toList ++ linkbuf] =
    (statOfFields conn.this_server file (Buffer.toCString ("OK:".toList ++ linkbuf))
      (scanWidths statWidths <| fieldsText <| statFields statbuf lmode)).elim (none, conn)
        fun cfst => (some <| cfst.statBuf stattype, newClientCache cfst conn) := by
  have htext : Buffer.toCString (statReply statbuf lmode) = statReply statbuf lmode :=
    Stream.toCString_eq_self <| not_mem_statReply (by decide) rfl
  have hclocks : ¬"unsynchronized".toList <:+: statReply statbuf lmode := by
    intro h
    exact (@not_mem_statReply statbuf lmode 'u' (by decide) rfl) <| h.subset <| by decide
  have hbad : badProtoReply (statReply statbuf lmode) = false := by
    rw [statReply_eq]
    generalize fieldsText (statFields statbuf lmode) = fields
    rfl
  have hok : okProtoReply (statReply statbuf lmode) = true := by
    rw [statReply_eq]
    generalize fieldsText (statFields statbuf lmode) = fields
    rfl
  have hdrop : (statReply statbuf lmode).drop 3 = fieldsText (statFields statbuf lmode) := by
    rw [statReply_eq]
    generalize fieldsText (statFields statbuf lmode) = fields
    rfl
  unfold statReceived
  dsimp only
  rw [htext, if_neg hclocks, hbad, hok, hdrop]
  generalize scanWidths statWidths (fieldsText <| statFields statbuf lmode) = ms
  generalize "OK:".toList ++ linkbuf = readlink
  generalize statOfFields conn.this_server file (Buffer.toCString readlink) ms = cfst
  cases cfst
  case none   => rfl
  case some _ => rfl

theorem toCString_okLink (hlink : Surroundings.FitsLink linkbuf) :
    Buffer.toCString ("OK:".toList ++ linkbuf) = "OK:".toList ++ linkbuf := by
  apply Stream.toCString_eq_self
  rw [List.mem_append]
  exact fun h => h.elim (by decide) hlink.no_terminator

theorem statReceived_of_fits (hmode : statbuf.mode.toNat < 2 ^ 12) (hlink : Surroundings.FitsLink linkbuf)
    (hfits : FitsStat statbuf) : statReceived conn file stattype [statReply statbuf lmode, "OK:".toList ++ linkbuf] =
      (some <| (describedStat conn.this_server file statbuf lmode linkbuf).statBuf stattype,
        newClientCache (describedStat conn.this_server file statbuf lmode linkbuf) conn) := by
  rw [statReceived_eq, toCString_okLink hlink, scanWidths_of_fits pos_of_mem_statWidths <| (fits_statFields hmode).mpr hfits,
    statOfFields_statFields]
  rfl

-- The file is described as far as the client has room for the numbers.
theorem statReceived_iff (hmode : statbuf.mode.toNat < 2 ^ 12) (hlink : Surroundings.FitsLink linkbuf) :
    (∃ conn', statReceived conn file stattype [statReply statbuf lmode, "OK:".toList ++ linkbuf] =
      (some <| (describedStat conn.this_server file statbuf lmode linkbuf).statBuf stattype, conn')) ↔ FitsStat statbuf := by
  constructor
  case mp  =>
    rintro ⟨conn', h⟩
    rw [statReceived_eq, toCString_okLink hlink] at h
    cases hcfst : statOfFields conn.this_server file ("OK:".toList ++ linkbuf)
      (scanWidths statWidths <| fieldsText <| statFields statbuf lmode)
    case none      =>
      rw [hcfst] at h
      cases (Prod.mk.inj h).left
    case some cfst =>
      rw [hcfst] at h
      exact fitsStat_of_statOfFields hmode hcfst <| Option.some.inj (Prod.mk.inj h).left
  case mpr => exact fun h => ⟨_, statReceived_of_fits hmode hlink h⟩

theorem IsRequestName.length_le_buffer (hfile : IsRequestName file) : file.length ≤ cfBufSize - 30 := by
  have hlen := hfile.length_le
  rw [cfBufSize] at hlen ⊢
  omega

-- The call runs on what the server replies.
theorem cfRemoteStat_received (hserves : ServesStat host now s tloc file) (hfile : IsRequestName file) (htloc : tloc ≠ 0)
    (hname : (readLastNode <| translatePath file).length ≤ cfMaxLinkSize)
    (hd : Describes now.fs (translatePath file) statbuf lmode linkbuf) (hlink : Surroundings.FitsLink linkbuf)
    (hcache : cacheStat conn file stattype = none)
    (hkey : encrypt = true → conn.session_key = s.conn.session_key ∧ s.conn.session_key ≠ none ∧
      host.crypto.Inverts s.conn.session_key) :
    cfRemoteStat host.crypto conn file stattype encrypt tloc left (host.replies now s) =
      some (statReceived conn file stattype [statReply statbuf lmode, "OK:".toList ++ linkbuf]) := by
  simp only [cfRemoteStat, Nat.not_lt.mpr hfile.length_le_buffer, if_false, hcache]
  cases encrypt
  case false =>
    have hreplies := replies_plain hserves hfile htloc hname hd hlink
    simp only [statRequest, Bool.false_eq_true, false_and, if_false, hreplies, Option.map_some]
  case true  =>
    obtain ⟨hsame, hne, hinverts⟩ := hkey rfl
    have htake : (syncText tloc file).take (cfBufSize - 2) = syncText tloc file :=
      List.take_of_length_le <| (length_syncText hfile).trans <| by decide
    obtain ⟨out, hout, hin⟩ := hinverts (syncText tloc file ++ ['\x00'])
    have hreplies := @replies_secure host now s statbuf lmode linkbuf file tloc left hserves hfile htloc hname hd hlink hne
      out hout hin
    simp only [statRequest, hsame, hne, and_false, if_false, if_true, htake, hout, hreplies, Option.map_some]

-- What the agent learns about a file is what the server finds, exactly if the numbers fit.
theorem cfRemoteStat_iff (hserves : ServesStat host now s tloc file) (hfile : IsRequestName file) (htloc : tloc ≠ 0)
    (hname : (readLastNode <| translatePath file).length ≤ cfMaxLinkSize)
    (hd : Describes now.fs (translatePath file) statbuf lmode linkbuf) (hlink : Surroundings.FitsLink linkbuf)
    (hmode : statbuf.mode.toNat < 2 ^ 12) (hcache : cacheStat conn file stattype = none)
    (hkey : encrypt = true → conn.session_key = s.conn.session_key ∧ s.conn.session_key ≠ none ∧
      host.crypto.Inverts s.conn.session_key) :
    (∃ conn', cfRemoteStat host.crypto conn file stattype encrypt tloc left (host.replies now s) =
      some (some <| (describedStat conn.this_server file statbuf lmode linkbuf).statBuf stattype, conn')) ↔
    FitsStat statbuf := by
  have hreceived := @statReceived_iff conn statbuf lmode linkbuf file stattype hmode hlink
  rw [cfRemoteStat_received hserves hfile htloc hname hd hlink hcache hkey, ←hreceived]
  simp only [Option.some.injEq]

-- After a dialogue that the agent takes for a success, its encrypted requests are answered in this way, in every state in
-- which the server has kept the key of the dialogue.
theorem cfRemoteStat_authenticated {agent : Agent} {ka ks : RsaKey} {began : Surroundings} {s₀ : ServerState}
    {toServer : List Packet} {toAgent : List Buffer} (h : Acquainted agent host began ka ks)
    (htr : Transcript agent host began s₀ toServer toAgent)
    (hok : (agent.authenticateAgent host.crypto toAgent []).1 = some true)
    (hsession : s.conn.session_key = (host.dialogue began s₀ toServer).2.1.conn.session_key)
    (hconn : conn.session_key = some agent.session_key) (hinverts : host.crypto.Inverts (some agent.session_key))
    (hserves : ServesStat host now s tloc file) (hfile : IsRequestName file) (htloc : tloc ≠ 0)
    (hname : (readLastNode <| translatePath file).length ≤ cfMaxLinkSize)
    (hd : Describes now.fs (translatePath file) statbuf lmode linkbuf) (hlink : Surroundings.FitsLink linkbuf)
    (hmode : statbuf.mode.toNat < 2 ^ 12) (hcache : cacheStat conn file stattype = none) :
    (∃ conn', cfRemoteStat host.crypto conn file stattype true tloc left (host.replies now s) =
      some (some <| (describedStat conn.this_server file statbuf lmode linkbuf).statBuf stattype, conn')) ↔
    FitsStat statbuf := by
  obtain ⟨hkey, -⟩ := (h.transcript_server htr).right <| (h.transcript_agent htr).mp hok
  have hagreed := hsession.trans hkey
  have hreceived := @statReceived_iff conn statbuf lmode linkbuf file stattype hmode hlink
  rw [cfRemoteStat_received hserves hfile htloc hname hd hlink hcache fun _ => ⟨hconn.trans hagreed.symm, ?_, ?_⟩, ←hreceived]
  · simp only [Option.some.injEq]
  · rw [hagreed]
    exact Option.some_ne_none _
  · rwa [hagreed]

-- The link that has been learned is found again after any calls, exactly if the connection is one to the first server.
theorem cfReadlink_eq (hserves : ServesStat host now s tloc file) (hfile : IsRequestName file) (htloc : tloc ≠ 0)
    (hname : (readLastNode <| translatePath file).length ≤ cfMaxLinkSize)
    (hd : Describes now.fs (translatePath file) statbuf lmode linkbuf) (hlink : Surroundings.FitsLink linkbuf)
    (hmode : statbuf.mode.toNat < 2 ^ 12) (hfits : FitsStat statbuf) (hcache : cacheStat conn file stattype = none)
    (hkey : encrypt = true → conn.session_key = s.conn.session_key ∧ s.conn.session_key ≠ none ∧
      host.crypto.Inverts s.conn.session_key)
    (hown : ∀ cfst ∈ conn.cache, cfst.server = conn.this_server) {first : CString} (hfirst : first ≠ "localhost".toList)
    {servers : List CString} {readlink : Option CString} {calls : List StatCall} :
    ∃ conn', cfRemoteStat host.crypto conn file stattype encrypt tloc left (host.replies now s) =
        some (some <| (describedStat conn.this_server file statbuf lmode linkbuf).statBuf stattype, conn') ∧
      Run.Always (fun conn'' => ∀ c ∈ conn'', cfReadlink readlink c file cfBufSize (first :: servers) =
        if first = conn.this_server ∧ linkbuf ≠ [] then some linkbuf else none)
        (StatCall.outcome host.crypto) (some conn') calls := by
  rw [cfRemoteStat_received hserves hfile htloc hname hd hlink hcache hkey, statReceived_of_fits hmode hlink hfits]
  refine ⟨_, rfl, ?_⟩
  have hkeeps : (newClientCache (describedStat conn.this_server file statbuf lmode linkbuf) conn).Keeps conn.this_server file
      (describedStat conn.this_server file statbuf lmode linkbuf) :=
    ⟨rfl, List.forall_mem_cons.mpr ⟨rfl, hown⟩, by rw [clientCacheLookup_newClientCache, if_pos ⟨rfl, rfl⟩]⟩
  refine (hkeeps.always hfile.length_le_buffer).imp fun state hstate c hc => ?_
  rw [(hstate c hc).link_eq hfirst]
  · by_cases hempty : linkbuf = []
    case pos => simp [describedStat, hempty]
    case neg => simp [describedStat, hempty]
  · intro link hl
    have hlen := hlink.length_le
    have hlink' : link = linkbuf := by
      by_cases hempty : linkbuf = []
      case pos => simp [describedStat, hempty] at hl
      case neg => simpa [describedStat, hempty, eq_comm] using hl
    rw [hlink']
    simp only [cfBufSize, cfInbandOffset] at hlen ⊢
    omega

end

-- A peer that may look at the file `/a`, with a key for the session.
def admittedState : ServerState where
  conn  := { publicPeer ['p'] with session_key := some ['k'] }
  sv    := Matchers.publicAccess
  inbox := []
  sends := 100

def timelyServer : Surroundings :=
  { Surroundings.calm with time := some 7 }

def keyedAgent : AgentConnection where
  this_server := ['s']
  session_key := some ['k']
  cache       := []

theorem servesStat_admitted : ServesStat publicHost timelyServer admittedState 7 ['/', 'a'] where
  running  := rfl
  verified := rfl
  granted  := by decide +kernel
  clocks   := ⟨7, rfl, by decide⟩

theorem isRequestName_a : IsRequestName ['/', 'a'] :=
  ⟨by decide, by simp [isspace], by decide, by decide, by decide⟩

theorem cfRemoteStat_public :
    (∃ conn', cfRemoteStat .padding keyedAgent ['/', 'a'] [] true 7 [] (publicHost.replies timelyServer admittedState) =
      some (some <| (describedStat ['s'] ['/', 'a'] ⟨.regular, 0o644, 0, 0, 1, 0, 0, 0, 2, 1, 0, 1⟩ 0 []).statBuf [],
        conn')) ↔
    FitsStat ⟨.regular, 0o644, 0, 0, 1, 0, 0, 0, 2, 1, 0, 1⟩ :=
  @cfRemoteStat_iff publicHost timelyServer admittedState keyedAgent ⟨.regular, 0o644, 0, 0, 1, 0, 0, 0, 2, 1, 0, 1⟩ 0 []
    ['/', 'a'] [] true 7 [] servesStat_admitted isRequestName_a (by decide) (by decide)
    (@Describes.file _ _ _ ⟨.regular, 0o644, 0, 0, 1, 0, 0, 0, 2, 1, 0, 1⟩ rfl (by decide) rfl) ⟨by decide, by decide⟩
    (by decide) rfl fun _ => ⟨rfl, by decide, Crypto.inverts_padding⟩

-- What the agent of the dialogue keeps, and a state of the server with the key of the dialogue.
def authenticatedAgent : AgentConnection where
  this_server := ['s']
  session_key := some knownAgent.session_key
  cache       := []

def authenticatedState (toServer : List Packet) : ServerState :=
  { admittedState with
    conn := { admittedState.conn with
      session_key := (numberedHost.dialogue knownSurroundings (publicState 1) toServer).2.1.conn.session_key } }

theorem servesStat_authenticated {toServer : List Packet} :
    ServesStat numberedHost timelyServer (authenticatedState toServer) 7 ['/', 'a'] where
  running  := rfl
  verified := rfl
  granted  := servesStat_admitted.granted
  clocks   := ⟨7, rfl, by decide⟩

theorem cfRemoteStat_authenticated_known : ∃ toServer toAgent,
    Transcript knownAgent numberedHost knownSurroundings (publicState 1) toServer toAgent ∧
      ((∃ conn', cfRemoteStat .numbered authenticatedAgent ['/', 'a'] [] true 7 []
          (numberedHost.replies timelyServer (authenticatedState toServer)) =
        some (some <| (describedStat ['s'] ['/', 'a'] ⟨.regular, 0o644, 0, 0, 1, 0, 0, 0, 2, 1, 0, 1⟩ 0 []).statBuf [],
          conn')) ↔ FitsStat ⟨.regular, 0o644, 0, 0, 1, 0, 0, 0, 2, 1, 0, 1⟩) := by
  obtain ⟨toServer, toAgent, htr⟩ := acquainted_known.exists_transcript (s := publicState 1)
  refine ⟨toServer, toAgent, htr, ?_⟩
  exact @cfRemoteStat_authenticated numberedHost timelyServer (authenticatedState toServer) authenticatedAgent
    ⟨.regular, 0o644, 0, 0, 1, 0, 0, 0, 2, 1, 0, 1⟩ 0 [] ['/', 'a'] [] 7 [] knownAgent commonKey commonKey knownSurroundings
    (publicState 1) toServer toAgent acquainted_known htr (acquainted_known.transcript_agent htr |>.mpr ⟨rfl, .inl rfl⟩) rfl
    rfl (@Crypto.inverts_padding <| some knownAgent.session_key) servesStat_authenticated isRequestName_a (by decide)
    (by decide) (@Describes.file _ _ _ ⟨.regular, 0o644, 0, 0, 1, 0, 0, 0, 2, 1, 0, 1⟩ rfl (by decide) rfl)
    ⟨by decide, by decide⟩ (by decide) rfl

-- The same server with a link in the place of the file.
def linkingServer : Surroundings :=
  { timelyServer with
    fs := { publicServer with
      lstat           := fun _ => some ⟨.link, 0o777, 0, 0, 1, 0, 0, 0, 2, 1, 0, 1⟩
      readlink        := fun _ => some ['/', 'b']
      readlink_length := fun _ _ h => Option.some.inj h ▸ (by decide) } }

theorem servesStat_linking : ServesStat publicHost linkingServer admittedState 7 ['/', 'a'] where
  running  := rfl
  verified := rfl
  granted  := by decide +kernel
  clocks   := ⟨7, rfl, by decide⟩

theorem cfReadlink_eq_linking :
    ∃ conn', cfRemoteStat .padding keyedAgent ['/', 'a'] [] true 7 [] (publicHost.replies linkingServer admittedState) =
        some (some <| (describedStat ['s'] ['/', 'a'] ⟨.regular, 0o644, 0, 0, 1, 0, 0, 0, 2, 1, 0, 1⟩ 0o777
          ['/', 'b']).statBuf [], conn') ∧
      Run.Always (fun conn'' => ∀ c ∈ conn'', cfReadlink none c ['/', 'a'] cfBufSize [['s'], ['t']] =
        if ['s'] = ['s'] ∧ ['/', 'b'] ≠ [] then some ['/', 'b'] else none)
        (StatCall.outcome .padding) (some conn') [plainCall none] :=
  @cfReadlink_eq publicHost linkingServer admittedState keyedAgent ⟨.regular, 0o644, 0, 0, 1, 0, 0, 0, 2, 1, 0, 1⟩ 0o777
    ['/', 'b'] ['/', 'a'] [] true 7 [] servesStat_linking isRequestName_a (by decide) (by decide)
    (@Describes.link _ _ ⟨.link, 0o777, 0, 0, 1, 0, 0, 0, 2, 1, 0, 1⟩ ⟨.regular, 0o644, 0, 0, 1, 0, 0, 0, 2, 1, 0, 1⟩
      ['/', 'b'] rfl rfl rfl rfl) ⟨by decide, by decide⟩ (by decide)
    ⟨fitsWidth_natCast.mpr (by decide), fitsWidth_natCast.mpr (by decide), fitsWidth_natCast.mpr (by decide),
      fitsWidth_natCast.mpr (by decide), fitsWidth_natCast.mpr (by decide)⟩
    rfl (fun _ => ⟨rfl, by decide, Crypto.inverts_padding⟩) (fun _ h => absurd h List.not_mem_nil) ['s'] (by decide)
    [['t']] none [plainCall none]

section
variable {host : ServerHost} {now : Surroundings} {s : ServerState} {t : List Event} {conn : AgentConnection}
  {file1 : CString} {data content d left recvbuffer text rest digest1 digest2 : Buffer} {encrypt : Bool} {gap : Char}

-- The answer to the question whether the digests differ.
def hashAnswer (digest1 digest2 : Buffer) : CString :=
  if hashesMatch digest1 digest2 then "CFD_FALSE".toList else "CFD_TRUE".toList

theorem hashAnswer_iff : hashAnswer digest1 digest2 = "CFD_TRUE".toList ↔
    bytesFrom digest1 cfMd5Len ≠ bytesFrom digest2 cfMd5Len := by
  unfold hashAnswer hashesMatch
  by_cases h : bytesFrom digest1 cfMd5Len = bytesFrom digest2 cfMd5Len
  case pos => simp [h]
  case neg => simp [h]

theorem no_terminator_hashAnswer : '\x00' ∉ hashAnswer digest1 digest2 := by
  rw [hashAnswer]
  split <;> decide

theorem bytesFrom_bytesFrom {k : Nat} : bytesFrom (bytesFrom d k ++ rest) k = bytesFrom d k := by
  have hlen := @length_bytesFrom d k
  rw [bytesFrom, List.append_assoc]
  exact List.take_left' hlen

theorem hashText_eq (hfile : IsRequestName file1) :
    hashText file1 gap d = "MD5".toList ++ ' ' :: file1 ++ '\x00' :: gap :: bytesFrom d cfMd5Len := by
  have hlen := hfile.length_le
  have hmd5 : ("MD5 ".toList).length = 4 := rfl
  have hprinted : printed ("MD5 ".toList ++ file1) = "MD5 ".toList ++ file1 := by
    apply List.take_of_length_le
    rw [List.length_append, hmd5]
    rw [cfBufSize] at hlen ⊢
    omega
  rw [hashText, hprinted]
  simp

theorem length_hashText (hfile : IsRequestName file1) : (hashText file1 gap d).length ≤ 4048 := by
  have hlen := hfile.length_le
  have hmd5 : ("MD5".toList).length = 3 := rfl
  rw [hashText_eq hfile]
  simp only [List.length_append, List.length_cons, length_bytesFrom, hmd5, cfMd5Len, cfBufSize] at hlen ⊢
  omega

theorem no_terminator_hashName (hfile : IsRequestName file1) : '\x00' ∉ "MD5".toList ++ ' ' :: file1 := by
  simp only [List.mem_append, List.mem_cons, not_or]
  exact ⟨by decide, by decide, hfile.no_terminator⟩

theorem compareLocalHash_spec (hfile : IsRequestName file1) (hv : s.conn.id_verified = true) :
    (host.serveMd5 now (hashText file1 gap d ++ rest)).Ensures s t fun _ _ t' =>
      sentPackets t' = sentPackets t ++ [hashAnswer d <| now.hashFile host.crypto <| translatePath file1] := by
  have htext : Buffer.toCString (hashText file1 gap d ++ rest) = "MD5".toList ++ ' ' :: file1 := by
    rw [hashText_eq hfile, List.append_assoc]
    exact toCString_append <| no_terminator_hashName hfile
  have hscan : sscanf ("MD5".toList ++ ' ' :: file1) (scanLiteral "MD5".toList ++ [.blanks, .line cfBufSize]) =
      [.text file1] := by
    rw [sscanf_literal, sscanf_blank hfile.no_blank, sscanf_line hfile.ne_nil hfile.no_newline]
    exact hfile.length_le.trans <| by decide
  have hdigest : bytesFrom ((hashText file1 gap d ++ rest).drop (("MD5".toList ++ ' ' :: file1).length + 2)) cfMd5Len =
      bytesFrom d cfMd5Len := by
    rw [hashText_eq hfile, List.append_assoc, List.drop_append]
    simp only [List.drop_eq_nil_of_le (Nat.le_add_right _ 2), Nat.add_sub_cancel_left, List.nil_append]
    exact bytesFrom_bytesFrom
  have hmatch {digest2 : Buffer} : hashesMatch (bytesFrom d cfMd5Len) digest2 = hashesMatch d digest2 := by
    rw [hashesMatch, ←List.append_nil (bytesFrom d cfMd5Len), bytesFrom_bytesFrom]
    rfl
  have hsend (text : CString) (hn : '\x00' ∉ text) (hlen : text.length ≤ cfBufSize - cfInbandOffset) :
      Traced.Ensures (do let _ ← Serving.sendText text) s (.opened .hash (translatePath file1) :: t)
        (Traced.Then (fun _ => pure true) fun _ _ t' => sentPackets t' = sentPackets t ++ [text]) := by
    have hunit : Traced.Finishes (do let _ ← Serving.sendText text) s (.opened .hash (translatePath file1) :: t)
        fun (_ : Unit) _ t' => sentPackets t' = sentPackets t ++ [text] := by
      refine (Serving.sendText_spec hn hlen).bind fun _ _ _ h => Traced.finishes_pure ?_
      rw [h.right, sentPackets_silent rfl]
    refine Traced.Ensures.imp hunit fun _ _ _ ⟨_, hr, h⟩ => ?_
    rw [hr]
    exact h
  unfold ServerHost.serveMd5
  apply (ServerHost.ensures_verified hv).mpr
  unfold Surroundings.compareLocalHash
  dsimp only
  rw [htext, hscan, hdigest]
  simp only [Traced.ensures_bind, Traced.ensures_emit, Traced.then_some, assignedText, List.getElem?_cons_zero,
    Option.getD_some, hmatch]
  unfold hashAnswer
  split
  case isTrue  => exact hsend _ (by decide) (by decide)
  case isFalse => exact hsend _ (by decide) (by decide)

theorem getCommand_hashText : getCommand ("MD5".toList ++ ' ' :: file1) = .md5 :=
  rfl

theorem getCommand_secureHeader_smd5 {k : Nat} : getCommand (secureHeader "SMD5".toList k) = .md5Secure := by
  unfold secureHeader
  generalize Nat.toDigits 10 k = digits
  rfl

theorem isSecureKeyword_smd5 : IsSecureKeyword "SMD5".toList :=
  ⟨by decide, by decide⟩

theorem replies_hash (hfile : IsRequestName file1) (hv : s.conn.id_verified = true) (hrun : now.terminating = false) :
    host.replies now s (hashText file1 gap d) = some [hashAnswer d <| now.hashFile host.crypto <| translatePath file1] := by
  have hlen := @length_hashText file1 d gap hfile
  have htext : Buffer.toCString (hashText file1 gap d) = "MD5".toList ++ ' ' :: file1 := by
    rw [hashText_eq hfile]
    exact toCString_append <| no_terminator_hashName hfile
  have hserve := @compareLocalHash_spec host now { s with inbox := [] } [.request] file1 d [] gap hfile hv
  rw [List.append_nil] at hserve
  refine ServerHost.replies_eq (hlen.trans <| by decide) ?_ hrun (htext ▸ getCommand_hashText) ?_
  · rw [htext]
    exact List.append_ne_nil_of_right_ne_nil _ <| List.cons_ne_nil _ _
  · exact hserve

theorem replies_secureHash (hfile : IsRequestName file1) (hv : s.conn.id_verified = true) (hrun : now.terminating = false)
    (hkey : s.conn.session_key ≠ none) {out : Buffer}
    (hout : host.crypto.encrypt s.conn.session_key (hashText file1 gap d) = some out)
    (hin : host.crypto.decrypt s.conn.session_key out = hashText file1 gap d) :
    host.replies now s (securePacket "SMD5".toList out left) =
      some [hashAnswer d <| now.hashFile host.crypto <| translatePath file1] := by
  have hlen := @length_hashText file1 d gap hfile
  have hout := host.crypto.encrypt_length _ _ _ hout
  have hsize : out.length < cfBufSize := by
    rw [cfBufSize]
    omega
  have hpacket := @toCString_securePacket "SMD5".toList out left isSecureKeyword_smd5 hsize
  have hserve := @compareLocalHash_spec host now { s with inbox := [] } [.cipher s.conn.session_key, .request] file1 d
    ((securePacket "SMD5".toList out left).drop (hashText file1 gap d).length) gap hfile hv
  have hplain : "MD5".toList <+: hashText file1 gap d := by
    rw [hashText_eq hfile, List.append_assoc]
    exact List.prefix_append ..
  refine ServerHost.replies_eq ?_ ?_ hrun (hpacket ▸ getCommand_secureHeader_smd5) ?_
  · rw [length_securePacket, cfProtoOffset]
    simp only [cfBufSize, cfInbandOffset]
    omega
  · rw [hpacket, secureHeader]
    exact List.append_ne_nil_of_right_ne_nil _ <| List.cons_ne_nil _ _
  · exact (ServerHost.ensures_decrypted (s := { s with inbox := [] }) isSecureKeyword_smd5 hsize hkey hin hplain).mpr hserve

-- The agent takes the files for different ones, exactly if the first bytes of their digests differ.
theorem compareHashNet_iff (hfile : IsRequestName file1) (hv : s.conn.id_verified = true) (hrun : now.terminating = false)
    (hcontent : now.fs.read (translatePath file1) = some (some content))
    (hkey : encrypt = true → conn.session_key = s.conn.session_key ∧ s.conn.session_key ≠ none ∧
      host.crypto.Inverts s.conn.session_key) :
    compareHashNet host.crypto conn file1 (some data) encrypt gap d left (host.replies now s) =
        some (true, host.crypto.hashString data) ↔
      bytesFrom (host.crypto.hashString data) cfMd5Len ≠ bytesFrom (host.crypto.hashString content) cfMd5Len := by
  have hfits : ¬cfBufSize < (hashText file1 gap <| host.crypto.hashString data).length :=
    Nat.not_lt.mpr <| (length_hashText hfile).trans <| by decide
  have hdigest : now.hashFile host.crypto (translatePath file1) = host.crypto.hashString content := by
    rw [Surroundings.hashFile, hcontent]
    rfl
  have hanswer : Buffer.toCString (hashAnswer (host.crypto.hashString data) <| host.crypto.hashString content) =
      hashAnswer (host.crypto.hashString data) (host.crypto.hashString content) :=
    Stream.toCString_eq_self no_terminator_hashAnswer
  rw [←hashAnswer_iff]
  simp only [compareHashNet, localDigest, Option.elim_some, hashRequest, hfits, if_false]
  cases encrypt
  case false =>
    rw [if_neg Bool.false_ne_true, Option.map_some, replies_hash hfile hv hrun, hdigest]
    simp only [hanswer, Option.some.injEq, Prod.mk.injEq, and_true, decide_eq_true_eq]
  case true  =>
    obtain ⟨hsame, hne, hinverts⟩ := hkey rfl
    obtain ⟨out, hout, hin⟩ := hinverts <| hashText file1 gap <| host.crypto.hashString data
    rw [if_pos rfl, hsame, hout, Option.map_some, Option.map_some, replies_secureHash hfile hv hrun hne hout hin, hdigest]
    simp only [hanswer, Option.some.injEq, Prod.mk.injEq, and_true, decide_eq_true_eq]

end

theorem compareHashNet_public :
    compareHashNet .padding { this_server := [], session_key := some ['k'], cache := [] } ['/', 'a'] (some ['y']) true '\x00'
        [] [] (publicHost.replies .calm keyedState) = some (true, Crypto.padding.hashString ['y']) ↔
      bytesFrom (Crypto.padding.hashString ['y']) cfMd5Len ≠ bytesFrom (Crypto.padding.hashString ['x']) cfMd5Len :=
  @compareHashNet_iff publicHost .calm keyedState _ ['/', 'a'] ['y'] ['x'] [] [] true '\x00'
    ⟨by decide, by simp [isspace], by decide, by decide, by decide⟩ rfl rfl rfl
    fun _ => ⟨rfl, nofun, Crypto.inverts_padding⟩

section
variable {crypto : Crypto} {key : Option Buffer} {data chunk out buf copied : Buffer} {now : Surroundings} {s : ServerState}
  {t events new : List Event} {filename : CString} {sb : Stat} {packets : List (Buffer × TransactionStatus)}
  {calls : DescriptorCalls} {decrypt : Buffer → Option Buffer} {dd : Descriptor} {n size total count fuel interval : Nat}

-- The transactions in a trace, in their order.
def sentTransactions (events : List Event) : List (Buffer × TransactionStatus) :=
  events.reverse.filterMap fun
    | .transaction payload (some length) status => some (payload.take length.toNat, status)
    | _                                         => none

-- The data is sent in pieces, each of which is encrypted on its own.
inductive Ciphers (crypto : Crypto) (key : Option Buffer) : Buffer → List (Buffer × TransactionStatus) → Prop
  | last {chunk out : Buffer} (hn : chunk ≠ []) (ho : crypto.encrypt key chunk = some out) :
    Ciphers crypto key chunk [(out, .done)]
  | more {chunk out data : Buffer} {packets : List (Buffer × TransactionStatus)} (hn : chunk ≠ [])
      (ho : crypto.encrypt key chunk = some out) (h : Ciphers crypto key data packets) :
    Ciphers crypto key (chunk ++ data) ((out, .more) :: packets)

theorem sentTransactions_append : sentTransactions (new ++ events) = sentTransactions events ++ sentTransactions new := by
  rw [sentTransactions, List.reverse_append, List.filterMap_append]
  rfl

theorem sentTransactions_block {status : TransactionStatus} :
    sentTransactions [.transaction out (some (out.length : Int)) status, .cipher key] = [(out, status)] := by
  simp [sentTransactions]

namespace Surroundings

theorem encryptFileLoop_ciphers (hr : ∀ k, now.restat filename k = some sb) (hi : crypto.Inverts key)
    (hk : s.conn.session_key = key) (hn : data ≠ []) (hd : data.length ≤ size) (ht : data.length + total = sb.size.toNat)
    (hs : data.length ≤ s.sends) (hf : s.sends < fuel) {last : Option Buffer} :
    (now.encryptFileLoop crypto filename interval fuel (blocks encryptBlockSize size data) count total last
      sb.size.toNat).Ensures s t fun _ _ t' => ∃ new, t' = new ++ t ∧ Ciphers crypto key data (sentTransactions new) := by
  induction fuel generalizing data count total last s t size
  case zero         => exact absurd hf (Nat.not_lt_zero _)
  case succ fuel ih =>
    have hl := List.length_pos_iff.mpr hn
    have hsends : 0 < s.sends := Nat.lt_of_lt_of_le hl hs
    have htake : (data.take encryptBlockSize).length = min encryptBlockSize data.length := List.length_take
    have hdrop : (data.drop encryptBlockSize).length = data.length - encryptBlockSize := List.length_drop
    have hblock : 0 < encryptBlockSize := by decide
    have hchunk : data.take encryptBlockSize ≠ [] := by
      apply List.ne_nil_of_length_pos
      omega
    obtain ⟨out, ho, -⟩ := hi <| data.take encryptBlockSize
    obtain ⟨hlen, hfits⟩ := transactionLength_block ho <| by omega
    obtain ⟨size', rfl⟩ : ∃ size', size = size' + 1 := Nat.exists_eq_succ_of_ne_zero <| by omega
    rw [blocks, if_neg hn, encryptFileLoop, sizeInRound_eq hr]
    simp only [Traced.ensures_bind, Traced.ensures_ite, Serving.ensures_encryptString, Traced.then_some, Traced.ensures_pure,
      ne_eq, not_true_eq_false, ite_false, sendBlock, hk]
    simp only [List.headD_cons, hchunk, ho, List.tail_cons, false_implies, true_implies, not_false_eq_true, reduceCtorEq,
      and_false, true_and, Serving.ensures_sendTransaction, hlen, hfits, not_true_eq_false, and_true, Traced.then_some,
      Traced.ensures_pure]
    constructor
    case left  =>
      intro hlast
      have hall : data.take encryptBlockSize = data := List.take_of_length_le <| by omega
      rw [hall] at ho
      refine ⟨[.transaction out (some out.length) .done, .cipher key], rfl, ?_⟩
      rw [sentTransactions_block]
      exact .last hn ho
    case right =>
      intro hmore
      have hne : data.drop encryptBlockSize ≠ [] := by
        apply List.ne_nil_of_length_pos
        omega
      have hrest : (data.drop encryptBlockSize).length ≤ s.sends - 1 := by omega
      have hfuel : s.sends - 1 < fuel := by omega
      rw [decide_eq_true hsends, if_pos rfl]
      apply Traced.Ensures.imp
      · exact @ih (data.drop encryptBlockSize) { s with sends := s.sends - 1 } _ size'
          (total + (data.take encryptBlockSize).length) (count + 1) hk hne (by omega) (by omega) hrest hfuel
          (some out)
      · rintro _ _ t' ⟨new, rfl, hnew⟩
        refine ⟨new ++ [.transaction out (some out.length) .more, .cipher key], by rw [List.append_assoc]; rfl, ?_⟩
        rw [sentTransactions_append, sentTransactions_block, List.singleton_append]
        have hciphers := Ciphers.more hchunk ho hnew
        rwa [List.take_append_drop] at hciphers

theorem cfEncryptGetFile_ciphers (hu : Unchanging now (translatePath filename) sb data) (hi : crypto.Inverts key)
    (hk : s.conn.session_key = key) (hr : transferRights s.conn sb = true) (hs : data.length ≤ s.sends) (hn : data ≠ [])
    (buf_size : Nat) : (now.cfEncryptGetFile crypto filename buf_size).Ensures s t fun _ _ t' =>
      ∃ new, t' = new ++ .opened .content (translatePath filename) :: t ∧
        Ciphers crypto key data (sentTransactions new) := by
  have hf : now.statFirst (translatePath filename) = sb := by rw [statFirst, hu.stat, Option.getD_some]
  simp only [cfEncryptGetFile, hf, hu.read, hr, Traced.ensures_bind, Traced.ensures_emit, Traced.then_some,
    Traced.ensures_get, not_true_eq_false, ite_false]
  exact encryptFileLoop_ciphers hu.restat hi hk hn (Nat.le_refl _) hu.size.symm hs <| Nat.lt_succ_self _

theorem ciphers_transferred (hu : Unchanging now (translatePath filename) sb data) (hi : crypto.Inverts s.conn.session_key)
    (hr : transferRights s.conn sb = true) (hs : data.length ≤ s.sends) (hn : data ≠ []) {buf_size : Nat} :
    Ciphers crypto s.conn.session_key data (sentTransactions <| now.transferred crypto true filename buf_size s) := by
  have hrun := @cfEncryptGetFile_ciphers crypto s.conn.session_key data now s [] filename sb hu hi rfl hr hs hn buf_size
  obtain ⟨new, hnew, hciphers⟩ := hrun
  rw [transferred, transfer, if_pos rfl, hnew, sentTransactions_append]
  exact hciphers

end Surroundings

-- Some packet looks like a message when it has been received into the buffer, over the one before it.
def messageIn : Nat → Buffer → List (Buffer × TransactionStatus) → Bool
  | _, _, []                   => false
  | n, buf, (data, _) :: packets =>
    messageSeen n (receivedInto data buf) || messageIn (n + 1) (receivedInto data buf) packets

theorem messageSeen_congr {m : Nat} (h : n = 0 ↔ m = 0) : messageSeen n buf = messageSeen m buf := by
  rw [messageSeen, messageSeen, decide_eq_decide.mpr <| and_congr_left' h]

-- The pieces are put together again, or one of them is taken for a message.
theorem encryptCopyLoop_spec (hw : calls.Work) (hd : ∀ text out, crypto.encrypt key text = some out → decrypt out = some text)
    (hc : Ciphers crypto key data packets) (h : Copied dd copied.bytes) (hn : n = 0 ↔ copied.length = 0) :
    if messageIn n buf packets = true then encryptCopyLoop calls decrypt packets buf copied.length dd = none else
      ∃ dd', encryptCopyLoop calls decrypt packets buf copied.length dd = some dd' ∧
        dd'.content = Buffer.bytes (copied ++ data) := by
  induction hc generalizing n buf copied dd
  case last chunk out hne ho =>
    rw [messageIn, messageIn, Bool.or_false, messageSeen_congr hn, encryptCopyLoop]
    split
    case isTrue  => rfl
    case isFalse =>
      obtain ⟨dd', hwrite, hcopied⟩ := @fsWrite_spec calls dd copied chunk hw h
      have htruncate := hcopied.truncate
      rw [Buffer.length_bytes, List.length_append] at htruncate
      refine ⟨dd'.truncate (copied.length + chunk.length), ?_, htruncate⟩
      simp [hd chunk out ho, hwrite, hw.ftruncate]
  case more chunk out data packets hne ho _ ih =>
    rw [messageIn, messageSeen_congr hn, encryptCopyLoop]
    by_cases hseen : messageSeen copied.length (receivedInto out buf) = true
    case pos => simp [hseen]
    case neg =>
      obtain ⟨dd', hwrite, hcopied⟩ := @fsWrite_spec calls dd copied chunk hw h
      have hpos := List.length_pos_iff.mpr hne
      have hnext : n + 1 = 0 ↔ (copied ++ chunk).length = 0 := by
        rw [List.length_append]
        omega
      have ih := @ih (receivedInto out buf) (copied ++ chunk) dd' (n + 1) hcopied hnext
      rw [List.append_assoc] at ih
      rw [Bool.not_eq_true] at hseen
      simpa [hseen, hd chunk out ho, hwrite, List.length_append] using ih

-- The copy is the file, zeros and all, exactly if no piece of the encrypted data is taken for a message.
theorem encryptCopyRegularFileNet_iff (hw : calls.Work)
    (hd : ∀ text out, crypto.encrypt s.conn.session_key text = some out → decrypt out = some text)
    (hu : Unchanging now (translatePath filename) sb data) (hi : crypto.Inverts s.conn.session_key)
    (hr : transferRights s.conn sb = true) (hs : data.length ≤ s.sends) {new : CString}
    (hnew : new.length ≤ cfBufSize - 20) {buf_size : Nat} :
    (∃ dd, encryptCopyRegularFileNet calls decrypt new true true sb.size.toNat
        (sentTransactions <| now.transferred crypto true filename buf_size s) buf = some dd ∧ dd.content = data.bytes) ↔
      (data ≠ [] → messageIn 0 buf (sentTransactions <| now.transferred crypto true filename buf_size s) = false) := by
  have hopen : ¬(cfBufSize - 20 < new.length ∨ ¬true = true) := by
    rintro (hlong | hclosed)
    · omega
    · exact hclosed rfl
  rw [encryptCopyRegularFileNet, if_neg hopen, hu.size]
  by_cases hn : data = []
  case pos =>
    subst hn
    exact iff_of_true ⟨.empty, rfl, rfl⟩ fun hn => absurd rfl hn
  case neg =>
    have hspec := @encryptCopyLoop_spec crypto s.conn.session_key data buf [] _ calls decrypt .empty 0 hw hd
      (@Surroundings.ciphers_transferred crypto data now s filename sb hu hi hr hs hn buf_size) copied_empty Iff.rfl
    rw [if_neg <| mt List.length_eq_zero_iff.mp hn, if_neg <| not_not_intro rfl]
    split at hspec
    case isTrue hseen   =>
      rw [List.length_nil] at hspec
      rw [hspec]
      refine iff_of_false ?_ fun h => ?_
      · rintro ⟨dd, hdd, -⟩
        cases hdd
      · rw [h hn] at hseen
        cases hseen
    case isFalse hclear => exact iff_of_true hspec fun _ => Bool.eq_false_iff.mpr hclear

end

theorem encryptCopyRegularFileNet_public :
    (∃ dd, encryptCopyRegularFileNet workingCalls (some <| Crypto.padding.decrypt none ·) ['n'] true true 1
        (sentTransactions <| Surroundings.calm.transferred .padding true "/a".toList 2048 (publicState 1)) [] = some dd ∧
      dd.content = Buffer.bytes ['x']) ↔
    (['x'] ≠ ([] : Buffer) →
      messageIn 0 [] (sentTransactions <| Surroundings.calm.transferred .padding true "/a".toList 2048 (publicState 1)) =
        false) := by
  refine @encryptCopyRegularFileNet_iff .padding ['x'] [] .calm (publicState 1) "/a".toList
    ⟨.regular, 0o644, 0, 0, 1, 0, 0, 0, 2, 1, 0, 1⟩ workingCalls (some <| Crypto.padding.decrypt none ·)
    work_workingCalls (fun text out ho => ?_) ⟨rfl, fun _ => rfl, rfl, rfl⟩
    Crypto.inverts_padding (by decide) (by decide) ['n'] (by decide) 2048
  obtain ⟨out', ho', hout'⟩ := @Crypto.inverts_padding none text
  cases ho.symm.trans ho'
  exact congrArg some hout'

end CfEngine
