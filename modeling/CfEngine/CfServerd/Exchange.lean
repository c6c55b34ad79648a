import CfEngine.CfServerd.BusyWithConnection
import CfEngine.CfServerd.Listing
import CfEngine.Libcfnet.ClientCode.Requests
import CfEngine.Libpromises.FilesInterfaces

namespace CfEngine

section
variable {keyword s text out left rest : CString} {format : List ScanDirective} {n : Int} {k width : Nat} {c : Char}

theorem sscanf_literal : sscanf (keyword ++ s) (scanLiteral keyword ++ format) = sscanf s format := by
  induction keyword
  case nil               => rfl
  case cons c keyword ih =>
    rw [List.cons_append, scanLiteral, List.map_cons, List.cons_append, sscanf]
    simp only [ScanDirective.scan, if_true]
    exact ih

theorem sscanf_blank (hs : ∀ c ∈ s.head?, ¬isspace c) : sscanf (' ' :: s) (.blanks :: format) = sscanf s format := by
  have hdrop : (' ' :: s).dropWhile isspace = s := by
    rw [List.dropWhile_cons_of_pos (by decide)]
    cases s
    case nil      => rfl
    case cons c s => exact List.dropWhile_cons_of_neg <| hs c rfl
  rw [sscanf, ScanDirective.scan, hdrop]

theorem sscanf_long (h : scanNumber s = some (n, rest)) :
    sscanf s (.long :: format) = .number (toLong n) :: sscanf rest format := by
  rw [sscanf, ScanDirective.scan, h]
  rfl

theorem sscanf_unsigned (h : scanNumber s = some (n, rest)) :
    sscanf s (.unsigned :: format) = .number (toUnsigned n) :: sscanf rest format := by
  rw [sscanf, ScanDirective.scan, h]
  rfl

theorem sscanf_line (hne : s ≠ []) (hline : '\n' ∉ s) (hlen : s.length ≤ width) : sscanf s [.line width] = [.text s] := by
  have htake : (s.takeWhile (· ≠ '\n')).take width = s := by
    have hself : s.takeWhile (· ≠ '\n') = s := by
      apply List.takeWhile_eq_self_iff.mpr
      exact fun c hc => decide_eq_true fun he => hline <| he ▸ hc
    rw [hself, List.take_of_length_le hlen]
  rw [sscanf, ScanDirective.scan]
  simp only [htake, hne, if_false]
  rfl

-- A name that is read back from a request as it has been written.
structure IsRequestName (name : CString) : Prop where
  ne_nil        : name ≠ []
  no_blank      : ∀ c ∈ name.head?, ¬isspace c
  no_newline    : '\n' ∉ name
  no_terminator : '\x00' ∉ name
  length_le     : name.length ≤ cfBufSize - 80

theorem not_isspace_toString : ∀ c ∈ ((toString n).toList ++ s).head?, ¬isspace c := by
  have hdrop := @dropWhile_toString s n
  rw [List.dropWhile_cons_of_pos (by decide)] at hdrop
  have hnot := List.head?_dropWhile_not isspace ((toString n).toList ++ s)
  rw [hdrop] at hnot
  intro c hc
  rw [Option.mem_def.mp hc] at hnot
  exact Bool.eq_false_iff.mp hnot

theorem toLong_toInt {n : Int64} : toLong n.toInt = n.toInt := by
  have hlow := n.le_toInt
  have hhigh := n.toInt_lt
  rw [toLong]
  omega

theorem scanSync_syncText {tloc : Int64} {file : CString} (h : IsRequestName file) :
    ServerHost.scanSync (syncText tloc file) = (tloc.toInt, file) := by
  have hdigit : ∀ c ∈ (' ' :: ("STAT".toList ++ ' ' :: file)).head?, ¬c.isDigit := by
    rintro c ⟨⟩
    decide
  have hstat : ∀ c ∈ ("STAT".toList ++ ' ' :: file).head?, ¬isspace c := by
    rintro c ⟨⟩
    decide
  have htext : syncText tloc file =
      "SYNCH".toList ++ ' ' :: ((toString tloc.toInt).toList ++ ' ' :: ("STAT".toList ++ ' ' :: file)) := by
    unfold syncText
    generalize (toString tloc.toInt).toList = digits
    simp
  have hscan : sscanf (syncText tloc file) (scanLiteral "SYNCH".toList ++
      [.blanks, .long, .blanks] ++ scanLiteral "STAT".toList ++ [.blanks, .line cfBufSize]) =
      [.number tloc.toInt, .text file] := by
    simp only [List.append_assoc, List.cons_append, List.nil_append]
    rw [htext, sscanf_literal, sscanf_blank not_isspace_toString,
      sscanf_long <| scanNumber_signed signedDigits_toString hdigit, toLong_toInt, sscanf_blank hstat, sscanf_literal,
      sscanf_blank h.no_blank, sscanf_line h.ne_nil h.no_newline <| h.length_le.trans <| by decide]
  rw [ServerHost.scanSync, hscan]
  rfl

-- The header has its place before the text.
structure IsSecureKeyword (keyword : CString) : Prop where
  no_terminator : '\x00' ∉ keyword
  length_le     : keyword.length ≤ 8

theorem length_secureHeader (hk : IsSecureKeyword keyword) (hn : k < cfBufSize) :
    (secureHeader keyword k).length < cfProtoOffset := by
  have hdigits : (Nat.toDigits 10 k).length ≤ 4 :=
    (Nat.length_toDigits_le_iff (by decide) (by decide)).mpr <| hn.trans (by decide)
  have hlen := hk.length_le
  rw [secureHeader, List.length_append, List.length_cons, cfProtoOffset]
  omega

theorem no_terminator_secureHeader (hk : IsSecureKeyword keyword) : '\x00' ∉ secureHeader keyword k := by
  rw [secureHeader, List.mem_append, List.mem_cons]
  rintro (h | h | h)
  · exact hk.no_terminator h
  · cases h
  · cases isDigit_of_mem_toDigits h

theorem toCString_append (hs : '\x00' ∉ s) : Buffer.toCString (s ++ '\x00' :: rest) = s := by
  have hn : ∀ c ∈ s, decide (c ≠ '\x00') = true := fun c hc => decide_eq_true fun he => hs <| he ▸ hc
  rw [Buffer.toCString, List.takeWhile_append_of_pos hn]
  exact List.append_nil s

theorem toCString_securePacket (hk : IsSecureKeyword keyword) (ho : out.length < cfBufSize) :
    Buffer.toCString (securePacket keyword out left) = secureHeader keyword out.length := by
  have hlen := length_secureHeader hk ho
  obtain ⟨rest, hrest⟩ : ∃ rest, securePacket keyword out left = secureHeader keyword out.length ++ '\x00' :: rest := by
    obtain ⟨k, hk⟩ := Nat.exists_eq_add_of_lt hlen
    rw [securePacket, bytesFrom, overwrite, hk]
    simp only [List.append_assoc, List.singleton_append]
    rw [Nat.add_assoc, List.take_length_add_append, List.cons_append, List.take_succ_cons, List.append_assoc]
    exact ⟨_, rfl⟩
  rw [hrest, toCString_append <| no_terminator_secureHeader hk]

theorem length_bytesFrom : (bytesFrom s k).length = k := by
  rw [bytesFrom, List.length_take, List.length_append, List.length_replicate]
  omega

theorem length_securePacket : (securePacket keyword out left).length = out.length + cfProtoOffset := by
  rw [securePacket, List.length_append, length_bytesFrom, Nat.add_comm]

theorem drop_securePacket : (securePacket keyword out left).drop cfProtoOffset = out :=
  List.drop_left' length_bytesFrom

theorem scanLength_secureHeader (hk : k < cfBufSize) : scanLength keyword (secureHeader keyword k) = k := by
  have hdigits : SignedDigits (Nat.toDigits 10 k) k := by
    have h := @SignedDigits.plain _ (@toDigits_ne_nil k) fun _ => isDigit_of_mem_toDigits
    rwa [show decimal (Nat.toDigits 10 k) = k from Numerals.value_toDigits] at h
  have hscan : scanNumber (Nat.toDigits 10 k) = some ((k : Int), []) := by
    rw [←List.append_nil (Nat.toDigits 10 k)]
    exact scanNumber_signed hdigits <| by simp
  have hblank : ∀ c ∈ (Nat.toDigits 10 k).head?, ¬isspace c := by
    intro c hc
    rw [isspace_of_isDigit <| isDigit_of_mem_toDigits <| List.mem_of_mem_head? hc]
    exact Bool.false_ne_true
  have hunsigned : toUnsigned k = k := by
    rw [cfBufSize] at hk
    rw [toUnsigned]
    omega
  rw [scanLength, secureHeader, sscanf_literal, sscanf_blank hblank, sscanf_unsigned hscan, hunsigned]
  rfl

theorem lengthProper_securePacket (hk : IsSecureKeyword keyword) (ho : out.length < cfBufSize) :
    ServerHost.lengthProper keyword (securePacket keyword out left) = true := by
  simp only [ServerHost.lengthProper, toCString_securePacket hk ho, scanLength_secureHeader ho, length_securePacket,
    and_true]
  exact decide_eq_true ho

end

namespace ServerHost

-- The packets that come back for a request, on a connection that does not break down. A request that is too long
-- is not sent.
def replies (host : ServerHost) (now : Surroundings) (s : ServerState) (request : Buffer) : Option (List Buffer) :=
  if h : request.length ≤ cfBufSize - cfInbandOffset then
    some <| sentPackets (host.busyWithConnection now { s with inbox := [some ⟨request, h⟩] } []).2.2
  else
    none

variable {host : ServerHost} {now : Surroundings} {s : ServerState} {t : List Event} {request text keyword plain : Buffer}
  {out left : Buffer} {packets : List Buffer} {command : ProtocolCommand} {testsKey lengthBusy plainBusy : Bool}
  {serve : Buffer → Serving Bool}

theorem replies_eq (hlen : request.length ≤ cfBufSize - cfInbandOffset) (hne : request.toCString ≠ [])
    (hrun : now.terminating = false) (hcommand : getCommand request.toCString = command)
    (h : (host.serve now request command).Ensures { s with inbox := [] } [.request] fun _ _ t =>
      sentPackets t = packets) :
    host.replies now s request = some packets := by
  have hbusy : (host.busyWithConnection now).Ensures { s with inbox := [some ⟨request, hlen⟩] } [] fun _ _ t =>
      sentPackets t = packets := by
    simp [busyWithConnection, Serving.receiveTransaction, hne, hrun, hcommand]
    exact h
  rw [replies, dif_pos hlen]
  exact congrArg some hbusy

theorem ensures_verified (hv : s.conn.id_verified = true) {busy : Bool} {x : Serving Bool}
    {Q : Option Bool → ServerState → List Event → Prop} : (verified busy x).Ensures s t Q ↔ x.Ensures s t Q := by
  simp [verified, hv]

-- What has been encrypted by the client is served like a request that is not encrypted.
theorem ensures_decrypted (hk : IsSecureKeyword keyword) (ho : out.length < cfBufSize)
    (hkey : s.conn.session_key ≠ none) (hd : host.crypto.decrypt s.conn.session_key out = text)
    (hp : plain <+: text) {Q : Option Bool → ServerState → List Event → Prop} :
    (host.decrypted keyword testsKey lengthBusy plain plainBusy (securePacket keyword out left) serve).Ensures s t Q ↔
      (serve <| overwrite text <| securePacket keyword out left).Ensures s (.cipher s.conn.session_key :: t) Q := by
  have hproper := @lengthProper_securePacket keyword out left hk ho
  have hplain : plain <+: overwrite text (securePacket keyword out left) := hp.trans <| List.prefix_append ..
  simp [decrypted, hproper, hkey, drop_securePacket, hd, hplain]

end ServerHost

-- An event that is not a transaction.
theorem sentPackets_silent {e : Event} {t : List Event} (h : sentPackets [e] = []) : sentPackets (e :: t) = sentPackets t := by
  rw [sentPackets_cons, h, List.append_nil]

namespace Serving

-- What is sent comes as it is.
theorem sendTransaction_spec {payload : Buffer} {n : Nat} {status : TransactionStatus} {s : ServerState} {t : List Event}
    (hpos : 0 < n) (hn : n ≤ cfBufSize - cfInbandOffset) :
    (sendTransaction payload (some n) status).Finishes s t fun _ s' t' =>
      s' = { s with sends := s.sends - 1 } ∧ sentPackets t' = sentPackets t ++ [payload.take n] := by
  have hl : transactionLength payload (some n) = some (n : Int) := by
    simp [transactionLength, Nat.ne_of_gt hpos]
  have hf : lengthFits (transactionLength payload (some n)) = true := by
    rw [hl, lengthFits_iff]
    exact ⟨_, rfl, Int.natCast_nonneg _, Int.ofNat_le.mpr hn⟩
  rw [Traced.Finishes, ensures_sendTransaction]
  refine ⟨fun _ => ⟨_, rfl, rfl, ?_⟩, fun h => absurd hf h⟩
  rw [sentPackets_cons, hl]
  simp [sentPackets]

theorem sendText_spec {text : CString} {s : ServerState} {t : List Event} (h : '\x00' ∉ text)
    (hlen : text.length ≤ cfBufSize - cfInbandOffset) :
    (sendText text).Finishes s t fun _ s' t' =>
      s' = { s with sends := s.sends - 1 } ∧ sentPackets t' = sentPackets t ++ [text] := by
  have hl : transactionLength text (some 0) = some (text.length : Int) := by
    simp [transactionLength, Stream.toCString_eq_self h]
  have hf : lengthFits (transactionLength text (some 0)) = true := by
    rw [hl, lengthFits_iff]
    exact ⟨_, rfl, Int.natCast_nonneg _, Int.ofNat_le.mpr hlen⟩
  rw [sendText, Traced.Finishes, ensures_sendTransaction]
  refine ⟨fun _ => ⟨_, rfl, rfl, ?_⟩, fun hn => absurd hf hn⟩
  rw [sentPackets_cons, hl]
  simp [sentPackets]

end Serving
end CfEngine
