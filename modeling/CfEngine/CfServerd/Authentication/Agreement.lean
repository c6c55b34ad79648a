import CfEngine.CfServerd.Authentication.Bounds
import CfEngine.CfServerd.Exchange
import CfEngine.Libcfnet.ClientProtocol
import Mathlib.Data.Nat.Digits.Lemmas

namespace CfEngine

section
variable {s rest word : CString} {format : List ScanDirective} {c : Char} {width k m : Nat}

theorem sscanf_word (hne : word ≠ []) (hword : ∀ c ∈ word, !isspace c) (hlen : word.length ≤ width) :
    sscanf (word ++ ' ' :: rest) (.word width :: format) = .text word :: sscanf (' ' :: rest) format := by
  have hblank : (word ++ ' ' :: rest).dropWhile isspace = word ++ ' ' :: rest := by
    obtain ⟨c, cs, rfl⟩ := List.exists_cons_of_ne_nil hne
    have hc := hword c List.mem_cons_self
    rw [Bool.not_eq_true'] at hc
    exact List.dropWhile_cons_of_neg <| Bool.eq_false_iff.mp hc
  have htake : ((word ++ ' ' :: rest).takeWhile (!isspace ·)).take width = word := by
    rw [List.takeWhile_append_of_pos hword, List.takeWhile_cons_of_neg (by decide), List.append_nil]
    exact List.take_of_length_le hlen
  rw [sscanf, ScanDirective.scan]
  simp only [hblank, htake, hne, if_false, List.drop_left]

theorem sscanf_char : sscanf (c :: s) (.char :: format) = .text [c] :: sscanf s format :=
  rfl

theorem sscanf_toDigits (hk : k < 2 ^ 32) (hrest : ∀ c ∈ rest.head?, ¬c.isDigit) :
    sscanf (' ' :: (Nat.toDigits 10 k ++ rest)) (.blanks :: .unsigned :: format) = .number k :: sscanf rest format := by
  have hdigits : SignedDigits (Nat.toDigits 10 k) k := by
    have h := @SignedDigits.plain _ (@toDigits_ne_nil k) fun _ => isDigit_of_mem_toDigits
    rwa [show decimal (Nat.toDigits 10 k) = k from Numerals.value_toDigits] at h
  have hblank : ∀ c ∈ (Nat.toDigits 10 k ++ rest).head?, ¬isspace c := by
    obtain ⟨d, ds, hd⟩ := List.exists_cons_of_ne_nil <| @toDigits_ne_nil k
    rw [hd]
    rintro c ⟨⟩
    rw [isspace_of_isDigit <| isDigit_of_mem_toDigits <| hd ▸ List.mem_cons_self]
    exact Bool.false_ne_true
  have hunsigned : toUnsigned k = k := by
    rw [toUnsigned]
    omega
  rw [sscanf_blank hblank, sscanf_unsigned <| scanNumber_signed hdigits hrest, hunsigned]

variable {agent : Agent} {out : Buffer}

def Agent.iscrypt (agent : Agent) : Char :=
  if agent.server_pubkey = none then 'n' else 'y'

theorem length_sauthText (hk : k < 1000) (hm : m < 1000) : (agent.sauthText k m).length < cfRsaProtoOffset := by
  have hkd : (Nat.toDigits 10 k).length ≤ 3 := (Nat.length_toDigits_le_iff (by decide) (by decide)).mpr hk
  have hmd : (Nat.toDigits 10 m).length ≤ 3 := (Nat.length_toDigits_le_iff (by decide) (by decide)).mpr hm
  have hsauth : ("SAUTH ".toList).length = 6 := rfl
  have hend : (" c".toList).length = 2 := rfl
  simp only [Agent.sauthText, List.length_append, List.length_cons, hsauth, hend, cfRsaProtoOffset]
  omega

theorem no_terminator_sauthText : '\x00' ∉ agent.sauthText k m := by
  have hdigits {k : Nat} : '\x00' ∉ Nat.toDigits 10 k := fun h => absurd (isDigit_of_mem_toDigits h) (by decide)
  have hiscrypt : '\x00' ≠ if agent.server_pubkey = none then 'n' else 'y' := by
    split <;> decide
  simp only [Agent.sauthText, List.mem_append, List.mem_cons, not_or]
  exact ⟨by decide, hiscrypt, by decide, hdigits, by decide, hdigits, by decide⟩

theorem toCString_openingPacket (hout : out.length < 1000) (hk : k < 1000) :
    Buffer.toCString (agent.openingPacket out k) = agent.sauthText out.length k := by
  have hlen := @length_sauthText _ _ agent hout hk
  obtain ⟨rest, hrest⟩ : ∃ rest, agent.openingPacket out k = agent.sauthText out.length k ++ '\x00' :: rest := by
    obtain ⟨m, hm⟩ := Nat.exists_eq_add_of_lt hlen
    rw [Agent.openingPacket, bytesFrom, hm]
    simp only [List.append_assoc, List.singleton_append]
    rw [Nat.add_assoc, List.take_length_add_append, List.take_succ_cons, List.append_assoc]
    exact ⟨_, rfl⟩
  rw [hrest, toCString_append no_terminator_sauthText]

theorem drop_openingPacket : (agent.openingPacket out k).drop cfRsaProtoOffset = out :=
  List.drop_left' length_bytesFrom

theorem length_openingPacket : (agent.openingPacket out k).length = cfRsaProtoOffset + out.length := by
  rw [Agent.openingPacket, List.length_append, length_bytesFrom]

theorem scanProposal_sauthText (hk : k < 1000) (hm : m < 1000) :
    ServerHost.scanProposal (agent.sauthText k m) = ⟨"SAUTH".toList, [agent.iscrypt], k, m, 'c'⟩ := by
  have htext : agent.sauthText k m = "SAUTH".toList ++ ' ' :: agent.iscrypt :: ' ' :: (Nat.toDigits 10 k ++
      ' ' :: (Nat.toDigits 10 m ++ ' ' :: ['c'])) := by
    unfold Agent.sauthText Agent.iscrypt
    simp
  have hiscrypt : ∀ c ∈ (agent.iscrypt :: ' ' :: (Nat.toDigits 10 k ++ ' ' :: (Nat.toDigits 10 m ++ ' ' :: ['c']))).head?,
      ¬isspace c := by
    rintro c ⟨⟩
    unfold Agent.iscrypt
    split <;> decide
  have hblank {rest : CString} : ∀ c ∈ (' ' :: rest).head?, ¬c.isDigit := by
    rintro c ⟨⟩
    decide
  have hend : ∀ c ∈ ['c'].head?, ¬isspace c := by
    rintro c ⟨⟩
    decide
  have hscan : sscanf (agent.sauthText k m) [.word cfBufSize, .blanks, .char, .blanks, .unsigned, .blanks, .unsigned,
      .blanks, .char] = [.text "SAUTH".toList, .text [agent.iscrypt], .number k, .number m, .text ['c']] := by
    rw [htext, sscanf_word (by decide) (by decide) (by decide), sscanf_blank hiscrypt, sscanf_char,
      sscanf_toDigits (hk.trans <| by decide) hblank, sscanf_toDigits (hm.trans <| by decide) hblank, sscanf_blank hend,
      sscanf_char, sscanf]
  rw [ServerHost.scanProposal, hscan]
  rfl

end

open Traced

namespace ServerHost

variable {host : ServerHost} {now : Surroundings} {s : ServerState} {t : List Event} {key ks : RsaKey} {nonce out : Buffer}
  {p : Proposal} {known : Option Bool}

-- Whether the key of the peer is known or, if it is accepted anyway, not known.
def storedKey (host : ServerHost) (now : Surroundings) (s : ServerState) (key : RsaKey) : Option Bool :=
  if now.havePublicKey s.conn.username (mapAddress s.conn.ipaddr) (host.crypto.hashPubKey key) = some key then
    some true
  else if s.sv.trustkeylist ≠ [] ∧ host.matchers.isMatchItemIn s.sv.trustkeylist (mapAddress s.conn.ipaddr) then
    some false
  else
    none

def keyAnswer : Option Bool → CString
  | some true  => "OK: key accepted".toList
  | some false => "OK: unknown key was accepted on trust".toList
  | none       => "BAD: key could not be accepted on trust".toList

theorem badProtoReply_keyAnswer : badProtoReply (keyAnswer known) = known.isNone := by
  rcases known with _ | _ | _ <;> rfl

theorem fits_keyAnswer : '\x00' ∉ keyAnswer known ∧ (keyAnswer known).length ≤ cfBufSize - cfInbandOffset := by
  rcases known with _ | _ | _
  all_goals exact ⟨by decide, by decide⟩

theorem answerKey_spec : Finishes (do let _ ← Serving.sendText (keyAnswer known); return known) s t
    fun known' s' t' => known' = known ∧ s'.inbox = s.inbox ∧ s'.conn = s.conn ∧
      sentPackets t' = sentPackets t ++ [keyAnswer known] := by
  refine (Serving.sendText_spec fits_keyAnswer.left fits_keyAnswer.right).bind fun _ _ _ h => finishes_pure ?_
  rw [h.left]
  exact ⟨rfl, rfl, rfl, h.right⟩

theorem checkStoreKey_spec (hdigest : s.conn.digest = host.crypto.hashPubKey key) :
    (host.checkStoreKey now key).Finishes s t fun known s' t' => known = storedKey host now s key ∧ s'.inbox = s.inbox ∧
      (known = none → s'.conn.trust = s.conn.trust) ∧ sentPackets t' = sentPackets t ++ [keyAnswer known] := by
  have hrest {s₁ t₁} (hi : s₁.inbox = s.inbox) (hc : s₁.conn = s.conn) (hk : s₁.sv.trustkeylist = s.sv.trustkeylist) :
      Finishes (show Serving (Option Bool) from do
        if now.havePublicKey s.conn.username (mapAddress s.conn.ipaddr) s.conn.digest = some key then
          let _ ← Serving.sendText "OK: key accepted".toList
          return some true
        else
          host.acceptOnTrust) s₁ t₁ fun known s' t' => known = storedKey host now s key ∧ s'.inbox = s.inbox ∧
            (known = none → s'.conn.trust = s.conn.trust) ∧ sentPackets t' = sentPackets t₁ ++ [keyAnswer known] := by
    rw [storedKey, ←hdigest]
    apply Finishes.ite
    · intro hsaved
      rw [if_pos hsaved]
      refine (@answerKey_spec s₁ t₁ (some true)).imp fun known s' t' h => ?_
      obtain ⟨rfl, hin, hconn, hsent⟩ := h
      exact ⟨rfl, hin.trans hi, nofun, hsent⟩
    · intro hsaved
      rw [if_neg hsaved, ←hk, ←hc]
      unfold acceptOnTrust
      apply finishes_get_bind
      apply Finishes.ite
      · intro htrusts
        rw [if_pos htrusts]
        apply finishes_modify_bind
        refine (@answerKey_spec _ t₁ (some false)).imp fun known s' t' h => ?_
        obtain ⟨rfl, hin, hconn, hsent⟩ := h
        exact ⟨rfl, hin.trans hi, nofun, hsent⟩
      · intro htrusts
        rw [if_neg htrusts]
        refine (@answerKey_spec s₁ t₁ none).imp fun known s' t' h => ?_
        obtain ⟨rfl, hin, hconn, hsent⟩ := h
        exact ⟨rfl, hin.trans hi, fun _ => congrArg _ <| hconn, hsent⟩
  apply finishes_get_bind
  apply Finishes.ite
  · intro _
    apply finishes_modify_bind
    exact hrest rfl rfl rfl
  · exact fun _ => hrest rfl rfl rfl

-- The key for the session that is in a message.
def sessionKeyIn (host : ServerHost) (out : Buffer) (input : Option Buffer) : Option Buffer := do
  let input ← input
  if input.length ≤ cfBufSize / 2 then
    (if input.length = cfBlowfishSize then some input else
      (host.rsaPrivateDecrypt input).map (overwrite · out)).map (bytesFrom · cfBlowfishSize)
  else
    none

-- The key for the session that the server takes, after the answer to its counter challenge.
def agreedKey (host : ServerHost) (now : Surroundings) (out : Buffer) (answer input : Option Buffer) : Option Buffer := do
  let answer ← answer
  if hashesMatch (host.crypto.hashString <| host.crypto.bn2mpi now.challenge) answer then
    host.sessionKeyIn out input
  else
    none

-- The end of the dialogue, given the key that it ends with.
def EndsWith (session_key : Option Buffer) (t : List Event) (r : Bool) (s' : ServerState) (t' : List Event) : Prop :=
  sentPackets t' = sentPackets t ∧ r = session_key.isSome ∧
    (r = true → s'.conn.session_key = session_key ∧ s'.conn.rsa_auth = true)

theorem endsWith_none : EndsWith none t false s t :=
  ⟨rfl, rfl, nofun⟩

theorem receiveTransaction_spec : Serving.receiveTransaction.Finishes s t fun r s' t' =>
    r = s.message 0 ∧ s' = { s with inbox := s.inbox.tail } ∧ t' = t := by
  cases hs : s.inbox <;> simp [Finishes, Serving.receiveTransaction, ServerState.message, hs]
  rw [←hs]

theorem receiveSessionKey_spec {accepted : Option (CString × Bool)} {enterprise : Char} :
    (host.receiveSessionKey now accepted enterprise out).Finishes s t
      (EndsWith (host.sessionKeyIn out <| s.message 0) t) := by
  unfold receiveSessionKey
  refine receiveTransaction_spec.bind ?_
  rintro input s' t' ⟨hinput, -, rfl⟩
  rw [←hinput]
  cases input
  case none       => exact finishes_pure endsWith_none
  case some input =>
    apply Finishes.ite
    · intro hlong
      have hkey : host.sessionKeyIn out (some input) = none := if_neg <| Nat.not_le.mpr hlong
      exact finishes_pure <| hkey ▸ endsWith_none
    · intro hshort
      have hkey : host.sessionKeyIn out (some input) = (if input.length = cfBlowfishSize then some input else
          (host.rsaPrivateDecrypt input).map (overwrite · out)).map (bytesFrom · cfBlowfishSize) :=
        if_pos <| Nat.not_lt.mp hshort
      rw [hkey]
      apply finishes_modify_bind
      dsimp only
      generalize (if input.length = cfBlowfishSize then some input else
        (host.rsaPrivateDecrypt input).map (overwrite · out)) = key
      cases key
      case none     => exact finishes_pure endsWith_none
      case some key =>
        apply finishes_modify_bind
        apply finishes_emit_bind
        apply finishes_pure
        exact ⟨sentPackets_silent rfl, rfl, fun _ => ⟨rfl, rfl⟩⟩

-- What the server sends after it has accepted the key of the client.
def challengePackets (host : ServerHost) (iscrypt : CString) (pubkey : RsaKey) (out : Buffer) : List Buffer :=
  out :: if iscrypt = ['y'] then [] else [host.crypto.bn2mpi pubkey.n, host.crypto.bn2mpi pubkey.e]

-- A number that is sent in one packet.
def FitsNumber (host : ServerHost) (n : Nat) : Prop :=
  0 < (host.crypto.bn2mpi n).length ∧ (host.crypto.bn2mpi n).length ≤ cfBufSize - cfInbandOffset

theorem sendNumber_spec {n : Nat} (h : FitsNumber host n) :
    (Serving.sendTransaction (host.crypto.bn2mpi n) (some (host.crypto.bn2mpi n).length) .done).Finishes s t
      fun _ s' t' => s' = { s with sends := s.sends - 1 } ∧ sentPackets t' = sentPackets t ++ [host.crypto.bn2mpi n] := by
  refine (Serving.sendTransaction_spec h.left h.right).imp fun _ s' t' h => ?_
  rwa [List.take_length] at h

theorem challengeClient_spec {accepted : Option (CString × Bool)} {pubkey : RsaKey}
    (hout : host.crypto.publicEncrypt key (host.crypto.bn2mpi now.challenge) = some out)
    (hpos : 0 < host.crypto.rsaSize key) (hsize : host.crypto.rsaSize key ≤ cfBufSize - cfInbandOffset)
    (hn : FitsNumber host pubkey.n) (he : FitsNumber host pubkey.e) :
    (host.challengeClient now p pubkey key accepted).Finishes s t fun r s' t' =>
      sentPackets t' = sentPackets t ++ challengePackets host p.iscrypt pubkey out ∧
        r = (agreedKey host now out (s.message 0) (s.message 1)).isSome ∧
          (r = true → s'.conn.session_key = agreedKey host now out (s.message 0) (s.message 1) ∧
            s'.conn.rsa_auth = true) := by
  have hmessage (i : Nat) {s₁ : ServerState} (hin : s₁.inbox = s.inbox) : s₁.message i = s.message i := by
    rw [ServerState.message, ServerState.message, hin]
  have htail {s₁ t₁} (hin : s₁.inbox = s.inbox)
      (hsent : sentPackets t₁ = sentPackets t ++ challengePackets host p.iscrypt pubkey out)
      {next : Option Buffer → Serving Bool} (hnone : next none = pure false)
      (hsome : ∀ input, next (some input) =
        if ¬hashesMatch (host.crypto.hashString <| host.crypto.bn2mpi now.challenge) input then pure false
        else host.receiveSessionKey now accepted p.enterprise out) :
      Finishes (Serving.receiveTransaction >>= next) s₁ t₁ fun r s' t' =>
        sentPackets t' = sentPackets t ++ challengePackets host p.iscrypt pubkey out ∧
          r = (agreedKey host now out (s.message 0) (s.message 1)).isSome ∧
            (r = true → s'.conn.session_key = agreedKey host now out (s.message 0) (s.message 1) ∧
              s'.conn.rsa_auth = true) := by
    rw [←hsent]
    refine receiveTransaction_spec.bind ?_
    rintro answer s₂ _ ⟨hanswer, hs₂, rfl⟩
    have hinput : s₂.message 0 = s.message 1 := by
      rw [hs₂, ServerState.message, List.getElem?_tail, ←hmessage 1 hin]
      rfl
    rw [←hmessage 0 hin, ←hanswer, ←hinput]
    cases answer
    case none        =>
      rw [hnone]
      exact finishes_pure endsWith_none
    case some answer =>
      rw [hsome]
      apply Finishes.ite
      · intro hwrong
        have hkey : agreedKey host now out (some answer) (s₂.message 0) = none := if_neg hwrong
        rw [hkey]
        exact finishes_pure endsWith_none
      · intro hright
        have hkey : agreedKey host now out (some answer) (s₂.message 0) = host.sessionKeyIn out (s₂.message 0) :=
          if_pos <| not_not.mp hright
        rw [hkey]
        exact receiveSessionKey_spec
  have hlen := host.crypto.publicEncrypt_length _ _ _ hout
  unfold challengeClient
  dsimp only
  rw [hout]
  refine (Serving.sendTransaction_spec hpos hsize).bind ?_
  rintro - s₁ t₁ ⟨rfl, ht₁⟩
  rw [←hlen, List.take_length] at ht₁
  apply Finishes.ite
  · intro hplain
    refine (sendNumber_spec hn).bind ?_
    rintro - s₂ t₂ ⟨rfl, ht₂⟩
    refine (sendNumber_spec he).bind ?_
    rintro - s₃ t₃ ⟨rfl, ht₃⟩
    have hsent : sentPackets t₃ = sentPackets t ++ challengePackets host p.iscrypt pubkey out := by
      rw [ht₃, ht₂, ht₁, challengePackets, if_neg hplain]
      simp
    refine htail ?_ hsent rfl fun _ => rfl
    rfl
  · intro hcrypt
    have hsent : sentPackets t₁ = sentPackets t ++ challengePackets host p.iscrypt pubkey out := by
      rw [ht₁, challengePackets, if_pos <| not_not.mp hcrypt]
    refine htail ?_ hsent rfl fun _ => rfl
    rfl

theorem receiveNumber_spec {data : Buffer} {n : Nat} (hm : s.message 0 = some data) (hne : data ≠ [])
    (hn : host.crypto.mpi2bn data = some n) :
    host.receiveNumber.Finishes s t fun r s' t' => r = some n ∧ s' = { s with inbox := s.inbox.tail } ∧ t' = t := by
  refine receiveTransaction_spec.bind ?_
  rintro r s' _ ⟨hr, rfl, rfl⟩
  rw [hr, hm]
  exact finishes_pure ⟨(if_neg hne).trans hn, rfl, rfl⟩

theorem message_tail {i : Nat} : ServerState.message { s with inbox := s.inbox.tail } i = s.message (i + 1) := by
  rw [ServerState.message, ServerState.message, List.getElem?_tail]

theorem receiveKey_spec {n e : Buffer} (hn : s.message 0 = some n) (he : s.message 1 = some e) (hn0 : n ≠ []) (he0 : e ≠ [])
    (hkn : host.crypto.mpi2bn n = some key.n) (hke : host.crypto.mpi2bn e = some key.e) :
    host.receiveKey.Finishes s t fun r s' t' => r = some key ∧ s' = { s with inbox := s.inbox.tail.tail } ∧ t' = t := by
  refine (receiveNumber_spec hn hn0 hkn).bind ?_
  rintro - s₁ _ ⟨rfl, rfl, rfl⟩
  refine (receiveNumber_spec (message_tail.trans he) he0 hke).bind ?_
  rintro - s₂ _ ⟨rfl, rfl, rfl⟩
  exact finishes_pure ⟨rfl, rfl, rfl⟩

end ServerHost

-- The two sides use the same library, in which keys can be sent and what has been encrypted for one of them can be
-- decrypted by it. The agent knows no other key of the server than its own one, and the challenges are numbers of
-- 256 bits.
structure Acquainted (agent : Agent) (host : ServerHost) (now : Surroundings) (ka ks : RsaKey) : Prop where
  agentKey     : agent.pubkey = some ka
  hostKey      : host.pubkey = some ks
  serverKey    : ∀ key ∈ agent.server_pubkey, key = ks
  encoded      : ∀ n, host.crypto.mpi2bn (host.crypto.bn2mpi n) = some n
  numbers      : ∀ n ∈ [ka.n, ka.e, ks.n, ks.e], ServerHost.FitsNumber host n
  nonces       : (host.crypto.bn2mpi agent.nonce).length = 37
  challenges   : (host.crypto.bn2mpi now.challenge).length = 37
  session_key  : agent.session_key.length = cfBlowfishSize
  digests      : ∀ data, (host.crypto.hashString data).length = cfMd5Len
  serverCrypt  : ∀ text, text.length + 11 ≤ host.crypto.rsaSize ks →
    ∃ out, host.crypto.publicEncrypt ks text = some out ∧ host.crypto.privateDecrypt out = some text
  agentCrypt   : ∀ text, text.length + 11 ≤ host.crypto.rsaSize ka →
    ∃ out, host.crypto.publicEncrypt ka text = some out ∧ agent.privateDecrypt out = some text
  serverSize   : 48 ≤ host.crypto.rsaSize ks ∧ host.crypto.rsaSize ks ≤ 2 * cfNonceLen
  agentSize    : 48 ≤ host.crypto.rsaSize ka ∧ host.crypto.rsaSize ka ≤ cfBufSize - cfInbandOffset

namespace Acquainted

variable {agent : Agent} {host : ServerHost} {now : Surroundings} {s : ServerState} {t : List Event} {ka ks : RsaKey}
  {out cout : Buffer}

theorem length_challengeText (h : Acquainted agent host now ka ks)
    (hout : agent.challengeText host.crypto (host.crypto.bn2mpi agent.nonce) = some out) :
    37 ≤ out.length ∧ out.length ≤ 2 * cfNonceLen := by
  unfold Agent.challengeText at hout
  split at hout
  case h_1         =>
    cases hout
    rw [h.nonces, cfNonceLen]
    omega
  case h_2 key hkey =>
    have hlen := host.crypto.publicEncrypt_length _ _ _ hout
    have hsize := h.serverSize
    rw [h.serverKey key hkey] at hlen
    omega

-- The challenge comes to the server.
theorem decryptNonce_eq (h : Acquainted agent host now ka ks)
    (hout : agent.challengeText host.crypto (host.crypto.bn2mpi agent.nonce) = some out) :
    ∃ nonce, host.decryptNonce now ⟨"SAUTH".toList, [agent.iscrypt], out.length, 37, 'c'⟩
        (agent.openingPacket out 37) = some nonce ∧ nonce.take 37 = host.crypto.bn2mpi agent.nonce := by
  have hbytes {k : Nat} (hk : out.length = k) : bytesFrom out k = out := by
    rw [bytesFrom]
    exact List.take_left' hk
  unfold Agent.challengeText at hout
  split at hout
  case h_1 hkey     =>
    cases hout
    have hplain : [agent.iscrypt] ≠ ['y'] := by
      rw [Agent.iscrypt, if_pos hkey]
      decide
    refine ⟨host.crypto.bn2mpi agent.nonce, ?_, List.take_of_length_le h.nonces.le⟩
    unfold ServerHost.decryptNonce
    dsimp only
    rw [if_neg hplain, if_neg <| Nat.not_lt.mpr h.nonces.ge, drop_openingPacket, hbytes h.nonces]
  case h_2 key hkey =>
    cases h.serverKey key hkey
    have hcrypt : [agent.iscrypt] = ['y'] := by
      rw [Agent.iscrypt, hkey]
      rfl
    have hsize := h.serverSize
    obtain ⟨out', hout', hdecrypt⟩ := h.serverCrypt (host.crypto.bn2mpi agent.nonce) <| by
      rw [h.nonces]
      omega
    cases hout.symm.trans hout'
    refine ⟨overwrite (host.crypto.bn2mpi agent.nonce) now.leftData, ?_, List.take_left' h.nonces⟩
    unfold ServerHost.decryptNonce
    dsimp only
    have hne : host.crypto.bn2mpi agent.nonce ≠ [] := List.ne_nil_of_length_pos <| h.nonces ▸ Nat.succ_pos 36
    rw [if_pos hcrypt, drop_openingPacket, hbytes rfl, ServerHost.rsaPrivateDecrypt_eq hdecrypt hne]
    rfl

-- Whether the server goes on after it has looked at the key of the agent.
def Proceeds (host : ServerHost) (now : Surroundings) (s : ServerState) (ka : RsaKey) : Prop :=
  (host.storedKey now s ka).isSome = true ∨ s.conn.trust = true

instance : Decidable (Proceeds host now s ka) :=
  inferInstanceAs <| Decidable (_ ∨ _)

-- All that the server sends, whatever comes after the key of the agent.
def serverPackets (agent : Agent) (host : ServerHost) (now : Surroundings) (s : ServerState) (ka ks : RsaKey)
    (cout : Buffer) : List Buffer :=
  ServerHost.keyAnswer (host.storedKey now s ka) :: if Proceeds host now s ka then
    host.crypto.hashString (host.crypto.bn2mpi agent.nonce) :: host.challengePackets [agent.iscrypt] ks cout else []

theorem authenticationDialogue_spec (h : Acquainted agent host now ka ks)
    (hout : agent.challengeText host.crypto (host.crypto.bn2mpi agent.nonce) = some out)
    (hcout : host.crypto.publicEncrypt ka (host.crypto.bn2mpi now.challenge) = some cout)
    (hn : s.message 0 = some (host.crypto.bn2mpi ka.n)) (he : s.message 1 = some (host.crypto.bn2mpi ka.e)) :
    (host.authenticationDialogue now <| agent.openingPacket out 37).Finishes s t fun r s' t' =>
      sentPackets t' = sentPackets t ++ serverPackets agent host now s ka ks cout ∧
        (r = true ↔ Proceeds host now s ka ∧ (host.agreedKey now cout (s.message 2) (s.message 3)).isSome = true) ∧
          (r = true → s'.conn.session_key = host.agreedKey now cout (s.message 2) (s.message 3) ∧
            s'.conn.rsa_auth = true) := by
  obtain ⟨hlow, hhigh⟩ := h.length_challengeText hout
  have hscan : ServerHost.scanProposal (Buffer.toCString <| agent.openingPacket out 37) =
      ⟨"SAUTH".toList, [agent.iscrypt], out.length, 37, 'c'⟩ := by
    rw [toCString_openingPacket (hhigh.trans_lt <| by decide) (by decide),
      scanProposal_sauthText (hhigh.trans_lt <| by decide) (by decide)]
  have hproper : ServerHost.Proposal.isProper ⟨"SAUTH".toList, [agent.iscrypt], out.length, 37, 'c'⟩
      (agent.openingPacket out 37).length = true := by
    rw [length_openingPacket]
    apply decide_eq_true
    exact ⟨Nat.lt_of_lt_of_le (by decide) hlow, Nat.succ_pos 36, show 37 ≤ 2 * cfNonceLen by decide, hhigh,
      Nat.add_le_add_left hlow _, rfl⟩
  obtain ⟨nonce, hnonce, htake⟩ := h.decryptNonce_eq hout
  obtain ⟨hpos, hsize⟩ := h.agentSize
  have hne (n : Nat) (hn : n ∈ [ka.n, ka.e, ks.n, ks.e]) : host.crypto.bn2mpi n ≠ [] :=
    List.ne_nil_of_length_pos (h.numbers n hn).left
  unfold ServerHost.authenticationDialogue
  rw [h.hostKey]
  dsimp only
  rw [hscan]
  apply Finishes.ite
  · exact fun hlong => absurd hlong <| show ¬10 ≤ ("SAUTH".toList).length by decide
  · intro _
    apply Finishes.ite
    · exact fun hnot => absurd hproper hnot
    · intro _
      rw [hnonce]
      refine (ServerHost.receiveKey_spec hn he (hne ka.n List.mem_cons_self) (hne ka.e <| .tail _ <| .head _)
        (h.encoded ka.n) (h.encoded ka.e)).bind ?_
      rintro - s₁ _ ⟨rfl, rfl, rfl⟩
      apply finishes_modify_bind
      apply finishes_get_bind
      refine (ServerHost.checkStoreKey_spec rfl).bind ?_
      rintro known s₂ t₂ ⟨hknown, hin, htrust, hsent⟩
      have hknown : host.storedKey now s ka = known := hknown.symm
      apply finishes_get_bind
      apply Finishes.ite
      · rintro ⟨rfl, hnot⟩
        have hstops : ¬Proceeds host now s ka := by
          rintro (hsome | htrusted)
          · rw [hknown] at hsome
            cases hsome
          · exact hnot <| (htrust rfl).trans htrusted
        apply finishes_pure
        rw [serverPackets, hknown, if_neg hstops, hsent]
        exact ⟨rfl, ⟨nofun, fun hr => absurd hr.left hstops⟩, nofun⟩
      · intro hgo
        have hproceeds : Proceeds host now s ka := by
          rw [Proceeds, hknown]
          cases known
          case none   => exact .inr <| (htrust rfl).symm.trans <| not_not.mp fun hnot => hgo ⟨rfl, hnot⟩
          case some _ => exact .inl rfl
        refine (Serving.sendTransaction_spec (by decide) (by decide)).bind ?_
        rintro - s₃ t₃ ⟨rfl, ht₃⟩
        have hmessage {i : Nat} : s₂.message i = s.message (i + 2) := by
          rw [ServerState.message, hin, List.getElem?_tail, List.getElem?_tail]
          rfl
        refine (ServerHost.challengeClient_spec hcout (Nat.lt_of_lt_of_le (by decide) hpos) hsize
          (h.numbers _ <| .tail _ <| .tail _ <| .head _) (h.numbers _ <| .tail _ <| .tail _ <| .tail _ <| .head _)).imp ?_
        rintro r s₄ t₄ ⟨hpackets, hr, hkey⟩
        have hagreed : host.agreedKey now cout (s₂.message 0) (s₂.message 1) =
            host.agreedKey now cout (s.message 2) (s.message 3) := by
          rw [hmessage, hmessage]
        have hr : r = (host.agreedKey now cout (s₂.message 0) (s₂.message 1)).isSome := hr
        have hkey : r = true → s₄.conn.session_key = host.agreedKey now cout (s₂.message 0) (s₂.message 1) ∧
          s₄.conn.rsa_auth = true := hkey
        have hdigest : (host.crypto.hashString (host.crypto.bn2mpi agent.nonce)).take cfMd5Len =
            host.crypto.hashString (host.crypto.bn2mpi agent.nonce) := List.take_of_length_le (h.digests _).le
        rw [hagreed] at hr hkey
        refine ⟨?_, ?_, hkey⟩
        · rw [hpackets, ht₃, hsent, htake, hdigest, serverPackets, hknown, if_pos hproceeds]
          simp
        · rw [hr]
          exact ⟨fun hs => ⟨hproceeds, hs⟩, And.right⟩

end Acquainted

namespace Agent

variable {crypto : Crypto} {agent : Agent} {inbox : List Buffer} {t t₀ : List Buffer} {ka ks : RsaKey}
  {nonce out digest : Buffer} {nonce_len : Nat}

theorem receiveTransaction_spec : Speaking.receiveTransaction.Finishes inbox t fun r inbox' t' =>
    r = inbox.head? ∧ inbox' = inbox.tail ∧ t' = t := by
  cases inbox
  case nil  => exact ⟨_, rfl, rfl, rfl, rfl⟩
  case cons => exact ⟨_, rfl, rfl, rfl, rfl⟩

-- What has been sent before.
def SentAfter (t₀ : List Buffer) (_ : List Buffer) (t : List Buffer) : Prop :=
  ∃ new, t = new ++ t₀

theorem keeps_sendTransaction {payload : Buffer} {len : Nat} :
    Keeps (SentAfter t₀) (Speaking.sendTransaction payload len) :=
  keeps_emit fun _ _ ⟨new, h⟩ => ⟨_ :: new, congrArg _ h⟩

theorem keeps_receiveTransaction : Keeps (SentAfter t₀) Speaking.receiveTransaction := by
  refine keeps_get.bind fun inbox => ?_
  cases inbox
  case nil  => exact keeps_pure
  case cons => exact fun _ _ h => h

theorem keeps_receiveNumber : Keeps (SentAfter t₀) (receiveNumber crypto) := by
  refine keeps_receiveTransaction.bind fun data => ?_
  rcases data with _ | _ | ⟨c, data⟩
  all_goals exact keeps_pure

theorem keeps_collectKey : Keeps (SentAfter t₀) (agent.collectKey crypto) := by
  unfold collectKey
  cases agent.server_pubkey
  case some key => exact keeps_pure
  case none     =>
    refine keeps_receiveNumber.bind fun n => ?_
    cases n
    case none   => exact keeps_pure
    case some n => exact keeps_receiveNumber.bind fun _ => keeps_pure

theorem keeps_answerChallenge : Keeps (SentAfter t₀) (agent.answerChallenge crypto nonce_len) := by
  refine keeps_receiveTransaction.bind fun input => ?_
  cases input
  case none       => exact keeps_pure
  case some input =>
    refine .ite (fun _ => keeps_pure) fun _ => ?_
    cases agent.privateDecrypt input
    case none                  => exact keeps_pure
    case some decrypted_cchall =>
      refine .ite (fun _ => keeps_pure) fun _ => ?_
      refine keeps_sendTransaction.bind fun _ => keeps_collectKey.bind fun key => ?_
      cases key
      case none     => exact keeps_pure
      case some key =>
        unfold sendSessionKey
        dsimp only
        cases crypto.publicEncrypt key agent.session_key
        case none   => exact keeps_pure
        case some _ => exact keeps_sendTransaction.bind fun _ => keeps_pure

theorem keeps_checkServer : Keeps (SentAfter t₀) (agent.checkServer digest) := by
  refine keeps_receiveTransaction.bind fun input => ?_
  cases input
  case none       => exact keeps_pure
  case some input =>
    refine .ite (fun _ => keeps_pure) fun _ => keeps_receiveTransaction.bind fun input => ?_
    cases input
    case none   => exact keeps_pure
    case some _ => exact .ite (fun _ => keeps_pure) fun _ => keeps_pure

-- The first three messages, the latest one first.
def openingEvents (crypto : Crypto) (agent : Agent) (ka : RsaKey) (out : Buffer) : List Buffer :=
  [crypto.bn2mpi ka.e, crypto.bn2mpi ka.n, agent.openingPacket out (crypto.bn2mpi agent.nonce).length]

-- What the agent does after the opening.
def afterOpening (crypto : Crypto) (agent : Agent) : Speaking Bool := do
  if ← agent.checkServer <| crypto.hashString <| crypto.bn2mpi agent.nonce then
    agent.answerChallenge crypto (crypto.bn2mpi agent.nonce).length
  else
    return false

theorem authenticateAgent_eq (hkey : agent.pubkey = some ka)
    (hout : agent.challengeText crypto (crypto.bn2mpi agent.nonce) = some out) :
    agent.authenticateAgent crypto inbox [] = afterOpening crypto agent inbox (openingEvents crypto agent ka out) := by
  have hlen := @length_openingPacket (crypto.bn2mpi agent.nonce).length agent out
  have htake : (agent.openingPacket out (crypto.bn2mpi agent.nonce).length).take (cfRsaProtoOffset + out.length) =
      agent.openingPacket out (crypto.bn2mpi agent.nonce).length := List.take_of_length_le hlen.le
  unfold authenticateAgent
  rw [hkey]
  dsimp only
  rw [hout]
  show afterOpening crypto agent inbox [(crypto.bn2mpi ka.e).take _, (crypto.bn2mpi ka.n).take _, _] = _
  rw [List.take_length, List.take_length, htake]
  rfl

theorem authenticateAgent_opening (hkey : agent.pubkey = some ka)
    (hout : agent.challengeText crypto (crypto.bn2mpi agent.nonce) = some out) :
    ∃ rest, (agent.authenticateAgent crypto inbox []).2.2.reverse = (openingEvents crypto agent ka out).reverse ++ rest := by
  have hkeeps : Keeps (SentAfter <| openingEvents crypto agent ka out) (afterOpening crypto agent) :=
    keeps_checkServer.bind fun ok => .ite (fun _ => keeps_answerChallenge) fun _ => keeps_pure
  obtain ⟨new, hnew⟩ := hkeeps inbox (openingEvents crypto agent ka out) ⟨[], rfl⟩
  rw [authenticateAgent_eq hkey hout, hnew, List.reverse_append]
  exact ⟨_, rfl⟩

theorem checkServer_refused : (agent.checkServer digest).Finishes (ServerHost.keyAnswer none :: inbox) t
    fun r _ t' => r = false ∧ t' = t :=
  ⟨_, rfl, rfl, rfl⟩

theorem checkServer_answered {known : Bool} :
    (agent.checkServer digest).Finishes (ServerHost.keyAnswer (some known) :: digest :: inbox) t fun r inbox' t' =>
      (r = true ↔ agent.server_pubkey.isSome = true ∨ agent.trust_key = true) ∧ inbox' = inbox ∧ t' = t := by
  have hgood : ¬badProtoReply (ServerHost.keyAnswer (some known)) = true := by
    rw [ServerHost.badProtoReply_keyAnswer]
    exact Bool.false_ne_true
  have hmatch : hashesMatch digest digest = true := decide_eq_true rfl
  refine receiveTransaction_spec.bind ?_
  rintro _ _ _ ⟨rfl, rfl, rfl⟩
  refine .ite (fun hbad => absurd hbad hgood) fun _ => receiveTransaction_spec.bind ?_
  rintro _ _ _ ⟨rfl, rfl, rfl⟩
  exact .ite (fun hwrong => absurd hmatch hwrong) fun _ => finishes_pure ⟨decide_eq_true_iff, rfl, rfl⟩

end Agent

namespace Acquainted

variable {agent : Agent} {host : ServerHost} {now : Surroundings} {s : ServerState} {t : List Buffer} {ka ks : RsaKey}
  {out cout sout : Buffer}

theorem collectKey_spec (h : Acquainted agent host now ka ks) :
    (agent.collectKey host.crypto).Finishes (host.challengePackets [agent.iscrypt] ks cout).tail t fun r _ t' =>
      r = some ks ∧ t' = t := by
  have hnumber {n : Nat} (hn : n ∈ [ka.n, ka.e, ks.n, ks.e]) {inbox t : List Buffer} :
      (Agent.receiveNumber host.crypto).Finishes (host.crypto.bn2mpi n :: inbox) t fun r inbox' t' =>
        r = some n ∧ inbox' = inbox ∧ t' = t := by
    obtain ⟨c, cs, hcs⟩ := List.exists_cons_of_length_pos (h.numbers n hn).left
    have hencoded := h.encoded n
    rw [hcs] at hencoded ⊢
    exact ⟨_, rfl, hencoded, rfl, rfl⟩
  unfold Agent.collectKey ServerHost.challengePackets
  cases hkey : agent.server_pubkey
  case some key =>
    cases h.serverKey key hkey
    exact finishes_pure ⟨rfl, rfl⟩
  case none     =>
    have hplain : [agent.iscrypt] ≠ ['y'] := by
      rw [Agent.iscrypt, if_pos hkey]
      decide
    rw [if_neg hplain]
    refine (hnumber <| .tail _ <| .tail _ <| .head _).bind ?_
    rintro _ _ _ ⟨rfl, rfl, rfl⟩
    refine (hnumber <| .tail _ <| .tail _ <| .tail _ <| .head _).bind ?_
    rintro _ _ _ ⟨rfl, rfl, rfl⟩
    exact finishes_pure ⟨rfl, rfl⟩

theorem answerChallenge_spec (h : Acquainted agent host now ka ks)
    (hcout : host.crypto.publicEncrypt ka (host.crypto.bn2mpi now.challenge) = some cout)
    (hsout : host.crypto.publicEncrypt ks agent.session_key = some sout) :
    (agent.answerChallenge host.crypto 37).Finishes (host.challengePackets [agent.iscrypt] ks cout) t fun r _ t' =>
      r = true ∧ t' = sout :: host.crypto.hashString (host.crypto.bn2mpi now.challenge) :: t := by
  obtain ⟨hlow, hhigh⟩ := h.agentSize
  have hlen := host.crypto.publicEncrypt_length _ _ _ hcout
  have hslen := host.crypto.publicEncrypt_length _ _ _ hsout
  have hne : cout ≠ [] := List.ne_nil_of_length_pos <| by omega
  have hcne : host.crypto.bn2mpi now.challenge ≠ [] := List.ne_nil_of_length_pos <| by
    rw [h.challenges]
    decide
  obtain ⟨cout', hcout', hdecrypt⟩ := h.agentCrypt (host.crypto.bn2mpi now.challenge) <| by
    rw [h.challenges]
    omega
  cases hcout.symm.trans hcout'
  have htake : (overwrite (host.crypto.bn2mpi now.challenge) agent.left).take 37 = host.crypto.bn2mpi now.challenge :=
    List.take_left' h.challenges
  have hdigest : (host.crypto.hashString (host.crypto.bn2mpi now.challenge)).take cfMd5Len =
      host.crypto.hashString (host.crypto.bn2mpi now.challenge) := List.take_of_length_le (h.digests _).le
  have hstake : sout.take (host.crypto.rsaSize ks) = sout := List.take_of_length_le hslen.le
  refine Agent.receiveTransaction_spec.bind ?_
  rintro _ _ _ ⟨rfl, rfl, rfl⟩
  refine .ite (fun hnil => absurd hnil hne) fun _ => ?_
  rw [hdecrypt]
  refine .ite (fun hnil => absurd hnil hcne) fun _ => ?_
  apply finishes_emit_bind
  rw [htake, hdigest]
  refine h.collectKey_spec.bind ?_
  rintro _ _ _ ⟨rfl, rfl⟩
  unfold Agent.sendSessionKey
  dsimp only
  rw [hsout]
  apply finishes_emit_bind
  rw [hstake]
  exact finishes_pure ⟨rfl, rfl⟩

end Acquainted

-- What the server does with the messages of the agent, of which the first one opens the dialogue.
def ServerHost.dialogue (host : ServerHost) (now : Surroundings) (s : ServerState) :
    List Packet → Option Bool × ServerState × List Event
  | []            => (some false, s, [])
  | first :: rest => host.authenticationDialogue now first.data { s with inbox := rest.map some } []

-- The messages in the two directions, where each side sends what it sends when it gets the messages of the other one.
structure Transcript (agent : Agent) (host : ServerHost) (now : Surroundings) (s : ServerState) (toServer : List Packet)
    (toAgent : List Buffer) : Prop where
  agent  : (agent.authenticateAgent host.crypto toAgent []).2.2.reverse = toServer.map Packet.data
  server : sentPackets (host.dialogue now s toServer).2.2 = toAgent

-- The server accepts the key of the agent, and the agent that of the server.
def Agrees (agent : Agent) (host : ServerHost) (now : Surroundings) (s : ServerState) (ka : RsaKey) : Prop :=
  (host.storedKey now s ka).isSome = true ∧ (agent.server_pubkey.isSome = true ∨ agent.trust_key = true)

namespace Acquainted

variable {agent : Agent} {host : ServerHost} {now : Surroundings} {s : ServerState} {ka ks : RsaKey} {cout sout : Buffer}
  {toServer : List Packet} {toAgent : List Buffer}

instance : Decidable (Agrees agent host now s ka) :=
  inferInstanceAs <| Decidable (_ ∧ _)

-- The last messages of the agent, the latest one first.
def closingEvents (agent : Agent) (host : ServerHost) (now : Surroundings) (s : ServerState) (ka : RsaKey) (sout : Buffer) :
    List Buffer :=
  if Agrees agent host now s ka then [sout, host.crypto.hashString (host.crypto.bn2mpi now.challenge)] else []

theorem afterOpening_spec (h : Acquainted agent host now ka ks)
    (hcout : host.crypto.publicEncrypt ka (host.crypto.bn2mpi now.challenge) = some cout)
    (hsout : host.crypto.publicEncrypt ks agent.session_key = some sout) {t : List Buffer} :
    (Agent.afterOpening host.crypto agent).Finishes (serverPackets agent host now s ka ks cout) t fun r _ t' =>
      (r = true ↔ Agrees agent host now s ka) ∧ t' = closingEvents agent host now s ka sout ++ t := by
  unfold serverPackets closingEvents
  cases hknown : host.storedKey now s ka
  case none       =>
    have hnot : ¬Agrees agent host now s ka := by
      rintro ⟨hsome, -⟩
      rw [hknown] at hsome
      cases hsome
    rw [if_neg hnot]
    refine Agent.checkServer_refused.bind ?_
    rintro _ _ _ ⟨rfl, rfl⟩
    exact finishes_pure ⟨⟨nofun, fun ha => absurd ha hnot⟩, rfl⟩
  case some known =>
    have hproceeds : Proceeds host now s ka := by
      rw [Proceeds, hknown]
      exact .inl rfl
    have hagrees : Agrees agent host now s ka ↔ agent.server_pubkey.isSome = true ∨ agent.trust_key = true := by
      rw [Agrees, hknown]
      exact and_iff_right rfl
    rw [if_pos hproceeds]
    refine Agent.checkServer_answered.bind ?_
    rintro r _ _ ⟨hr, rfl, rfl⟩
    rw [←hagrees] at hr
    refine .ite (fun hok => ?_) fun hok => ?_
    · rw [if_pos <| hr.mp hok, h.nonces]
      refine (h.answerChallenge_spec hcout hsout).imp ?_
      rintro _ _ _ ⟨rfl, rfl⟩
      exact ⟨⟨fun _ => hr.mp hok, fun _ => rfl⟩, rfl⟩
    · rw [if_neg <| mt hr.mpr hok]
      exact finishes_pure ⟨⟨nofun, fun ha => absurd (hr.mpr ha) hok⟩, rfl⟩

-- The key for the session comes to the server.
theorem agreedKey_eq (h : Acquainted agent host now ka ks)
    (hsout : host.crypto.publicEncrypt ks agent.session_key = some sout) :
    host.agreedKey now cout (some <| host.crypto.hashString <| host.crypto.bn2mpi now.challenge) (some sout) =
      some agent.session_key := by
  obtain ⟨hlow, hhigh⟩ := h.serverSize
  have hslen := host.crypto.publicEncrypt_length _ _ _ hsout
  obtain ⟨sout', hsout', hdecrypt⟩ := h.serverCrypt agent.session_key <| by
    rw [h.session_key, cfBlowfishSize]
    omega
  cases hsout.symm.trans hsout'
  have hmatch : hashesMatch (host.crypto.hashString <| host.crypto.bn2mpi now.challenge)
      (host.crypto.hashString <| host.crypto.bn2mpi now.challenge) = true := decide_eq_true rfl
  have hfits : sout.length ≤ cfBufSize / 2 := by
    rw [hslen]
    exact hhigh.trans <| by decide
  have hother : sout.length ≠ cfBlowfishSize := by
    rw [hslen, cfBlowfishSize]
    omega
  have hbytes : bytesFrom (overwrite agent.session_key cout) cfBlowfishSize = agent.session_key := by
    rw [bytesFrom, overwrite, List.append_assoc]
    exact List.take_left' h.session_key
  have hne : agent.session_key ≠ [] := List.ne_nil_of_length_pos <| h.session_key ▸ Nat.succ_pos 15
  refine (if_pos hmatch).trans <| (if_pos hfits).trans ?_
  rw [if_neg hother, ServerHost.rsaPrivateDecrypt_eq hdecrypt hne, Option.map_some, Option.map_some, hbytes]

theorem exists_challengeText (h : Acquainted agent host now ka ks) :
    ∃ out, agent.challengeText host.crypto (host.crypto.bn2mpi agent.nonce) = some out := by
  unfold Agent.challengeText
  cases hkey : agent.server_pubkey
  case none     => exact ⟨_, rfl⟩
  case some key =>
    cases h.serverKey key hkey
    obtain ⟨hlow, -⟩ := h.serverSize
    have ⟨out, hout, _⟩ := h.serverCrypt (host.crypto.bn2mpi agent.nonce) <| by
      rw [h.nonces]
      omega
    exact ⟨out, hout⟩

theorem exists_counterChallenge (h : Acquainted agent host now ka ks) :
    ∃ cout, host.crypto.publicEncrypt ka (host.crypto.bn2mpi now.challenge) = some cout := by
  obtain ⟨hlow, -⟩ := h.agentSize
  obtain ⟨cout, hcout, -⟩ := h.agentCrypt (host.crypto.bn2mpi now.challenge) <| by
    rw [h.challenges]
    omega
  exact ⟨cout, hcout⟩

theorem exists_sessionMessage (h : Acquainted agent host now ka ks) :
    ∃ sout, host.crypto.publicEncrypt ks agent.session_key = some sout := by
  obtain ⟨hlow, -⟩ := h.serverSize
  obtain ⟨sout, hsout, -⟩ := h.serverCrypt agent.session_key <| by
    rw [h.session_key, cfBlowfishSize]
    omega
  exact ⟨sout, hsout⟩

-- What the two sides have sent.
theorem transcript_messages (h : Acquainted agent host now ka ks) (htr : Transcript agent host now s toServer toAgent)
    {out : Buffer} (hout : agent.challengeText host.crypto (host.crypto.bn2mpi agent.nonce) = some out)
    (hcout : host.crypto.publicEncrypt ka (host.crypto.bn2mpi now.challenge) = some cout)
    (hsout : host.crypto.publicEncrypt ks agent.session_key = some sout) :
    toAgent = serverPackets agent host now s ka ks cout ∧ ∃ p₁ p₂ p₃ ps, toServer = p₁ :: p₂ :: p₃ :: ps ∧
      p₁.data = agent.openingPacket out 37 ∧ p₂.data = host.crypto.bn2mpi ka.n ∧ p₃.data = host.crypto.bn2mpi ka.e ∧
        ps.map Packet.data = (closingEvents agent host now s ka sout).reverse := by
  obtain ⟨rest, hrest⟩ := @Agent.authenticateAgent_opening _ _ toAgent _ out h.agentKey hout
  rw [htr.agent, Agent.openingEvents, h.nonces] at hrest
  rcases toServer with _ | ⟨p₁, _ | ⟨p₂, _ | ⟨p₃, ps⟩⟩⟩
  · simp at hrest
  · simp at hrest
  · simp at hrest
  · obtain ⟨h₁, h₂, h₃, -⟩ : p₁.data = agent.openingPacket out 37 ∧ p₂.data = host.crypto.bn2mpi ka.n ∧
        p₃.data = host.crypto.bn2mpi ka.e ∧ ps.map Packet.data = rest := by
      simpa using hrest
    obtain ⟨-, -, hpackets, -⟩ := @authenticationDialogue_spec agent host now
      { s with inbox := some p₂ :: some p₃ :: ps.map some } [] ka ks out cout h hout hcout
      (congrArg some h₂) (congrArg some h₃)
    have hreplies : toAgent = serverPackets agent host now s ka ks cout := by
      rw [←htr.server, ServerHost.dialogue, h₁]
      exact hpackets
    obtain ⟨-, -, -, hevents⟩ := h.afterOpening_spec (s := s) hcout hsout (t := Agent.openingEvents host.crypto agent ka out)
    have hsent := htr.agent
    rw [hreplies, Agent.authenticateAgent_eq h.agentKey hout, hevents, List.reverse_append, Agent.openingEvents,
      h.nonces] at hsent
    refine ⟨hreplies, p₁, p₂, p₃, ps, rfl, h₁, h₂, h₃, ?_⟩
    simpa [h₁, h₂, h₃] using hsent.symm

-- The end of the dialogue for the server.
theorem transcript_server (h : Acquainted agent host now ka ks) (htr : Transcript agent host now s toServer toAgent) :
    ((host.dialogue now s toServer).1 = some true ↔ Agrees agent host now s ka) ∧
      (Agrees agent host now s ka →
        (host.dialogue now s toServer).2.1.conn.session_key = some agent.session_key ∧
          (host.dialogue now s toServer).2.1.conn.rsa_auth = true) := by
  obtain ⟨out, hout⟩ := h.exists_challengeText
  obtain ⟨cout, hcout⟩ := h.exists_counterChallenge
  obtain ⟨sout, hsout⟩ := h.exists_sessionMessage
  obtain ⟨-, p₁, p₂, p₃, ps, rfl, h₁, h₂, h₃, hps⟩ := h.transcript_messages htr hout hcout hsout
  obtain ⟨r, hr, -, hiff, hkey⟩ := @authenticationDialogue_spec agent host now
    { s with inbox := some p₂ :: some p₃ :: ps.map some } [] ka ks out cout h hout hcout
    (congrArg some h₂) (congrArg some h₃)
  rw [ServerHost.dialogue, h₁, List.map_cons, List.map_cons, hr, Option.some.injEq, hiff]
  unfold closingEvents at hps
  by_cases ha : Agrees agent host now s ka
  case pos =>
    rw [if_pos ha] at hps
    rcases ps with _ | ⟨p₄, _ | ⟨p₅, _ | ⟨p₆, ps⟩⟩⟩
    · simp at hps
    · simp at hps
    · obtain ⟨h₄, h₅⟩ : p₄.data = host.crypto.hashString (host.crypto.bn2mpi now.challenge) ∧ p₅.data = sout := by
        simpa using hps
      have hagreed : host.agreedKey now cout (some p₄.data) (some p₅.data) = some agent.session_key := by
        rw [h₄, h₅]
        exact h.agreedKey_eq hsout
      have hend : Proceeds host now s ka ∧ (host.agreedKey now cout (some p₄.data) (some p₅.data)).isSome = true := by
        rw [hagreed]
        exact ⟨.inl ha.left, rfl⟩
      refine ⟨⟨fun _ => ha, fun _ => hend⟩, fun _ => ?_⟩
      have hkey := hkey <| hiff.mpr hend
      exact ⟨hkey.left.trans hagreed, hkey.right⟩
    · simp at hps
  case neg =>
    rw [if_neg ha, List.reverse_nil, List.map_eq_nil_iff] at hps
    subst hps
    refine ⟨⟨fun hend => absurd hend.right Bool.false_ne_true, fun hagrees => absurd hagrees ha⟩, fun hagrees => ?_⟩
    exact absurd hagrees ha

-- And for the agent.
theorem transcript_agent (h : Acquainted agent host now ka ks) (htr : Transcript agent host now s toServer toAgent) :
    (agent.authenticateAgent host.crypto toAgent []).1 = some true ↔ Agrees agent host now s ka := by
  obtain ⟨out, hout⟩ := h.exists_challengeText
  obtain ⟨cout, hcout⟩ := h.exists_counterChallenge
  obtain ⟨sout, hsout⟩ := h.exists_sessionMessage
  obtain ⟨hreplies, -⟩ := h.transcript_messages htr hout hcout hsout
  obtain ⟨r, hr, hagent, -⟩ := h.afterOpening_spec (s := s) hcout hsout (t := Agent.openingEvents host.crypto agent ka out)
  rw [hreplies, Agent.authenticateAgent_eq h.agentKey hout, hr, Option.some.injEq]
  exact hagent

-- In every run of the dialogue, both sides come to the same conclusion, and if they agree, they have the same key.
theorem transcript_agrees (h : Acquainted agent host now ka ks) (htr : Transcript agent host now s toServer toAgent) :
    ((agent.authenticateAgent host.crypto toAgent []).1 = some true ↔ Agrees agent host now s ka) ∧
      ((host.dialogue now s toServer).1 = some true ↔ Agrees agent host now s ka) ∧
      (Agrees agent host now s ka →
        (host.dialogue now s toServer).2.1.conn.session_key = some agent.session_key ∧
          (host.dialogue now s toServer).2.1.conn.rsa_auth = true) :=
  ⟨h.transcript_agent htr, h.transcript_server htr⟩

theorem exists_packets {messages : List Buffer} (hlen : ∀ data ∈ messages, data.length ≤ cfBufSize - cfInbandOffset) :
    ∃ packets : List Packet, packets.map Packet.data = messages := by
  induction messages
  case nil                   => exact ⟨[], rfl⟩
  case cons data messages ih =>
    obtain ⟨packets, hpackets⟩ := ih fun d hd => hlen d <| List.mem_cons_of_mem _ hd
    exact ⟨⟨data, hlen data List.mem_cons_self⟩ :: packets, congrArg _ hpackets⟩

-- The dialogue takes place.
theorem exists_transcript (h : Acquainted agent host now ka ks) :
    ∃ toServer toAgent, Transcript agent host now s toServer toAgent := by
  obtain ⟨out, hout⟩ := h.exists_challengeText
  obtain ⟨cout, hcout⟩ := h.exists_counterChallenge
  obtain ⟨sout, hsout⟩ := h.exists_sessionMessage
  obtain ⟨hlow, hhigh⟩ := h.length_challengeText hout
  obtain ⟨-, hsize⟩ := h.serverSize
  have hslen := host.crypto.publicEncrypt_length _ _ _ hsout
  have hopening : ∀ data ∈ (Agent.openingEvents host.crypto agent ka out).reverse, data.length ≤ cfBufSize - cfInbandOffset := by
    simp only [Agent.openingEvents, List.mem_reverse, List.forall_mem_cons]
    refine ⟨(h.numbers ka.e <| .tail _ <| .head _).right, (h.numbers ka.n <| .head _).right, ?_, nofun⟩
    rw [length_openingPacket]
    exact (Nat.add_le_add_left hhigh _).trans <| by decide
  have hclosing : ∀ data ∈ (closingEvents agent host now s ka sout).reverse, data.length ≤ cfBufSize - cfInbandOffset := by
    intro data hdata
    rw [List.mem_reverse, closingEvents] at hdata
    split at hdata
    case isFalse => cases hdata
    case isTrue  =>
      rcases List.mem_cons.mp hdata with rfl | hdata
      · rw [hslen]
        exact hsize.trans <| by decide
      · rw [List.mem_singleton.mp hdata, h.digests]
        decide
  obtain ⟨first, hfirst⟩ := exists_packets hopening
  obtain ⟨last, hlast⟩ := exists_packets hclosing
  obtain ⟨r, hr, -, hevents⟩ := h.afterOpening_spec (s := s) hcout hsout (t := Agent.openingEvents host.crypto agent ka out)
  refine ⟨first ++ last, serverPackets agent host now s ka ks cout, ?_, ?_⟩
  · rw [Agent.authenticateAgent_eq h.agentKey hout, hevents, List.reverse_append, List.map_append, hfirst, hlast]
  · rw [Agent.openingEvents, h.nonces] at hfirst
    rcases first with _ | ⟨p₁, _ | ⟨p₂, _ | ⟨p₃, _ | ⟨p₄, ps⟩⟩⟩⟩
    · simp at hfirst
    · simp at hfirst
    · simp at hfirst
    · obtain ⟨h₁, h₂, h₃⟩ : p₁.data = agent.openingPacket out 37 ∧ p₂.data = host.crypto.bn2mpi ka.n ∧
          p₃.data = host.crypto.bn2mpi ka.e := by
        simpa using hfirst
      obtain ⟨-, -, hpackets, -⟩ := @authenticationDialogue_spec agent host now
        { s with inbox := some p₂ :: some p₃ :: last.map some } [] ka ks out cout h hout hcout
        (congrArg some h₂) (congrArg some h₃)
      rw [List.cons_append, ServerHost.dialogue, h₁]
      exact hpackets
    · simp at hfirst

end Acquainted

-- A library for examples: numbers are written in bytes, and a text is encrypted by what fills it up to the size of the key.
def bytesOf (n : Nat) : Buffer :=
  List.replicate 4 '\x00' ++ (Nat.digits 256 n).map Char.ofNat

def numberOf (data : Buffer) : Option Nat :=
  if ∀ c ∈ data, c.toNat < 256 then some <| Nat.ofDigits 256 <| (data.drop 4).map Char.toNat else none

def filledUp (size : Nat) (text : Buffer) : Option Buffer :=
  if text.length + 11 ≤ size ∧ size ≤ 512 then
    some <| text ++ List.replicate (size - text.length) (Char.ofNat <| size - text.length)
  else
    none

def unfilled (out : Buffer) : Option Buffer :=
  some <| out.take <| out.length - (out.getLast?.getD '\x00').toNat

section
variable {n k size : Nat} {data text : Buffer}

theorem toNat_ofNat_of_le (h : n ≤ 512) : (Char.ofNat n).toNat = n := by
  have hvalid : n.isValidChar := .inl <| by omega
  rw [Char.ofNat, dif_pos hvalid]
  rfl

theorem length_bytesOf_le (h : n < 256 ^ k) : (bytesOf n).length ≤ k + 4 := by
  have hdigits := (Nat.digits_length_le_iff (by decide) n).mpr h
  rw [bytesOf, List.length_append, List.length_replicate, List.length_map]
  omega

theorem length_bytesOf_pow : (bytesOf (256 ^ k)).length = k + 5 := by
  have hle := (Nat.digits_length_le_iff (by decide) (256 ^ k)).mpr <| Nat.pow_lt_pow_right (by decide) k.lt_succ_self
  have hlt := mt (Nat.digits_length_le_iff (by decide) (256 ^ k)).mp <| Nat.lt_irrefl (256 ^ k)
  rw [bytesOf, List.length_append, List.length_replicate, List.length_map]
  omega

theorem numberOf_bytesOf : numberOf (bytesOf n) = some n := by
  have hdigits : ∀ d ∈ Nat.digits 256 n, (Char.ofNat d).toNat = d := by
    intro d hd
    have hlt := Nat.digits_lt_base (by decide) hd
    exact toNat_ofNat_of_le <| by omega
  have hbytes : ∀ c ∈ bytesOf n, c.toNat < 256 := by
    intro c hc
    rcases List.mem_append.mp hc with hc | hc
    · rw [List.eq_of_mem_replicate hc]
      decide
    · obtain ⟨d, hd, rfl⟩ := List.mem_map.mp hc
      rw [hdigits d hd]
      exact Nat.digits_lt_base (by decide) hd
  have hmap : (Nat.digits 256 n).map (Char.toNat ∘ Char.ofNat) = Nat.digits 256 n :=
    List.map_congr_left hdigits |>.trans <| List.map_id _
  rw [numberOf, if_pos hbytes, bytesOf, List.drop_left' List.length_replicate, List.map_map, hmap, Nat.ofDigits_digits]

theorem length_digits_of_numberOf (h : numberOf data = some n) : (Nat.digits 256 n).length ≤ data.length := by
  obtain ⟨hbytes, hn⟩ := Option.ite_none_right_eq_some.mp h
  cases Option.some.inj hn
  have hlt : Nat.ofDigits 256 ((data.drop 4).map Char.toNat) < 256 ^ ((data.drop 4).map Char.toNat).length := by
    apply Nat.ofDigits_lt_base_pow_length (by decide)
    intro d hd
    obtain ⟨c, hc, rfl⟩ := List.mem_map.mp hd
    exact hbytes c <| List.mem_of_mem_drop hc
  have hdigits := (Nat.digits_length_le_iff (by decide) _).mpr hlt
  rw [List.length_map, List.length_drop] at hdigits
  exact hdigits.trans <| Nat.sub_le ..

theorem unfilled_filledUp (h : text.length + 11 ≤ size) (hsize : size ≤ 512) :
    ∃ out, filledUp size text = some out ∧ unfilled out = some text := by
  refine ⟨_, if_pos ⟨h, hsize⟩, ?_⟩
  have hpos : size - text.length ≠ 0 := by omega
  have hfill := @toNat_ofNat_of_le (size - text.length) <| by omega
  rw [unfilled, List.getLast?_append, List.getLast?_replicate, if_neg hpos, Option.some_or, Option.getD_some, hfill,
    List.length_append, List.length_replicate, Nat.add_sub_cancel, List.take_left]

end

def Crypto.numbered : Crypto where
  __             := Crypto.padding
  privateDecrypt := unfilled
  publicEncrypt  := fun key => filledUp (Nat.digits 256 key.n).length
  mpi2bn         := numberOf
  bn2mpi         := bytesOf
  rsaSize        := fun key => (Nat.digits 256 key.n).length
  rsaSize_le     := fun _ _ _ => length_digits_of_numberOf
  bn2mpi_length  := fun _ _ h => (length_bytesOf_le h).trans <| Nat.le_succ _
  publicEncrypt_length := by
    intro key data out h
    obtain ⟨hle, hout⟩ := Option.ite_none_right_eq_some.mp h
    cases Option.some.inj hout
    rw [List.length_append, List.length_replicate]
    omega

-- Both sides have the same key, which they know of each other.
def commonKey : RsaKey :=
  ⟨256 ^ 49, 3⟩

def numberedHost : ServerHost where
  __        := publicHost
  crypto    := .numbered
  pubkey    := some commonKey
  pubkey_lt := by
    intro key hkey
    cases Option.some.inj hkey
    exact ⟨Nat.pow_lt_pow_right (by decide) (by decide), Nat.lt_pow_self (by decide) |>.trans_le' (by decide)⟩

def knownAgent : Agent :=
  ⟨unfilled, some commonKey, some commonKey, false, 256 ^ 32, List.replicate 16 'k', []⟩

def knownSurroundings : Surroundings :=
  { Surroundings.calm with challenge := 256 ^ 32, havePublicKey := fun _ _ _ => some commonKey }

theorem length_digits_commonKey : (Nat.digits 256 commonKey.n).length = 50 := by
  have hlen := @length_bytesOf_pow 49
  rw [bytesOf, List.length_append, List.length_replicate, List.length_map] at hlen
  exact Nat.add_left_cancel hlen

theorem acquainted_known : Acquainted knownAgent numberedHost knownSurroundings commonKey commonKey where
  agentKey     := rfl
  hostKey      := rfl
  serverKey    := fun _ hkey => (Option.some.inj hkey).symm
  encoded      := fun _ => numberOf_bytesOf
  numbers      := by
    have hn : ServerHost.FitsNumber numberedHost (256 ^ 49) := by
      change 0 < (bytesOf _).length ∧ (bytesOf _).length ≤ _
      rw [length_bytesOf_pow]
      decide
    have he : ServerHost.FitsNumber numberedHost 3 := by
      have hle := @length_bytesOf_le 3 1 <| by decide
      change 0 < (bytesOf _).length ∧ (bytesOf _).length ≤ _
      refine ⟨?_, hle.trans <| by decide⟩
      rw [bytesOf, List.length_append, List.length_replicate]
      omega
    simp only [List.forall_mem_cons]
    exact ⟨hn, he, hn, he, fun _ hn => (List.not_mem_nil hn).elim⟩
  nonces       := length_bytesOf_pow
  challenges   := length_bytesOf_pow
  session_key  := rfl
  digests      := fun _ => rfl
  serverCrypt  := fun _ h => unfilled_filledUp h <| by
    rw [length_digits_commonKey]
    decide
  agentCrypt   := fun _ h => unfilled_filledUp h <| by
    rw [length_digits_commonKey]
    decide
  serverSize   := by
    change 48 ≤ (Nat.digits 256 _).length ∧ (Nat.digits 256 _).length ≤ _
    rw [length_digits_commonKey]
    decide
  agentSize    := by
    change 48 ≤ (Nat.digits 256 _).length ∧ (Nat.digits 256 _).length ≤ _
    rw [length_digits_commonKey]
    decide

theorem transcript_agrees_known : ∃ toServer toAgent,
    Transcript knownAgent numberedHost knownSurroundings (publicState 1) toServer toAgent ∧
      (knownAgent.authenticateAgent Crypto.numbered toAgent []).1 = some true := by
  obtain ⟨toServer, toAgent, htr⟩ := acquainted_known.exists_transcript (s := publicState 1)
  exact ⟨toServer, toAgent, htr, acquainted_known.transcript_agrees htr |>.left.mpr ⟨rfl, .inl rfl⟩⟩

end CfEngine
