import CfEngine.CfServerd.Replies
import CfEngine.CfServerd.Transfer.Content
import CfEngine.Libcfnet.ClientCode

namespace CfEngine

-- The data of the transactions in a trace, in their order.
def sentPackets (events : List Event) : List Buffer :=
  events.reverse.filterMap fun
    | .transaction payload (some length) _ => some <| payload.take length.toNat
    | _                                    => none

theorem sentPackets_cons {e : Event} {events : List Event} :
    sentPackets (e :: events) = sentPackets events ++ sentPackets [e] := by
  simp only [sentPackets, List.reverse_cons, List.filterMap_append]
  rfl

-- The names in a part of a packet.
def packedNames (names : List CString) : Buffer :=
  names.flatMap fun name => name ++ ['\x00']

-- The packets for the names, with those packed so far.
def packets : List CString → List CString → List Buffer
  | [], packed            => [packedNames packed ++ cfdTerminator ++ ['\x00', '\x00']]
  | name :: names, packed =>
    if cfBufSize - cfMaxLinkSize ≤ name.length + 1 + (packedNames packed).length then
      (packedNames packed ++ ['\x00']) :: packets names [name]
    else
      packets names (packed ++ [name])

-- The names that come first in a packet, given the length of what has been packed.
def firstNames : List CString → Nat → List CString
  | [], _                 => []
  | name :: names, offset =>
    if cfBufSize - cfMaxLinkSize ≤ name.length + 1 + offset then
      name :: firstNames names (name.length + 1)
    else
      (if offset = 0 then [name] else []) ++ firstNames names (offset + name.length + 1)

-- A name in a directory.
structure IsEntryName (name : CString) : Prop where
  ne_nil        : name ≠ []
  length_le     : name.length ≤ 255
  no_terminator : '\x00' ∉ name
  no_slash      : '/' ∉ name

-- The client takes the name for an error where it comes first in a packet.
def LooksBad (name : CString) : Prop :=
  "BAD:".toList <+: name

instance {name : CString} : Decidable (LooksBad name) :=
  inferInstanceAs <| Decidable (_ <+: _)

section

variable {name s rest : CString} {names packed : List CString}

theorem packedNames_append {names' : List CString} :
    packedNames (names ++ names') = packedNames names ++ packedNames names' :=
  List.flatMap_append ..

theorem packedNames_cons : packedNames (name :: names) = name ++ '\x00' :: packedNames names := by
  rw [packedNames, List.flatMap_cons, List.append_assoc]
  rfl

-- A text without terminators is found at the start of a name if it is a part of it.
theorem prefix_name (hs : '\x00' ∉ s) : s <+: name ++ '\x00' :: rest ↔ s <+: name := by
  constructor
  case mpr => exact fun h => h.trans <| List.prefix_append ..
  case mp  =>
    intro h
    by_cases hl : s.length ≤ name.length
    case pos => exact List.prefix_of_prefix_length_le h (List.prefix_append ..) hl
    case neg =>
      have hn : name ++ ['\x00'] <+: name ++ '\x00' :: rest := ⟨rest, List.append_assoc ..⟩
      have hp := List.prefix_of_prefix_length_le hn h <| by
        rw [List.length_append, List.length_singleton]
        omega
      exact absurd (hp.subset <| List.mem_append_right _ List.mem_cons_self) hs

theorem terminator_not_mem_cfdTerminator : '\x00' ∉ cfdTerminator := by
  decide

-- The end of the transmission has slashes in it, so that no name starts with it.
theorem IsEntryName.not_isPrefixOf_cfdTerminator (h : IsEntryName name) :
    ¬cfdTerminator.isPrefixOf (name ++ '\x00' :: rest) = true := by
  intro hp
  have hp := (prefix_name terminator_not_mem_cfdTerminator).mp <| List.isPrefixOf_iff_prefix.mp hp
  exact h.no_slash <| hp.subset <| by decide

theorem IsEntryName.toCString (h : IsEntryName name) : Buffer.toCString (name ++ '\x00' :: rest) = name := by
  have hn : ∀ c ∈ name, decide (c ≠ '\x00') = true :=
    fun c hc => decide_eq_true fun he => h.no_terminator <| he ▸ hc
  rw [Buffer.toCString, List.takeWhile_append_of_pos hn]
  exact List.append_nil _

theorem IsEntryName.head (h : IsEntryName name) : (name ++ '\x00' :: rest).headD '\x00' ≠ '\x00' := by
  rcases name with _ | ⟨c, name⟩
  · exact absurd rfl h.ne_nil
  · exact fun he => h.no_terminator <| List.mem_cons.mpr <| .inl he.symm

variable {fuel : Nat} {sp : Buffer}

theorem remoteNames_cons (h : IsEntryName name) :
    remoteNames (fuel + 1) (name ++ '\x00' :: sp) =
      (name :: (remoteNames fuel sp).1, (remoteNames fuel sp).2) := by
  have hd : (name ++ '\x00' :: sp).drop (name.length + 1) = sp := by
    rw [List.drop_append]
    simp
  rw [remoteNames, if_neg h.head, if_neg h.not_isPrefixOf_cfdTerminator, h.toCString]
  simp only [hd]

theorem remoteNames_packed (fuel : Nat) (sp : Buffer) (hv : ∀ name ∈ packed, IsEntryName name) :
    remoteNames (packed.length + fuel) (packedNames packed ++ sp) =
      (packed ++ (remoteNames fuel sp).1, (remoteNames fuel sp).2) := by
  induction packed
  case nil                 => rw [List.length_nil, Nat.zero_add]; rfl
  case cons name packed ih =>
    have ih := ih fun n hn => hv n <| List.mem_cons_of_mem _ hn
    rw [packedNames_cons, List.append_assoc, List.cons_append, List.length_cons, Nat.add_right_comm,
      remoteNames_cons (hv name List.mem_cons_self), ih]
    rfl

-- What the buffer of the client holds after a packet.
def decoded (decrypt : Option (Buffer → Buffer)) (packet recvbuffer : Buffer) : Buffer :=
  decrypt.elim (receivedInto packet recvbuffer)
    fun decryptString => overwrite (decryptString packet) (receivedInto packet recvbuffer)

variable {decrypt : Option (Buffer → Buffer)} {packet recvbuffer buffer : Buffer} {files : List CString}
  {more : List Buffer}

theorem badProtoReply_of_failedProtoReply (h : failedProtoReply buffer = true) : badProtoReply buffer = true := by
  rw [failedProtoReply, List.isPrefixOf_iff_prefix] at h
  exact List.isPrefixOf_iff_prefix.mpr <| List.IsPrefix.trans ⟨cfFailedStr.drop 4, rfl⟩ h

theorem receiveNames_of_bad (hp : packet ≠ []) (hd : decoded decrypt packet recvbuffer = buffer)
    (hb : badProtoReply buffer = true) :
    receiveNames decrypt recvbuffer files (packet :: more) = [] := by
  rw [decoded] at hd
  simp only [receiveNames, hp, hd, hb, ite_true, ite_false]
  split <;> rfl

theorem receiveNames_of_not_bad (hp : packet ≠ []) (hd : decoded decrypt packet recvbuffer = buffer)
    (hb : badProtoReply buffer = false) :
    receiveNames decrypt recvbuffer files (packet :: more) =
      if (remoteNames buffer.length buffer).2 then
        files ++ (remoteNames buffer.length buffer).1
      else
        receiveNames decrypt buffer (files ++ (remoteNames buffer.length buffer).1) more := by
  have hf : failedProtoReply buffer = false :=
    Bool.eq_false_iff.mpr fun h => Bool.false_ne_true <| hb.symm.trans <| badProtoReply_of_failedProtoReply h
  rw [decoded] at hd
  simp only [receiveNames, hp, hd, hb, hf, ite_false, Bool.false_eq_true]

theorem badProtoReply_packed {tail : Buffer} (hv : ∀ name ∈ packed, IsEntryName name)
    (ht : badProtoReply tail = false) :
    badProtoReply (packedNames packed ++ tail) = true ↔ ∃ name ∈ packed.head?, LooksBad name := by
  rcases packed with _ | ⟨name, packed⟩
  · rw [show packedNames [] ++ tail = tail from rfl, ht]
    simp
  · rw [packedNames_cons, List.append_assoc, List.cons_append, badProtoReply, List.isPrefixOf_iff_prefix,
      prefix_name (by decide)]
    simp [LooksBad]

theorem length_packedNames (packed : List CString) : packed.length ≤ (packedNames packed).length := by
  induction packed
  case nil               => exact Nat.le_refl _
  case cons name rest ih =>
    rw [packedNames_cons, List.length_append, List.length_cons, List.length_cons]
    omega

-- The client sees what the server has packed, before what is left in its buffer.
def Shows (decrypt : Option (Buffer → Buffer)) (pack : Buffer → Buffer) : Prop :=
  ∀ p, p ≠ [] → pack p ≠ [] ∧ ∀ recvbuffer, ∃ rest, decoded decrypt (pack p) recvbuffer = p ++ rest

variable {pack : Buffer → Buffer} {tail : Buffer}

-- What follows the names in a packet, the last one or another one.
structure EndsPacket (tail : Buffer) (last : Bool) : Prop where
  ne_nil  : tail ≠ []
  not_bad : ∀ rest, badProtoReply (tail ++ rest) = false
  names   : ∀ fuel rest, remoteNames (fuel + 1) (tail ++ rest) = ([], last)

theorem endsPacket_more : EndsPacket ['\x00'] false where
  ne_nil  := List.cons_ne_nil _ _
  not_bad := fun _ => rfl
  names   := fun _ _ => rfl

theorem head_cfdTerminator : cfdTerminator = '-' :: cfdTerminator.tail := by
  decide

theorem endsPacket_last : EndsPacket (cfdTerminator ++ ['\x00', '\x00']) true where
  ne_nil  := List.append_ne_nil_of_right_ne_nil _ <| List.cons_ne_nil _ _
  not_bad := by
    intro rest
    rw [head_cfdTerminator]
    rfl
  names   := by
    intro fuel rest
    have hh : ¬(cfdTerminator ++ ['\x00', '\x00'] ++ rest).headD '\x00' = '\x00' := by
      rw [head_cfdTerminator]
      show '-' ≠ '\x00'
      decide
    have ht : cfdTerminator.isPrefixOf (cfdTerminator ++ ['\x00', '\x00'] ++ rest) = true :=
      List.isPrefixOf_iff_prefix.mpr <| List.append_assoc .. ▸ List.prefix_append ..
    rw [remoteNames, if_neg hh, if_pos ht]

variable {last : Bool}

-- A packet whose first name looks like an error.
theorem receiveNames_packet_of_bad (hs : Shows decrypt pack) (hv : ∀ name ∈ packed, IsEntryName name)
    (ht : EndsPacket tail last) (hb : ∃ name ∈ packed.head?, LooksBad name) :
    receiveNames decrypt recvbuffer files (pack (packedNames packed ++ tail) :: more) = [] := by
  have ⟨hp, hd⟩ := hs (packedNames packed ++ tail) <| List.append_ne_nil_of_right_ne_nil _ ht.ne_nil
  have ⟨rest, hd⟩ := hd recvbuffer
  rw [List.append_assoc] at hd
  exact receiveNames_of_bad hp hd <| (badProtoReply_packed hv <| ht.not_bad rest).mpr hb

-- A packet whose names are added to the list.
theorem receiveNames_packet (recvbuffer : Buffer) (files : List CString) (more : List Buffer)
    (hs : Shows decrypt pack) (hv : ∀ name ∈ packed, IsEntryName name)
    (ht : EndsPacket tail last) (hb : ¬∃ name ∈ packed.head?, LooksBad name) :
    ∃ recvbuffer', receiveNames decrypt recvbuffer files (pack (packedNames packed ++ tail) :: more) =
      if last then files ++ packed else receiveNames decrypt recvbuffer' (files ++ packed) more := by
  have ⟨hp, hd⟩ := hs (packedNames packed ++ tail) <| List.append_ne_nil_of_right_ne_nil _ ht.ne_nil
  have ⟨rest, hd⟩ := hd recvbuffer
  rw [List.append_assoc] at hd
  have hbad : badProtoReply (packedNames packed ++ (tail ++ rest)) = false :=
    Bool.eq_false_iff.mpr <| hb ∘ (badProtoReply_packed hv <| ht.not_bad rest).mp
  have hlen : packed.length + 1 ≤ (packedNames packed ++ (tail ++ rest)).length := by
    have := length_packedNames packed
    have := List.length_pos_iff.mpr ht.ne_nil
    simp only [List.length_append]
    omega
  have ⟨fuel, hfuel⟩ := Nat.exists_eq_add_of_le hlen
  have hnames := remoteNames_packed (fuel + 1) (tail ++ rest) hv
  rw [ht.names, ← Nat.add_assoc, Nat.add_right_comm, ← hfuel, List.append_nil] at hnames
  refine ⟨packedNames packed ++ (tail ++ rest), ?_⟩
  rw [receiveNames_of_not_bad hp hd hbad, hnames]

-- The names of a packet are left out if the first one looks like an error.
theorem receiveNames_ne (recvbuffer : Buffer) (files names : List CString) (more : List Buffer)
    (hs : Shows decrypt pack) (hv : ∀ name ∈ packed, IsEntryName name)
    (ht : EndsPacket tail last) (hb : ∃ name ∈ packed.head?, LooksBad name) :
    receiveNames decrypt recvbuffer files (pack (packedNames packed ++ tail) :: more) ≠
      files ++ (packed ++ names) := by
  rw [receiveNames_packet_of_bad hs hv ht hb]
  have ⟨_, hm, _⟩ := hb
  cases packed
  case nil  => cases hm
  case cons => simp

-- All the names arrive if and only if none that comes first in a packet looks like an error.
theorem receiveNames_packets (packed : List CString) (recvbuffer : Buffer) (files : List CString)
    (hs : Shows decrypt pack) (hv : ∀ name ∈ packed ++ names, IsEntryName name) :
    receiveNames decrypt recvbuffer files ((packets names packed).map pack) = files ++ (packed ++ names) ↔
      (¬∃ name ∈ packed.head?, LooksBad name) ∧
        ∀ name ∈ firstNames names (packedNames packed).length, ¬LooksBad name := by
  induction names generalizing packed files recvbuffer
  case nil                =>
    rw [List.append_nil] at hv ⊢
    rw [packets, List.append_assoc, List.map_singleton]
    by_cases hb : ∃ name ∈ packed.head?, LooksBad name
    case neg =>
      have ⟨_, hr⟩ := receiveNames_packet recvbuffer files [] hs hv endsPacket_last hb
      exact ⟨fun _ => ⟨hb, nofun⟩, fun _ => hr⟩
    case pos =>
      have hne := receiveNames_ne recvbuffer files [] [] hs hv endsPacket_last hb
      rw [List.append_nil] at hne
      exact ⟨fun h => absurd h hne, fun h => absurd hb h.left⟩
  case cons name names ih =>
    have hname : IsEntryName name := hv name <| by simp
    have hsingle : (∃ n ∈ [name].head?, LooksBad n) ↔ LooksBad name := by simp
    rw [packets, firstNames]
    split
    case isTrue hfull  =>
      have hvp : ∀ name ∈ packed, IsEntryName name := fun n hn => hv n <| List.mem_append_left _ hn
      rw [List.map_cons]
      by_cases hb : ∃ name ∈ packed.head?, LooksBad name
      case neg =>
        have ⟨recvbuffer', hr⟩ := receiveNames_packet recvbuffer files ((packets names [name]).map pack) hs hvp
          endsPacket_more hb
        have ih := ih [name] recvbuffer' (files ++ packed) fun n hn => hv n <| List.mem_append_right _ hn
        have hlen : (packedNames [name]).length = name.length + 1 := by
          rw [packedNames_cons, List.length_append]
          rfl
        rw [hlen, hsingle] at ih
        rw [hr, if_neg Bool.false_ne_true, ← List.append_assoc, List.forall_mem_cons]
        exact ih.trans ⟨fun h => ⟨hb, h⟩, And.right⟩
      case pos =>
        have hne := receiveNames_ne recvbuffer files (name :: names) ((packets names [name]).map pack) hs hvp
          endsPacket_more hb
        exact ⟨fun h => absurd h hne, fun h => absurd hb h.left⟩
    case isFalse hfull =>
      have ih := ih (packed ++ [name]) recvbuffer files (by rwa [List.append_assoc])
      rw [List.append_assoc] at ih
      apply ih.trans
      rw [@List.forall_mem_append _ _ (ite _ _ _), packedNames_append, List.length_append,
        packedNames_cons, List.length_append]
      rcases packed with _ | ⟨first, packed⟩
      · have hn : ¬∃ n ∈ ([] : List CString).head?, LooksBad n := by simp
        have ho : (packedNames []).length = 0 := rfl
        rw [List.nil_append, hsingle, ho, if_pos rfl, List.forall_mem_singleton]
        exact ⟨fun h => ⟨hn, h⟩, And.right⟩
      · have hh : (first :: packed ++ [name]).head? = (first :: packed).head? := rfl
        have ho : ¬(packedNames (first :: packed)).length = 0 := by
          rw [packedNames_cons]
          simp
        rw [hh, if_neg ho]
        exact ⟨fun h => ⟨h.left, nofun, h.right⟩, fun h => ⟨h.left, h.right.right⟩⟩

end

namespace Surroundings

variable {now : Surroundings} {crypto : Crypto} {key : Option Buffer} {pack : Buffer → Buffer}
  {send : Buffer → TransactionStatus → Serving Bool} {names packed : List CString} {s : ServerState}
  {t : List Event} {p : Buffer} {status : TransactionStatus}

-- A function that sends a packet of names, with the key of the connection.
def SendsPackets (key : Option Buffer) (pack : Buffer → Buffer)
    (send : Buffer → TransactionStatus → Serving Bool) : Prop :=
  ∀ {p status s t}, p ≠ [] → p.length ≤ cfBufSize - cfMaxLinkSize + cfMaxLinkSize / 2 →
    s.conn.session_key = key → (send p status).Ensures s t fun r s' t' =>
      r.isSome ∧ s'.conn.session_key = key ∧ sentPackets t' = sentPackets t ++ [pack p]

theorem packNames_spec (hsend : SendsPackets key pack send) (hn : ∀ name ∈ names, IsEntryName name)
    (hp : (packedNames packed).length < cfBufSize - cfMaxLinkSize) (hk : s.conn.session_key = key) :
    (packNames send names (packedNames packed)).Ensures s t fun _ _ t' =>
      sentPackets t' = sentPackets t ++ (packets names packed).map pack := by
  induction names generalizing packed s t
  case nil                =>
    have hne : packedNames packed ++ cfdTerminator ++ ['\x00', '\x00'] ≠ [] :=
      List.append_ne_nil_of_right_ne_nil _ <| List.cons_ne_nil _ _
    have hlen : (packedNames packed ++ cfdTerminator ++ ['\x00', '\x00']).length ≤
        cfBufSize - cfMaxLinkSize + cfMaxLinkSize / 2 := by
      have ht : cfdTerminator.length = 27 := by decide
      simp only [List.length_append, ht, List.length_cons, List.length_nil, cfBufSize, cfMaxLinkSize] at hp ⊢
      omega
    rw [packNames]
    refine (hsend hne hlen hk).bind (fun _ s t h => h.right.right) fun _ _ h => ?_
    exact absurd h.left Bool.false_ne_true
  case cons name names ih =>
    have hname := hn name List.mem_cons_self
    have hnames : ∀ n ∈ names, IsEntryName n := fun n h => hn n <| List.mem_cons_of_mem _ h
    have hsingle (packed : List CString) : packedNames packed ++ name ++ ['\x00'] = packedNames (packed ++ [name]) := by
      rw [packedNames_append, packedNames_cons, List.append_assoc]
      rfl
    rw [packNames, packets]
    by_cases hfull : cfBufSize - cfMaxLinkSize ≤ name.length + 1 + (packedNames packed).length
    case pos =>
      have hne : packedNames packed ++ ['\x00'] ≠ [] :=
        List.append_ne_nil_of_right_ne_nil _ <| List.cons_ne_nil _ _
      have hlen : (packedNames packed ++ ['\x00']).length ≤ cfBufSize - cfMaxLinkSize + cfMaxLinkSize / 2 := by
        rw [List.length_append, List.length_singleton]
        omega
      have hp' : (packedNames [name]).length < cfBufSize - cfMaxLinkSize := by
        have hl := hname.length_le
        rw [packedNames_cons, List.length_append]
        simp only [packedNames, List.flatMap_nil, List.length_singleton, cfBufSize, cfMaxLinkSize]
        omega
      rw [if_pos hfull, if_pos hfull]
      refine (hsend hne hlen hk).bind (fun _ s t h => ?_) fun _ _ h => absurd h.left Bool.false_ne_true
      have ih := @ih [name] s t hnames hp' h.right.left
      rw [h.right.right] at ih
      have hname : name ++ ['\x00'] = packedNames [name] := hsingle []
      rw [hname]
      refine ih.imp fun _ _ _ h => ?_
      rw [h, List.append_assoc]
      rfl
    case neg =>
      have hp' : (packedNames (packed ++ [name])).length < cfBufSize - cfMaxLinkSize := by
        rw [← hsingle, List.length_append, List.length_append, List.length_singleton]
        omega
      rw [if_neg hfull, if_neg hfull, hsingle]
      exact ih hnames hp' hk

theorem sendsPackets_plain :
    SendsPackets key id fun packed status => Serving.sendTransaction packed (some packed.length) status := by
  intro p status s t hne hp hk
  have hpos := List.length_pos_iff.mpr hne
  have hl : transactionLength p (some (p.length : Int)) = some (p.length : Int) := by
    simp [transactionLength, hne]
  have hf : lengthFits (transactionLength p (some (p.length : Int))) = true := by
    rw [hl, Serving.lengthFits_iff]
    refine ⟨_, rfl, Int.natCast_nonneg _, Int.ofNat_le.mpr ?_⟩
    simp only [cfBufSize, cfMaxLinkSize, cfInbandOffset] at hp ⊢
    omega
  rw [Serving.ensures_sendTransaction]
  refine ⟨fun _ => ⟨rfl, hk, ?_⟩, fun h => absurd hf h⟩
  rw [sentPackets_cons, hl]
  simp [sentPackets]

theorem sendsPackets_encrypted (hi : crypto.Inverts key) :
    SendsPackets key (fun p => (crypto.encrypt key p).getD []) (Serving.sendEncrypted crypto) := by
  intro p status s t hne hp hk
  have ⟨out, he, _⟩ := hi p
  have ⟨hl, hf⟩ := transactionLength_block he <| hp.trans (by decide)
  simp only [Serving.sendEncrypted, Traced.ensures_bind, Serving.ensures_encryptString, Traced.then_some, hk, he]
  rw [Serving.ensures_sendTransaction]
  rw [← hl] at hf
  refine ⟨fun _ => ⟨rfl, hk, ?_⟩, fun h => absurd hf h⟩
  rw [sentPackets_cons, sentPackets_cons, hl]
  simp [sentPackets]

-- The packets that come back for a request to list the directory, on a connection that does not break down.
def listingReplies (now : Surroundings) (crypto : Crypto) (encrypt : Bool) (dirname : CString) (s : ServerState) :
    List Buffer :=
  sentPackets
    ((if encrypt then now.cfSecOpenDirectory crypto dirname else now.cfOpenDirectory crypto dirname) s []).2.2

-- The name of the directory on the server.
def listedName (encrypt : Bool) (dirname : CString) : CString :=
  if encrypt then dirname else translatePath dirname

theorem openDirectory_spec {reply : CString → Serving Unit} {dirname : CString}
    (ha : isAbsoluteFileName dirname = true) (hr : now.fs.readdir dirname = some names)
    (hsend : SendsPackets key pack send) (hn : ∀ name ∈ names, IsEntryName name)
    (hk : s.conn.session_key = key) :
    (now.openDirectory reply send dirname).Ensures s [] fun _ _ t =>
      sentPackets t = (packets names []).map pack := by
  simp only [openDirectory, ha, not_true_eq_false, ite_false, hr, Traced.ensures_bind, Traced.ensures_emit,
    Traced.then_some]
  exact @packNames_spec key pack send names [] s _ hsend hn (by decide) hk

variable {encrypt : Bool} {dirname : CString} {recvbuffer : Buffer}

theorem listingReplies_eq (ha : isAbsoluteFileName (listedName encrypt dirname) = true)
    (hr : now.fs.readdir (listedName encrypt dirname) = some names) (hn : ∀ name ∈ names, IsEntryName name)
    (hi : encrypt = true → crypto.Inverts s.conn.session_key) :
    now.listingReplies crypto encrypt dirname s = (packets names []).map
      (if encrypt then fun p => (crypto.encrypt s.conn.session_key p).getD [] else id) := by
  cases encrypt
  case false => exact openDirectory_spec ha hr sendsPackets_plain hn rfl
  case true  => exact openDirectory_spec ha hr (sendsPackets_encrypted <| hi rfl) hn rfl

theorem shows_plain : Shows none id := by
  intro p hp
  refine ⟨hp, fun recvbuffer => ⟨'\x00' :: recvbuffer.drop (p.length + 1), ?_⟩⟩
  rw [decoded, Option.elim_none, receivedInto, overwrite, List.append_assoc, List.length_append]
  rfl

theorem shows_encrypted (hi : crypto.Inverts key) :
    Shows (some (crypto.decrypt key)) fun p => (crypto.encrypt key p).getD [] := by
  intro p hp
  have ⟨out, he, hd⟩ := hi p
  have hl := crypto.encrypt_length _ _ _ he
  dsimp only
  rw [he, Option.getD_some]
  refine ⟨fun ho => ?_, fun recvbuffer => ⟨(receivedInto out recvbuffer).drop p.length, ?_⟩⟩
  · rw [ho, List.length_nil] at hl
    omega
  · rw [decoded, Option.elim_some, hd]
    rfl

-- The client returns the names in the directory if and only if none that comes first in a packet
-- looks like an error.
theorem remoteDirList_iff (ha : isAbsoluteFileName (listedName encrypt dirname) = true)
    (hr : now.fs.readdir (listedName encrypt dirname) = some names) (hn : ∀ name ∈ names, IsEntryName name)
    (hl : dirname.length ≤ cfBufSize - 20)
    (hi : encrypt = true → s.conn.session_key ≠ none ∧ crypto.Inverts s.conn.session_key) :
    remoteDirList crypto s.conn.session_key encrypt dirname recvbuffer
        (now.listingReplies crypto encrypt dirname s) = names ↔
      ∀ name ∈ firstNames names 0, ¬"BAD:".toList <+: name := by
  have hshows : Shows (if encrypt then some (crypto.decrypt s.conn.session_key) else none)
      (if encrypt then fun p => (crypto.encrypt s.conn.session_key p).getD [] else id) := by
    cases encrypt
    case false => exact shows_plain
    case true  => exact shows_encrypted (hi rfl).right
  have hkey : ¬(encrypt = true ∧ s.conn.session_key = none) := fun h => (hi h.left).left h.right
  have hp := receiveNames_packets [] recvbuffer [] hshows hn
  rw [remoteDirList, if_neg (Nat.not_lt.mpr hl), if_neg hkey, listingReplies_eq ha hr hn fun he => (hi he).right]
  apply hp.trans
  exact ⟨And.right, fun h => ⟨by simp, h⟩⟩

end Surroundings

-- A server with one directory, for examples.
def listingServer (names : List CString) (h : ∀ name ∈ names, name.length ≤ 255 := by decide) : Surroundings :=
  { Surroundings.calm with
    fs := { publicServer with
      readdir        := fun path => if path = "/d".toList then some names else none
      readdir_length := by
        intro path names' hr name hm
        have ⟨_, hr⟩ := Option.ite_none_right_eq_some.mp hr
        exact h name <| (Option.some.inj hr) ▸ hm } }

-- A peer with a key for the session.
def keyedState : ServerState :=
  { publicState 1 with conn := { (publicState 1).conn with session_key := some ['k'] } }

theorem remoteDirList_pair :
    remoteDirList .padding keyedState.conn.session_key true "/d".toList []
        ((listingServer [['a'], ['b', 'c']]).listingReplies .padding true "/d".toList keyedState) =
      [['a'], ['b', 'c']] := by
  have hn : ∀ name ∈ [['a'], ['b', 'c']], IsEntryName name := by
    simp only [List.forall_mem_cons]
    exact ⟨⟨by decide, by decide, by decide, by decide⟩, ⟨by decide, by decide, by decide, by decide⟩, nofun⟩
  exact (Surroundings.remoteDirList_iff rfl rfl hn (by decide) fun _ => ⟨by decide, Crypto.inverts_padding⟩).mpr <|
    by decide +kernel

theorem not_remoteDirList_bad :
    remoteDirList .padding none false "/d".toList []
        ((listingServer ["BAD: news".toList]).listingReplies .padding false "/d".toList (publicState 1)) ≠
      ["BAD: news".toList] := by
  decide +kernel

end CfEngine
