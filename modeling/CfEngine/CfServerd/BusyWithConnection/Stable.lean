import CfEngine.CfServerd.BusyWithConnection.Asked

namespace CfEngine

open Traced

-- A property that does not depend on what is sent and received, if what is sent fits in a packet where all
-- replies are short.
structure Stable (short : Prop) (I : ServerState → List Event → Prop) : Prop where
  inbox       : ∀ s t inbox, I s t → I { s with inbox := inbox } t
  sends       : ∀ s t sends, I s t → I { s with sends := sends } t
  transaction : ∀ s t payload len status, (short → FitsPacket len) → I s t →
    I s (.transaction payload len status :: t)
  stream      : ∀ s t payload, I s t → I s (.stream payload :: t)

-- A property that the use of the cipher does not affect.
def AllowsCipher (I : ServerState → List Event → Prop) : Prop :=
  ∀ s t, I s t → I s (.cipher s.conn.session_key :: t)

section
variable {I : ServerState → List Event → Prop} {text : Buffer} {crypto : Crypto}

end

namespace Stable

variable {short : Prop} {I : ServerState → List Event → Prop} {payload text : Buffer}
  {len : Option Int} {status : TransactionStatus} {crypto : Crypto} {filename : CString}
  {now : Surroundings} {host : ServerHost} {α : Type}

theorem keeps_transmit (hI : Stable short I) : Keeps I Serving.transmit :=
  keeps_get.bind fun _ => (keeps_modify fun s t => hI.sends s t _).bind fun _ => keeps_pure

theorem keeps_sendTransaction (hI : Stable short I)
    (hl : short → FitsPacket (transactionLength payload len)) :
    Keeps I (Serving.sendTransaction payload len status) := by
  apply Keeps.bind
  · exact keeps_emit fun s t => hI.transaction s t _ _ _ hl
  · exact fun _ => .ite (fun _ => hI.keeps_transmit) fun _ => keeps_stop

theorem keeps_sendSocketStream (hI : Stable short I) : Keeps I (Serving.sendSocketStream payload) :=
  (keeps_emit fun s t => hI.stream s t _).bind fun _ => hI.keeps_transmit

theorem keeps_receiveTransaction (hI : Stable short I) : Keeps I Serving.receiveTransaction := by
  apply keeps_get.bind
  intro s
  cases s.inbox
  case nil  => exact keeps_pure
  case cons => exact (keeps_modify fun s t => hI.inbox s t _).bind fun _ => keeps_pure

theorem receiveTransaction (hI : Stable short I) {s : ServerState} {t : List Event} (h : I s t) :
    Serving.receiveTransaction.Ensures s t fun r s t => I s t ∧ ∀ data, r = some (some data) →
      data.length ≤ cfBufSize - cfInbandOffset := by
  rw [Serving.receiveTransaction, ensures_bind, ensures_get, then_some]
  split
  · exact ⟨h, nofun⟩
  · next packet inbox _ =>
    rw [ensures_bind, ensures_modify, then_some, ensures_pure]
    refine ⟨hI.inbox _ _ _ h, fun data hd => ?_⟩
    have ⟨p, _, hp⟩ := Option.map_eq_some_iff.mp <| Option.some.inj hd
    exact hp ▸ p.length_le

theorem keeps_sendEncrypted (hI : Stable short I) (hc : AllowsCipher I)
    (hl : ∀ s t, I s t → short → ∀ out, crypto.encrypt s.conn.session_key text = some out →
      out.length ≤ cfBufSize - cfInbandOffset) :
    Keeps I (Serving.sendEncrypted crypto text status) := by
  intro s t h
  rw [Serving.sendEncrypted, ensures_bind, Serving.ensures_encryptString, then_some]
  cases he : crypto.encrypt s.conn.session_key text
  case none     => exact hI.keeps_sendTransaction (fun _ => ⟨-1, rfl, by decide⟩) s _ <| hc s t h
  case some out =>
    have hfits (hshort : short) := fitsPacket_of_length <| hl s t h hshort out he
    exact hI.keeps_sendTransaction hfits s _ <| hc s t h

theorem keeps_sendText (hI : Stable short I) (hl : short → FitsText text) :
    Keeps I (Serving.sendText text) :=
  hI.keeps_sendTransaction fun hs => (hl hs).fitsPacket

theorem keeps_refuseAccess (hI : Stable short I) {size : Int}
    (hl : short → size ≤ (cfBufSize - cfInbandOffset : Nat)) : Keeps I (Serving.refuseAccess size) := by
  unfold Serving.refuseAccess
  have hfailed : FitsText cfFailedStr := by decide
  exact (hI.keeps_sendTransaction fun hs => fitsPacket_of_le hfailed <| hl hs).bind fun _ => keeps_pure

theorem keeps_failedTransfer (hI : Stable short I) : Keeps I Serving.failedTransfer := by
  unfold Serving.failedTransfer
  have hfailed : FitsText cfFailedStr := by decide
  exact (hI.keeps_sendText fun _ => hfailed).bind fun _ => keeps_pure

theorem keeps_terminate (hI : Stable short I) : Keeps I Serving.terminate := by
  unfold Serving.terminate
  have hterminator : FitsPacket (transactionLength (cfdTerminator ++ ['\x00'])
      (some (cfdTerminator.length + 1))) := fitsPacket_of_le (by decide) (by decide)
  exact (hI.keeps_sendTransaction fun _ => hterminator).bind fun _ => keeps_pure

theorem keeps_replyNothing (hI : Stable short I) : Keeps I Serving.replyNothing := by
  unfold Serving.replyNothing
  apply keeps_get.bind
  exact fun _ => (hI.keeps_sendText fun _ => Serving.fits_helloText).bind fun _ => keeps_pure

theorem keeps_refuse (hI : Stable short I) {busy : Bool} : Keeps I (ServerHost.refuse busy) := by
  unfold ServerHost.refuse
  exact (hI.keeps_refuseAccess fun _ => by decide).bind fun _ => keeps_pure

theorem keeps_deny (hI : Stable short I) : Keeps I ServerHost.deny := by
  unfold ServerHost.deny
  exact (hI.keeps_sendText fun _ => by decide).bind fun _ => keeps_pure

theorem keeps_sendStat (hI : Stable short I) {statbuf : Stat} {lmode : UInt32} {linkbuf : CString}
    (hl : short → FitsText ("OK:".toList ++ linkbuf)) :
    Keeps I (Surroundings.sendStat statbuf lmode linkbuf) := by
  unfold Surroundings.sendStat
  apply (hI.keeps_sendText fun _ => fits_statReply).bind
  exact fun _ => (hI.keeps_sendText hl).bind fun _ => keeps_pure

theorem keeps_statFile (hI : Stable short I) (hl : short → now.statFits filename)
    (ho : ∀ s t, I s t → I s (.opened .attributes (translatePath filename) :: t)) :
    Keeps I (now.statFile filename) := by
  unfold Surroundings.statFits at hl
  unfold Surroundings.statFile
  dsimp only at hl ⊢
  apply Keeps.ite
  · intro hlong
    rw [if_pos hlong] at hl
    exact (hI.keeps_sendText hl).bind fun _ => keeps_pure
  · intro hlong
    rw [if_neg hlong] at hl
    apply (keeps_emit ho).bind
    intro _
    cases hs : now.fs.lstat (translatePath filename)
    case none         =>
      simp only [hs] at hl
      exact (hI.keeps_sendText hl).bind fun _ => keeps_pure
    case some statbuf =>
      simp only [hs] at hl
      apply Keeps.ite
      · intro hlink
        rw [if_pos hlink] at hl
        cases hr : now.fs.readlink (translatePath filename)
        case none         => exact (hI.keeps_sendText fun _ => by decide).bind fun _ => keeps_pure
        case some linkbuf => exact hI.keeps_sendStat fun hshort => hl hshort linkbuf hr
      · intro hlink
        rw [if_neg hlink] at hl
        cases hr : now.fs.stat (translatePath filename)
        case none => exact (hI.keeps_sendText fun hshort => hl hshort hr).bind fun _ => keeps_pure
        case some => exact hI.keeps_sendStat fun _ => by decide

theorem fitsReply_of_length {encrypted : Bool} {key : Option Buffer}
    (h : text.length + 1 < cfBufSize - cfInbandOffset) :
    Surroundings.FitsReply crypto encrypted key text := by
  cases encrypted
  case false => exact fitsText_of_length <| Nat.le_of_lt <| Nat.lt_of_succ_lt h
  case true  =>
    intro out ho
    rw [crypto.encrypt_length _ _ _ ho, List.length_append]
    simp only [List.length_cons, List.length_nil, cfBufSize, cfInbandOffset] at h ⊢
    omega

theorem keeps_sendReply (hI : Stable short I) {encrypted : Bool} (hc : encrypted = true → AllowsCipher I)
    (hl : ∀ s t, I s t → short → Surroundings.FitsReply crypto encrypted s.conn.session_key text) :
    Keeps I (Surroundings.sendReply crypto encrypted text) := by
  cases encrypted
  case false =>
    intro s t h
    exact ((hI.keeps_sendText <| hl s t h).bind fun _ => keeps_pure) s t h
  case true  => exact (hI.keeps_sendEncrypted (hc rfl) hl).bind fun _ => keeps_pure

-- The names that are packed leave room for what is sent at the end.
theorem keeps_packNames {send : Buffer → TransactionStatus → Serving Bool}
    (hs : ∀ packed status, packed.length + cfMaxLinkSize ≤ cfBufSize + 32 → Keeps I (send packed status))
    {names : List CString} {packed : Buffer} (hn : ∀ name ∈ names, name.length ≤ 255)
    (hp : packed.length < cfBufSize - cfMaxLinkSize) :
    Keeps I (Surroundings.packNames send names packed) := by
  induction names generalizing packed
  case nil                 =>
    apply (hs _ _ _).bind fun _ => keeps_pure
    have ht : cfdTerminator.length = 27 := rfl
    simp only [List.length_append, ht, List.length_cons, List.length_nil, cfBufSize, cfMaxLinkSize] at hp ⊢
    omega
  case cons name names ih =>
    have hname := hn name List.mem_cons_self
    have ih {packed : Buffer} (hp : packed.length < cfBufSize - cfMaxLinkSize) :
        Keeps I (Surroundings.packNames send names packed) :=
      ih (fun name' h => hn name' <| List.mem_cons_of_mem _ h) hp
    unfold Surroundings.packNames
    apply Keeps.ite
    · intro _
      apply (hs _ _ _).bind
      · intro _
        apply ih
        simp only [List.length_append, List.length_cons, List.length_nil, cfBufSize, cfMaxLinkSize]
        omega
      · simp only [List.length_append, List.length_cons, List.length_nil, cfBufSize, cfMaxLinkSize] at hp ⊢
        omega
    · intro hroom
      apply ih
      simp only [List.length_append, List.length_cons, List.length_nil, cfBufSize, cfMaxLinkSize] at hroom ⊢
      omega

theorem keeps_openDirectory {reply : CString → Serving Unit}
    {send : Buffer → TransactionStatus → Serving Bool}
    (hr : Keeps I (reply "BAD: request to access a non-absolute filename\n".toList))
    (hf : isAbsoluteFileName filename = true → now.fs.readdir filename = none →
      Keeps I (reply <| openFailure filename))
    (hs : ∀ packed status, packed.length + cfMaxLinkSize ≤ cfBufSize + 32 → Keeps I (send packed status))
    (ho : ∀ s t, I s t → I s (.opened .listing filename :: t)) :
    Keeps I (now.openDirectory reply send filename) := by
  unfold Surroundings.openDirectory
  apply Keeps.ite
  · exact fun _ => hr
  · intro ha
    apply (keeps_emit ho).bind
    intro _
    cases hd : now.fs.readdir filename
    case none       => exact hf (not_not.mp ha) hd
    case some names => exact keeps_packNames hs (now.fs.readdir_length _ _ hd) (by decide)

theorem keeps_getFileLoop (hI : Stable short I) {interval count total savedlen : Nat} {sendlen : Int}
    {chunks : List Buffer} :
    Keeps I (now.getFileLoop filename interval chunks count total sendlen savedlen) := by
  induction chunks generalizing count total sendlen savedlen
  case nil            => exact keeps_pure
  case cons chunk chunks ih =>
    unfold Surroundings.getFileLoop
    split
    · exact keeps_pure
    · apply Keeps.ite
      · exact fun _ => hI.keeps_sendSocketStream.bind fun _ => keeps_pure
      · intro _
        apply hI.keeps_sendSocketStream.bind
        exact fun _ => .ite (fun _ => ih) fun _ => keeps_pure

theorem keeps_cfGetFile (hI : Stable short I) {buf_size : Nat}
    (hl : ∀ s t, I s t → short → now.refusalFits s.conn (translatePath filename) buf_size)
    (ho : ∀ s t, I s t → I s (.opened .content (translatePath filename) :: t)) :
    Keeps I (now.cfGetFile filename buf_size) := by
  intro s t h
  rw [Surroundings.cfGetFile, ensures_bind, ensures_emit, then_some, ensures_bind, ensures_get, then_some]
  have h := ho s t h
  apply Keeps.ite _ _ s _ h
  · intro hr
    apply (hI.keeps_refuseAccess fun hshort => _).bind
    · exact fun _ => hI.keeps_sendSocketStream.bind fun _ => keeps_pure
    · exact fun hshort => Int.ofNat_le.mpr <| (hl s _ h hshort).resolve_left hr
  · intro _
    split
    · exact hI.keeps_sendSocketStream.bind fun _ => keeps_pure
    · exact hI.keeps_getFileLoop

theorem keeps_sendBlock (hI : Stable short I) {out : Option Buffer}
    (hl : short → ∃ data, out = some data ∧ data.length ≤ cfBufSize - cfInbandOffset) :
    Keeps I (now.sendBlock out status) := by
  cases out
  case none     =>
    apply hI.keeps_sendTransaction
    intro hshort
    have ⟨_, h, _⟩ := hl hshort
    cases h
  case some out =>
    apply hI.keeps_sendTransaction
    intro hshort
    have ⟨_, h, hlen⟩ := hl hshort
    cases h
    exact fitsPacket_of_length hlen

theorem keeps_abortTransfer (hI : Stable short I) (hl : short → FitsText (cfChangedStr filename)) :
    Keeps I (Surroundings.abortTransfer filename) := by
  unfold Surroundings.abortTransfer
  exact (hI.keeps_sendText hl).bind fun _ => keeps_pure

-- There is encrypted data to send from the first round on, unless the file is empty and its size changes.
theorem keeps_encryptFileLoop (hI : Stable short I) (hc : AllowsCipher I)
    {interval fuel count total savedlen : Nat} {chunks : List Buffer} {out : Option Buffer}
    (hchange : short → ∀ n sb, now.restat filename n = some sb → sb.size.toNat ≠ savedlen →
      FitsText (cfChangedStr filename))
    (hchunks : ∀ chunk ∈ chunks, chunk.length ≤ Surroundings.encryptBlockSize)
    (hout : ∀ data, out = some data → data.length ≤ cfBufSize - cfInbandOffset)
    (hfirst : short → out = none → chunks.headD [] = [] → ∀ size,
      now.sizeInRound filename interval count savedlen = some size → size ≠ savedlen) :
    Keeps I (now.encryptFileLoop crypto filename interval fuel chunks count total out savedlen) := by
  induction fuel generalizing chunks count total out
  case zero         => exact keeps_pure
  case succ fuel ih =>
    unfold Surroundings.encryptFileLoop
    cases hsize : now.sizeInRound filename interval count savedlen
    case none      => exact keeps_pure
    case some size =>
      apply Keeps.ite
      · intro hne
        apply hI.keeps_abortTransfer
        intro hshort
        unfold Surroundings.sizeInRound at hsize
        split at hsize
        case isTrue  =>
          have ⟨sb, hsb, hsb'⟩ := Option.map_eq_some_iff.mp hsize
          exact hchange hshort _ sb hsb <| hsb' ▸ hne
        case isFalse => exact absurd (Option.some.inj hsize).symm hne
      · intro heq
        have heq := not_not.mp heq
        have hrest (encrypted : Option Buffer) (total : Nat)
            (he : ∀ data, encrypted = some data → data.length ≤ cfBufSize - cfInbandOffset)
            (hn : short → encrypted = none → chunks.headD [] ≠ []) :
            Keeps I (if chunks.headD [] ≠ [] ∧ encrypted = none then Serving.failedTransfer
              else if savedlen ≤ total then do
                let _ ← now.sendBlock encrypted .done
              else do
                if ← now.sendBlock encrypted .more then
                  now.encryptFileLoop crypto filename interval fuel chunks.tail (count + 1) total
                    encrypted size) := by
          apply Keeps.ite
          · exact fun _ => hI.keeps_failedTransfer
          · intro hsome
            have hsend (hshort : short) :
                ∃ data, encrypted = some data ∧ data.length ≤ cfBufSize - cfInbandOffset := by
              cases encrypted
              case none      => exact absurd ⟨hn hshort rfl, rfl⟩ hsome
              case some data => exact ⟨data, rfl, he data rfl⟩
            apply Keeps.ite
            · exact fun _ => (hI.keeps_sendBlock hsend).bind fun _ => keeps_pure
            · intro _
              apply (hI.keeps_sendBlock hsend).bind
              intro _
              apply Keeps.ite
              · intro _
                rw [heq]
                apply ih (fun chunk h => hchunks chunk <| List.mem_of_mem_tail h) he
                intro hshort hnone
                have ⟨_, h, _⟩ := hsend hshort
                cases h.symm.trans hnone
              · exact fun _ => keeps_pure
        apply Keeps.ite
        · intro hempty s t h
          rw [ensures_bind, ensures_pure, then_some]
          apply hrest out _ hout _ s t h
          exact fun hshort hnone => absurd heq.symm <| (hfirst hshort hnone hempty size hsize).symm
        · intro hdata s t h
          rw [ensures_bind, Serving.ensures_encryptString, then_some]
          apply hrest _ _ _ _ s _ <| hc s t h
          · intro data he
            have hlen : (chunks.headD []).length ≤ Surroundings.encryptBlockSize := by
              cases chunks
              case nil  => exact Nat.zero_le _
              case cons => exact hchunks _ List.mem_cons_self
            rw [crypto.encrypt_length _ _ _ he]
            simp only [Surroundings.encryptBlockSize, cfBufSize, cfInbandOffset] at hlen ⊢
            omega
          · exact fun _ _ => hdata

-- What follows once the access to a file is granted.
def encryptedContent (now : Surroundings) (crypto : Crypto) (filename : CString) :
    Option (Option Buffer) → Serving Unit
  | none             => Serving.failedTransfer
  | some none        => pure ()
  | some (some data) => do
    let s ← Traced.get
    now.encryptFileLoop crypto (translatePath filename)
      (restatInterval <| now.statFirst <| translatePath filename) (s.sends + 1)
      (blocks Surroundings.encryptBlockSize data.length data) 0 0 none
      (now.statFirst <| translatePath filename).size.toNat

theorem keeps_cfEncryptGetFile (hI : Stable short I) (hc : AllowsCipher I) {buf_size : Nat}
    (hl : ∀ s t, I s t → short → now.refusalFits s.conn (translatePath filename) buf_size ∧
      now.contentFits (translatePath filename))
    (ho : ∀ s t, I s t → I s (.opened .content (translatePath filename) :: t)) :
    Keeps I (now.cfEncryptGetFile crypto filename buf_size) := by
  intro s t h
  rw [Surroundings.cfEncryptGetFile, ensures_bind, ensures_emit, then_some, ensures_bind, ensures_get,
    then_some]
  have h := ho s t h
  have hsend (hl : short → now.contentFits (translatePath filename)) :
      Keeps I (encryptedContent now crypto filename <| now.fs.read <| translatePath filename) := by
    cases hread : now.fs.read <| translatePath filename
    case none           => exact hI.keeps_failedTransfer
    case some data =>
      cases data
      case none => exact keeps_pure
      case some data =>
      apply keeps_get.bind
      intro s
      apply hI.keeps_encryptFileLoop hc
      · exact fun hshort n sb hsb hne => (hl hshort data hread).left n sb hsb fun he => hne <| he ▸ rfl
      · exact fun chunk hchunk => length_of_mem_blocks hchunk
      · exact fun _ he => absurd he <| Option.some_ne_none _ ∘ Eq.symm
      · intro hshort _ hempty size hsize
        rw [headD_blocks, List.take_eq_nil_iff] at hempty
        have hempty := hempty.resolve_left (by decide)
        obtain ⟨sb, hsb, hsize⟩ := Option.map_eq_some_iff.mp hsize
        rw [Nat.zero_div] at hsb
        rw [← hsize]
        exact fun he => (hl hshort data hread).right hempty sb hsb <| UInt64.toNat_inj.mp he
  have hsend := hsend fun hshort => (hl s _ h hshort).right
  apply Keeps.ite _ _ s _ h
  · intro hr
    apply (hI.keeps_refuseAccess fun hshort => _).bind
    · exact fun _ => hI.keeps_failedTransfer.bind fun _ => hsend
    · exact fun hshort => Int.ofNat_le.mpr <| (hl s _ h hshort).left.resolve_left hr
  · exact fun _ => hsend

theorem matchClassesLoop (hI : Stable short I) {rounds : Nat} {first : Bool} {s : ServerState}
    {t : List Event} (h : I s t) :
    (host.matchClassesLoop rounds first).Ensures s t fun matched s' t' => I s' t' ∧
      (matched = some true → host.classesMatched rounds first s.inbox = true) := by
  have hn {s t} (h : I s t) {p : Prop} : (show Serving Bool from do
      Serving.replyNothing
      return false).Ensures s t fun matched s' t' => I s' t' ∧ (matched = some true → p) := by
    apply (hI.keeps_replyNothing s t h).bind
    · exact fun _ _ _ h => ⟨h, nofun⟩
    · exact fun _ _ h => ⟨h, nofun⟩
  induction rounds generalizing s first
  case zero           => exact hn h
  case succ rounds ih =>
    rw [ServerHost.matchClassesLoop, ensures_bind, Serving.receiveTransaction, ensures_bind,
      ensures_get, then_some]
    split
    case h_1 => exact ⟨h, nofun⟩
    case h_2 packet inbox hi =>
      have h' : I { s with inbox := inbox } t := hI.inbox _ _ _ h
      rw [ensures_bind, ensures_modify, then_some, ensures_pure, then_some, hi]
      cases packet
      case none        => exact ⟨h', nofun⟩
      case some packet =>
        simp only [Option.map_some, ServerHost.classesMatched]
        split
        case isTrue =>
          cases first
          case false => exact hn h'
          case true  => exact ⟨h', fun _ => rfl⟩
        case isFalse =>
          cases host.classesDecide <| splitStringAsItemList ' ' [] packet.data.toCString
          case none         => exact ih h'
          case some matched =>
            cases matched
            case false => exact hn h'
            case true  => exact ⟨h', fun _ => rfl⟩

theorem keeps_sendNotAuthorized (hI : Stable short I) : Keeps I host.sendNotAuthorized := by
  unfold ServerHost.sendNotAuthorized
  exact (hI.keeps_sendText fun _ => host.fits_notAuthorized).bind fun _ => keeps_pure

theorem keeps_sendOutput (hI : Stable short I) {lines : List CString}
    (hl : short → ∀ line ∈ lines, line.all isspace = false → FitsText (printed <| line ++ ['\n'])) :
    Keeps I (ServerHost.sendOutput lines) := by
  induction lines
  case nil                 => exact keeps_pure
  case cons line lines ih =>
    have ih := ih fun hshort line' h => hl hshort line' <| List.mem_cons_of_mem _ h
    unfold ServerHost.sendOutput
    apply Keeps.ite
    · exact fun _ => ih
    · intro hline
      have hfits (hshort : short) :=
        hl hshort line List.mem_cons_self <| Bool.eq_false_of_not_eq_true hline
      apply (hI.keeps_sendText hfits).bind
      exact fun _ => .ite (fun _ => ih) fun _ => keeps_pure

theorem keeps_runCommand (hI : Stable short I) (hl : short → now.outputFits text) :
    Keeps I (ServerHost.runCommand now text) := by
  unfold ServerHost.runCommand
  unfold Surroundings.outputFits at hl
  cases hp : now.popen text
  case none        =>
    rw [hp] at hl
    exact (hI.keeps_sendText hl).bind fun _ => keeps_pure
  case some output =>
    rw [hp] at hl
    exact hI.keeps_sendOutput hl

end Stable
end CfEngine
