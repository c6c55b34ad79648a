import CfEngine.CfServerd.BusyWithConnection.Permitted

namespace CfEngine

open Traced

namespace Serves

variable {host : ServerHost} {asked : Asked} {s₀ s : ServerState} {t₀ t : List Event}
  {now : Surroundings} {recvbuffer : Buffer} {encrypted : Bool}

theorem serveVersion : host.serveVersion.Ensures s₀ t₀ fun _ => Serves host asked s₀ t₀ := by
  unfold ServerHost.serveVersion
  rw [ensures_bind, ensures_get, then_some]
  have hsend : Keeps (Serves host asked s₀ t₀) (show Serving Bool from do
      let _ ← Serving.sendText host.versionReply
      return s₀.conn.id_verified) :=
    (stable.keeps_sendText fun _ => host.fits_versionReply).bind fun _ => keeps_pure
  apply Keeps.ite _ _ _ _ refl
  · exact fun _ => (stable.keeps_refuseAccess fun _ => by decide).bind fun _ => hsend
  · exact fun _ => hsend

theorem serveGet (hd : (host.asksGet now s₀ recvbuffer).decision → asked.decision)
    (hs : asked.short → (host.asksGet now s₀ recvbuffer).short) :
    (host.serveGet now recvbuffer).Ensures s₀ t₀ fun _ => Serves host asked s₀ t₀ := by
  unfold ServerHost.serveGet
  apply ensures_ite.mpr
  constructor
  · exact fun _ => stable.keeps_refuse _ _ refl
  · intro hn
    apply verified
    intro hv
    have ⟨hz, hm⟩ := not_or.mp hn
    have hdecision : (host.asksGet now s₀ recvbuffer).decision := ⟨not_lt.mp hz, not_lt.mp hm, hv⟩
    apply accessControl hv (hd hdecision)
    case hf => exact stable.keeps_refuse
    case ht =>
      intro hr
      apply Keeps.bind
      · apply Granted.stable.keeps_cfGetFile
        · intro s t h hshort
          rw [h.conn]
          exact hs hshort ⟨hdecision, hr⟩
        · exact fun _ _ h => h.opened nofun
      · exact fun _ => keeps_pure

theorem serveOpendir (hd : s₀.conn.id_verified = true → asked.decision)
    (hs : asked.short → (host.asksOpendir now s₀ recvbuffer false).short) :
    (host.serveOpendir now recvbuffer).Ensures s₀ t₀ fun _ => Serves host asked s₀ t₀ := by
  unfold ServerHost.serveOpendir
  apply verified
  intro hv
  apply accessControl hv (hd hv)
  case hf => exact stable.keeps_refuse
  case ht =>
    intro hr
    apply Keeps.bind
    · apply Stable.keeps_openDirectory
      · apply Granted.stable.keeps_sendReply (absurd · Bool.false_ne_true)
        exact fun _ _ _ _ => Stable.fitsReply_of_length (by decide)
      · intro ha hdir
        apply Granted.stable.keeps_sendReply (absurd · Bool.false_ne_true)
        intro s t h hshort
        rw [h.session_key]
        exact hs hshort ⟨hv, hr⟩ ha hdir
      · intro packed status hp
        apply Granted.stable.keeps_sendTransaction
        intro _
        apply fitsPacket_of_length
        simp only [cfBufSize, cfInbandOffset, cfMaxLinkSize] at hp ⊢
        omega
      · exact fun _ _ h => h.opened (by rintro ⟨⟩)
    · exact fun _ => keeps_pure

theorem serveSync (hd : (host.asksSync now s₀ recvbuffer).decision → asked.decision)
    (hs : asked.short → (host.asksSync now s₀ recvbuffer).short) :
    (host.serveSync now recvbuffer).Ensures s₀ t₀ fun _ => Serves host asked s₀ t₀ := by
  unfold ServerHost.serveSync
  apply verified
  intro hv
  apply ensures_ite.mpr
  constructor
  · exact fun _ => stable.keeps_deny _ _ refl
  · intro hn
    have ⟨ht, hf⟩ := not_or.mp hn
    cases htime : now.time
    case none =>
      exact ((stable.keeps_sendText fun _ => by decide).bind fun _ => keeps_pure) _ _ refl
    case some tloc =>
      have hdecision : (host.asksSync now s₀ recvbuffer).decision := ⟨hv, ht, hf, htime ▸ nofun⟩
      apply accessControl hv (hd hdecision)
      case hf => exact stable.keeps_refuse
      case ht =>
        intro hr
        apply Keeps.ite <| absurd rfl
        intro _
        apply Keeps.ite
        · intro _
          apply (Granted.stable.keeps_sendText fun _ => _).bind fun _ => keeps_pure
          exact fun _ => ServerHost.fits_badClocks assignedNumber_bounds.left assignedNumber_bounds.right
        · intro hclocks
          apply Keeps.bind
          · apply Granted.stable.keeps_statFile
            · intro hshort
              apply (hs hshort ⟨hdecision, hr⟩).resolve_left
              intro ⟨tloc', ht', hd'⟩
              cases Option.some.inj <| htime.symm.trans ht'
              exact hclocks hd'
            · exact fun _ _ h => h.opened nofun
          · exact fun _ => keeps_pure

theorem serveMd5 (hh : s₀.conn.id_verified = true → asked.hash) :
    (host.serveMd5 now recvbuffer).Ensures s₀ t₀ fun _ s t => Serves host asked s₀ t₀ s t ∧
      (s₀.conn.id_verified = true → ∃ later f, t = later ++ .opened .hash f :: t₀) := by
  rw [ServerHost.serveMd5, ServerHost.verified, ensures_bind, ensures_get, then_some, ensures_ite]
  constructor
  case right => exact fun hv => (stable.keeps_refuse _ _ refl).imp fun _ _ _ h => ⟨h, (absurd · hv)⟩
  case left  =>
    intro hv
    rw [Surroundings.compareLocalHash, ensures_bind, ensures_bind, ensures_emit, then_some]
    have hsend {p : Prop} [Decidable p] {f} : (show Serving Unit from do
        if p then
          let _ ← Serving.sendText "CFD_FALSE".toList
        else
          let _ ← Serving.sendText "CFD_TRUE".toList).Ensures s₀ (.opened .hash f :: t₀)
        fun _ s t => Serves host asked s₀ (.opened .hash f :: t₀) s t := by
      apply Keeps.ite _ _ _ _ refl
      · exact fun _ => (stable.keeps_sendText fun _ => by decide).bind fun _ => keeps_pure
      · exact fun _ => (stable.keeps_sendText fun _ => by decide).bind fun _ => keeps_pure
    have hs {f s t} (h : Serves host asked s₀ (.opened .hash f :: t₀) s t) :
        Serves host asked s₀ t₀ s t ∧
          (s₀.conn.id_verified = true → ∃ later f, t = later ++ .opened .hash f :: t₀) := by
      obtain ⟨later, ht⟩ := h.follows
      exact ⟨h.widen ⟨hv, fun _ => hh hv, fun hn => absurd rfl hn⟩, fun _ => ⟨later, f, ht⟩⟩
    apply hsend.imp
    intro r s t h
    cases r <;> exact hs h

theorem serveVar (hd : s₀.conn.id_verified = true → asked.decision)
    (hc : encrypted = true → asked.cipher) :
    (host.serveVar encrypted recvbuffer).Ensures s₀ t₀ fun _ => Serves host asked s₀ t₀ := by
  unfold ServerHost.serveVar
  apply verified
  intro hv
  apply (keeps_literalAccessControl hv <| hd hv).bind _ _ _ refl
  intro _
  apply Keeps.ite
  · intro _
    apply Keeps.bind
    · apply stable.keeps_sendReply fun he => allowsCipher <| hc he
      exact fun _ _ _ _ => Stable.fitsReply_of_length (by decide)
    · exact fun _ => keeps_pure
  · exact fun _ => stable.keeps_refuse

theorem serveContext (hd : s₀.conn.id_verified = true → asked.decision)
    (hc : encrypted = true → asked.cipher)
    (hs : asked.short → (host.asksContext now s₀ recvbuffer encrypted).short) :
    (host.serveContext now encrypted recvbuffer).Ensures s₀ t₀ fun _ => Serves host asked s₀ t₀ := by
  unfold ServerHost.serveContext
  apply verified
  intro hv
  apply contextAccessControl hv (hd hv)
  apply Keeps.ite
  · exact fun _ => stable.keeps_refuse
  · intro hn
    apply Keeps.bind
    · apply stable.keeps_sendReply fun he => allowsCipher <| hc he
      intro s t h hshort
      rw [h.session_key]
      exact hs hshort ⟨hv, hn⟩
    · exact fun _ => keeps_pure

theorem decrypted {keyword plain : CString} {testsKey lengthBusy plainBusy : Bool}
    {asks : Buffer → Asked} {x : Buffer → Serving Bool}
    (hx : ∀ (asked : Asked) (t₁ : List Event), asked.cipher →
      ((asks <| host.decipher recvbuffer s₀.conn.session_key).decision → asked.decision) →
      ((asks <| host.decipher recvbuffer s₀.conn.session_key).hash → asked.hash) →
      (asked.short → (asks <| host.decipher recvbuffer s₀.conn.session_key).short) →
      (x <| host.decipher recvbuffer s₀.conn.session_key).Ensures s₀ t₁ fun _ s t =>
        Serves host asked s₀ t₁ s t ∧ ((asks <| host.decipher recvbuffer s₀.conn.session_key).hash →
          ∃ later f, t = later ++ .opened .hash f :: t₁)) :
    (host.decrypted keyword testsKey lengthBusy plain plainBusy recvbuffer x).Ensures s₀ t₀ fun _ =>
      Served host (host.asksDecrypted s₀ recvbuffer keyword testsKey plain asks) s₀ t₀ := by
  have hrefuse (hn : ¬(host.asksDecrypted s₀ recvbuffer keyword testsKey plain asks).cipher) {busy} :
      (ServerHost.refuse busy).Ensures s₀ t₀ fun _ =>
        Served host (host.asksDecrypted s₀ recvbuffer keyword testsKey plain asks) s₀ t₀ :=
    (stable.keeps_refuse _ _ refl).imp fun _ _ _ h => h.served hn fun hh => hn hh.left
  rw [ServerHost.decrypted, ensures_bind, ensures_get, then_some, ensures_ite]
  constructor
  · exact fun hl => hrefuse fun hc => hl hc.left
  · intro hl
    rw [ensures_ite]
    constructor
    · exact fun hk => hrefuse fun hc => hc.right hk
    · intro hk
      have hp : (host.asksDecrypted s₀ recvbuffer keyword testsKey plain asks).cipher :=
        ⟨not_not.mp hl, hk⟩
      rw [ensures_bind, Serving.ensures_decryptString, then_some, ensures_ite]
      constructor
      · intro hd
        apply (hx _ _ hp (⟨hp, hd, ·⟩) (⟨hp, hd, ·⟩) (· ⟨hp, hd⟩)).imp
        intro _ s t ⟨h, hh⟩
        refine ⟨h.widen ⟨hp, rfl⟩, fun _ => h.follows, fun hash => ?_⟩
        have ⟨later, f, ht⟩ := hh hash.right.right
        exact ⟨later, [_], f, ht, fun e he => ⟨_, List.mem_singleton.mp he⟩⟩
      · intro hd
        apply (stable.keeps_refuse _ _ refl).imp
        intro _ s t h
        exact ⟨h.widen ⟨hp, rfl⟩, fun _ => h.follows, fun hash => absurd hash.right.left hd⟩

theorem decrypted_of_serves {keyword plain : CString} {testsKey lengthBusy plainBusy : Bool}
    {asks : Buffer → Asked} {x : Buffer → Serving Bool}
    (hn : ¬(asks <| host.decipher recvbuffer s₀.conn.session_key).hash)
    (hx : ∀ (asked : Asked) (t₁ : List Event), asked.cipher →
      ((asks <| host.decipher recvbuffer s₀.conn.session_key).decision → asked.decision) →
      (asked.short → (asks <| host.decipher recvbuffer s₀.conn.session_key).short) →
      (x <| host.decipher recvbuffer s₀.conn.session_key).Ensures s₀ t₁ fun _ =>
        Serves host asked s₀ t₁) :
    (host.decrypted keyword testsKey lengthBusy plain plainBusy recvbuffer x).Ensures s₀ t₀ fun _ =>
      Served host (host.asksDecrypted s₀ recvbuffer keyword testsKey plain asks) s₀ t₀ := by
  apply decrypted
  intro asked t₁ hc hd _ hs
  exact (hx asked t₁ hc hd hs).imp fun _ _ _ h => ⟨h, (absurd · hn)⟩

theorem serveOpendirSecure (hl : recvbuffer.length < cfBufSize) :
    (host.serveOpendirSecure now recvbuffer).Ensures s₀ t₀ fun _ =>
      Served host (host.asks now s₀ recvbuffer .opendirSecure) s₀ t₀ := by
  unfold ServerHost.asks ServerHost.serveOpendirSecure
  apply decrypted_of_serves id
  intro asked t₁ hc hd hs
  have hf : translatePath (scanLine "OPENDIR".toList cfBufSize <| Buffer.toCString <|
      host.decipher recvbuffer s₀.conn.session_key) = scanLine "OPENDIR".toList cfBufSize
        (Buffer.toCString <| host.decipher recvbuffer s₀.conn.session_key) := by
    apply List.take_of_length_le
    have hs := scanLine_length "OPENDIR".toList cfBufSize <| Buffer.toCString <|
      host.decipher recvbuffer s₀.conn.session_key
    have hb := Buffer.toCString_length <| host.decipher recvbuffer s₀.conn.session_key
    have hr := host.decipher_length recvbuffer s₀.conn.session_key
    omega
  apply verified
  intro hv
  apply accessControl hv (hd hv)
  case hf => exact stable.keeps_refuse
  case ht =>
    intro hr
    apply Keeps.bind
    · apply Stable.keeps_openDirectory
      · apply Granted.stable.keeps_sendReply fun _ => Granted.allowsCipher hc
        exact fun _ _ _ _ => Stable.fitsReply_of_length (by decide)
      · intro ha hdir
        apply Granted.stable.keeps_sendReply fun _ => Granted.allowsCipher hc
        intro s t h hshort
        rw [h.session_key]
        exact hs hshort ⟨hv, hr⟩ ha hdir
      · intro packed status hp
        apply Granted.stable.keeps_sendEncrypted <| Granted.allowsCipher hc
        intro s t _ _ out ho
        rw [host.crypto.encrypt_length _ _ _ ho]
        simp only [cfBufSize, cfInbandOffset, cfMaxLinkSize] at hp ⊢
        omega
      · intro s t h
        have ho := h.opened (show FileUse.listing ≠ .hash by rintro ⟨⟩)
        rwa [hf] at ho
    · exact fun _ => keeps_pure

theorem serveSyncSecure : (host.serveSyncSecure now recvbuffer).Ensures s₀ t₀ fun _ =>
    Served host (host.asks now s₀ recvbuffer .syncSecure) s₀ t₀ := by
  unfold ServerHost.asks ServerHost.serveSyncSecure
  exact decrypted_of_serves id fun _ _ _ hd hs => serveSync hd hs

theorem serveMd5Secure : (host.serveMd5Secure now recvbuffer).Ensures s₀ t₀ fun _ =>
    Served host (host.asks now s₀ recvbuffer .md5Secure) s₀ t₀ := by
  unfold ServerHost.asks ServerHost.serveMd5Secure
  exact decrypted fun _ _ _ _ hh _ => serveMd5 hh

theorem serveVarSecure : (host.serveVarSecure recvbuffer).Ensures s₀ t₀ fun _ =>
    Served host (host.asks now s₀ recvbuffer .varSecure) s₀ t₀ := by
  unfold ServerHost.asks ServerHost.serveVarSecure
  exact decrypted_of_serves id fun _ _ hc hd _ => serveVar hd fun _ => hc

theorem serveContextSecure : (host.serveContextSecure now recvbuffer).Ensures s₀ t₀ fun _ =>
    Served host (host.asks now s₀ recvbuffer .contextSecure) s₀ t₀ := by
  unfold ServerHost.asks ServerHost.serveContextSecure
  exact decrypted_of_serves id fun _ _ hc hd hs => serveContext hd (fun _ => hc) hs

theorem serveQuerySecure : (host.serveQuerySecure recvbuffer).Ensures s₀ t₀ fun _ =>
    Served host (host.asks now s₀ recvbuffer .querySecure) s₀ t₀ := by
  unfold ServerHost.asks ServerHost.serveQuerySecure
  apply decrypted_of_serves id
  intro asked t₁ hc hd _
  apply verified
  intro hv
  apply (keeps_literalAccessControl hv (hd hv)).bind _ _ _ refl
  exact fun _ => .ite (fun _ => stable.keeps_deny) fun _ => stable.keeps_refuse

theorem serveCallMeBack : (host.serveCallMeBack recvbuffer).Ensures s₀ t₀ fun _ =>
    Served host (host.asks now s₀ recvbuffer .callMeBack) s₀ t₀ := by
  unfold ServerHost.asks ServerHost.serveCallMeBack
  apply decrypted_of_serves id
  intro asked t₁ hc hd _
  apply verified
  intro hv
  apply (keeps_literalAccessControl hv (hd hv)).bind _ _ _ refl
  exact fun _ => .ite (fun _ => keeps_pure) fun _ => stable.keeps_refuse

theorem serveGetSecure : (host.serveGetSecure now recvbuffer).Ensures s₀ t₀ fun _ =>
    Served host (host.asks now s₀ recvbuffer .getSecure) s₀ t₀ := by
  unfold ServerHost.serveGetSecure
  apply ensures_ite.mpr
  constructor
  · exact fun hl => (stable.keeps_refuse _ _ refl).imp fun _ _ _ h => h.served (absurd · hl) id
  · intro hl
    have hc : (host.asks now s₀ recvbuffer .getSecure).cipher := not_not.mp hl
    rw [ensures_bind, Serving.ensures_decryptString, then_some]
    have hs {s t} (h : Serves host (host.asks now s₀ recvbuffer .getSecure) s₀
        (.cipher s₀.conn.session_key :: t₀) s t) :
        Served host (host.asks now s₀ recvbuffer .getSecure) s₀ t₀ s t :=
      ⟨h.widen ⟨hc, rfl⟩, fun _ => h.follows, False.elim⟩
    suffices hserves : _ from Ensures.imp hserves fun _ _ _ h => hs h
    apply ensures_ite.mpr
    constructor
    · exact fun _ => stable.keeps_refuse _ _ refl
    · intro hp
      apply ensures_ite.mpr
      constructor
      · exact fun _ => stable.keeps_refuse _ _ refl
      · intro hn
        have ⟨hz, hm⟩ := not_or.mp hn
        apply verified
        intro hv
        have hd : (host.asks now s₀ recvbuffer .getSecure).decision :=
          ⟨hc, not_not.mp hp, not_lt.mp hz, not_lt.mp hm, hv⟩
        apply accessControl hv hd
        case hf => exact stable.keeps_refuse
        case ht =>
          intro hr
          apply Keeps.bind
          · apply Granted.stable.keeps_cfEncryptGetFile (Granted.allowsCipher hc)
            · intro s t h hshort
              rw [h.conn]
              exact hshort ⟨hd, hr⟩
            · exact fun _ _ h => h.opened nofun
          · exact fun _ => keeps_pure

end Serves

namespace Granted

variable {host : ServerHost} {asked : Asked} {s₀ s : ServerState} {t₀ t : List Event} {path : CString}
  {conn : ServerConnectionState} {now : Surroundings} {recvbuffer : Buffer} {before rest args : CString}

theorem checkArgs (h : Granted host asked s₀ t₀ path conn s t) (hd : asked.decision) {n : Nat} :
    (host.checkArgs n before rest).Ensures s t fun r s t => Granted host asked s₀ t₀ path conn s t ∧
      ∀ args, r = some (some args) → host.checkedArgs s₀.sv conn n before rest = some args := by
  have hrefuse {s t} (h : Granted host asked s₀ t₀ path conn s t) {n : Nat} {before rest : CString} :
      (show Serving (Option CString) from do
        host.sendNotAuthorized
        return none).Ensures s t fun r s t => Granted host asked s₀ t₀ path conn s t ∧
          ∀ args, r = some (some args) → host.checkedArgs s₀.sv conn n before rest = some args := by
    apply (stable.keeps_sendNotAuthorized s t h).bind
    · exact fun _ _ _ h => ⟨h, nofun⟩
    · exact fun _ _ h => ⟨h, nofun⟩
  induction n generalizing s t before rest
  case zero      => exact ⟨h, fun _ hr => Option.some.inj hr⟩
  case succ n ih =>
    unfold ServerHost.checkArgs
    apply ensures_ite.mpr
    constructor
    · exact fun _ => hrefuse h
    · intro hhead
      have hrest {s t} (h : Granted host asked s₀ t₀ path conn s t) {blanked : CString}
          (hc : host.checkedArgs s₀.sv conn (n + 1) before rest =
            host.checkedArgs s₀.sv conn n (blanked.take 1 ++ before) (blanked.drop 1)) :
          (host.checkArgs n (blanked.take 1 ++ before) (blanked.drop 1)).Ensures s t fun r s t =>
            Granted host asked s₀ t₀ path conn s t ∧ ∀ args, r = some (some args) →
              host.checkedArgs s₀.sv conn (n + 1) before rest = some args := by
        rw [hc]
        exact ih h
      apply ensures_ite.mpr
      constructor
      · intro hoption
        rw [ensures_bind, ServerHost.ensures_authorizeRoles, then_some, ensures_ite]
        constructor
        · exact fun _ => hrefuse <| h.decision hd
        · intro hroles
          apply hrest <| h.decision hd
          rw [h.serves.sv, h.conn] at hroles
          rw [ServerHost.checkedArgs, if_neg hhead, if_neg fun hn => hroles hn.right]
      · intro hoption
        apply hrest h
        rw [ServerHost.checkedArgs, if_neg hhead, if_neg fun hn => hoption hn.left]

theorem checkAndRun (h : Granted host asked s₀ t₀ path conn s t) (hd : asked.decision)
    (hs : asked.short → host.execFits now s₀.sv conn args) :
    (host.checkAndRun now args).Ensures s t fun _ => Granted host asked s₀ t₀ path conn := by
  unfold ServerHost.checkAndRun
  apply ensures_ite.mpr
  constructor
  · exact fun _ => ((stable.keeps_sendText fun _ => by decide).bind fun _ => keeps_pure) _ _ h
  · intro hcommand
    apply (h.checkArgs hd).bind
    case hn => exact fun _ _ h => h.left
    case hs =>
      intro r s t ⟨h, hr⟩
      cases r
      case none      => exact h
      case some args' =>
        have hfits (hshort : asked.short) := hs hshort hcommand args' <| hr args' rfl
        apply ensures_ite.mpr
        constructor
        · intro hlong
          apply (stable.keeps_sendText fun hshort => _).bind (fun _ => keeps_pure) s t h
          exact fun hshort => (if_pos hlong).mp <| hfits hshort
        · intro hlong
          have hfits (hshort : asked.short) := (if_neg hlong).mp <| hfits hshort
          apply Keeps.ite _ _ s t h
          · intro hargs
            apply stable.keeps_runCommand
            exact fun hshort => (if_pos hargs).mp <| hfits hshort
          · intro hargs
            have hfits (hshort : asked.short) := (if_neg hargs).mp <| hfits hshort
            apply (stable.keeps_sendText fun hshort => (hfits hshort).left).bind
            exact fun _ => stable.keeps_runCommand fun hshort => (hfits hshort).right

theorem doExec (h : Granted host asked s₀ t₀ path conn s t) (hd : asked.decision) (he : asked.exec)
    (hs : asked.short → host.execFits now s₀.sv conn args) :
    (host.doExec now args).Ensures s t fun _ => Granted host asked s₀ t₀ path conn := by
  rw [ServerHost.doExec, ensures_bind, ensures_get, then_some, ensures_bind, ensures_emit, then_some]
  apply checkAndRun _ hd hs
  exact h.emit fun _ _ => ⟨he, h.serves.username⟩

end Granted

namespace Serves

variable {host : ServerHost} {asked : Asked} {s₀ : ServerState} {t₀ : List Event}
  {now : Surroundings} {recvbuffer : Buffer}

theorem serveExec : (host.serveExec now recvbuffer).Ensures s₀ t₀ fun _ =>
    Serves host (host.asks now s₀ recvbuffer .exec) s₀ t₀ := by
  have hend : Keeps (Serves host (host.asks now s₀ recvbuffer .exec) s₀ t₀) (show Serving Bool from do
      Serving.terminate
      return false) :=
    stable.keeps_terminate.bind fun _ => keeps_pure
  apply verified
  intro hv
  rw [ensures_bind, ensures_get, then_some]
  apply ensures_ite.mpr
  constructor
  · exact fun _ => stable.keeps_refuse s₀ t₀ refl
  · intro ha
    apply ensures_ite.mpr
    constructor
    · exact fun _ => stable.keeps_refuse s₀ t₀ refl
    · intro hr
      have hd : (host.asks now s₀ recvbuffer .exec).decision := ⟨hv, not_not.mp ha, not_not.mp hr⟩
      rw [ensures_bind, ServerHost.ensures_accessControl, then_some]
      apply ensures_ite.mpr
      constructor
      · intro _
        apply stable.keeps_refuse
        exact (refl.decision hv hd).setConn Matchers.sameConn_accessControl
      · intro hg
        have hg := not_not.mp hg
        rw [hg]
        apply (Granted.stable.matchClassesLoop <| refl.granted hv hd Matchers.sameConn_accessControl).bind
        case hn => exact fun _ _ h => h.left.serves
        case hs =>
          intro matched s t ⟨h, hm⟩
          apply ensures_ite.mpr
          constructor
          · exact fun _ => hend s t h.serves
          · intro hmatched
            have he : (host.asks now s₀ recvbuffer .exec).exec :=
              ⟨hd, hg, hm <| congrArg some <| not_not.mp hmatched⟩
            apply (h.doExec hd he (· he)).bind
            · exact fun _ s t h => hend s t h.serves
            · exact fun _ _ h => h.serves

-- Only two commands change what is known about the peer.
theorem serve {command : ProtocolCommand} (hc : command ≠ .authClear) (hs : command ≠ .authSecure)
    (hl : recvbuffer.length < cfBufSize) :
    (host.serve now recvbuffer command).Ensures s₀ t₀ fun _ =>
      Served host (host.asks now s₀ recvbuffer command) s₀ t₀ := by
  have hplain {asked : Asked} {x : Serving Bool} (hc : ¬asked.cipher) (hh : ¬asked.hash)
      (hx : x.Ensures s₀ t₀ fun _ => Serves host asked s₀ t₀) :
      x.Ensures s₀ t₀ fun _ => Served host asked s₀ t₀ :=
    hx.imp fun _ _ _ h => h.served hc hh
  cases command
  case authClear     => exact absurd rfl hc
  case authSecure    => exact absurd rfl hs
  case exec          => exact hplain id id serveExec
  case get           => exact hplain id id <| serveGet id id
  case opendir       => exact hplain id id <| serveOpendir id id
  case sync          => exact hplain id id <| serveSync id id
  case md5           =>
    have hh : s₀.conn.id_verified = true → (host.asks now s₀ recvbuffer .md5).hash := id
    apply (serveMd5 hh).imp
    intro _ s t ⟨h, ho⟩
    refine ⟨h, False.elim, fun hv => ?_⟩
    have ⟨later, f, ht⟩ := ho hv
    exact ⟨later, [], f, ht, List.forall_mem_nil _⟩
  case md5Secure     => exact serveMd5Secure
  case syncSecure    => exact serveSyncSecure
  case getSecure     => exact serveGetSecure
  case version       => exact hplain id id serveVersion
  case opendirSecure => exact serveOpendirSecure hl
  case var           => exact hplain id id <| serveVar id (absurd · Bool.false_ne_true)
  case varSecure     => exact serveVarSecure
  case context       => exact hplain id id <| serveContext id (absurd · Bool.false_ne_true) id
  case contextSecure => exact serveContextSecure
  case querySecure   => exact serveQuerySecure
  case callMeBack    => exact serveCallMeBack
  case auth          => exact hplain id id <| stable.keeps_deny _ _ refl
  case contexts      => exact hplain id id <| stable.keeps_deny _ _ refl
  case bad           => exact hplain id id <| stable.keeps_deny _ _ refl

end Serves
end CfEngine
