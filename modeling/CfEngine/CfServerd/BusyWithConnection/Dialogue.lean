import CfEngine.CfServerd.BusyWithConnection.Stable

namespace CfEngine

open Traced

-- The events that only send something, which fits in a packet.
def Event.IsSent : Event → Prop
  | .transaction _ len _ => FitsPacket len
  | .stream _            => True
  | _                    => False

-- The address of the peer is among those from which a key is accepted on trust.
def ServerHost.Trusts (host : ServerHost) (s : ServerState) : Prop :=
  s.sv.trustkeylist ≠ [] ∧ host.matchers.isMatchItemIn s.sv.trustkeylist (mapAddress s.conn.ipaddr) = true

-- The state and the trace before the end of a dialogue that starts with the given ones.
structure Dialogue (host : ServerHost) (s₀ : ServerState) (t₀ : List Event) (s : ServerState)
    (t : List Event) : Prop where
  hostname       : s.conn.hostname = s₀.conn.hostname
  username       : s.conn.username = s₀.conn.username
  ipaddr         : s.conn.ipaddr = s₀.conn.ipaddr
  id_verified    : s.conn.id_verified = s₀.conn.id_verified
  trust          : s.conn.trust = s₀.conn.trust ∨ s.conn.trust = true ∧ host.Trusts s₀
  allowuserlist  : s.sv.allowuserlist = s₀.sv.allowuserlist
  trustkeylist   : s.sv.trustkeylist = s₀.sv.trustkeylist
  exempt         : host.exempt s₀ = true → host.exempt s = true
  events         : ∃ new, t = new ++ t₀ ∧ ∀ e ∈ new, e.IsSent

-- The state and the trace after a dialogue that has been completed. The latest event says so.
inductive Completed (host : ServerHost) (s₀ : ServerState) (t₀ : List Event)
    (accepted : Option (CString × Bool)) (s : ServerState) : List Event → Prop
  | intro {key : Buffer} {t : List Event} (dialogue : Dialogue host s₀ t₀ s t)
      (session_key : s.conn.session_key = some key) (rsa_auth : s.conn.rsa_auth = true) :
      Completed host s₀ t₀ accepted s (.authenticated accepted key :: t)

def Concluded (host : ServerHost) (s₀ : ServerState) (t₀ : List Event)
    (accepted : Option (CString × Bool)) (r : Option Bool) (s : ServerState) (t : List Event) : Prop :=
  if r = some true then Completed host s₀ t₀ accepted s t else Dialogue host s₀ t₀ s t

section
variable {host : ServerHost} {s₀ s : ServerState} {t₀ t : List Event} {now : Surroundings}
  {accepted : Option (CString × Bool)} {e : Event}

namespace Dialogue

theorem refl : Dialogue host s₀ t₀ s₀ t₀ where
  hostname      := rfl
  username      := rfl
  ipaddr        := rfl
  id_verified   := rfl
  trust         := .inl rfl
  allowuserlist := rfl
  trustkeylist  := rfl
  exempt        := id
  events        := ⟨[], rfl, List.forall_mem_nil _⟩

theorem emit (h : Dialogue host s₀ t₀ s t) (he : e.IsSent) : Dialogue host s₀ t₀ s (e :: t) where
  __     := h
  events := by
    have ⟨new, ht, hn⟩ := h.events
    exact ⟨e :: new, by rw [ht]; rfl, fun e' h' => (List.mem_cons.mp h').elim (· ▸ he) (hn e')⟩

theorem stable : Stable True (Dialogue host s₀ t₀) where
  inbox       := fun _ _ _ h => { h with }
  sends       := fun _ _ _ h => { h with }
  transaction := fun _ _ _ _ _ hl h => h.emit (hl trivial)
  stream      := fun _ _ _ h => h.emit trivial

theorem refused (h : Dialogue host s₀ t₀ s t) : Dialogue host s₀ t₀ { s with sends := s.sends - 1 }
    (.transaction cfFailedStr (some (cfFailedStr.length : Int)) .done :: t) := by
  apply stable.transaction
  · exact fun _ => ⟨_, rfl, by decide⟩
  · exact stable.sends s t _ h

theorem receiveSessionKey (h : Dialogue host s₀ t₀ s t) {enterprise : Char} {out : Buffer} :
    (host.receiveSessionKey now accepted enterprise out).Ensures s t
      (Concluded host s₀ t₀ accepted) := by
  unfold ServerHost.receiveSessionKey
  apply (stable.keeps_receiveTransaction s t h).bind
  case hn => exact fun _ _ h => h
  case hs =>
    intro input s t h
    cases input
    case none       => exact h
    case some input =>
      simp only [Serving.setConn]
      rw [ensures_ite]
      constructor
      · exact fun _ => h
      · intro _
        rw [ensures_bind, ensures_modify, then_some]
        split
        · exact { h with }
        · rw [ensures_bind, ensures_modify, then_some, ensures_bind, ensures_emit, then_some,
            ensures_pure]
          exact .intro { h with } rfl rfl

theorem challengeClient (h : Dialogue host s₀ t₀ s t) {p : ServerHost.Proposal} {pubkey key : RsaKey}
    (hp : pubkey ∈ host.pubkey) (hk : host.crypto.rsaSize key ≤ cfBufSize - cfInbandOffset) : (host.challengeClient now p pubkey key accepted).Ensures s t
      (Concluded host s₀ t₀ accepted) := by
  have hreply {s t} (h : Dialogue host s₀ t₀ s t) {challenge out : Buffer} {next : Option Buffer → Serving Bool}
      (hnone : next none = pure false)
      (hsome : ∀ input, next (some input) = if ¬hashesMatch (host.crypto.hashString challenge) input then
        pure false else host.receiveSessionKey now accepted p.enterprise out) :
      (Serving.receiveTransaction >>= next).Ensures s t (Concluded host s₀ t₀ accepted) := by
    apply (stable.keeps_receiveTransaction s t h).bind
    case hn => exact fun _ _ h => h
    case hs =>
      intro input s t h
      cases input
      case none       =>
        rw [hnone]
        exact h
      case some input =>
        rw [hsome]
        exact ensures_ite.mpr ⟨fun _ => h, fun _ => h.receiveSessionKey⟩
  have hnumber {n : Nat} (hn : n < 256 ^ 256) : FitsPacket (transactionLength (host.crypto.bn2mpi n)
      (some ((host.crypto.bn2mpi n).length : Int))) :=
    fitsPacket_of_length <| (host.crypto.bn2mpi_length n 256 hn).trans (by decide)
  obtain ⟨hn, he⟩ := host.pubkey_lt pubkey hp
  unfold ServerHost.challengeClient
  dsimp only
  cases hout : host.crypto.publicEncrypt key (host.crypto.bn2mpi now.challenge)
  case none     => exact h
  case some out =>
    have hsize : FitsText out :=
      fitsText_of_length <| (host.crypto.publicEncrypt_length _ _ _ hout).trans_le hk
    apply (stable.keeps_sendTransaction (fun _ => fitsPacket_of_le hsize <| Int.ofNat_le.mpr hk) s t h).bind
    case hn => exact fun _ _ h => h
    case hs =>
      intro _ s t h
      apply ensures_ite.mpr
      constructor
      · intro _
        apply (stable.keeps_sendTransaction (fun _ => hnumber hn) s t h).bind
        case hn => exact fun _ _ h => h
        case hs =>
          intro _ s t h
          apply (stable.keeps_sendTransaction (fun _ => hnumber he) s t h).bind
          case hn => exact fun _ _ h => h
          case hs => exact fun _ _ _ h => hreply h rfl fun _ => rfl
      · exact fun _ => hreply h rfl fun _ => rfl

theorem trusts_iff (h : Dialogue host s₀ t₀ s t) : host.Trusts s ↔ host.Trusts s₀ := by
  rw [ServerHost.Trusts, ServerHost.Trusts, h.trustkeylist, h.ipaddr]

theorem acceptOnTrust (h : Dialogue host s₀ t₀ s t) :
    host.acceptOnTrust.Ensures s t fun known s t =>
      Dialogue host s₀ t₀ s t ∧ (known = some none → ¬host.Trusts s₀) := by
  rw [ServerHost.acceptOnTrust, ensures_bind, ensures_get, then_some, ensures_ite]
  constructor
  · intro ht
    rw [ensures_bind, Serving.setConn, ensures_modify, then_some]
    have h' : Dialogue host s₀ t₀ { s with conn := { s.conn with trust := true } } t :=
      { h with trust := .inr ⟨rfl, h.trusts_iff.mp ht⟩ }
    apply (stable.keeps_sendText (fun _ => by decide) _ _ h').bind
    · exact fun _ _ _ h => ⟨h, nofun⟩
    · exact fun _ _ h => ⟨h, nofun⟩
  · intro ht
    apply (stable.keeps_sendText (fun _ => by decide) s t h).bind
    · exact fun _ _ _ h' => ⟨h', fun _ => mt h.trusts_iff.mpr ht⟩
    · exact fun _ _ h => ⟨h, nofun⟩

theorem exempt_prepend (h : Dialogue host s₀ t₀ s t) {item : CString} :
    Dialogue host s₀ t₀
      { s with sv := { s.sv with skipverify := idempPrependItem s.sv.skipverify item } } t where
  __     := h
  exempt := by
    intro he
    have he := h.exempt he
    simp only [ServerHost.exempt, Matchers.isMatchItemIn, decide_eq_true_iff] at he ⊢
    apply he.imp_right
    intro he
    obtain ⟨name, hm, hn⟩ := List.any_eq_true.mp he
    exact List.any_eq_true.mpr ⟨name, mem_idempPrependItem hm, hn⟩

theorem checkStoreKey (h : Dialogue host s₀ t₀ s t) {key : RsaKey} :
    (host.checkStoreKey now key).Ensures s t fun known s t =>
      Dialogue host s₀ t₀ s t ∧ (known = some none → ¬host.Trusts s₀) := by
  have hrest {s t} (h : Dialogue host s₀ t₀ s t) {p : Prop} [Decidable p] :
      (show Serving (Option Bool) from do
        if p then
          let _ ← Serving.sendText "OK: key accepted".toList
          return some true
        else
          host.acceptOnTrust).Ensures s t fun known s t =>
        Dialogue host s₀ t₀ s t ∧ (known = some none → ¬host.Trusts s₀) := by
    apply ensures_ite.mpr
    constructor
    · intro _
      apply (stable.keeps_sendText (fun _ => by decide) s t h).bind
      · exact fun _ _ _ h => ⟨h, nofun⟩
      · exact fun _ _ h => ⟨h, nofun⟩
    · exact fun _ => h.acceptOnTrust
  rw [ServerHost.checkStoreKey, ensures_bind, ensures_get, then_some]
  apply ensures_ite.mpr
  constructor
  · exact fun _ => hrest h.exempt_prepend
  · exact fun _ => hrest h

theorem receiveNumber (h : Dialogue host s₀ t₀ s t) :
    host.receiveNumber.Ensures s t fun r s t => Dialogue host s₀ t₀ s t ∧ ∀ n, r = some (some n) →
      ∀ e, host.crypto.rsaSize ⟨n, e⟩ ≤ cfBufSize - cfInbandOffset := by
  apply (stable.receiveTransaction h).bind
  case hn => exact fun _ _ h => ⟨h.left, nofun⟩
  case hs =>
    intro data s t ⟨h, hl⟩
    cases data
    case none      => exact ⟨h, nofun⟩
    case some data =>
      rw [ensures_pure]
      refine ⟨h, fun n hn e => ?_⟩
      have ⟨_, hn⟩ := Option.ite_none_left_eq_some.mp <| Option.some.inj hn
      exact (host.crypto.rsaSize_le data n e hn).trans <| hl data rfl

theorem receiveKey (h : Dialogue host s₀ t₀ s t) :
    host.receiveKey.Ensures s t fun r s t => Dialogue host s₀ t₀ s t ∧ ∀ key, r = some (some key) →
      host.crypto.rsaSize key ≤ cfBufSize - cfInbandOffset := by
  apply h.receiveNumber.bind
  case hn => exact fun _ _ h => ⟨h.left, nofun⟩
  case hs =>
    intro n s t ⟨h, hn⟩
    cases n
    case none   => exact ⟨h, nofun⟩
    case some n =>
      apply h.receiveNumber.bind
      case hn => exact fun _ _ h => ⟨h.left, nofun⟩
      case hs =>
        intro e s t ⟨h, _⟩
        rw [ensures_pure]
        refine ⟨h, fun key hk => ?_⟩
        have ⟨e, _, hk⟩ := Option.map_eq_some_iff.mp <| Option.some.inj hk
        exact hk ▸ hn n rfl e

-- The dialogue comes to an acceptance of the key, under the name of the user, unless the peer has been
-- trusted before.
theorem authenticationDialogue {recvbuffer : Buffer} :
    (host.authenticationDialogue now recvbuffer).Ensures s₀ t₀ fun r s t => ∃ accepted,
      Concluded host s₀ t₀ accepted r s t ∧ (∀ a ∈ accepted, a.1 = s₀.conn.username) ∧
        (accepted = none → s₀.conn.trust = true ∧ ¬host.Trusts s₀) := by
  have hfail {r s t} (h : Dialogue host s₀ t₀ s t) (hr : r ≠ some true) : ∃ accepted,
      Concluded host s₀ t₀ accepted r s t ∧ (∀ a ∈ accepted, a.1 = s₀.conn.username) ∧
        (accepted = none → s₀.conn.trust = true ∧ ¬host.Trusts s₀) := by
    refine ⟨some (s₀.conn.username, true), ?_, fun a ha => ?_, nofun⟩
    · rwa [Concluded, if_neg hr]
    · rw [← Option.some.inj ha]
  unfold ServerHost.authenticationDialogue
  cases hp : host.pubkey
  case none        => exact hfail refl nofun
  case some pubkey =>
    dsimp only
    apply ensures_ite.mpr
    constructor
    · exact fun _ => hfail refl nofun
    · intro _
      apply ensures_ite.mpr
      constructor
      · exact fun _ => hfail refl nofun
      · intro _
        cases host.decryptNonce now (ServerHost.scanProposal recvbuffer.toCString) recvbuffer
        case none       => exact hfail refl nofun
        case some nonce =>
          apply refl.receiveKey.bind
          case hn => exact fun _ _ h => hfail h.left nofun
          case hs =>
            intro key s t ⟨h, hsize⟩
            cases key
            case none     => exact hfail h nofun
            case some key =>
              have h' : Dialogue host s₀ t₀
                  { s with conn := { s.conn with digest := host.crypto.hashPubKey key } } t :=
                { h with }
              rw [ensures_bind, Serving.setConn, ensures_modify, then_some, ensures_bind, ensures_get,
                then_some]
              apply h'.checkStoreKey.bind
              case hn => exact fun _ _ h => hfail h.left nofun
              case hs =>
                intro known s' t' ⟨hd, hk⟩
                rw [ensures_bind, ensures_get, then_some]
                apply ensures_ite.mpr
                constructor
                · exact fun _ => hfail hd nofun
                · intro ht
                  have hlen (text : Buffer) : FitsPacket (transactionLength text <| some (cfMd5Len : Int)) :=
                    ⟨cfMd5Len, rfl, by decide⟩
                  apply (stable.keeps_sendTransaction (fun _ => hlen _) s' t' hd).bind
                  case hn => exact fun _ _ h => hfail h nofun
                  case hs =>
                    intro _ s t hs
                    apply (hs.challengeClient hp <| hsize key rfl).imp
                    intro r s t hc
                    refine ⟨_, hc, ?_, ?_⟩
                    · intro a ha
                      have ⟨_, _, ha⟩ := Option.map_eq_some_iff.mp ha
                      rw [← ha, h'.username]
                    · intro hn
                      have hkn := Option.map_eq_none_iff.mp hn
                      have ht := not_not.mp <| not_and.mp ht hkn
                      have hnt := hk <| congrArg some hkn
                      exact ⟨hd.trust.elim (· ▸ ht) fun h => absurd h.right hnt, hnt⟩

end Dialogue
end
end CfEngine
