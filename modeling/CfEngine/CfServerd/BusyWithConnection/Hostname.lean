import CfEngine.CfServerd.BusyWithConnection.Round
import CfEngine.Library.Run

namespace CfEngine

open Traced

-- The names that a peer has been identified with.
structure Identity where
  hostname : CString
  username : CString
  trust    : Bool
  resolved : Bool

def Event.identity : Event → Option Identity
  | .identified hostname username trust resolved => some ⟨hostname, username, trust, resolved⟩
  | _                                            => none

def lastIdentity (events : List Event) : Option Identity :=
  events.findSome? Event.identity

theorem lastIdentity_append {new events : List Event} (h : ∀ e ∈ new, e.identity = none) :
    lastIdentity (new ++ events) = lastIdentity events := by
  rw [lastIdentity, List.findSome?_append, List.findSome?_eq_none_iff.mpr h, Option.none_or]
  rfl

theorem Event.IsSent.identity {e : Event} (h : e.IsSent) : e.identity = none := by
  cases e <;> first | rfl | cases h

theorem Serves.lastIdentity {host : ServerHost} {asked : Asked} {s₀ s : ServerState}
    {t₀ t : List Event} (h : Serves host asked s₀ t₀ s t) : lastIdentity t = lastIdentity t₀ := by
  have ⟨new, ht, hn⟩ := h.events
  rw [ht]
  apply lastIdentity_append
  intro e he
  have ⟨_, hp⟩ := hn.exists_of_mem he
  cases e
  case identified => cases hp
  all_goals rfl

theorem Dialogue.lastIdentity {host : ServerHost} {s₀ s : ServerState} {t₀ t : List Event}
    (h : Dialogue host s₀ t₀ s t) : lastIdentity t = lastIdentity t₀ := by
  have ⟨new, ht, hn⟩ := h.events
  rw [ht]
  exact lastIdentity_append fun e he => (hn e he).identity

-- A dialogue has been completed in which the key of the peer was known.
def KeyKnown (events : List Event) : Prop :=
  ∃ username key, .authenticated (some (username, true)) key ∈ events

-- A decision is taken only about a name that has been resolved, or for a peer for which this is not needed.
def Event.IsVerified (earlier : List Event) : Event → Prop
  | .decision _ conn exempt _ => exempt = true ∨ KeyKnown earlier ∨
    ∃ identity ∈ lastIdentity earlier, identity.hostname = conn.hostname ∧ identity.resolved = true
  | _                         => True

namespace Connection

def DecidesVerified (c : Connection) : Prop :=
  Justified Event.IsVerified c.trace

-- The next round takes a decision for a peer that is not listed and whose key has not been known, after it has
-- identified itself without being trusted.
def DecidesUntrusted (host : ServerHost) (c : Connection) (now : Surroundings) : Prop :=
  host.exempt c.state = false ∧ ¬KeyKnown c.trace ∧
    (∀ identity ∈ lastIdentity c.trace, identity.trust = false) ∧ ∃ recvbuffer,
      c.request now = some recvbuffer ∧
        (host.asks now c.received recvbuffer <| getCommand recvbuffer.toCString).decision

-- The name of a peer that has been identified under trust has been resolved, unless the peer is listed.
structure HasResolved (host : ServerHost) (c : Connection) : Prop where
  verified : c.DecidesVerified
  identity : c.busy = true → c.state.conn.id_verified = true → ∃ identity ∈ lastIdentity c.trace,
    identity.hostname = c.state.conn.hostname ∧
      (identity.resolved = true ∨ identity.trust = false ∨ host.exempt c.state = true)

variable {host : ServerHost} {c : Connection} {now : Surroundings}

theorem HasResolved.step (h : c.HasResolved host) (hg : ¬c.DecidesUntrusted host now) :
    (c.step host now).HasResolved host where
  verified := by
    apply (step_round host c now).justified h.verified
    · intro _ e he
      cases e
      case decision => exact absurd trivial he
      all_goals trivial
    · intro recvbuffer earlier e hr hj he
      cases e
      case decision conn exempt _ =>
        have ⟨hd, hv, hc, hx⟩ := he
        by_cases hexempt : host.exempt c.state = true
        case pos => exact .inl <| hx.trans hexempt
        by_cases hknown : KeyKnown c.trace
        case pos =>
          have ⟨username, key, hk⟩ := hknown
          exact .inr <| .inl ⟨username, key, List.mem_append_right _ <| List.mem_cons_of_mem _ hk⟩
        have ⟨identity, hi, hh, hi'⟩ := h.identity (busy_of_request hr) hv
        have hs : Serves host _ c.received (.request :: c.trace) c.received
            (earlier ++ .request :: c.trace) := ⟨.refl, rfl, earlier, rfl, hj⟩
        refine .inr <| .inr ⟨identity, hs.lastIdentity ▸ hi, by rw [hh, hc]; rfl, ?_⟩
        rcases hi' with hresolved | htrust | hx'
        · exact hresolved
        · have hlast : ∀ i ∈ lastIdentity c.trace, i.trust = false := by
            intro i hi₂
            rwa [← Option.some.inj <| hi.symm.trans hi₂]
          exact absurd ⟨Bool.eq_false_of_not_eq_true hexempt, hknown, hlast, recvbuffer, hr, hd⟩ hg
        · exact absurd hx' hexempt
      all_goals trivial
  identity := by
    have hround := step_round host c now
    generalize c.step host now = c' at hround
    cases hround
    case idle hb                  => exact fun hb' => h.identity <| hb hb'
    case closed                   => exact nofun
    case identified hb hi         =>
      cases hi
      case intro _ hr =>
        exact fun _ _ => ⟨_, rfl, rfl, hr⟩
    case authenticated hb hv hc _ _ =>
      cases hc
      case intro key t hd hs _ =>
        intro _ _
        have ⟨identity, hi, hh, hi'⟩ := h.identity hb hv
        refine ⟨identity, hd.lastIdentity ▸ hi, hh.trans hd.hostname.symm, ?_⟩
        exact hi'.imp_right (Or.imp_right hd.exempt)
    case served hr hserved        =>
      intro _ hv
      have ⟨identity, hi, hh, hi'⟩ := h.identity (busy_of_request hr) <| hserved.serves.id_verified ▸ hv
      refine ⟨identity, hserved.serves.lastIdentity ▸ hi, ?_, ?_⟩
      · rw [hh, hserved.serves.conn]; rfl
      · exact hi'.imp_right (Or.imp_right fun he => hserved.serves.exempt ▸ he)

theorem always_decidesVerified {memory : ServerConnectionState} {ipaddr : CString}
    {sv : ServerAccess} {inbox : List (Option Packet)} {sends : Nat} {rounds : List Surroundings}
    (h : Run.EveryStep (fun c now => ¬c.DecidesUntrusted host now) (step host)
      (new memory ipaddr sv inbox sends) rounds) :
    Run.Always DecidesVerified (step host) (new memory ipaddr sv inbox sends) rounds := by
  have h₀ : (new memory ipaddr sv inbox sends).HasResolved host := ⟨trivial, fun _ => nofun⟩
  exact (h.always h₀ fun _ _ h hg => h.step hg).imp fun _ h => h.verified

theorem always_decidesVerified_listed :
    Run.Always DecidesVerified (step publicHost)
      (new (publicPeer []) ['1'] { closedAccess with skipverify := [['1']] }
        [some ⟨"CAUTH 1 a b".toList, by decide⟩, some ⟨"GET 0 /b".toList, by decide⟩] 9)
      [.calm, .calm] := by
  apply always_decidesVerified
  exact ⟨fun h => absurd h.left (by decide), fun h => absurd h.left (by decide), trivial⟩

-- A request for a file after the first message has given a name.
theorem not_always_decidesVerified : ¬∀ (host : ServerHost) (memory : ServerConnectionState)
    (ipaddr : CString) (sv : ServerAccess) (inbox : List (Option Packet)) (sends : Nat)
    (rounds : List Surroundings), Run.Always DecidesVerified (step host)
      (new memory ipaddr sv inbox sends) rounds := by
  intro h
  have h := h publicHost (publicPeer []) ['1'] closedAccess
    [some ⟨"CAUTH 1 a b".toList, by decide⟩, some ⟨"GET 0 /b".toList, by decide⟩] 9 [.calm, .calm]
  have hd : false = true ∨ KeyKnown [.request, .identified ['a'] ['b'] false false, .request] ∨ ∃ identity ∈
      some (Identity.mk ['a'] ['b'] false false), identity.hostname = ['a'] ∧ identity.resolved = true :=
    h.right.right.right.left
  rcases hd with hexempt | ⟨_, _, hknown⟩ | ⟨_, hi, _, hresolved⟩
  · cases hexempt
  · simp at hknown
  · cases hi
    cases hresolved

end Connection
end CfEngine
