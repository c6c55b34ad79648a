import CfEngine.CfServerd.BusyWithConnection.Commands
import CfEngine.CfServerd.BusyWithConnection.Dialogue

namespace CfEngine

open Traced

-- The events that occur only in requests that neither identify nor authenticate the peer.
def Event.IsPermitted : Event → Prop
  | .decision .. | .opened .. | .cipher _ | .executed _ => True
  | _                                                   => False

theorem Event.IsSent.not_isPermitted {e : Event} (h : e.IsSent) : ¬e.IsPermitted := by
  cases e <;> first | exact id | cases h

-- The state and the trace after a name has been accepted in the given ones.
inductive Identified (host : ServerHost) (s₀ : ServerState) (t₀ : List Event) :
    ServerState → List Event → Prop
  | intro {hostname username : CString} {uid : UInt32} {resolved : Bool}
      (hostname_lt : hostname.length < cfMaxVarSize)
      (resolved_or : resolved = true ∨ s₀.conn.trust = false ∨ host.exempt s₀ = true) :
      Identified host s₀ t₀
        { s₀ with conn :=
          { s₀.conn with
            hostname := hostname, username := username, uid := uid, id_verified := true,
            hostname_lt := hostname_lt } }
        (.identified hostname username s₀.conn.trust resolved :: t₀)

namespace ServerHost

variable {host : ServerHost} {now : Surroundings} {s₀ : ServerState} {t₀ : List Event}

theorem ensures_verifyConnection {buf : CString} :
    (host.verifyConnection now buf).Ensures s₀ t₀ fun r s t =>
      if r = some true then
        Identified host s₀ t₀ { s with conn := { s.conn with id_verified := true } } t
      else t = t₀ := by
  unfold verifyConnection
  dsimp only
  rw [ensures_bind, ensures_get, then_some]
  apply ensures_ite.mpr
  constructor
  · intro hc
    rw [Serving.setConn, ensures_bind, ensures_modify, then_some, ensures_bind, ensures_emit, then_some,
      ensures_pure, if_pos rfl]
    exact .intro (scanIdentity_lt buf) <| .inr <| hc.imp_left Bool.eq_false_of_not_eq_true
  · intro _
    iterate 3
      apply ensures_ite.mpr
      constructor
      · exact fun _ => rfl
      intro _
    rw [Serving.setConn, ensures_bind, ensures_modify, then_some]
    apply ensures_ite.mpr
    constructor
    · exact fun _ => rfl
    · intro _
      rw [Serving.setConn, ensures_bind, ensures_modify, then_some, ensures_bind, ensures_emit, then_some,
        ensures_pure, if_pos rfl]
      exact .intro (scanIdentity_lt buf) <| .inl rfl

end ServerHost

namespace Connection

-- The message that the next round works on.
def request (c : Connection) (now : Surroundings) : Option Buffer :=
  match c.busy, c.state.inbox with
  | true, some packet :: _ =>
    if packet.data.toCString = [] ∨ now.terminating then none else some packet.data
  | _, _                   => none

def received (c : Connection) : ServerState :=
  { c.state with inbox := c.state.inbox.tail }

-- What a round does to a connection.
inductive Round (host : ServerHost) (c : Connection) (now : Surroundings) : Connection → Prop
  | idle {inbox : List (Option Packet)} {busy : Bool} (still_busy : busy = true → c.busy = true) :
      Round host c now ⟨{ c.state with inbox := inbox }, c.trace, busy⟩
  | closed {s : ServerState} {new : List Event} (sent : ∀ e ∈ new, e.IsSent) :
      Round host c now ⟨s, new ++ .request :: c.trace, false⟩
  | identified {s : ServerState} {t : List Event} (was_busy : c.busy = true)
      (identified : Identified host c.received (.request :: c.trace) s t) : Round host c now ⟨s, t, true⟩
  | authenticated {accepted : Option (CString × Bool)} {s : ServerState} {t : List Event}
      (was_busy : c.busy = true) (id_verified : c.state.conn.id_verified = true)
      (completed : Completed host c.received (.request :: c.trace) accepted s t)
      (username : ∀ a ∈ accepted, a.1 = c.state.conn.username)
      (trusted : accepted = none → c.state.conn.trust = true ∧ ¬host.Trusts c.state) :
      Round host c now ⟨s, t, true⟩
  | served {recvbuffer : Buffer} {s : ServerState} {t : List Event} {busy : Bool}
      (request : c.request now = some recvbuffer)
      (served : Served host (host.asks now c.received recvbuffer <| getCommand recvbuffer.toCString)
        c.received (.request :: c.trace) s t) : Round host c now ⟨s, t, busy⟩

variable {host : ServerHost} {c : Connection} {now : Surroundings} {recvbuffer : Buffer}

theorem busy_of_request (h : c.request now = some recvbuffer) : c.busy = true := by
  unfold request at h
  split at h
  case h_1 hb _ => exact hb
  case h_2      => cases h

theorem ensures_serveAuthClear (hb : c.busy = true) :
    (host.serveAuthClear now recvbuffer).Ensures c.received (.request :: c.trace)
      fun r s t => Round host c now ⟨s, t, r.getD false⟩ := by
  unfold ServerHost.serveAuthClear
  apply ServerHost.ensures_verifyConnection.bind
  case hn =>
    intro s t ht
    rw [show t = _ from ht]
    exact .closed <| List.forall_mem_nil _
  case hs =>
    intro accepted s t h
    rw [Serving.setConn, ensures_bind, ensures_modify, then_some]
    cases accepted
    case false =>
      rw [show t = _ from h]
      apply ServerHost.ensures_refuse.mpr
      have he : Event.IsSent (.transaction cfFailedStr (some (cfFailedStr.length : Int)) .done) :=
        ⟨_, rfl, by decide⟩
      exact .closed fun _ h => List.mem_singleton.mp h ▸ he
    case true  => exact .identified hb h

theorem ensures_serveAuthSecure (hb : c.busy = true) :
    (host.serveAuthSecure now recvbuffer).Ensures c.received (.request :: c.trace)
      fun r s t => Round host c now ⟨s, t, r.getD false⟩ := by
  have hclosed {s t} (h : Dialogue host c.received (.request :: c.trace) s t) :
      Round host c now ⟨s, t, false⟩ := by
    have ⟨_, ht, hn⟩ := h.events
    exact ht ▸ .closed hn
  unfold ServerHost.serveAuthSecure ServerHost.verified
  rw [ensures_bind, ensures_get, then_some, ensures_ite]
  constructor
  case right =>
    exact fun _ => ServerHost.ensures_refuse.mpr <| hclosed <| Dialogue.refl.refused
  case left  =>
    intro hv
    apply Dialogue.authenticationDialogue.bind
    case hn => exact fun s t ⟨_, h, _⟩ => hclosed h
    case hs =>
      intro completed s t ⟨accepted, h, hu, ht⟩
      cases completed
      case false => exact ServerHost.ensures_refuse.mpr <| hclosed <| Dialogue.refused h
      case true  => exact .authenticated hb hv h hu ht

variable (host) in
theorem step_of_not_requested (hr : c.request now = none) : ∃ inbox busy,
    (busy = true → c.busy = true) ∧ c.step host now = ⟨{ c.state with inbox := inbox }, c.trace, busy⟩ := by
  unfold step
  split
  case isFalse => exact ⟨c.state.inbox, c.busy, id, rfl⟩
  case isTrue hb  =>
    suffices h : (host.busyWithConnection now).Ensures c.state c.trace fun r s t => ∃ inbox busy,
        (busy = true → c.busy = true) ∧
          Connection.mk s t (r.getD false) = ⟨{ c.state with inbox := inbox }, c.trace, busy⟩ from h
    have hidle (inbox) : ∃ inbox' busy, (busy = true → c.busy = true) ∧
        Connection.mk { c.state with inbox := inbox } c.trace false =
          ⟨{ c.state with inbox := inbox' }, c.trace, busy⟩ := ⟨inbox, false, Bool.noConfusion, rfl⟩
    unfold ServerHost.busyWithConnection Serving.receiveTransaction
    rw [ensures_bind, ensures_bind, ensures_get, then_some]
    rw [request, hb] at hr
    cases hi : c.state.inbox
    case nil              => exact hidle c.state.inbox
    case cons packet rest =>
      rw [hi] at hr
      rw [ensures_bind, ensures_modify, then_some, ensures_pure, then_some]
      cases packet
      case none        => exact hidle rest
      case some packet =>
        apply ensures_ite.mpr
        constructor
        · exact fun _ => hidle rest
        · exact fun hn => absurd (ite_eq_left_iff.mp hr hn) nofun

theorem step_of_requested (hr : c.request now = some recvbuffer) {Q : Connection → Prop}
    (hq : (host.serve now recvbuffer <| getCommand recvbuffer.toCString).Ensures c.received
      (.request :: c.trace) fun r s t => Q ⟨s, t, r.getD false⟩) : Q (c.step host now) := by
  have hb := busy_of_request hr
  rw [step, if_pos hb]
  suffices h : (host.busyWithConnection now).Ensures c.state c.trace fun r s t =>
    Q ⟨s, t, r.getD false⟩ from h
  unfold ServerHost.busyWithConnection Serving.receiveTransaction
  rw [ensures_bind, ensures_bind, ensures_get, then_some]
  unfold received at hq
  unfold request at hr
  split at hr
  case h_2 => cases hr
  case h_1 packet rest _ hi =>
    have ⟨hn, hp⟩ := Option.ite_none_left_eq_some.mp hr
    cases hp
    rw [hi] at hq ⊢
    rw [ensures_bind, ensures_modify, then_some, ensures_pure, then_some]
    apply ensures_ite.mpr
    constructor
    · exact (absurd · hn)
    · intro _
      rw [ensures_bind, ensures_emit, then_some]
      exact hq

theorem request_length (hr : c.request now = some recvbuffer) : recvbuffer.length < cfBufSize := by
  unfold request at hr
  split at hr
  case h_2 => cases hr
  case h_1 packet _ _ _ =>
    have ⟨_, hp⟩ := Option.ite_none_left_eq_some.mp hr
    exact Option.some.inj hp ▸ packet.length_le.trans_lt (by decide)

theorem step_served (hr : c.request now = some recvbuffer)
    (hc : getCommand recvbuffer.toCString ≠ .authClear)
    (hs : getCommand recvbuffer.toCString ≠ .authSecure) :
    Served host (host.asks now c.received recvbuffer <| getCommand recvbuffer.toCString) c.received
      (.request :: c.trace) (c.step host now).state (c.step host now).trace := by
  apply step_of_requested hr (Q := fun c' => Served host _ c.received _ c'.state c'.trace)
  exact Serves.serve hc hs <| request_length hr

variable (host c now) in
theorem step_round : Round host c now (c.step host now) := by
  cases hr : c.request now
  case none            =>
    have ⟨_, _, hb, hs⟩ := step_of_not_requested host hr
    exact hs ▸ .idle hb
  case some recvbuffer =>
    have hb := busy_of_request hr
    apply step_of_requested hr
    by_cases hc : getCommand recvbuffer.toCString = .authClear
    · rw [hc]
      exact ensures_serveAuthClear hb
    by_cases hs : getCommand recvbuffer.toCString = .authSecure
    · rw [hs]
      exact ensures_serveAuthSecure hb
    apply (Serves.serve hc hs <| request_length hr).imp
    exact fun _ _ _ h => .served hr h

-- A property of the events of a trace is kept by a round if it holds of all events that only say what has been
-- sent, or who the peer is, and of those that are permitted in the request that is served.
theorem Round.justified {J : List Event → Event → Prop} {c' : Connection} (hr : Round host c now c')
    (h : Justified J c.trace) (hj : ∀ earlier e, ¬e.IsPermitted → J earlier e)
    (hs : ∀ recvbuffer earlier e, c.request now = some recvbuffer →
      Justified (Permits host (host.asks now c.received recvbuffer <| getCommand recvbuffer.toCString)
        c.received) earlier →
      Permits host (host.asks now c.received recvbuffer <| getCommand recvbuffer.toCString) c.received
        earlier e → J (earlier ++ .request :: c.trace) e) : Justified J c'.trace := by
  have hrequest : Justified J (.request :: c.trace) := ⟨hj _ _ id, h⟩
  have hsent {new : List Event} (hn : ∀ e ∈ new, e.IsSent) :
      Justified J (new ++ .request :: c.trace) := by
    apply Justified.append hrequest <| justified_of_forall (J := fun _ e => e.IsSent) fun e he _ => hn e he
    exact fun _ _ _ he => hj _ _ he.not_isPermitted
  cases hr
  case idle                  => exact h
  case closed sent           => exact hsent sent
  case identified hi         =>
    cases hi
    exact ⟨hj _ _ id, hrequest⟩
  case authenticated hc _ _  =>
    cases hc
    case intro key t hd _ _ =>
      have ⟨new, ht, hn⟩ := hd.events
      exact ⟨hj _ _ id, ht ▸ hsent hn⟩
  case served hreq hserved   =>
    have ⟨new, ht, hn⟩ := hserved.serves.events
    rw [show _ = _ from ht]
    exact Justified.append hrequest hn fun earlier e => hs _ earlier e hreq

end Connection
end CfEngine
