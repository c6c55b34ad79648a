import CfEngine.CfServerd.BusyWithConnection.Round
import CfEngine.Library.Run

namespace CfEngine

open Traced

-- The cipher is used only with a key that has been set by an earlier dialogue.
def Event.UsesSessionKey (earlier : List Event) : Event → Prop
  | .cipher key => ∃ session_key accepted, key = some session_key ∧
    .authenticated accepted session_key ∈ earlier
  | _           => True

namespace Connection

def UsesSessionKeys (c : Connection) : Prop :=
  Justified Event.UsesSessionKey c.trace

-- The next round uses the cipher without a key.
def DecryptsWithoutKey (host : ServerHost) (c : Connection) (now : Surroundings) : Prop :=
  c.state.conn.session_key = none ∧ ∃ recvbuffer, c.request now = some recvbuffer ∧
    (host.asks now c.received recvbuffer <| getCommand recvbuffer.toCString).cipher

-- The session key of a connection that is still handled has been set by a dialogue.
structure HasSetKey (c : Connection) : Prop where
  uses : c.UsesSessionKeys
  set  : c.busy = true → ∀ key ∈ c.state.conn.session_key, ∃ accepted, .authenticated accepted key ∈ c.trace

variable {host : ServerHost} {c : Connection} {now : Surroundings}

theorem HasSetKey.step (h : c.HasSetKey) (hg : ¬c.DecryptsWithoutKey host now) :
    (c.step host now).HasSetKey where
  uses := by
    apply (step_round host c now).justified h.uses
    · intro _ e he
      cases e
      case cipher => exact absurd trivial he
      all_goals trivial
    · intro recvbuffer earlier e hr _ he
      cases e
      case cipher key =>
        cases hk : c.state.conn.session_key
        case none             => exact absurd ⟨hk, recvbuffer, hr, he.left⟩ hg
        case some session_key =>
          have ⟨accepted, ha⟩ := h.set (busy_of_request hr) session_key hk
          refine ⟨session_key, accepted, he.right.trans hk, ?_⟩
          exact List.mem_append_right _ <| List.mem_cons_of_mem _ ha
      all_goals trivial
  set  := by
    have hround := step_round host c now
    generalize c.step host now = c' at hround
    cases hround
    case idle hb                 => exact fun hb' => h.set <| hb hb'
    case closed                  => exact nofun
    case identified hb hi        =>
      cases hi
      intro _ key hk
      have ⟨accepted, ha⟩ := h.set hb key hk
      exact ⟨accepted, List.mem_cons_of_mem _ <| List.mem_cons_of_mem _ ha⟩
    case authenticated _ _ hc _ _ =>
      cases hc
      case intro key t _ hs _ =>
        intro _ key' hk
        cases hs.symm.trans hk
        exact ⟨_, List.mem_cons_self⟩
    case served hr hserved       =>
      intro _ key hk
      have ⟨new, ht, _⟩ := hserved.serves.events
      have ⟨accepted, ha⟩ := h.set (busy_of_request hr) key <| hserved.serves.session_key ▸ hk
      rw [show _ = _ from ht]
      exact ⟨accepted, List.mem_append_right _ <| List.mem_cons_of_mem _ ha⟩

theorem not_usesSessionKeys (hg : c.DecryptsWithoutKey host now) :
    ¬(c.step host now).UsesSessionKeys := by
  intro h
  have ⟨hk, recvbuffer, hr, ha⟩ := hg
  have hs : Served host (host.asks now c.received recvbuffer <| getCommand recvbuffer.toCString)
      c.received (.request :: c.trace) (c.step host now).state (c.step host now).trace := by
    apply step_served hr
    · exact fun hc => by rw [hc] at ha; exact ha
    · exact fun hc => by rw [hc] at ha; exact ha
  have ⟨later, ht⟩ := hs.ciphered ha
  unfold UsesSessionKeys at h
  rw [ht] at h
  have ⟨session_key, _, hkey, _⟩ := h.of_append
  cases hk.symm.trans hkey

theorem always_usesSessionKeys_iff {memory : ServerConnectionState} {ipaddr : CString}
    {sv : ServerAccess} {inbox : List (Option Packet)} {sends : Nat} {rounds : List Surroundings} :
    Run.Always UsesSessionKeys (step host) (new memory ipaddr sv inbox sends) rounds ↔
      Run.EveryStep (fun c now => ¬c.DecryptsWithoutKey host now) (step host)
        (new memory ipaddr sv inbox sends) rounds := by
  have h₀ : (new memory ipaddr sv inbox sends).HasSetKey := ⟨trivial, nofun⟩
  apply Run.always_iff_everyStep h₀ <| Run.everyStep_of_forall (G := fun _ _ => True) fun _ _ => trivial
  · exact fun _ h => h.uses
  · exact fun _ _ h _ hg => h.step hg
  · exact fun _ _ _ _ hg => not_usesSessionKeys <| not_not.mp hg

-- An encrypted request as the first message of a client.
theorem not_always_usesSessionKeys : ¬∀ (host : ServerHost) (memory : ServerConnectionState)
    (ipaddr : CString) (sv : ServerAccess) (inbox : List (Option Packet)) (sends : Nat)
    (rounds : List Surroundings), Run.Always UsesSessionKeys (step host)
      (new memory ipaddr sv inbox sends) rounds := by
  intro h
  have h := h publicHost (publicPeer []) ['1'] closedAccess
    [some ⟨"SVAR 8          ........".toList, by decide⟩] 9 [.calm]
  apply not_usesSessionKeys _ h.right
  exact ⟨rfl, "SVAR 8          ........".toList, by decide, by decide, by decide⟩

end Connection

open Traced

-- The length with which `SendTransaction` is called does not end the server.
def Event.IsShort : Event → Prop
  | .transaction _ len _ => FitsPacket len
  | _                    => True

theorem Event.IsSent.isShort {e : Event} (h : e.IsSent) : e.IsShort := by
  cases e <;> first | exact h | trivial

namespace Connection

def SendsShort (c : Connection) : Prop :=
  ∀ e ∈ c.trace, e.IsShort

-- The replies to the request of the next round, if there is one, are short.
def RequestsShort (host : ServerHost) (c : Connection) (now : Surroundings) : Prop :=
  ∀ recvbuffer, c.request now = some recvbuffer →
    (host.asks now c.received recvbuffer <| getCommand recvbuffer.toCString).short

variable {host : ServerHost} {c : Connection} {now : Surroundings}

theorem SendsShort.step (h : c.SendsShort) (hg : c.RequestsShort host now) :
    (c.step host now).SendsShort := by
  have hround := step_round host c now
  generalize c.step host now = c' at hround
  have hrequest : ∀ e ∈ Event.request :: c.trace, e.IsShort :=
    List.forall_mem_cons.mpr ⟨trivial, h⟩
  have hsent {new : List Event} (hn : ∀ e ∈ new, e.IsSent) : ∀ e ∈ new ++ .request :: c.trace, e.IsShort :=
    List.forall_mem_append.mpr ⟨fun e he => (hn e he).isShort, hrequest⟩
  cases hround
  case idle                 => exact h
  case closed sent          => exact hsent sent
  case identified hi        =>
    cases hi
    exact List.forall_mem_cons.mpr ⟨trivial, hrequest⟩
  case authenticated hc _ _ =>
    cases hc
    case intro key t hd _ _ =>
      have ⟨new, ht, hn⟩ := hd.events
      exact List.forall_mem_cons.mpr ⟨trivial, ht ▸ hsent hn⟩
  case served recvbuffer s t busy hr hserved =>
    have ⟨new, ht, hn⟩ := hserved.serves.events
    intro e he
    cases List.mem_append.mp (ht ▸ he)
    case inr he => exact hrequest e he
    case inl he =>
      have ⟨earlier, hp⟩ := hn.exists_of_mem he
      cases e
      case transaction => exact hp <| hg recvbuffer hr
      all_goals trivial

theorem always_sendsShort {memory : ServerConnectionState} {ipaddr : CString} {sv : ServerAccess}
    {inbox : List (Option Packet)} {sends : Nat} {rounds : List Surroundings}
    (h : Run.EveryStep (RequestsShort host) (step host) (new memory ipaddr sv inbox sends) rounds) :
    Run.Always SendsShort (step host) (new memory ipaddr sv inbox sends) rounds := by
  have h₀ : (new memory ipaddr sv inbox sends).SendsShort := List.forall_mem_nil _
  exact h.always h₀ fun _ _ h hg => h.step hg

end Connection

-- A server that grants the access to `/b`, for examples.
def privateAccess : ServerAccess where
  __        := closedAccess
  admitAuth := [⟨['/', 'b'], [⟨['1'], none⟩], [], false, false, false, false⟩]

namespace Connection

theorem always_sendsShort_public :
    Run.Always SendsShort (step publicHost)
      (new (publicPeer []) ['1'] privateAccess
        [some ⟨"CAUTH 1 a b".toList, by decide⟩, some ⟨"GET 4000 /b".toList, by decide⟩] 9)
      [.calm, .calm] := by
  apply always_sendsShort
  refine ⟨fun recvbuffer hr => ?_, fun recvbuffer hr => ?_, trivial⟩
  · cases hr
    trivial
  · cases hr
    exact fun _ => .inr (by decide)

-- The client asks for a file in large blocks, and may not read it.
theorem not_always_sendsShort : ¬∀ (host : ServerHost) (memory : ServerConnectionState)
    (ipaddr : CString) (sv : ServerAccess) (inbox : List (Option Packet)) (sends : Nat)
    (rounds : List Surroundings), Run.Always SendsShort (step host)
      (new memory ipaddr sv inbox sends) rounds := by
  intro h
  have h := h publicHost (publicPeer []) ['1'] privateAccess
    [some ⟨"CAUTH 1 a b".toList, by decide⟩, some ⟨"GET 4090 /b".toList, by decide⟩] 9 [.calm, .calm]
  have ⟨_, hn, hle⟩ : Event.IsShort (.transaction cfFailedStr (some 4090) .done) :=
    h.right.right _ <| .head _
  cases hn
  exact absurd hle (by decide)

end Connection

open Traced

-- A file is used only after a decision in the same request, about a name that it is the translation of and
-- for a peer that has been identified.
def Event.IsAuthorized (earlier : List Event) : Event → Prop
  | .opened _ filename => ∃ since before path, earlier = since ++ .request :: before ∧ .request ∉ since ∧
    GrantedIn path since ∧ filename = translatePath path
  | _                  => True

namespace Connection

def RevealsAuthorized (c : Connection) : Prop :=
  Justified Event.IsAuthorized c.trace

-- The next round compares a hash.
def ComparesHash (host : ServerHost) (c : Connection) (now : Surroundings) : Prop :=
  ∃ recvbuffer, c.request now = some recvbuffer ∧
    (host.asks now c.received recvbuffer <| getCommand recvbuffer.toCString).hash

variable {host : ServerHost} {c : Connection} {now : Surroundings}

theorem RevealsAuthorized.step (h : c.RevealsAuthorized) (hg : ¬c.ComparesHash host now) :
    (c.step host now).RevealsAuthorized := by
  apply (step_round host c now).justified h
  · intro _ e he
    cases e
    case opened => exact absurd trivial he
    all_goals trivial
  · intro recvbuffer earlier e hr hj he
    cases e
    case opened use filename =>
      have hu : use ≠ .hash := fun hu => hg ⟨recvbuffer, hr, he.right.left hu⟩
      have ⟨path, hpath, hf⟩ := he.right.right hu
      refine ⟨earlier, c.trace, path, rfl, fun hm => ?_, hpath, hf⟩
      have ⟨_, hp⟩ := hj.exists_of_mem hm
      exact hp
    all_goals trivial

theorem not_revealsAuthorized (hg : c.ComparesHash host now) :
    ¬(c.step host now).RevealsAuthorized := by
  intro h
  have ⟨recvbuffer, hr, ha⟩ := hg
  have hs : Served host (host.asks now c.received recvbuffer <| getCommand recvbuffer.toCString)
      c.received (.request :: c.trace) (c.step host now).state (c.step host now).trace := by
    apply step_served hr
    · exact fun hc => by rw [hc] at ha; exact ha
    · exact fun hc => by rw [hc] at ha; exact ha
  have ⟨later, new, f, ht, hn⟩ := hs.hashed ha
  unfold RevealsAuthorized at h
  rw [ht] at h
  have ⟨since, before, path, hsince, hnot, ⟨conn, exempt, hmem, _⟩, _⟩ := h.of_append
  have hmem : .decision (.accessControl path) conn exempt true ∈ new := by
    cases List.append_eq_append_iff.mp hsince
    case inr h =>
      have ⟨_, hnew, _⟩ := h
      exact hnew ▸ List.mem_append_left _ hmem
    case inl h =>
      have ⟨rest, hnew, hrest⟩ := h
      cases rest
      case nil  => rwa [hnew, List.append_nil] at hmem
      case cons =>
        have ⟨he, _⟩ := List.cons.inj hrest
        exact absurd (hnew ▸ List.mem_append_right _ <| he ▸ List.mem_cons_self) hnot
  cases hn _ hmem
  case intro h => cases h

theorem always_revealsAuthorized_iff {memory : ServerConnectionState} {ipaddr : CString}
    {sv : ServerAccess} {inbox : List (Option Packet)} {sends : Nat} {rounds : List Surroundings} :
    Run.Always RevealsAuthorized (step host) (new memory ipaddr sv inbox sends) rounds ↔
      Run.EveryStep (fun c now => ¬c.ComparesHash host now) (step host)
        (new memory ipaddr sv inbox sends) rounds := by
  have h₀ : (new memory ipaddr sv inbox sends).RevealsAuthorized := trivial
  apply Run.always_iff_everyStep h₀ <| Run.everyStep_of_forall (G := fun _ _ => True) fun _ _ => trivial
  · exact fun _ h => h
  · exact fun _ _ h _ hg => h.step hg
  · exact fun _ _ _ _ hg => not_revealsAuthorized <| not_not.mp hg

-- A request to compare the hash of a file, after the peer has been identified.
theorem not_always_revealsAuthorized : ¬∀ (host : ServerHost) (memory : ServerConnectionState)
    (ipaddr : CString) (sv : ServerAccess) (inbox : List (Option Packet)) (sends : Nat)
    (rounds : List Surroundings), Run.Always RevealsAuthorized (step host)
      (new memory ipaddr sv inbox sends) rounds := by
  intro h
  have h := h publicHost (publicPeer []) ['1'] closedAccess
    [some ⟨"CAUTH 1 a b".toList, by decide⟩, some ⟨"MD5 /b".toList, by decide⟩] 9 [.calm, .calm]
  apply not_revealsAuthorized _ h.right.right
  exact ⟨"MD5 /b".toList, by decide, Eq.refl true⟩

end Connection
end CfEngine
