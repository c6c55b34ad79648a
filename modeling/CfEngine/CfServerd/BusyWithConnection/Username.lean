import CfEngine.CfServerd.BusyWithConnection.Hostname

namespace CfEngine

open Traced

-- What the last dialogue that has been completed has accepted.
def Event.accepted : Event → Option (Option (CString × Bool))
  | .authenticated accepted _ => some accepted
  | _                         => none

def lastAccepted (events : List Event) : Option (CString × Bool) :=
  (events.findSome? Event.accepted).join

-- The name of the user that had been given when the last dialogue was completed.
def nameAtDialogue : List Event → Option CString
  | []                       => none
  | .authenticated .. :: events => (lastIdentity events).map Identity.username
  | _ :: events              => nameAtDialogue events

-- The command is executed only for a user who is allowed to do so and under whose name the key of the peer has
-- been accepted.
def Event.IsAllowed (allowuserlist : List CString) (earlier : List Event) : Event → Prop
  | .executed username => username ∈ allowuserlist ∧ (lastAccepted earlier).map Prod.fst = some username
  | _                  => True

section
variable {new events : List Event}

theorem lastAccepted_append (h : ∀ e ∈ new, e.accepted = none) :
    lastAccepted (new ++ events) = lastAccepted events := by
  rw [lastAccepted, List.findSome?_append, List.findSome?_eq_none_iff.mpr h, Option.none_or]
  rfl

theorem nameAtDialogue_append (h : ∀ e ∈ new, e.accepted = none) :
    nameAtDialogue (new ++ events) = nameAtDialogue events := by
  induction new
  case nil           => rfl
  case cons e new ih =>
    have ih := ih fun e' he => h e' <| List.mem_cons_of_mem _ he
    have he := h e List.mem_cons_self
    cases e
    case authenticated => cases he
    all_goals exact ih

end

theorem Serves.accepted {host : ServerHost} {asked : Asked} {s₀ : ServerState} {new : List Event}
    (h : Justified (Permits host asked s₀) new) : ∀ e ∈ new, e.accepted = none := by
  intro e he
  have ⟨_, hp⟩ := h.exists_of_mem he
  cases e
  case authenticated => cases hp
  all_goals rfl

namespace Connection

def ExecutesAllowed (allowuserlist : List CString) (c : Connection) : Prop :=
  Justified (Event.IsAllowed allowuserlist) c.trace

-- The next round executes the command for a user whose name is empty but not listed, or is not the one that was
-- given before the last dialogue.
def ExecutesRenamed (host : ServerHost) (c : Connection) (now : Surroundings) : Prop :=
  (c.state.conn.username = [] ∧ [] ∉ c.state.sv.allowuserlist ∨
    nameAtDialogue c.trace ≠ some c.state.conn.username) ∧ ∃ recvbuffer,
      c.request now = some recvbuffer ∧
        (host.asks now c.received recvbuffer <| getCommand recvbuffer.toCString).exec

-- What is known about the user.
structure HasUser (host : ServerHost) (allowuserlist : List CString) (c : Connection) : Prop where
  allowed       : c.ExecutesAllowed allowuserlist
  allowuserlist : c.busy = true → c.state.sv.allowuserlist = allowuserlist
  trust         : c.busy = true → c.state.conn.trust = true → host.Trusts c.state
  identity      : c.busy = true → c.state.conn.id_verified = true →
    (lastIdentity c.trace).map Identity.username = some c.state.conn.username
  accepted      : c.busy = true → c.state.conn.rsa_auth = true →
    (lastAccepted c.trace).map Prod.fst = nameAtDialogue c.trace

variable {host : ServerHost} {c : Connection} {now : Surroundings} {allowuserlist : List CString}

theorem HasUser.step_allowed (h : c.HasUser host allowuserlist) (hg : ¬c.ExecutesRenamed host now) :
    (c.step host now).ExecutesAllowed allowuserlist := by
  apply (step_round host c now).justified h.allowed
  · intro _ e he
    cases e
    case executed => exact absurd trivial he
    all_goals trivial
  · intro recvbuffer earlier e hr hj he
    cases e
    case executed username =>
      have ⟨hexec, hu⟩ := he
      have hb := busy_of_request hr
      have hn := fun hn => hg ⟨hn, recvbuffer, hr, hexec⟩
      have ⟨hlisted, hname⟩ := not_or.mp hn
      have ⟨huser, hrsa⟩ := ServerHost.of_asks_exec hexec
      constructor
      · rw [hu, ← h.allowuserlist hb]
        cases of_decide_eq_true huser
        case inl he   => exact he ▸ not_not.mp fun hm => hlisted ⟨he, hm⟩
        case inr hmem => exact hmem
      · rw [lastAccepted_append <| Serves.accepted hj]
        exact (h.accepted hb hrsa).trans <| hu ▸ not_not.mp hname
    all_goals trivial

theorem HasUser.step (h : c.HasUser host allowuserlist) (hg : ¬c.ExecutesRenamed host now) :
    (c.step host now).HasUser host allowuserlist := by
  have hallowed := h.step_allowed hg
  have hround := step_round host c now
  generalize c.step host now = c' at hround hallowed
  cases hround
  case idle hb =>
    exact ⟨hallowed, h.allowuserlist ∘ hb, h.trust ∘ hb, h.identity ∘ hb, h.accepted ∘ hb⟩
  case closed => exact ⟨hallowed, nofun, nofun, nofun, nofun⟩
  case identified hb hi =>
    cases hi
    exact ⟨hallowed, fun _ => h.allowuserlist hb, fun _ => h.trust hb, fun _ _ => rfl, fun _ => h.accepted hb⟩
  case authenticated hb hv hc hu ht =>
    cases hc
    case intro accepted s key t hd _ _ =>
      refine ⟨hallowed, fun _ => hd.allowuserlist.trans <| h.allowuserlist hb, fun _ hs => ?_,
        fun _ hv' => ?_, fun _ hrsa => ?_⟩
      · apply hd.trusts_iff.mpr
        cases hd.trust
        case inl htrust => exact h.trust hb <| htrust ▸ hs
        case inr htrust => exact htrust.right
      · rw [hd.username]
        exact hd.lastIdentity ▸ h.identity hb hv
      · have hid := h.identity hb hv
        rcases accepted with _ | a
        · exact absurd (h.trust hb (ht rfl).left) (ht rfl).right
        · rw [nameAtDialogue, hd.lastIdentity]
          exact (congrArg some <| hu a rfl).trans hid.symm
  case served hr hserved =>
    have hs := hserved.serves
    have hb := busy_of_request hr
    have ⟨new, ht, hn⟩ := hs.events
    refine ⟨hallowed, fun _ => hs.sv ▸ h.allowuserlist hb, fun _ => ?_, fun _ hv => ?_, fun _ hrsa => ?_⟩
    · rw [ServerHost.Trusts, hs.sv, hs.conn]
      exact h.trust hb
    · rw [hs.lastIdentity, hs.username]
      exact h.identity hb <| hs.id_verified ▸ hv
    · rw [show _ = _ from ht, lastAccepted_append <| Serves.accepted hn,
        nameAtDialogue_append <| Serves.accepted hn]
      exact h.accepted hb <| hs.rsa_auth ▸ hrsa

theorem always_executesAllowed {memory : ServerConnectionState} {ipaddr : CString}
    {sv : ServerAccess} {inbox : List (Option Packet)} {sends : Nat} {rounds : List Surroundings}
    (h : Run.EveryStep (fun c now => ¬c.ExecutesRenamed host now) (step host)
      (new memory ipaddr sv inbox sends) rounds) :
    Run.Always (ExecutesAllowed sv.allowuserlist) (step host) (new memory ipaddr sv inbox sends)
      rounds := by
  have h₀ : (new memory ipaddr sv inbox sends).HasUser host sv.allowuserlist :=
    ⟨trivial, fun _ => rfl, fun _ => nofun, fun _ => nofun, fun _ => nofun⟩
  exact (h.always h₀ fun _ _ h hg => h.step hg).imp fun _ h => h.allowed

end Connection

-- A server with a key that executes `/a`, and knows the key of its client as that of the user `a`, for examples.
def Crypto.plainKeys : Crypto where
  __            := Crypto.padding
  publicEncrypt := fun _ _ => some ['x']
  mpi2bn        := fun data => if data = [] then none else some 3
  rsaSize       := fun _ => 1
  rsaSize_le    := by
    intro data n e h
    have ⟨hd, _⟩ := Option.ite_none_left_eq_some.mp h
    exact List.length_pos_iff.mpr hd
  publicEncrypt_length := by
    intro key data out h
    cases h
    rfl

def keyHost : ServerHost where
  __              := publicHost
  crypto          := .plainKeys
  pubkey          := some ⟨3, 3⟩
  cfruncommand    := "/a".toList
  cfruncommand_lt := by decide
  pubkey_lt       := by
    intro key h
    cases h
    exact ⟨by decide, by decide⟩

def execAccess (user : CString) : ServerAccess where
  __            := closedAccess
  allowuserlist := [user]
  admitAuth     := [⟨['/', 'a'], [⟨['1'], none⟩], [], false, false, false, false⟩]

def Surroundings.knowing : Surroundings where
  __            := Surroundings.calm
  havePublicKey := fun username _ _ => if username = ['a'] then some ⟨3, 3⟩ else none

-- The messages of the client for its name and the dialogue, and those for the execution.
def dialogueMessages : List (Option Packet) :=
  [some ⟨"CAUTH 1 h a".toList, by decide⟩, some ⟨"SAUTH n 1 1 c            ".toList, by decide⟩,
    some ⟨['x'], by decide⟩, some ⟨['x'], by decide⟩, some ⟨List.replicate 16 '\x00', by decide⟩,
    some ⟨List.replicate 16 'k', by decide⟩]

def execMessages : List (Option Packet) :=
  [some ⟨"EXEC ".toList, by decide⟩, some ⟨cfdTerminator, by decide⟩]

namespace Connection

theorem always_executesAllowed_named :
    Run.Always (ExecutesAllowed (execAccess ['a']).allowuserlist) (step keyHost)
      (new (publicPeer []) ['1'] (execAccess ['a']) (dialogueMessages ++ execMessages) 9)
      [.knowing, .knowing, .knowing] := by
  apply always_executesAllowed
  refine ⟨fun ⟨_, _, _, he⟩ => ?_, fun ⟨_, _, _, he⟩ => ?_, fun ⟨hn, _⟩ => ?_, trivial⟩
  · exact absurd (ServerHost.of_asks_exec he).right (by decide)
  · exact absurd (ServerHost.of_asks_exec he).right (by decide)
  · exact absurd hn (by decide)

-- The client gives another name after the dialogue.
theorem not_always_executesAllowed : ¬∀ (host : ServerHost) (memory : ServerConnectionState)
    (ipaddr : CString) (sv : ServerAccess) (inbox : List (Option Packet)) (sends : Nat)
    (rounds : List Surroundings), Run.Always (ExecutesAllowed sv.allowuserlist) (step host)
      (new memory ipaddr sv inbox sends) rounds := by
  intro h
  have h := h keyHost (publicPeer []) ['1'] (execAccess ['b'])
    (dialogueMessages ++ some ⟨"CAUTH 1 h b".toList, by decide⟩ :: execMessages) 9
    [.knowing, .knowing, .knowing, .knowing]
  have hu : some ['a'] = some ['b'] := h.right.right.right.right.right.right.left.right
  cases hu

end Connection
end CfEngine
