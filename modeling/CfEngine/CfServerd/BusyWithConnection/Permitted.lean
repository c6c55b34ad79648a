import CfEngine.CfServerd.BusyWithConnection.Asked
import CfEngine.CfServerd.BusyWithConnection.Stable

namespace CfEngine

open Traced

-- The connection is the same, apart from the mapping to root.
def SameConn (conn conn' : ServerConnectionState) : Prop :=
  conn' = { conn with maproot := conn'.maproot }

namespace SameConn

variable {conn conn' conn'' : ServerConnectionState}

theorem refl : SameConn conn conn := rfl

theorem trans (h : SameConn conn conn') (h' : SameConn conn' conn'') : SameConn conn conn'' := by
  rw [SameConn] at h h' ⊢
  rw [h', h]

end SameConn

namespace Matchers

variable {m : Matchers} {fs : FileSystem} {sv : ServerAccess} {conn : ServerConnectionState}
  {input : CString} {encrypt : Bool}

theorem sameConn_accessControl : SameConn conn (m.accessControl fs sv conn input encrypt).2 := by
  unfold accessControl
  simp only
  split
  case isTrue  => exact .refl
  case isFalse => rfl

theorem sameConn_literalAccessControl :
    SameConn conn (m.literalAccessControl sv conn input encrypt).2 := rfl

theorem sameConn_contextAccessControl {states : List (CString × Int)} {now : Int} {garbage : CString} :
    SameConn conn (m.contextAccessControl sv conn input encrypt states now garbage).2 := rfl

end Matchers

-- Some decision was that the file may be accessed by a peer that has been identified.
def GrantedIn (path : CString) (events : List Event) : Prop :=
  ∃ conn exempt, .decision (.accessControl path) conn exempt true ∈ events ∧ conn.id_verified = true

-- What an event may be in a request that does not identify or authenticate the peer. The state is that at
-- the start of the request, the earlier events are those of the request.
def Permits (host : ServerHost) (asked : Asked) (s₀ : ServerState) (earlier : List Event) :
    Event → Prop
  | .decision _ conn exempt _ =>
    asked.decision ∧ s₀.conn.id_verified = true ∧ SameConn s₀.conn conn ∧ exempt = host.exempt s₀
  | .opened use filename      =>
    s₀.conn.id_verified = true ∧ (use = .hash → asked.hash) ∧
      (use ≠ .hash → ∃ path, GrantedIn path earlier ∧ filename = translatePath path)
  | .cipher key               => asked.cipher ∧ key = s₀.conn.session_key
  | .executed username        => asked.exec ∧ username = s₀.conn.username
  | .transaction _ len _      => asked.short → FitsPacket len
  | .stream _                 => True
  | .request | .identified .. | .authenticated .. => False

-- What holds while the request is served.
structure Serves (host : ServerHost) (asked : Asked) (s₀ : ServerState) (t₀ : List Event) (s : ServerState)
    (t : List Event) : Prop where
  conn   : SameConn s₀.conn s.conn
  sv     : s.sv = s₀.sv
  events : ∃ new, t = new ++ t₀ ∧ Justified (Permits host asked s₀) new

-- What holds after the request has been served.
structure Served (host : ServerHost) (asked : Asked) (s₀ : ServerState) (t₀ : List Event) (s : ServerState)
    (t : List Event) : Prop where
  serves   : Serves host asked s₀ t₀ s t
  ciphered : asked.cipher → ∃ later, t = later ++ .cipher s₀.conn.session_key :: t₀
  hashed   : asked.hash → ∃ later new f, t = later ++ .opened .hash f :: (new ++ t₀) ∧
    ∀ e ∈ new, ∃ key, e = .cipher key

-- What holds once the access to a file has been granted, with the connection that this leaves.
structure Granted (host : ServerHost) (asked : Asked) (s₀ : ServerState) (t₀ : List Event) (path : CString)
    (conn : ServerConnectionState) (s : ServerState) (t : List Event) : Prop where
  serves   : Serves host asked s₀ t₀ s t
  verified : s₀.conn.id_verified = true
  conn     : s.conn = conn
  granted  : ∃ new, t = new ++ t₀ ∧ GrantedIn path new

section
variable {host : ServerHost} {asked : Asked} {s₀ s : ServerState} {t₀ t : List Event} {path : CString} {e : Event}
  {conn : ServerConnectionState} {now : Surroundings} {recvbuffer : Buffer} {encrypt : Bool}

namespace Serves

theorem refl : Serves host asked s₀ t₀ s₀ t₀ where
  conn   := .refl
  sv     := rfl
  events := ⟨[], rfl, trivial⟩

theorem emit (h : Serves host asked s₀ t₀ s t) (he : ∀ new, t = new ++ t₀ → Permits host asked s₀ new e) :
    Serves host asked s₀ t₀ s (e :: t) where
  conn   := h.conn
  sv     := h.sv
  events := by
    have ⟨new, ht, hn⟩ := h.events
    exact ⟨e :: new, by rw [ht]; rfl, he new ht, hn⟩

theorem permits_append {new later : List Event} (h : Permits host asked s₀ later e) :
    Permits host asked s₀ (later ++ new) e := by
  cases e
  case opened use filename =>
    refine ⟨h.left, h.right.left, fun hu => ?_⟩
    have ⟨path, ⟨conn, exempt, hg, hv⟩, hf⟩ := h.right.right hu
    exact ⟨path, ⟨conn, exempt, List.mem_append_left _ hg, hv⟩, hf⟩
  all_goals exact h

-- The first event of the request can be counted to the request or not.
theorem widen (h : Serves host asked s₀ (e :: t₀) s t) (he : Permits host asked s₀ [] e) :
    Serves host asked s₀ t₀ s t where
  conn   := h.conn
  sv     := h.sv
  events := by
    have ⟨new, ht, hn⟩ := h.events
    refine ⟨new ++ [e], by rw [ht, List.append_assoc]; rfl, ?_⟩
    exact Justified.append ⟨he, trivial⟩ hn fun _ _ _ => permits_append

theorem follows (h : Serves host asked s₀ (e :: t₀) s t) : ∃ later, t = later ++ e :: t₀ := by
  have ⟨new, ht, _⟩ := h.events
  exact ⟨new, ht⟩

theorem served (h : Serves host asked s₀ t₀ s t) (hc : ¬asked.cipher) (hh : ¬asked.hash) :
    Served host asked s₀ t₀ s t :=
  ⟨h, (absurd · hc), (absurd · hh)⟩

theorem session_key (h : Serves host asked s₀ t₀ s t) : s.conn.session_key = s₀.conn.session_key := by
  rw [h.conn]

theorem username (h : Serves host asked s₀ t₀ s t) : s.conn.username = s₀.conn.username := by
  rw [h.conn]

theorem id_verified (h : Serves host asked s₀ t₀ s t) : s.conn.id_verified = s₀.conn.id_verified := by
  rw [h.conn]

theorem rsa_auth (h : Serves host asked s₀ t₀ s t) : s.conn.rsa_auth = s₀.conn.rsa_auth := by
  rw [h.conn]

theorem exempt (h : Serves host asked s₀ t₀ s t) : host.exempt s = host.exempt s₀ := by
  rw [ServerHost.exempt, ServerHost.exempt, h.sv, h.conn]

theorem stable : Stable asked.short (Serves host asked s₀ t₀) where
  inbox       := fun _ _ _ h => ⟨h.conn, h.sv, h.events⟩
  sends       := fun _ _ _ h => ⟨h.conn, h.sv, h.events⟩
  transaction := fun _ _ _ _ _ hl h => h.emit fun _ _ => hl
  stream      := fun _ _ _ h => h.emit fun _ _ => trivial

theorem allowsCipher (hc : asked.cipher) : AllowsCipher (Serves host asked s₀ t₀) :=
  fun _ _ h => h.emit fun _ _ => ⟨hc, h.session_key⟩

theorem setConn (h : Serves host asked s₀ t₀ s t) (hc : SameConn s.conn conn) :
    Serves host asked s₀ t₀ { s with conn := conn } t where
  conn   := h.conn.trans hc
  sv     := h.sv
  events := h.events

theorem decision (h : Serves host asked s₀ t₀ s t) (hv : s₀.conn.id_verified = true)
    (hd : asked.decision) {decided : AccessDecision} {granted : Bool} :
    Serves host asked s₀ t₀ s (.decision decided s.conn (host.exempt s) granted :: t) :=
  h.emit fun _ _ => ⟨hd, hv, h.conn, h.exempt⟩

theorem granted (h : Serves host asked s₀ t₀ s t) (hv : s₀.conn.id_verified = true)
    (hd : asked.decision) (hc : SameConn s.conn conn) :
    Granted host asked s₀ t₀ path conn { s with conn := conn }
      (.decision (.accessControl path) s.conn (host.exempt s) true :: t) where
  serves   := (h.decision hv hd).setConn hc
  verified := hv
  conn     := rfl
  granted  := by
    have ⟨new, ht, _⟩ := h.events
    exact ⟨_ :: new, by rw [ht]; rfl, s.conn, host.exempt s, .head _, h.id_verified ▸ hv⟩

theorem keeps_literalAccessControl (hv : s₀.conn.id_verified = true) (hd : asked.decision)
    {input : CString} :
    Keeps (Serves host asked s₀ t₀) (host.literalAccessControl input encrypt) := by
  intro s t h
  rw [ServerHost.ensures_literalAccessControl]
  exact (h.decision hv hd).setConn Matchers.sameConn_literalAccessControl

end Serves

namespace Granted

variable (h : Granted host asked s₀ t₀ path conn s t)
include h

theorem emit (he : ∀ new, t = new ++ t₀ → Permits host asked s₀ new e) :
    Granted host asked s₀ t₀ path conn s (e :: t) where
  serves   := h.serves.emit he
  verified := h.verified
  conn     := h.conn
  granted  := by
    have ⟨new, ht, conn, exempt, hg, hv⟩ := h.granted
    exact ⟨e :: new, by rw [ht]; rfl, conn, exempt, .tail _ hg, hv⟩

theorem opened {use : FileUse} (hu : use ≠ .hash) :
    Granted host asked s₀ t₀ path conn s (.opened use (translatePath path) :: t) := by
  apply h.emit
  intro new ht
  have ⟨new', ht', hg⟩ := h.granted
  cases List.append_cancel_right <| ht.symm.trans ht'
  exact ⟨h.verified, fun he => absurd he hu, fun _ => ⟨path, hg, rfl⟩⟩

theorem decision (hd : asked.decision) {decided : AccessDecision} {granted : Bool} :
    Granted host asked s₀ t₀ path conn s (.decision decided s.conn (host.exempt s) granted :: t) :=
  h.emit fun _ _ => ⟨hd, h.verified, h.serves.conn, h.serves.exempt⟩

theorem session_key : s.conn.session_key = s₀.conn.session_key :=
  h.serves.session_key

omit h

theorem stable : Stable asked.short (Granted host asked s₀ t₀ path conn) where
  inbox       := fun _ _ _ h => { h with serves := Serves.stable.inbox _ _ _ h.serves }
  sends       := fun _ _ _ h => { h with serves := Serves.stable.sends _ _ _ h.serves }
  transaction := fun _ _ _ _ _ hl h => h.emit fun _ _ => hl
  stream      := fun _ _ _ h => h.emit fun _ _ => trivial

theorem allowsCipher (hc : asked.cipher) : AllowsCipher (Granted host asked s₀ t₀ path conn) :=
  fun _ _ h => h.emit fun _ _ => ⟨hc, h.session_key⟩

end Granted

namespace Serves

-- The handlers are run in the state in which the request has been received.
theorem verified {busy : Bool} {x : Serving Bool}
    (hx : s₀.conn.id_verified = true → x.Ensures s₀ t₀ fun _ => Serves host asked s₀ t₀) :
    (ServerHost.verified busy x).Ensures s₀ t₀ fun _ => Serves host asked s₀ t₀ := by
  rw [ServerHost.verified, ensures_bind, ensures_get, then_some, ensures_ite]
  exact ⟨hx, fun _ => stable.keeps_refuse s₀ t₀ refl⟩

-- A decision about the access to a file, and what is done after either outcome.
theorem accessControl (hv : s₀.conn.id_verified = true) (hd : asked.decision) {f : Bool → Serving Bool}
    (ht : (host.matchers.accessControl now.fs s₀.sv s₀.conn path encrypt).1 = true →
      Keeps (Granted host asked s₀ t₀ path
        (host.matchers.accessControl now.fs s₀.sv s₀.conn path encrypt).2) (f true))
    (hf : Keeps (Serves host asked s₀ t₀) (f false)) :
    (host.accessControl now path encrypt >>= f).Ensures s₀ t₀ fun _ => Serves host asked s₀ t₀ := by
  rw [ensures_bind, ServerHost.ensures_accessControl, then_some]
  cases hr : (host.matchers.accessControl now.fs s₀.sv s₀.conn path encrypt).1
  case false => exact hf _ _ <| (refl.decision hv hd).setConn Matchers.sameConn_accessControl
  case true  =>
    apply (ht hr _ _ <| refl.granted hv hd Matchers.sameConn_accessControl).imp
    exact fun _ _ _ h => h.serves

theorem contextAccessControl (hv : s₀.conn.id_verified = true) (hd : asked.decision) {input : CString}
    {f : List CString → Serving Bool}
    (hf : Keeps (Serves host asked s₀ t₀) (f (host.matchers.contextAccessControl s₀.sv s₀.conn input
      encrypt now.states (now.time.getD (-1)).toInt now.leftText).1)) :
    (host.contextAccessControl now input encrypt >>= f).Ensures s₀ t₀ fun _ =>
      Serves host asked s₀ t₀ := by
  apply ensures_bind.mpr
  exact hf _ _ <| (refl.decision hv hd).setConn Matchers.sameConn_contextAccessControl

end Serves
end
end CfEngine
