import CfEngine.Library.Run
import CfEngine.Libutils.Strings
import Mathlib.Data.List.Nodup
import Mathlib.Logic.Function.Basic

namespace CfEngine

def cfCouldNotConnect : Int := -2

def socketInvalid : Int := -1

-- What the network answers. Where a name is not found, some text is left in the buffer for its address. A server that
-- is connected to may refuse the identity or the key of the agent.
structure Network where
  hostname2IPString : CString → Option CString
  unresolved        : CString
  serverConnect     : CString → Option Int
  identifyAgent     : CString → Bool
  authenticateAgent : CString → Bool

structure ServerItem where
  server : CString
  busy   : Bool
  conn   : Nat

-- The connections lie in memory, where `sd` is the socket of each one that is not freed. The others have no socket.
structure ServerList where
  items : List ServerItem
  sd    : Nat → Option Int
  next  : Nat

namespace ServerList

variable (net : Network) (maxthreads : Nat)

def empty : ServerList :=
  ⟨[], fun _ => none, 0⟩

def newAgentConn (s : ServerList) (sd : Int) : ServerList :=
  { s with sd := Function.update s.sd s.next (some sd), next := s.next + 1 }

def disconnectServer (s : ServerList) (conn : Nat) : ServerList :=
  { s with sd := Function.update s.sd conn none }

-- The error is that of a server that does not answer, or of one that refuses.
def connectTo (server : CString) : Except Int Int :=
  if server = ['l', 'o', 'c', 'a', 'l', 'h', 'o', 's', 't'] then
    .ok socketInvalid
  else
    match net.serverConnect server with
    | none    => .error (-1)
    | some sd =>
      if sd < 0 then
        .error (-1)
      else if net.identifyAgent server ∧ net.authenticateAgent server then
        .ok sd
      else
        .error (-2)

def serverConnection (server : CString) (s : ServerList) : Except Int Nat × ServerList :=
  match connectTo net server with
  | .error err => (.error err, s)
  | .ok sd     => (.ok s.next, s.newAgentConn sd)

-- The last connection to the address is the first one in the list. There is no result if it has been freed.
def serverOffline (server : CString) (s : ServerList) : Option Bool :=
  match net.hostname2IPString server with
  | none        => some false
  | some ipaddr =>
    match s.items.find? (·.server = ipaddr) with
    | none     => some false
    | some svp => (s.sd svp.conn).map fun sd => decide (sd = cfCouldNotConnect)

def idleLoop (sd : Nat → Option Int) (ipaddr : CString) : List ServerItem → Option (Option Nat × List ServerItem)
  | []           => some (none, [])
  | svp :: items =>
    let rest := (idleLoop sd ipaddr items).map fun (conn, items) => (conn, svp :: items)
    if svp.server = ipaddr ∧ svp.busy = false then
      (sd svp.conn).bind fun k => if 0 < k then some (some svp.conn, { svp with busy := true } :: items) else rest
    else
      rest

def getIdleConnectionToServer (server : CString) (s : ServerList) : Option (Option Nat × ServerList) := do
  let (conn, items) ← idleLoop s.sd ((net.hostname2IPString server).getD net.unresolved) s.items
  return (conn, { s with items := items })

def notBusyLoop (conn : Nat) : List ServerItem → Option (List ServerItem)
  | []           => none
  | svp :: items =>
    if svp.conn = conn then
      some <| { svp with busy := false } :: items
    else
      (notBusyLoop conn items).map (svp :: ·)

def serverNotBusy (conn : Nat) (s : ServerList) : Option ServerList :=
  (notBusyLoop conn s.items).map fun items => { s with items := items }

def markServerOffline (server : CString) (s : ServerList) : Option ServerList :=
  match net.hostname2IPString server with
  | none        => some s
  | some ipaddr =>
    match s.items.find? (·.server = ipaddr) with
    | some svp => (s.sd svp.conn).map fun _ => { s with sd := Function.update s.sd svp.conn (some cfCouldNotConnect) }
    | none     => some { s.newAgentConn cfCouldNotConnect with items := ⟨ipaddr, false, s.next⟩ :: s.items }

def cacheServerConnection (conn : Nat) (server : CString) (s : ServerList) : ServerList :=
  match net.hostname2IPString server with
  | none        => s
  | some ipaddr => { s with items := ⟨ipaddr, true, conn⟩ :: s.items }

-- The servers are tried in turn. A connection for the background is not kept in the list.
def newServerConnection (background : Bool) : List CString → ServerList → Option (Option Nat × ServerList)
  | [], s                => some (none, s)
  | server :: servers, s => do
    if ← serverOffline net server s then
      newServerConnection background servers s
    else if background then
      if s.items.length < maxthreads then
        let (conn, s) := serverConnection net server s
        return (conn.toOption, s)
      else
        newServerConnection background servers s
    else
      let (conn, s) ← getIdleConnectionToServer net server s
      if conn.isSome then
        return (conn, s)
      else
        match serverConnection net server s with
        | (.ok conn, s)  => return (some conn, cacheServerConnection net conn server s)
        | (.error _, s)  => newServerConnection background servers (← markServerOffline net server s)

end ServerList

-- A use of the connections by the agent. The network may have changed since the last call.
inductive ConnectionCall
  | connect (net : Network) (servers : List CString) (background : Bool)
  | finish (conn : Nat)

-- The connections that are in use, with those of the background.
structure ConnectionRun where
  list : ServerList
  held : List (Nat × Bool)

namespace ConnectionRun

def start : ConnectionRun :=
  ⟨.empty, []⟩

variable (maxthreads : Nat)

-- A copy ends with a disconnection in the background, and else with the return of the connection.
def step (run : ConnectionRun) : ConnectionCall → Option ConnectionRun
  | .connect net servers background => do
    let (conn, list) ← ServerList.newServerConnection net maxthreads background servers run.list
    return ⟨list, (conn.map (·, background)).toList ++ run.held⟩
  | .finish conn => do
    let (_, background) ← run.held.find? (·.1 = conn)
    let list ← if background then some <| run.list.disconnectServer conn else run.list.serverNotBusy conn
    return ⟨list, run.held.filter (·.1 ≠ conn)⟩

def outcome (run : Option ConnectionRun) (call : ConnectionCall) : Option ConnectionRun :=
  run.bind (step maxthreads · call)

end ConnectionRun

namespace ServerList

variable {net : Network} {maxthreads : Nat} {s s' : ServerList} {held : List (Nat × Bool)} {items : List ServerItem}
  {sd : Nat → Option Int} {ipaddr server : CString} {servers : List CString} {background : Bool} {c : Nat} {k : Int}

-- No connection is in use twice, and none that is in use or in the list has been freed. The busy ones of the list are
-- those in use, except for the background, whose connections are not in the list.
structure Sound (s : ServerList) (held : List (Nat × Bool)) : Prop where
  allocated : ∀ svp ∈ s.items, (s.sd svp.conn).isSome = true
  below     : ∀ c, (s.sd c).isSome = true → c < s.next
  distinct  : (s.items.map ServerItem.conn).Nodup
  alone     : (held.map Prod.fst).Nodup
  busy      : ∀ svp ∈ s.items, svp.busy = true ↔ (svp.conn, false) ∈ held
  pooled    : ∀ c, (c, false) ∈ held → c ∈ s.items.map ServerItem.conn
  apart     : ∀ c, (c, true) ∈ held → (s.sd c).isSome = true ∧ c ∉ s.items.map ServerItem.conn

-- The last connection to an address, and whether it has been marked.
def newest (s : ServerList) (ipaddr : CString) : Option Nat :=
  (s.items.find? (·.server = ipaddr)).map ServerItem.conn

def Offline (s : ServerList) (ipaddr : CString) : Prop :=
  (s.newest ipaddr).bind s.sd = some cfCouldNotConnect

theorem sound_empty : Sound empty [] where
  allocated := nofun
  below     := nofun
  distinct  := .nil
  alone     := .nil
  busy      := nofun
  pooled    := nofun
  apart     := nofun

theorem sd_newAgentConn_self : (s.newAgentConn k).sd s.next = some k :=
  Function.update_self ..

theorem sd_newAgentConn_of_ne (h : c ≠ s.next) : (s.newAgentConn k).sd c = s.sd c :=
  Function.update_of_ne h ..

namespace Sound

theorem allocated_conn (h : Sound s held) (hc : c ∈ s.items.map ServerItem.conn) : (s.sd c).isSome = true := by
  obtain ⟨svp, hsvp, rfl⟩ := List.mem_map.mp hc
  exact h.allocated svp hsvp

theorem allocated_newest (h : Sound s held) (hc : s.newest ipaddr = some c) : (s.sd c).isSome = true := by
  obtain ⟨svp, hfind, rfl⟩ := Option.map_eq_some_iff.mp hc
  exact h.allocated svp <| List.mem_of_find?_eq_some hfind

theorem allocated_held {background : Bool} (h : Sound s held) (hc : (c, background) ∈ held) : (s.sd c).isSome = true := by
  cases background
  case false => exact h.allocated_conn <| h.pooled c hc
  case true  => exact (h.apart c hc).left

theorem mem_held (h : Sound s held) (hc : c ∈ held.map Prod.fst) : (s.sd c).isSome = true := by
  obtain ⟨use, huse, rfl⟩ := List.mem_map.mp hc
  exact h.allocated_held huse

theorem ne_next (h : Sound s held) (hc : (s.sd c).isSome = true) : c ≠ s.next :=
  Nat.ne_of_lt <| h.below c hc

-- A new connection is not one of those that there are.
theorem next_not_mem_items (h : Sound s held) : s.next ∉ s.items.map ServerItem.conn :=
  fun hc => h.ne_next (h.allocated_conn hc) rfl

theorem next_not_mem_held (h : Sound s held) : s.next ∉ held.map Prod.fst :=
  fun hc => h.ne_next (h.mem_held hc) rfl

theorem sd_newAgentConn (h : Sound s held) (hc : (s.sd c).isSome = true) : (s.newAgentConn k).sd c = s.sd c :=
  sd_newAgentConn_of_ne <| h.ne_next hc

theorem below_newAgentConn (h : Sound s held) : ∀ c, ((s.newAgentConn k).sd c).isSome = true → c < s.next + 1 := by
  intro c hc
  by_cases heq : c = s.next
  case pos => exact heq ▸ Nat.lt_succ_self _
  case neg =>
    rw [sd_newAgentConn_of_ne heq] at hc
    exact Nat.lt_succ_of_lt <| h.below c hc

-- A connection for the background.
theorem newAgentConn (h : Sound s held) : Sound (s.newAgentConn k) ((s.next, true) :: held) where
  allocated := fun svp hsvp => by
    rw [h.sd_newAgentConn <| h.allocated svp hsvp]
    exact h.allocated svp hsvp
  below     := h.below_newAgentConn
  distinct  := h.distinct
  alone     := List.nodup_cons.mpr ⟨h.next_not_mem_held, h.alone⟩
  busy      := fun svp hsvp => by
    rw [h.busy svp hsvp, List.mem_cons, or_iff_right]
    exact fun heq => Bool.noConfusion (Prod.mk.inj heq).right
  pooled    := by
    intro c hc
    rcases List.mem_cons.mp hc with heq | hc
    · cases heq
    · exact h.pooled c hc
  apart     := by
    intro c hc
    rcases List.mem_cons.mp hc with heq | hc
    · cases heq
      refine ⟨?_, h.next_not_mem_items⟩
      rw [sd_newAgentConn_self]
      rfl
    · rw [h.sd_newAgentConn (h.apart c hc).left]
      exact h.apart c hc

-- A new connection that comes into the list, for use or not.
theorem prepend (h : Sound s held) {busy : Bool} :
    Sound { s.newAgentConn k with items := ⟨ipaddr, busy, s.next⟩ :: s.items }
      (if busy then (s.next, false) :: held else held) where
  allocated := by
    simp only [List.forall_mem_cons]
    refine ⟨?_, fun svp hsvp => ?_⟩
    · exact Option.isSome_of_mem sd_newAgentConn_self
    · rw [h.sd_newAgentConn <| h.allocated svp hsvp]
      exact h.allocated svp hsvp
  below     := h.below_newAgentConn
  distinct  := List.nodup_cons.mpr ⟨h.next_not_mem_items, h.distinct⟩
  alone     := by
    split
    case isTrue  => exact List.nodup_cons.mpr ⟨h.next_not_mem_held, h.alone⟩
    case isFalse => exact h.alone
  busy      := by
    simp only [List.forall_mem_cons]
    have hnext : (s.next, false) ∉ held := fun hc => h.next_not_mem_held <| List.mem_map.mpr ⟨_, hc, rfl⟩
    have hother (svp : ServerItem) (hsvp : svp ∈ s.items) : svp.conn ≠ s.next := h.ne_next <| h.allocated svp hsvp
    cases busy
    case false => exact ⟨iff_of_false Bool.false_ne_true hnext, h.busy⟩
    case true  =>
      refine ⟨iff_of_true rfl List.mem_cons_self, fun svp hsvp => ?_⟩
      rw [h.busy svp hsvp, if_pos rfl, List.mem_cons, or_iff_right]
      exact fun heq => hother svp hsvp (Prod.mk.inj heq).left
  pooled    := by
    intro c hc
    rw [List.map_cons, List.mem_cons]
    split at hc
    case isFalse => exact .inr <| h.pooled c hc
    case isTrue  =>
      rcases List.mem_cons.mp hc with heq | hc
      · exact .inl (Prod.mk.inj heq).left
      · exact .inr <| h.pooled c hc
  apart     := by
    intro c hc
    have hc : (c, true) ∈ held := by
      split at hc
      case isFalse => exact hc
      case isTrue  => exact (List.mem_cons.mp hc).resolve_left fun heq => Bool.noConfusion (Prod.mk.inj heq).right
    obtain ⟨hsome, hout⟩ := h.apart c hc
    rw [h.sd_newAgentConn hsome, List.map_cons, List.mem_cons, not_or]
    exact ⟨hsome, h.ne_next hsome, hout⟩

-- Only the sockets change, and no connection is freed.
theorem setSocket (h : Sound s held) (hc : (s.sd c).isSome = true) :
    Sound { s with sd := Function.update s.sd c (some k) } held := by
  have hsome (d : Nat) : (Function.update s.sd c (some k) d).isSome = (s.sd d).isSome := by
    by_cases heq : d = c
    case pos => rw [heq, Function.update_self, hc, Option.isSome_some]
    case neg => rw [Function.update_of_ne heq]
  exact
    { h with
      allocated := fun svp hsvp => (hsome _).trans <| h.allocated svp hsvp
      below     := fun d hd => h.below d <| (hsome d).symm.trans hd
      apart     := fun d hd => ⟨(hsome d).trans (h.apart d hd).left, (h.apart d hd).right⟩ }

-- What changes in the list is that a connection becomes busy, or that it is no longer.
theorem setBusy {l₁ l₂ : List ServerItem} {svp : ServerItem} {busy : Bool} {held' : List (Nat × Bool)} (h : Sound s held)
    (hitems : s.items = l₁ ++ svp :: l₂) (halone : (held'.map Prod.fst).Nodup)
    (hbusy : busy = true ↔ (svp.conn, false) ∈ held')
    (hother : ∀ c ≠ svp.conn, ∀ background, (c, background) ∈ held' ↔ (c, background) ∈ held)
    (hapart : (svp.conn, true) ∉ held') :
    Sound { s with items := l₁ ++ { svp with busy := busy } :: l₂ } held' := by
  have hconns : (l₁ ++ { svp with busy := busy } :: l₂).map ServerItem.conn = s.items.map ServerItem.conn := by
    rw [hitems, List.map_append, List.map_append, List.map_cons, List.map_cons]
  have hdistinct := h.distinct
  rw [hitems, List.map_append, List.map_cons, List.nodup_middle, List.nodup_cons, ←List.map_append] at hdistinct
  have hne (svp' : ServerItem) (hsvp' : svp' ∈ l₁ ++ l₂) : svp'.conn ≠ svp.conn := by
    intro heq
    exact hdistinct.left <| heq ▸ List.mem_map_of_mem hsvp'
  have hmem (svp' : ServerItem) : svp' ∈ l₁ ++ { svp with busy := busy } :: l₂ ↔
      svp' = { svp with busy := busy } ∨ svp' ∈ l₁ ++ l₂ := by
    simp only [List.mem_append, List.mem_cons]
    exact or_left_comm
  have hin (svp' : ServerItem) (hsvp' : svp' ∈ l₁ ++ l₂) : svp' ∈ s.items := by
    rw [hitems, List.mem_append, List.mem_cons]
    exact (List.mem_append.mp hsvp').imp_right .inr
  have hsvp : svp ∈ s.items := hitems ▸ List.mem_append_right _ List.mem_cons_self
  exact
    { below     := h.below
      distinct  := hconns ▸ h.distinct
      alone     := halone
      allocated := by
        intro svp' hsvp'
        rcases (hmem svp').mp hsvp' with rfl | hsvp'
        · exact h.allocated svp hsvp
        · exact h.allocated svp' <| hin svp' hsvp'
      busy      := by
        intro svp' hsvp'
        rcases (hmem svp').mp hsvp' with rfl | hsvp'
        · exact hbusy
        · rw [hother _ (hne svp' hsvp')]
          exact h.busy svp' <| hin svp' hsvp'
      pooled    := by
        intro c hc
        rw [hconns]
        by_cases heq : c = svp.conn
        case pos => exact heq ▸ List.mem_map_of_mem hsvp
        case neg => exact h.pooled c <| (hother c heq false).mp hc
      apart     := by
        intro c hc
        rw [hconns]
        have heq : c ≠ svp.conn := by
          rintro rfl
          exact hapart hc
        exact h.apart c <| (hother c heq true).mp hc }

theorem not_held {svp : ServerItem} (h : Sound s held) (hsvp : svp ∈ s.items) (hbusy : svp.busy = false)
    (background : Bool) : (svp.conn, background) ∉ held := by
  intro hc
  cases background
  case false =>
    rw [←h.busy svp hsvp, hbusy] at hc
    cases hc
  case true  => exact (h.apart _ hc).right <| List.mem_map_of_mem hsvp

theorem take {l₁ l₂ : List ServerItem} {svp : ServerItem} (h : Sound s held) (hitems : s.items = l₁ ++ svp :: l₂)
    (hbusy : svp.busy = false) :
    Sound { s with items := l₁ ++ { svp with busy := true } :: l₂ } ((svp.conn, false) :: held) := by
  have hnot := h.not_held (hitems ▸ List.mem_append_right _ List.mem_cons_self) hbusy
  apply h.setBusy hitems
  case halone =>
    refine List.nodup_cons.mpr ⟨fun hc => ?_, h.alone⟩
    obtain ⟨⟨c, background⟩, huse, rfl⟩ := List.mem_map.mp hc
    exact hnot background huse
  case hbusy  => exact iff_of_true rfl List.mem_cons_self
  case hother =>
    intro c hc background
    rw [List.mem_cons, or_iff_right]
    exact fun heq => hc (Prod.mk.inj heq).left
  case hapart =>
    intro hc
    rcases List.mem_cons.mp hc with heq | hc
    · exact Bool.noConfusion (Prod.mk.inj heq).right
    · exact hnot true hc

theorem mem_finish {c d : Nat} {background : Bool} :
    (d, background) ∈ held.filter (·.1 ≠ c) ↔ (d, background) ∈ held ∧ d ≠ c := by
  rw [List.mem_filter, decide_eq_true_iff]

theorem nodup_finish (h : Sound s held) : ((held.filter (·.1 ≠ c)).map Prod.fst).Nodup :=
  h.alone.sublist <| List.filter_sublist.map _

theorem putBack {l₁ l₂ : List ServerItem} {svp : ServerItem} (h : Sound s held) (hitems : s.items = l₁ ++ svp :: l₂) :
    Sound { s with items := l₁ ++ { svp with busy := false } :: l₂ } (held.filter (·.1 ≠ svp.conn)) := by
  apply h.setBusy hitems h.nodup_finish
  case hbusy  => exact iff_of_false Bool.false_ne_true fun hc => (mem_finish.mp hc).right rfl
  case hother =>
    intro c hc background
    rw [mem_finish, and_iff_left hc]
  case hapart => exact fun hc => (mem_finish.mp hc).right rfl

theorem disconnectServer (h : Sound s held) (hc : (c, true) ∈ held) :
    Sound (s.disconnectServer c) (held.filter (·.1 ≠ c)) := by
  have hsd {d : Nat} (hd : d ≠ c) : (s.disconnectServer c).sd d = s.sd d := Function.update_of_ne hd ..
  have hself : (s.disconnectServer c).sd c = none := Function.update_self ..
  have hout := (h.apart c hc).right
  have hitem (svp : ServerItem) (hsvp : svp ∈ s.items) : svp.conn ≠ c := by
    rintro rfl
    exact hout <| List.mem_map_of_mem hsvp
  exact
    { distinct  := h.distinct
      alone     := h.nodup_finish
      pooled    := fun d hd => h.pooled d (mem_finish.mp hd).left
      allocated := fun svp hsvp => by
        rw [hsd <| hitem svp hsvp]
        exact h.allocated svp hsvp
      below     := by
        intro d hd
        by_cases heq : d = c
        case pos =>
          rw [heq, hself] at hd
          cases hd
        case neg =>
          rw [hsd heq] at hd
          exact h.below d hd
      busy      := fun svp hsvp => by
        rw [mem_finish, and_iff_left <| hitem svp hsvp]
        exact h.busy svp hsvp
      apart     := fun d hd => by
        rw [hsd (mem_finish.mp hd).right]
        exact h.apart d (mem_finish.mp hd).left }

end Sound

theorem notBusyLoop_spec (hc : c ∈ items.map ServerItem.conn) :
    ∃ l₁ svp l₂, items = l₁ ++ svp :: l₂ ∧ svp.conn = c ∧
      notBusyLoop c items = some (l₁ ++ { svp with busy := false } :: l₂) := by
  induction items
  case nil             => cases hc
  case cons svp items ih =>
    by_cases heq : svp.conn = c
    case pos => exact ⟨[], svp, items, rfl, heq, if_pos heq⟩
    case neg =>
      have hc := (List.mem_cons.mp hc).resolve_left <| Ne.symm heq
      obtain ⟨l₁, svp', l₂, rfl, hconn, hloop⟩ := ih hc
      refine ⟨svp :: l₁, svp', l₂, rfl, hconn, ?_⟩
      rw [notBusyLoop, if_neg heq, hloop]
      rfl

-- Nothing is found, or an open connection to the address that nobody uses.
theorem idleLoop_spec (halloc : ∀ svp ∈ items, (sd svp.conn).isSome = true) :
    idleLoop sd ipaddr items = some (none, items) ∨
    ∃ l₁ svp l₂, items = l₁ ++ svp :: l₂ ∧ svp.busy = false ∧ svp.server = ipaddr ∧ (∃ k, sd svp.conn = some k ∧ 0 < k) ∧
      idleLoop sd ipaddr items = some (some svp.conn, l₁ ++ { svp with busy := true } :: l₂) := by
  induction items
  case nil               => exact .inl rfl
  case cons svp items ih =>
    rw [List.forall_mem_cons] at halloc
    obtain ⟨k, hk⟩ := Option.isSome_iff_exists.mp halloc.left
    have hrest (hskip : idleLoop sd ipaddr (svp :: items) = (idleLoop sd ipaddr items).map fun r => (r.1, svp :: r.2)) :
        idleLoop sd ipaddr (svp :: items) = some (none, svp :: items) ∨
        ∃ l₁ svp' l₂, svp :: items = l₁ ++ svp' :: l₂ ∧ svp'.busy = false ∧ svp'.server = ipaddr ∧
          (∃ k, sd svp'.conn = some k ∧ 0 < k) ∧
          idleLoop sd ipaddr (svp :: items) = some (some svp'.conn, l₁ ++ { svp' with busy := true } :: l₂) := by
      rcases ih halloc.right with hnone | ⟨l₁, svp', l₂, rfl, hbusy, hserver, hopen, hloop⟩
      · exact .inl <| by rw [hskip, hnone, Option.map_some]
      · refine .inr ⟨svp :: l₁, svp', l₂, rfl, hbusy, hserver, hopen, ?_⟩
        rw [hskip, hloop, Option.map_some]
        rfl
    by_cases hfree : svp.server = ipaddr ∧ svp.busy = false
    case neg => exact hrest <| if_neg hfree
    case pos =>
      by_cases hpos : 0 < k
      case pos =>
        refine .inr ⟨[], svp, items, rfl, hfree.right, hfree.left, ⟨k, hk, hpos⟩, ?_⟩
        rw [idleLoop, if_pos hfree, hk, Option.bind_some, if_pos hpos]
        rfl
      case neg =>
        apply hrest
        rw [idleLoop, if_pos hfree, hk, Option.bind_some, if_neg hpos]

theorem getIdleConnectionToServer_spec (h : Sound s held) :
    getIdleConnectionToServer net server s = some (none, s) ∨
    ∃ l₁ svp l₂, s.items = l₁ ++ svp :: l₂ ∧ svp.busy = false ∧ (∃ k, s.sd svp.conn = some k ∧ 0 < k) ∧
      getIdleConnectionToServer net server s =
        some (some svp.conn, { s with items := l₁ ++ { svp with busy := true } :: l₂ }) := by
  rcases @idleLoop_spec s.items s.sd ((net.hostname2IPString server).getD net.unresolved) h.allocated with
    hnone | ⟨l₁, svp, l₂, hitems, hbusy, -, hopen, hloop⟩
  · exact .inl <| by rw [getIdleConnectionToServer, hnone]; rfl
  · refine .inr ⟨l₁, svp, l₂, hitems, hbusy, hopen, ?_⟩
    rw [getIdleConnectionToServer, hloop]
    rfl

theorem newest_setBusy {l₁ l₂ : List ServerItem} {svp : ServerItem} {busy : Bool} (hitems : s.items = l₁ ++ svp :: l₂) :
    newest { s with items := l₁ ++ { svp with busy := busy } :: l₂ } ipaddr = s.newest ipaddr := by
  rw [newest, newest, hitems, List.find?_append, List.find?_append, List.find?_cons, List.find?_cons]
  cases List.find? (fun svp => decide (svp.server = ipaddr)) l₁ <;> by_cases hs : svp.server = ipaddr <;> simp [hs]

theorem serverOffline_spec (h : Sound s held) :
    ∃ offline, serverOffline net server s = some offline ∧
      (offline = true ↔ ∃ ipaddr, net.hostname2IPString server = some ipaddr ∧ s.Offline ipaddr) := by
  rw [serverOffline]
  cases net.hostname2IPString server
  case none        => exact ⟨false, rfl, iff_of_false Bool.false_ne_true <| by rintro ⟨_, hnone, -⟩; cases hnone⟩
  case some ipaddr =>
    have hiff : (∃ ip, some ipaddr = some ip ∧ s.Offline ip) ↔ s.Offline ipaddr := by simp
    rw [hiff, Offline, newest]
    cases hfind : s.items.find? (·.server = ipaddr)
    case none     =>
      refine ⟨false, ?_, iff_of_false Bool.false_ne_true <| by rintro ⟨⟩⟩
      simp only [hfind]
    case some svp =>
      obtain ⟨k, hk⟩ := Option.isSome_iff_exists.mp <| h.allocated svp <| List.mem_of_find?_eq_some hfind
      refine ⟨decide (k = cfCouldNotConnect), ?_, ?_⟩
      · simp only [hfind, hk, Option.map_some]
      · simp only [Option.map_some, Option.bind_some, hk, decide_eq_true_iff, Option.some.injEq]

-- What one attempt to reach a server does with the list. The marks stay.
theorem offline_take {l₁ l₂ : List ServerItem} {svp : ServerItem} {busy : Bool} (hitems : s.items = l₁ ++ svp :: l₂)
    (ho : s.Offline ipaddr) : Offline { s with items := l₁ ++ { svp with busy := busy } :: l₂ } ipaddr := by
  rw [Offline, newest_setBusy hitems]
  exact ho

theorem offline_newAgentConn (h : Sound s held) (ho : s.Offline ipaddr) : (s.newAgentConn k).Offline ipaddr := by
  obtain ⟨c, hc, hsd⟩ := Option.bind_eq_some_iff.mp ho
  refine Option.bind_eq_some_iff.mpr ⟨c, hc, ?_⟩
  rw [h.sd_newAgentConn <| h.allocated_newest hc, hsd]

theorem offline_prepend {server ip : CString} {busy : Bool} (h : Sound s held) (hne : server ≠ ip) (ho : s.Offline ip) :
    Offline { s.newAgentConn k with items := ⟨server, busy, s.next⟩ :: s.items } ip := by
  have hnewest : newest { s.newAgentConn k with items := ⟨server, busy, s.next⟩ :: s.items } ip = s.newest ip := by
    rw [newest, List.find?_cons_of_neg <| by simpa using hne]
    rfl
  rw [Offline, hnewest]
  exact offline_newAgentConn h ho

theorem markServerOffline_spec (h : Sound s held) :
    ∃ s', markServerOffline net server s = some s' ∧ Sound s' held ∧ (∀ ip, s.Offline ip → s'.Offline ip) ∧
      ∀ ip, net.hostname2IPString server = some ip → s'.Offline ip := by
  rw [markServerOffline]
  cases net.hostname2IPString server
  case none        => exact ⟨s, rfl, h, fun _ => id, fun _ hip => by cases hip⟩
  case some ipaddr =>
    cases hfind : s.items.find? (·.server = ipaddr)
    case some svp =>
      have hsome := h.allocated svp <| List.mem_of_find?_eq_some hfind
      obtain ⟨k, hk⟩ := Option.isSome_iff_exists.mp hsome
      refine ⟨{ s with sd := Function.update s.sd svp.conn (some cfCouldNotConnect) }, ?_, h.setSocket hsome, ?_, ?_⟩
      · simp only [hfind, hk, Option.map_some]
      · intro ip ho
        obtain ⟨c, hc, hsd⟩ := Option.bind_eq_some_iff.mp ho
        refine Option.bind_eq_some_iff.mpr ⟨c, hc, ?_⟩
        by_cases heq : c = svp.conn
        case pos => exact heq ▸ Function.update_self ..
        case neg => exact (Function.update_of_ne heq ..).trans hsd
      · intro ip hip
        cases hip
        refine Option.bind_eq_some_iff.mpr ⟨svp.conn, ?_, Function.update_self ..⟩
        rw [newest, hfind, Option.map_some]
    case none     =>
      refine ⟨{ s.newAgentConn cfCouldNotConnect with items := ⟨ipaddr, false, s.next⟩ :: s.items }, ?_, h.prepend,
        ?_, ?_⟩
      · simp only [hfind]
      · intro ip ho
        apply offline_prepend h _ ho
        rintro rfl
        rw [Offline, newest, hfind] at ho
        cases ho
      · intro ip hip
        cases hip
        refine Option.bind_eq_some_iff.mpr ⟨s.next, ?_, sd_newAgentConn_self⟩
        rw [newest, List.find?_cons_of_pos <| by simp, Option.map_some]

-- A server that can be connected to has an address.
def Resolves (net : Network) (server : CString) : Prop :=
  (connectTo net server).toOption.isSome = true → (net.hostname2IPString server).isSome = true

-- A server that has been marked is not tried again.
theorem newServerConnection_offline (h : Sound s held) (hname : net.hostname2IPString server = some ipaddr)
    (ho : s.Offline ipaddr) : newServerConnection net maxthreads background (server :: servers) s =
      newServerConnection net maxthreads background servers s := by
  obtain ⟨offline, hoffline, hiff⟩ := serverOffline_spec h
  rw [newServerConnection, hoffline, hiff.mpr ⟨ipaddr, hname, ho⟩]
  rfl

-- The attempt to reach a server ends the search, or leaves the rest of it to the other servers.
theorem newServerConnection_cons (h : Sound s held) (hnet : Resolves net server) :
    (∃ s', Sound s' held ∧ (∀ ip, s.Offline ip → s'.Offline ip) ∧
      (background = false → ∀ ip, net.hostname2IPString server = some ip → s'.Offline ip) ∧ ∀ servers,
        newServerConnection net maxthreads background (server :: servers) s =
          newServerConnection net maxthreads background servers s') ∨
    ∃ conn s', Sound s' ((conn.map (·, background)).toList ++ held) ∧ (∀ ip, s.Offline ip → s'.Offline ip) ∧
      (background = false → conn.isSome = true) ∧ ∀ servers,
        newServerConnection net maxthreads background (server :: servers) s = some (conn, s') := by
  obtain ⟨offline, hoffline, hiff⟩ := serverOffline_spec h
  cases offline
  case true  =>
    obtain ⟨ip, hip, ho⟩ := hiff.mp rfl
    refine .inl ⟨s, h, fun _ => id, fun _ ip' hip' => ?_, fun servers => ?_⟩
    · rw [hip] at hip'
      cases hip'
      exact ho
    · rw [newServerConnection, hoffline]
      rfl
  case false =>
    have hclear (ip : CString) (hip : net.hostname2IPString server = some ip) : ¬s.Offline ip :=
      fun ho => Bool.false_ne_true <| hiff.mpr ⟨ip, hip, ho⟩
    cases background
    case true  =>
      by_cases hroom : s.items.length < maxthreads
      case neg =>
        refine .inl ⟨s, h, fun _ => id, fun hb => Bool.noConfusion hb, fun servers => ?_⟩
        simp [newServerConnection, hoffline, hroom]
      case pos =>
        cases hconn : connectTo net server
        case error err =>
          refine .inr ⟨none, s, h, fun _ => id, fun hb => Bool.noConfusion hb, fun servers => ?_⟩
          simp [newServerConnection, hoffline, hroom, serverConnection, hconn, Except.toOption]
        case ok sd =>
          refine .inr ⟨some s.next, s.newAgentConn sd, h.newAgentConn, fun _ => offline_newAgentConn h, fun _ => rfl,
            fun servers => ?_⟩
          simp [newServerConnection, hoffline, hroom, serverConnection, hconn, Except.toOption]
    case false =>
      rcases @getIdleConnectionToServer_spec net s held server h with
        hidle | ⟨l₁, svp, l₂, hitems, hbusy, -, hidle⟩
      · cases hconn : connectTo net server
        case error err =>
          obtain ⟨s', hmark, hs', hoff, hmarked⟩ := @markServerOffline_spec net s held server h
          refine .inl ⟨s', hs', hoff, fun _ => hmarked, fun servers => ?_⟩
          simp [newServerConnection, hoffline, hidle, serverConnection, hconn, hmark]
        case ok sd =>
          obtain ⟨ip, hip⟩ := Option.isSome_iff_exists.mp <| hnet <| by rw [hconn]; rfl
          refine .inr ⟨some s.next, { s.newAgentConn sd with items := ⟨ip, true, s.next⟩ :: s.items }, h.prepend, ?_,
            fun _ => rfl, ?_⟩
          · intro ip' ho
            apply offline_prepend h _ ho
            rintro rfl
            exact hclear _ hip ho
          · intro servers
            simp [newServerConnection, hoffline, hidle, serverConnection, hconn, cacheServerConnection, hip, newAgentConn]
      · refine .inr ⟨some svp.conn, _, h.take hitems hbusy, fun _ => offline_take hitems, fun _ => rfl, fun servers => ?_⟩
        simp [newServerConnection, hoffline, hidle]

theorem newServerConnection_spec (h : Sound s held) (hnet : ∀ server ∈ servers, Resolves net server) :
    ∃ conn s', newServerConnection net maxthreads background servers s = some (conn, s') ∧
      Sound s' ((conn.map (·, background)).toList ++ held) ∧ ∀ ip, s.Offline ip → s'.Offline ip := by
  induction servers generalizing s
  case nil                    => exact ⟨none, s, rfl, h, fun _ => id⟩
  case cons server servers ih =>
    rw [List.forall_mem_cons] at hnet
    rcases newServerConnection_cons h hnet.left with ⟨s', hs', hoff, -, heq⟩ | ⟨conn, s', hs', hoff, -, heq⟩
    · obtain ⟨conn, s'', hrest, hs'', hoff'⟩ := ih hs' hnet.right
      exact ⟨conn, s'', (heq servers).trans hrest, hs'', fun ip ho => hoff' ip <| hoff ip ho⟩
    · exact ⟨conn, s', heq servers, hs', hoff⟩

-- The servers with an address that has been marked might as well not be there.
theorem newServerConnection_filter (h : Sound s held) (hnet : ∀ server ∈ servers, Resolves net server)
    (ho : s.Offline ipaddr) :
    newServerConnection net maxthreads background servers s =
      newServerConnection net maxthreads background (servers.filter (net.hostname2IPString · ≠ some ipaddr)) s := by
  induction servers generalizing s
  case nil                    => rfl
  case cons server servers ih =>
    rw [List.forall_mem_cons] at hnet
    by_cases hname : net.hostname2IPString server = some ipaddr
    case pos =>
      rw [newServerConnection_offline h hname ho, List.filter_cons_of_neg <| by simpa using hname]
      exact ih h hnet.right ho
    case neg =>
      rw [List.filter_cons_of_pos <| by simpa using hname]
      rcases newServerConnection_cons h hnet.left with ⟨s', hs', hoff, -, heq⟩ | ⟨conn, s', -, -, -, heq⟩
      · rw [heq, heq]
        exact ih hs' hnet.right <| hoff ipaddr ho
      · rw [heq, heq]

-- Where no server could be reached, all of them have been marked.
theorem offline_of_none (h : Sound s held) (hnet : ∀ server ∈ servers, Resolves net server)
    (hfail : newServerConnection net maxthreads false servers s = some (none, s')) (hserver : server ∈ servers)
    (hname : net.hostname2IPString server = some ipaddr) : s'.Offline ipaddr := by
  induction servers generalizing s
  case nil                   => cases hserver
  case cons first servers ih =>
    rw [List.forall_mem_cons] at hnet
    rcases @newServerConnection_cons net maxthreads s held first false h hnet.left with
      ⟨s₁, hs₁, -, hmarked, heq⟩ | ⟨conn, s₁, -, -, hsome, heq⟩
    · rw [heq] at hfail
      rcases List.mem_cons.mp hserver with rfl | hserver
      · obtain ⟨conn, s₂, hrest, -, hoff⟩ := newServerConnection_spec hs₁ hnet.right
        rw [hfail] at hrest
        cases hrest
        exact hoff ipaddr <| hmarked rfl ipaddr hname
      · exact ih hs₁ hnet.right hfail hserver
    · rw [heq] at hfail
      cases hfail
      exact absurd (hsome rfl) Bool.false_ne_true

end ServerList

namespace ConnectionRun

variable {maxthreads : Nat} {run run' : ConnectionRun} {call : ConnectionCall} {calls calls' : List ConnectionCall}
  {net net' : Network} {servers servers' : List CString} {background : Bool} {list : ServerList} {ipaddr server : CString}

def Sound (run : ConnectionRun) : Prop :=
  run.list.Sound run.held

-- What the callers keep to. A connection that is finished with is one that is in use.
def Proper (run : ConnectionRun) : ConnectionCall → Prop
  | .connect net servers _ => ∀ server ∈ servers, ServerList.Resolves net server
  | .finish conn           => conn ∈ run.held.map Prod.fst

theorem step_spec (h : run.Sound) (hcall : run.Proper call) :
    ∃ run', run.step maxthreads call = some run' ∧ run'.Sound ∧ ∀ ip, run.list.Offline ip → run'.list.Offline ip := by
  cases call
  case connect net servers background =>
    obtain ⟨conn, list, heq, hlist, hoff⟩ := ServerList.newServerConnection_spec h hcall
    refine ⟨⟨list, (conn.map (·, background)).toList ++ run.held⟩, ?_, hlist, hoff⟩
    rw [step, heq]
    rfl
  case finish conn =>
    obtain ⟨⟨c, background⟩, hfind⟩ := Option.isSome_iff_exists.mp <| List.find?_isSome.mpr <| by
      obtain ⟨use, huse, heq⟩ := List.mem_map.mp hcall
      exact ⟨use, huse, decide_eq_true heq⟩
    have hmem := List.mem_of_find?_eq_some hfind
    have hc : c = conn := by simpa using List.find?_some hfind
    cases hc
    cases background
    case true  =>
      refine ⟨⟨run.list.disconnectServer conn, run.held.filter (·.1 ≠ conn)⟩, ?_, h.disconnectServer hmem, ?_⟩
      · rw [step, hfind]
        rfl
      · intro ip ho
        obtain ⟨d, hd, hsd⟩ := Option.bind_eq_some_iff.mp ho
        refine Option.bind_eq_some_iff.mpr ⟨d, hd, ?_⟩
        have hne : d ≠ conn := by
          rintro rfl
          obtain ⟨svp, hsvp, hconn⟩ := Option.map_eq_some_iff.mp hd
          exact (h.apart d hmem).right <| List.mem_map.mpr ⟨svp, List.mem_of_find?_eq_some hsvp, hconn⟩
        exact (Function.update_of_ne hne ..).trans hsd
    case false =>
      obtain ⟨l₁, svp, l₂, hitems, hconn, hloop⟩ := ServerList.notBusyLoop_spec <| h.pooled conn hmem
      cases hconn
      refine ⟨⟨{ run.list with items := l₁ ++ { svp with busy := false } :: l₂ }, run.held.filter (·.1 ≠ svp.conn)⟩, ?_,
        h.putBack hitems, fun _ => ServerList.offline_take hitems⟩
      rw [step, hfind, ServerList.serverNotBusy, hloop]
      rfl

-- In every run no call fails, and the connections stay in order.
theorem always_sound
    (h : Run.EveryStep (fun run call => ∀ r ∈ run, r.Proper call) (outcome maxthreads) (some start) calls) :
    Run.Always (fun run => ∃ r, run = some r ∧ r.Sound) (outcome maxthreads) (some start) calls := by
  apply h.always ⟨start, rfl, ServerList.sound_empty⟩
  rintro _ call ⟨r, rfl, hr⟩ hcall
  obtain ⟨r', hstep, hr', -⟩ := @step_spec maxthreads r call hr <| hcall r rfl
  exact ⟨r', hstep, hr'⟩

theorem foldl_spec (h : run.Sound)
    (hcalls : Run.EveryStep (fun run call => ∀ r ∈ run, r.Proper call) (outcome maxthreads) (some run) calls) :
    ∃ run', calls.foldl (outcome maxthreads) (some run) = some run' ∧ run'.Sound ∧
      ∀ ip, run.list.Offline ip → run'.list.Offline ip := by
  induction calls generalizing run
  case nil             => exact ⟨run, rfl, h, fun _ => id⟩
  case cons call calls ih =>
    obtain ⟨r, hstep, hr, hoff⟩ := @step_spec maxthreads run call h <| hcalls.left run rfl
    have hout : outcome maxthreads (some run) call = some r := hstep
    have hrest := hcalls.right
    rw [hout] at hrest
    obtain ⟨run', hfold, hrun', hoff'⟩ := ih hr hrest
    refine ⟨run', ?_, hrun', fun ip ho => hoff' ip <| hoff ip ho⟩
    rw [List.foldl_cons, hout, hfold]

-- When a search has ended with nothing, no server with the address of one of those is tried again, in all of the run.
theorem newServerConnection_after
    (h : Run.EveryStep (fun run call => ∀ r ∈ run, r.Proper call) (outcome maxthreads) (some start)
      (calls ++ .connect net servers false :: calls'))
    (hrun : calls.foldl (outcome maxthreads) (some start) = some run)
    (hfail : ServerList.newServerConnection net maxthreads false servers run.list = some (none, list))
    (hserver : server ∈ servers) (hname : net.hostname2IPString server = some ipaddr)
    (hlast : calls'.foldl (outcome maxthreads) (some ⟨list, run.held⟩) = some run')
    (hnet : ∀ server ∈ servers', ServerList.Resolves net' server) :
    ServerList.newServerConnection net' maxthreads background servers' run'.list =
      ServerList.newServerConnection net' maxthreads background
        (servers'.filter (net'.hostname2IPString · ≠ some ipaddr)) run'.list := by
  rw [Run.EveryStep.append, hrun] at h
  obtain ⟨run₁, hrun₁, hsound, -⟩ := @foldl_spec maxthreads start calls ServerList.sound_empty h.left
  rw [hrun] at hrun₁
  cases hrun₁
  have hproper := h.right.left run rfl
  have hout : outcome maxthreads (some run) (.connect net servers false) = some ⟨list, run.held⟩ := by
    rw [outcome, Option.bind_some, step, hfail]
    rfl
  obtain ⟨run₂, hstep, hsound₂, -⟩ := @step_spec maxthreads run (.connect net servers false) hsound hproper
  have heq : run₂ = ⟨list, run.held⟩ := Option.some.inj <| hstep.symm.trans hout
  subst heq
  have hcalls' := h.right.right
  rw [hout] at hcalls'
  obtain ⟨run₃, hrun₃, hsound₃, hoff⟩ := foldl_spec hsound₂ hcalls'
  rw [hlast] at hrun₃
  cases hrun₃
  exact ServerList.newServerConnection_filter hsound₃ hnet <| hoff ipaddr <|
    ServerList.offline_of_none hsound hproper hfail hserver hname

instance : Decidable (ServerList.Resolves net server) :=
  inferInstanceAs <| Decidable (_ → _)

-- A network in which a server has its own name as its address, and the server `b` answers.
def plainNetwork : Network :=
  ⟨some, [], fun server => if server = ['b'] then some 3 else none, fun _ => true, fun _ => true⟩

theorem resolves_plain : ServerList.Resolves plainNetwork server :=
  fun _ => rfl

theorem always_sound_plain :
    Run.Always (fun run => ∃ r, run = some r ∧ r.Sound) (outcome 10) (some start)
      [.connect plainNetwork [['a'], ['b']] false, .connect plainNetwork [['b']] false, .finish 1,
        .connect plainNetwork [['b']] true] := by
  refine always_sound ⟨fun r _ _ _ => resolves_plain, fun r _ _ _ => resolves_plain, fun r hr => ?_,
    fun r _ _ _ => resolves_plain, trivial⟩
  cases hr
  exact .tail _ <| .head _

theorem newServerConnection_after_plain :
    ServerList.newServerConnection { plainNetwork with serverConnect := fun _ => some 4 } 10 false [['a'], ['b']]
        ⟨[⟨['a'], false, 0⟩], Function.update (fun _ => none) 0 (some cfCouldNotConnect), 1⟩ =
      ServerList.newServerConnection { plainNetwork with serverConnect := fun _ => some 4 } 10 false [['b']]
        ⟨[⟨['a'], false, 0⟩], Function.update (fun _ => none) 0 (some cfCouldNotConnect), 1⟩ :=
  @newServerConnection_after 10 start ⟨_, []⟩ [] [] plainNetwork { plainNetwork with serverConnect := fun _ => some 4 }
    [['a']] [['a'], ['b']] false _ ['a'] ['a'] ⟨fun _ _ _ _ => resolves_plain, trivial⟩ rfl rfl (.head _) rfl rfl
    fun _ _ _ => rfl

end ConnectionRun
end CfEngine
