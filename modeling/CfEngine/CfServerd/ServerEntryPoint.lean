import CfEngine.CfServerd.Server
import CfEngine.Library.Run
import CfEngine.Libutils.Scanf
import Mathlib.Data.List.Count

namespace CfEngine

-- The lists of addresses, and the numbers of threads and of failures in a row that the server can bear.
structure ServerLimits where
  nonattackerlist : List CString
  attackerlist    : List CString
  multiconnlist   : List CString
  maxprocesses    : Int
  maxtries        : Int

-- The thread of a connection waits for its turn, works on requests, or has ended and will delete the connection.
inductive ThreadPhase
  | spawned
  | busy
  | closing
  deriving DecidableEq

structure ServerThread where
  ipaddr : CString
  phase  : ThreadPhase

-- The addresses of the entries that were too old, and of those that came without a connection, are not in the source.
structure ServerThreads where
  connectionlist : List Item
  activeThreads  : Int
  tries          : Int
  threads        : List ServerThread
  purged         : List CString
  orphaned       : List CString

inductive ServerCall
  | enter (ipaddr : CString) (now : Int) (named : Bool)
  | start (i : Nat)
  | finish (i : Nat)
  | delete (i : Nat)

namespace ServerThreads

variable (m : Matchers) (limits : ServerLimits) (s : ServerThreads)

def empty : ServerThreads :=
  ⟨[], 0, 0, [], [], []⟩

def timeText (now : Int) : CString :=
  (toString <| toInt now).toList.take 62

-- The items that stay, and the addresses of the others. The time of an item that has none is that of the one before it.
def purgeLoop (now : Int) : Int → List Item → List Item × List CString
  | _, []          => ([], [])
  | time, ip :: items =>
    let time := (scanNumber <| ip.classes.getD []).elim time (toInt ·.1)
    let rest := purgeLoop now time items
    if time + 7200 < now then (rest.1, ip.name :: rest.2) else (ip :: rest.1, rest.2)

def purgeOldConnections (now : Int) : ServerThreads :=
  { s with
    connectionlist := (purgeLoop now 0 s.connectionlist).1
    purged         := (purgeLoop now 0 s.connectionlist).2 ++ s.purged }

def refusesAddress (address : CString) : Bool :=
  limits.nonattackerlist ≠ [] ∧ ¬m.isMatchItemIn limits.nonattackerlist address ∨ m.isMatchItemIn limits.attackerlist address

-- A new connection has a thread of its own, unless its socket has no name.
def spawnConnection (ipaddr : CString) (named : Bool) : ServerThreads :=
  if named then
    { s with threads := s.threads ++ [⟨ipaddr.take <| cfMaxIpLen - 1, .spawned⟩] }
  else
    { s with orphaned := mapAddress ipaddr :: s.orphaned }

def serverEntryPoint (ipaddr : CString) (now : Int) (named : Bool) : ServerThreads :=
  if refusesAddress m limits (mapAddress ipaddr) then
    s
  else
    let s := s.purgeOldConnections now
    if ¬m.isMatchItemIn limits.multiconnlist (mapAddress ipaddr) ∧
        isItemIn (s.connectionlist.map Item.name) (mapAddress ipaddr) then
      s
    else
      { s with connectionlist := ⟨mapAddress ipaddr, some <| timeText now⟩ :: s.connectionlist }.spawnConnection ipaddr named

def setPhase (i : Nat) (phase : ThreadPhase) : ServerThreads :=
  { s with threads := s.threads.modify i fun thread => { thread with phase := phase } }

-- The server gives up when it has been too busy too often.
def beginConnection (i : Nat) : Option ServerThreads :=
  if limits.maxprocesses ≤ s.activeThreads + 1 then
    if limits.maxtries < s.tries then
      none
    else
      some <| { s with tries := s.tries + 1 }.setPhase i .closing
  else
    some <| { s with tries := 0, activeThreads := s.activeThreads + 1 }.setPhase i .busy

def endConnection (i : Nat) : ServerThreads :=
  { s with activeThreads := s.activeThreads - 1 }.setPhase i .closing

-- The address is a regular expression here, and the first item that matches is deleted.
def deleteItemMatching (regex : CString) : List Item → List Item
  | []          => []
  | ip :: items => if fullTextMatch m.pcre regex ip.name then items else ip :: deleteItemMatching regex items

def deleteConn (i : Nat) (ipaddr : CString) : ServerThreads :=
  { s with
    connectionlist := deleteItemMatching m (mapAddress ipaddr) s.connectionlist
    threads        := s.threads.eraseIdx i }

-- There is no state after the server has given up.
def step : ServerCall → Option ServerThreads
  | .enter ipaddr now named => some <| s.serverEntryPoint m limits ipaddr now named
  | .start i                =>
    if (s.threads[i]?).map ServerThread.phase = some .spawned then s.beginConnection limits i else some s
  | .finish i               =>
    if (s.threads[i]?).map ServerThread.phase = some .busy then some <| s.endConnection i else some s
  | .delete i               =>
    match s.threads[i]? with
    | some ⟨ipaddr, .closing⟩ => some <| s.deleteConn m i ipaddr
    | _                       => some s

def outcome (s : Option ServerThreads) (call : ServerCall) : Option ServerThreads :=
  s.bind (step m limits · call)

section
variable {m : Matchers} {limits : ServerLimits} {s s' : ServerThreads} {addresses : List CString} {items : List Item}
  {a ipaddr : CString} {time now : Int} {named : Bool} {call : ServerCall} {calls : List ServerCall} {i : Nat}
  {phase : ThreadPhase} {thread : ServerThread}

-- How often the address is in the list, and how many connections from it there are.
def entries (s : ServerThreads) : List CString :=
  s.connectionlist.map Item.name

def hosts (s : ServerThreads) : List CString :=
  s.threads.map fun thread => mapAddress thread.ipaddr

def isBusy (thread : ServerThread) : Bool :=
  thread.phase = .busy

-- An address from which one connection at a time is accepted.
def Single (m : Matchers) (limits : ServerLimits) (address : CString) : Prop :=
  m.isMatchItemIn limits.multiconnlist address = false

-- The addresses are texts that match nothing but themselves.
structure Literal (m : Matchers) (addresses : List CString) : Prop where
  matches_iff : ∀ a ∈ addresses, ∀ b ∈ addresses, fullTextMatch m.pcre a b = true ↔ a = b

def From (addresses : List CString) : ServerCall → Prop
  | .enter ipaddr _ _ => mapAddress ipaddr ∈ addresses ∧ ipaddr.length < cfMaxIpLen
  | .start _          => True
  | .finish _         => True
  | .delete _         => True

structure Sound (m : Matchers) (limits : ServerLimits) (addresses : List CString) (s : ServerThreads) : Prop where
  active  : s.activeThreads = s.threads.countP isBusy
  room    : 0 < limits.maxprocesses → s.activeThreads < limits.maxprocesses
  entered : ∀ a ∈ s.entries, a ∈ addresses
  hosted  : ∀ a ∈ s.hosts, a ∈ addresses
  covered : ∀ a, s.hosts.count a ≤ s.entries.count a + s.purged.count a
  needed  : ∀ a, s.entries.count a ≤ s.hosts.count a + s.orphaned.count a
  single  : ∀ a, Single m limits a → s.entries.count a ≤ 1

theorem sound_empty : Sound m limits addresses empty where
  active  := rfl
  room    := id
  entered := nofun
  hosted  := nofun
  covered := fun _ => Nat.zero_le _
  needed  := fun _ => Nat.zero_le _
  single  := fun _ _ => Nat.zero_le _

-- An item is kept or purged.
theorem count_purgeLoop : (items.map Item.name).count a =
    ((purgeLoop now time items).1.map Item.name).count a + (purgeLoop now time items).2.count a := by
  induction items generalizing time
  case nil             => rfl
  case cons ip items ih =>
    simp only [purgeLoop]
    generalize (scanNumber <| ip.classes.getD []).elim time (toInt ·.1) = time
    rw [List.map_cons, List.count_cons, @ih time]
    by_cases hold : time + 7200 < now
    case pos => rw [if_pos hold, List.count_cons, Nat.add_assoc]
    case neg => rw [if_neg hold, List.map_cons, List.count_cons, Nat.add_right_comm]

theorem mem_purgeLoop (h : a ∈ (purgeLoop now time items).1.map Item.name) : a ∈ items.map Item.name := by
  rw [←List.count_pos_iff] at h ⊢
  rw [@count_purgeLoop items a time now]
  omega

theorem names_deleteItemMatching (h : Literal m addresses) (ha : a ∈ addresses)
    (hitems : ∀ b ∈ items.map Item.name, b ∈ addresses) :
    (deleteItemMatching m a items).map Item.name = (items.map Item.name).erase a := by
  induction items
  case nil             => rfl
  case cons ip items ih =>
    rw [List.map_cons, List.forall_mem_cons] at hitems
    rw [deleteItemMatching, List.map_cons, List.erase_cons]
    by_cases heq : a = ip.name
    case pos => rw [if_pos <| (h.matches_iff a ha _ hitems.left).mpr heq, if_pos <| beq_iff_eq.mpr heq.symm]
    case neg =>
      rw [if_neg <| mt (h.matches_iff a ha _ hitems.left).mp heq, if_neg <| mt beq_iff_eq.mp <| Ne.symm heq,
        List.map_cons, ih hitems.right]

theorem exists_parts (h : s.threads[i]? = some thread) : ∃ l₁ l₂, s.threads = l₁ ++ thread :: l₂ ∧
    s.threads.eraseIdx i = l₁ ++ l₂ ∧
      ∀ phase, (s.setPhase i phase).threads = l₁ ++ { thread with phase := phase } :: l₂ := by
  obtain ⟨hi, rfl⟩ := List.getElem?_eq_some_iff.mp h
  refine ⟨s.threads.take i, s.threads.drop (i + 1), ?_, ?_, fun phase => ?_⟩
  · rw [List.getElem_cons_drop, List.take_append_drop]
  · exact List.eraseIdx_eq_take_drop_succ ..
  · exact List.modify_eq_take_cons_drop hi

namespace Sound

theorem purge (h : Sound m limits addresses s) : Sound m limits addresses (s.purgeOldConnections now) := by
  have hcount (a : CString) : s.entries.count a =
      (s.purgeOldConnections now).entries.count a + (purgeLoop now 0 s.connectionlist).2.count a := count_purgeLoop
  exact
    { h with
      entered := fun a ha => h.entered a <| mem_purgeLoop ha
      covered := fun a => by
        have hcovered := h.covered a
        rw [hcount a] at hcovered
        change s.hosts.count a ≤ _ + (_ ++ s.purged).count a
        rw [List.count_append]
        omega
      needed  := fun a => by
        have hneeded := h.needed a
        rw [hcount a] at hneeded
        exact (Nat.le_add_right ..).trans hneeded
      single  := fun a ha => by
        have hsingle := h.single a ha
        rw [hcount a] at hsingle
        exact (Nat.le_add_right ..).trans hsingle }

-- The item that is added with a connection, or without one.
theorem spawn {item : Item} (h : Sound m limits addresses s) (hname : item.name = mapAddress ipaddr)
    (hfrom : mapAddress ipaddr ∈ addresses) (hlen : ipaddr.length < cfMaxIpLen)
    (hsingle : Single m limits (mapAddress ipaddr) → s.entries.count (mapAddress ipaddr) = 0) :
    Sound m limits addresses ({ s with connectionlist := item :: s.connectionlist }.spawnConnection ipaddr named) := by
  have hentered : ∀ a ∈ item.name :: s.entries, a ∈ addresses :=
    List.forall_mem_cons.mpr ⟨hname ▸ hfrom, h.entered⟩
  have hone (a : CString) (ha : Single m limits a) : (item.name :: s.entries).count a ≤ 1 := by
    rw [List.count_cons, hname]
    split
    case isFalse => exact h.single a ha
    case isTrue heq =>
      rw [←beq_iff_eq.mp heq, hsingle <| beq_iff_eq.mp heq ▸ ha]
  cases named
  case false =>
    exact
      { h with
        entered := hentered
        covered := fun a => (h.covered a).trans <| Nat.add_le_add_right (List.count_le_count_cons ..) _
        needed  := fun a => by
          have hneeded := h.needed a
          change (item.name :: s.entries).count a ≤ s.hosts.count a + (mapAddress ipaddr :: s.orphaned).count a
          rw [List.count_cons, List.count_cons, hname]
          omega
        single  := hone }
  case true  =>
    have htake : ipaddr.take (cfMaxIpLen - 1) = ipaddr := List.take_of_length_le <| Nat.le_pred_of_lt hlen
    have hhosts : ServerThreads.hosts ({ s with connectionlist := item :: s.connectionlist }.spawnConnection ipaddr true) =
        s.hosts ++ [mapAddress ipaddr] := by
      simp [hosts, spawnConnection, htake]
    exact
      { active  := by
          simp [spawnConnection, h.active, isBusy]
        room    := h.room
        entered := hentered
        hosted  := by
          rw [hhosts]
          intro a ha
          rcases List.mem_append.mp ha with ha | ha
          · exact h.hosted a ha
          · exact List.mem_singleton.mp ha ▸ hfrom
        covered := fun a => by
          have hcovered := h.covered a
          rw [hhosts]
          change _ ≤ (item.name :: s.entries).count a + s.purged.count a
          rw [List.count_append, List.count_singleton, List.count_cons, hname]
          omega
        needed  := fun a => by
          have hneeded := h.needed a
          rw [hhosts]
          change (item.name :: s.entries).count a ≤ _ + s.orphaned.count a
          rw [List.count_append, List.count_singleton, List.count_cons, hname]
          omega
        single  := hone }

theorem serverEntryPoint (h : Sound m limits addresses s) (hfrom : mapAddress ipaddr ∈ addresses)
    (hlen : ipaddr.length < cfMaxIpLen) :
    Sound m limits addresses (s.serverEntryPoint m limits ipaddr now named) := by
  rw [ServerThreads.serverEntryPoint]
  split
  case isTrue  => exact h
  case isFalse =>
    have hpurge : Sound m limits addresses (s.purgeOldConnections now) := h.purge
    simp only
    split
    case isTrue       => exact hpurge
    case isFalse hnew =>
      apply hpurge.spawn rfl hfrom hlen
      intro hsingle
      rw [not_and, Bool.not_eq_true, Bool.not_eq_true] at hnew
      have hnot := hnew hsingle
      rw [isItemIn, decide_eq_false_iff_not, not_or] at hnot
      exact List.count_eq_zero.mpr hnot.right

-- Nothing but the phase of one thread changes.
theorem setPhase (h : Sound m limits addresses s) (hi : s.threads[i]? = some thread) {tries active : Int}
    (hactive : active + (if isBusy thread then 1 else 0) = s.activeThreads + if phase = .busy then 1 else 0)
    (hroom : 0 < limits.maxprocesses → active < limits.maxprocesses) :
    Sound m limits addresses ({ s with tries := tries, activeThreads := active }.setPhase i phase) := by
  obtain ⟨l₁, l₂, hthreads, -, hset⟩ := exists_parts hi
  have hnew : ({ s with tries := tries, activeThreads := active }.setPhase i phase).threads =
      l₁ ++ { thread with phase := phase } :: l₂ := hset phase
  have hhosts : ServerThreads.hosts ({ s with tries := tries, activeThreads := active }.setPhase i phase) = s.hosts := by
    rw [hosts, hosts, hnew, hthreads, List.map_append, List.map_append, List.map_cons, List.map_cons]
  exact
    { room    := hroom
      entered := h.entered
      needed  := fun a => hhosts ▸ h.needed a
      single  := h.single
      hosted  := hhosts ▸ h.hosted
      covered := fun a => hhosts ▸ h.covered a
      active  := by
        have hold := h.active
        rw [hthreads, List.countP_append, List.countP_cons] at hold
        rw [hnew, List.countP_append, List.countP_cons]
        change active = _
        have hphase : isBusy { thread with phase := phase } = decide (phase = .busy) := rfl
        rw [hphase]
        simp only [decide_eq_true_eq]
        split at hactive <;> split at hactive <;> simp_all <;> omega }

theorem beginConnection (h : Sound m limits addresses s) (hi : s.threads[i]? = some thread)
    (hphase : thread.phase = .spawned) (hs : s.beginConnection limits i = some s') : Sound m limits addresses s' := by
  have hidle : isBusy thread = false := by
    rw [isBusy, hphase]
    rfl
  rw [ServerThreads.beginConnection] at hs
  split at hs
  case isTrue       =>
    split at hs
    case isTrue  => cases hs
    case isFalse =>
      cases hs
      exact h.setPhase hi (by simp [hidle]) h.room
  case isFalse hmax =>
    cases hs
    exact h.setPhase hi (by simp [hidle]) fun _ => Int.not_le.mp hmax

theorem endConnection (h : Sound m limits addresses s) (hi : s.threads[i]? = some thread)
    (hphase : thread.phase = .busy) : Sound m limits addresses (s.endConnection i) := by
  have hbusy : isBusy thread = true := by
    rw [isBusy, hphase]
    rfl
  refine h.setPhase hi (by simp [hbusy]) fun hpos => ?_
  have hroom := h.room hpos
  omega

theorem deleteConn (hlit : Literal m addresses) (h : Sound m limits addresses s)
    (hi : s.threads[i]? = some ⟨ipaddr, .closing⟩) : Sound m limits addresses (s.deleteConn m i ipaddr) := by
  obtain ⟨l₁, l₂, hthreads, herase, -⟩ := exists_parts hi
  have hhosts : s.hosts = l₁.map (mapAddress ·.ipaddr) ++ mapAddress ipaddr :: l₂.map (mapAddress ·.ipaddr) := by
    rw [hosts, hthreads, List.map_append, List.map_cons]
  have hhosts' : (s.deleteConn m i ipaddr).hosts = l₁.map (mapAddress ·.ipaddr) ++ l₂.map (mapAddress ·.ipaddr) := by
    rw [hosts, ServerThreads.deleteConn, herase, List.map_append]
  have haddress : mapAddress ipaddr ∈ addresses :=
    h.hosted _ <| hhosts ▸ List.mem_append_right _ List.mem_cons_self
  have hentries : (s.deleteConn m i ipaddr).entries = s.entries.erase (mapAddress ipaddr) :=
    names_deleteItemMatching hlit haddress h.entered
  have hcount (a : CString) : s.hosts.count a =
      (s.deleteConn m i ipaddr).hosts.count a + if mapAddress ipaddr = a then 1 else 0 := by
    rw [hhosts, hhosts', List.count_append, List.count_append, List.count_cons, Nat.add_assoc]
    simp only [beq_iff_eq]
  have hleft (a : CString) : (s.deleteConn m i ipaddr).entries.count a =
      s.entries.count a - if mapAddress ipaddr = a then 1 else 0 := by
    rw [hentries, List.count_erase]
    simp only [beq_iff_eq]
  exact
    { active  := by
        have hold := h.active
        rw [hthreads, List.countP_append, List.countP_cons] at hold
        rw [ServerThreads.deleteConn, herase, List.countP_append]
        exact hold
      room    := h.room
      entered := fun a ha => h.entered a <| List.mem_of_mem_erase <| hentries ▸ ha
      hosted  := fun a ha => h.hosted a <| by
        rw [hhosts]
        rw [hhosts'] at ha
        rcases List.mem_append.mp ha with ha | ha
        · exact List.mem_append_left _ ha
        · exact List.mem_append_right _ <| List.mem_cons_of_mem _ ha
      covered := fun a => by
        have hcovered := h.covered a
        rw [hcount a] at hcovered
        rw [hleft a]
        generalize (if mapAddress ipaddr = a then 1 else 0) = n at hcovered ⊢
        change _ ≤ _ + s.purged.count a
        omega
      needed  := fun a => by
        have hneeded := h.needed a
        rw [hcount a] at hneeded
        rw [hleft a]
        generalize (if mapAddress ipaddr = a then 1 else 0) = n at hneeded ⊢
        change _ ≤ _ + s.orphaned.count a
        omega
      single  := fun a ha => by
        rw [hleft a]
        exact (Nat.sub_le ..).trans <| h.single a ha }

theorem step (hlit : Literal m addresses) (h : Sound m limits addresses s) (hfrom : From addresses call)
    (hs : s.step m limits call = some s') : Sound m limits addresses s' := by
  cases call
  case enter ipaddr now named =>
    cases hs
    exact h.serverEntryPoint hfrom.left hfrom.right
  case start i  =>
    rw [ServerThreads.step] at hs
    split at hs
    case isTrue hi =>
      obtain ⟨thread, hthread, hphase⟩ := Option.map_eq_some_iff.mp hi
      exact h.beginConnection hthread hphase hs
    case isFalse   =>
      cases hs
      exact h
  case finish i =>
    rw [ServerThreads.step] at hs
    split at hs
    case isTrue hi =>
      cases hs
      obtain ⟨thread, hthread, hphase⟩ := Option.map_eq_some_iff.mp hi
      exact h.endConnection hthread hphase
    case isFalse   =>
      cases hs
      exact h
  case delete i =>
    rw [ServerThreads.step] at hs
    split at hs
    case h_1 ipaddr hi =>
      cases hs
      exact deleteConn hlit h hi
    case h_2           =>
      cases hs
      exact h

end Sound

-- However the threads take turns: an address from which one connection at a time is accepted has more of them only if
-- entries of it were too old. An entry without a connection is one whose socket had no name. And no more threads are
-- busy than may be.
theorem always_limited (hlit : Literal m addresses) (hcalls : ∀ call ∈ calls, From addresses call) :
    Run.Always (fun state => ∀ s ∈ state,
        (∀ a, Single m limits a → s.hosts.count a ≤ 1 + s.purged.count a) ∧
          (∀ a, s.entries.count a ≤ s.hosts.count a + s.orphaned.count a) ∧
            (0 < limits.maxprocesses → (s.threads.countP isBusy : Int) < limits.maxprocesses))
      (outcome m limits) (some empty) calls := by
  have hrun : Run.Always (fun state => ∀ s ∈ state, Sound m limits addresses s) (outcome m limits) (some empty) calls := by
    apply (Run.everyStep_of_forall_mem (G := fun _ call => From addresses call) fun call hm _ => hcalls call hm).always
    · rintro s hs
      cases hs
      exact sound_empty
    · rintro state call hstate hfrom s' hs'
      obtain ⟨s, hs, hstep⟩ := Option.bind_eq_some_iff.mp hs'
      exact (hstate s hs).step hlit hfrom hstep
  refine hrun.imp fun state hstate s hs => ?_
  have h := hstate s hs
  refine ⟨fun a ha => (h.covered a).trans <| Nat.add_le_add_right (h.single a ha) _, h.needed, fun hpos => ?_⟩
  rw [←h.active]
  exact h.room hpos

end

theorem always_limited_plain :
    Run.Always (fun state => ∀ s ∈ state,
        (∀ a, Single plainMatchers ⟨[], [], [], 2, 5⟩ a → s.hosts.count a ≤ 1 + s.purged.count a) ∧
          (∀ a, s.entries.count a ≤ s.hosts.count a + s.orphaned.count a) ∧
            ((0 : Int) < 2 → (s.threads.countP isBusy : Int) < 2))
      (outcome plainMatchers ⟨[], [], [], 2, 5⟩) (some empty)
      [.enter ['1'] 0 true, .start 0, .enter ['1'] 8000 true, .finish 0, .delete 0] :=
  @always_limited plainMatchers ⟨[], [], [], 2, 5⟩ [['1']] _ ⟨by decide⟩ <| by
    simp only [List.forall_mem_cons]
    exact ⟨⟨by decide, by decide⟩, trivial, ⟨by decide, by decide⟩, trivial, trivial, nofun⟩

end ServerThreads
end CfEngine
