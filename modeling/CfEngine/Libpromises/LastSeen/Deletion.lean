import Mathlib.Tactic.SplitIfs
import CfEngine.Libpromises.LastSeen

namespace CfEngine

open Function (update)

namespace LastSeen

-- There is nothing about the host in the database.
structure Forgotten (db : LastSeenDB) (h : HostName) : Prop where
  forward  : db ('k' :: h.text) = none
  incoming : db ('q' :: 'i' :: h.text) = none
  outgoing : db ('q' :: 'o' :: h.text) = none
  reverse  : ∀ text, db ('a' :: text) ≠ some (textValue h.text)

-- The lookups find the other hosts as before.
def SameForOthers (db db' : LastSeenDB) (h : HostName) : Prop :=
  ∀ h' ≠ h, ∀ a : HostName, (address2HostkeyInDB db a.text).1 = some h'.text ↔
    (address2HostkeyInDB db' a.text).1 = some h'.text

-- The host is deleted and nothing else, or nothing is.
def DeletesDigest (key : HostName) (db : LastSeenDB) (result : Option CString × LastSeenDB) : Prop :=
  (result.1.isSome → Forgotten result.2 key ∧ SameForOthers db result.2 key) ∧ (result.1 = none → result.2 = db)

def DeletesIp (ip : HostName) (db : LastSeenDB) (result : Option CString × LastSeenDB) : Prop :=
  (result.1.isSome → ∃ h : HostName, readText db ('a' :: ip.text) = some h.text ∧ Forgotten result.2 h ∧
    SameForOthers db result.2 h) ∧ (result.1 = none → result.2 = db)

variable {quality : Option Buffer → Int → Buffer} {db : LastSeenDB} {h h' a : HostName} {incoming : Bool}
  {timestamp : Int} {addressOf hostAt : HostName → Option HostName}

-- All entries are those of the latest updates if there have only been updates.
structure Mirrors (db : LastSeenDB) (addressOf hostAt : HostName → Option HostName) : Prop where
  forward : ∀ h, db ('k' :: h.text) = (addressOf h).map fun a => textValue a.text
  reverse : ∀ a, db ('a' :: a.text) = (hostAt a).map fun h => textValue h.text
  names   : ∀ text, db ('a' :: text) ≠ none → ∃ a : HostName, text = a.text
  address : ∀ h a, addressOf h = some a → hostAt a ≠ none
  host    : ∀ a h, hostAt a = some h → addressOf h ≠ none

theorem Mirrors.consistent (hm : Mirrors db addressOf hostAt) : Consistent db addressOf hostAt where
  forward := hm.forward
  reverse := fun a => .inr <| hm.reverse a
  current := fun a h hat _ => by rw [hm.reverse, hat]; rfl

theorem Mirrors.update (hm : Mirrors db addressOf hostAt) :
    Mirrors (updateLastSawHost quality db h.text a.text incoming timestamp) (update addressOf h (some a))
      (update hostAt a (some h)) where
  forward := hm.consistent.update.forward
  reverse := by
    intro a'
    rw [updateLastSawHost_reverse, Function.update_apply]
    split_ifs with htext he he
    · rfl
    · exact absurd (HostName.ext htext) he
    · exact absurd (congrArg HostName.text he) htext
    · exact hm.reverse a'
  names   := by
    intro text hne
    rw [updateLastSawHost_reverse] at hne
    split at hne
    case isTrue he => exact ⟨a, he⟩
    case isFalse   => exact hm.names text hne
  address := by
    intro h' a' hof
    rw [Function.update_apply]
    split
    case isTrue      => exact nofun
    case isFalse hne =>
      rw [Function.update_apply] at hof
      split at hof
      case isTrue  => exact absurd (Option.some.inj hof).symm hne
      case isFalse => exact hm.address h' a' hof
  host    := by
    intro a' h' hat
    rw [Function.update_apply]
    split
    case isTrue      => exact nofun
    case isFalse hne =>
      rw [Function.update_apply] at hat
      split at hat
      case isTrue  => exact absurd (Option.some.inj hat).symm hne
      case isFalse => exact hm.host a' h' hat

-- The database without the entries of the host, and without the address.
def removed (db : LastSeenDB) (h a : HostName) : LastSeenDB := fun key =>
  if key ∈ ['k' :: h.text, 'a' :: a.text, 'q' :: 'i' :: h.text, 'q' :: 'o' :: h.text] then none else db key

theorem deleteDigest_of_some (hm : Mirrors db addressOf hostAt) (hof : addressOf h = some a) :
    deleteDigestFromLastSeen db h.text = (some a.text, removed db h a) := by
  have ⟨h', hat⟩ := Option.ne_none_iff_exists'.mp <| hm.address h a hof
  have hkey : db.hasKeyDB ('a' :: a.text) = true := by
    rw [DB.hasKeyDB, hm.reverse, hat]
    rfl
  rw [deleteDigestFromLastSeen, lastSeenKey_name, readText_eq <| hm.forward h, hof]
  simp only [Option.map_some, lastSeenKey_name, lastSeenKey_quality, hkey, not_true_eq_false, if_false, Prod.mk.injEq,
    true_and]
  funext key
  simp only [DB.deleteDB, Function.update_apply, removed, List.mem_cons, List.not_mem_nil, or_false]
  split_ifs <;> simp_all

theorem deleteIp_of_some (hm : Mirrors db addressOf hostAt) (hat : hostAt a = some h) :
    deleteIpFromLastSeen db a.text = (some ('k' :: h.text), removed db h a) := by
  have ⟨a', hof⟩ := Option.ne_none_iff_exists'.mp <| hm.host a h hat
  have hkey : db.hasKeyDB ('k' :: h.text) = true := by
    rw [DB.hasKeyDB, hm.forward, hof]
    rfl
  rw [deleteIpFromLastSeen, lastSeenKey_name, readText_eq <| hm.reverse a, hat]
  simp only [Option.map_some, lastSeenKey_name, lastSeenKey_quality, hkey, not_true_eq_false, if_false, Prod.mk.injEq,
    true_and]
  funext key
  simp only [DB.deleteDB, Function.update_apply, removed, List.mem_cons, List.not_mem_nil, or_false]
  split_ifs <;> simp_all

theorem removed_reverse {text : CString} :
    removed db h a ('a' :: text) = if text = a.text then none else db ('a' :: text) := by
  simp [removed]

theorem removed_forward : removed db h a ('k' :: h'.text) = if h' = h then none else db ('k' :: h'.text) := by
  have he : h'.text = h.text ↔ h' = h := ⟨HostName.ext, congrArg HostName.text⟩
  simp [removed, he]

theorem Mirrors.removed (hm : Mirrors db addressOf hostAt) (h a : HostName) :
    Consistent (removed db h a) (Function.update addressOf h none) (Function.update hostAt a none) where
  forward := by
    intro h'
    rw [removed_forward, Function.update_apply]
    split
    case isTrue  => rfl
    case isFalse => exact hm.forward h'
  reverse := by
    intro a'
    rw [removed_reverse]
    split
    case isTrue      => exact .inl rfl
    case isFalse hne =>
      rw [Function.update_of_ne fun he => hne <| congrArg HostName.text he]
      exact .inr <| hm.reverse a'
  current := by
    intro a' h' hat _
    rw [Function.update_apply] at hat
    split at hat
    case isTrue      => cases hat
    case isFalse hne =>
      rw [removed_reverse, if_neg fun he => hne <| HostName.ext he, hm.reverse, hat]
      rfl

-- The host is left in the addresses that it has used before and no other host has used since.
theorem Mirrors.forgotten_iff (hm : Mirrors db addressOf hostAt) :
    Forgotten (LastSeen.removed db h a) h ↔ ∀ b, hostAt b = some h → b = a := by
  constructor
  case mp  =>
    intro hf b hat
    by_contra hne
    have hb := hf.reverse b.text
    rw [removed_reverse, if_neg fun he => hne <| HostName.ext he, hm.reverse, hat] at hb
    exact hb rfl
  case mpr =>
    intro hall
    refine ⟨by simp [LastSeen.removed], by simp [LastSeen.removed], by simp [LastSeen.removed], fun text => ?_⟩
    rw [removed_reverse]
    split
    case isTrue      => exact nofun
    case isFalse hne =>
      intro hv
      have ⟨b, hb⟩ := hm.names text <| by rw [hv]; exact nofun
      rw [hb, hm.reverse] at hv
      have ⟨h', hat, he⟩ := Option.map_eq_some_iff.mp hv
      exact hne <| hb.trans <| congrArg HostName.text <| hall b <| textValue_inj he ▸ hat

-- Another host is lost if it is the one that the address leads to.
theorem Mirrors.sameForOthers_iff (hm : Mirrors db addressOf hostAt) :
    SameForOthers db (LastSeen.removed db h a) h ↔ ∀ h' ≠ h, hostAt a = some h' → addressOf h' ≠ some a := by
  have hlookup {db' : LastSeenDB} {addressOf' hostAt'} (hc : Consistent db' addressOf' hostAt') (h' b : HostName) :
      (address2HostkeyInDB db' b.text).1 = some h'.text ↔ hostAt' b = some h' ∧ addressOf' h' = some b := by
    rw [(hc.lookup b).right]
    exact ⟨fun ⟨_, he, hat⟩ => HostName.ext he ▸ hat, fun hat => ⟨h', rfl, hat⟩⟩
  constructor
  case mp  =>
    intro hs h' hne hat hof
    have ⟨hat', _⟩ := (hlookup (hm.removed h a) h' a).mp <| (hs h' hne a).mp <| (hlookup hm.consistent h' a).mpr ⟨hat, hof⟩
    rw [Function.update_self] at hat'
    cases hat'
  case mpr =>
    intro hall h' hne b
    rw [hlookup hm.consistent, hlookup (hm.removed h a), Function.update_of_ne hne]
    by_cases hb : b = a
    case pos =>
      subst hb
      rw [Function.update_self]
      exact ⟨fun ⟨hat, hof⟩ => absurd hof <| hall h' hne hat, nofun⟩
    case neg => rw [Function.update_of_ne hb]

theorem Mirrors.deletesDigest_iff (hm : Mirrors db addressOf hostAt) (key : HostName) :
    DeletesDigest key db (deleteDigestFromLastSeen db key.text) ↔
      ∀ a, addressOf key = some a → (∀ b, hostAt b = some key → b = a) ∧
        ∀ h ≠ key, hostAt a = some h → addressOf h ≠ some a := by
  cases hof : addressOf key
  case none   =>
    have he : deleteDigestFromLastSeen db key.text = (none, db) := by
      rw [deleteDigestFromLastSeen, lastSeenKey_name, readText_eq <| hm.forward key, hof]
      rfl
    rw [he]
    exact iff_of_true ⟨nofun, fun _ => rfl⟩ nofun
  case some a =>
    rw [deleteDigest_of_some hm hof, DeletesDigest]
    constructor
    case mp  =>
      intro hd a' he
      cases he
      have ⟨hf, hs⟩ := hd.left rfl
      exact ⟨hm.forgotten_iff.mp hf, hm.sameForOthers_iff.mp hs⟩
    case mpr =>
      intro hall
      have ⟨hf, hs⟩ := hall a rfl
      exact ⟨fun _ => ⟨hm.forgotten_iff.mpr hf, hm.sameForOthers_iff.mpr hs⟩, nofun⟩

theorem Mirrors.deletesIp_iff (hm : Mirrors db addressOf hostAt) (ip : HostName) :
    DeletesIp ip db (deleteIpFromLastSeen db ip.text) ↔
      ∀ h, hostAt ip = some h → ∀ b, hostAt b = some h → b = ip := by
  have hread := readText_eq <| hm.reverse ip
  cases hat : hostAt ip
  case none   =>
    have he : deleteIpFromLastSeen db ip.text = (none, db) := by
      rw [deleteIpFromLastSeen, lastSeenKey_name, hread, hat]
      rfl
    rw [he]
    exact iff_of_true ⟨nofun, fun _ => rfl⟩ nofun
  case some h =>
    rw [deleteIp_of_some hm hat, DeletesIp, hread, hat]
    constructor
    case mp  =>
      intro hd h' he
      have ⟨h₁, he₁, hf, _⟩ := hd.left rfl
      cases HostName.ext (Option.some.inj he₁)
      cases he
      exact hm.forgotten_iff.mp hf
    case mpr =>
      intro hall
      refine ⟨fun _ => ⟨h, rfl, hm.forgotten_iff.mpr <| hall h rfl, hm.sameForOthers_iff.mpr fun h' hne hat' => ?_⟩, nofun⟩
      exact absurd (Option.some.inj <| hat'.symm.trans hat) hne

end LastSeen

structure LastSeenUpdate where
  hostkey   : HostName
  address   : HostName
  incoming  : Bool
  timestamp : Int

def LastSeenUpdate.call (u : LastSeenUpdate) : LastSeenCall :=
  .update u.hostkey u.address u.incoming u.timestamp

theorem LastSeen.mirrors (quality : Option Buffer → Int → Buffer) (updates : List LastSeenUpdate) :
    Mirrors ((updates.map LastSeenUpdate.call).foldl (LastSeenCall.run quality) .empty)
      (latestAddress <| updates.map LastSeenUpdate.call) (latestHost <| updates.map LastSeenUpdate.call) := by
  induction updates using List.reverseRecOn
  case nil                          => exact ⟨fun _ => rfl, fun _ => rfl, fun _ hne => absurd rfl hne, nofun, nofun⟩
  case append_singleton updates u ih =>
    simp only [latestAddress, latestHost, List.map_append, List.map_cons, List.map_nil, List.foldl_append,
      List.foldl_cons, List.foldl_nil]
    exact ih.update

-- A host is deleted and nothing else if there is no other address that it has been the last one to use, and the
-- address is not another host's by now.
theorem deleteFromLastSeen_iff (quality : Option Buffer → Int → Buffer) (updates : List LastSeenUpdate) :
    let calls := updates.map LastSeenUpdate.call
    let db := calls.foldl (LastSeenCall.run quality) .empty
    (∀ key : HostName, LastSeen.DeletesDigest key db (deleteDigestFromLastSeen db key.text) ↔
      ∀ a, latestAddress calls key = some a → (∀ b, latestHost calls b = some key → b = a) ∧
        ∀ h ≠ key, latestHost calls a = some h → latestAddress calls h ≠ some a) ∧
    ∀ ip : HostName, LastSeen.DeletesIp ip db (deleteIpFromLastSeen db ip.text) ↔
      ∀ h, latestHost calls ip = some h → ∀ b, latestHost calls b = some h → b = ip :=
  ⟨(LastSeen.mirrors quality updates).deletesDigest_iff, (LastSeen.mirrors quality updates).deletesIp_iff⟩

-- A host that has moved from one address to another.
theorem not_deletesFromLastSeen :
    let key : HostName := ⟨['S', 'H', 'A', '=', '1'], by decide, by decide⟩
    let old : HostName := ⟨['1', '0', '.', '0', '.', '0', '.', '1'], by decide, by decide⟩
    let ip : HostName := ⟨['1', '0', '.', '0', '.', '0', '.', '2'], by decide, by decide⟩
    let db := ([⟨key, old, true, 1⟩, ⟨key, ip, true, 2⟩].map LastSeenUpdate.call).foldl
      (LastSeenCall.run fun _ _ => []) .empty
    ¬LastSeen.DeletesDigest key db (deleteDigestFromLastSeen db key.text) ∧
      ¬LastSeen.DeletesIp ip db (deleteIpFromLastSeen db ip.text) := by
  refine ⟨fun h => ?_, fun h => ?_⟩
  case refine_1 =>
    have ⟨hf, _⟩ := h.left (by decide +kernel)
    exact hf.reverse ['1', '0', '.', '0', '.', '0', '.', '1'] (by decide +kernel)
  case refine_2 =>
    have ⟨h', hread, hf, _⟩ := h.left (by decide +kernel)
    have he : h'.text = ['S', 'H', 'A', '=', '1'] := Option.some.inj <| hread.symm.trans (by decide +kernel)
    have hv := hf.reverse ['1', '0', '.', '0', '.', '0', '.', '1']
    rw [he] at hv
    exact hv (by decide +kernel)

end CfEngine
