import CfEngine.Libpromises.DbmApi
import Mathlib.Data.List.Induction

namespace CfEngine

-- The values are bytes. They are text, but for those about the quality of a connection.
abbrev LastSeenDB := DB Buffer

-- What `snprintf` puts into a buffer of `CF_BUFSIZE`, and `strlcat` into the same.
def lastSeenKey (text : CString) : CString :=
  text.take (cfBufSize - 1)

-- The text that is read into a buffer of `CF_BUFSIZE`.
def readText (db : LastSeenDB) (key : CString) : Option CString :=
  (db.readDB key).map fun value => Buffer.toCString <| value.take cfBufSize

def textValue (text : CString) : Buffer :=
  text ++ ['\x00']

-- The function gives the bytes of the new `KeyHostSeen`, given those of the old one.
def updateLastSawHost (quality : Option Buffer → Int → Buffer) (db : LastSeenDB) (hostkey address : CString)
    (incoming : Bool) (timestamp : Int) : LastSeenDB :=
  let qualityKey := lastSeenKey <| 'q' :: (if incoming then 'i' else 'o') :: hostkey
  let db := db.writeDB qualityKey <| quality (db.readDB qualityKey) timestamp
  let db := db.writeDB (lastSeenKey <| 'k' :: hostkey) <| textValue address
  db.writeDB (lastSeenKey <| 'a' :: address) <| textValue hostkey

-- The lookup removes a reverse entry that does not match.
def address2HostkeyInDB (db : LastSeenDB) (address : CString) : Option CString × LastSeenDB :=
  let addressKey := lastSeenKey <| 'a' :: address
  match readText db addressKey with
  | none         => (none, db)
  | some hostkey =>
    match readText db <| lastSeenKey <| 'k' :: hostkey with
    | none             => (none, db.deleteDB addressKey)
    | some backAddress =>
      if CString.strcmp address backAddress ≠ 0 then
        (none, db.deleteDB addressKey)
      else
        (some <| hostkey.take (cfBufSize - 1), db)

-- Whether an entry has been deleted, and the digest with its prefix.
def deleteIpFromLastSeen (db : LastSeenDB) (ip : CString) : Option CString × LastSeenDB :=
  let bufhost := lastSeenKey <| 'a' :: ip
  match readText db bufhost with
  | none     => (none, db)
  | some key =>
    let bufkey := lastSeenKey <| 'k' :: key
    if ¬db.hasKeyDB bufkey then
      (none, db)
    else
      let db := (db.deleteDB bufkey).deleteDB bufhost
      let db := db.deleteDB <| lastSeenKey <| 'q' :: 'i' :: key
      (some bufkey, db.deleteDB <| lastSeenKey <| 'q' :: 'o' :: key)

-- Whether an entry has been deleted, and the address.
def deleteDigestFromLastSeen (db : LastSeenDB) (key : CString) : Option CString × LastSeenDB :=
  let bufkey := lastSeenKey <| 'k' :: key
  match readText db bufkey with
  | none      => (none, db)
  | some host =>
    let bufhost := lastSeenKey <| 'a' :: host
    if ¬db.hasKeyDB bufhost then
      (none, db)
    else
      let db := (db.deleteDB bufhost).deleteDB bufkey
      let db := db.deleteDB <| lastSeenKey <| 'q' :: 'i' :: key
      (some host, db.deleteDB <| lastSeenKey <| 'q' :: 'o' :: key)

-- A hostkey or an address that fits into the buffers with its prefix.
structure HostName where
  text         : CString
  isTerminated : '\x00' ∉ text
  fits         : text.length < cfBufSize - 2
  deriving DecidableEq

inductive LastSeenCall
  | update (hostkey address : HostName) (incoming : Bool) (timestamp : Int)
  | lookup (address : HostName)

def LastSeenCall.run (quality : Option Buffer → Int → Buffer) (db : LastSeenDB) : LastSeenCall → LastSeenDB
  | update hostkey address incoming timestamp =>
    updateLastSawHost quality db hostkey.text address.text incoming timestamp
  | lookup address => (address2HostkeyInDB db address.text).2

open Function (update)

theorem HostName.ext {n n' : HostName} (h : n.text = n'.text) : n = n' := by
  cases n
  cases n'
  cases h
  rfl

namespace LastSeen

variable {quality : Option Buffer → Int → Buffer} {db : LastSeenDB} {h h' a a' : HostName} {incoming : Bool}
  {timestamp : Int} {text : CString} {addressOf hostAt : HostName → Option HostName}

-- The names are not cut off.
theorem lastSeenKey_name (c : Char) (n : HostName) : lastSeenKey (c :: n.text) = c :: n.text := by
  have hn := n.fits
  exact List.take_of_length_le <| by
    rw [List.length_cons]
    omega

theorem lastSeenKey_quality (c : Char) (n : HostName) : lastSeenKey ('q' :: c :: n.text) = 'q' :: c :: n.text := by
  have hn := n.fits
  exact List.take_of_length_le <| by
    rw [List.length_cons, List.length_cons]
    omega

theorem toCString_textValue (n : HostName) : (Buffer.toCString <| (textValue n.text).take cfBufSize) = n.text := by
  have hn := n.fits
  have htake : (textValue n.text).take cfBufSize = textValue n.text := List.take_of_length_le <| by
    rw [textValue, List.length_append, List.length_singleton]
    omega
  rw [htake, Buffer.toCString, textValue, List.takeWhile_append_of_pos fun c hc => ?_]
  · simp
  · rw [decide_eq_true_iff]
    exact fun he => n.isTerminated <| he ▸ hc

theorem textValue_inj {n n' : HostName} (he : textValue n.text = textValue n'.text) : n = n' :=
  HostName.ext <| List.append_cancel_right he

theorem readText_eq {key : CString} {n : Option HostName}
    (he : db key = n.map fun n => textValue n.text) : readText db key = n.map HostName.text := by
  rw [readText, DB.readDB, he]
  cases n
  case none   => rfl
  case some n => exact congrArg some <| toCString_textValue n

theorem updateLastSawHost_forward :
    updateLastSawHost quality db h.text a.text incoming timestamp ('k' :: h'.text) =
      if h' = h then some (textValue a.text) else db ('k' :: h'.text) := by
  rw [updateLastSawHost, lastSeenKey_name, lastSeenKey_name, lastSeenKey_quality, DB.writeDB_of_ne _ (by simp)]
  by_cases he : h' = h
  case pos => rw [he, DB.writeDB_self, if_pos rfl]
  case neg =>
    rw [DB.writeDB_of_ne _ fun heq => he <| HostName.ext (List.cons_inj_right _ |>.mp heq), DB.writeDB_of_ne _ (by simp),
      if_neg he]

theorem updateLastSawHost_reverse :
    updateLastSawHost quality db h.text a.text incoming timestamp ('a' :: text) =
      if text = a.text then some (textValue h.text) else db ('a' :: text) := by
  rw [updateLastSawHost, lastSeenKey_name, lastSeenKey_name, lastSeenKey_quality]
  by_cases he : text = a.text
  case pos => rw [he, DB.writeDB_self, if_pos rfl]
  case neg =>
    rw [DB.writeDB_of_ne _ fun heq => he (List.cons_inj_right _ |>.mp heq), DB.writeDB_of_ne _ (by simp),
      DB.writeDB_of_ne _ (by simp), if_neg he]

-- The forward entries are those of the latest updates. A reverse entry is, or it has been removed where the host
-- has moved on.
structure Consistent (db : LastSeenDB) (addressOf hostAt : HostName → Option HostName) : Prop where
  forward : ∀ h, db ('k' :: h.text) = (addressOf h).map fun a => textValue a.text
  reverse : ∀ a, db ('a' :: a.text) = none ∨ db ('a' :: a.text) = (hostAt a).map fun h => textValue h.text
  current : ∀ a h, hostAt a = some h → addressOf h = some a → db ('a' :: a.text) = some (textValue h.text)

theorem Consistent.update (hc : Consistent db addressOf hostAt) :
    Consistent (updateLastSawHost quality db h.text a.text incoming timestamp) (update addressOf h (some a))
      (update hostAt a (some h)) where
  forward := by
    intro h'
    rw [updateLastSawHost_forward, Function.update_apply]
    split
    case isTrue  => rfl
    case isFalse => exact hc.forward h'
  reverse := by
    intro a'
    rw [updateLastSawHost_reverse]
    split
    case isTrue he   =>
      rw [HostName.ext he, Function.update_self]
      exact .inr rfl
    case isFalse hne =>
      rw [Function.update_of_ne fun he => hne <| congrArg HostName.text he]
      exact hc.reverse a'
  current := by
    intro a' h' hat hof
    rw [updateLastSawHost_reverse]
    split
    case isTrue he   =>
      rw [HostName.ext he, Function.update_self] at hat
      cases hat
      rfl
    case isFalse hne =>
      have hne : a' ≠ a := fun he => hne <| congrArg HostName.text he
      rw [Function.update_of_ne hne] at hat
      have hh : h' ≠ h := by
        intro he
        rw [he, Function.update_self] at hof
        exact hne (Option.some.inj hof).symm
      rw [Function.update_of_ne hh] at hof
      exact hc.current a' h' hat hof

-- What a lookup gives, and that it leaves the database consistent.
theorem Consistent.lookup (hc : Consistent db addressOf hostAt) (a : HostName) :
    Consistent (address2HostkeyInDB db a.text).2 addressOf hostAt ∧
      ∀ result, (address2HostkeyInDB db a.text).1 = some result ↔
        ∃ h, result = h.text ∧ hostAt a = some h ∧ addressOf h = some a := by
  have hdelete (hstale : ∀ h, hostAt a = some h → addressOf h ≠ some a) :
      Consistent (db.deleteDB <| 'a' :: a.text) addressOf hostAt := by
    refine ⟨fun h => ?_, fun a' => ?_, fun a' h hat hof => ?_⟩
    case refine_1 =>
      rw [DB.deleteDB_of_ne _ (by simp)]
      exact hc.forward h
    case refine_2 =>
      by_cases he : a' = a
      case pos => exact .inl <| he ▸ DB.deleteDB_self _
      case neg =>
        rw [DB.deleteDB_of_ne _ fun heq => he <| HostName.ext (List.cons_inj_right _ |>.mp heq)]
        exact hc.reverse a'
    case refine_3 =>
      have he : a' ≠ a := fun he => hstale h (he ▸ hat) (he ▸ hof)
      rw [DB.deleteDB_of_ne _ fun heq => he <| HostName.ext (List.cons_inj_right _ |>.mp heq)]
      exact hc.current a' h hat hof
  rw [address2HostkeyInDB, lastSeenKey_name]
  rcases hc.reverse a with hnone | hsome
  · rw [readText, DB.readDB, hnone]
    refine ⟨hc, fun result => ⟨nofun, fun ⟨h, _, hat, hof⟩ => ?_⟩⟩
    exact nomatch hnone.symm.trans <| hc.current a h hat hof
  · rw [readText_eq hsome]
    cases hat : hostAt a
    case none   => exact ⟨hc, fun result => ⟨nofun, nofun⟩⟩
    case some h =>
      have hfull : h.text.take (cfBufSize - 1) = h.text := List.take_of_length_le <| by
        have := h.fits
        omega
      simp only [Option.map_some]
      rw [lastSeenKey_name, readText_eq <| hc.forward h]
      cases hof : addressOf h
      case none    =>
        refine ⟨hdelete fun h' hat' hof' => ?_, fun result => ⟨nofun, fun ⟨h', _, hat', hof'⟩ => ?_⟩⟩
        case refine_1 =>
          cases hat.symm.trans hat'
          cases hof.symm.trans hof'
        case refine_2 =>
          cases hat'
          cases hof.symm.trans hof'
      case some a' =>
        simp only [Option.map_some, ne_eq, CString.strcmp_eq_zero_iff]
        split
        case isTrue hne  =>
          refine ⟨hdelete fun h' hat' hof' => ?_, fun result => ⟨nofun, fun ⟨h', _, hat', hof'⟩ => ?_⟩⟩
          case refine_1 =>
            cases hat.symm.trans hat'
            cases hof.symm.trans hof'
            exact hne rfl
          case refine_2 =>
            cases hat'
            cases hof.symm.trans hof'
            exact absurd rfl hne
        case isFalse heq =>
          have ha : a' = a := HostName.ext (Classical.not_not.mp heq).symm
          subst ha
          refine ⟨hc, fun result => ?_⟩
          rw [hfull]
          constructor
          case mp  => exact fun he => ⟨h, (Option.some.inj he).symm, rfl, hof⟩
          case mpr =>
            intro ⟨h', hr, hat', _⟩
            cases Option.some.inj hat'
            rw [hr]

end LastSeen

-- The latest update for a host, and the latest update with an address.
def latestAddress (calls : List LastSeenCall) : HostName → Option HostName :=
  calls.foldl (fun addressOf call => match call with
    | .update h a _ _ => update addressOf h (some a)
    | .lookup _       => addressOf) fun _ => none

def latestHost (calls : List LastSeenCall) : HostName → Option HostName :=
  calls.foldl (fun hostAt call => match call with
    | .update h a _ _ => update hostAt a (some h)
    | .lookup _       => hostAt) fun _ => none

namespace LastSeen

variable {quality : Option Buffer → Int → Buffer} {pre post : List LastSeenCall} {h a : HostName} {incoming : Bool}
  {timestamp : Int}

theorem consistent (quality : Option Buffer → Int → Buffer) (calls : List LastSeenCall) :
    Consistent (calls.foldl (LastSeenCall.run quality) .empty) (latestAddress calls) (latestHost calls) := by
  induction calls using List.reverseRecOn
  case nil                   => exact ⟨fun _ => rfl, fun _ => .inl rfl, nofun⟩
  case append_singleton calls call ih =>
    simp only [latestAddress, latestHost, List.foldl_append, List.foldl_cons, List.foldl_nil]
    cases call
    case update h a incoming timestamp => exact ih.update
    case lookup a                      => exact (ih.lookup a).left

theorem latestHost_of_split (hp : ∀ h' incoming' timestamp', .update h' a incoming' timestamp' ∉ post) :
    latestHost (pre ++ .update h a incoming timestamp :: post) a = some h := by
  induction post using List.reverseRecOn
  case nil                            => simp [latestHost]
  case append_singleton post call ih =>
    have ih := ih fun h' i t hmem => hp h' i t <| List.mem_append_left _ hmem
    rw [← List.cons_append, ← List.append_assoc, latestHost, List.foldl_append]
    cases call
    case lookup a'                       => exact ih
    case update h' a' incoming' timestamp' =>
      have hne : a ≠ a' := fun he => hp h' incoming' timestamp' <| by simp [he]
      exact (Function.update_of_ne hne _ _).trans ih

theorem latestAddress_of_split
    (hp : ∀ a' incoming' timestamp', .update h a' incoming' timestamp' ∈ post → a' = a) :
    latestAddress (pre ++ .update h a incoming timestamp :: post) h = some a := by
  induction post using List.reverseRecOn
  case nil                            => simp [latestAddress]
  case append_singleton post call ih =>
    have ih := ih fun a' i t hmem => hp a' i t <| List.mem_append_left _ hmem
    rw [← List.cons_append, ← List.append_assoc, latestAddress, List.foldl_append]
    cases call
    case lookup a'                       => exact ih
    case update h' a' incoming' timestamp' =>
      by_cases he : h = h'
      case pos =>
        have ha := hp a' incoming' timestamp' <| by simp [he]
        subst he ha
        exact Function.update_self ..
      case neg => exact (Function.update_of_ne he _ _).trans ih

end LastSeen

-- A lookup finds the host that has used the address last, and only while it has not used another one since.
theorem address2HostkeyInDB_latest (quality : Option Buffer → Int → Buffer) (calls : List LastSeenCall)
    (a : HostName) :
    (∀ result, (address2HostkeyInDB (calls.foldl (LastSeenCall.run quality) .empty) a.text).1 = some result →
      ∃ h, result = h.text ∧ latestAddress calls h = some a ∧ latestHost calls a = some h) ∧
    ∀ pre post h incoming timestamp, calls = pre ++ .update h a incoming timestamp :: post →
      (∀ h' incoming' timestamp', .update h' a incoming' timestamp' ∉ post) →
      (∀ a' incoming' timestamp', .update h a' incoming' timestamp' ∈ post → a' = a) →
      (address2HostkeyInDB (calls.foldl (LastSeenCall.run quality) .empty) a.text).1 = some h.text := by
  have ⟨_, hlookup⟩ := (LastSeen.consistent quality calls).lookup a
  constructor
  case left  =>
    intro result hr
    have ⟨h, he, hat, hof⟩ := (hlookup result).mp hr
    exact ⟨h, he, hof, hat⟩
  case right =>
    intro pre post h incoming timestamp hcalls hat hof
    subst hcalls
    exact (hlookup h.text).mpr ⟨h, rfl, LastSeen.latestHost_of_split hat, LastSeen.latestAddress_of_split hof⟩

end CfEngine
