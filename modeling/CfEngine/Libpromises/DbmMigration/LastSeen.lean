import CfEngine.Libpromises.DbmMigration
import CfEngine.Libpromises.FilesInterfaces

namespace CfEngine
namespace LastSeen

-- The flag is that of a connection.
def IsFlag (flag : Char) : Prop :=
  flag = '+' ∨ flag = '-'

-- The key is one of version 0.
def IsOldKey (key : CString) : Prop :=
  ∃ flag hostkey, key = flag :: hostkey ∧ IsFlag flag

-- An entry of version 0 whose value has the right size.
structure OldEntry (db : LastSeenDB) (flag : Char) (hostkey : CString) (value : Buffer) : Prop where
  isFlag : IsFlag flag
  stored : db (flag :: hostkey) = some value
  size   : value.length = qpoint0Offset + sizeofQPoint0

def addressOf (value : Buffer) : CString :=
  Buffer.toCString value

def isMalformed (doubles : Doubles) (value : Buffer) : Bool :=
  (QPoint0.ofValue value).isMalformed doubles

def qualityKey (flag : Char) (hostkey : CString) : CString :=
  'q' :: (if flag = '-' then 'i' else 'o') :: hostkey

-- The keys that the migration writes, except for that of the version.
inductive IsDerivedKey (doubles : Doubles) (db : LastSeenDB) : CString → Prop
  | host {flag hostkey value} : OldEntry db flag hostkey value → IsDerivedKey doubles db ('k' :: hostkey)
  | address {flag hostkey value} : OldEntry db flag hostkey value → IsDerivedKey doubles db ('a' :: addressOf value)
  | quality {flag hostkey value} : OldEntry db flag hostkey value → isMalformed doubles value = false →
      IsDerivedKey doubles db (qualityKey flag hostkey)

-- The keys and the addresses fit into the buffers.
structure FitsBuffers (db : LastSeenDB) : Prop where
  keys      : ∀ key value, IsOldKey key → db key = some value → key.length + 1 < cfBufSize
  addresses : ∀ flag hostkey value, OldEntry db flag hostkey value → (addressOf value).length < qpoint0Offset

-- What the database holds after the migration.
structure Migrated (doubles : Doubles) (db db' : LastSeenDB) : Prop where
  noOldKey : ∀ key, IsOldKey key → db' key = none
  quality  : ∀ flag hostkey value, OldEntry db flag hostkey value → isMalformed doubles value = false →
    db' (qualityKey flag hostkey) = some ((QPoint0.ofValue value).toKeyHostSeen doubles)
  host     : ∀ flag hostkey value, OldEntry db flag hostkey value → ∃ flag' value',
    OldEntry db flag' hostkey value' ∧ db' ('k' :: hostkey) = some (textValue <| addressOf value')
  address  : ∀ flag hostkey value, OldEntry db flag hostkey value → ∃ flag' hostkey' value',
    OldEntry db flag' hostkey' value' ∧ addressOf value' = addressOf value ∧
      db' ('a' :: addressOf value) = some (textValue hostkey')
  frame    : ∀ key, ¬IsOldKey key → ¬IsDerivedKey doubles db key → key ≠ versionKey → db' key = db key

-- What the migration of one entry does.
structure Moved (doubles : Doubles) (d d' : LastSeenDB) (flag : Char) (hostkey : CString) (value : Buffer) : Prop where
  old     : ∀ key, IsOldKey key → d' key = if key = flag :: hostkey then none else d key
  host    : ∀ h, d' ('k' :: h) = if h = hostkey then some (textValue <| addressOf value) else d ('k' :: h)
  address : ∀ a, d' ('a' :: a) = if a = addressOf value then some (textValue hostkey) else d ('a' :: a)
  quality : ∀ r, d' ('q' :: r) = if isMalformed doubles value = false ∧ 'q' :: r = qualityKey flag hostkey then
    some ((QPoint0.ofValue value).toKeyHostSeen doubles) else d ('q' :: r)
  other   : ∀ key, ¬IsOldKey key → key.head? ≠ some 'k' → key.head? ≠ some 'a' → key.head? ≠ some 'q' →
    d' key = d key

-- The state of the migration when the keys have been visited.
structure Migrating (doubles : Doubles) (db : LastSeenDB) (m : Migration) (visited : List CString) : Prop where
  pending  : ∀ key, IsOldKey key → key ∉ visited → m.db key = db key
  gone     : ∀ key, IsOldKey key → key ∈ visited → m.db key = none
  quality  : ∀ flag hostkey value, OldEntry db flag hostkey value → isMalformed doubles value = false →
    flag :: hostkey ∈ visited →
    m.db (qualityKey flag hostkey) = some ((QPoint0.ofValue value).toKeyHostSeen doubles)
  host     : ∀ flag hostkey value, OldEntry db flag hostkey value → flag :: hostkey ∈ visited → ∃ flag' value',
    OldEntry db flag' hostkey value' ∧ m.db ('k' :: hostkey) = some (textValue <| addressOf value')
  address  : ∀ flag hostkey value, OldEntry db flag hostkey value → flag :: hostkey ∈ visited →
    ∃ flag' hostkey' value', OldEntry db flag' hostkey' value' ∧ addressOf value' = addressOf value ∧
      m.db ('a' :: addressOf value) = some (textValue hostkey')
  frame    : ∀ key, ¬IsOldKey key → ¬IsDerivedKey doubles db key → m.db key = db key
  overread : m.overread = true ↔ ∃ key ∈ visited, IsOldKey key ∧
    ∃ value, db key = some value ∧ value.length < qpoint0Offset + sizeofQPoint0
  errors   : m.errors = false

variable {doubles : Doubles} {db d d' : LastSeenDB} {m : Migration} {key : CString} {keys visited : List CString}
  {flag flag' : Char} {hostkey hostkey' : CString} {value value' : Buffer}

theorem isOldKey_cons : IsOldKey (flag :: hostkey) ↔ IsFlag flag := by
  constructor
  case mp =>
    intro ⟨flag', hostkey', he, hf⟩
    rwa [(List.cons.inj he).left]
  case mpr =>
    exact fun hf => ⟨flag, hostkey, rfl, hf⟩

theorem lastSeenKey_eq {text : CString} (h : text.length < cfBufSize) : lastSeenKey text = text :=
  List.take_of_length_le <| Nat.le_sub_one_of_lt h

theorem qualityKey_inj (hf : IsFlag flag) (hf' : IsFlag flag')
    (he : qualityKey flag hostkey = qualityKey flag' hostkey') : flag = flag' ∧ hostkey = hostkey' := by
  simp only [qualityKey, List.cons.injEq, true_and] at he
  refine ⟨?_, he.right⟩
  obtain rfl | rfl := hf <;> obtain rfl | rfl := hf' <;> simp_all

theorem FitsBuffers.hostkeyLength (hs : FitsBuffers db) (he : OldEntry db flag hostkey value) :
    hostkey.length + 2 < cfBufSize := by
  have h := hs.keys _ _ (isOldKey_cons.mpr he.isFlag) he.stored
  rwa [List.length_cons] at h

-- The address ends before the quality data.
theorem FitsBuffers.terminated (hs : FitsBuffers db) (he : OldEntry db flag hostkey value) :
    value.contains '\x00' = true := by
  have ha := hs.addresses _ _ _ he
  by_contra h
  have hv : addressOf value = value := Stream.toCString_eq_self fun h0 => h <| List.contains_iff_mem.mpr h0
  rw [hv, he.size] at ha
  omega

-- The key of the address is not cut off.
theorem FitsBuffers.addressKey (hs : FitsBuffers db) (he : OldEntry db flag hostkey value) :
    lastSeenKey ('a' :: addressOf value) = 'a' :: addressOf value := by
  have ha : (addressOf value).length < 128 := hs.addresses _ _ _ he
  apply lastSeenKey_eq
  rw [List.length_cons, cfBufSize]
  omega

-- What the migration makes of the database when it comes to an entry of the right size.
def moveEntry (doubles : Doubles) (d : LastSeenDB) (flag : Char) (hostkey : CString) (value : Buffer) : LastSeenDB :=
  let d := (d.writeDB ('k' :: hostkey) (textValue <| addressOf value)).writeDB ('a' :: addressOf value) <|
    textValue hostkey
  let d := if isMalformed doubles value then d else
    d.writeDB (qualityKey flag hostkey) <| (QPoint0.ofValue value).toKeyHostSeen doubles
  d.deleteDB (flag :: hostkey)

theorem moveEntry_moved (hf : IsFlag flag) :
    Moved doubles d (moveEntry doubles d flag hostkey value) flag hostkey value := by
  have hne (c : Char) (hc : ¬IsFlag c) : flag ≠ c := fun he => hc <| he ▸ hf
  have hk := hne 'k' <| by simp [IsFlag]
  have ha := hne 'a' <| by simp [IsFlag]
  have hq := hne 'q' <| by simp [IsFlag]
  constructor
  case old =>
    intro key ⟨flag', hostkey', he', hf'⟩
    have hne' (c : Char) (hc : ¬IsFlag c) : flag' ≠ c := fun he => hc <| he ▸ hf'
    have hk' := hne' 'k' <| by simp [IsFlag]
    have ha' := hne' 'a' <| by simp [IsFlag]
    have hq' := hne' 'q' <| by simp [IsFlag]
    subst he'
    simp only [moveEntry, DB.deleteDB, DB.writeDB, qualityKey]
    split <;> simp [Function.update_apply, hk', ha', hq']
  case host =>
    intro h
    simp only [moveEntry, DB.deleteDB, DB.writeDB, qualityKey]
    split <;> simp [Function.update_apply, hk.symm]
  case address =>
    intro a
    simp only [moveEntry, DB.deleteDB, DB.writeDB, qualityKey]
    split <;> simp [Function.update_apply, ha.symm]
  case quality =>
    intro r
    simp only [moveEntry, DB.deleteDB, DB.writeDB]
    split <;> simp [Function.update_apply, hq.symm, *]
  case other =>
    intro key ho hk ha hq
    have hkey (c : Char) (rest : CString) (hc : key.head? ≠ some c) : key ≠ c :: rest :=
      fun he => hc <| he ▸ rfl
    have hold : key ≠ flag :: hostkey := fun he => ho ⟨flag, hostkey, he, hf⟩
    simp only [moveEntry, DB.deleteDB, DB.writeDB]
    split <;> simp [qualityKey, hkey _ _ hk, hkey _ _ ha, hkey _ _ hq, hold]

theorem migrateEntry_of_size (hs : FitsBuffers db) (he : OldEntry db flag hostkey value)
    (hd : m.db (flag :: hostkey) = some value) :
    migrateEntry .succeed doubles m (flag :: hostkey) = { m with db := moveEntry doubles m.db flag hostkey value } := by
  have hl := hs.hostkeyLength he
  have hf : ¬(flag ≠ '+' ∧ flag ≠ '-') := fun h => he.isFlag.elim h.left h.right
  have hk : lastSeenKey ('k' :: hostkey) = 'k' :: hostkey := lastSeenKey_eq <| by
    rw [List.length_cons]
    omega
  have hq : lastSeenKey ('q' :: (if flag = '-' then 'i' else 'o') :: hostkey) = qualityKey flag hostkey :=
    lastSeenKey_eq <| by
      rw [List.length_cons, List.length_cons]
      omega
  have ha : lastSeenKey ('a' :: Buffer.toCString value) = 'a' :: addressOf value := hs.addressKey he
  simp only [migrateEntry, DB.readDB, hd, if_neg hf, he.size, ne_eq, not_true_eq_false, if_false, hs.terminated he,
    Migration.readBeyond, Nat.lt_irrefl, decide_false, Bool.not_true, Bool.or_false, Migration.write, DbmCalls.succeed,
    if_true, Migration.deleteEntry, hk, hq, ha]
  simp only [moveEntry, isMalformed, addressOf]
  by_cases hq : (QPoint0.ofValue value).isMalformed doubles = true <;> simp only [hq, if_true, Bool.false_eq_true, if_false]

theorem migrateEntry_of_ne_size (hf : IsFlag flag) (hd : m.db (flag :: hostkey) = some value)
    (hsize : value.length ≠ qpoint0Offset + sizeofQPoint0) :
    migrateEntry .succeed doubles m (flag :: hostkey) =
      { m with
        db       := m.db.deleteDB (flag :: hostkey)
        overread := m.overread || value.length < qpoint0Offset + sizeofQPoint0 } := by
  have hf : ¬(flag ≠ '+' ∧ flag ≠ '-') := fun h => hf.elim h.left h.right
  simp only [migrateEntry, DB.readDB, hd, if_neg hf, if_pos hsize]
  rfl

theorem migrateEntry_of_none {calls : DbmCalls} (hd : m.db key = none) : migrateEntry calls doubles m key = m := by
  cases key
  case nil => rfl
  case cons => simp only [migrateEntry, DB.readDB, hd]

theorem migrateEntry_of_not_isOldKey {calls : DbmCalls} (h : ¬IsOldKey key) : migrateEntry calls doubles m key = m := by
  cases key
  case nil => rfl
  case cons flag hostkey =>
    rw [isOldKey_cons, IsFlag, not_or] at h
    simp only [migrateEntry, ne_eq, h, not_false_eq_true, and_self, if_true]
    split <;> rfl

namespace Migrating

theorem init : Migrating doubles db { db := db, errors := false, overread := false } [] where
  pending _ _ _            := rfl
  gone _ _ h               := absurd h List.not_mem_nil
  quality _ _ _ _ _ h      := absurd h List.not_mem_nil
  host _ _ _ _ h           := absurd h List.not_mem_nil
  address _ _ _ _ h        := absurd h List.not_mem_nil
  frame _ _ _              := rfl
  overread                 := by simp
  errors                   := rfl

-- Nothing changes when the key is not an old one, or there is no entry.
theorem skip (hm : Migrating doubles db m visited) (hk : IsOldKey key → m.db key = none) :
    Migrating doubles db m (key :: visited) := by
  have hpast {key'} {value : Buffer} (ho : IsOldKey key') (hd : db key' = some value) (h : key' ∈ key :: visited) :
      key' ∈ visited := by
    obtain rfl | h := List.mem_cons.mp h
    · by_contra hn
      have hp := hm.pending key' ho hn
      rw [hk ho, hd] at hp
      contradiction
    · exact h
  constructor
  case pending => exact fun key' ho h => hm.pending key' ho <| mt (List.mem_cons_of_mem _) h
  case gone =>
    intro key' ho h
    obtain rfl | h := List.mem_cons.mp h
    · exact hk ho
    · exact hm.gone key' ho h
  case quality =>
    intro flag hostkey value he hq h
    exact hm.quality _ _ _ he hq <| hpast (isOldKey_cons.mpr he.isFlag) he.stored h
  case host =>
    intro flag hostkey value he h
    exact hm.host _ _ _ he <| hpast (isOldKey_cons.mpr he.isFlag) he.stored h
  case address =>
    intro flag hostkey value he h
    exact hm.address _ _ _ he <| hpast (isOldKey_cons.mpr he.isFlag) he.stored h
  case frame => exact hm.frame
  case overread =>
    rw [hm.overread]
    constructor
    case mp  => exact fun ⟨key', h, hr⟩ => ⟨key', List.mem_cons_of_mem _ h, hr⟩
    case mpr => exact fun ⟨key', h, ho, value, hd, hl⟩ => ⟨key', hpast ho hd h, ho, value, hd, hl⟩
  case errors => exact hm.errors

-- What the visit of an old entry contributes to the state.
theorem pending_gone_of_old (hm : Migrating doubles db m visited) (hd : ∀ key', IsOldKey key' →
    d key' = if key' = key then none else m.db key') :
    (∀ key', IsOldKey key' → key' ∉ key :: visited → d key' = db key') ∧
      ∀ key', IsOldKey key' → key' ∈ key :: visited → d key' = none := by
  constructor
  case left =>
    intro key' ho h
    obtain ⟨hne, hn⟩ := not_or.mp <| mt List.mem_cons.mpr h
    rw [hd key' ho, if_neg hne, hm.pending key' ho hn]
  case right =>
    intro key' ho h
    rw [hd key' ho]
    obtain rfl | h := List.mem_cons.mp h
    · rw [if_pos rfl]
    · split
      · rfl
      · exact hm.gone key' ho h

theorem overread_cons (hm : Migrating doubles db m visited) (ho : IsOldKey key) (hd : db key = some value) :
    (m.overread || decide (value.length < qpoint0Offset + sizeofQPoint0)) = true ↔
      ∃ key' ∈ key :: visited, IsOldKey key' ∧
        ∃ value, db key' = some value ∧ value.length < qpoint0Offset + sizeofQPoint0 := by
  rw [Bool.or_eq_true, hm.overread, decide_eq_true_eq, List.exists_mem_cons_iff, or_comm]
  apply or_congr_left
  constructor
  case mp => exact fun h => ⟨ho, value, hd, h⟩
  case mpr =>
    intro ⟨_, value', hd', h⟩
    rw [hd] at hd'
    cases hd'
    exact h

theorem wrongSize (hm : Migrating doubles db m visited) (hf : IsFlag flag) (hd : db (flag :: hostkey) = some value)
    (hsize : value.length ≠ qpoint0Offset + sizeofQPoint0) :
    Migrating doubles db
      { m with
        db       := m.db.deleteDB (flag :: hostkey)
        overread := m.overread || value.length < qpoint0Offset + sizeofQPoint0 } ((flag :: hostkey) :: visited) := by
  have ho : IsOldKey (flag :: hostkey) := isOldKey_cons.mpr hf
  have hother {key'} (hn : ¬IsOldKey key') : m.db.deleteDB (flag :: hostkey) key' = m.db key' :=
    DB.deleteDB_of_ne _ fun he => hn <| he ▸ ho
  have hpast {flag' hostkey' value'} (he : OldEntry db flag' hostkey' value')
      (h : flag' :: hostkey' ∈ (flag :: hostkey) :: visited) : flag' :: hostkey' ∈ visited := by
    refine (List.mem_cons.mp h).resolve_left fun heq => hsize ?_
    have hs := he.stored
    rw [heq, hd] at hs
    exact Option.some.inj hs ▸ he.size
  have hdel (key') (_ : IsOldKey key') :
      m.db.deleteDB (flag :: hostkey) key' = if key' = flag :: hostkey then none else m.db key' :=
    Function.update_apply ..
  obtain ⟨hp, hg⟩ := hm.pending_gone_of_old hdel
  constructor
  case pending => exact hp
  case gone    => exact hg
  case quality =>
    intro flag' hostkey' _ he hq h
    have hn : ¬IsOldKey (qualityKey flag' hostkey') := mt isOldKey_cons.mp <| by simp [IsFlag]
    exact (hother hn).trans <| hm.quality _ _ _ he hq <| hpast he h
  case host =>
    intro _ _ _ he h
    obtain ⟨flag', value', he', hs⟩ := hm.host _ _ _ he <| hpast he h
    exact ⟨flag', value', he', (hother <| mt isOldKey_cons.mp <| by simp [IsFlag]).trans hs⟩
  case address =>
    intro _ _ _ he h
    obtain ⟨flag', hostkey', value', he', ha, hs⟩ := hm.address _ _ _ he <| hpast he h
    exact ⟨flag', hostkey', value', he', ha, (hother <| mt isOldKey_cons.mp <| by simp [IsFlag]).trans hs⟩
  case frame    => exact fun key' hn hd => (hother hn).trans <| hm.frame key' hn hd
  case overread => exact hm.overread_cons ho hd
  case errors   => exact hm.errors

theorem move (hm : Migrating doubles db m visited) (he : OldEntry db flag hostkey value)
    (hnew : flag :: hostkey ∉ visited) (hd : Moved doubles m.db d flag hostkey value) :
    Migrating doubles db { m with db := d } ((flag :: hostkey) :: visited) := by
  have ho : IsOldKey (flag :: hostkey) := isOldKey_cons.mpr he.isFlag
  obtain ⟨hp, hg⟩ := hm.pending_gone_of_old hd.old
  constructor
  case pending => exact hp
  case gone    => exact hg
  case quality =>
    intro flag' hostkey' value' he' hq h
    dsimp only
    obtain heq | h' := List.mem_cons.mp h
    · cases heq
      have hv := he'.stored.symm.trans he.stored
      cases hv
      rw [qualityKey, hd.quality, if_pos ⟨hq, rfl⟩]
    · rw [qualityKey, hd.quality, if_neg, ← qualityKey, hm.quality _ _ _ he' hq h']
      intro ⟨_, heq⟩
      obtain ⟨rfl, rfl⟩ := qualityKey_inj he'.isFlag he.isFlag heq
      exact hnew h'
  case host =>
    intro flag' hostkey' value' he' h
    dsimp only
    rw [hd.host]
    split
    case isTrue heq => exact ⟨flag, value, heq ▸ he, rfl⟩
    case isFalse hne =>
      refine hm.host _ _ _ he' <| (List.mem_cons.mp h).resolve_left fun heq => hne ?_
      exact (List.cons.inj heq).right
  case address =>
    intro flag' hostkey' value' he' h
    dsimp only
    rw [hd.address]
    split
    case isTrue heq => exact ⟨flag, hostkey, value, he, heq.symm, rfl⟩
    case isFalse hne =>
      refine hm.address _ _ _ he' <| (List.mem_cons.mp h).resolve_left fun heq => hne ?_
      cases heq
      rw [Option.some.inj <| he'.stored.symm.trans he.stored]
  case frame =>
    intro key' hn hdk
    dsimp only
    rw [← hm.frame key' hn hdk]
    by_cases hk : key'.head? = some 'k'
    · obtain ⟨rest, rfl⟩ := List.head?_eq_some_iff.mp hk
      rw [hd.host, if_neg]
      rintro rfl
      exact hdk <| .host he
    by_cases ha : key'.head? = some 'a'
    · obtain ⟨rest, rfl⟩ := List.head?_eq_some_iff.mp ha
      rw [hd.address, if_neg]
      rintro rfl
      exact hdk <| .address he
    by_cases hq : key'.head? = some 'q'
    · obtain ⟨rest, rfl⟩ := List.head?_eq_some_iff.mp hq
      rw [hd.quality, if_neg]
      intro ⟨hm, heq⟩
      exact hdk <| heq ▸ .quality he hm
    exact hd.other key' hn hk ha hq
  case overread =>
    rw [← hm.overread_cons ho he.stored, he.size]
    simp
  case errors => exact hm.errors

-- What one turn of the loop preserves.
theorem step (hs : FitsBuffers db) (hm : Migrating doubles db m visited) (key : CString) :
    Migrating doubles db (migrateEntry .succeed doubles m key) (key :: visited) := by
  by_cases ho : IsOldKey key
  case neg =>
    rw [migrateEntry_of_not_isOldKey ho]
    exact hm.skip fun h => absurd h ho
  case pos =>
    cases hd : m.db key
    case none =>
      rw [migrateEntry_of_none hd]
      exact hm.skip fun _ => hd
    case some value =>
      have hnew : key ∉ visited := by
        intro h
        rw [hm.gone key ho h] at hd
        contradiction
      have hdb : db key = some value := hm.pending key ho hnew ▸ hd
      obtain ⟨flag, hostkey, rfl, hf⟩ := ho
      by_cases hsize : value.length = qpoint0Offset + sizeofQPoint0
      case pos =>
        have he : OldEntry db flag hostkey value := ⟨hf, hdb, hsize⟩
        rw [migrateEntry_of_size hs he hd]
        exact hm.move he hnew <| moveEntry_moved hf
      case neg =>
        rw [migrateEntry_of_ne_size hf hd hsize]
        exact hm.wrongSize hf hdb hsize

-- What the loop as a whole preserves.
theorem run (hs : FitsBuffers db) (hm : Migrating doubles db m visited) :
    Migrating doubles db (keys.foldl (migrateEntry .succeed doubles) m) (keys.reverse ++ visited) := by
  induction keys generalizing m visited
  case nil => exact hm
  case cons key keys ih =>
    rw [List.foldl_cons, List.reverse_cons, List.append_assoc]
    exact ih <| hm.step hs key

end Migrating

theorem not_isOldKey_versionKey : ¬IsOldKey versionKey := by
  have hv : versionKey = 'v' :: "ersion".toList := by decide
  rw [hv, isOldKey_cons]
  simp [IsFlag]

-- The number of the version is none of the entries.
theorem Migrating.migrated (hm : Migrating doubles db m visited)
    (hv : ∀ key value, IsOldKey key → db key = some value → key ∈ visited) :
    Migrated doubles db (m.db.writeDB versionKey value) := by
  have hother {c : Char} {rest : CString} (hc : c ≠ 'v') :
      m.db.writeDB versionKey value (c :: rest) = m.db (c :: rest) :=
    DB.writeDB_of_ne _ fun he => hc (List.cons.inj he).left
  have hvisited {flag hostkey value} (he : OldEntry db flag hostkey value) : flag :: hostkey ∈ visited :=
    hv _ _ (isOldKey_cons.mpr he.isFlag) he.stored
  constructor
  case noOldKey =>
    intro key ho
    have hne : key ≠ versionKey := by
      rintro rfl
      exact not_isOldKey_versionKey ho
    rw [DB.writeDB_of_ne _ hne]
    by_cases hk : key ∈ visited
    case pos => exact hm.gone key ho hk
    case neg =>
      rw [hm.pending key ho hk, Option.eq_none_iff_forall_ne_some]
      exact fun value hd => hk <| hv key value ho hd
  case quality =>
    intro _ _ _ he hq
    exact (hother <| by simp).trans <| hm.quality _ _ _ he hq <| hvisited he
  case host =>
    intro _ _ _ he
    obtain ⟨flag', value', he', hs⟩ := hm.host _ _ _ he <| hvisited he
    exact ⟨flag', value', he', (hother <| by simp).trans hs⟩
  case address =>
    intro _ _ _ he
    obtain ⟨flag', hostkey', value', he', ha, hs⟩ := hm.address _ _ _ he <| hvisited he
    exact ⟨flag', hostkey', value', he', ha, (hother <| by simp).trans hs⟩
  case frame =>
    intro key hn hd hk
    rw [DB.writeDB_of_ne _ hk, hm.frame key hn hd]

-- Nothing is to be done for a database of the current version.
theorem dbMigrate_of_version {calls : DbmCalls} (hd : db versionKey = some (textValue ['1'])) :
    dbMigrate (dbMigrationPlanLastseen calls doubles keys) db = (true, db) := by
  have hv : dbVersion db = 1 := by
    simp only [dbVersion, DB.readDB, hd]
    decide
  simp only [dbMigrate, dbMigrationPlanLastseen, dbMigrateFrom, hv]
  rfl

-- What is expected of the migration, for any later one.
structure LosesNothing (doubles : Doubles) (db : LastSeenDB) (m : Migration) : Prop where
  migrated   : Migrated doubles db m.db
  inBounds   : m.overread = false
  idempotent : ∀ calls doubles' keys, (dbMigrate (dbMigrationPlanLastseen calls doubles' keys) m.db).2 = m.db

-- The numbers of a machine whose bytes are ordered from the lowest one.
def littleEndian (bytes : Buffer) : Nat :=
  bytes.foldr (fun c n => n * 256 + c.toNat) 0

def littleEndianBytes : Nat → Nat → Buffer
  | 0, _     => []
  | n + 1, m => Char.ofNat (m % 256) :: littleEndianBytes n (m / 256)

-- A `double` of such a machine: a sign, 11 bits of the exponent and 52 bits of the mantissa.
def littleEndianDoubles : Doubles where
  isfinite bytes   := littleEndian bytes / 2 ^ 52 % 2 ^ 11 ≠ 2 ^ 11 - 1
  isNegative bytes := 2 ^ 63 < littleEndian bytes ∧ littleEndian bytes ≤ 2 ^ 63 + (2 ^ 11 - 1) * 2 ^ 52
  toTime bytes     :=
    let exponent := littleEndian bytes / 2 ^ 52 % 2 ^ 11
    let mantissa := littleEndian bytes % 2 ^ 52 + if exponent = 0 then 0 else 2 ^ 52
    let n := if exponent < 1075 then mantissa / 2 ^ (1075 - exponent) else mantissa * 2 ^ (exponent - 1075)
    littleEndianBytes 8 <| if 2 ^ 63 ≤ littleEndian bytes then 2 ^ 64 - n else n

-- The value of an entry of version 0.
def oldValue (address : CString) (data : QPoint0) : Buffer :=
  address ++ List.replicate (qpoint0Offset - address.length) '\x00' ++ data.q ++ data.expect ++ data.var

-- The database of some entries, of which the first one of a key counts.
def storeAll (entries : List (CString × Buffer)) : LastSeenDB :=
  entries.foldr (fun entry db => db.writeDB entry.1 entry.2) DB.empty

theorem mem_of_storeAll {entries : List (CString × Buffer)} (h : storeAll entries key = some value) :
    (key, value) ∈ entries := by
  induction entries
  case nil                => nomatch h
  case cons entry entries ih =>
    rw [storeAll, List.foldr_cons] at h
    by_cases he : key = entry.1
    case pos =>
      rw [he, DB.writeDB_self] at h
      cases h
      exact he ▸ List.mem_cons_self
    case neg =>
      rw [DB.writeDB_of_ne _ he] at h
      exact List.mem_cons_of_mem _ <| ih h

theorem storeAll_visited (entries : List (CString × Buffer)) (key : CString) (h : storeAll entries key ≠ none) :
    key ∈ entries.map Prod.fst := by
  obtain ⟨value, hvalue⟩ := Option.ne_none_iff_exists'.mp h
  exact List.mem_map_of_mem (f := Prod.fst) <| mem_of_storeAll hvalue

theorem fitsBuffers_storeAll {entries : List (CString × Buffer)}
    (h : ∀ entry ∈ entries, entry.1.length + 1 < cfBufSize ∧ (addressOf entry.2).length < qpoint0Offset) :
    FitsBuffers (storeAll entries) where
  keys _ _ _ hd              := (h _ <| mem_of_storeAll hd).left
  addresses _ _ _ he := (h _ <| mem_of_storeAll he.stored).right

-- The cursor comes to all keys that are in the database at first, and maybe to others. The quality data of a value
-- that is too short are read before its size is looked at.
theorem lastseenMigrationVersion0_losesNothing_iff (doubles : Doubles) (keys : List CString) (db : LastSeenDB)
    (hv : ∀ key, db key ≠ none → key ∈ keys) (hs : FitsBuffers db) :
    LosesNothing doubles db (lastseenMigrationVersion0 .succeed doubles keys db).2 ↔
      ∀ key value, IsOldKey key → db key = some value → qpoint0Offset + sizeofQPoint0 ≤ value.length := by
  have hm : Migrating doubles db (keys.foldl (migrateEntry .succeed doubles)
      { db := db, errors := false, overread := false }) (keys.reverse ++ []) := Migrating.init.run hs
  rw [List.append_nil] at hm
  have hvisited (key value) (_ : IsOldKey key) (hd : db key = some value) : key ∈ keys.reverse :=
    List.mem_reverse.mpr <| hv key <| by simp [hd]
  have hres : lastseenMigrationVersion0 .succeed doubles keys db =
      (true, { keys.foldl (migrateEntry .succeed doubles) { db := db, errors := false, overread := false } with
        db := DB.writeDB (keys.foldl (migrateEntry .succeed doubles)
          { db := db, errors := false, overread := false }).db versionKey <| textValue ['1'] }) := by
    simp only [lastseenMigrationVersion0, hm.errors]
    rfl
  rw [hres]
  have hover := hm.overread
  constructor
  case mp =>
    intro h key value ho hd
    by_contra hl
    have := hover.mpr ⟨key, hvisited key value ho hd, ho, value, hd, Nat.lt_of_not_le hl⟩
    rw [h.inBounds] at this
    contradiction
  case mpr =>
    intro h
    refine ⟨hm.migrated hvisited, ?_, fun calls doubles' keys => ?_⟩
    · rw [← Bool.not_eq_true, hover]
      intro ⟨key, _, ho, value, hd, hl⟩
      exact absurd (h key value ho hd) <| Nat.not_le_of_lt hl
    · rw [dbMigrate_of_version <| DB.writeDB_self _]

-- The bytes of 666777.0, 12345.0 and 6543210.0.
def testQPoint0 : QPoint0 where
  q      := [0, 0, 0, 0, 50, 89, 36, 65].map Char.ofNat
  expect := [0, 0, 0, 0, 128, 28, 200, 64].map Char.ofNat
  var    := [0, 0, 0, 128, 218, 245, 88, 65].map Char.ofNat

def testKey : CString :=
  "-SHA=f7b335bef201230c".toList

-- A host that was seen in both directions, and another one.
def testConnections : List (CString × Buffer) := [
  (testKey, oldValue "1.2.3.4".toList testQPoint0),
  ("+SHA=f7b335bef201230c".toList, oldValue "1.2.3.4".toList testQPoint0),
  ("+SHA=0a5e".toList, oldValue "5.6.7.8".toList testQPoint0)]

theorem lastseenMigrationVersion0_connections :
    LosesNothing littleEndianDoubles (storeAll testConnections)
        (lastseenMigrationVersion0 .succeed littleEndianDoubles (testConnections.map Prod.fst) <|
          storeAll testConnections).2 ∧
      littleEndianDoubles.toTime testQPoint0.q = littleEndianBytes 8 666777 := by
  have hlong : ∀ entry ∈ testConnections, qpoint0Offset + sizeofQPoint0 ≤ entry.2.length := by
    decide +kernel
  refine ⟨?_, by decide⟩
  exact (lastseenMigrationVersion0_losesNothing_iff littleEndianDoubles _ _ (storeAll_visited _)
    (fitsBuffers_storeAll <| by decide +kernel)).mpr fun _ _ _ hd => hlong _ <| mem_of_storeAll hd

-- A value of two bytes, from which the quality data cannot be read.
theorem lastseenMigrationVersion0_overreads :
    (∀ key, DB.empty.writeDB "+++".toList (textValue ['+']) key ≠ none → key ∈ ["+++".toList]) ∧
      FitsBuffers (DB.empty.writeDB "+++".toList (textValue ['+'])) ∧
      ¬LosesNothing littleEndianDoubles (DB.empty.writeDB "+++".toList (textValue ['+']))
        (lastseenMigrationVersion0 .succeed littleEndianDoubles ["+++".toList] <|
          DB.empty.writeDB "+++".toList (textValue ['+'])).2 := by
  refine ⟨storeAll_visited [(_, _)], @fitsBuffers_storeAll [(_, _)] (by decide), fun h => ?_⟩
  exact absurd h.inBounds <| by decide

end LastSeen
end CfEngine
