import CfEngine.Libpromises.LastSeen
import CfEngine.Libutils.Scanf

namespace CfEngine

-- Outcomes of the calls on a database that may fail. The writes are told apart by the entry to which the cursor has
-- come, and the key.
structure DbmCalls where
  newCursor    : Bool
  write        : CString → CString → Bool
  deleteEntry  : CString → Bool
  writeVersion : Bool

def DbmCalls.succeed : DbmCalls where
  newCursor    := true
  write        := fun _ _ => true
  deleteEntry  := fun _ => true
  writeVersion := true

-- What the platform makes of the bytes of a `double`, and the bytes of the `time_t` it is converted to.
structure Doubles where
  isfinite   : Buffer → Bool
  isNegative : Buffer → Bool
  toTime     : Buffer → Buffer

def sizeofDouble : Nat := 8

-- The number `0.0`.
def zeroDouble : Buffer :=
  List.replicate sizeofDouble '\x00'

-- The numbers are given by their bytes.
structure QPoint0 where
  q      : Buffer
  expect : Buffer
  var    : Buffer
  deriving DecidableEq

def qpoint0Offset : Nat := 128

def sizeofQPoint0 : Nat := 3 * sizeofDouble

def QPoint0.ofValue (value : Buffer) : QPoint0 :=
  let bytes := value.drop qpoint0Offset
  { q      := bytes.take sizeofDouble
    expect := (bytes.drop sizeofDouble).take sizeofDouble
    var    := (bytes.drop (2 * sizeofDouble)).take sizeofDouble }

def QPoint0.isMalformed (doubles : Doubles) (data : QPoint0) : Bool :=
  !doubles.isfinite data.q || doubles.isNegative data.q || !doubles.isfinite data.expect || !doubles.isfinite data.var

-- The bytes of a `KeyHostSeen`: `lastseen`, and `q`, `expect`, `var` and `dq` of `Q`.
def QPoint0.toKeyHostSeen (doubles : Doubles) (data : QPoint0) : Buffer :=
  doubles.toTime data.q ++ data.expect ++ data.expect ++ data.var ++ zeroDouble

namespace LastSeen

structure Migration where
  db       : LastSeenDB
  errors   : Bool
  -- A value has been read beyond its size.
  overread : Bool

namespace Migration

-- The rest of the loop's body is skipped when the key cannot be written.
def write (calls : DbmCalls) (m : Migration) (entry : CString) (key : CString) (value : Buffer)
    (next : Migration → Migration) : Migration :=
  if calls.write entry key then
    next { m with db := m.db.writeDB key value }
  else
    { m with errors := true }

def deleteEntry (calls : DbmCalls) (m : Migration) (key : CString) : Migration :=
  if calls.deleteEntry key then { m with db := m.db.deleteDB key } else m

def readBeyond (m : Migration) (beyond : Bool) : Migration :=
  { m with overread := m.overread || beyond }

end Migration

-- The bytes of the quality data are copied before the size of the value is tested.
def migrateEntry (calls : DbmCalls) (doubles : Doubles) (m : Migration) : CString → Migration
  | []              => m
  | flag :: hostkey =>
    match m.db.readDB <| flag :: hostkey with
    | none       => m
    | some value =>
      if flag ≠ '+' ∧ flag ≠ '-' then
        m
      else
        let incoming := flag = '-'
        let oldDataQ := QPoint0.ofValue value
        let m := m.readBeyond <| value.length < qpoint0Offset + sizeofQPoint0
        if value.length ≠ qpoint0Offset + sizeofQPoint0 then
          m.deleteEntry calls (flag :: hostkey)
        else
          let m := m.readBeyond <| !value.contains '\x00'
          let oldDataAddress := Buffer.toCString value
          m.write calls (flag :: hostkey) (lastSeenKey <| 'k' :: hostkey) (textValue oldDataAddress) fun m =>
          m.write calls (flag :: hostkey) (lastSeenKey <| 'a' :: oldDataAddress) (textValue hostkey) fun m =>
          if oldDataQ.isMalformed doubles then
            m.deleteEntry calls (flag :: hostkey)
          else
            let qualityKey := lastSeenKey <| 'q' :: (if incoming then 'i' else 'o') :: hostkey
            m.write calls (flag :: hostkey) qualityKey (oldDataQ.toKeyHostSeen doubles) fun m =>
            let m := { m with errors := m.errors || !calls.deleteEntry (flag :: hostkey) }
            m.deleteEntry calls (flag :: hostkey)

end LastSeen

def versionKey : CString :=
  "version".toList

open LastSeen in
-- The keys are in the order in which the cursor comes to them.
def lastseenMigrationVersion0 (calls : DbmCalls) (doubles : Doubles) (keys : List CString)
    (db : LastSeenDB) : Bool × Migration :=
  let m : Migration := { db := db, errors := false, overread := false }
  if !calls.newCursor then
    (false, m)
  else
    let m := keys.foldl (migrateEntry calls doubles) m
    if m.errors || !calls.writeVersion then
      (false, m)
    else
      (true, { m with db := m.db.writeDB versionKey <| textValue ['1'] })

-- A turn of the loop over the bundles: whether there have been errors, and the database. A key is not empty, as it
-- has a terminator.
def migrateBundle (calls : DbmCalls) (s : Bool × DB Buffer) (key : CString) : Bool × DB Buffer :=
  match s.2.readDB key with
  | none       => s
  | some value =>
    if key.contains '.' then
      s
    else
      let fqname := "default".toList ++ ".".toList ++ key
      if !calls.write key fqname then
        (true, s.2)
      else
        let db := s.2.writeDB fqname value
        if !calls.deleteEntry key then
          (true, db)
        else
          (s.1, db.deleteDB key)

def bundlesMigrationVersion0 (calls : DbmCalls) (keys : List CString) (db : DB Buffer) : Bool × DB Buffer :=
  if !calls.newCursor then
    (false, db)
  else
    let (errors, db) := keys.foldl (migrateBundle calls) (false, db)
    if errors || !calls.writeVersion then
      (false, db)
    else
      (true, db.writeDB versionKey <| textValue ['1'])

-- The number of a `size_t`.
def dbVersion (db : LastSeenDB) : Int :=
  match db.readDB versionKey with
  | none       => 0
  | some value => stringToLong (Buffer.toCString <| value.take 64) % 2 ^ 64

abbrev DBMigrationFunction := LastSeenDB → Bool × LastSeenDB

-- The step is the next one of the plan.
def dbMigrateFrom (stepVersion : Nat) : List DBMigrationFunction → LastSeenDB → Bool × LastSeenDB
  | [], db           => (true, db)
  | step :: plan, db =>
    if stepVersion = dbVersion db then
      match step db with
      | (false, db) => (false, db)
      | (true, db)  => dbMigrateFrom (stepVersion + 1) plan db
    else
      dbMigrateFrom (stepVersion + 1) plan db

def dbMigrationPlanLastseen (calls : DbmCalls) (doubles : Doubles) (keys : List CString) : List DBMigrationFunction :=
  [fun db =>
    let (result, m) := lastseenMigrationVersion0 calls doubles keys db
    (result, m.db)]

def dbMigrationPlanBundles (calls : DbmCalls) (keys : List CString) : List DBMigrationFunction :=
  [bundlesMigrationVersion0 calls keys]

def dbMigrate (plan : List DBMigrationFunction) (db : LastSeenDB) : Bool × LastSeenDB :=
  dbMigrateFrom 0 plan db

end CfEngine
