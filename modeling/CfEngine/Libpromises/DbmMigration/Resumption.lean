import CfEngine.Library.Moves
import CfEngine.Libpromises.DbmMigration.LastSeen

namespace CfEngine

-- The cursor comes to all entries of version 0, and maybe to others.
def Visits (isOld : CString → Bool) (keys : List CString) (db : LastSeenDB) : Prop :=
  ∀ key, isOld key = true → db key ≠ none → key ∈ keys

-- What is expected of a migration in the face of failures.
structure Resumable (plan : DbmCalls → List CString → List DBMigrationFunction) (isOld : CString → Bool)
    (db : LastSeenDB) : Prop where
  unversioned : ∀ calls keys, Visits isOld keys db → (dbMigrate (plan calls keys) db).1 = false →
    (dbMigrate (plan calls keys) db).2 versionKey = none
  resumed     : ∀ calls keys keys', Visits isOld keys db → (dbMigrate (plan calls keys) db).1 = false →
    Visits isOld keys' (dbMigrate (plan calls keys) db).2 →
    (dbMigrate (plan .succeed keys') (dbMigrate (plan calls keys) db).2).2 = (dbMigrate (plan .succeed keys) db).2
  finished    : ∀ calls keys, Visits isOld keys db → (dbMigrate (plan calls keys) db).1 = true →
    ∀ key, isOld key = true → key ≠ versionKey → (dbMigrate (plan calls keys) db).2 key = none

-- The entries of version 0 are among those of the first database.
def Remain (isOld : CString → Bool) (db db' : LastSeenDB) : Prop :=
  ∀ key, isOld key = true → db' key = db key ∨ db' key = none

-- A migration that replaces entries of version 0 one by one.
def migrateBy (moves : Moves CString Buffer) (calls : DbmCalls) (keys : List CString)
    (db : LastSeenDB) : Bool × LastSeenDB :=
  if !calls.newCursor then
    (false, db)
  else
    let (ok, db) := moves.run ⟨calls.write, calls.deleteEntry⟩ keys (true, db)
    if !ok || !calls.writeVersion then (false, db) else (true, DB.writeDB db versionKey <| textValue ['1'])

variable {plan : DbmCalls → List CString → List DBMigrationFunction} {moves : Moves CString Buffer}
  {isOld : CString → Bool} {db db' : LastSeenDB} {calls : DbmCalls} {keys keys' : List CString} {key : CString}
  {value : Buffer}

theorem dbVersion_of_none (hv : db versionKey = none) : dbVersion db = 0 := by
  rw [dbVersion, DB.readDB, hv]

theorem dbMigrate_singleton {step : DBMigrationFunction} (hv : dbVersion db = 0) : dbMigrate [step] db = step db := by
  have hv : ((0 : Nat) : Int) = dbVersion db := hv.symm
  rw [dbMigrate, dbMigrateFrom, if_pos hv]
  generalize step db = r
  obtain ⟨ok, db⟩ := r
  cases ok <;> rfl

theorem migrateBy_of_cursor (h : calls.newCursor = false) : migrateBy moves calls keys db = (false, db) := by
  rw [migrateBy, h]
  rfl

theorem migrateBy_false (hc : calls.newCursor = true)
    (h : (moves.run ⟨calls.write, calls.deleteEntry⟩ keys (true, db)).1 = false ∨ calls.writeVersion = false) :
    migrateBy moves calls keys db = (false, (moves.run ⟨calls.write, calls.deleteEntry⟩ keys (true, db)).2) := by
  rw [migrateBy, hc]
  cases h
  case inl h => simp [h]
  case inr h => simp [h]

theorem migrateBy_true (hc : calls.newCursor = true) (hw : calls.writeVersion = true)
    (h : (moves.run ⟨calls.write, calls.deleteEntry⟩ keys (true, db)).1 = true) :
    migrateBy moves calls keys db =
      (true, DB.writeDB (moves.run ⟨calls.write, calls.deleteEntry⟩ keys (true, db)).2 versionKey <| textValue ['1']) := by
  simp [migrateBy, hc, hw, h]

theorem migrateBy_succeed : migrateBy moves .succeed keys db =
    (true, DB.writeDB (moves.run .succeed keys (true, db)).2 versionKey <| textValue ['1']) :=
  migrateBy_true rfl rfl Moves.run_succeed

-- A migration that has not failed has come to its end.
theorem migrateBy_cases (moves : Moves CString Buffer) (calls : DbmCalls) (keys : List CString) (db : LastSeenDB) :
    migrateBy moves calls keys db = (false, db) ∨
      migrateBy moves calls keys db = (false, (moves.run ⟨calls.write, calls.deleteEntry⟩ keys (true, db)).2) ∨
      (moves.run ⟨calls.write, calls.deleteEntry⟩ keys (true, db)).1 = true ∧ migrateBy moves calls keys db =
        (true, DB.writeDB (moves.run ⟨calls.write, calls.deleteEntry⟩ keys (true, db)).2 versionKey <| textValue ['1']) := by
  cases hc : calls.newCursor
  case false => exact .inl <| migrateBy_of_cursor hc
  case true  =>
    cases hr : (moves.run ⟨calls.write, calls.deleteEntry⟩ keys (true, db)).1
    case false => exact .inr <| .inl <| migrateBy_false hc <| .inl hr
    case true  =>
      cases hw : calls.writeVersion
      case false => exact .inr <| .inl <| migrateBy_false hc <| .inr hw
      case true  => exact .inr <| .inr ⟨rfl, migrateBy_true hc hw hr⟩

theorem remain_run {c : Moves.Calls CString} {ok : Bool} (h : Remain moves.isOld db db') :
    Remain moves.isOld db (moves.run c keys (ok, db')).2 := by
  induction keys generalizing ok db'
  case nil              => exact h
  case cons key keys ih =>
    refine @ih (moves.step c (ok, db') key).2 (moves.step c (ok, db') key).1 fun key' ho => ?_
    cases @Moves.step_remaining _ _ _ moves db' key key' c ok ho
    case inl he => rw [he]; exact h key' ho
    case inr hn => exact .inr hn

section Plan

-- The plan replaces entries, none of them by that of the version.
variable (hplan : ∀ calls keys db', Remain moves.isOld db db' → db' versionKey = none →
    dbMigrate (plan calls keys) db' = migrateBy moves calls keys db')
  (hnew : ∀ key value new, new ∈ moves.derived key value → new.1 ≠ versionKey) (hv : db versionKey = none)
include hplan hnew hv

theorem resumable_of_consistent (hc : moves.Consistent db) : Resumable plan moves.isOld db := by
  have hmigrate (calls keys) := hplan calls keys db (fun _ _ => .inl rfl) hv
  have hrun (c keys) : (moves.run c keys (true, db)).2 versionKey = none := Moves.run_absent hnew hv
  -- What a migration that fails leaves.
  have hfailed {calls keys} (h : (dbMigrate (plan calls keys) db).1 = false) :
      moves.Between db (dbMigrate (plan calls keys) db).2 ∧
        Remain moves.isOld db (dbMigrate (plan calls keys) db).2 ∧ (dbMigrate (plan calls keys) db).2 versionKey = none := by
    have hsame : Remain moves.isOld db db := fun _ _ => .inl rfl
    rw [hmigrate] at h ⊢
    obtain hr | hr | ⟨-, hr⟩ := migrateBy_cases moves calls keys db
    · rw [hr]
      exact ⟨Moves.between_refl, hsame, hv⟩
    · rw [hr]
      exact ⟨Moves.between_refl.run hc, remain_run hsame, hrun ..⟩
    · rw [hr] at h
      nomatch h
  constructor
  case unversioned => exact fun calls keys _ h => (hfailed h).right.right
  case resumed     =>
    intro calls keys keys' hcov h hcov'
    have ⟨hbetween, hremain, hnone⟩ := hfailed h
    rw [hplan _ _ _ hremain hnone, hmigrate .succeed keys, migrateBy_succeed, migrateBy_succeed]
    have he := Moves.Between.unique (hbetween.run hc) (Moves.between_refl.run hc)
      (fun key ho => Moves.gone_of_covers hcov' Moves.run_succeed ho) fun key ho =>
        Moves.gone_of_covers hcov Moves.run_succeed ho
    exact congrArg (fun db => DB.writeDB db versionKey <| textValue ['1']) he
  case finished    =>
    intro calls keys hcov h key ho hk
    rw [hmigrate] at h ⊢
    obtain hr | hr | ⟨hok, hr⟩ := migrateBy_cases moves calls keys db
    · rw [hr] at h
      nomatch h
    · rw [hr] at h
      nomatch h
    · rw [hr]
      exact (DB.writeDB_of_ne _ hk).trans <| Moves.gone_of_covers hcov hok ho

theorem Resumable.resumes (h : Resumable plan moves.isOld db) : moves.Resumes db := by
  have hmigrate (c : Moves.Calls CString) (keys) : dbMigrate (plan ⟨true, c.write, c.delete, true⟩ keys) db =
      migrateBy moves ⟨true, c.write, c.delete, true⟩ keys db := hplan _ keys db (fun _ _ => .inl rfl) hv
  have hrun (c keys) : (moves.run c keys (true, db)).2 versionKey = none := Moves.run_absent hnew hv
  constructor
  case finished =>
    intro c keys hcov hok key ho
    by_cases hk : key = versionKey
    case pos => rw [hk, hrun]
    case neg =>
      have hr := (hmigrate c keys).trans <| migrateBy_true rfl rfl hok
      have hgone := h.finished _ keys hcov (by rw [hr]) key ho hk
      rw [hr] at hgone
      exact (DB.writeDB_of_ne _ hk).symm.trans hgone
  case resumed  =>
    intro c keys keys' hcov hfail hcov'
    have hr := (hmigrate c keys).trans <| migrateBy_false rfl <| .inl hfail
    have hresumed := h.resumed _ keys keys' hcov (by rw [hr]) (by rwa [hr])
    have hremain : Remain moves.isOld db (moves.run c keys (true, db)).2 := remain_run fun _ _ => .inl rfl
    rw [hr, hplan _ _ _ hremain <| hrun .., hplan _ _ _ (fun _ _ => .inl rfl) hv, migrateBy_succeed,
      migrateBy_succeed] at hresumed
    funext key
    by_cases hk : key = versionKey
    case pos =>
      rw [hk, hrun]
      exact Moves.run_absent hnew <| hrun ..
    case neg =>
      have hkey := congrFun hresumed key
      dsimp only at hkey
      rwa [DB.writeDB_of_ne _ hk, DB.writeDB_of_ne _ hk] at hkey

theorem resumable_iff_consistent (hk : ∃ keys, Visits moves.isOld keys db) :
    Resumable plan moves.isOld db ↔ moves.Consistent db :=
  ⟨fun h => (h.resumes hplan hnew hv).consistent hk, resumable_of_consistent hplan hnew hv⟩

end Plan

-- A key is unqualified.
def isVersion0Bundle (key : CString) : Bool :=
  !key.contains '.'

def bundlesMoves : Moves CString Buffer where
  isOld             := isVersion0Bundle
  derived key value := [("default".toList ++ ".".toList ++ key, value)]
  fresh key value new _ hn := by
    rw [List.mem_singleton.mp hn]
    simp [isVersion0Bundle]
  nodup _ _         := List.nodup_singleton _

theorem migrateBundle_step (s : Bool × DB Buffer) (key : CString) :
    bundlesMoves.step ⟨calls.write, calls.deleteEntry⟩ (!s.1, s.2) key =
      (!(migrateBundle calls s key).1, (migrateBundle calls s key).2) := by
  have ⟨errors, db⟩ := s
  cases hd : db key
  case none       =>
    rw [Moves.step_of_none hd, migrateBundle, DB.readDB]
    dsimp only
    rw [hd]
  case some value =>
    rw [migrateBundle, DB.readDB]
    dsimp only
    rw [hd]
    cases ho : key.contains '.'
    case true  =>
      apply Moves.step_of_new
      show (!key.contains '.') = false
      rw [ho]
      rfl
    case false =>
      have hold : bundlesMoves.isOld key = true := by
        show (!key.contains '.') = true
        rw [ho]
        rfl
      rw [Moves.step_of_old hold hd]
      simp only [bundlesMoves, Moves.writeAll]
      cases calls.write key ("default".toList ++ ".".toList ++ key) <;> cases calls.deleteEntry key <;> rfl

theorem bundlesMigrationVersion0_eq : bundlesMigrationVersion0 calls keys db = migrateBy bundlesMoves calls keys db := by
  have hrun : bundlesMoves.run ⟨calls.write, calls.deleteEntry⟩ keys (true, db) =
      (!(keys.foldl (migrateBundle calls) (false, db)).1, (keys.foldl (migrateBundle calls) (false, db)).2) :=
    @List.foldl_hom _ _ _ (fun s : Bool × DB Buffer => (!s.1, s.2)) _ _ keys (false, db) migrateBundle_step
  simp only [bundlesMigrationVersion0, migrateBy, hrun, Bool.not_not]

-- Qualified names differ as the names do.
theorem bundles_consistent : bundlesMoves.Consistent db := by
  intro key value key' value' new w w' hd hd'
  have h  := List.mem_singleton.mp hd.mem
  have h' := List.mem_singleton.mp hd'.mem
  have hkey : key = key' := List.append_cancel_left <| (Prod.mk.inj h).left.symm.trans (Prod.mk.inj h').left
  subst hkey
  exact hd.unique hd'

theorem bundles_resumable_iff (hv : dbVersion db = 0) (hk : ∃ keys, Visits isVersion0Bundle keys db) :
    Resumable dbMigrationPlanBundles isVersion0Bundle db ↔ db versionKey = none := by
  have hplan (calls keys) {db' : LastSeenDB} (hv : dbVersion db' = 0) :
      dbMigrate (dbMigrationPlanBundles calls keys) db' = migrateBy bundlesMoves calls keys db' :=
    (dbMigrate_singleton hv).trans bundlesMigrationVersion0_eq
  constructor
  case mp  =>
    intro h
    have ⟨keys, hk⟩ := hk
    have hfails : dbMigrate (dbMigrationPlanBundles { DbmCalls.succeed with newCursor := false } keys) db = (false, db) :=
      (hplan _ keys hv).trans <| migrateBy_of_cursor rfl
    have hnone := h.unversioned _ keys hk (by rw [hfails])
    rwa [hfails] at hnone
  case mpr =>
    intro hnone
    apply resumable_of_consistent (fun calls keys db' _ hv => hplan calls keys <| dbVersion_of_none hv) _ hnone
      bundles_consistent
    intro key value new hn he
    rw [List.mem_singleton.mp hn] at he
    exact absurd (congrArg List.head? he) (show some 'd' ≠ some 'v' by decide)

namespace LastSeen

-- The key has the flag of a connection.
def isVersion0 : CString → Bool
  | []        => false
  | flag :: _ => flag = '+' || flag = '-'

-- The data of an entry are those of a connection: an address and numbers that make sense.
structure SaneValue (doubles : Doubles) (value : Buffer) : Prop where
  size       : value.length = qpoint0Offset + sizeofQPoint0
  terminated : '\x00' ∈ value
  wellFormed : isMalformed doubles value = false

def Sane (doubles : Doubles) (db : LastSeenDB) : Prop :=
  ∀ key value, isVersion0 key = true → db key = some value → SaneValue doubles value

variable {doubles : Doubles} {m : Migration} {flag : Char} {hostkey : CString}

theorem lastSeenKey_cons (c : Char) (text : CString) : lastSeenKey (c :: text) = c :: text.take (cfBufSize - 2) :=
  rfl

def lastSeenMoves (doubles : Doubles) : Moves CString Buffer where
  isOld         := isVersion0
  derived
    | [], _                => []
    | flag :: hostkey, value =>
      [(lastSeenKey <| 'k' :: hostkey, textValue <| addressOf value),
        (lastSeenKey <| 'a' :: addressOf value, textValue hostkey),
        (lastSeenKey <| qualityKey flag hostkey, (QPoint0.ofValue value).toKeyHostSeen doubles)]
  fresh key value new _ hn := by
    cases key
    case nil                => nomatch hn
    case cons flag hostkey =>
      simp only [qualityKey, lastSeenKey_cons, List.mem_cons, List.not_mem_nil, or_false] at hn
      obtain rfl | rfl | rfl := hn <;> rfl
  nodup key value := by
    cases key
    case nil                => exact List.nodup_nil
    case cons flag hostkey => simp [qualityKey, lastSeenKey_cons]

-- Whether there have been no errors, and the database.
def Migration.outcome (m : Migration) : Bool × LastSeenDB :=
  (!m.errors, m.db)

theorem isVersion0_cons : isVersion0 (flag :: hostkey) = true ↔ flag = '+' ∨ flag = '-' := by
  simp [isVersion0]

-- An entry whose data make sense is replaced by others, unless a call fails.
theorem migrateEntry_of_sane (hf : flag = '+' ∨ flag = '-') (hd : m.db (flag :: hostkey) = some value)
    (hs : SaneValue doubles value) : migrateEntry calls doubles m (flag :: hostkey) =
      m.write calls (flag :: hostkey) (lastSeenKey <| 'k' :: hostkey) (textValue <| addressOf value) fun m =>
      m.write calls (flag :: hostkey) (lastSeenKey <| 'a' :: addressOf value) (textValue hostkey) fun m =>
      m.write calls (flag :: hostkey) (lastSeenKey <| qualityKey flag hostkey)
          ((QPoint0.ofValue value).toKeyHostSeen doubles) fun m =>
        { m with errors := m.errors || !calls.deleteEntry (flag :: hostkey) }.deleteEntry calls (flag :: hostkey) := by
  have hflag : ¬(flag ≠ '+' ∧ flag ≠ '-') := fun h => hf.elim h.left h.right
  have hwell : (QPoint0.ofValue value).isMalformed doubles = false := hs.wellFormed
  have hterm : value.contains '\x00' = true := List.contains_iff_mem.mpr hs.terminated
  simp only [migrateEntry, DB.readDB, hd, if_neg hflag, hs.size, ne_eq, not_true_eq_false, if_false, hterm,
    Migration.readBeyond, Nat.lt_irrefl, decide_false, Bool.not_true, Bool.or_false, hwell, Bool.false_eq_true]
  rfl

theorem migrateEntry_step (hs : ∀ value, isVersion0 key = true → m.db key = some value → SaneValue doubles value) :
    (migrateEntry calls doubles m key).outcome =
        (lastSeenMoves doubles).step ⟨calls.write, calls.deleteEntry⟩ m.outcome key ∧
      (migrateEntry calls doubles m key).overread = m.overread := by
  cases hd : m.db key
  case none =>
    rw [migrateEntry_of_none hd]
    exact ⟨(Moves.step_of_none hd).symm, rfl⟩
  case some value =>
    cases ho : isVersion0 key
    case false =>
      have hsame : migrateEntry calls doubles m key = m := by
        apply migrateEntry_of_not_isOldKey
        intro ⟨flag, hostkey, he, hf⟩
        exact Bool.false_ne_true <| ho.symm.trans <| he ▸ isVersion0_cons.mpr hf
      rw [hsame]
      exact ⟨(Moves.step_of_new ho).symm, rfl⟩
    case true  =>
      cases key
      case nil => nomatch ho
      case cons flag hostkey =>
        have hsane := hs value ho hd
        rw [migrateEntry_of_sane (isVersion0_cons.mp ho) hd hsane]
        simp only [Migration.outcome]
        rw [Moves.step_of_old ho hd]
        simp only [lastSeenMoves, Moves.writeAll, Migration.write, Migration.deleteEntry]
        generalize lastSeenKey ('k' :: hostkey) = host
        generalize lastSeenKey ('a' :: addressOf value) = address
        generalize lastSeenKey (qualityKey flag hostkey) = quality
        cases calls.write (flag :: hostkey) host
        case false => simp
        case true  =>
          cases calls.write (flag :: hostkey) address
          case false => simp; rfl
          case true  =>
            cases calls.write (flag :: hostkey) quality
            case false => simp; rfl
            case true  => cases calls.deleteEntry (flag :: hostkey) <;> simp <;> rfl

theorem migrate_run (hs : Sane doubles db) (hr : Remain isVersion0 db m.db) :
    (keys.foldl (migrateEntry calls doubles) m).outcome =
        (lastSeenMoves doubles).run ⟨calls.write, calls.deleteEntry⟩ keys m.outcome ∧
      (keys.foldl (migrateEntry calls doubles) m).overread = m.overread := by
  induction keys generalizing m
  case nil              => exact ⟨rfl, rfl⟩
  case cons key keys ih =>
    have ⟨hstep, hover⟩ := @migrateEntry_step calls key doubles m fun value ho hd => by
      cases hr key ho
      case inl he => exact hs key value ho <| he ▸ hd
      case inr hn => nomatch hd.symm.trans hn
    have hremain : Remain isVersion0 db (migrateEntry calls doubles m key).db := by
      have hdb : (migrateEntry calls doubles m key).db = (migrateEntry calls doubles m key).outcome.2 := rfl
      rw [hdb, hstep]
      exact @remain_run (lastSeenMoves doubles) db m.db [key] ⟨calls.write, calls.deleteEntry⟩ (!m.errors) hr
    have ⟨hrun, hover'⟩ := ih hremain
    refine ⟨?_, hover'.trans hover⟩
    rw [List.foldl_cons, hrun, hstep]
    rfl

-- Everything works but the removal of one entry.
def undeletable (key : CString) : DbmCalls :=
  { DbmCalls.succeed with deleteEntry := fun key' => key' ≠ key }

-- The entry is still there, and no error has been noted.
structure Stays (entry : CString) (value : Buffer) (m : Migration) : Prop where
  noErrors : m.errors = false
  stored   : m.db entry = some value

theorem Stays.deleteEntry {entry : CString} (h : Stays entry value m) :
    Stays entry value (m.deleteEntry (undeletable entry) key) := by
  rw [Migration.deleteEntry]
  split
  case isFalse    => exact h
  case isTrue hne =>
    exact ⟨h.noErrors, (DB.deleteDB_of_ne _ <| Ne.symm <| of_decide_eq_true hne).trans h.stored⟩

theorem Stays.write {entry key text : CString} {c : Char} {v : Buffer} {next : Migration → Migration}
    (ho : isVersion0 entry = true) (hc : c ≠ '+' ∧ c ≠ '-') (h : Stays entry value m)
    (hnext : ∀ m', Stays entry value m' → Stays entry value (next m')) :
    Stays entry value (m.write (undeletable entry) key (lastSeenKey <| c :: text) v next) := by
  have hne : entry ≠ lastSeenKey (c :: text) := by
    intro heq
    rw [heq, lastSeenKey_cons, isVersion0_cons] at ho
    exact ho.elim hc.left hc.right
  exact hnext _ ⟨h.noErrors, (DB.writeDB_of_ne _ hne).trans h.stored⟩

-- Entries of the wrong size and those with malformed quality data are removed without a look at the outcome.
theorem Stays.migrateEntry {entry : CString} (ho : isVersion0 entry = true)
    (hvalue : value.length ≠ qpoint0Offset + sizeofQPoint0 ∨ isMalformed doubles value = true)
    (h : Stays entry value m) : Stays entry value (migrateEntry (undeletable entry) doubles m key) := by
  cases hdk : m.db key
  case none         => rwa [migrateEntry_of_none hdk]
  case some value' =>
    cases key
    case nil                => exact h
    case cons flag hostkey =>
      simp only [LastSeen.migrateEntry, DB.readDB, hdk]
      have hread (beyond : Bool) {m : Migration} (h : Stays entry value m) : Stays entry value (m.readBeyond beyond) :=
        ⟨h.noErrors, h.stored⟩
      split
      case isTrue  => exact h
      case isFalse =>
        split
        case isTrue        => exact (hread _ h).deleteEntry
        case isFalse hsize =>
          refine (hread _ <| hread _ h).write ho (by decide) fun m hm => hm.write ho (by decide) fun m hm => ?_
          split
          case isTrue             => exact hm.deleteEntry
          case isFalse hmalformed =>
            refine hm.write ho (by decide) fun m hm => deleteEntry ⟨?_, hm.stored⟩
            have hne : flag :: hostkey ≠ entry := by
              rintro rfl
              cases hdk.symm.trans h.stored
              exact hvalue.elim hsize hmalformed
            have hworks : (undeletable entry).deleteEntry (flag :: hostkey) = true := decide_eq_true hne
            dsimp only
            rw [hm.noErrors, hworks]
            rfl

theorem Stays.migrate {entry : CString} (ho : isVersion0 entry = true)
    (hvalue : value.length ≠ qpoint0Offset + sizeofQPoint0 ∨ isMalformed doubles value = true)
    (h : Stays entry value m) :
    Stays entry value (keys.foldl (LastSeen.migrateEntry (undeletable entry) doubles) m) := by
  induction keys generalizing m
  case nil              => exact h
  case cons key keys ih => exact ih <| h.migrateEntry ho hvalue

theorem write_overread {entry : CString} {next : Migration → Migration} (hm : m.overread = true)
    (hnext : ∀ m' : Migration, m'.overread = true → (next m').overread = true) :
    (m.write calls entry key value next).overread = true := by
  rw [Migration.write]
  split
  case isTrue  => exact hnext _ hm
  case isFalse => exact hm

theorem deleteEntry_overread (hm : m.overread = true) : (m.deleteEntry calls key).overread = true := by
  rw [Migration.deleteEntry]
  split <;> exact hm

theorem migrateEntry_overread (h : m.overread = true ∨ ∃ value, isVersion0 key = true ∧ m.db key = some value ∧
      value.length = qpoint0Offset + sizeofQPoint0 ∧ '\x00' ∉ value) :
    (migrateEntry calls doubles m key).overread = true := by
  cases hd : m.db key
  case none         =>
    rw [migrateEntry_of_none hd]
    refine h.resolve_right ?_
    rintro ⟨value, _, hs, _⟩
    cases hd.symm.trans hs
  case some value =>
    cases key
    case nil                =>
      refine h.resolve_right ?_
      rintro ⟨value, ho, _⟩
      cases ho
    case cons flag hostkey =>
      simp only [migrateEntry, DB.readDB, hd]
      split
      case isTrue hflag =>
        refine h.resolve_right ?_
        rintro ⟨value, ho, _⟩
        exact (isVersion0_cons.mp ho).elim hflag.left hflag.right
      case isFalse      =>
        split
        case isTrue hsize =>
          apply deleteEntry_overread
          refine h.elim (fun h => by simp [Migration.readBeyond, h]) ?_
          rintro ⟨value, _, hs, hl, _⟩
          cases hd.symm.trans hs
          exact absurd hl hsize
        case isFalse      =>
          have hbeyond : ((m.readBeyond <| value.length < qpoint0Offset + sizeofQPoint0).readBeyond <|
              !value.contains '\x00').overread = true := by
            refine h.elim (fun h => by simp [Migration.readBeyond, h]) ?_
            rintro ⟨value, _, hs, _, hn⟩
            cases hd.symm.trans hs
            simp [Migration.readBeyond, hn]
          refine write_overread hbeyond fun m hm => write_overread hm fun m hm => ?_
          split
          case isTrue  => exact deleteEntry_overread hm
          case isFalse => exact write_overread hm fun m hm => deleteEntry_overread hm

theorem migrate_overread (h : m.overread = true) : (keys.foldl (migrateEntry calls doubles) m).overread = true := by
  induction keys generalizing m
  case nil              => exact h
  case cons key keys ih => exact ih <| migrateEntry_overread <| .inl h

-- What is expected of the migration of connections. It reads the values within their bounds.
structure ResumableConnections (doubles : Doubles) (db : LastSeenDB) : Prop where
  resumable : Resumable (fun calls keys => dbMigrationPlanLastseen calls doubles keys) isVersion0 db
  inBounds  : ∀ calls keys, Visits isVersion0 keys db →
    (lastseenMigrationVersion0 calls doubles keys db).2.overread = false

theorem dbMigrate_lastseen (hv : dbVersion db = 0) : dbMigrate (dbMigrationPlanLastseen calls doubles keys) db =
    ((lastseenMigrationVersion0 calls doubles keys db).1, (lastseenMigrationVersion0 calls doubles keys db).2.db) :=
  dbMigrate_singleton hv

theorem lastseenMigrationVersion0_eq (hs : Sane doubles db) (hr : Remain isVersion0 db db') :
    ((lastseenMigrationVersion0 calls doubles keys db').1, (lastseenMigrationVersion0 calls doubles keys db').2.db) =
        migrateBy (lastSeenMoves doubles) calls keys db' ∧
      (lastseenMigrationVersion0 calls doubles keys db').2.overread = false := by
  have ⟨hrun, hover⟩ := @migrate_run db calls keys doubles { db := db', errors := false, overread := false } hs hr
  rw [lastseenMigrationVersion0, migrateBy]
  cases calls.newCursor
  case false => exact ⟨rfl, rfl⟩
  case true  =>
    dsimp only [Bool.not_true, Bool.false_eq_true, if_false]
    rw [show (true, db') = Migration.outcome { db := db', errors := false, overread := false } from rfl, ← hrun]
    generalize keys.foldl (migrateEntry calls doubles) { db := db', errors := false, overread := false } = r at hover
    obtain ⟨db', errors, overread⟩ := r
    cases errors <;> cases calls.writeVersion <;> exact ⟨rfl, hover⟩

theorem isVersion0_versionKey : isVersion0 versionKey = false := by
  decide

theorem ResumableConnections.unversioned (h : ResumableConnections doubles db) (hv : dbVersion db = 0)
    (hk : ∃ keys, Visits isVersion0 keys db) : db versionKey = none := by
  have ⟨keys, hk⟩ := hk
  have hfails : dbMigrate (dbMigrationPlanLastseen { DbmCalls.succeed with newCursor := false } doubles keys) db =
      (false, db) := dbMigrate_lastseen hv
  have hnone := h.resumable.unversioned _ keys hk (by rw [hfails])
  rwa [hfails] at hnone

theorem ResumableConnections.sane (h : ResumableConnections doubles db) (hv : dbVersion db = 0)
    (hk : ∃ keys, Visits isVersion0 keys db) : Sane doubles db := by
  obtain ⟨keys, hk⟩ := hk
  intro key value ho hd
  have hremoved (hvalue : value.length ≠ qpoint0Offset + sizeofQPoint0 ∨ isMalformed doubles value = true) : False := by
    have hinit : Stays key value { db := db, errors := false, overread := false } := ⟨rfl, hd⟩
    have hstays : Stays key value (keys.foldl (migrateEntry (undeletable key) doubles)
        { db := db, errors := false, overread := false }) := hinit.migrate ho hvalue
    have hne : key ≠ versionKey := fun heq => Bool.false_ne_true <| isVersion0_versionKey.symm.trans <| heq ▸ ho
    have hresult : lastseenMigrationVersion0 (undeletable key) doubles keys db =
        (true, { keys.foldl (migrateEntry (undeletable key) doubles) { db := db, errors := false, overread := false } with
          db := DB.writeDB (keys.foldl (migrateEntry (undeletable key) doubles)
            { db := db, errors := false, overread := false }).db versionKey <| textValue ['1'] }) := by
      simp only [lastseenMigrationVersion0, hstays.noErrors]
      rfl
    have hmigrate := (@dbMigrate_lastseen db (undeletable key) keys doubles hv).trans <| by rw [hresult]
    have hgone := h.resumable.finished (undeletable key) keys hk (by rw [hmigrate]) key ho hne
    rw [hmigrate] at hgone
    cases hgone.symm.trans <| (DB.writeDB_of_ne _ hne).trans hstays.stored
  constructor
  case size       => exact not_not.mp fun hsize => hremoved <| .inl hsize
  case wellFormed => exact Bool.eq_false_iff.mpr fun hmalformed => hremoved <| .inr hmalformed
  case terminated =>
    by_contra hn
    have hsize : value.length = qpoint0Offset + sizeofQPoint0 := not_not.mp fun hsize => hremoved <| .inl hsize
    have hover := h.inBounds .succeed (key :: keys) fun key ho hs => .tail _ <| hk key ho hs
    have hread : ((key :: keys).foldl (migrateEntry .succeed doubles)
        { db := db, errors := false, overread := false }).overread = true := by
      rw [List.foldl_cons]
      exact migrate_overread <| migrateEntry_overread <| .inr ⟨value, ho, hd, hsize, hn⟩
    have hsame : (lastseenMigrationVersion0 .succeed doubles (key :: keys) db).2.overread =
        ((key :: keys).foldl (migrateEntry .succeed doubles)
          { db := db, errors := false, overread := false }).overread := by
      rw [lastseenMigrationVersion0]
      split
      case isTrue hc => cases hc
      case isFalse   =>
        dsimp only
        split <;> rfl
    exact Bool.false_ne_true <| (hover.symm.trans hsame).trans hread

theorem lastSeenMoves_ne_versionKey {new : CString × Buffer} (h : new ∈ (lastSeenMoves doubles).derived key value) :
    new.1 ≠ versionKey := by
  have hhead : new.1.head? ≠ some 'v' := by
    cases key
    case nil                => nomatch h
    case cons flag hostkey =>
      simp only [lastSeenMoves, qualityKey, lastSeenKey_cons, List.mem_cons, List.not_mem_nil, or_false] at h
      obtain rfl | rfl | rfl := h <;> simp
  exact fun he => hhead <| he ▸ rfl

theorem resumableConnections_iff (hv : dbVersion db = 0) (hk : ∃ keys, Visits isVersion0 keys db) :
    ResumableConnections doubles db ↔
      db versionKey = none ∧ Sane doubles db ∧ (lastSeenMoves doubles).Consistent db := by
  have hplan (hs : Sane doubles db) (calls keys) (db' : LastSeenDB) (hr : Remain isVersion0 db db')
      (hv : db' versionKey = none) : dbMigrate (dbMigrationPlanLastseen calls doubles keys) db' =
        migrateBy (lastSeenMoves doubles) calls keys db' :=
    (dbMigrate_lastseen <| dbVersion_of_none hv).trans (lastseenMigrationVersion0_eq hs hr).left
  have hnew (key value new) (h : new ∈ (lastSeenMoves doubles).derived key value) : new.1 ≠ versionKey :=
    lastSeenMoves_ne_versionKey h
  constructor
  case mp  =>
    intro h
    have hnone := h.unversioned hv hk
    have hs := h.sane hv hk
    exact ⟨hnone, hs, (resumable_iff_consistent (hplan hs) hnew hnone hk).mp h.resumable⟩
  case mpr =>
    intro ⟨hnone, hs, hc⟩
    refine ⟨resumable_of_consistent (hplan hs) hnew hnone hc, fun calls keys _ => ?_⟩
    exact (lastseenMigrationVersion0_eq hs fun _ _ => .inl rfl).right

end LastSeen

open LastSeen

-- A migration of connections cannot be resumed if it comes to entries that it removes without looking at the outcome,
-- or if two connections compete for the same key. Bundles do not compete.
theorem dbMigrate_resumable_iff (doubles : Doubles) (db : LastSeenDB) (hv : dbVersion db = 0)
    (hk : ∃ keys : List CString, ∀ key, db key ≠ none → key ∈ keys) :
    (ResumableConnections doubles db ↔
        db versionKey = none ∧ Sane doubles db ∧ (lastSeenMoves doubles).Consistent db) ∧
      (Resumable dbMigrationPlanBundles isVersion0Bundle db ↔ db versionKey = none) := by
  have ⟨keys, hk⟩ := hk
  exact ⟨resumableConnections_iff hv ⟨keys, fun key _ hs => hk key hs⟩,
    bundles_resumable_iff hv ⟨keys, fun key _ hs => hk key hs⟩⟩

theorem dbMigrate_resumable_connections :
    ResumableConnections littleEndianDoubles (storeAll testConnections) ∧
      Resumable dbMigrationPlanBundles isVersion0Bundle (storeAll testConnections) := by
  have hnone : storeAll testConnections versionKey = none := by decide +kernel
  have hvalue : ∀ entry ∈ testConnections, entry.2.length = qpoint0Offset + sizeofQPoint0 ∧ '\x00' ∈ entry.2 ∧
      isMalformed littleEndianDoubles entry.2 = false := by decide +kernel
  have hagree : ∀ entry ∈ testConnections, ∀ entry' ∈ testConnections,
      ∀ new ∈ (lastSeenMoves littleEndianDoubles).derived entry.1 entry.2,
      ∀ new' ∈ (lastSeenMoves littleEndianDoubles).derived entry'.1 entry'.2,
        new.1 = new'.1 → new.2 = new'.2 := by decide +kernel
  obtain ⟨hconnections, hbundles⟩ := dbMigrate_resumable_iff littleEndianDoubles (storeAll testConnections)
    (dbVersion_of_none hnone) ⟨_, storeAll_visited _⟩
  refine ⟨hconnections.mpr ⟨hnone, fun key value _ hd => ?_, fun key value key' value' new w w' h h' => ?_⟩,
    hbundles.mpr hnone⟩
  · obtain ⟨hsize, hterminated, hwellFormed⟩ := hvalue _ <| mem_of_storeAll hd
    exact ⟨hsize, hterminated, hwellFormed⟩
  · exact hagree _ (mem_of_storeAll h.stored) _ (mem_of_storeAll h'.stored) _ h.mem _ h'.mem rfl

-- The quality of a connection is -1.0.
def malformedQPoint0 : QPoint0 :=
  { testQPoint0 with q := [0, 0, 0, 0, 0, 0, 240, 191].map Char.ofNat }

-- The entry cannot be removed, and the migration claims to have come to its end.
theorem not_dbMigrate_resumable :
    dbVersion (DB.empty.writeDB testKey <| oldValue "1.2.3.4".toList malformedQPoint0) = 0 ∧
      DB.empty.writeDB testKey (oldValue "1.2.3.4".toList malformedQPoint0) versionKey = none ∧
      ¬Resumable (fun calls keys => dbMigrationPlanLastseen calls littleEndianDoubles keys) isVersion0
        (DB.empty.writeDB testKey <| oldValue "1.2.3.4".toList malformedQPoint0) := by
  refine ⟨by decide +kernel, by decide +kernel, fun h => ?_⟩
  have hgone :=
    h.finished (undeletable testKey) [testKey] (fun key _ => storeAll_visited [(_, _)] key) (by decide +kernel)
    testKey (by decide) (by decide)
  exact absurd hgone <| by decide +kernel

end CfEngine
