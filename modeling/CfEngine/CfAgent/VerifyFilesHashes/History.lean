import CfEngine.CfAgent.VerifyFilesHashes
import Mathlib.Data.List.Induction

namespace CfEngine
namespace FileHashes

-- The calls that change the hash database. A path that is purged is found or not.
inductive HashCall
  | fileHashChanged (filename : PathName) (digest : Digest) (type : HashMethod) (update : Bool)
  | purgeHashes (path : PathName) (found update : Bool)

namespace HashCall

def run (db : ChecksumDB) : HashCall → ChecksumDB
  | fileHashChanged filename digest type update =>
    (FileHashes.fileHashChanged db filename.val digest type update).2
  | purgeHashes path found update => FileHashes.purgeHashes (fun _ => found) db (some path.val) update

def filename? : HashCall → Option PathName
  | fileHashChanged filename .. => some filename
  | purgeHashes ..              => none

end HashCall

def databaseAfter (calls : List HashCall) : ChecksumDB :=
  calls.foldl HashCall.run DB.empty

-- The digests that are on record for the files.
abbrev HashRecords := PathName → HashMethod → Option Digest

noncomputable section
open Classical Function

namespace HashRecords

-- A record differs from the digest within the size of the method.
def Changed (records : HashRecords) (filename : PathName) (digest : Digest) (type : HashMethod) :
    Prop :=
  ∃ dbdigest, records filename type = some dbdigest ∧
    ∃ i, i.val < fileHashSize type ∧ digest i ≠ dbdigest i

def record (records : HashRecords) (filename : PathName) (type : HashMethod) (digest : Digest) :
    HashRecords :=
  update records filename <| update (records filename) type (some digest)

-- A digest is recorded if there is no record, and in place of one that has changed if it is to be
-- updated. A path that is not found loses its records.
def after (records : HashRecords) : HashCall → HashRecords
  | .fileHashChanged filename digest type update =>
    if records filename type = none ∨ (records.Changed filename digest type ∧ update) then
      records.record filename type digest
    else
      records
  | .purgeHashes path found _ => if found then records else update records path fun _ => none

variable {records : HashRecords} {filename filename' : PathName} {type type' : HashMethod}
  {digest : Digest}

theorem record_self : records.record filename type digest filename type = some digest := by
  simp [record]

theorem record_of_ne (h : ¬(type' = type ∧ filename' = filename)) :
    records.record filename type digest filename' type' = records filename' type' := by
  rw [record]
  by_cases hf : filename' = filename
  case neg => rw [update_of_ne hf]
  case pos =>
    cases hf
    rw [update_self, update_of_ne fun ht => h ⟨ht, rfl⟩]

end HashRecords

def recordsAfter (calls : List HashCall) : HashRecords :=
  calls.foldl HashRecords.after fun _ _ => none

-- The database has the records, and the next answer is the right one for them.
structure TellsTruth (calls : List HashCall) : Prop where
  recorded : ∀ filename type,
    readHash (databaseAfter calls) type filename.val = recordsAfter calls filename type
  answer   : ∀ filename digest type update,
    (fileHashChanged (databaseAfter calls) filename.val digest type update).1 ↔
      (recordsAfter calls).Changed filename digest type

-- No path is purged that is not found after a digest of it has been recorded.
def PurgesUnrecorded (calls : List HashCall) : Prop :=
  ∀ pre path update post, calls = pre ++ .purgeHashes path false update :: post →
    ∀ call ∈ pre, call.filename? ≠ some path

section

variable {calls : List HashCall} {db : ChecksumDB} {records : HashRecords}

theorem databaseAfter_concat (calls : List HashCall) (call : HashCall) :
    databaseAfter (calls ++ [call]) = call.run (databaseAfter calls) := by
  simp [databaseAfter]

theorem recordsAfter_concat (calls : List HashCall) (call : HashCall) :
    recordsAfter (calls ++ [call]) = (recordsAfter calls).after call := by
  simp [recordsAfter]

theorem fileHashChanged_answer_iff {filename : PathName} {digest : Digest} {type : HashMethod}
    {update : Bool} (h : readHash db type filename.val = records filename type) :
    (fileHashChanged db filename.val digest type update).1 ↔
      records.Changed filename digest type := by
  rw [fileHashChanged, HashRecords.Changed, ← h]
  cases readHash db type filename.val
  case none          => simp
  case some dbdigest =>
    simp only [Option.some.injEq, exists_eq_left', ← digestsDiffer_iff]
    split <;> simp_all

theorem readHash_fileHashChanged {filename : PathName} {digest : Digest} {type : HashMethod}
    {update : Bool} (h : ∀ filename type, readHash db type filename.val = records filename type)
    (filename' : PathName) (type' : HashMethod) :
    readHash (HashCall.run db <| .fileHashChanged filename digest type update) type' filename'.val =
      records.after (.fileHashChanged filename digest type update) filename' type' := by
  have hanswer := @fileHashChanged_answer_iff db records filename digest type update (h filename type)
  have hwrite {db' : ChecksumDB} (hdb' : ¬(type' = type ∧ filename' = filename) →
      readHash db' type' filename'.val = records filename' type') :
      readHash (writeHash db' type filename.val digest) type' filename'.val =
        records.record filename type digest filename' type' := by
    by_cases hsame : type' = type ∧ filename' = filename
    case pos =>
      obtain ⟨rfl, rfl⟩ := hsame
      rw [readHash_writeHash_self, HashRecords.record_self]
    case neg =>
      rw [readHash_writeHash_of_ne fun hs => hsame ⟨hs.1, Subtype.ext hs.2⟩, hdb' hsame,
        HashRecords.record_of_ne hsame]
  rw [HashRecords.after, HashCall.run]
  rw [fileHashChanged] at hanswer ⊢
  rw [← h filename type]
  cases hread : readHash db type filename.val
  case none          =>
    simp only [true_or, if_true]
    exact hwrite fun _ => h filename' type'
  case some dbdigest =>
    rw [hread] at hanswer
    simp only [reduceCtorEq, false_or]
    by_cases hdiffer : digestsDiffer (fileHashSize type) digest dbdigest
    case neg =>
      have hchanged : ¬records.Changed filename digest type := by
        intro hc
        rw [← hanswer] at hc
        simp [hdiffer] at hc
      simp [hdiffer, hchanged, h filename' type']
    case pos =>
      have hchanged : records.Changed filename digest type := by
        rw [← hanswer]
        simp [hdiffer]
      cases update
      case false => simp [hdiffer, h filename' type']
      case true  =>
        simp only [hdiffer, hchanged, if_true, and_self]
        refine hwrite fun hsame => ?_
        rw [readHash_deleteHash_of_ne fun hs => hsame ⟨hs.1, Subtype.ext hs.2⟩, h filename' type']

theorem recordsAfter_eq_none {path : PathName} (h : ∀ call ∈ calls, call.filename? ≠ some path) :
    recordsAfter calls path = fun _ => none := by
  induction calls using List.reverseRecOn
  case nil => rfl
  case append_singleton calls call ih =>
    rw [List.forall_mem_append, List.forall_mem_singleton] at h
    rw [recordsAfter_concat]
    cases call
    case fileHashChanged filename digest type update' =>
      have hne : path ≠ filename := fun hp => h.2 <| hp ▸ rfl
      rw [HashRecords.after]
      split
      · rw [HashRecords.record, update_of_ne hne, ih h.1]
      · exact ih h.1
    case purgeHashes path' found update' =>
      rw [HashRecords.after]
      split
      · exact ih h.1
      · by_cases hp : path = path'
        · rw [hp, update_self]
        · rw [update_of_ne hp, ih h.1]

-- What has been recorded for a file stays on record, since no purge removes it.
theorem readHash_run_ne_none {call : HashCall} {type : HashMethod} {name : CString}
    (h : readHash db type name ≠ none) : readHash (call.run db) type name ≠ none := by
  cases call
  case fileHashChanged filename digest type' update =>
    have hwrite {db' : ChecksumDB} (hdb' : ¬(type = type' ∧ name = filename.val) →
        readHash db' type name ≠ none) :
        readHash (writeHash db' type' filename.val digest) type name ≠ none := by
      by_cases hsame : type = type' ∧ name = filename.val
      case pos =>
        rw [hsame.1, hsame.2, readHash_writeHash_self]
        exact nofun
      case neg =>
        rw [readHash_writeHash_of_ne hsame]
        exact hdb' hsame
    rw [HashCall.run, fileHashChanged]
    cases readHash db type' filename.val
    case none          => exact hwrite fun _ => h
    case some dbdigest =>
      dsimp only
      split
      · split
        · refine hwrite fun hsame => ?_
          rwa [readHash_deleteHash_of_ne hsame]
        · exact h
      · exact h
  case purgeHashes path found update =>
    rwa [HashCall.run, readHash_purgeHashes_some]

theorem readHash_databaseAfter_ne_none {filename : PathName} {digest : Digest} {type : HashMethod}
    {update : Bool} (h : .fileHashChanged filename digest type update ∈ calls) :
    readHash (databaseAfter calls) type filename.val ≠ none := by
  induction calls using List.reverseRecOn
  case nil => exact absurd h List.not_mem_nil
  case append_singleton calls call ih =>
    rw [databaseAfter_concat]
    rcases List.mem_append.mp h with h | h
    · exact readHash_run_ne_none <| ih h
    · cases List.mem_singleton.mp h
      rw [HashCall.run, fileHashChanged]
      cases hread : readHash (databaseAfter calls) type filename.val
      case none =>
        rw [readHash_writeHash_self]
        exact nofun
      case some =>
        dsimp only
        split
        · split
          · rw [readHash_writeHash_self]
            exact nofun
          · rw [hread]
            exact nofun
        · rw [hread]
          exact nofun

theorem tellsTruth_iff_recorded : TellsTruth calls ↔ ∀ filename type,
    readHash (databaseAfter calls) type filename.val = recordsAfter calls filename type :=
  ⟨TellsTruth.recorded, fun h => ⟨h, fun filename _ type _ =>
    fileHashChanged_answer_iff <| h filename type⟩⟩

-- One call keeps the database and the records together.
theorem TellsTruth.concat {call : HashCall} (h : TellsTruth calls)
    (hpurge : ∀ path update, call = .purgeHashes path false update →
      ∀ call ∈ calls, call.filename? ≠ some path) : TellsTruth (calls ++ [call]) := by
  rw [tellsTruth_iff_recorded, databaseAfter_concat, recordsAfter_concat]
  intro filename type
  cases call
  case fileHashChanged => exact readHash_fileHashChanged h.recorded filename type
  case purgeHashes path found update' =>
    rw [HashCall.run, readHash_purgeHashes_some, h.recorded, HashRecords.after]
    cases found
    case true  => rfl
    case false =>
      rw [if_neg Bool.false_ne_true]
      by_cases hp : filename = path
      case neg => rw [update_of_ne hp]
      case pos =>
        rw [hp, update_self, recordsAfter_eq_none <| hpurge path update' rfl]

end

-- The database tells the truth all along exactly if no file that is gone has been recorded before its
-- records are purged.
theorem tellsTruth_iff (calls : List HashCall) :
    (∀ pre, pre <+: calls → TellsTruth pre) ↔ PurgesUnrecorded calls := by
  constructor
  case mp =>
    rintro h pre path update' post rfl call hcall hname
    have hpre := (h pre <| List.prefix_append ..).recorded
    have hpost := (h (pre ++ [.purgeHashes path false update']) <| by simp).recorded
    cases call
    case fileHashChanged filename digest type u =>
      cases hname
      refine readHash_databaseAfter_ne_none hcall ?_
      have := hpost path type
      rw [databaseAfter_concat, recordsAfter_concat, HashCall.run, readHash_purgeHashes_some,
        HashRecords.after, if_neg Bool.false_ne_true, update_self] at this
      exact this
    case purgeHashes => cases hname
  case mpr =>
    rintro h pre ⟨post, rfl⟩
    induction pre using List.reverseRecOn generalizing post
    case nil => exact tellsTruth_iff_recorded.mpr fun _ _ => rfl
    case append_singleton pre call ih =>
      rw [List.append_assoc] at h
      refine (ih _ h).concat fun path update' hcall => ?_
      cases hcall
      exact h pre path update' post rfl

-- The record of a file that is gone is still there after its purge.
theorem purgeHashes_keeps_record :
    ¬∀ calls path update type,
      readHash (databaseAfter <| calls ++ [.purgeHashes path false update]) type path.val = none := by
  intro h
  let path : PathName := ⟨['/', 'a'], by decide⟩
  have := h [.fileHashChanged path (fun _ => 0) .md5 false] path true .md5
  rw [databaseAfter_concat, HashCall.run, readHash_purgeHashes_some] at this
  exact readHash_databaseAfter_ne_none List.mem_cons_self this

end

end FileHashes
end CfEngine
