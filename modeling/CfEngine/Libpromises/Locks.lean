import CfEngine.Libpromises.DbmApi

namespace CfEngine

open Function (update)

structure LockData where
  time : Int
  deriving DecidableEq

abbrev LockDB := DB LockData

def findLockTime (db : LockDB) (name : CString) : Int :=
  match db.readDB name with
  | some entry => entry.time
  | none       => -1

def writeLock (db : LockDB) (name : CString) (now : Int) : LockDB :=
  db.writeDB name ⟨now⟩

def removeLock (db : LockDB) (name : CString) : LockDB :=
  db.deleteDB name

def cfCriticalSection : CString :=
  ['C', 'F', '_', 'C', 'R', 'I', 'T', 'I', 'C', 'A', 'L', '_', 'S', 'E', 'C', 'T', 'I', 'O', 'N']

-- What is the same for all agents: the promise, which makes up the end of the names, and the times in minutes.
-- The clocks of the agents may differ.
structure LockConfig (ι : Type) where
  promise     : CString
  ifelapsed   : Int
  expireafter : Int
  skew        : ι → Int

namespace LockConfig

variable {ι : Type} (c : LockConfig ι)

def cflock : CString :=
  ['l', 'o', 'c', 'k', '.'] ++ c.promise

def cflast : CString :=
  ['l', 'a', 's', 't', '.'] ++ c.promise

end LockConfig

-- Where an agent is, by what it does to the database next. `AcquireLock` is from `waitForCriticalSection` to
-- `releaseCriticalSection`, and `YieldCurrentLock` is from `acquired` on.
inductive LockPhase
  | idle
  | waitForCriticalSection
  | writeCriticalSection
  | findLast
  | writeLast
  | findLock
  | writeFound
  | writeLock
  | releaseCriticalSection (acquired : Bool)
  | acquired
  | yielded
  deriving DecidableEq

structure LockAgent where
  phase : LockPhase
  now   : Int

structure LockSystem (ι : Type) where
  db     : LockDB
  time   : Int
  agents : ι → LockAgent

-- How `AcquireLock` goes on with the time of the last completion, and with that of the lock. The holder of a lock
-- that has expired may be one that cannot be killed.
def afterLast {ι : Type} (c : LockConfig ι) (now lastcompleted : Int) : LockPhase :=
  let elapsedtime := (now - lastcompleted).tdiv 60
  if elapsedtime < 0 then
    .releaseCriticalSection false
  else if elapsedtime < c.ifelapsed then
    .releaseCriticalSection false
  else
    .findLock

def afterLock {ι : Type} (c : LockConfig ι) (now lastcompleted : Int) : LockPhase :=
  let elapsedtime := (now - lastcompleted).tdiv 60
  if lastcompleted ≠ 0 then
    if elapsedtime ≥ c.expireafter then .writeLock else .releaseCriticalSection false
  else
    .writeLock

inductive LockStep (ι : Type)
  | tick (seconds : Nat)
  | acquireLock (agent : ι) (now : Int)
  | proceed (agent : ι)

namespace LockSystem

variable {ι : Type} [DecidableEq ι]

def clock (c : LockConfig ι) (s : LockSystem ι) (i : ι) : Int :=
  s.time + c.skew i

def phase (s : LockSystem ι) (i : ι) : LockPhase :=
  (s.agents i).phase

def goto (s : LockSystem ι) (i : ι) (phase : LockPhase) (db : LockDB) : LockSystem ι :=
  { s with db, agents := update s.agents i { s.agents i with phase } }

-- The agent's next access to the database.
def proceed (c : LockConfig ι) (s : LockSystem ι) (i : ι) : LockSystem ι :=
  let now := (s.agents i).now
  let clock := s.clock c i
  match s.phase i with
  | .idle                            => s
  | .waitForCriticalSection          =>
    let last := findLockTime s.db cfCriticalSection
    if last ≠ -1 ∧ clock - last < 60 then s else s.goto i .writeCriticalSection s.db
  | .writeCriticalSection            => s.goto i .findLast <| writeLock s.db cfCriticalSection clock
  | .findLast                        =>
    let mtime := findLockTime s.db c.cflast
    s.goto i (if mtime = -1 then .writeLast else afterLast c now mtime) s.db
  | .writeLast                       => s.goto i (afterLast c now 0) <| writeLock s.db c.cflast clock
  | .findLock                        =>
    let mtime := findLockTime s.db c.cflock
    s.goto i (if mtime = -1 then .writeFound else afterLock c now mtime) s.db
  | .writeFound                      => s.goto i (afterLock c now 0) <| writeLock s.db c.cflock clock
  | .writeLock                       => s.goto i (.releaseCriticalSection true) <| writeLock s.db c.cflock clock
  | .releaseCriticalSection acquired =>
    s.goto i (if acquired then .acquired else .idle) <| removeLock s.db cfCriticalSection
  | .acquired                        => s.goto i .yielded <| removeLock s.db c.cflock
  | .yielded                         => s.goto i .idle <| writeLock s.db c.cflast clock

-- Without a time, `AcquireLock` returns at once.
def step (c : LockConfig ι) (s : LockSystem ι) : LockStep ι → LockSystem ι
  | .tick seconds      => { s with time := s.time + seconds }
  | .acquireLock i now =>
    if now ≠ 0 ∧ s.phase i = .idle then
      { s with agents := update s.agents i ⟨.waitForCriticalSection, now⟩ }
    else
      s
  | .proceed i         => s.proceed c i

end LockSystem
end CfEngine
