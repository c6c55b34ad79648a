import Mathlib.Data.Fintype.Basic
import Mathlib.Tactic.Linarith
import CfEngine.Library.Run
import CfEngine.Libpromises.Locks

namespace CfEngine

open Function (update)

-- The agent has entered the critical section and has not left it.
def LockPhase.InSection : LockPhase → Prop
  | findLast | writeLast | findLock | writeFound | writeLock | releaseCriticalSection _ => True
  | idle | waitForCriticalSection | writeCriticalSection | acquired | yielded          => False

-- It has found that there is no lock.
def LockPhase.Claims : LockPhase → Prop
  | writeFound | writeLock | releaseCriticalSection true => True
  | _                                                    => False

-- The lock in the database is its own.
def LockPhase.HasWritten : LockPhase → Prop
  | releaseCriticalSection true | acquired => True
  | _                                      => False

theorem LockPhase.Claims.inSection {phase : LockPhase} (h : phase.Claims) : phase.InSection := by
  cases phase <;> trivial

def LockStep.IsPast {ι : Type} (clock : ι → Int) : LockStep ι → Prop
  | acquireLock i now => now ≤ clock i
  | _                 => True

namespace LockSystem

variable {ι : Type} [DecidableEq ι] {c : LockConfig ι} {s₀ s : LockSystem ι} {i j : ι}

-- No two agents are past `AcquireLock` with the lock.
def Exclusive (s : LockSystem ι) : Prop :=
  ∀ i j, s.phase i = .acquired → s.phase j = .acquired → i = j

-- The agents are given a time that has been, and the run is shorter than the time after which a lock expires.
def IsShort (c : LockConfig ι) (s₀ s : LockSystem ι) (op : LockStep ι) : Prop :=
  op.IsPast (s.clock c) ∧ ∀ i j, s.clock c i - s₀.clock c j < 60 * c.expireafter

-- An agent enters the critical section only while the database does not say that one is there.
def EntersAlone (s : LockSystem ι) : LockStep ι → Prop
  | .proceed i => s.phase i = .writeCriticalSection → s.db cfCriticalSection = none
  | _          => True

instance [Fintype ι] (c : LockConfig ι) (s₀ s : LockSystem ι) : (op : LockStep ι) → Decidable (IsShort c s₀ s op)
  | .tick _          => inferInstanceAs <| Decidable (True ∧ _)
  | .acquireLock _ _ => inferInstanceAs <| Decidable (_ ≤ _ ∧ _)
  | .proceed _       => inferInstanceAs <| Decidable (True ∧ _)

instance (s : LockSystem ι) : (op : LockStep ι) → Decidable (EntersAlone s op)
  | .tick _          => inferInstanceAs <| Decidable True
  | .acquireLock _ _ => inferInstanceAs <| Decidable True
  | .proceed _       => inferInstanceAs <| Decidable (_ → _)

-- There is a lock that has been written in the run.
def Locked (c : LockConfig ι) (s₀ : LockSystem ι) (db : LockDB) : Prop :=
  ∃ entry i, db c.cflock = some entry ∧ s₀.clock c i ≤ entry.time

structure Excludes (c : LockConfig ι) (s₀ s : LockSystem ι) : Prop where
  inSection : ∀ i, (s.phase i).InSection → s.db cfCriticalSection ≠ none
  alone     : ∀ i j, (s.phase i).InSection → (s.phase j).InSection → i = j
  claims    : ∀ i j, (s.phase i).Claims → s.phase j ≠ .acquired
  exclusive : s.Exclusive
  locked    : ∀ i, (s.phase i).HasWritten → Locked c s₀ s.db
  now       : ∀ i, s.phase i ≠ .idle → (s.agents i).now ≤ s.clock c i
  time      : s₀.time ≤ s.time

theorem phase_update {agent : LockAgent} {db : LockDB} :
    phase { s with db, agents := update s.agents i agent } j = if j = i then agent.phase else s.phase j := by
  simp only [LockSystem.phase, Function.update_apply]
  split <;> rfl

-- What the move of an agent has to leave as it is.
theorem Excludes.update {agent : LockAgent} {db : LockDB} (h : Excludes c s₀ s)
    (hnow : agent.phase ≠ .idle → agent.now ≤ s.clock c i)
    (hsection : agent.phase.InSection → db cfCriticalSection ≠ none ∧ ∀ j ≠ i, ¬(s.phase j).InSection)
    (hothers : ∀ j ≠ i, (s.phase j).InSection → db cfCriticalSection ≠ none)
    (hclaims : agent.phase.Claims → ∀ j ≠ i, s.phase j ≠ .acquired)
    (hacquired : agent.phase = .acquired → ∀ j ≠ i, ¬(s.phase j).Claims ∧ s.phase j ≠ .acquired)
    (hlocked : agent.phase.HasWritten ∨ (∃ j ≠ i, (s.phase j).HasWritten) → Locked c s₀ db) :
    Excludes c s₀ { s with db, agents := Function.update s.agents i agent } where
  inSection := by
    intro j hj
    rw [phase_update] at hj
    split at hj
    case isTrue      => exact (hsection hj).left
    case isFalse hji => exact hothers j hji hj
  alone     := by
    intro j k hj hk
    rw [phase_update] at hj hk
    split at hj <;> split at hk
    case isTrue.isTrue hji hki   => exact hji.trans hki.symm
    case isTrue.isFalse _ hki    => exact absurd hk <| (hsection hj).right k hki
    case isFalse.isTrue hji _    => exact absurd hj <| (hsection hk).right j hji
    case isFalse.isFalse         => exact h.alone j k hj hk
  claims    := by
    intro j k hj hk
    rw [phase_update] at hj hk
    split at hj <;> split at hk
    case isTrue.isTrue           =>
      rw [hk] at hj
      exact hj
    case isTrue.isFalse _ hki    => exact hclaims hj k hki hk
    case isFalse.isTrue hji _    => exact (hacquired hk j hji).left hj
    case isFalse.isFalse         => exact h.claims j k hj hk
  exclusive := by
    intro j k hj hk
    rw [phase_update] at hj hk
    split at hj <;> split at hk
    case isTrue.isTrue hji hki   => exact hji.trans hki.symm
    case isTrue.isFalse _ hki    => exact absurd hk (hacquired hj k hki).right
    case isFalse.isTrue hji _    => exact absurd hj (hacquired hk j hji).right
    case isFalse.isFalse         => exact h.exclusive j k hj hk
  locked    := by
    intro j hj
    apply hlocked
    rw [phase_update] at hj
    split at hj
    case isTrue      => exact .inl hj
    case isFalse hji => exact .inr ⟨j, hji, hj⟩
  now       := by
    intro j hj
    rw [phase_update] at hj
    simp only [Function.update_apply]
    split at hj
    case isTrue hji  =>
      rw [if_pos hji, hji]
      exact hnow hj
    case isFalse hji =>
      rw [if_neg hji]
      exact h.now j hj
  time      := h.time

theorem Excludes.goto {phase : LockPhase} {db : LockDB} (h : Excludes c s₀ s) (hidle : s.phase i ≠ .idle)
    (hsection : phase.InSection → db cfCriticalSection ≠ none ∧ ∀ j ≠ i, ¬(s.phase j).InSection)
    (hothers : ∀ j ≠ i, (s.phase j).InSection → db cfCriticalSection ≠ none)
    (hclaims : phase.Claims → ∀ j ≠ i, s.phase j ≠ .acquired)
    (hacquired : phase = .acquired → ∀ j ≠ i, ¬(s.phase j).Claims ∧ s.phase j ≠ .acquired)
    (hlocked : phase.HasWritten ∨ (∃ j ≠ i, (s.phase j).HasWritten) → Locked c s₀ db) :
    Excludes c s₀ (s.goto i phase db) :=
  h.update (fun _ => h.now i hidle) hsection hothers hclaims hacquired hlocked

omit [DecidableEq ι] in
theorem cflock_ne : c.cflock ≠ cfCriticalSection := by
  simp [LockConfig.cflock, cfCriticalSection]

omit [DecidableEq ι] in
theorem cflast_ne : c.cflast ≠ cfCriticalSection := by
  simp [LockConfig.cflast, cfCriticalSection]

omit [DecidableEq ι] in
theorem cflock_ne_cflast : c.cflock ≠ c.cflast := by
  simp [LockConfig.cflock, LockConfig.cflast]

omit [DecidableEq ι] in
theorem Locked.congr {db db' : LockDB} (h : Locked c s₀ db) (hdb : db' c.cflock = db c.cflock) : Locked c s₀ db' := by
  have ⟨entry, j, hentry, hj⟩ := h
  exact ⟨entry, j, hdb.trans hentry, hj⟩

theorem Excludes.others (h : Excludes c s₀ s) (hin : (s.phase i).InSection) : ∀ j ≠ i, ¬(s.phase j).InSection :=
  fun j hj hjs => hj <| h.alone j i hjs hin

theorem Excludes.clock_le (h : Excludes c s₀ s) (i : ι) : s₀.clock c i ≤ s.clock c i :=
  Int.add_le_add_right h.time _

-- A move within the critical section.
theorem Excludes.within {phase : LockPhase} {db : LockDB} (h : Excludes c s₀ s) (hin : (s.phase i).InSection)
    (hphase : phase.InSection) (hdb : db cfCriticalSection = s.db cfCriticalSection)
    (hclaims : phase.Claims → ∀ j ≠ i, s.phase j ≠ .acquired)
    (hlocked : phase.HasWritten ∨ (∃ j ≠ i, (s.phase j).HasWritten) → Locked c s₀ db) :
    Excludes c s₀ (s.goto i phase db) := by
  have hpresent : db cfCriticalSection ≠ none := hdb ▸ h.inSection i hin
  refine h.goto ?_ (fun _ => ⟨hpresent, h.others hin⟩) (fun _ _ _ => hpresent) hclaims ?_ hlocked
  case refine_1 =>
    intro hidle
    rw [hidle] at hin
    exact hin
  case refine_2 =>
    intro hacquired
    rw [hacquired] at hphase
    exact hphase.elim

-- One that does not lead to the lock, with the lock as it is.
theorem Excludes.waits {phase : LockPhase} {db : LockDB} (h : Excludes c s₀ s) (hin : (s.phase i).InSection)
    (hphase : phase.InSection) (hclaims : ¬phase.Claims) (hwritten : ¬phase.HasWritten)
    (hdb : db cfCriticalSection = s.db cfCriticalSection) (hlock : db c.cflock = s.db c.cflock) :
    Excludes c s₀ (s.goto i phase db) := by
  refine h.within hin hphase hdb (fun hc => absurd hc hclaims) fun hw => ?_
  have ⟨j, _, hj⟩ := hw.resolve_left hwritten
  exact (h.locked j hj).congr hlock

-- One that writes the lock.
theorem Excludes.writes {phase : LockPhase} (h : Excludes c s₀ s) (hin : (s.phase i).Claims)
    (hphase : phase.InSection) :
    Excludes c s₀ (s.goto i phase <| CfEngine.writeLock s.db c.cflock <| s.clock c i) :=
  h.within hin.inSection hphase (DB.writeDB_of_ne _ cflock_ne.symm) (fun _ j _ => h.claims i j hin)
    fun _ => ⟨_, i, DB.writeDB_self _, h.clock_le i⟩

omit [DecidableEq ι] in
theorem afterLast_cases (now last : Int) :
    afterLast c now last = .releaseCriticalSection false ∨ afterLast c now last = .findLock := by
  simp only [afterLast]
  split
  · exact .inl rfl
  · split
    · exact .inl rfl
    · exact .inr rfl

theorem Excludes.afterLast {db : LockDB} (h : Excludes c s₀ s) (hin : (s.phase i).InSection) (now last : Int)
    (hdb : db cfCriticalSection = s.db cfCriticalSection) (hlock : db c.cflock = s.db c.cflock) :
    Excludes c s₀ (s.goto i (afterLast c now last) db) := by
  cases afterLast_cases (c := c) now last
  case inl he => exact he ▸ h.waits hin trivial nofun nofun hdb hlock
  case inr he => exact he ▸ h.waits hin trivial nofun nofun hdb hlock

theorem tdiv_lt {t n : Int} (hn : 0 < n) (ht : t < 60 * n) : t.tdiv 60 < n := by
  cases Int.le_total 0 t
  case inl h =>
    rw [Int.tdiv_eq_ediv_of_nonneg h]
    omega
  case inr h =>
    have hneg : -(t.tdiv 60) = (-t).tdiv 60 := (Int.neg_tdiv ..).symm
    have := Int.tdiv_nonneg (a := -t) (b := 60) (by omega) (by decide)
    omega

-- An agent that holds the lock is seen by the others.
theorem Excludes.afterFindLock (h : Excludes c s₀ s) (hpositive : ∀ j, 0 < s₀.clock c j)
    (hshort : ∀ i j, s.clock c i - s₀.clock c j < 60 * c.expireafter) (hfind : s.phase i = .findLock) :
    Excludes c s₀ (s.goto i (if findLockTime s.db c.cflock = -1 then .writeFound
      else afterLock c (s.agents i).now (findLockTime s.db c.cflock)) s.db) := by
  have hin : (s.phase i).InSection := hfind ▸ trivial
  have hnow := h.now i <| hfind ▸ nofun
  have hlocked (phase : LockPhase) (hw : ¬phase.HasWritten) :
      phase.HasWritten ∨ (∃ j ≠ i, (s.phase j).HasWritten) → Locked c s₀ s.db := fun hcase =>
    have ⟨j, _, hj⟩ := hcase.resolve_left hw
    h.locked j hj
  -- The time of the lock where there is a holder.
  have htime {j} (hj : s.phase j = .acquired) : ∃ k, s₀.clock c k ≤ findLockTime s.db c.cflock := by
    have ⟨entry, k, hentry, hk⟩ := h.locked j <| hj ▸ trivial
    refine ⟨k, ?_⟩
    rw [findLockTime, DB.readDB, hentry]
    exact hk
  split
  case isTrue hnone  =>
    refine h.within hin trivial rfl (fun _ j _ hj => ?_) (hlocked _ nofun)
    have ⟨k, hk⟩ := htime hj
    have := hpositive k
    omega
  case isFalse hsome =>
    simp only [afterLock]
    split
    case isFalse hzero =>
      refine h.within hin trivial rfl (fun _ j _ hj => ?_) (hlocked _ nofun)
      have ⟨k, hk⟩ := htime hj
      have := hpositive k
      omega
    case isTrue        =>
      split
      case isFalse         => exact h.waits hin trivial nofun nofun rfl rfl
      case isTrue hexpired =>
        refine h.within hin trivial rfl (fun _ j _ hj => ?_) (hlocked _ nofun)
        have ⟨k, hk⟩ := htime hj
        have hk' := hshort i k
        have := hshort i i
        have := h.clock_le i
        have := tdiv_lt (t := (s.agents i).now - findLockTime s.db c.cflock) (n := c.expireafter) (by omega) (by omega)
        omega

theorem Excludes.proceed (h : Excludes c s₀ s) (hpositive : ∀ j, 0 < s₀.clock c j)
    (hshort : ∀ i j, s.clock c i - s₀.clock c j < 60 * c.expireafter)
    (halone : s.phase i = .writeCriticalSection → s.db cfCriticalSection = none) :
    Excludes c s₀ (s.proceed c i) := by
  have hlocked {phase : LockPhase} {db : LockDB} (hw : ¬phase.HasWritten) (hdb : db c.cflock = s.db c.cflock)
      (hcase : phase.HasWritten ∨ ∃ j ≠ i, (s.phase j).HasWritten) : Locked c s₀ db := by
    have ⟨j, _, hj⟩ := hcase.resolve_left hw
    exact (h.locked j hj).congr hdb
  rw [LockSystem.proceed]
  cases hp : s.phase i
  case idle                            => exact h
  case waitForCriticalSection          =>
    dsimp only
    split
    case isTrue  => exact h
    case isFalse =>
      exact h.goto (hp ▸ nofun) nofun (fun j _ => h.inSection j) nofun nofun (hlocked nofun rfl)
  case writeCriticalSection            =>
    have hnone := halone hp
    refine h.goto (hp ▸ nofun) (fun _ => ⟨?_, fun j _ hj => h.inSection j hj hnone⟩) (fun j _ hj => ?_) nofun nofun
      (hlocked nofun <| DB.writeDB_of_ne _ cflock_ne)
    case refine_1 =>
      rw [CfEngine.writeLock, DB.writeDB_self]
      exact nofun
    case refine_2 => exact absurd hnone <| h.inSection j hj
  case findLast                        =>
    have hin : (s.phase i).InSection := hp ▸ trivial
    dsimp only
    split
    case isTrue  => exact h.waits hin trivial nofun nofun rfl rfl
    case isFalse => exact h.afterLast hin _ _ rfl rfl
  case writeLast                       =>
    exact h.afterLast (hp ▸ trivial) _ _ (DB.writeDB_of_ne _ cflast_ne.symm) (DB.writeDB_of_ne _ cflock_ne_cflast)
  case findLock                        => exact h.afterFindLock hpositive hshort hp
  case writeFound                      => exact h.writes (hp ▸ trivial) trivial
  case writeLock                       => exact h.writes (hp ▸ trivial) trivial
  case releaseCriticalSection acquired =>
    have hin : (s.phase i).InSection := hp ▸ trivial
    have hothers := h.others hin
    have hsame : removeLock s.db cfCriticalSection c.cflock = s.db c.cflock := DB.deleteDB_of_ne _ cflock_ne
    cases acquired
    case false =>
      exact h.goto (hp ▸ nofun) nofun (fun j hj hjs => absurd hjs <| hothers j hj) nofun nofun (hlocked nofun hsame)
    case true  =>
      refine h.goto (hp ▸ nofun) nofun (fun j hj hjs => absurd hjs <| hothers j hj) nofun (fun _ j hj => ?_) fun _ => ?_
      case refine_1 => exact ⟨fun hc => hothers j hj hc.inSection, h.claims i j <| hp ▸ trivial⟩
      case refine_2 => exact (h.locked i <| hp ▸ trivial).congr hsame
  case acquired                        =>
    refine h.goto (hp ▸ nofun) nofun (fun j _ hj => ?_) nofun nofun fun hcase => ?_
    case refine_1 =>
      rw [removeLock, DB.deleteDB_of_ne _ cflock_ne.symm]
      exact h.inSection j hj
    case refine_2 =>
      -- No other agent has written the lock.
      have ⟨j, hj, hw⟩ := hcase.resolve_left nofun
      cases hpj : s.phase j <;> rw [hpj] at hw
      case acquired                          => exact absurd (h.exclusive j i hpj hp) hj
      case releaseCriticalSection acquired =>
        cases acquired
        case true  => exact absurd hp <| h.claims j i <| hpj ▸ trivial
        case false => exact hw.elim
      all_goals exact hw.elim
  case yielded                         =>
    refine h.goto (hp ▸ nofun) nofun (fun j _ hj => ?_) nofun nofun (hlocked nofun <| DB.writeDB_of_ne _ cflock_ne_cflast)
    rw [CfEngine.writeLock, DB.writeDB_of_ne _ cflast_ne.symm]
    exact h.inSection j hj

theorem Excludes.step {op : LockStep ι} (h : Excludes c s₀ s) (hpositive : ∀ j, 0 < s₀.clock c j)
    (hshort : IsShort c s₀ s op) (halone : EntersAlone s op) : Excludes c s₀ (s.step c op) := by
  cases op
  case proceed i           => exact h.proceed hpositive hshort.right <| halone
  case tick seconds        =>
    refine ⟨h.inSection, h.alone, h.claims, h.exclusive, h.locked, fun i hi => ?_, ?_⟩
    case refine_1 =>
      exact (h.now i hi).trans <| Int.add_le_add_right (Int.le_add_of_nonneg_right <| Int.natCast_nonneg _) _
    case refine_2 => exact h.time.trans <| Int.le_add_of_nonneg_right <| Int.natCast_nonneg _
  case acquireLock i now =>
    rw [LockSystem.step]
    split
    case isFalse => exact h
    case isTrue  =>
      refine h.update (fun _ => hshort.left) nofun (fun j _ => h.inSection j) nofun nofun fun hcase => ?_
      have ⟨j, _, hj⟩ := hcase.resolve_left nofun
      exact h.locked j hj

theorem excludes_of_idle (hidle : ∀ i, s.phase i = .idle) : Excludes c s s where
  inSection i hi   := by
    rw [hidle i] at hi
    exact hi.elim
  alone i _ hi     := by
    rw [hidle i] at hi
    exact hi.elim
  claims i _ hi    := by
    rw [hidle i] at hi
    exact hi.elim
  exclusive i _ hi := nomatch (hidle i).symm.trans hi
  locked i hi      := by
    rw [hidle i] at hi
    exact hi.elim
  now i hi         := absurd (hidle i) hi
  time             := Int.le_refl _

-- Reading `CF_CRITICAL_SECTION` and writing it are separate, so that agents exclude each other as long as the entry
-- that has not been found is not there either when it is written.
theorem exclusive_of_entersAlone {ops : List (LockStep ι)} (hidle : ∀ i, s₀.phase i = .idle)
    (hpositive : ∀ j, 0 < s₀.clock c j) (hshort : Run.EveryStep (IsShort c s₀) (step c) s₀ ops)
    (halone : Run.EveryStep EntersAlone (step c) s₀ ops) : Run.Always Exclusive (step c) s₀ ops := by
  have hboth := hshort.and halone
  have h := hboth.always (excludes_of_idle hidle) fun s op h hop => h.step hpositive hop.left hop.right
  exact h.imp fun _ h => h.exclusive

def quiet : LockSystem Bool :=
  ⟨fun _ => none, 1000, fun _ => ⟨.idle, 0⟩⟩

-- One agent goes through `AcquireLock` and `YieldCurrentLock`, while the other one waits.
theorem exclusive_alternating :
    let c : LockConfig Bool := ⟨['p'], 0, 5, fun i => if i then 30 else 0⟩
    Run.Always Exclusive (step c) quiet <|
      [.acquireLock true 1000, .proceed true, .proceed true, .acquireLock false 990, .proceed false, .tick 1] ++
      List.replicate 6 (.proceed true) ++ [.proceed false, .proceed true, .proceed false, .proceed true] :=
  exclusive_of_entersAlone (by decide) (by decide) (by decide +kernel) (by decide +kernel)

-- Both agents look for the critical section before one writes it, and for the lock before one writes that.
theorem not_exclusive :
    ¬∀ (c : LockConfig Bool) (s₀ : LockSystem Bool) (ops : List (LockStep Bool)),
      c.ifelapsed = 0 → (∀ i j, c.skew i - c.skew j < 60) → (∀ i, s₀.phase i = .idle) → (∀ j, 0 < s₀.clock c j) →
      Run.EveryStep (IsShort c s₀) (step c) s₀ ops → Run.Always Exclusive (step c) s₀ ops := by
  intro h
  let c : LockConfig Bool := ⟨['p'], 0, 5, fun _ => 0⟩
  let ops : List (LockStep Bool) :=
    [.acquireLock true 1000, .acquireLock false 1000, .proceed true, .proceed false, .proceed true, .proceed false,
      .proceed true, .proceed true, .proceed true, .proceed false, .proceed false,
      .proceed true, .proceed true, .proceed true, .proceed false, .proceed false, .proceed false]
  have h := h c quiet ops rfl (by decide) (by decide) (by decide) (by decide)
  exact absurd (h.last true false (by decide) (by decide)) nofun

end LockSystem
end CfEngine
