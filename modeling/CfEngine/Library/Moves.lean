import Mathlib.Data.List.Nodup
import Mathlib.Logic.Function.Basic

-- Entries of a store that are replaced by others, one after the other, by calls that may fail.

structure Moves (K V : Type) where
  isOld     : K → Bool
  -- The entries that replace an old one, in the order in which they are written.
  derived   : K → V → List (K × V)
  fresh     : ∀ key value new, isOld key = true → new ∈ derived key value → isOld new.1 = false
  nodup     : ∀ key value, ((derived key value).map Prod.fst).Nodup

namespace Moves

open Function (update)

-- Which calls work: those that write entries in place of an old one, and the removal of the old one.
structure Calls (K : Type) where
  write  : K → K → Bool
  delete : K → Bool

variable {K V : Type} [DecidableEq K]

def Calls.succeed : Calls K :=
  ⟨fun _ _ => true, fun _ => true⟩

-- Whether all entries have been written, and the store.
def writeAll (works : K → Bool) : List (K × V) → (K → Option V) → Bool × (K → Option V)
  | [], store         => (true, store)
  | new :: news, store =>
    if works new.1 then writeAll works news (update store new.1 (some new.2)) else (false, store)

variable (moves : Moves K V)

-- Whether there have been no failures so far, and the store.
def step (calls : Calls K) (s : Bool × (K → Option V)) (key : K) : Bool × (K → Option V) :=
  match s.2 key with
  | none       => s
  | some value =>
    if moves.isOld key then
      let (written, store) := writeAll (calls.write key) (moves.derived key value) s.2
      if written && calls.delete key then
        (s.1, update store key none)
      else
        (false, store)
    else
      s

def run (calls : Calls K) (keys : List K) (s : Bool × (K → Option V)) : Bool × (K → Option V) :=
  keys.foldl (moves.step calls) s

-- The run comes to all old entries.
def Covers (keys : List K) (store : K → Option V) : Prop :=
  ∀ key, moves.isOld key = true → store key ≠ none → key ∈ keys

-- An entry that replaces an old one of the store.
structure Derives (store : K → Option V) (key : K) (value : V) (new : K × V) : Prop where
  old    : moves.isOld key = true
  stored : store key = some value
  mem    : new ∈ moves.derived key value

-- No two old entries are replaced by different ones under the same key.
def Consistent (store : K → Option V) : Prop :=
  ∀ ⦃key value key' value' new w w'⦄, moves.Derives store key value (new, w) →
    moves.Derives store key' value' (new, w') → w = w'

-- A run with failures can be finished by another one, and leaves no old entries if there are none.
structure Resumes (store : K → Option V) : Prop where
  resumed  : ∀ calls keys keys', moves.Covers keys store → (moves.run calls keys (true, store)).1 = false →
    moves.Covers keys' (moves.run calls keys (true, store)).2 →
    (moves.run .succeed keys' (true, (moves.run calls keys (true, store)).2)).2 =
      (moves.run .succeed keys (true, store)).2
  finished : ∀ calls keys, moves.Covers keys store → (moves.run calls keys (true, store)).1 = true →
    ∀ key, moves.isOld key = true → (moves.run calls keys (true, store)).2 key = none

-- The state of the store in the course of runs: an old entry is still there, or has been replaced by its new ones, and
-- other entries have not been changed or are new ones.
structure Between (store store' : K → Option V) : Prop where
  old   : ∀ key, moves.isOld key = true → store' key = store key ∨ store' key = none ∧
    ∀ value new w, moves.Derives store key value (new, w) → store' new = some w
  other : ∀ key, moves.isOld key = false → store' key = store key ∨
    ∃ old value w, moves.Derives store old value (key, w) ∧ store' key = some w

variable {moves} {store store' : K → Option V} {key key' : K} {value : V} {calls : Calls K} {keys keys' : List K}
  {ok : Bool} {works : K → Bool} {news : List (K × V)}

theorem writeAll_of_not_mem (h : key ∉ news.map Prod.fst) : (writeAll works news store).2 key = store key := by
  induction news generalizing store
  case nil            => rfl
  case cons new news ih =>
    have ⟨hne, h⟩ := not_or.mp <| mt List.mem_cons.mpr h
    rw [writeAll]
    split
    case isTrue  => rw [ih h, Function.update_of_ne hne]
    case isFalse => rfl

theorem writeAll_of_mem (hn : (news.map Prod.fst).Nodup) (hw : (writeAll works news store).1 = true) {w : V}
    (h : (key, w) ∈ news) : (writeAll works news store).2 key = some w := by
  induction news generalizing store
  case nil            => nomatch h
  case cons new news ih =>
    have ⟨hnot, hn⟩ := List.nodup_cons.mp hn
    rw [writeAll] at hw ⊢
    split at hw
    case isFalse => nomatch hw
    case isTrue ht =>
      rw [if_pos ht]
      cases h
      case head     => rw [writeAll_of_not_mem hnot, Function.update_self]
      case tail _ h => exact ih hn hw h

theorem writeAll_cases (key : K) : (writeAll works news store).2 key = store key ∨
    ∃ w, (key, w) ∈ news ∧ (writeAll works news store).2 key = some w := by
  induction news generalizing store
  case nil            => exact .inl rfl
  case cons new news ih =>
    rw [writeAll]
    split
    case isFalse => exact .inl rfl
    case isTrue  =>
      cases @ih (update store new.1 (some new.2))
      case inr h =>
        have ⟨w, hw, he⟩ := h
        exact .inr ⟨w, .tail _ hw, he⟩
      case inl h =>
        by_cases hk : key = new.1
        case pos => exact .inr ⟨new.2, hk ▸ .head _, by rw [h, hk, Function.update_self]⟩
        case neg => exact .inl <| by rw [h, Function.update_of_ne hk]

theorem writeAll_succeed : (writeAll (fun _ => true) news store).1 = true := by
  induction news generalizing store
  case nil         => rfl
  case cons _ _ ih => exact ih

omit [DecidableEq K] in
theorem not_mem_derived (ho : moves.isOld key = true) (ho' : moves.isOld key' = true) :
    key' ∉ (moves.derived key value).map Prod.fst := by
  intro hm
  have ⟨new, hn, he⟩ := List.mem_map.mp hm
  exact Bool.false_ne_true <| (moves.fresh key value new ho hn).symm.trans <| he ▸ ho'

omit [DecidableEq K] in
theorem Derives.ne {w : V} (h : moves.Derives store key value (key', w)) {old : K} (ho : moves.isOld old = true) :
    key' ≠ old := by
  intro he
  exact Bool.false_ne_true <| (moves.fresh _ _ _ h.old h.mem).symm.trans <| he ▸ ho

theorem step_of_none (h : store key = none) : moves.step calls (ok, store) key = (ok, store) := by
  rw [step]
  dsimp only
  rw [h]

theorem step_of_new (h : moves.isOld key = false) : moves.step calls (ok, store) key = (ok, store) := by
  rw [step]
  split
  case h_1 => rfl
  case h_2 => rw [if_neg <| h ▸ Bool.false_ne_true]

theorem step_of_old (ho : moves.isOld key = true) (h : store key = some value) :
    moves.step calls (ok, store) key =
      if (writeAll (calls.write key) (moves.derived key value) store).1 && calls.delete key then
        (ok, update (writeAll (calls.write key) (moves.derived key value) store).2 key none)
      else
        (false, (writeAll (calls.write key) (moves.derived key value) store).2) := by
  rw [step]
  dsimp only
  rw [h]
  exact if_pos ho

-- What a step may be: no step at all, or the replacement of an old entry.
theorem step_cases (moves : Moves K V) (calls : Calls K) (ok : Bool) (store : K → Option V) (key : K) :
    (moves.step calls (ok, store) key = (ok, store) ∧ (moves.isOld key = true → store key = none)) ∨
      ∃ value, moves.isOld key = true ∧ store key = some value := by
  cases h : store key
  case none       => exact .inl ⟨step_of_none h, fun _ => rfl⟩
  case some value =>
    cases ho : moves.isOld key
    case false => exact .inl ⟨step_of_new ho, nofun⟩
    case true  => exact .inr ⟨value, rfl, rfl⟩

-- A step does not touch the other old entries.
theorem step_of_ne (ho : moves.isOld key' = true) (hne : key' ≠ key) :
    (moves.step calls (ok, store) key).2 key' = store key' := by
  cases step_cases moves calls ok store key
  case inl h => rw [h.left]
  case inr h =>
    have ⟨value, hold, hs⟩ := h
    have hwrite := @writeAll_of_not_mem _ _ _ store _ (calls.write key) _ <| @not_mem_derived _ _ _ _ _ value hold ho
    rw [step_of_old hold hs]
    split
    case isTrue  => exact (Function.update_of_ne hne ..).trans hwrite
    case isFalse => exact hwrite

theorem step_none (ho : moves.isOld key' = true) (h : store key' = none) :
    (moves.step calls (ok, store) key).2 key' = none := by
  by_cases hne : key' = key
  case pos =>
    subst hne
    rw [step_of_none h]
    exact h
  case neg => rw [step_of_ne ho hne, h]

theorem step_true (h : (moves.step calls (ok, store) key).1 = true) :
    ok = true ∧ (moves.isOld key = true → (moves.step calls (ok, store) key).2 key = none) := by
  cases step_cases moves calls ok store key
  case inl hs =>
    rw [hs.left] at h ⊢
    exact ⟨h, hs.right⟩
  case inr hs =>
    have ⟨value, hold, hs⟩ := hs
    rw [step_of_old hold hs] at h ⊢
    split at h
    case isFalse     => nomatch h
    case isTrue hall =>
      rw [if_pos hall]
      exact ⟨h, fun _ => Function.update_self ..⟩

theorem Between.step (hc : moves.Consistent store) (h : moves.Between store store') :
    moves.Between store (moves.step calls (ok, store') key).2 := by
  cases step_cases moves calls ok store' key
  case inl hs => rwa [hs.left]
  case inr hs =>
    have ⟨value, hold, hs⟩ := hs
    have hstored : store key = some value := by
      cases h.old key hold
      case inl he => rw [← he, hs]
      case inr hn => nomatch hs.symm.trans hn.left
    have hderives {new} (hn : new ∈ moves.derived key value) : moves.Derives store key value new := ⟨hold, hstored, hn⟩
    generalize hr : writeAll (calls.write key) (moves.derived key value) store' = r
    have hcases (x) : r.2 x = store' x ∨ ∃ w, (x, w) ∈ moves.derived key value ∧ r.2 x = some w :=
      hr ▸ writeAll_cases x
    -- Entries that have been written before are only written again as they are.
    have hkeep {old value' new w} (hd : moves.Derives store old value' (new, w)) (he : store' new = some w) :
        r.2 new = some w := by
      cases hcases new
      case inl hu => rw [hu, he]
      case inr hw =>
        have ⟨w', hm, hw⟩ := hw
        rw [hw, hc hd (hderives hm)]
    have hother (x) (hx : moves.isOld x = false) :
        r.2 x = store x ∨ ∃ old value w, moves.Derives store old value (x, w) ∧ r.2 x = some w := by
      cases hcases x
      case inr hw =>
        have ⟨w, hm, hw⟩ := hw
        exact .inr ⟨key, value, w, hderives hm, hw⟩
      case inl hu =>
        rw [hu]
        exact h.other x hx
    have hold' (x) (hx : moves.isOld x = true) : r.2 x = store' x :=
      hr ▸ writeAll_of_not_mem (not_mem_derived hold hx)
    rw [step_of_old hold hs, hr]
    split
    case isFalse =>
      refine ⟨fun x hx => ?_, hother⟩
      rw [hold' x hx]
      exact (h.old x hx).imp_right fun ⟨hn, hw⟩ => ⟨hn, fun _ _ _ hd => hkeep hd <| hw _ _ _ hd⟩
    case isTrue hall =>
      have hwritten := (Bool.and_eq_true_iff.mp hall).left
      dsimp only
      constructor
      case old =>
        intro x hx
        by_cases hxk : x = key
        case neg =>
          rw [Function.update_of_ne hxk, hold' x hx]
          refine (h.old x hx).imp_right fun ⟨hn, hw⟩ => ⟨hn, fun _ _ _ hd => ?_⟩
          rw [Function.update_of_ne <| hd.ne hold]
          exact hkeep hd <| hw _ _ _ hd
        case pos =>
          subst hxk
          refine .inr ⟨Function.update_self .., fun value' new w hd => ?_⟩
          rw [Function.update_of_ne <| hd.ne hold]
          cases hstored.symm.trans hd.stored
          rw [← hr] at hwritten ⊢
          exact writeAll_of_mem (moves.nodup ..) hwritten hd.mem
      case other =>
        intro x hx
        have hxk : x ≠ key := fun he => Bool.false_ne_true <| hx.symm.trans <| he ▸ hold
        rw [Function.update_of_ne hxk]
        exact hother x hx

omit [DecidableEq K] in
theorem between_refl : moves.Between store store :=
  ⟨fun _ _ => .inl rfl, fun _ _ => .inl rfl⟩

theorem Between.run (hc : moves.Consistent store) (h : moves.Between store store') :
    moves.Between store (moves.run calls keys (ok, store')).2 := by
  induction keys generalizing ok store'
  case nil           => exact h
  case cons key keys ih => exact ih (h.step hc)

theorem run_none (ho : moves.isOld key = true) (h : store key = none) : (moves.run calls keys (ok, store)).2 key = none := by
  induction keys generalizing ok store
  case nil           => exact h
  case cons key keys ih => exact ih (step_none ho h)

theorem run_of_not_mem (ho : moves.isOld key = true) (h : key ∉ keys) :
    (moves.run calls keys (ok, store)).2 key = store key := by
  induction keys generalizing ok store
  case nil                => rfl
  case cons key' keys ih =>
    have ⟨hne, h⟩ := not_or.mp <| mt List.mem_cons.mpr h
    exact (ih h).trans <| step_of_ne ho hne

-- What is not an entry that replaces another one does not come up.
theorem step_absent (hnew : ∀ key value new, new ∈ moves.derived key value → new.1 ≠ key')
    (h : store key' = none) : (moves.step calls (ok, store) key).2 key' = none := by
  cases step_cases moves calls ok store key
  case inl hs => rwa [hs.left]
  case inr hs =>
    have ⟨value, hold, hs⟩ := hs
    have hwrite : (writeAll (calls.write key) (moves.derived key value) store).2 key' = none := by
      rw [writeAll_of_not_mem, h]
      intro hm
      have ⟨new, hn, he⟩ := List.mem_map.mp hm
      exact hnew key value new hn he
    rw [step_of_old hold hs]
    split
    case isFalse => exact hwrite
    case isTrue  =>
      dsimp only
      by_cases hne : key' = key
      case pos => rw [hne, Function.update_self]
      case neg => rw [Function.update_of_ne hne, hwrite]

theorem run_absent (hnew : ∀ key value new, new ∈ moves.derived key value → new.1 ≠ key')
    (h : store key' = none) : (moves.run calls keys (ok, store)).2 key' = none := by
  induction keys generalizing ok store
  case nil              => exact h
  case cons key keys ih => exact ih <| step_absent hnew h

-- Old entries are not changed as long as they are there.
theorem step_remaining (ho : moves.isOld key' = true) :
    (moves.step calls (ok, store) key).2 key' = store key' ∨ (moves.step calls (ok, store) key).2 key' = none := by
  by_cases hne : key' = key
  case neg => exact .inl <| step_of_ne ho hne
  case pos =>
    subst hne
    cases step_cases moves calls ok store key'
    case inl hs => exact .inl <| by rw [hs.left]
    case inr hs =>
      have ⟨value, hold, hs⟩ := hs
      rw [step_of_old hold hs]
      split
      case isTrue  => exact .inr <| Function.update_self ..
      case isFalse => exact .inl <| writeAll_of_not_mem <| not_mem_derived hold hold

-- A run without failures leaves none of the old entries that it comes to.
theorem run_true (h : (moves.run calls keys (ok, store)).1 = true) :
    ok = true ∧ ∀ key ∈ keys, moves.isOld key = true → (moves.run calls keys (ok, store)).2 key = none := by
  induction keys generalizing ok store
  case nil                => exact ⟨h, nofun⟩
  case cons key' keys ih =>
    have ⟨hstep, hkeys⟩ := ih h
    have ⟨hok, hkey⟩ := step_true hstep
    refine ⟨hok, fun key hk ho => ?_⟩
    cases hk
    case head      =>
      have hnone := hkey ho
      show (moves.run calls keys <| moves.step calls (ok, store) key').2 key' = none
      generalize moves.step calls (ok, store) key' = s at hnone ⊢
      exact run_none ho hnone
    case tail _ hk => exact hkeys key hk ho

theorem step_succeed : (moves.step .succeed (ok, store) key).1 = ok := by
  cases step_cases moves .succeed ok store key
  case inl hs => rw [hs.left]
  case inr hs =>
    have ⟨value, hold, hs⟩ := hs
    rw [step_of_old hold hs, if_pos]
    exact Bool.and_eq_true_iff.mpr ⟨writeAll_succeed, rfl⟩

theorem run_succeed : (moves.run .succeed keys (ok, store)).1 = ok := by
  induction keys generalizing ok store
  case nil           => rfl
  case cons key keys ih => exact ih.trans step_succeed

-- All old entries are gone after a run without failures.
theorem gone_of_covers (hcov : moves.Covers keys store) (h : (moves.run calls keys (ok, store)).1 = true)
    (ho : moves.isOld key = true) : (moves.run calls keys (ok, store)).2 key = none := by
  by_cases hn : store key = none
  case pos => exact run_none ho hn
  case neg => exact (run_true h).right key (hcov key ho hn) ho

omit [DecidableEq K] in
-- There is one store only between whose old entries are gone.
theorem Between.unique {store₁ store₂ : K → Option V} (h₁ : moves.Between store store₁) (h₂ : moves.Between store store₂)
    (hgone₁ : ∀ key, moves.isOld key = true → store₁ key = none) (hgone₂ : ∀ key, moves.isOld key = true → store₂ key = none) :
    store₁ = store₂ := by
  have hwritten {s : K → Option V} (h : moves.Between store s) (hgone : ∀ key, moves.isOld key = true → s key = none)
      {old value new w} (hd : moves.Derives store old value (new, w)) : s new = some w := by
    cases h.old old hd.old
    case inr hw => exact hw.right _ _ _ hd
    case inl he => nomatch (hgone old hd.old).symm.trans <| he.trans hd.stored
  funext key
  cases ho : moves.isOld key
  case true  => rw [hgone₁ key ho, hgone₂ key ho]
  case false =>
    by_cases hd : ∃ old value w, moves.Derives store old value (key, w)
    case pos =>
      have ⟨old, value, w, hd⟩ := hd
      rw [hwritten h₁ hgone₁ hd, hwritten h₂ hgone₂ hd]
    case neg =>
      have hsame {s : K → Option V} (h : moves.Between store s) : s key = store key :=
        (h.other key ho).resolve_right fun ⟨old, value, w, h, _⟩ => hd ⟨old, value, w, h⟩
      rw [hsame h₁, hsame h₂]

omit [DecidableEq K] in
theorem Derives.unique {w w' : V} {value' : V} {new : K} (h : moves.Derives store key value (new, w))
    (h' : moves.Derives store key value' (new, w')) : w = w' := by
  cases h.stored.symm.trans h'.stored
  have he := List.inj_on_of_nodup_map (moves.nodup key value) h.mem h'.mem rfl
  exact (Prod.mk.inj he).right

theorem run_append : moves.run calls (keys ++ keys') (ok, store) =
    moves.run calls keys' (moves.run calls keys (ok, store)) :=
  List.foldl_append ..

theorem run_skip (h : ∀ key ∈ keys, moves.isOld key = true → store key = none) :
    moves.run calls keys (ok, store) = (ok, store) := by
  induction keys
  case nil              => rfl
  case cons key keys ih =>
    have ⟨hkey, hkeys⟩ := List.forall_mem_cons.mp h
    cases step_cases moves calls ok store key
    case inl hs =>
      show moves.run calls keys (moves.step calls (ok, store) key) = (ok, store)
      rw [hs.left]
      exact ih hkeys
    case inr hs =>
      have ⟨value, hold, hs⟩ := hs
      nomatch hs.symm.trans <| hkey hold

theorem run_congr {calls' : Calls K} (h : ∀ key ∈ keys, calls.write key = calls'.write key ∧ calls.delete key = calls'.delete key) :
    moves.run calls keys (ok, store) = moves.run calls' keys (ok, store) := by
  apply List.foldl_ext
  intro s key hk
  have ⟨hw, hd⟩ := h key hk
  rw [step, step, hw, hd]

theorem step_derives {w : V} {new : K} (h : moves.Derives store key value (new, w)) :
    (moves.step .succeed (ok, store) key).2 new = some w ∧ (moves.step .succeed (ok, store) key).2 key = none := by
  have hstep : moves.step .succeed (ok, store) key =
      (ok, update (writeAll (fun _ => true) (moves.derived key value) store).2 key none) :=
    (step_of_old h.old h.stored).trans <| if_pos <| Bool.and_eq_true_iff.mpr ⟨writeAll_succeed, rfl⟩
  rw [hstep]
  constructor
  case left  =>
    apply (Function.update_of_ne (h.ne h.old) ..).trans
    exact writeAll_of_mem (moves.nodup ..) writeAll_succeed h.mem
  case right => exact Function.update_self ..

-- The calls that put something in the place of one entry fail.
def failingAt (key : K) : Calls K :=
  ⟨fun key' _ => key' ≠ key, fun _ => true⟩

theorem step_failingAt {new : K × V} (h : moves.Derives store key value new) :
    moves.step (failingAt key) (ok, store) key = (false, store) := by
  have hnone : ∀ news : List (K × V), news ≠ [] → writeAll ((failingAt key).write key) news store = (false, store) := by
    intro news hne
    cases news
    case nil         => exact absurd rfl hne
    case cons new news => exact if_neg (by simp [failingAt])
  rw [step_of_old h.old h.stored, hnone _ <| List.ne_nil_of_mem h.mem]
  rfl

-- If an entry fails, and the next one is replaced under the same key, the entry is the later one when the run is resumed.
theorem Resumes.consistent (h : moves.Resumes store) (hk : ∃ keys, moves.Covers keys store) : moves.Consistent store := by
  intro e v e' v' x w w' hd hd'
  by_cases hne : e = e'
  case pos =>
    subst hne
    exact hd.unique hd'
  case neg =>
    have ⟨keys, hcov⟩ := hk
    let others := keys.filter fun key => key ≠ e ∧ key ≠ e'
    have hothers {key} : key ∈ others ↔ key ∈ keys ∧ key ≠ e ∧ key ≠ e' := by simp [others]
    have hcov' : moves.Covers (others ++ [e, e']) store := by
      intro key ho hs
      by_cases hke : key = e ∨ key = e'
      case pos => exact List.mem_append_right _ <| by simpa using hke
      case neg => exact List.mem_append_left _ <| hothers.mpr ⟨hcov key ho hs, not_or.mp hke⟩
    -- The other entries are replaced first.
    generalize hs₀ : moves.run .succeed others (true, store) = s₀
    have hok₀ : s₀.1 = true := hs₀ ▸ run_succeed
    have hfail₀ : moves.run (failingAt e) others (true, store) = s₀ := by
      rw [← hs₀]
      apply run_congr
      intro key hkey
      have hke := (hothers.mp hkey).right.left
      exact ⟨by funext; simp [failingAt, Calls.succeed, hke], rfl⟩
    have hgone₀ : ∀ key ∈ others, moves.isOld key = true → s₀.2 key = none := fun key hkey ho =>
      hs₀ ▸ (run_true <| hs₀ ▸ hok₀).right key hkey ho
    have he₀ : s₀.2 e = some v := by
      rw [← hs₀, run_of_not_mem hd.old fun hm => (hothers.mp hm).right.left rfl, hd.stored]
    have he₀' : s₀.2 e' = some v' := by
      rw [← hs₀, run_of_not_mem hd'.old fun hm => (hothers.mp hm).right.right rfl, hd'.stored]
    obtain ⟨ok₀, d₀⟩ := s₀
    subst hok₀
    have hd₀ : moves.Derives d₀ e v (x, w) := ⟨hd.old, he₀, hd.mem⟩
    have hd₀' : moves.Derives d₀ e' v' (x, w') := ⟨hd'.old, he₀', hd'.mem⟩
    have hrun (calls) (d : K → Option V) (h : moves.run calls others (true, d) = (true, d₀)) :
        moves.run calls (others ++ [e, e']) (true, d) = moves.step calls (moves.step calls (true, d₀) e) e' := by
      rw [run_append, h]
      rfl
    have hfirst : (moves.run .succeed (others ++ [e, e']) (true, store)).2 x = some w' := by
      rw [hrun _ _ hs₀]
      have he₁ : (moves.step .succeed (true, d₀) e).2 e' = some v' := (step_of_ne hd'.old <| Ne.symm hne).trans he₀'
      generalize moves.step .succeed (true, d₀) e = s₁ at he₁ ⊢
      exact (step_derives ⟨hd'.old, he₁, hd'.mem⟩).left
    have hfailed : moves.run (failingAt e) (others ++ [e, e']) (true, store) = moves.step .succeed (false, d₀) e' := by
      rw [hrun _ _ hfail₀, step_failingAt hd₀]
      exact @run_congr _ _ _ moves d₀ (failingAt e) [e'] false .succeed fun key hkey => by
        cases List.mem_singleton.mp hkey
        exact ⟨by funext; simp [failingAt, Calls.succeed, Ne.symm hne], rfl⟩
    have hok₂ : (moves.step .succeed (false, d₀) e').1 = false := step_succeed
    have hgone₂ (key) (hkey : key ∈ others) (ho : moves.isOld key = true) : (moves.step .succeed (false, d₀) e').2 key = none :=
      step_none ho <| hgone₀ key hkey ho
    have he₂ : (moves.step .succeed (false, d₀) e').2 e = some v := (step_of_ne hd.old hne).trans he₀
    have he₂' : (moves.step .succeed (false, d₀) e').2 e' = none := (step_derives hd₀').right
    have hcov₂ : moves.Covers (others ++ [e, e']) (moves.step .succeed (false, d₀) e').2 := by
      intro key ho hs
      apply hcov' key ho
      intro hn
      apply hs
      rw [← hfailed]
      exact run_none ho hn
    have hresumed := h.resumed (failingAt e) (others ++ [e, e']) (others ++ [e, e']) hcov' (hfailed ▸ hok₂) (hfailed ▸ hcov₂)
    rw [hfailed] at hresumed
    generalize (moves.step .succeed (false, d₀) e').2 = d₂ at *
    have hsecond : (moves.run .succeed (others ++ [e, e']) (true, d₂)).2 x = some w := by
      rw [run_append, run_skip hgone₂]
      have hx := (@step_derives _ _ _ moves d₂ e v true _ _ ⟨hd.old, he₂, hd.mem⟩).left
      have hn : (moves.step .succeed (true, d₂) e).2 e' = none := step_none hd'.old he₂'
      show (moves.step .succeed (moves.step .succeed (true, d₂) e) e').2 x = some w
      generalize moves.step .succeed (true, d₂) e = s₃ at hx hn ⊢
      rw [step_of_none hn, hx]
    rw [hresumed, hfirst] at hsecond
    exact (Option.some.inj hsecond).symm

end Moves
