import Mathlib.Data.List.Basic

namespace CfEngine

-- The owners of something that is shared, in the order in which they have been attached.
structure RefCount where
  users : List Nat
  deriving DecidableEq

namespace RefCount

def new : RefCount := ⟨[]⟩

def attach (ref : RefCount) (owner : Nat) : RefCount :=
  ⟨ref.users ++ [owner]⟩

-- There is no result where the call fails.
def detach (ref : RefCount) (owner : Nat) : Option RefCount :=
  if ref.users.length ≤ 1 then
    none
  else if owner ∈ ref.users then
    some ⟨ref.users.erase owner⟩
  else
    none

def isShared (ref : RefCount) : Bool :=
  1 < ref.users.length

end RefCount

-- What the owners hold is known to the counts: the users of each are the owners that hold it.
structure Sharing (holds : Nat → Option Nat) (refCounts : Nat → RefCount) : Prop where
  mem_users : ∀ {i r}, holds i = some r → ∀ j, j ∈ (refCounts r).users ↔ holds j = some r
  nodup     : ∀ {i r}, holds i = some r → (refCounts r).users.Nodup

namespace Sharing

open Function (update)

variable {holds : Nat → Option Nat} {refCounts : Nat → RefCount} {i j r r' : Nat}

theorem isShared_iff (h : Sharing holds refCounts) (hi : holds i = some r) :
    (refCounts r).isShared = true ↔ ∃ j ≠ i, holds j = some r := by
  have hm := (h.mem_users hi i).mpr hi
  have hn := h.nodup hi
  rw [RefCount.isShared, decide_eq_true_iff]
  constructor
  case mp  =>
    intro hl
    have ⟨j, hj⟩ := List.exists_mem_of_length_pos (l := (refCounts r).users.erase i) <| by
      rw [List.length_erase_of_mem hm]
      omega
    have hj := hn.mem_erase_iff.mp hj
    exact ⟨j, hj.left, (h.mem_users hi j).mp hj.right⟩
  case mpr =>
    intro ⟨j, hne, hj⟩
    have hj := (hn.mem_erase_iff).mpr ⟨hne, (h.mem_users hi j).mpr hj⟩
    have hl := List.length_pos_of_mem hj
    rw [List.length_erase_of_mem hm] at hl
    omega

theorem update_eq_some :
    update holds i (some r) j = some r' ↔ j = i ∧ r' = r ∨ j ≠ i ∧ holds j = some r' := by
  by_cases hj : j = i
  case pos => simp [hj, eq_comm]
  case neg => simp [hj]

-- A new owner of something new.
theorem attach_new (h : Sharing holds refCounts) (hi : holds i = none) (hr : ∀ j, holds j ≠ some r) :
    Sharing (update holds i (some r)) (update refCounts r (RefCount.new.attach i)) := by
  constructor
  case mem_users =>
    intro j r' hj k
    rw [update_eq_some] at hj ⊢
    by_cases hr' : r' = r
    case pos =>
      subst hr'
      simp [RefCount.new, RefCount.attach, hr]
    case neg =>
      have ⟨hji, hj⟩ := hj.resolve_left fun h => hr' h.right
      rw [Function.update_of_ne hr', h.mem_users hj]
      have hk : holds k = some r' → k ≠ i := fun hk he => nomatch (he ▸ hk).symm.trans hi
      simp only [hr', and_false, false_or]
      exact ⟨fun h => ⟨hk h, h⟩, And.right⟩
  case nodup =>
    intro j r' hj
    rw [update_eq_some] at hj
    by_cases hr' : r' = r
    case pos =>
      subst hr'
      simp [RefCount.new, RefCount.attach]
    case neg =>
      have ⟨_, hj⟩ := hj.resolve_left fun h => hr' h.right
      rw [Function.update_of_ne hr']
      exact h.nodup hj

-- A new owner of what another one holds.
theorem attach (h : Sharing holds refCounts) (hi : holds i = none) (hj : holds j = some r) :
    Sharing (update holds i (some r)) (update refCounts r ((refCounts r).attach i)) := by
  have hne {k r'} (hk : holds k = some r') : k ≠ i := fun he => nomatch (he ▸ hk).symm.trans hi
  constructor
  case mem_users =>
    intro k r' hk l
    rw [update_eq_some] at hk ⊢
    by_cases hr' : r' = r
    case pos =>
      subst hr'
      rw [Function.update_self, RefCount.attach, List.mem_append, h.mem_users hj, List.mem_singleton]
      by_cases hl : l = i
      case pos => simp [hl]
      case neg => simp [hl]
    case neg =>
      have ⟨hki, hk⟩ := hk.resolve_left fun h => hr' h.right
      rw [Function.update_of_ne hr', h.mem_users hk]
      simp only [hr', and_false, false_or]
      exact ⟨fun h => ⟨hne h, h⟩, And.right⟩
  case nodup =>
    intro k r' hk
    rw [update_eq_some] at hk
    by_cases hr' : r' = r
    case pos =>
      subst hr'
      rw [Function.update_self, RefCount.attach, List.nodup_append]
      refine ⟨h.nodup hj, List.pairwise_singleton .., fun a ha b hb he => ?_⟩
      have ha := (h.mem_users hj a).mp ha
      exact hne ha <| he.trans <| List.mem_singleton.mp hb
    case neg =>
      have ⟨_, hk⟩ := hk.resolve_left fun h => hr' h.right
      rw [Function.update_of_ne hr']
      exact h.nodup hk

theorem detach_eq (h : Sharing holds refCounts) (hi : holds i = some r) (hs : (refCounts r).isShared = true) :
    (refCounts r).detach i = some ⟨(refCounts r).users.erase i⟩ := by
  have hm := (h.mem_users hi i).mpr hi
  have hl : ¬(refCounts r).users.length ≤ 1 := Nat.not_le.mpr <| of_decide_eq_true hs
  rw [RefCount.detach, if_neg hl, if_pos hm]

-- An owner that leaves what it shares for something new.
theorem detach (h : Sharing holds refCounts) (hi : holds i = some r) (hr : ∀ j, holds j ≠ some r')
    (hs : (refCounts r).isShared = true) : ∃ old, (refCounts r).detach i = some old ∧
    Sharing (update holds i (some r')) (update (update refCounts r old) r' (RefCount.new.attach i)) := by
  refine ⟨⟨(refCounts r).users.erase i⟩, h.detach_eq hi hs, ?_⟩
  have hne : r ≠ r' := fun he => hr i <| he ▸ hi
  constructor
  case mem_users =>
    intro j k hj l
    rw [update_eq_some] at hj ⊢
    by_cases hk : k = r'
    case pos =>
      subst hk
      simp [RefCount.new, RefCount.attach, hr]
    case neg =>
      have ⟨hji, hj⟩ := hj.resolve_left fun h => hk h.right
      rw [Function.update_of_ne hk]
      simp only [hk, and_false, false_or]
      by_cases hkr : k = r
      case pos =>
        subst hkr
        rw [Function.update_self, (h.nodup hi).mem_erase_iff, h.mem_users hi]
      case neg =>
        rw [Function.update_of_ne hkr, h.mem_users hj]
        exact ⟨fun hl => ⟨fun he => hkr <| Option.some.inj <| hl.symm.trans (he ▸ hi), hl⟩, And.right⟩
  case nodup =>
    intro j k hj
    rw [update_eq_some] at hj
    by_cases hk : k = r'
    case pos =>
      subst hk
      simp [RefCount.new, RefCount.attach]
    case neg =>
      have ⟨_, hj⟩ := hj.resolve_left fun h => hk h.right
      rw [Function.update_of_ne hk]
      by_cases hkr : k = r
      case pos =>
        subst hkr
        rw [Function.update_self]
        exact (h.nodup hi).erase i
      case neg =>
        rw [Function.update_of_ne hkr]
        exact h.nodup hj

end Sharing
end CfEngine
