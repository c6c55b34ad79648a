import Mathlib.Data.List.Basic
import Mathlib.Order.Defs.Unbundled

-- The passes of a merge sort that begins with the shortest runs.

namespace BottomUp

variable {α : Type*} {less : α → α → Bool} {k : Nat} {l l' : List α}

-- No element is less than an earlier one.
def Sorted (less : α → α → Bool) (l : List α) : Prop :=
  l.Pairwise fun a b => ¬less b a

-- Each two runs of a length are merged, where the left one goes first only with what is less.
def pass (less : α → α → Bool) (k : Nat) (l : List α) : List α :=
  if l = [] ∨ k = 0 then
    l
  else
    (l.take k).merge ((l.drop k).take k) less ++ pass less k (l.drop (2 * k))
termination_by l.length
decreasing_by
  have hpos : 0 < l.length := List.length_pos_of_ne_nil (by tauto)
  rw [List.length_drop]
  omega

-- The number of the merges of a pass.
def merges (k n : Nat) : Nat :=
  (n + (2 * k - 1)) / (2 * k)

def SortedRuns (less : α → α → Bool) (k : Nat) (l : List α) : Prop :=
  ∀ i, Sorted less ((l.drop (i * k)).take k)

theorem pass_of_ne_nil (h : l ≠ []) (hk : 0 < k) :
    pass less k l = (l.take k).merge ((l.drop k).take k) less ++ pass less k (l.drop (2 * k)) := by
  rw [pass, if_neg (by simp [h]; omega)]

theorem pass_nil : pass less k [] = [] := by
  rw [pass, if_pos (.inl rfl)]

-- The list without its first two runs is shorter.
theorem pass_induction {motive : List α → Prop} (hk : 0 < k) (nil : motive [])
    (runs : ∀ l, l ≠ [] → motive (l.drop (2 * k)) → motive l) (l : List α) : motive l := by
  induction hn : l.length using Nat.strongRecOn generalizing l
  case ind n ih =>
    by_cases hl : l = []
    case pos => exact hl ▸ nil
    case neg =>
      have hpos := List.length_pos_of_ne_nil hl
      refine runs l hl <| ih _ ?_ _ rfl
      rw [List.length_drop]
      omega

theorem pass_perm (hk : 0 < k) : (pass less k l).Perm l := by
  induction l using pass_induction hk
  case nil          => rw [pass_nil]
  case runs l hl ih =>
    have hsplit : l.take k ++ ((l.drop k).take k ++ l.drop (2 * k)) = l := by
      have hdrop : l.drop (2 * k) = (l.drop k).drop k := by rw [List.drop_drop, Nat.two_mul]
      rw [hdrop, List.take_append_drop, List.take_append_drop]
    have hmerged : ((l.take k).merge ((l.drop k).take k) less ++ pass less k (l.drop (2 * k))).Perm
        ((l.take k ++ (l.drop k).take k) ++ l.drop (2 * k)) := (List.merge_perm_append _).append ih
    rw [pass_of_ne_nil hl hk]
    rwa [List.append_assoc, hsplit] at hmerged

theorem merges_succ {n : Nat} (hk : 0 < k) (hn : 0 < n) : merges k n = merges k (n - 2 * k) + 1 := by
  simp only [merges]
  by_cases h : 2 * k ≤ n
  case pos =>
    have hsum : n + (2 * k - 1) = n - 2 * k + (2 * k - 1) + 2 * k := by omega
    rw [hsum, Nat.add_div_right _ (by omega)]
  case neg =>
    have hsum : n + (2 * k - 1) = n - 1 + 2 * k := by omega
    rw [hsum, Nat.add_div_right _ (by omega), Nat.div_eq_of_lt (by omega), Nat.div_eq_of_lt (by omega)]

theorem merges_le_one_iff {n : Nat} (hk : 0 < k) : merges k n ≤ 1 ↔ n ≤ 2 * k := by
  rw [merges, ←Nat.lt_succ_iff, Nat.div_lt_iff_lt_mul (by omega)]
  omega

theorem sortedRuns_one : SortedRuns less 1 l := by
  intro i
  have hlen : ((l.drop (i * 1)).take 1).length ≤ 1 := List.length_take_le _ _
  generalize (l.drop (i * 1)).take 1 = run at hlen ⊢
  cases run
  case nil        => exact .nil
  case cons a run =>
    obtain rfl : run = [] := List.eq_nil_of_length_eq_zero <| Nat.eq_zero_of_le_zero <| Nat.le_of_succ_le_succ hlen
    exact List.pairwise_singleton _ _

theorem SortedRuns.sorted (h : SortedRuns less k l) (hl : l.length ≤ k) : Sorted less l := by
  have hfirst := h 0
  rwa [Nat.zero_mul, List.drop_zero, List.take_of_length_le hl] at hfirst

section
variable [IsStrictWeakOrder α (less · ·)]

theorem not_less_trans {a b c : α} (hab : ¬less a b) (hbc : ¬less b c) : ¬less a c := by
  intro hac
  by_cases hba : less b a
  case pos => exact hbc <| IsTrans.trans (r := (less · ·)) b a c hba hac
  case neg =>
    by_cases hcb : less c b
    case pos => exact hab <| IsTrans.trans (r := (less · ·)) a c b hac hcb
    case neg => exact (@IsStrictWeakOrder.incomp_trans α (less · ·) _ a b c ⟨hab, hba⟩ ⟨hbc, hcb⟩).left hac

theorem not_less_of_less {a b : α} (h : less a b) : ¬less b a :=
  fun hba => Std.Irrefl.irrefl (r := (less · ·)) a <| IsTrans.trans (r := (less · ·)) a b a h hba

theorem sorted_merge (hl : Sorted less l) (hl' : Sorted less l') : Sorted less (l.merge l' less) := by
  induction l generalizing l'
  case nil         => rwa [List.nil_merge]
  case cons a l ih =>
    induction l'
    case nil           => rwa [List.merge_right]
    case cons b l' ih' =>
      obtain ⟨ha, hl⟩ := List.pairwise_cons.mp hl
      obtain ⟨hb, ht⟩ := List.pairwise_cons.mp hl'
      rw [List.cons_merge_cons]
      split
      case isTrue h  =>
        refine List.pairwise_cons.mpr ⟨fun c hc => ?_, ih hl hl'⟩
        rcases List.mem_merge.mp hc with hc | hc
        · exact ha c hc
        · cases hc
          case head   => exact not_less_of_less h
          case tail hc => exact not_less_trans (hb c hc) <| not_less_of_less h
      case isFalse h =>
        refine List.pairwise_cons.mpr ⟨fun c hc => ?_, ih' ht⟩
        rcases List.mem_merge.mp hc with hc | hc
        · cases hc
          case head    => exact h
          case tail hc => exact not_less_trans (ha c hc) h
        · exact hb c hc

theorem sortedRuns_pass (hk : 0 < k) (h : SortedRuns less k l) : SortedRuns less (2 * k) (pass less k l) := by
  induction l using pass_induction hk
  case nil          =>
    intro i
    rw [pass_nil, List.drop_nil, List.take_nil]
    exact .nil
  case runs l hl ih =>
    have hmerged : Sorted less ((l.take k).merge ((l.drop k).take k) less) := by
      have hfirst := h 0
      have hsecond := h 1
      rw [Nat.zero_mul, List.drop_zero] at hfirst
      rw [Nat.one_mul] at hsecond
      exact sorted_merge hfirst hsecond
    have hrest : SortedRuns less (2 * k) (pass less k (l.drop (2 * k))) := by
      refine ih fun i => ?_
      have hrun := h (2 + i)
      rwa [List.drop_drop, ←Nat.add_mul]
    rw [pass_of_ne_nil hl hk]
    by_cases hlen : 2 * k ≤ l.length
    case pos =>
      have hlength : ((l.take k).merge ((l.drop k).take k) less).length = 2 * k := by
        rw [List.length_merge, List.length_take, List.length_take, List.length_drop]
        omega
      intro i
      cases i
      case zero   =>
        rw [Nat.zero_mul, List.drop_zero, ←hlength, List.take_left]
        exact hmerged
      case succ i =>
        have hskip : (i + 1) * (2 * k) = 2 * k + i * (2 * k) := by rw [Nat.add_mul, Nat.one_mul, Nat.add_comm]
        rw [hskip, ←List.drop_drop, ←hlength, List.drop_left, hlength]
        exact hrest i
    case neg =>
      have hnone : l.drop (2 * k) = [] := List.drop_eq_nil_of_le <| Nat.le_of_lt <| Nat.lt_of_not_le hlen
      rw [hnone, pass_nil, List.append_nil]
      exact fun i => hmerged.sublist <| (List.take_sublist _ _).trans <| List.drop_sublist _ _

end

end BottomUp
