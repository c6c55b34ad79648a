import Mathlib.Data.List.Basic
import Mathlib.Logic.Relation
import Mathlib.Tactic.IntervalCases

-- Texts as sequences of lines, each of them with a newline at its end.

namespace Lines

variable {line text rest : List Char} {lines lines' : List (List Char)}

def unlines (lines : List (List Char)) : List Char :=
  lines.flatMap (· ++ ['\n'])

@[simp]
theorem unlines_nil : unlines [] = [] :=
  rfl

@[simp]
theorem unlines_cons : unlines (line :: lines) = line ++ '\n' :: unlines lines := by
  simp [unlines]

@[simp]
theorem unlines_append : unlines (lines ++ lines') = unlines lines ++ unlines lines' :=
  List.flatMap_append

-- A line ends at the first newline.
theorem append_newline_inj {line' rest' : List Char} (h : '\n' ∉ line) (h' : '\n' ∉ line')
    (he : line ++ '\n' :: rest = line' ++ '\n' :: rest') : line = line' ∧ rest = rest' := by
  induction line generalizing line'
  case nil =>
    rcases line' with _ | ⟨c, line'⟩
    · exact ⟨rfl, (List.cons.inj he).2⟩
    · exact absurd ((List.cons.inj he).1 ▸ List.mem_cons_self) h'
  case cons c line ih =>
    rcases line' with _ | ⟨c', line'⟩
    · exact absurd ((List.cons.inj he).1 ▸ List.mem_cons_self) h
    · obtain ⟨rfl, hrest⟩ := List.cons.inj he
      have := ih (h <| List.mem_cons_of_mem _ ·) (h' <| List.mem_cons_of_mem _ ·) hrest
      exact ⟨congrArg _ this.1, this.2⟩

-- A text is taken apart line by line. What comes after the last newline may be missing.
theorem line_induction {motive : List Char → Prop} (nil : motive [])
    (last : ∀ line, line ≠ [] → '\n' ∉ line → motive line)
    (line : ∀ line rest, '\n' ∉ line → motive rest → motive (line ++ '\n' :: rest))
    (text : List Char) : motive text := by
  induction hn : text.length using Nat.strongRecOn generalizing text
  case ind n ih =>
    by_cases hnl : '\n' ∈ text
    case neg =>
      by_cases ht : text = []
      case pos => exact ht ▸ nil
      case neg => exact last text ht hnl
    case pos =>
      obtain ⟨pre, rest, rfl, hpre⟩ := List.eq_append_cons_of_mem hnl
      refine line pre rest hpre <| ih rest.length ?_ rest rfl
      simp at hn
      omega

end Lines

-- Fields that are written one after the other without separators.

namespace Boundaries

variable {α : Type*}

-- The boundary between two adjacent fields moves by one element, or an empty field is dropped.
inductive Shift : List (List α) → List (List α) → Prop
  | move (before after : List (List α)) (a b : List α) (x : α) :
    Shift (before ++ (a ++ [x]) :: b :: after) (before ++ a :: (x :: b) :: after)
  | drop (before after : List (List α)) : Shift (before ++ [] :: after) (before ++ after)

-- Boundaries between the fields of the one make up the other.
def Shifted : List (List α) → List (List α) → Prop :=
  Relation.EqvGen Shift

theorem Shifted.refl (l : List (List α)) : Shifted l l :=
  Relation.EqvGen.refl l

theorem Shifted.symm {l l' : List (List α)} (h : Shifted l l') : Shifted l' l :=
  Relation.EqvGen.symm _ _ h

theorem Shifted.trans {l l' l'' : List (List α)} (h : Shifted l l') (h' : Shifted l' l'') : Shifted l l'' :=
  Relation.EqvGen.trans _ _ _ h h'

end Boundaries

-- Machines that read a text of numerals with separators, one character after the other.

namespace Fields

-- The fields with the separator after each of them.
def terminated (sep : Char) (fields : List (List Char)) : List Char :=
  fields.flatMap (· ++ [sep])

theorem terminated_concat {sep : Char} {fields : List (List Char)} {f : List Char} :
    terminated sep (fields ++ [f]) = terminated sep fields ++ (f ++ [sep]) := by
  rw [terminated, List.flatMap_append, List.flatMap_singleton]
  rfl

theorem intercalate_concat {sep : Char} {fields : List (List Char)} {f : List Char} :
    [sep].intercalate (fields ++ [f]) = terminated sep fields ++ f := by
  induction fields
  case nil              => exact List.intercalate_singleton
  case cons e fields ih =>
    have hne : fields ++ [f] ≠ [] := List.append_ne_nil_of_right_ne_nil _ (List.cons_ne_nil _ _)
    have ⟨g, gs, hg⟩ := List.exists_cons_of_ne_nil hne
    rw [List.cons_append, hg, List.intercalate_cons_cons, ←hg, ih]
    exact (List.append_assoc ..).symm

-- The first separator.
theorem append_cons_inj {α : Type*} {x : α} {as bs us vs : List α} (ha : x ∉ as) (hb : x ∉ bs)
    (h : as ++ x :: us = bs ++ x :: vs) : as = bs ∧ us = vs := by
  induction as generalizing bs
  case nil          =>
    cases bs
    case nil       => exact ⟨rfl, (List.cons.inj h).right⟩
    case cons b bs => exact absurd ((List.cons.inj h).left ▸ List.mem_cons_self) hb
  case cons a as ih =>
    cases bs
    case nil       => exact absurd ((List.cons.inj h).left ▸ List.mem_cons_self) ha
    case cons b bs =>
      have ⟨he, h⟩ := List.cons.inj h
      have ⟨hab, huv⟩ := ih (fun hm => ha <| List.mem_cons_of_mem _ hm) (fun hm => hb <| List.mem_cons_of_mem _ hm) h
      exact ⟨by rw [he, hab], huv⟩

section
variable {σ : Type*} {step : σ → Char → Option σ} {b max n : Nat}

theorem mem_toDigits (hb : 1 < b) {c : Char} (h : c ∈ Nat.toDigits b n) : ∃ d < b, c = d.digitChar := by
  induction n using Nat.strongRecOn
  case ind n ih =>
    rw [Nat.toDigits_eq_if hb] at h
    split at h
    case isTrue hlt  => exact ⟨n, hlt, List.mem_singleton.mp h⟩
    case isFalse hge =>
      cases List.mem_append.mp h
      case inl hm => exact ih _ (Nat.div_lt_self (by omega) hb) hm
      case inr hm => exact ⟨n % b, Nat.mod_lt _ (by omega), List.mem_singleton.mp hm⟩

-- The states `reading v k` have read `k` digits of a numeral with the value `v`.
theorem foldlM_toDigits (hb : 1 < b) {reading : Nat → Nat → σ}
    (hdigit : ∀ v k d, d < b → v * b + d ≤ max → step (reading v k) d.digitChar = some (reading (v * b + d) (k + 1)))
    (hn : n ≤ max) : (Nat.toDigits b n).foldlM step (reading 0 0) = some (reading n (Nat.toDigits b n).length) := by
  induction n using Nat.strongRecOn
  case ind n ih =>
    rw [Nat.toDigits_eq_if hb]
    split
    case isTrue hlt  =>
      have hread := hdigit 0 0 n hlt (by omega)
      rw [Nat.zero_mul, Nat.zero_add] at hread
      simp [hread]
    case isFalse hge =>
      have hdiv : n / b < n := Nat.div_lt_self (by omega) hb
      have hmod := Nat.div_add_mod' n b
      have hread := hdigit (n / b) (Nat.toDigits b (n / b)).length (n % b) (Nat.mod_lt _ (by omega)) (by omega)
      rw [hmod] at hread
      rw [List.foldlM_append, ih _ hdiv (by omega)]
      simp [hread]

end

section
variable {σ α β : Type*} {step : σ → Char → Option σ} {finish : σ → Option β} {b max last : Nat} {sep : Char}
  {reading : Nat → α → Nat → Nat → σ} {store : α → Nat → Nat → α} {result : α → β}

-- The values are stored one after the other.
def storeFrom (store : α → Nat → Nat → α) : α → Nat → List Nat → α
  | a, _, []      => a
  | a, i, v :: vs => storeFrom store (store a i v) (i + 1) vs

-- A machine for numbers with a separator after each of them but the last one. What is read of the number `i` is in
-- the state `reading i`.
structure Reads (step : σ → Char → Option σ) (finish : σ → Option β) (b max last : Nat) (sep : Char)
    (reading : Nat → α → Nat → Nat → σ) (store : α → Nat → Nat → α) (result : α → β) : Prop where
  base      : 1 < b
  digit     : ∀ i a v k d, i ≤ last → d < b → v * b + d ≤ max →
    step (reading i a v k) d.digitChar = some (reading i a (v * b + d) (k + 1))
  separator : ∀ i a v k, i < last → v ≤ max → 0 < k → step (reading i a v k) sep = some (reading (i + 1) (store a i v) 0 0)
  finishes  : ∀ a v k, v ≤ max → 0 < k → finish (reading last a v k) = some (result (store a last v))

theorem Reads.foldlM_eq (h : Reads step finish b max last sep reading store result) {vs : List Nat} {i : Nat} {a : α}
    (hlast : i + vs.length = last + 1) (hne : vs ≠ []) (hmax : ∀ v ∈ vs, v ≤ max) :
    (([sep].intercalate <| vs.map (Nat.toDigits b)).foldlM step (reading i a 0 0)).bind finish =
      some (result (storeFrom store a i vs)) := by
  induction vs generalizing i a
  case nil          => exact absurd rfl hne
  case cons v vs ih =>
    have hv := hmax v List.mem_cons_self
    have hi : i ≤ last := by
      rw [List.length_cons] at hlast
      omega
    have hread := foldlM_toDigits h.base (fun v k d => h.digit i a v k d hi) hv
    have hlen : 0 < (Nat.toDigits b v).length := Nat.length_toDigits_pos
    cases vs
    case nil       =>
      cases show i = last from Nat.succ.inj hlast
      rw [List.map_singleton, List.intercalate_singleton, hread, Option.bind_some, h.finishes a v _ hv hlen]
      rfl
    case cons w vs =>
      have hlt : i < last := by
        simp only [List.length_cons] at hlast
        omega
      have ih := @ih (i + 1) (store a i v) (by simp only [List.length_cons] at hlast ⊢; omega) nofun
        fun u hu => hmax u <| List.mem_cons_of_mem _ hu
      rw [List.map_cons, List.map_cons, List.intercalate_cons_cons, List.foldlM_append, List.foldlM_append, hread]
      simp only [Option.bind_eq_bind, Option.bind_some, List.foldlM_cons, List.foldlM_nil, h.separator i a v _ hlt hv hlen]
      rw [List.map_cons] at ih
      exact ih

end

theorem storeFrom_comm {α β : Type*} {store : α → Nat → Nat → α} {store' : β → Nat → Nat → β} {f : α → β}
    (h : ∀ a i v, store' (f a) i v = f (store a i v)) {a : α} {i : Nat} {vs : List Nat} :
    storeFrom store' (f a) i vs = f (storeFrom store a i vs) := by
  induction vs generalizing a i
  case nil          => rfl
  case cons v vs ih => rw [storeFrom, storeFrom, h, ih]

theorem storeFrom_getElem {α : Type*} {m : Nat} {f : Nat → α} {a : Vector α m} {i : Nat} {vs : List Nat} {j : Nat}
    (hj : j < m) :
    (storeFrom (fun a i v => a.setIfInBounds i (f v)) a i vs)[j] =
      if i ≤ j then (vs[j - i]?.map f).getD a[j] else a[j] := by
  induction vs generalizing a i
  case nil          => simp [storeFrom]
  case cons v vs ih =>
    rw [storeFrom, ih]
    by_cases hij : i = j
    case pos => simp [hij, hj]
    case neg =>
      by_cases hle : i ≤ j
      case pos =>
        have hsucc : j - i = j - (i + 1) + 1 := by omega
        simp [hle, hij, show i + 1 ≤ j by omega, hsucc]
      case neg => simp [hle, hij, show ¬i + 1 ≤ j by omega]

-- What is stored from the first place on is all that is there.
theorem storeFrom_eq {α : Type*} {m : Nat} {f : Nat → α} {a b : Vector α m} {g : α → Nat} (hfg : ∀ x, f (g x) = x) :
    storeFrom (fun a i v => a.setIfInBounds i (f v)) a 0 (b.toList.map g) = b := by
  refine Vector.ext fun j hj => ?_
  rw [storeFrom_getElem hj]
  simp [hfg, hj]

end Fields
