import Mathlib.Data.List.Basic
import Mathlib.Data.Set.Card
import Mathlib.Logic.Relation

-- A loop over a list to whose end it appends: an element is kept, or removed and replaced by elements
-- at the end of the list, which the loop comes to later. So the elements are visited level by level.

namespace Levels

open Relation

variable {α : Type*}

inductive Step (α : Type*)
  | keep
  | replace (items : List α)
  | stop
  deriving DecidableEq

namespace Step

def items : Step α → List α
  | replace items => items
  | keep | stop   => []

def keeps : Step α → Bool
  | keep             => true
  | replace _ | stop => false

def stops : Step α → Bool
  | stop             => true
  | keep | replace _ => false

end Step

-- The loop, where `done` are the elements it has kept and `rest` are those it has not come to. The
-- outcome is `none` if the loop has not ended after the steps that the fuel allows, and `some none` if
-- it was left at an element that stops it.
def run (step : α → Step α) : (fuel : Nat) → (done rest : List α) → Option (Option (List α))
  | 0, _, _                  => none
  | _ + 1, done, []          => some (some done)
  | fuel + 1, done, a :: rest =>
    match step a with
    | .keep          => run step fuel (done ++ [a]) rest
    | .replace items => run step fuel done (rest ++ items)
    | .stop          => some none

def next (step : α → Step α) (l : List α) : List α :=
  l.flatMap fun a => (step a).items

def level (step : α → Step α) (l : List α) : Nat → List α
  | 0     => l
  | k + 1 => level step (next step l) k

def kept (step : α → Step α) (l : List α) : List α :=
  l.filter fun a => (step a).keeps

def Refers (step : α → Step α) (a b : α) : Prop :=
  b ∈ (step a).items

def Reaches (step : α → Step α) (l : List α) (b : α) : Prop :=
  ∃ a ∈ l, ReflTransGen (Refers step) a b

-- No element that the list leads to leads back to itself.
def Acyclic (step : α → Step α) (l : List α) : Prop :=
  ∀ b, Reaches step l b → ¬TransGen (Refers step) b b

def Stops (step : α → Step α) (l : List α) : Prop :=
  ∃ b, Reaches step l b ∧ (step b).stops = true

variable {step : α → Step α} {l l' done rest later : List α} {a b : α} {k n : Nat}

section Level

@[simp]
theorem next_append : next step (l ++ l') = next step l ++ next step l' :=
  List.flatMap_append

theorem level_append : level step (l ++ l') k = level step l k ++ level step l' k := by
  induction k generalizing l l'
  case zero      => rfl
  case succ _ ih => simp [level, ih]

theorem level_cons : level step (a :: l) k = level step [a] k ++ level step l k :=
  level_append (l := [a])

@[simp]
theorem level_nil : level step [] k = [] := by
  induction k
  case zero      => rfl
  case succ _ ih => exact ih

theorem level_singleton_succ : level step [a] (k + 1) = level step (step a).items k := by
  simp [level, next]

theorem level_succ : level step l (k + 1) = next step (level step l k) := by
  induction k generalizing l
  case zero      => rfl
  case succ _ ih => exact ih

theorem level_add : level step l (k + n) = level step (level step l k) n := by
  induction n
  case zero      => rfl
  case succ n ih => rw [←Nat.add_assoc, level_succ, ih, level_succ]

theorem level_eq_nil_of_le (h : level step l k = []) (hk : k ≤ n) : level step l n = [] := by
  have ⟨m, hm⟩ := Nat.exists_eq_add_of_le hk
  rw [hm, level_add, h, level_nil]

theorem level_eq_self (h : next step l = l) : level step l k = l := by
  induction k
  case zero      => rfl
  case succ _ ih => rw [level_succ, ih, h]

theorem mem_next_iff : b ∈ next step l ↔ ∃ a ∈ l, Refers step a b :=
  List.mem_flatMap

theorem reaches_iff : Reaches step l b ↔ ∃ k, b ∈ level step l k := by
  constructor
  case mp =>
    intro ⟨a, ha, h⟩
    induction h
    case refl => exact ⟨0, ha⟩
    case tail c d _ hd ih =>
      have ⟨k, hk⟩ := ih
      exact ⟨k + 1, level_succ ▸ mem_next_iff.mpr ⟨c, hk, hd⟩⟩
  case mpr =>
    intro ⟨k, hk⟩
    induction k generalizing b
    case zero => exact ⟨b, hk, .refl⟩
    case succ k ih =>
      have ⟨c, hc, hb⟩ := mem_next_iff.mp (level_succ ▸ hk)
      have ⟨a, ha, hr⟩ := ih hc
      exact ⟨a, ha, hr.tail hb⟩

end Level

section Acyclic

theorem acc_of_level_eq_nil (h : level step l k = []) : ∀ a ∈ l, Acc (flip (Refers step)) a := by
  induction k generalizing l
  case zero => exact fun a ha => absurd (h ▸ ha : a ∈ []) List.not_mem_nil
  case succ k ih =>
    intro a ha
    exact Acc.intro a fun b hb => ih h b <| mem_next_iff.mpr ⟨a, ha, hb⟩

theorem exists_level_eq_nil_of_forall (h : ∀ a ∈ l, ∃ k, level step [a] k = []) :
    ∃ k, level step l k = [] := by
  induction l
  case nil => exact ⟨0, rfl⟩
  case cons a l ih =>
    have ⟨k, hk⟩ := h a <| List.mem_cons_self ..
    have ⟨n, hn⟩ := ih fun b hb => h b <| List.mem_cons_of_mem _ hb
    refine ⟨max k n, ?_⟩
    rw [level_cons, level_eq_nil_of_le hk (Nat.le_max_left ..),
      level_eq_nil_of_le hn (Nat.le_max_right ..), List.append_nil]

theorem exists_level_eq_nil_of_acc (h : ∀ a ∈ l, Acc (flip (Refers step)) a) :
    ∃ k, level step l k = [] := by
  apply exists_level_eq_nil_of_forall
  intro a ha
  have hacc := h a ha
  clear ha
  induction hacc
  case intro a _ ih =>
    have ⟨k, hk⟩ := exists_level_eq_nil_of_forall ih
    exact ⟨k + 1, level_singleton_succ.trans hk⟩

theorem not_transGen_self_of_acc (h : Acc (flip (Refers step)) a) : ¬TransGen (Refers step) a a := by
  induction h
  case intro a _ ih =>
    intro hc
    have ⟨b, hb, hr⟩ := TransGen.head'_iff.mp hc
    exact ih b hb <| TransGen.tail' hr hb

theorem acyclic_of_level_eq_nil (h : level step l k = []) : Acyclic step l := by
  intro b ⟨a, ha, hr⟩
  have hacc := acc_of_level_eq_nil h a ha
  clear ha
  apply not_transGen_self_of_acc
  induction hr
  case refl         => exact hacc
  case tail _ hc ih => exact ih.inv hc

-- What an element leads to becomes less with every reference that is followed, and it is part of a
-- finite set.
theorem acc_of_finite (hf : {b | ∃ a, Refers step a b}.Finite)
    (h : ∀ b, ReflTransGen (Refers step) a b → ¬TransGen (Refers step) b b) :
    Acc (flip (Refers step)) a := by
  have hsub c : {b | TransGen (Refers step) c b} ⊆ {b | ∃ a, Refers step a b} := by
    intro b hb
    have ⟨d, _, hd⟩ := TransGen.tail'_iff.mp hb
    exact ⟨d, hd⟩
  induction hn : {b | TransGen (Refers step) a b}.ncard using Nat.strong_induction_on generalizing a
  case h n ih =>
    apply Acc.intro
    intro b hb
    have hlt : {c | TransGen (Refers step) b c} ⊂ {c | TransGen (Refers step) a c} := by
      refine ⟨fun c hc => TransGen.head hb hc, fun hc => ?_⟩
      exact h b (.single hb) <| hc <| TransGen.single hb
    have hcard := Set.ncard_lt_ncard hlt <| hf.subset <| hsub a
    exact ih _ (hn ▸ hcard) (fun c hc => h c <| hc.head hb) rfl

theorem acyclic_iff (hf : {b | ∃ a, Refers step a b}.Finite) :
    Acyclic step l ↔ ∃ k, level step l k = [] := by
  constructor
  case mp =>
    intro h
    apply exists_level_eq_nil_of_acc
    intro a ha
    exact acc_of_finite hf fun b hb => h b ⟨a, ha, hb⟩
  case mpr => exact fun ⟨_, hk⟩ => acyclic_of_level_eq_nil hk

end Acyclic

section Run

-- The loop over the elements of a level takes those of the next level to the end of the list.
theorem run_level (h : ∀ a ∈ l, (step a).stops = false) :
    run step (l.length + n) done (l ++ later) =
      run step n (done ++ kept step l) (later ++ next step l) := by
  induction l generalizing done later
  case nil => simp [kept, next]
  case cons a l ih =>
    have ha := h a <| List.mem_cons_self ..
    have ih {done later} := @ih done later fun b hb => h b <| List.mem_cons_of_mem _ hb
    rw [List.length_cons, Nat.add_right_comm, List.cons_append, run]
    cases hs : step a
    case keep =>
      simp [ih, kept, next, hs, Step.keeps, Step.items]
    case replace items =>
      simp only [List.append_assoc, ih]
      simp [kept, next, hs, Step.keeps, Step.items]
    case stop => simp [hs, Step.stops] at ha

theorem run_levels (h : ∀ i < k, ∀ a ∈ level step l i, (step a).stops = false) :
    run step (((List.range k).map fun i => (level step l i).length).sum + n) [] l =
      run step n ((List.range k).flatMap fun i => kept step (level step l i)) (level step l k) := by
  induction k generalizing n
  case zero => simp [level]
  case succ k ih =>
    have ih {n} := @ih n fun i hi => h i <| Nat.lt_succ_of_lt hi
    have hl {n done} := @run_level _ step (level step l k) done [] n <| h k <| Nat.lt_succ_self k
    simp only [List.append_nil, List.nil_append] at hl
    rw [List.range_succ, List.map_append, List.sum_append, Nat.add_assoc, ih]
    simp [hl, level_succ]

theorem run_of_stops (ha : a ∈ l) (hs : (step a).stops = true) :
    ∃ n, run step n done (l ++ later) = some none := by
  induction l generalizing done later
  case nil => contradiction
  case cons b l ih =>
    cases hb : step b
    case stop => exact ⟨1, by simp [run, hb]⟩
    case keep =>
      have hne : a ≠ b := fun he => by simp [he, hb, Step.stops] at hs
      have ⟨n, hn⟩ := @ih (done ++ [b]) later <| List.mem_of_ne_of_mem hne ha
      exact ⟨n + 1, by simpa [run, hb] using hn⟩
    case replace items =>
      have hne : a ≠ b := fun he => by simp [he, hb, Step.stops] at hs
      have ⟨n, hn⟩ := @ih done (later ++ items) <| List.mem_of_ne_of_mem hne ha
      exact ⟨n + 1, by simpa [run, hb] using hn⟩

theorem run_mono {r} (h : run step n done rest = some r) : run step (n + k) done rest = some r := by
  induction n generalizing done rest
  case zero => contradiction
  case succ n ih =>
    rw [Nat.add_right_comm]
    cases rest
    case nil => exact h
    case cons a rest =>
      rw [run] at h ⊢
      cases hs : step a <;> simp only [hs] at h ⊢
      case keep    => exact ih h
      case replace => exact ih h
      case stop    => exact h

theorem run_unique {r r'} (h : run step n done rest = some r) (h' : run step k done rest = some r') :
    r = r' := by
  have hn := run_mono (k := k) h
  have hk := run_mono (k := n) h'
  rw [Nat.add_comm] at hk
  exact Option.some.inj <| hn.symm.trans hk

theorem run_eq (hk : level step l k = []) (h : ¬Stops step l) :
    ∃ n, run step n [] l = some (some <| (List.range k).flatMap fun i => kept step (level step l i)) := by
  have hs i (_ : i < k) a (ha : a ∈ level step l i) : (step a).stops = false :=
    Bool.eq_false_iff.mpr fun hs => h ⟨a, reaches_iff.mpr ⟨i, ha⟩, hs⟩
  exact ⟨_, (@run_levels _ step l k 1 hs).trans <| by rw [hk, run]⟩

theorem run_eq_none (h : Stops step l) : ∃ n, run step n [] l = some none := by
  have ⟨b, hb, hs⟩ := h
  have hex : ∃ k, ∃ b ∈ level step l k, (step b).stops = true :=
    have ⟨k, hk⟩ := reaches_iff.mp hb
    ⟨k, b, hk, hs⟩
  classical
  have ⟨c, hc, hcs⟩ := Nat.find_spec hex
  have hlt i (hi : i < Nat.find hex) a (ha : a ∈ level step l i) : (step a).stops = false :=
    Bool.eq_false_iff.mpr fun hs => Nat.find_min hex hi ⟨a, ha, hs⟩
  have ⟨n, hn⟩ := @run_of_stops _ step _ ((List.range (Nat.find hex)).flatMap fun i =>
    kept step (level step l i)) [] c hc hcs
  rw [List.append_nil] at hn
  exact ⟨_, (@run_levels _ step l (Nat.find hex) n hlt).trans hn⟩

theorem not_stops_of_run {r : List α} (h : run step n [] l = some (some r)) : ¬Stops step l := by
  intro hs
  have ⟨m, hm⟩ := run_eq_none hs
  exact absurd (run_unique hm h) nofun

-- Every level takes at least one step.
theorem run_eq_none_of_endless (h : ∀ k, level step l k ≠ []) (hs : ¬Stops step l) :
    run step n [] l = none := by
  have hlt i (_ : i < n) a (ha : a ∈ level step l i) : (step a).stops = false :=
    Bool.eq_false_iff.mpr fun hc => hs ⟨a, reaches_iff.mpr ⟨i, ha⟩, hc⟩
  have hr := @run_levels _ step l n 0 hlt
  have hle : n ≤ ((List.range n).map fun i => (level step l i).length).sum := by
    have := List.length_le_sum_of_one_le ((List.range n).map fun i => (level step l i).length) <| by
      intro i hi
      have ⟨k, _, hk⟩ := List.mem_map.mp hi
      exact hk ▸ List.length_pos_of_ne_nil (h k)
    simpa using this
  have ⟨m, hm⟩ := Nat.exists_eq_add_of_le hle
  rw [hm, Nat.add_zero, run] at hr
  cases hn : run step n [] l
  case none   => rfl
  case some r => exact absurd (run_mono hn |>.symm.trans hr) nofun

-- A level that leads to itself is not left.
theorem not_run_ends_of_next_eq (h : next step l = l) (hl : l ≠ [])
    (hs : ∀ a ∈ l, (step a).stops = false) : ¬∃ n, (run step n [] l).isSome := by
  intro ⟨n, hn⟩
  rw [run_eq_none_of_endless] at hn
  · contradiction
  · exact fun k hk => hl <| level_eq_self h |>.symm.trans hk
  · intro ⟨b, hb, hc⟩
    have ⟨k, hk⟩ := reaches_iff.mp hb
    rw [level_eq_self h] at hk
    exact absurd hc <| Bool.eq_false_iff.mp <| hs b hk

theorem run_ends_iff :
    (∃ n, (run step n [] l).isSome) ↔ (∃ k, level step l k = []) ∨ Stops step l := by
  constructor
  case mp =>
    intro ⟨n, hn⟩
    by_contra hc
    have ⟨hk, hs⟩ := not_or.mp hc
    rw [run_eq_none_of_endless (not_exists.mp hk) hs] at hn
    contradiction
  case mpr =>
    intro h
    by_cases hs : Stops step l
    case pos =>
      have ⟨n, hn⟩ := run_eq_none hs
      exact ⟨n, hn ▸ rfl⟩
    case neg =>
      have ⟨k, hk⟩ := h.resolve_right hs
      have ⟨n, hn⟩ := run_eq hk hs
      exact ⟨n, hn ▸ rfl⟩

end Run

section InPlace

-- The list where every element that is replaced gives way to its items, in its place. Each element of
-- the outcome comes with the number of replacements that it is due to.
inductive InPlace (step : α → Step α) : Nat → List α → List (α × Nat) → Prop
  | nil {d} : InPlace step d [] []
  | keep {d a l out} : (∀ items, step a ≠ .replace items) → InPlace step d l out →
    InPlace step d (a :: l) ((a, d) :: out)
  | replace {d a l items out out'} : step a = .replace items → InPlace step (d + 1) items out →
    InPlace step d l out' → InPlace step d (a :: l) (out ++ out')

def atDepth (out : List (α × Nat)) (d : Nat) : List α :=
  out.filter (·.2 = d) |>.map Prod.fst

-- The elements in the order of their depths, where those of one depth keep their order.
def byDepth (out : List (α × Nat)) : List α :=
  (List.range <| out.foldr (fun x n => max (x.2 + 1) n) 0).flatMap <| atDepth out

variable {d : Nat} {out out' : List (α × Nat)}

theorem InPlace.of_keep (ha : step a = .keep) (h : InPlace step d l out) :
    InPlace step d (a :: l) ((a, d) :: out) :=
  .keep (by simp [ha]) h

theorem InPlace.unique (h : InPlace step d l out) (h' : InPlace step d l out') : out = out' := by
  induction h generalizing out'
  case nil => cases h'; rfl
  case keep hk _ ih =>
    cases h' with
    | keep _ h'       => rw [ih h']
    | replace hr _ _ => exact absurd hr <| hk _
  case replace hr _ _ ih₁ ih₂ =>
    cases h' with
    | keep hk _ => exact absurd hr <| hk _
    | replace hr' h₁ h₂ =>
      cases Step.replace.inj <| hr.symm.trans hr'
      rw [ih₁ h₁, ih₂ h₂]

theorem exists_inPlace (hk : level step l k = []) : ∃ out, InPlace step d l out := by
  induction k generalizing l d
  case zero =>
    cases hk
    exact ⟨[], .nil⟩
  case succ k ih =>
    induction l
    case nil => exact ⟨[], .nil⟩
    case cons a l ihl =>
      rw [level_cons, level_singleton_succ, List.append_eq_nil_iff] at hk
      have ⟨out', h'⟩ := ihl hk.right
      cases hs : step a
      case keep => exact ⟨(a, d) :: out', .keep (by simp [hs]) h'⟩
      case stop => exact ⟨(a, d) :: out', .keep (by simp [hs]) h'⟩
      case replace items =>
        rw [hs] at hk
        have ⟨out, h⟩ := @ih items (d + 1) hk.left
        exact ⟨out ++ out', .replace hs h h'⟩

theorem InPlace.le_depth (h : InPlace step d l out) : ∀ x ∈ out, d ≤ x.2 := by
  induction h
  case nil          => simp
  case keep hk _ ih => simpa using ih
  case replace ih₁ ih₂ =>
    intro x hx
    cases List.mem_append.mp hx
    case inl hx => exact Nat.le_of_succ_le <| ih₁ x hx
    case inr hx => exact ih₂ x hx

theorem atDepth_append : atDepth (out ++ out') d = atDepth out d ++ atDepth out' d := by
  simp [atDepth]

theorem atDepth_eq_nil_iff : atDepth out d = [] ↔ ∀ x ∈ out, x.2 ≠ d := by
  simp [atDepth]

theorem Stops.of_cons (h : Stops step l) : Stops step (a :: l) :=
  have ⟨b, ⟨c, hc, hr⟩, hs⟩ := h
  ⟨b, ⟨c, List.mem_cons_of_mem _ hc, hr⟩, hs⟩

theorem Stops.of_items (h : Stops step (step a).items) : Stops step (a :: l) :=
  have ⟨b, ⟨_, hc, hr⟩, hs⟩ := h
  ⟨b, ⟨a, List.mem_cons_self .., hr.head hc⟩, hs⟩

-- The elements of the levels are those of the outcome in place with the same depth.
theorem InPlace.kept_level (h : InPlace step d l out) (hs : ¬Stops step l) :
    kept step (level step l k) = atDepth out (d + k) := by
  induction h generalizing k
  case nil => simp [kept, atDepth]
  case keep d a l out hk _ ih =>
    have ih := @ih k <| mt Stops.of_cons hs
    have ha : step a = .keep := by
      cases ha : step a
      case keep    => rfl
      case replace => exact absurd ha <| hk _
      case stop    => exact absurd ⟨a, ⟨a, List.mem_cons_self .., .refl⟩, by simp [ha, Step.stops]⟩ hs
    rw [level_cons, kept, List.filter_append, ←kept, ←kept, ih]
    cases k
    case zero   => simp [level, kept, atDepth, ha, Step.keeps]
    case succ k => simp [level_singleton_succ, kept, atDepth, ha, Step.items]
  case replace d a l items out out' hr h _ ih₁ ih₂ =>
    have ih₂ := @ih₂ k <| mt Stops.of_cons hs
    rw [level_cons, kept, List.filter_append, ←kept, ←kept, ih₂, atDepth_append]
    congr 1
    cases k
    case zero =>
      have hd : atDepth out d = [] :=
        atDepth_eq_nil_iff.mpr fun x hx he => absurd (h.le_depth x hx) (by omega)
      simp [level, kept, hr, Step.keeps, hd]
    case succ k =>
      have ih₁ := @ih₁ k fun hc => hs <| Stops.of_items (hr ▸ hc)
      rw [level_singleton_succ, hr, Step.items, ih₁, Nat.add_right_comm, Nat.add_assoc]

theorem lt_foldr_max_iff {f : α × Nat → Nat} :
    k < out.foldr (fun x n => max (f x) n) 0 ↔ ∃ x ∈ out, k < f x := by
  induction out
  case nil           => simp
  case cons _ _ ih => simp [ih]

theorem flatMap_range_eq_of_le {f : Nat → List α} (hn : k ≤ n) (h : ∀ i, k ≤ i → f i = []) :
    (List.range n).flatMap f = (List.range k).flatMap f := by
  induction n, hn using Nat.le_induction
  case base            => rfl
  case succ n hkn ih => rw [List.range_succ, List.flatMap_append, ih]; simp [h n hkn]

theorem byDepth_eq (h : ∀ i, k ≤ i → atDepth out i = []) :
    byDepth out = (List.range k).flatMap (atDepth out) := by
  have hle : out.foldr (fun x n => max (x.2 + 1) n) 0 ≤ k := by
    by_contra hc
    have ⟨x, hx, hk⟩ := lt_foldr_max_iff.mp <| Nat.lt_of_not_le hc
    exact atDepth_eq_nil_iff.mp (h x.2 <| Nat.le_of_lt_succ hk) x hx rfl
  refine (flatMap_range_eq_of_le hle fun i hi => atDepth_eq_nil_iff.mpr fun x hx he => ?_).symm
  exact absurd (lt_foldr_max_iff.mpr ⟨x, hx, Nat.lt_succ_self _⟩) (Nat.not_lt.mpr <| he ▸ hi)

theorem filter_lt_append_filter_eq (hp : out.Pairwise (·.2 ≤ ·.2)) (h : ∀ x ∈ out, x.2 ≤ k) :
    out.filter (·.2 < k) ++ out.filter (·.2 = k) = out := by
  induction out
  case nil => rfl
  case cons x out ih =>
    have ⟨hx, hp⟩ := List.pairwise_cons.mp hp
    have ih := ih hp fun y hy => h y <| List.mem_cons_of_mem _ hy
    cases Nat.lt_or_eq_of_le <| h x <| List.mem_cons_self ..
    case inl hlt =>
      have hne : x.2 ≠ k := Nat.ne_of_lt hlt
      simpa [hlt, hne] using ih
    case inr he =>
      have hnil : out.filter (·.2 < k) = [] := by
        simpa using fun a b hy => he ▸ hx (a, b) hy
      rw [hnil, List.nil_append] at ih
      have hlt : ¬x.2 < k := Nat.not_lt.mpr <| Nat.le_of_eq he.symm
      simp only [List.filter_cons, hlt, he, hnil, decide_false, decide_true, ih]
      simp

theorem flatMap_atDepth_of_ascending (hp : out.Pairwise (·.2 ≤ ·.2)) (h : ∀ x ∈ out, x.2 < k) :
    (List.range k).flatMap (atDepth out) = out.map Prod.fst := by
  induction k generalizing out
  case zero =>
    have hnil := List.eq_nil_iff_forall_not_mem.mpr fun x hx => absurd (h x hx) <| Nat.not_lt_zero _
    simp [hnil]
  case succ k ih =>
    have hf := ih (hp.filter (·.2 < k)) (by simp)
    have hlow i (hi : i ∈ List.range k) : atDepth (out.filter (·.2 < k)) i = atDepth out i := by
      have hi := List.mem_range.mp hi
      simp only [atDepth, List.filter_filter]
      congr 2
      ext x
      by_cases hx : x.2 = i <;> simp [hx, hi]
    have hk := filter_lt_append_filter_eq hp fun x hx => Nat.le_of_lt_succ <| h x hx
    rw [List.flatMap_congr hlow] at hf
    rw [List.range_succ, List.flatMap_append, hf]
    simp only [List.flatMap_singleton, atDepth, ←List.map_append, hk]

-- If no element stands before one of smaller depth, the order by depth is that in place.
theorem byDepth_of_ascending (hp : out.Pairwise (·.2 ≤ ·.2)) : byDepth out = out.map Prod.fst :=
  flatMap_atDepth_of_ascending hp fun x hx => lt_foldr_max_iff.mpr ⟨x, hx, Nat.lt_succ_self _⟩

-- The loop yields the elements of the outcome in place by depth.
theorem InPlace.run_eq (h : InPlace step 0 l out) (hk : level step l k = []) (hs : ¬Stops step l) :
    ∃ n, run step n [] l = some (some <| byDepth out) := by
  have ⟨n, hn⟩ := Levels.run_eq hk hs
  have hl i : kept step (level step l i) = atDepth out i := by simpa using h.kept_level (k := i) hs
  simp only [hl] at hn
  rw [byDepth_eq]
  · exact ⟨n, hn⟩
  · intro i hi
    rw [←hl, level_eq_nil_of_le hk hi]
    rfl

end InPlace

end Levels
