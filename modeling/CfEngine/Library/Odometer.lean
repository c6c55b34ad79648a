import Mathlib.Data.List.Nodup
import Mathlib.Data.List.Forall2

-- Odometers: rows of wheels of which the first one turns fastest, and each turns on when the wheel
-- before it has come to a full revolution.

namespace Odometer

variable {α β σ : Type*}

-- A wheel with the item it is at, the items that come after this one until the end of the
-- revolution, and the items of a full revolution.
structure Wheel (α : Type*) where
  current : α
  rest    : List α
  first   : α
  others  : List α

namespace Wheel

def start (first : α) (others : List α) : Wheel α where
  current := first
  rest    := others
  first   := first
  others  := others

def reset (w : Wheel α) : Wheel α :=
  start w.first w.others

def items (w : Wheel α) : List α :=
  w.first :: w.others

end Wheel

def current (ws : List (Wheel α)) : List α :=
  ws.map Wheel.current

-- The combinations of the items of the lists, in the order of an odometer.
def tuples : List (List α) → List (List α)
  | []      => [[]]
  | l :: ls => (tuples ls).flatMap fun t => l.map (· :: t)

def next : List (Wheel α) → Option (List (Wheel α))
  | []      => none
  | w :: ws =>
    match w.rest with
    | x :: rest => some <| { w with current := x, rest } :: ws
    | []        => (next ws).map (w.reset :: ·)

-- The combinations that come after the current one.
def later : List (Wheel α) → List (List α)
  | []      => []
  | w :: ws => w.rest.map (· :: current ws) ++ (later ws).flatMap fun t => w.items.map (· :: t)

section

variable {ws ws' : List (Wheel α)}

theorem later_of_next_eq_none (h : next ws = none) : later ws = [] := by
  induction ws
  case nil => rfl
  case cons w ws ih =>
    cases hr : w.rest
    case nil =>
      simp only [next, hr, Option.map_eq_none_iff] at h
      simp [later, hr, ih h]
    case cons => simp [next, hr] at h

theorem later_of_next_eq_some (h : next ws = some ws') : later ws = current ws' :: later ws' := by
  induction ws generalizing ws'
  case nil => simp [next] at h
  case cons w ws ih =>
    cases hr : w.rest
    case nil =>
      simp only [next, hr, Option.map_eq_some_iff] at h
      have ⟨vs, hn, he⟩ := h
      subst he
      simp [later, hr, ih hn, current, Wheel.reset, Wheel.start, Wheel.items]
    case cons x rest =>
      simp only [next, hr, Option.some.injEq] at h
      subst h
      simp [later, hr, current, Wheel.items]

theorem rest_eq_nil_of_next_eq_none (h : next ws = none) : ∀ w ∈ ws, w.rest = [] := by
  induction ws
  case nil          => nofun
  case cons w ws ih =>
    cases hr : w.rest
    case cons => simp [next, hr] at h
    case nil  =>
      simp only [next, hr, Option.map_eq_none_iff] at h
      exact List.forall_mem_cons.mpr ⟨hr, ih h⟩

theorem exists_wheels {ls : List (List α)} (h : ∀ l ∈ ls, l ≠ []) :
    ∃ ws : List (Wheel α), ws.map Wheel.items = ls ∧ ∀ w ∈ ws, w = w.reset := by
  induction ls
  case nil          => exact ⟨[], rfl, nofun⟩
  case cons l ls ih =>
    have ⟨hl, hls⟩ := List.forall_mem_cons.mp h
    obtain ⟨ws, rfl, hws⟩ := ih hls
    obtain ⟨x, l, rfl⟩ := List.exists_cons_of_ne_nil hl
    exact ⟨.start x l :: ws, rfl, List.forall_mem_cons.mpr ⟨rfl, hws⟩⟩

theorem tuples_eq_of_start (h : ∀ w ∈ ws, w = w.reset) :
    tuples (ws.map Wheel.items) = current ws :: later ws := by
  induction ws
  case nil => rfl
  case cons w ws ih =>
    have hw := h w List.mem_cons_self
    have ih := ih fun v hv => h v <| List.mem_cons_of_mem _ hv
    rw [hw]
    simp [tuples, ih, later, current, Wheel.reset, Wheel.start, Wheel.items]

end

theorem mem_tuples {ls : List (List α)} {t : List α} :
    t ∈ tuples ls ↔ List.Forall₂ (· ∈ ·) t ls := by
  induction ls generalizing t
  case nil => simp [tuples]
  case cons l ls ih =>
    simp only [tuples, List.mem_flatMap, List.mem_map, ih, List.forall₂_cons_right_iff]
    constructor
    case mp  => exact fun ⟨u, hu, x, hx, h⟩ => ⟨x, u, hx, hu, h.symm⟩
    case mpr => exact fun ⟨x, u, hx, hu, h⟩ => ⟨u, hu, x, hx, h.symm⟩

theorem tuples_eq_nil {ls : List (List α)} (h : [] ∈ ls) : tuples ls = [] := by
  induction ls
  case nil => contradiction
  case cons l ls ih =>
    cases List.mem_cons.mp h
    case inl h => simp [tuples, ←h]
    case inr h => simp [tuples, ih h]

theorem tuples_ne_nil {ls : List (List α)} (h : ∀ l ∈ ls, l ≠ []) : tuples ls ≠ [] := by
  induction ls
  case nil          => exact List.cons_ne_nil _ _
  case cons l ls ih =>
    have ⟨hl, hls⟩ := List.forall_mem_cons.mp h
    obtain ⟨t, ht⟩ := List.exists_mem_of_ne_nil _ <| ih hls
    obtain ⟨x, hx⟩ := List.exists_mem_of_ne_nil _ hl
    exact List.ne_nil_of_mem <| mem_tuples.mpr <| .cons hx <| mem_tuples.mp ht

theorem exists_mem_of_mem_tuples {ls : List (List α)} {t : List α} {x : α} (h : t ∈ tuples ls)
    (hx : x ∈ t) : ∃ l ∈ ls, x ∈ l := by
  have h := mem_tuples.mp h
  induction h
  case nil => contradiction
  case cons y l t ls hy _ ih =>
    cases List.mem_cons.mp hx
    case inl hc => exact ⟨l, List.mem_cons_self, hc ▸ hy⟩
    case inr hc =>
      have ⟨l', hl, hm⟩ := ih (mem_tuples.mpr ‹_›) hc
      exact ⟨l', List.mem_cons_of_mem _ hl, hm⟩

theorem nodup_tuples {ls : List (List α)} (h : ∀ l ∈ ls, l.Nodup) : (tuples ls).Nodup := by
  induction ls
  case nil => exact List.nodup_singleton _
  case cons l ls ih =>
    have ih := ih fun l' hl => h l' <| List.mem_cons_of_mem _ hl
    refine List.nodup_flatMap.mpr ⟨fun t _ => ?_, ih.imp fun hne => ?_⟩
    · exact h l List.mem_cons_self |>.map fun _ _ he => (List.cons.inj he).left
    · intro u hu hv
      have ⟨_, _, hu⟩ := List.mem_map.mp hu
      have ⟨_, _, hv⟩ := List.mem_map.mp hv
      exact hne <| (List.cons.inj <| hu.trans hv.symm).right

theorem map_tuples (f : α → β) (ls : List (List α)) :
    (tuples ls).map (·.map f) = tuples (ls.map (·.map f)) := by
  induction ls
  case nil => rfl
  case cons l ls ih =>
    simp [tuples, ←ih, List.map_flatMap, List.flatMap_map, Function.comp_def]

theorem zipWith_tuples {γ δ : Type*} (f : δ → α → γ) (g : δ → List α) (ds : List δ) :
    (tuples (ds.map g)).map (List.zipWith f ds) = tuples (ds.map fun d => (g d).map (f d)) := by
  induction ds
  case nil => rfl
  case cons d ds ih =>
    simp [tuples, ←ih, List.map_flatMap, List.flatMap_map, Function.comp_def]

-- The order of an odometer: what the last wheels show comes first.
def Before (r : α → α → Prop) : List α → List α → Prop
  | a :: as, b :: bs => Before r as bs ∨ as = bs ∧ r a b
  | _, _             => False

section

variable {r : α → α → Prop} {as bs cs : List α} {ls : List (List α)}

theorem Before.trans [IsTrans α r] (h : Before r as bs) (h' : Before r bs cs) : Before r as cs := by
  induction as generalizing bs cs
  case nil          => exact h.elim
  case cons a as ih =>
    cases bs
    case nil       => exact h.elim
    case cons b bs =>
      cases cs
      case nil       => exact h'.elim
      case cons c cs =>
        obtain h | ⟨rfl, h⟩ := h <;> obtain h' | ⟨rfl, h'⟩ := h'
        · exact .inl <| ih h h'
        · exact .inl h
        · exact .inl h'
        · exact .inr ⟨rfl, trans_of r h h'⟩

instance [IsTrans α r] : IsTrans (List α) (Before r) :=
  ⟨fun _ _ _ => Before.trans⟩

theorem not_before_self [Std.Irrefl r] : ¬Before r as as := by
  induction as
  case nil          => exact id
  case cons a as ih => exact fun h => h.elim ih fun h => Std.Irrefl.irrefl a h.right

theorem pairwise_tuples (h : ∀ l ∈ ls, l.Pairwise r) : (tuples ls).Pairwise (Before r) := by
  induction ls
  case nil          => exact List.pairwise_singleton _ _
  case cons l ls ih =>
    have ⟨hl, hls⟩ := List.forall_mem_cons.mp h
    refine List.pairwise_flatMap.mpr ⟨fun t _ => ?_, (ih hls).imp fun hb => ?_⟩
    · exact List.pairwise_map.mpr <| hl.imp fun hr => .inr ⟨rfl, hr⟩
    · intro u hu v hv
      obtain ⟨_, _, rfl⟩ := List.mem_map.mp hu
      obtain ⟨_, _, rfl⟩ := List.mem_map.mp hv
      exact .inl hb

end

-- The states of a run until there is no further step, if they are at most `k`.
def visits (step : σ → Option σ) : Nat → σ → Option (List σ)
  | 0, _     => none
  | k + 1, s =>
    match step s with
    | none    => some [s]
    | some s' => (visits step k s').map (s :: ·)

theorem visits_of_le {step : σ → Option σ} {k n : Nat} {s : σ} {seen : List σ} (hk : k ≤ n)
    (h : visits step k s = some seen) : visits step n s = some seen := by
  induction k generalizing n s seen
  case zero => simp [visits] at h
  case succ k ih =>
    have ⟨n, hn⟩ := Nat.exists_eq_succ_of_ne_zero <| Nat.ne_zero_of_lt hk
    subst hn
    simp only [visits] at h ⊢
    split at h
    case h_1 => exact h
    case h_2 s' he =>
      have ⟨seen', hv, hc⟩ := Option.map_eq_some_iff.mp h
      simp [ih (Nat.le_of_succ_le_succ hk) hv, hc]

theorem visits_invariant {step : σ → Option σ} {I : σ → Prop}
    (hs : ∀ s s', step s = some s' → I s → I s') {k : Nat} {s : σ} {seen : List σ} (h : I s)
    (hv : visits step k s = some seen) : ∀ s' ∈ seen, I s' := by
  induction k generalizing s seen
  case zero => simp [visits] at hv
  case succ k ih =>
    simp only [visits] at hv
    split at hv
    case h_1 =>
      cases Option.some.inj hv
      exact List.forall_mem_singleton.mpr h
    case h_2 s' he =>
      have ⟨seen', hv', hc⟩ := Option.map_eq_some_iff.mp hv
      subst hc
      exact List.forall_mem_cons.mpr ⟨h, ih (hs s s' he h) hv'⟩

-- If each step goes on in an order, the states come in this order.
theorem visits_pairwise {τ : Type*} {step : σ → Option σ} {I : σ → Prop} {f : σ → τ} {r : τ → τ → Prop} [IsTrans τ r]
    (hs : ∀ s s', step s = some s' → I s → I s' ∧ r (f s) (f s')) {k : Nat} {s : σ} {seen : List σ} (h : I s)
    (hv : visits step k s = some seen) : (∃ tail, seen = s :: tail) ∧ (seen.map f).Pairwise r := by
  induction k generalizing s seen
  case zero => simp [visits] at hv
  case succ k ih =>
    simp only [visits] at hv
    split at hv
    case h_1       =>
      cases Option.some.inj hv
      exact ⟨⟨[], rfl⟩, List.pairwise_singleton _ _⟩
    case h_2 s' he =>
      obtain ⟨seen', hv', rfl⟩ := Option.map_eq_some_iff.mp hv
      have ⟨h', hr⟩ := hs s s' he h
      obtain ⟨⟨tail, rfl⟩, hp⟩ := ih h' hv'
      refine ⟨⟨_, rfl⟩, List.pairwise_cons.mpr ⟨List.forall_mem_cons.mpr ⟨hr, fun t ht => ?_⟩, hp⟩⟩
      exact trans_of r hr <| List.rel_of_pairwise_cons hp ht

-- The states of a system whose steps follow the odometer are those of the odometer.
theorem exists_visits {step : σ → Option σ} {R : σ → List (Wheel α) → Prop}
    (hn : ∀ s ws, R s ws → next ws = none → step s = none)
    (hs : ∀ s ws ws', R s ws → next ws = some ws' → ∃ s', step s = some s' ∧ R s' ws')
    {s : σ} {ws : List (Wheel α)} (h : R s ws) :
    ∃ seen, List.Forall₂ (fun s t => ∃ ws, R s ws ∧ t = current ws) seen (current ws :: later ws) ∧
      ∀ k, seen.length ≤ k → visits step k s = some seen := by
  generalize hl : later ws = l
  induction l generalizing s ws
  case nil =>
    cases hx : next ws
    case some ws' => simp [later_of_next_eq_some hx] at hl
    case none =>
      refine ⟨[s], .cons ⟨ws, h, rfl⟩ .nil, fun k hk => ?_⟩
      have ⟨k, hk⟩ := Nat.exists_eq_succ_of_ne_zero <| Nat.ne_zero_of_lt hk
      simp [hk, visits, hn s ws h hx]
  case cons t l ih =>
    cases hx : next ws
    case none => simp [later_of_next_eq_none hx] at hl
    case some ws' =>
      have ⟨ht, hl⟩ := List.cons.inj <| (later_of_next_eq_some hx).symm.trans hl
      have ⟨s', he, h'⟩ := hs s ws ws' h hx
      have ⟨seen, hf, hv⟩ := ih h' hl
      refine ⟨s :: seen, .cons ⟨ws, h, rfl⟩ (ht ▸ hf), fun k hk => ?_⟩
      have ⟨k, hk'⟩ := Nat.exists_eq_succ_of_ne_zero <| Nat.ne_zero_of_lt hk
      simp [hk', visits, he, hv k <| Nat.le_of_succ_le_succ <| hk' ▸ hk]

end Odometer
