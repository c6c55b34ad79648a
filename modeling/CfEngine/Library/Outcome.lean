import Mathlib.Data.List.Forall2

-- Computations that may fail, and sequences of them.
namespace Except

variable {ε α β : Type}

@[simp]
theorem ok_bind_eq {a : α} {f : α → Except ε β} : (Except.ok a >>= f) = f a :=
  rfl

theorem bind_eq_ok_iff {x : Except ε α} {f : α → Except ε β} {b : β} :
    (x >>= f) = .ok b ↔ ∃ a, x = .ok a ∧ f a = .ok b := by
  cases x
  case error e => exact ⟨nofun, nofun⟩
  case ok a    => exact ⟨fun h => ⟨a, rfl, h⟩, fun ⟨_, ha, h⟩ => Except.ok.inj ha ▸ h⟩

theorem exists_bind_eq_ok_iff {x : Except ε α} {f : α → Except ε β} :
    (∃ b, (x >>= f) = .ok b) ↔ ∃ a, x = .ok a ∧ ∃ b, f a = .ok b := by
  simp only [bind_eq_ok_iff]
  exact exists_comm.trans <| exists_congr fun _ => exists_and_left

-- A last step that does not fail.
theorem exists_bind_ok_eq_ok_iff {x : Except ε α} {f : α → β} :
    (∃ b, (x >>= fun a => .ok (f a)) = .ok b) ↔ ∃ a, x = .ok a :=
  exists_bind_eq_ok_iff.trans <| exists_congr fun a => and_iff_left ⟨f a, rfl⟩

theorem mapM_eq_ok_iff {f : α → Except ε β} {xs : List α} {ys : List β} :
    xs.mapM f = .ok ys ↔ List.Forall₂ (f · = .ok ·) xs ys := by
  induction xs generalizing ys
  case nil =>
    rw [List.mapM_nil, List.forall₂_nil_left_iff]
    exact ⟨fun h => (Except.ok.inj h).symm, fun h => h ▸ rfl⟩
  case cons x xs ih =>
    rw [List.mapM_cons, bind_eq_ok_iff]
    constructor
    case mp =>
      rintro ⟨y, hy, h⟩
      obtain ⟨ys', hys, h⟩ := bind_eq_ok_iff.mp h
      cases h
      exact .cons hy <| ih.mp hys
    case mpr =>
      rintro (_ | ⟨hy, hys⟩)
      exact ⟨_, hy, bind_eq_ok_iff.mpr ⟨_, ih.mpr hys, rfl⟩⟩

theorem exists_mapM_eq_ok_iff {f : α → Except ε β} {xs : List α} :
    (∃ ys, xs.mapM f = .ok ys) ↔ ∀ x ∈ xs, ∃ y, f x = .ok y := by
  induction xs
  case nil          => exact ⟨nofun, fun _ => ⟨[], rfl⟩⟩
  case cons x xs ih =>
    rw [List.forall_mem_cons, ← ih]
    constructor
    case mp =>
      rintro ⟨ys, h⟩
      rw [List.mapM_cons] at h
      obtain ⟨y, hy, h⟩ := bind_eq_ok_iff.mp h
      obtain ⟨ys', hys, -⟩ := bind_eq_ok_iff.mp h
      exact ⟨⟨y, hy⟩, ys', hys⟩
    case mpr =>
      rintro ⟨⟨y, hy⟩, ys, hys⟩
      exact ⟨y :: ys, by rw [List.mapM_cons, hy, ok_bind_eq, hys]; rfl⟩

theorem exists_of_mem_mapM {f : α → Except ε β} {xs : List α} {ys : List β} {y : β}
    (h : xs.mapM f = .ok ys) (hy : y ∈ ys) : ∃ x ∈ xs, f x = .ok y := by
  have hxs := mapM_eq_ok_iff.mp h
  clear h
  induction hxs
  case nil               => exact absurd hy List.not_mem_nil
  case cons x _ _ _ hx _ ih =>
    rcases List.mem_cons.mp hy with rfl | hy
    · exact ⟨x, List.mem_cons_self, hx⟩
    · obtain ⟨x, hmem, hx⟩ := ih hy
      exact ⟨x, List.mem_cons_of_mem _ hmem, hx⟩

end Except

namespace Option

variable {ε α β γ : Type}

-- The elements of a sequence that has been encoded are decoded one by one.
theorem mapM_eq_some_of_mapM_eq_ok {f : α → Except ε β} {g : β → Option γ} {r : α → γ} {xs : List α}
    {ys : List β} (h : xs.mapM f = .ok ys) (hg : ∀ x ∈ xs, ∀ y, f x = .ok y → g y = some (r x)) :
    ys.mapM g = some (xs.map r) := by
  have hxs := Except.mapM_eq_ok_iff.mp h
  clear h
  induction hxs
  case nil => rfl
  case cons hy _ ih =>
    rw [List.mapM_cons, hg _ List.mem_cons_self _ hy,
      ih fun x hx => hg x <| List.mem_cons_of_mem _ hx]
    rfl

end Option
