import CfEngine.Library.Paths

-- Trees of files with symbolic links, and where the paths of Library/Paths lead in them.

namespace FileTrees

open Paths

inductive Kind
  | file
  | directory (parent : Nat) (entry : Node → Option Nat)
  | link (target : List Char)

-- The files have numbers. The current directory is where a path without a separator at its beginning starts.
structure Tree where
  root    : Nat
  current : Nat
  kind    : Nat → Kind

namespace Tree

def enter (t : Tree) (d : Nat) (node : Node) : Option Nat :=
  match t.kind d with
  | .directory parent entry => if node = ['.'] then some d else if node = ['.', '.'] then some parent else entry node
  | _                       => none

def target (t : Tree) (i : Nat) : Option (List Char) :=
  match t.kind i with
  | .link target => some target
  | _            => none

-- Where the target of a link in a directory starts.
def base (t : Tree) (d : Nat) (s : List Char) : Nat :=
  if s.head? = some '/' then t.root else d

def follow (t : Tree) (walk : Nat → List Node → Option Nat) (d : Nat) (node : Node) : Option Nat :=
  (t.enter d node).bind fun i => match t.target i with
    | none   => some i
    | some s => walk (t.base d s) (nodes s)

-- Chains of links, the one in the target of the other, are followed up to a length.
def walk (t : Tree) : Nat → Nat → List Node → Option Nat
  | 0, d, path          => path.foldlM (t.follow fun _ _ => none) d
  | length + 1, d, path => path.foldlM (t.follow (t.walk length)) d

def lookup (t : Tree) (length : Nat) (s : List Char) : Option Nat :=
  if s = [] then none else t.walk length (t.base t.current s) (nodes s)

-- The file itself that a path names, even if that is a link.
def itself (t : Tree) (length : Nat) (s : List Char) : Option Nat :=
  if s = [] then
    none
  else
    match (nodes s).getLast? with
    | none      => some <| t.base t.current s
    | some last => (t.walk length (t.base t.current s) (nodes s).dropLast).bind (t.enter · last)

section
variable {t : Tree} {n m d e i k : Nat} {node : Node} {path path' : List Node} {s : List Char}

@[simp]
theorem walk_nil : t.walk n d [] = some d := by
  cases n <;> rfl

theorem walk_append : t.walk n d (path ++ path') = (t.walk n d path).bind (t.walk n · path') := by
  cases n <;> exact List.foldlM_append

theorem walk_cons : t.walk n d (node :: path) = (t.walk n d [node]).bind (t.walk n · path) :=
  @walk_append t n d [node] path

theorem walk_append_none (h : t.walk n d path = none) : t.walk n d (path ++ path') = none := by
  rw [walk_append, h]
  rfl

theorem walk_of_enter (h : t.enter d node = some i) (hi : t.target i = none) : t.walk n d [node] = some i := by
  cases n <;> simp [walk, follow, h, hi]

theorem walk_zero_of_link (h : t.enter d node = some i) (hi : t.target i = some s) : t.walk 0 d [node] = none := by
  simp [walk, follow, h, hi]

theorem walk_succ_of_link (h : t.enter d node = some i) (hi : t.target i = some s) :
    t.walk (n + 1) d [node] = t.walk n (t.base d s) (nodes s) := by
  simp [walk, follow, h, hi]

theorem of_walk_singleton (h : t.walk n d [node] = some e) : ∃ i, t.enter d node = some i ∧ (t.target i = none ∧ e = i ∨
    ∃ s m, t.target i = some s ∧ n = m + 1 ∧ t.walk m (t.base d s) (nodes s) = some e) := by
  cases hi : t.enter d node
  case none   => cases n <;> simp [walk, follow, hi] at h
  case some i =>
    refine ⟨i, rfl, ?_⟩
    cases hs : t.target i
    case none   =>
      rw [walk_of_enter hi hs] at h
      exact .inl ⟨rfl, (Option.some.inj h).symm⟩
    case some s =>
      cases n
      case zero   =>
        rw [walk_zero_of_link hi hs] at h
        cases h
      case succ n =>
        rw [walk_succ_of_link hi hs] at h
        exact .inr ⟨s, n, rfl, rfl, h⟩

theorem walk_succ (h : t.walk n d path = some e) : t.walk (n + 1) d path = some e := by
  induction n generalizing d path e
  all_goals
    induction path generalizing d
    case nil => exact h
  case zero.cons node path ih    =>
    rw [walk_cons, Option.bind_eq_some_iff] at h ⊢
    obtain ⟨k, hk, hrest⟩ := h
    refine ⟨k, ?_, ih hrest⟩
    obtain ⟨i, hi, ⟨hs, rfl⟩ | ⟨s, m, hs, hm, -⟩⟩ := of_walk_singleton hk
    · exact walk_of_enter hi hs
    · cases hm
  case succ.cons n hn node path ih =>
    rw [walk_cons, Option.bind_eq_some_iff] at h ⊢
    obtain ⟨k, hk, hrest⟩ := h
    refine ⟨k, ?_, ih hrest⟩
    obtain ⟨i, hi, ⟨hs, rfl⟩ | ⟨s, m, hs, hm, hwalk⟩⟩ := of_walk_singleton hk
    · exact walk_of_enter hi hs
    · obtain rfl := Nat.succ.inj hm
      rw [walk_succ_of_link hi hs]
      exact hn hwalk

-- Longer chains may be followed.
theorem walk_mono (h : t.walk n d path = some e) (hnm : n ≤ m) : t.walk m d path = some e := by
  induction m, hnm using Nat.le_induction
  case base       => exact h
  case succ m _ ih => exact walk_succ ih

theorem walk_unique {e' : Nat} (h : t.walk n d path = some e) (h' : t.walk m d path = some e') : e = e' := by
  have hn := walk_mono h (Nat.le_max_left n m)
  have hm := walk_mono h' (Nat.le_max_right n m)
  exact Option.some.inj <| hn.symm.trans hm

theorem walk_dropLast_ne_none (h : t.walk n d path = some e) : t.walk n d path.dropLast ≠ none := by
  rcases List.eq_nil_or_concat path with rfl | ⟨path, last, rfl⟩
  · exact fun hn => Option.some_ne_none _ <| h.symm.trans hn
  · rw [List.concat_eq_append, walk_append, Option.bind_eq_some_iff] at h
    obtain ⟨k, hk, -⟩ := h
    rw [List.concat_eq_append, List.dropLast_concat, hk]
    exact Option.some_ne_none _

theorem enter_dot (h : t.enter d ['.'] = some i) : i = d := by
  rw [enter] at h
  split at h
  case h_1 => exact (Option.some.inj h).symm
  case h_2 => cases h

-- A path that goes through no links.
theorem of_walk_zero_cons (h : t.walk 0 d (node :: path) = some e) :
    ∃ i, t.enter d node = some i ∧ t.target i = none ∧ t.walk 0 i path = some e := by
  rw [walk_cons, Option.bind_eq_some_iff] at h
  obtain ⟨k, hk, hrest⟩ := h
  obtain ⟨i, hi, ⟨hs, rfl⟩ | ⟨s, m, hs, hm, -⟩⟩ := of_walk_singleton hk
  · exact ⟨k, hi, hs, hrest⟩
  · cases hm

theorem walk_behind_link (hi : t.enter d node = some i) (hs : t.target i = some s)
    (hk : t.walk m (t.base d s) (nodes s) = some k) (h : t.walk n d (node :: path) = some e) :
    t.walk n k path = some e := by
  rw [walk_cons, Option.bind_eq_some_iff] at h
  obtain ⟨k', hnode, hrest⟩ := h
  obtain ⟨i', hi', ⟨hs', -⟩ | ⟨s', n', hs', -, hwalk⟩⟩ := of_walk_singleton hnode
  · rw [Option.some.inj <| hi.symm.trans hi', hs'] at hs
    cases hs
  · cases hi.symm.trans hi'
    cases hs.symm.trans hs'
    rwa [walk_unique hk hwalk]

-- A path through a link is not one without links.
theorem walk_zero_ne (hi : t.enter d node = some i) (hs : t.target i = some s)
    (hpre : ∀ d', t.walk 0 t.root path = some d' → d' = d) : t.walk 0 t.root (path ++ node :: path') ≠ some e := by
  intro h
  rw [walk_append, Option.bind_eq_some_iff] at h
  obtain ⟨d', hd', hrest⟩ := h
  obtain rfl := hpre d' hd'
  obtain ⟨i', hi', hs', -⟩ := of_walk_zero_cons hrest
  rw [Option.some.inj <| hi.symm.trans hi', hs'] at hs
  cases hs

theorem itself_append (hs : s.head? = some '/' ∨ s = []) (hn : IsName node) (hd : t.walk n t.root (nodes s) = some d) :
    t.itself n (s ++ '/' :: node) = t.enter d node := by
  have hne : s ++ '/' :: node ≠ [] := by simp
  rw [itself, if_neg hne, nodes_append_name hn, List.getLast?_concat, List.dropLast_concat, base,
    if_pos (head?_append_sep hs), hd]
  rfl

end
end Tree
end FileTrees
