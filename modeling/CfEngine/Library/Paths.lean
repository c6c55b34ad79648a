import Mathlib.Algebra.GroupWithZero.Nat
import Mathlib.Data.List.Basic
import Mathlib.Data.List.TakeWhile

-- Rooted path names as sequences of nodes, and their lexical normal form.

namespace Paths

abbrev Node := List Char

-- The text with a separator at its end.
def directory (nodes : List Node) : List Char :=
  nodes.flatMap ('/' :: ·) ++ ['/']

def text (nodes : List Node) : List Char :=
  if nodes = [] then ['/'] else nodes.flatMap ('/' :: ·)

def nodes (s : List Char) : List Node :=
  (s.splitOn '/').filter (· ≠ [])

-- A node that goes up takes the last one away, if there is one.
def walk (stack : List Node) (node : Node) : List Node :=
  if node = ['.'] then stack else if node = ['.', '.'] then stack.dropLast else stack ++ [node]

def normalNodes (s : List Char) : List Node :=
  (nodes s).foldl walk []

def normalForm (s : List Char) : List Char :=
  text (normalNodes s)

structure IsName (node : Node) : Prop where
  ne_nil   : node ≠ []
  no_slash : '/' ∉ node

-- The names of files, other than those of the directory itself and the one above it.
structure IsProper (node : Node) : Prop extends IsName node where
  ne_dot    : node ≠ ['.']
  ne_dotdot : node ≠ ['.', '.']

def weight (nodes : List Node) : Nat :=
  (nodes.map fun node => node.length + 1).sum

section
variable {s t rest : List Char} {node : Node} {stack stack' : List Node}

-- A text is taken apart into separators and the nodes between them.
theorem node_induction {motive : List Char → Prop} (nil : motive []) (sep : ∀ s, motive s → motive ('/' :: s))
    (node : ∀ node rest, IsName node → (∀ c ∈ rest.head?, c = '/') → motive rest → motive (node ++ rest))
    (s : List Char) : motive s := by
  induction hn : s.length using Nat.strongRecOn generalizing s
  case ind n ih =>
    cases s
    case nil      => exact nil
    case cons c s =>
      by_cases hc : c = '/'
      case pos =>
        subst hc
        exact sep s <| ih s.length (hn ▸ Nat.lt_succ_self _) s rfl
      case neg =>
        have htake : (c :: s).takeWhile (· ≠ '/') = c :: s.takeWhile (· ≠ '/') :=
          List.takeWhile_cons_of_pos (decide_eq_true hc)
        have hdrop : (c :: s).dropWhile (· ≠ '/') = s.dropWhile (· ≠ '/') :=
          List.dropWhile_cons_of_pos (decide_eq_true hc)
        rw [←List.takeWhile_append_dropWhile (p := (· ≠ '/')) (l := c :: s)]
        refine node _ _ ⟨?ne_nil, ?no_slash⟩ ?head <| ih _ ?shorter _ rfl
        case ne_nil   => exact htake ▸ List.cons_ne_nil _ _
        case no_slash => exact fun h => absurd (List.mem_takeWhile_imp h) (by decide)
        case head     =>
          intro d hd
          have hnot := List.head?_dropWhile_not (· ≠ '/') (c :: s)
          rw [Option.mem_def.mp hd] at hnot
          simpa using hnot
        case shorter  =>
          have hle := (List.dropWhile_suffix (l := s) (· ≠ '/')).length_le
          rw [hdrop, ←hn, List.length_cons]
          omega

theorem span_name {c : Char} (h : IsName (c :: s)) (hrest : ∀ c ∈ rest.head?, c = '/') :
    (s ++ rest).takeWhile (· ≠ '/') = s ∧ (s ++ rest).dropWhile (· ≠ '/') = rest := by
  have hs : ∀ d ∈ s, decide (d ≠ '/') = true := by
    intro d hd
    exact decide_eq_true fun he => h.no_slash <| he ▸ List.mem_cons_of_mem c hd
  have hend : rest.takeWhile (· ≠ '/') = [] ∧ rest.dropWhile (· ≠ '/') = rest := by
    cases rest
    case nil         => exact ⟨rfl, rfl⟩
    case cons d rest =>
      obtain rfl := hrest d rfl
      exact ⟨List.takeWhile_cons_of_neg (by decide), List.dropWhile_cons_of_neg (by decide)⟩
  rw [List.takeWhile_append_of_pos hs, List.dropWhile_append_of_pos hs, hend.left, hend.right, List.append_nil]
  exact ⟨rfl, rfl⟩

theorem nodes_nil : nodes [] = [] :=
  rfl

theorem nodes_sep : nodes ('/' :: s) = nodes s := by
  rw [nodes, List.splitOn_cons_eq_if_modifyHead]
  rfl

theorem nodes_append (h : IsName node) (hrest : ∀ c ∈ rest.head?, c = '/') :
    nodes (node ++ rest) = node :: nodes rest := by
  have hfilter {l : List Node} : (node :: l).filter (· ≠ []) = node :: l.filter (· ≠ []) :=
    List.filter_cons_of_pos <| decide_eq_true h.ne_nil
  cases rest
  case nil         =>
    rw [List.append_nil, nodes, List.splitOn_eq_singleton h.no_slash, hfilter]
    rfl
  case cons c rest =>
    obtain rfl := hrest c rfl
    rw [nodes_sep, nodes, List.splitOn_append_cons_self_of_not_mem h.no_slash, hfilter, nodes]

theorem nodes_append_sep : nodes (s ++ '/' :: t) = nodes s ++ nodes t := by
  induction s using node_induction
  case nil                      => exact nodes_sep
  case sep s ih                 => rw [List.cons_append, nodes_sep, nodes_sep, ih]
  case node node rest hn hr ih =>
    have hhead : ∀ c ∈ (rest ++ '/' :: t).head?, c = '/' := by
      cases rest
      case nil    => exact fun c hc => (Option.some.inj hc).symm
      case cons _ => exact hr
    rw [List.append_assoc, nodes_append hn hhead, nodes_append hn hr, ih, List.cons_append]

theorem nodes_append_name (h : IsName node) : nodes (s ++ '/' :: node) = nodes s ++ [node] := by
  have hnode := @nodes_append [] node h (by simp)
  rw [List.append_nil] at hnode
  rw [nodes_append_sep, hnode, nodes_nil]

theorem head?_append_sep (h : s.head? = some '/' ∨ s = []) : (s ++ '/' :: t).head? = some '/' := by
  rcases h with h | rfl
  · rw [List.head?_append, h]
    rfl
  · rfl

theorem nodes_ne_nil (hne : s ≠ []) (hs : s.head? ≠ some '/') : nodes s ≠ [] := by
  induction s using node_induction
  case nil                     => exact absurd rfl hne
  case sep s _                 => exact absurd rfl hs
  case node node rest hn hr _ =>
    rw [nodes_append hn hr]
    exact List.cons_ne_nil _ _

theorem isName_of_mem_nodes (h : node ∈ nodes s) : IsName node := by
  induction s using node_induction
  case nil                       => cases h
  case sep s ih                  => exact ih <| nodes_sep ▸ h
  case node node' rest hn hr ih =>
    rw [nodes_append hn hr] at h
    cases h
    case head   => exact hn
    case tail h => exact ih h

theorem text_concat : text (stack ++ [node]) = directory stack ++ node := by
  rw [text, if_neg (by simp), directory, List.flatMap_append, List.append_assoc]
  simp

theorem directory_of_ne_nil (h : stack ≠ []) : directory stack = text stack ++ ['/'] := by
  rw [directory, text, if_neg h]

theorem length_directory : (directory stack).length = weight stack + 1 := by
  simp [directory, weight, List.length_flatMap]

theorem weight_append : weight (stack ++ stack') = weight stack + weight stack' := by
  simp [weight]

theorem weight_walk_le : weight (walk stack node) ≤ weight stack + (node.length + 1) := by
  rw [walk]
  split_ifs
  case pos => exact Nat.le_add_right _ _
  case pos =>
    rcases List.eq_nil_or_concat stack with rfl | ⟨l, last, rfl⟩
    · exact Nat.zero_le _
    · rw [List.concat_eq_append, List.dropLast_concat, weight_append]
      omega
  case neg => exact Nat.le_of_eq weight_append

theorem weight_foldl_walk_le : weight (stack'.foldl walk stack) ≤ weight stack + weight stack' := by
  induction stack' generalizing stack
  case nil                 => exact Nat.le_add_right _ _
  case cons node stack' ih =>
    have hstep := @weight_walk_le node stack
    have hrest := @ih (walk stack node)
    simp only [weight, List.map_cons, List.sum_cons, List.foldl_cons] at hstep hrest ⊢
    omega

theorem mem_foldl_walk (h : node ∈ stack'.foldl walk stack) : node ∈ stack ∨ node ∈ stack' := by
  induction stack' generalizing stack
  case nil                  => exact .inl h
  case cons node' stack' ih =>
    rcases ih h with h | h
    · rw [walk] at h
      split_ifs at h
      · exact .inl h
      · exact .inl <| (List.dropLast_sublist stack).subset h
      · rcases List.mem_append.mp h with h | h
        · exact .inl h
        · exact .inr <| List.mem_singleton.mp h ▸ List.mem_cons_self
    · exact .inr <| List.mem_cons_of_mem _ h

-- The separator before the first node may be missing.
theorem weight_nodes_le :
    weight (nodes s) ≤ s.length + 1 ∧ ((∀ c ∈ s.head?, c = '/') → weight (nodes s) ≤ s.length) := by
  induction s using node_induction
  case nil                      => exact ⟨Nat.zero_le _, fun _ => Nat.zero_le _⟩
  case sep s ih                 =>
    rw [nodes_sep, List.length_cons]
    exact ⟨ih.left.trans <| Nat.le_succ _, fun _ => ih.left⟩
  case node node rest hn hr ih =>
    have hle := ih.right hr
    rw [nodes_append hn hr, List.length_append]
    refine ⟨?_, fun h => ?_⟩
    · simp only [weight, List.map_cons, List.sum_cons] at hle ⊢
      omega
    · obtain ⟨c, t, rfl⟩ := List.exists_cons_of_ne_nil hn.ne_nil
      exact absurd (h c rfl ▸ List.mem_cons_self) hn.no_slash

theorem nodes_text (h : ∀ node ∈ stack, IsName node) : nodes (text stack) = stack := by
  have hflat : nodes (stack.flatMap ('/' :: ·)) = stack := by
    induction stack
    case nil               => rfl
    case cons node stack ih =>
      have hhead : ∀ c ∈ (stack.flatMap ('/' :: ·)).head?, c = '/' := by
        cases stack
        case nil  => rintro c ⟨⟩
        case cons =>
          rintro c ⟨⟩
          rfl
      rw [List.flatMap_cons, List.cons_append, nodes_sep, nodes_append (h node List.mem_cons_self) hhead,
        ih fun node hnode => h node <| List.mem_cons_of_mem _ hnode]
  rw [text]
  split
  case isTrue he  =>
    rw [he]
    rfl
  case isFalse he => exact hflat

-- A text is taken apart at one of its separators.
theorem flatMap_split {p c : List Char} (h : ∀ node ∈ stack, IsName node)
    (hs : stack.flatMap ('/' :: ·) = p ++ '/' :: c) : p.getLast? ≠ some '/' ∧
      ∃ node ∈ stack, ∃ rest, c = node ++ rest ∧ ∀ d ∈ rest.head?, d = '/' := by
  induction stack generalizing p
  case nil                => simp at hs
  case cons node stack ih =>
    have hn := h node List.mem_cons_self
    have hmem {last : Node} (hlast : last ∈ stack) := List.mem_cons_of_mem node hlast
    have hlast : ('/' :: node).getLast? ≠ some '/' := by
      rw [←List.singleton_append, List.getLast?_append_of_ne_nil _ hn.ne_nil]
      exact fun he => hn.no_slash <| List.mem_of_getLast? he
    cases p
    case nil      =>
      rw [List.flatMap_cons, List.cons_append, List.nil_append, List.cons.injEq] at hs
      refine ⟨by simp, node, List.mem_cons_self, _, hs.right.symm, ?_⟩
      cases stack <;> simp
    case cons x p =>
      rw [List.flatMap_cons, List.cons_append, List.cons_append, List.cons.injEq] at hs
      obtain ⟨rfl, hs⟩ := hs
      rcases List.append_eq_append_iff.mp hs with ⟨a, rfl, hF⟩ | ⟨a, rfl, hF⟩
      · obtain ⟨hend, node', hnode', hc⟩ := ih (fun last hlast => h last <| hmem hlast) hF
        refine ⟨?_, node', hmem hnode', hc⟩
        cases a
        case nil  => rwa [List.append_nil]
        case cons =>
          rw [←List.cons_append, List.getLast?_append_of_ne_nil _ (List.cons_ne_nil _ _)]
          exact hend
      · cases a
        case cons d a =>
          rw [List.cons_append, List.cons.injEq] at hF
          exact absurd (hF.left ▸ List.mem_append_right _ List.mem_cons_self) hn.no_slash
        case nil      =>
          obtain ⟨-, node', hnode', hc⟩ := ih (fun last hlast => h last <| hmem hlast) (p := []) hF.symm
          exact ⟨List.append_nil p ▸ hlast, node', hmem hnode', hc⟩

theorem text_split {p c : List Char} (h : ∀ node ∈ stack, IsName node) (hs : text stack = p ++ '/' :: c) :
    p.getLast? ≠ some '/' ∧ (c ≠ [] → ∃ node ∈ stack, ∃ rest, c = node ++ rest ∧ ∀ d ∈ rest.head?, d = '/') := by
  rw [text] at hs
  split at hs
  case isTrue  =>
    cases p
    case nil      => simp_all
    case cons _ p => cases p <;> cases hs
  case isFalse =>
    obtain ⟨hend, hc⟩ := flatMap_split h hs
    exact ⟨hend, fun _ => hc⟩

theorem walk_of_isProper (h : IsProper node) : walk stack node = stack ++ [node] := by
  rw [walk, if_neg h.ne_dot, if_neg h.ne_dotdot]

theorem foldl_walk_of_isProper (h : ∀ node ∈ stack', IsProper node) : stack'.foldl walk stack = stack ++ stack' := by
  induction stack' generalizing stack
  case nil                 => exact (List.append_nil stack).symm
  case cons node stack' ih =>
    rw [List.foldl_cons, walk_of_isProper <| h node List.mem_cons_self,
      ih fun node hnode => h node <| List.mem_cons_of_mem _ hnode, List.append_assoc]
    rfl

theorem isProper_foldl_walk (hstack : ∀ node ∈ stack, IsProper node) (h : ∀ node ∈ stack', IsName node) :
    ∀ node ∈ stack'.foldl walk stack, IsProper node := by
  induction stack' generalizing stack
  case nil                 => exact hstack
  case cons node stack' ih =>
    refine ih (fun last hlast => ?_) fun node hnode => h node <| List.mem_cons_of_mem _ hnode
    rw [walk] at hlast
    split_ifs at hlast with hdot hdotdot
    · exact hstack last hlast
    · exact hstack last <| (List.dropLast_sublist stack).subset hlast
    · rw [List.mem_append, List.mem_singleton] at hlast
      rcases hlast with hlast | rfl
      · exact hstack last hlast
      · exact ⟨h last List.mem_cons_self, hdot, hdotdot⟩

theorem isProper_of_mem_normalNodes : ∀ node ∈ normalNodes s, IsProper node :=
  isProper_foldl_walk (by simp) fun _ => isName_of_mem_nodes

-- A path in normal form is its own.
theorem normalForm_text (h : ∀ node ∈ stack, IsProper node) : normalForm (text stack) = text stack := by
  rw [normalForm, normalNodes, nodes_text fun node hnode => (h node hnode).toIsName, foldl_walk_of_isProper h,
    List.nil_append]

theorem normalForm_normalForm : normalForm (normalForm s) = normalForm s :=
  normalForm_text isProper_of_mem_normalNodes

end

end Paths
