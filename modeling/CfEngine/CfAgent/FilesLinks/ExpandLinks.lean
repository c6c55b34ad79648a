import CfEngine.CfAgent.FilesLinks
import CfEngine.Library.FileTrees

namespace CfEngine

def cfMaxLinkLevel : Nat := 4

-- What lstat and readlink give.
inductive FileStatus
  | other
  | link (target : CString)

-- How a node of the path is left: with too much for a buffer, with a result of the function, or to go on.
inductive NodeOutcome
  | overflow
  | returned (result : Bool) (dest : CString)
  | next (dest : CString)

-- The target of a link is put in its place. What it expands to is not.
def expandLinkNode (expand : CString → Option (Bool × CString)) (from' dest buff : CString) (lastnode : Bool) :
    NodeOutcome :=
  if buff.head? = some '.' then
    match joinPath (addSlash <| chopLastNode dest) buff with
    | (none, dest)   => .returned false dest
    | (some dest, _) => .next dest
  else
    let dest := if isAbsoluteFileName buff then buff else addSlash (chopLastNode dest) ++ buff
    if cfBufSize ≤ dest.length then
      .overflow
    else
      let dest := deleteSlash dest
      if dest = from' then
        .returned true dest
      else if lastnode then
        .next dest
      else
        match expand dest with
        | none            => .overflow
        | some (false, _) => .returned false dest
        | some (true, _)  => .next dest

def expandNode (lstat : CString → Option FileStatus) (expand : CString → Option (Bool × CString))
    (from' dest node : CString) (lastnode : Bool) : NodeOutcome :=
  if cfMaxLinkSize ≤ node.length then
    .overflow
  else if node = ['.'] ∨ node = ['.', '.'] then
    .next dest
  else
    let dest := dest ++ '/' :: node
    if cfBufSize ≤ dest.length then
      .overflow
    else
      match lstat dest with
      | none                => .returned false dest
      | some .other         => .next dest
      | some (.link target) => expandLinkNode expand from' dest (target.take (cfBufSize - 1)) lastnode

def expandLoop (lstat : CString → Option FileStatus) (expand : CString → Option (Bool × CString))
    (from' dest : CString) : CString → Option (Bool × CString)
  | []      => some (true, dest)
  | c :: sp =>
    if c = '/' then
      expandLoop lstat expand from' dest sp
    else
      let node := c :: sp.takeWhile (· ≠ '/')
      let sp := sp.dropWhile (· ≠ '/')
      match expandNode lstat expand from' dest node (sp = []) with
      | .overflow             => none
      | .returned result dest => some (result, dest)
      | .next dest            => expandLoop lstat expand from' dest sp
termination_by sp => sp.length
decreasing_by
  · exact Nat.lt_succ_self _
  · exact Nat.lt_succ_of_le (List.dropWhile_suffix _).length_le

-- There is no result if something does not fit into its buffer.
def expandLinks (lstat : CString → Option FileStatus) (level : Nat) (from' : CString) : Option (Bool × CString) :=
  if level < cfMaxLinkLevel then
    expandLoop lstat (fun from' => expandLinks lstat (level + 1) from') from' [] from'
  else
    some (false, [])
termination_by cfMaxLinkLevel - level

open Paths FileTrees

def lstat (t : Tree) (length : Nat) (path : CString) : Option FileStatus :=
  (t.itself length path).map fun i => match t.target i with
    | none        => .other
    | some target => .link target

section
variable {t : Tree} {length d e i : Nat} {node dest from' rest : CString} {expand : CString → Option (Bool × CString)}
  {lstat' : CString → Option FileStatus}

theorem expandLoop_nil : expandLoop lstat' expand from' dest [] = some (true, dest) := by
  rw [expandLoop]

theorem expandLoop_sep :
    expandLoop lstat' expand from' dest ('/' :: rest) = expandLoop lstat' expand from' dest rest := by
  rw [expandLoop, if_pos rfl]

theorem expandLoop_node (hn : IsName node) (hrest : ∀ c ∈ rest.head?, c = '/') :
    expandLoop lstat' expand from' dest (node ++ rest) =
      match expandNode lstat' expand from' dest node (rest = []) with
      | .overflow             => none
      | .returned result dest => some (result, dest)
      | .next dest            => expandLoop lstat' expand from' dest rest := by
  obtain ⟨c, node, rfl⟩ := List.exists_cons_of_ne_nil hn.ne_nil
  have hc : c ≠ '/' := fun he => hn.no_slash <| he ▸ List.mem_cons_self
  obtain ⟨htake, hdrop⟩ := span_name hn hrest
  rw [List.cons_append, expandLoop, if_neg hc]
  simp only [htake, hdrop]

theorem lstat_append (hdest : dest.head? = some '/' ∨ dest = []) (hn : IsName node)
    (hd : t.walk length t.root (nodes dest) = some d) (hi : t.enter d node = some i) :
    lstat t length (dest ++ '/' :: node) = some (match t.target i with
      | none        => .other
      | some target => .link target) := by
  rw [lstat, Tree.itself_append hdest hn hd, hi]
  rfl

-- The node fits its buffer, and so does the path with it.
structure NodeFits (dest node : CString) : Prop where
  short : node.length < cfMaxLinkSize
  path  : (dest ++ '/' :: node).length ≤ cfBufSize - cfBufferMargin

theorem expandNode_status {lastnode : Bool} (hdest : dest.head? = some '/' ∨ dest = []) (hn : IsProper node)
    (hfits : NodeFits dest node) (hd : t.walk length t.root (nodes dest) = some d) (hi : t.enter d node = some i) :
    expandNode (lstat t length) expand from' dest node lastnode = match t.target i with
      | none        => .next (dest ++ '/' :: node)
      | some target => expandLinkNode expand from' (dest ++ '/' :: node) (target.take (cfBufSize - 1)) lastnode := by
  have hbuf : cfBufSize - cfBufferMargin < cfBufSize := by decide
  have hpath : ¬cfBufSize ≤ (dest ++ '/' :: node).length := Nat.not_le.mpr <| Nat.lt_of_le_of_lt hfits.path hbuf
  simp only [expandNode, if_neg (Nat.not_le.mpr hfits.short), if_neg (not_or.mpr ⟨hn.ne_dot, hn.ne_dotdot⟩),
    if_neg hpath, lstat_append hdest hn.toIsName hd hi]
  cases t.target i <;> rfl

-- The directory of a link, with a separator at its end.
def directoryText (dest : CString) : CString :=
  addSlash <| if dest = [] then ['/'] else dest

theorem directoryText_eq (hdest : dest.head? = some '/' ∨ dest = []) :
    ∃ pre, directoryText dest = pre ++ ['/'] ∧ nodes pre = nodes dest ∧ (pre.head? = some '/' ∨ pre = []) := by
  by_cases hempty : dest = []
  case pos =>
    subst hempty
    exact ⟨[], rfl, rfl, .inr rfl⟩
  case neg =>
    have habs := hdest.resolve_right hempty
    rw [directoryText, if_neg hempty, addSlash]
    by_cases hlast : dest.getLast? = some '/'
    case pos =>
      obtain ⟨pre, rfl⟩ := List.getLast?_eq_some_iff.mp hlast
      refine ⟨pre, if_pos hlast, ?_, ?_⟩
      · rw [nodes_append_sep, nodes_nil, List.append_nil]
      · cases pre
        case nil  => exact .inr rfl
        case cons => exact .inl habs
    case neg =>
      have hslash : '/' ∈ dest := List.mem_of_mem_head? habs
      refine ⟨dest, ?_, rfl, hdest⟩
      rw [if_neg hlast, if_neg fun h => h.right hslash]

theorem nodes_deleteSlash : nodes (deleteSlash dest) = nodes dest := by
  rw [deleteSlash]
  split
  case isFalse  => rfl
  case isTrue h =>
    obtain ⟨pre, rfl⟩ := List.getLast?_eq_some_iff.mp h.right
    rw [List.dropLast_concat, nodes_append_sep, nodes_nil, List.append_nil]

theorem head?_deleteSlash (h : dest.head? = some '/') : (deleteSlash dest).head? = some '/' := by
  rw [deleteSlash]
  split
  case isFalse  => exact h
  case isTrue h' =>
    cases dest
    case nil         => cases h
    case cons c dest =>
      cases dest
      case nil    => exact absurd (congrArg (fun c => [c]) (Option.some.inj h)) h'.left
      case cons d => exact h

-- The text with the target of a link in its place, before a separator at its end is deleted.
def joinedTarget (dest target : CString) : CString :=
  if isAbsoluteFileName target then target else directoryText dest ++ target

def splicedTarget (dest target : CString) : CString :=
  if target.head? = some '.' then joinedTarget dest target else deleteSlash (joinedTarget dest target)

theorem expandLinkNode_eq {target : CString} {lastnode : Bool} (hdest : dest.head? = some '/' ∨ dest = [])
    (hn : '/' ∉ node) (hfits : (joinedTarget dest target).length ≤ cfBufSize - cfBufferMargin) :
    expandLinkNode expand from' (dest ++ '/' :: node) target lastnode =
      if target.head? = some '.' then
        .next (splicedTarget dest target)
      else if splicedTarget dest target = from' then
        .returned true (splicedTarget dest target)
      else if lastnode then
        .next (splicedTarget dest target)
      else
        match expand (splicedTarget dest target) with
        | none            => .overflow
        | some (false, _) => .returned false (splicedTarget dest target)
        | some (true, _)  => .next (splicedTarget dest target) := by
  have hbuf : cfBufSize - cfBufferMargin < cfBufSize := by decide
  have hchop : addSlash (chopLastNode (dest ++ '/' :: node)) = directoryText dest := by
    rw [chopLastNode_append hn, directoryText]
  rw [expandLinkNode, hchop]
  by_cases hdot : target.head? = some '.'
  case pos =>
    obtain ⟨pre, hpre, -⟩ := directoryText_eq hdest
    have hrel : ¬isAbsoluteFileName target := by
      obtain ⟨target, rfl⟩ := List.head?_eq_some_iff.mp hdot
      simp [isAbsoluteFileName]
    have hjoined : joinedTarget dest target = pre ++ '/' :: target := by
      rw [joinedTarget, if_neg hrel, hpre, List.append_assoc, List.singleton_append]
    have hshort : ¬cfBufSize - cfBufferMargin < pre.length + 1 + target.length := by
      rw [hjoined, List.length_append, List.length_cons] at hfits
      omega
    rw [if_pos hdot, if_pos hdot, splicedTarget, if_pos hdot, hjoined, hpre, joinPath_sep, if_neg hshort]
  case neg =>
    have hshort : ¬cfBufSize ≤ (joinedTarget dest target).length :=
      Nat.not_le.mpr <| Nat.lt_of_le_of_lt hfits hbuf
    rw [if_neg hdot, if_neg hdot, splicedTarget, if_neg hdot]
    exact if_neg hshort

variable {target : CString} {n : Nat}

-- The text of a link begins anew or behind its directory.
theorem joinedTarget_cases (hdest : dest.head? = some '/' ∨ dest = [])
    (hq : isAbsoluteFileName target → target.head? = some '/') :
    (target.head? = some '/' ∧ joinedTarget dest target = target) ∨
      target.head? ≠ some '/' ∧ ∃ pre, (pre.head? = some '/' ∨ pre = []) ∧ nodes pre = nodes dest ∧
        joinedTarget dest target = pre ++ '/' :: target := by
  by_cases habs : target.head? = some '/'
  case pos =>
    have hname : isAbsoluteFileName target := by
      obtain ⟨target, rfl⟩ := List.head?_eq_some_iff.mp habs
      rfl
    exact .inl ⟨habs, by rw [joinedTarget, if_pos hname]⟩
  case neg =>
    obtain ⟨pre, hpre, hnodes, hhead⟩ := directoryText_eq hdest
    refine .inr ⟨habs, pre, hhead, hnodes, ?_⟩
    rw [joinedTarget, if_neg (mt hq habs), hpre, List.append_assoc, List.singleton_append]

theorem nodes_splicedTarget (hdest : dest.head? = some '/' ∨ dest = [])
    (hq : isAbsoluteFileName target → target.head? = some '/') : nodes (splicedTarget dest target) =
      if target.head? = some '/' then nodes target else nodes dest ++ nodes target := by
  have hjoined : nodes (splicedTarget dest target) = nodes (joinedTarget dest target) := by
    rw [splicedTarget]
    split
    case isTrue  => rfl
    case isFalse => exact nodes_deleteSlash
  rw [hjoined]
  obtain ⟨habs, heq⟩ | ⟨habs, pre, -, hnodes, heq⟩ := joinedTarget_cases hdest hq
  · rw [heq, if_pos habs]
  · rw [heq, if_neg habs, nodes_append_sep, hnodes]

theorem head?_splicedTarget (hdest : dest.head? = some '/' ∨ dest = [])
    (hq : isAbsoluteFileName target → target.head? = some '/') : (splicedTarget dest target).head? = some '/' := by
  have hjoined : (joinedTarget dest target).head? = some '/' := by
    obtain ⟨habs, heq⟩ | ⟨-, pre, hpre, -, heq⟩ := joinedTarget_cases hdest hq
    · rwa [heq]
    · rw [heq, head?_append_sep hpre]
  rw [splicedTarget]
  split
  case isTrue  => exact hjoined
  case isFalse => exact head?_deleteSlash hjoined

theorem length_splicedTarget_le : (splicedTarget dest target).length ≤ (joinedTarget dest target).length := by
  rw [splicedTarget]
  split
  case isTrue  => exact le_rfl
  case isFalse =>
    rw [deleteSlash]
    split
    case isTrue  => exact List.length_dropLast ▸ Nat.sub_le _ _
    case isFalse => exact le_rfl

theorem walk_splicedTarget (hdest : dest.head? = some '/' ∨ dest = [])
    (hq : isAbsoluteFileName target → target.head? = some '/') (hd : t.walk n t.root (nodes dest) = some d) :
    t.walk n t.root (nodes <| splicedTarget dest target) = t.walk n (t.base d target) (nodes target) := by
  rw [nodes_splicedTarget hdest hq, Tree.base]
  split
  case isTrue  => rfl
  case isFalse => rw [Tree.walk_append, hd, Option.bind_some]

theorem walk_append_name (hn : IsName node) (hd : t.walk n t.root (nodes dest) = some d)
    (hi : t.enter d node = some i) (hs : t.target i = none) :
    t.walk n t.root (nodes <| dest ++ '/' :: node) = some i := by
  rw [nodes_append_name hn, Tree.walk_append, hd, Option.bind_some, Tree.walk_of_enter hi hs]

-- Of a path without links, each node is looked at and taken over.
theorem expandLoop_direct (hnames : ∀ d node i, t.enter d node = some i → node.length < cfMaxLinkSize) {sp : CString}
    (hdest : dest.head? = some '/' ∨ dest = []) (hd : t.walk 0 t.root (nodes dest) = some d)
    (hsp : t.walk 0 d (nodes sp) = some e) (hup : ['.', '.'] ∉ nodes sp)
    (hfits : dest.length + weight (nodes sp) ≤ cfBufSize - cfBufferMargin) :
    ∃ dest', expandLoop (lstat t length) expand from' dest sp = some (true, dest') := by
  induction sp using node_induction generalizing dest d
  case nil                      => exact ⟨dest, by rw [expandLoop]⟩
  case sep sp ih                =>
    rw [nodes_sep] at hsp hup hfits
    rw [expandLoop_sep]
    exact ih hdest hd hsp hup hfits
  case node node rest hn hr ih =>
    rw [nodes_append hn hr] at hsp hup hfits
    rw [List.mem_cons, not_or] at hup
    obtain ⟨i, hi, hs, hrest⟩ := Tree.of_walk_zero_cons hsp
    have hweight : weight (node :: nodes rest) = node.length + 1 + weight (nodes rest) := by simp [weight]
    rw [expandLoop_node hn hr]
    by_cases hdot : node = ['.']
    case pos =>
      subst hdot
      obtain rfl := Tree.enter_dot hi
      have hnode : expandNode (lstat t length) expand from' dest ['.'] (rest = []) = .next dest := by
        rw [expandNode, if_neg (by decide), if_pos (.inl rfl)]
      rw [hnode]
      exact ih hdest hd hrest hup.right (by omega)
    case neg =>
      have hproper : IsProper node := ⟨hn, hdot, Ne.symm hup.left⟩
      have hlength : (dest ++ '/' :: node).length = dest.length + (node.length + 1) := by simp
      have hnode : expandNode (lstat t length) expand from' dest node (rest = []) = .next (dest ++ '/' :: node) := by
        have hlimit := Tree.walk_mono hd <| Nat.zero_le length
        rw [expandNode_status hdest hproper ⟨hnames d node i hi, by omega⟩ hlimit hi, hs]
      rw [hnode]
      exact ih (.inl <| head?_append_sep hdest) (walk_append_name hn hd hi hs) hrest hup.right (by omega)

theorem expandLinks_direct (hnames : ∀ d node i, t.enter d node = some i → node.length < cfMaxLinkSize) {level : Nat}
    (hlevel : level < cfMaxLinkLevel) (habs : from'.head? = some '/') (hwalk : t.walk 0 t.root (nodes from') = some e)
    (hup : ['.', '.'] ∉ nodes from') (hfits : from'.length ≤ cfBufSize - cfBufferMargin) :
    ∃ dest', expandLinks (lstat t length) level from' = some (true, dest') := by
  have hweight := weight_nodes_le.right fun c hc => (Option.some.inj <| habs.symm.trans hc).symm
  rw [expandLinks, if_pos hlevel]
  refine expandLoop_direct hnames (.inr rfl) Tree.walk_nil hwalk hup ?_
  rw [List.length_nil, Nat.zero_add]
  exact hweight.trans hfits

-- The texts that are put together of a path fit the buffers.
def PathFits (t : Tree) : CString → Nat → List Node → Prop
  | _, _, []              => True
  | dest, d, node :: path => NodeFits dest node ∧ ∀ i, t.enter d node = some i →
    match t.target i with
    | none        => PathFits t (dest ++ '/' :: node) i path
    | some target => (joinedTarget dest target).length ≤ cfBufSize - cfBufferMargin ∧
      ∀ k, t.walk cfMaxLinkLevel (t.base d target) (nodes target) = some k →
        PathFits t (splicedTarget dest target) k path

-- The targets of the links do not lead through other ones, but maybe to one for the last node. A text that is expanded
-- once more has no nodes that go up: those of the target and, for a relative one, those before it since the last
-- absolute one.
inductive Clear (t : Tree) : Bool → Nat → List Node → Prop
  | last {up : Bool} {d i : Nat} {node : Node} : t.enter d node = some i →
    (∀ target, t.target i = some target → (isAbsoluteFileName target → target.head? = some '/') ∧
      ∃ k, t.walk 0 (t.base d target) (nodes target).dropLast = some k) → Clear t up d [node]
  | file {up : Bool} {d i : Nat} {node : Node} {path : List Node} : t.enter d node = some i → t.target i = none →
    Clear t up i path → Clear t up d (node :: path)
  | dots {up : Bool} {d i k : Nat} {node : Node} {target : CString} {path : List Node} : t.enter d node = some i →
    t.target i = some target → target.head? = some '.' → t.walk 0 d (nodes target) = some k →
    Clear t (up || ['.', '.'] ∈ nodes target) k path → Clear t up d (node :: path)
  | absolute {up : Bool} {d i k : Nat} {node : Node} {target : CString} {path : List Node} : t.enter d node = some i →
    t.target i = some target → target.head? = some '/' → t.walk 0 t.root (nodes target) = some k →
    ['.', '.'] ∉ nodes target → Clear t false k path → Clear t up d (node :: path)
  | relative {d i k : Nat} {node : Node} {target : CString} {path : List Node} : t.enter d node = some i →
    t.target i = some target → target.head? ≠ some '.' → ¬isAbsoluteFileName target →
    t.walk 0 d (nodes target) = some k → ['.', '.'] ∉ nodes target → Clear t false k path →
    Clear t false d (node :: path)

-- A text leads to a directory, without links if the length is zero.
structure Reached (t : Tree) (n : Nat) (dest : CString) (d : Nat) : Prop where
  head : dest.head? = some '/' ∨ dest = []
  walk : t.walk n t.root (nodes dest) = some d

variable {up : Bool} {path pre : List Node} {k j m : Nat}

theorem Reached.append_name (h : Reached t n dest d) (hn : IsName node) (hi : t.enter d node = some i)
    (hs : t.target i = none) : Reached t n (dest ++ '/' :: node) i where
  head := .inl <| head?_append_sep h.head
  walk := walk_append_name hn h.walk hi hs

theorem Reached.splice (h : Reached t n dest d) (hq : isAbsoluteFileName target → target.head? = some '/')
    (hk : t.walk n (t.base d target) (nodes target) = some k) : Reached t n (splicedTarget dest target) k where
  head := .inl <| head?_splicedTarget h.head hq
  walk := by rw [walk_splicedTarget h.head hq h.walk, hk]

theorem Reached.mono (h : Reached t n dest d) (hnm : n ≤ m) : Reached t m dest d where
  head := h.head
  walk := Tree.walk_mono h.walk hnm

theorem head?_flatMap_sep : ∀ c ∈ (path.flatMap ('/' :: ·)).head?, c = '/' := by
  cases path
  case nil  => simp
  case cons => exact fun c hc => (Option.some.inj hc).symm

theorem expandLoop_cons (hn : IsName node) :
    expandLoop lstat' expand from' dest ((node :: path).flatMap ('/' :: ·)) =
      match expandNode lstat' expand from' dest node (path = []) with
      | .overflow             => none
      | .returned result dest => some (result, dest)
      | .next dest            => expandLoop lstat' expand from' dest (path.flatMap ('/' :: ·)) := by
  have hempty : path.flatMap ('/' :: ·) = [] ↔ path = [] := by
    cases path <;> simp
  rw [List.flatMap_cons, List.cons_append, expandLoop_sep, expandLoop_node hn head?_flatMap_sep]
  simp only [hempty]

-- A link is left with its target in its place, or the text is that of the whole path.
theorem expandNode_link {lastnode : Bool} (h : Reached t length dest d) (hn : IsProper node)
    (hfits : PathFits t dest d (node :: path)) (hi : t.enter d node = some i) (hs : t.target i = some target) :
    expandNode (lstat t length) expand from' dest node lastnode =
      if target.head? = some '.' then
        .next (splicedTarget dest target)
      else if splicedTarget dest target = from' then
        .returned true (splicedTarget dest target)
      else if lastnode then
        .next (splicedTarget dest target)
      else
        match expand (splicedTarget dest target) with
        | none            => .overflow
        | some (false, _) => .returned false (splicedTarget dest target)
        | some (true, _)  => .next (splicedTarget dest target) := by
  obtain ⟨hnode, hrest⟩ := hfits
  have htarget := hrest i hi
  simp only [hs] at htarget
  have hshort : target.length ≤ cfBufSize - 1 := by
    have hbuf : cfBufSize - cfBufferMargin ≤ cfBufSize - 1 := by decide
    have hle : target.length ≤ (joinedTarget dest target).length := by
      rw [joinedTarget]
      split
      case isTrue  => exact le_rfl
      case isFalse => simp
    exact hle.trans <| htarget.left.trans hbuf
  rw [expandNode_status h.head hn hnode h.walk hi, hs]
  simp only [List.take_of_length_le hshort]
  exact expandLinkNode_eq h.head hn.no_slash htarget.left

theorem expandNode_file {lastnode : Bool} (h : Reached t length dest d) (hn : IsProper node)
    (hfits : PathFits t dest d (node :: path)) (hi : t.enter d node = some i) (hs : t.target i = none) :
    expandNode (lstat t length) expand from' dest node lastnode = .next (dest ++ '/' :: node) := by
  rw [expandNode_status h.head hn hfits.left h.walk hi, hs]

theorem PathFits.file (hfits : PathFits t dest d (node :: path)) (hi : t.enter d node = some i)
    (hs : t.target i = none) : PathFits t (dest ++ '/' :: node) i path := by
  have hfile := hfits.right i hi
  simpa only [hs] using hfile

theorem PathFits.joined (hfits : PathFits t dest d (node :: path)) (hi : t.enter d node = some i)
    (hs : t.target i = some target) : (joinedTarget dest target).length ≤ cfBufSize - cfBufferMargin := by
  obtain ⟨-, hrest⟩ := hfits
  have htarget := hrest i hi
  simp only [hs] at htarget
  exact htarget.left

theorem PathFits.splice (hfits : PathFits t dest d (node :: path)) (hi : t.enter d node = some i)
    (hs : t.target i = some target) (hk : t.walk n (t.base d target) (nodes target) = some k)
    (hn : n ≤ cfMaxLinkLevel) :
    PathFits t (splicedTarget dest target) k path := by
  obtain ⟨-, hrest⟩ := hfits
  have htarget := hrest i hi
  simp only [hs] at htarget
  exact htarget.right k <| Tree.walk_mono hk hn

-- What is said of the expansion of a path that leads to a file: it names the file, and none of its nodes before the
-- last one is a link.
structure ExpansionOf (t : Tree) (length : Nat) (dest : CString) (j : Nat) : Prop where
  names  : t.lookup length dest = some j
  direct : t.walk 0 t.root (nodes dest).dropLast ≠ none

theorem expansion_of_reached (h : Reached t length dest j) (habs : dest.head? = some '/')
    (hd : t.walk 0 t.root (nodes dest).dropLast ≠ none) : ExpansionOf t length dest j where
  names  := by
    have hne : dest ≠ [] := by
      rintro rfl
      cases habs
    rw [Tree.lookup, if_neg hne, Tree.base, if_pos habs, h.walk]
  direct := hd

theorem Reached.splice_direct (h : Reached t 0 dest d) (hq : isAbsoluteFileName target → target.head? = some '/')
    (hk : t.walk 0 (t.base d target) (nodes target).dropLast = some k) :
    t.walk 0 t.root (nodes <| splicedTarget dest target).dropLast ≠ none := by
  rw [nodes_splicedTarget h.head hq]
  rw [Tree.base] at hk
  split
  case isTrue habs  =>
    rw [if_pos habs] at hk
    rw [hk]
    exact Option.some_ne_none k
  case isFalse habs =>
    rw [if_neg habs] at hk
    by_cases hempty : nodes target = []
    case pos =>
      rw [hempty, List.append_nil]
      exact Tree.walk_dropLast_ne_none h.walk
    case neg =>
      rw [List.dropLast_append_of_ne_nil hempty, Tree.walk_append, h.walk, Option.bind_some, hk]
      exact Option.some_ne_none k

theorem expansion_last (hr : Reached t 0 dest d) (hn : IsProper node) (hfits : PathFits t dest d [node])
    (hi : t.enter d node = some i) (hm : m ≤ length) (hj : t.walk m d [node] = some j)
    (hs : ∀ target, t.target i = some target → (isAbsoluteFileName target → target.head? = some '/') ∧
      ∃ k, t.walk 0 (t.base d target) (nodes target).dropLast = some k) :
    ∃ dest', expandLoop (lstat t length) expand from' dest ([node].flatMap ('/' :: ·)) = some (true, dest') ∧
      ExpansionOf t length dest' j := by
  have hrl := hr.mono <| Nat.zero_le length
  rw [expandLoop_cons hn.toIsName]
  obtain ⟨i', hi', ⟨hfile, rfl⟩ | ⟨target, m', htarget, rfl, hwalk⟩⟩ := Tree.of_walk_singleton hj
  · cases hi.symm.trans hi'
    refine ⟨dest ++ '/' :: node, ?_, ?_⟩
    · rw [expandNode_file hrl hn hfits hi hfile]
      exact expandLoop_nil
    · refine expansion_of_reached (hrl.append_name hn.toIsName hi hfile) (head?_append_sep hr.head) ?_
      rw [nodes_append_name hn.toIsName, List.dropLast_concat, hr.walk]
      exact Option.some_ne_none d
  · cases hi.symm.trans hi'
    obtain ⟨hq, k, hk⟩ := hs target htarget
    refine ⟨splicedTarget dest target, ?_, ?_⟩
    · rw [expandNode_link hrl hn hfits hi htarget]
      split_ifs
      case pos => exact expandLoop_nil
      case pos => rfl
      case pos => exact expandLoop_nil
      case neg h => exact absurd rfl h
    · have hlong : t.walk length (t.base d target) (nodes target) = some j :=
        Tree.walk_mono hwalk <| Nat.le_of_succ_le hm
      exact expansion_of_reached (hrl.splice hq hlong) (head?_splicedTarget hr.head hq) (hr.splice_direct hq hk)

-- The state of the loop: the text before the rest of the path leads where the path itself does up to there.
structure Expanding (t : Tree) (from' dest : CString) (up : Bool) (d m j : Nat) (path : List Node) : Prop where
  reached : Reached t 0 dest d
  up      : up = false → ['.', '.'] ∉ nodes dest
  proper  : ∀ node ∈ path, IsProper node
  fits    : PathFits t dest d path
  behind  : ∃ pre, nodes from' = pre ++ path ∧ ∀ d', t.walk 0 t.root pre = some d' → d' = d
  leads   : t.walk m d path = some j

theorem Expanding.file (h : Expanding t from' dest up d m j (node :: path)) (hi : t.enter d node = some i)
    (hs : t.target i = none) : Expanding t from' (dest ++ '/' :: node) up i m j path := by
  have hn := h.proper node List.mem_cons_self
  obtain ⟨pre, hfrom, hpre⟩ := h.behind
  refine ⟨h.reached.append_name hn.toIsName hi hs, fun hup => ?up, fun node hnode => h.proper node ?_, ?fits,
    ⟨pre ++ [node], ?split, fun d' hd' => ?pre⟩, ?leads⟩
  case up    =>
    rw [nodes_append_name hn.toIsName, List.mem_append, List.mem_singleton, not_or]
    exact ⟨h.up hup, hn.ne_dotdot.symm⟩
  case fits  => exact h.fits.file hi hs
  case split => rw [hfrom, List.append_assoc, List.singleton_append]
  case pre   =>
    rw [Tree.walk_append, Option.bind_eq_some_iff] at hd'
    obtain ⟨d'', hd'', hnode⟩ := hd'
    rw [hpre d'' hd'', Tree.walk_of_enter hi hs] at hnode
    exact (Option.some.inj hnode).symm
  case leads =>
    have hleads := h.leads
    rwa [Tree.walk_cons, Tree.walk_of_enter hi hs] at hleads
  exact List.mem_cons_of_mem _ hnode

theorem Expanding.splice {up' : Bool} (h : Expanding t from' dest up d m j (node :: path))
    (hi : t.enter d node = some i) (hs : t.target i = some target) (hq : isAbsoluteFileName target → target.head? = some '/')
    (hk : t.walk 0 (t.base d target) (nodes target) = some k)
    (hup : up' = false → ['.', '.'] ∉ nodes (splicedTarget dest target)) :
    Expanding t from' (splicedTarget dest target) up' k m j path := by
  obtain ⟨pre, hfrom, hpre⟩ := h.behind
  refine ⟨h.reached.splice hq hk, hup, fun node hnode => h.proper node <| List.mem_cons_of_mem _ hnode,
    h.fits.splice hi hs hk (Nat.zero_le _), ⟨pre ++ [node], ?split, fun d' hd' => ?pre⟩,
    Tree.walk_behind_link hi hs hk h.leads⟩
  case split => rw [hfrom, List.append_assoc, List.singleton_append]
  case pre   => exact absurd hd' <| Tree.walk_zero_ne hi hs hpre

-- A link before the last node is replaced if its target goes through no further ones and does not go up where it is
-- expanded once more.
theorem Expanding.expandLoop_link (hnames : ∀ d node i, t.enter d node = some i → node.length < cfMaxLinkSize)
    (h : Expanding t from' dest up d m j (node :: path)) (hi : t.enter d node = some i) (hs : t.target i = some target)
    (hq : isAbsoluteFileName target → target.head? = some '/')
    (hk : t.walk 0 (t.base d target) (nodes target) = some k)
    (hup : target.head? ≠ some '.' → ['.', '.'] ∉ nodes (splicedTarget dest target)) (hpath : path ≠ []) :
    expandLoop (lstat t length) (expandLinks (lstat t length) 1) from' dest ((node :: path).flatMap ('/' :: ·)) =
      expandLoop (lstat t length) (expandLinks (lstat t length) 1) from' (splicedTarget dest target)
        (path.flatMap ('/' :: ·)) := by
  have hn := h.proper node List.mem_cons_self
  have hspliced := h.reached.splice hq hk
  have hne : splicedTarget dest target ≠ from' := by
    rintro rfl
    obtain ⟨pre, hfrom, hpre⟩ := h.behind
    exact Tree.walk_zero_ne hi hs hpre <| hfrom ▸ hspliced.walk
  have hnode : expandNode (lstat t length) (expandLinks (lstat t length) 1) from' dest node false =
      .next (splicedTarget dest target) := by
    rw [expandNode_link (h.reached.mono <| Nat.zero_le length) hn h.fits hi hs, if_neg hne, if_neg Bool.false_ne_true]
    split
    case isTrue       => rfl
    case isFalse hdot =>
      have hshort := length_splicedTarget_le.trans <| h.fits.joined hi hs
      obtain ⟨dest', hexpand⟩ := @expandLinks_direct t length k (splicedTarget dest target) hnames 1 (by decide)
        (head?_splicedTarget h.reached.head hq) hspliced.walk (hup hdot) hshort
      rw [hexpand]
  rw [expandLoop_cons hn.toIsName, decide_eq_false hpath, hnode]

theorem Clear.ne_nil (h : Clear t up d path) : path ≠ [] := by
  cases h <;> exact List.cons_ne_nil _ _

theorem not_isAbsoluteFileName (h : target.head? = some '.') : ¬isAbsoluteFileName target := by
  obtain ⟨target, rfl⟩ := List.head?_eq_some_iff.mp h
  simp [isAbsoluteFileName]

theorem expandLoop_clear (hnames : ∀ d node i, t.enter d node = some i → node.length < cfMaxLinkSize)
    (hm : m ≤ length) (hclear : Clear t up d path) (h : Expanding t from' dest up d m j path) :
    ∃ dest', expandLoop (lstat t length) (expandLinks (lstat t length) 1) from' dest (path.flatMap ('/' :: ·)) =
      some (true, dest') ∧ ExpansionOf t length dest' j := by
  induction hclear generalizing dest
  case last hi hs                        =>
    exact expansion_last h.reached (h.proper _ List.mem_cons_self) h.fits hi hm h.leads hs
  case file up d i node path hi hs _ ih  =>
    have hn := h.proper node List.mem_cons_self
    rw [expandLoop_cons hn.toIsName, expandNode_file (h.reached.mono <| Nat.zero_le length) hn h.fits hi hs]
    exact ih <| h.file hi hs
  case dots up d i k node target path hi hs hdot hk hclear ih =>
    have habs : target.head? ≠ some '/' := by
      rw [hdot]
      decide
    have hq (hname : isAbsoluteFileName target) : target.head? = some '/' :=
      absurd hname <| not_isAbsoluteFileName hdot
    have hk' : t.walk 0 (t.base d target) (nodes target) = some k := by rwa [Tree.base, if_neg habs]
    have hup (hf : (up || ['.', '.'] ∈ nodes target) = false) : ['.', '.'] ∉ nodes (splicedTarget dest target) := by
      rw [Bool.or_eq_false_iff, decide_eq_false_iff_not] at hf
      rw [nodes_splicedTarget h.reached.head hq, if_neg habs, List.mem_append, not_or]
      exact ⟨h.up hf.left, hf.right⟩
    rw [h.expandLoop_link hnames hi hs hq hk' (absurd hdot) hclear.ne_nil]
    exact ih <| h.splice hi hs hq hk' hup
  case absolute up d i k node target path hi hs habs hk hups hclear ih =>
    have hk' : t.walk 0 (t.base d target) (nodes target) = some k := by rwa [Tree.base, if_pos habs]
    have hup : ['.', '.'] ∉ nodes (splicedTarget dest target) := by
      rwa [nodes_splicedTarget h.reached.head fun _ => habs, if_pos habs]
    rw [h.expandLoop_link hnames hi hs (fun _ => habs) hk' (fun _ => hup) hclear.ne_nil]
    exact ih <| h.splice hi hs (fun _ => habs) hk' fun _ => hup
  case relative d i k node target path hi hs _ hrel hk hups hclear ih =>
    have habs : target.head? ≠ some '/' := by
      intro habs
      obtain ⟨target, rfl⟩ := List.head?_eq_some_iff.mp habs
      exact hrel rfl
    have hk' : t.walk 0 (t.base d target) (nodes target) = some k := by rwa [Tree.base, if_neg habs]
    have hup : ['.', '.'] ∉ nodes (splicedTarget dest target) := by
      rw [nodes_splicedTarget h.reached.head (absurd · hrel), if_neg habs, List.mem_append, not_or]
      exact ⟨h.up rfl, hups⟩
    rw [h.expandLoop_link hnames hi hs (absurd · hrel) hk' (fun _ => hup) hclear.ne_nil]
    exact ih <| h.splice hi hs (absurd · hrel) hk' fun _ => hup

end

-- The links of a path have targets that are not absolute.
inductive Relative (t : Tree) : Nat → List Node → Prop
  | nil {d : Nat} : Relative t d []
  | file {d i : Nat} {node : Node} {path : List Node} : t.enter d node = some i → t.target i = none →
    Relative t i path → Relative t d (node :: path)
  | link {d i k n : Nat} {node : Node} {target : CString} {path : List Node} : t.enter d node = some i →
    t.target i = some target → target ≠ [] → ¬isAbsoluteFileName target → t.walk n d (nodes target) = some k →
    Relative t k path → Relative t d (node :: path)

-- The target of a link leads through another one, and is not replaced later on. For the last node, its target may lead
-- to a link.
inductive Spoiled (t : Tree) : Nat → List Node → Prop
  | last {d i : Nat} {node : Node} {target : CString} : t.enter d node = some i → t.target i = some target →
    (isAbsoluteFileName target → target.head? = some '/') →
    t.walk 0 (t.base d target) (nodes target).dropLast = none → Spoiled t d [node]
  | link {d i k n : Nat} {node : Node} {target : CString} {path : List Node} : t.enter d node = some i →
    t.target i = some target → (isAbsoluteFileName target → target.head? = some '/') →
    t.walk 0 (t.base d target) (nodes target) = none → t.walk n (t.base d target) (nodes target) = some k → path ≠ [] →
    Relative t k path → Spoiled t d (node :: path)
  | file {d i : Nat} {node : Node} {path : List Node} : t.enter d node = some i → t.target i = none →
    Spoiled t i path → Spoiled t d (node :: path)
  | later {d i k n : Nat} {node : Node} {target : CString} {path : List Node} : t.enter d node = some i →
    t.target i = some target → (isAbsoluteFileName target → target.head? = some '/') →
    t.walk n (t.base d target) (nodes target) = some k → Spoiled t k path → Spoiled t d (node :: path)

section
variable {t : Tree} {length d i k j m : Nat} {node : Node} {dest dest' from' target : CString} {path : List Node}
  {expand : CString → Option (Bool × CString)}

-- The state of the loop, in which the text may lead through links.
structure Following (t : Tree) (length : Nat) (dest : CString) (d m j : Nat) (path : List Node) : Prop where
  reached : Reached t length dest d
  proper  : ∀ node ∈ path, IsProper node
  fits    : PathFits t dest d path
  short   : m ≤ length ∧ m ≤ cfMaxLinkLevel
  leads   : t.walk m d path = some j

theorem Following.file (h : Following t length dest d m j (node :: path)) (hi : t.enter d node = some i)
    (hs : t.target i = none) : Following t length (dest ++ '/' :: node) i m j path where
  reached := h.reached.append_name (h.proper node List.mem_cons_self).toIsName hi hs
  proper  := fun node hnode => h.proper node <| List.mem_cons_of_mem _ hnode
  fits    := h.fits.file hi hs
  short   := h.short
  leads   := by
    have hleads := h.leads
    rwa [Tree.walk_cons, Tree.walk_of_enter hi hs] at hleads

theorem Following.splice {n : Nat} (h : Following t length dest d m j (node :: path)) (hi : t.enter d node = some i)
    (hs : t.target i = some target) (hq : isAbsoluteFileName target → target.head? = some '/')
    (hk : t.walk n (t.base d target) (nodes target) = some k) :
    Following t length (splicedTarget dest target) k m j path := by
  have hleads := h.leads
  rw [Tree.walk_cons, Option.bind_eq_some_iff] at hleads
  obtain ⟨k', hnode, -⟩ := hleads
  obtain ⟨i', hi', ⟨hs', -⟩ | ⟨target', m', hs', rfl, hwalk⟩⟩ := Tree.of_walk_singleton hnode
  · rw [Option.some.inj <| hi.symm.trans hi', hs'] at hs
    cases hs
  · cases hi.symm.trans hi'
    cases hs.symm.trans hs'
    cases Tree.walk_unique hk hwalk
    exact {
      reached := h.reached.splice hq <| Tree.walk_mono hwalk <| Nat.le_of_succ_le h.short.left
      proper  := fun node hnode => h.proper node <| List.mem_cons_of_mem _ hnode
      fits    := h.fits.splice hi hs hwalk <| Nat.le_of_succ_le h.short.right
      short   := h.short
      leads   := Tree.walk_behind_link hi hs hk h.leads
    }

-- If the loop comes to an end at a link, it is with the target in its place.
theorem Following.of_expandLoop_link (h : Following t length dest d m j (node :: path)) (hi : t.enter d node = some i)
    (hs : t.target i = some target) (hloop : expandLoop (lstat t length) expand from' dest
      ((node :: path).flatMap ('/' :: ·)) = some (true, dest')) :
    (dest' = splicedTarget dest target ∧ (dest' = from' ∨ path = [])) ∨
      expandLoop (lstat t length) expand from' (splicedTarget dest target) (path.flatMap ('/' :: ·)) =
        some (true, dest') := by
  have hn := h.proper node List.mem_cons_self
  rw [expandLoop_cons hn.toIsName, expandNode_link h.reached hn h.fits hi hs] at hloop
  split_ifs at hloop with hdot hfrom hlast
  · exact .inr hloop
  · obtain rfl := (Prod.mk.inj <| Option.some.inj hloop).right
    exact .inl ⟨rfl, .inl hfrom⟩
  · exact .inr hloop
  · cases hexpand : expand (splicedTarget dest target)
    case none        => simp [hexpand] at hloop
    case some result =>
      obtain ⟨ok, text⟩ := result
      cases ok
      case false => simp [hexpand] at hloop
      case true  =>
        simp only [hexpand] at hloop
        exact .inr hloop

theorem Following.of_expandLoop_file (h : Following t length dest d m j (node :: path)) (hi : t.enter d node = some i)
    (hs : t.target i = none) (hloop : expandLoop (lstat t length) expand from' dest
      ((node :: path).flatMap ('/' :: ·)) = some (true, dest')) :
    expandLoop (lstat t length) expand from' (dest ++ '/' :: node) (path.flatMap ('/' :: ·)) = some (true, dest') := by
  have hn := h.proper node List.mem_cons_self
  rwa [expandLoop_cons hn.toIsName, expandNode_file h.reached hn h.fits hi hs] at hloop

theorem of_expandLoop_nil (hloop : expandLoop (lstat t length) expand from' dest
    (([] : List Node).flatMap ('/' :: ·)) = some (true, dest')) : dest' = dest := by
  rw [List.flatMap_nil, expandLoop_nil] at hloop
  exact (Prod.mk.inj <| Option.some.inj hloop).right.symm

-- The link that is left in the text stays there.
theorem Relative.of_expandLoop (hrel : Relative t d path) (h : Following t length dest d m j path)
    (hnone : t.walk 0 t.root (nodes dest) = none) (hne : path ≠ [])
    (hloop : expandLoop (lstat t length) expand from' dest (path.flatMap ('/' :: ·)) = some (true, dest')) :
    t.walk 0 t.root (nodes dest').dropLast = none := by
  induction hrel generalizing dest
  case nil                                                => exact absurd rfl hne
  case file d i node path hi hs _ ih                      =>
    have hn := h.proper node List.mem_cons_self
    have hnext := h.of_expandLoop_file hi hs hloop
    by_cases hpath : path = []
    case pos =>
      subst hpath
      rw [of_expandLoop_nil hnext, nodes_append_name hn.toIsName, List.dropLast_concat, hnone]
    case neg =>
      refine ih (h.file hi hs) ?_ hpath hnext
      rw [nodes_append_name hn.toIsName, Tree.walk_append_none hnone]
  case link d i k n node target path hi hs hempty habs hk _ ih =>
    have hq (hname : isAbsoluteFileName target) : target.head? = some '/' := absurd hname habs
    have hhead : target.head? ≠ some '/' := by
      intro hhead
      obtain ⟨target, rfl⟩ := List.head?_eq_some_iff.mp hhead
      exact habs rfl
    have hk' : t.walk n (t.base d target) (nodes target) = some k := by rwa [Tree.base, if_neg hhead]
    have hspliced : nodes (splicedTarget dest target) = nodes dest ++ nodes target := by
      rw [nodes_splicedTarget h.reached.head hq, if_neg hhead]
    have hlast : t.walk 0 t.root (nodes <| splicedTarget dest target).dropLast = none := by
      rw [hspliced, List.dropLast_append_of_ne_nil (nodes_ne_nil hempty hhead), Tree.walk_append_none hnone]
    obtain ⟨rfl, -⟩ | hnext := h.of_expandLoop_link hi hs hloop
    · exact hlast
    · by_cases hpath : path = []
      case pos =>
        subst hpath
        rw [of_expandLoop_nil hnext, hlast]
      case neg =>
        refine ih (h.splice hi hs hq hk') ?_ hpath hnext
        rw [hspliced, Tree.walk_append_none hnone]

theorem Spoiled.ne_nil (h : Spoiled t d path) : path ≠ [] := by
  cases h <;> exact List.cons_ne_nil _ _

-- The text of a link whose target leads through another one.
theorem Reached.splice_none (h : Reached t length dest d) (hq : isAbsoluteFileName target → target.head? = some '/') :
    (t.walk 0 (t.base d target) (nodes target) = none → t.walk 0 t.root (nodes <| splicedTarget dest target) = none) ∧
    (t.walk 0 (t.base d target) (nodes target).dropLast = none →
      t.walk 0 t.root (nodes <| splicedTarget dest target).dropLast = none) := by
  have hdest {path : List Node} (hnone : t.walk 0 d path = none) : t.walk 0 t.root (nodes dest ++ path) = none := by
    rw [Tree.walk_append]
    cases hd : t.walk 0 t.root (nodes dest)
    case none    => rfl
    case some d' => rwa [Option.bind_some, Tree.walk_unique hd h.walk]
  rw [nodes_splicedTarget h.head hq, Tree.base]
  split
  case isTrue  => exact ⟨id, id⟩
  case isFalse =>
    refine ⟨hdest, fun hnone => ?_⟩
    have hne : nodes target ≠ [] := by
      intro hempty
      rw [hempty, List.dropLast_nil, Tree.walk_nil] at hnone
      cases hnone
    rw [List.dropLast_append_of_ne_nil hne]
    exact hdest hnone

theorem Spoiled.of_expandLoop (hspoiled : Spoiled t d path) (h : Following t length dest d m j path)
    (hbehind : ∃ pre, nodes from' = pre ++ path ∧ ∀ d', t.walk 0 t.root pre = some d' → d' = d)
    (hloop : expandLoop (lstat t length) expand from' dest (path.flatMap ('/' :: ·)) = some (true, dest')) :
    t.walk 0 t.root (nodes dest').dropLast = none := by
  -- A link of the path is before its last node.
  have hearly {d i : Nat} {node : Node} {target : CString} {path : List Node}
      (hbehind : ∃ pre, nodes from' = pre ++ node :: path ∧ ∀ d', t.walk 0 t.root pre = some d' → d' = d)
      (hi : t.enter d node = some i) (hs : t.target i = some target) (hpath : path ≠ []) :
      t.walk 0 t.root (nodes from').dropLast = none := by
    obtain ⟨pre, hfrom, hpre⟩ := hbehind
    rw [hfrom, List.dropLast_append_of_ne_nil (List.cons_ne_nil _ _), List.dropLast_cons_of_ne_nil hpath]
    exact Option.eq_none_iff_forall_ne_some.mpr fun e => Tree.walk_zero_ne hi hs hpre
  have hbehind' {d i k : Nat} {node : Node} {target : CString} {path : List Node}
      (hbehind : ∃ pre, nodes from' = pre ++ node :: path ∧ ∀ d', t.walk 0 t.root pre = some d' → d' = d)
      (hi : t.enter d node = some i) (hs : t.target i = some target) :
      ∃ pre, nodes from' = pre ++ path ∧ ∀ d', t.walk 0 t.root pre = some d' → d' = k := by
    obtain ⟨pre, hfrom, hpre⟩ := hbehind
    refine ⟨pre ++ [node], by rw [hfrom, List.append_assoc, List.singleton_append], fun d' hd' => ?_⟩
    exact absurd hd' <| Tree.walk_zero_ne hi hs hpre
  induction hspoiled generalizing dest
  case last d i node target hi hs hq hnone                    =>
    have hlast := (h.reached.splice_none hq).right hnone
    obtain ⟨rfl, -⟩ | hnext := h.of_expandLoop_link hi hs hloop
    · exact hlast
    · rw [of_expandLoop_nil hnext, hlast]
  case file d i node path hi hs _ ih                          =>
    obtain ⟨pre, hfrom, hpre⟩ := hbehind
    refine ih (h.file hi hs) ⟨pre ++ [node], ?_, fun d' hd' => ?_⟩ <| h.of_expandLoop_file hi hs hloop
    · rw [hfrom, List.append_assoc, List.singleton_append]
    · rw [Tree.walk_append, Option.bind_eq_some_iff] at hd'
      obtain ⟨d'', hd'', hnode⟩ := hd'
      rw [hpre d'' hd'', Tree.walk_of_enter hi hs] at hnode
      exact (Option.some.inj hnode).symm
  case link d i k n node target path hi hs hq hnone hk hpath hrel =>
    obtain ⟨-, rfl | hempty⟩ | hnext := h.of_expandLoop_link hi hs hloop
    · exact hearly hbehind hi hs hpath
    · exact absurd hempty hpath
    · exact hrel.of_expandLoop (h.splice hi hs hq hk) ((h.reached.splice_none hq).left hnone) hpath hnext
  case later d i k n node target path hi hs hq hk hspoiled ih =>
    obtain ⟨-, rfl | hempty⟩ | hnext := h.of_expandLoop_link hi hs hloop
    · exact hearly hbehind hi hs hspoiled.ne_nil
    · exact absurd hempty hspoiled.ne_nil
    · exact ih (h.splice hi hs hq hk) (hbehind' hbehind hi hs) hnext

end

-- The claims on a tree and a path that the expansion is called with.
structure Expandable (t : Tree) (from' : CString) (j : Nat) : Prop where
  names    : ∀ d node i, t.enter d node = some i → node.length < cfMaxLinkSize
  absolute : from'.head? = some '/'
  normal   : compressPath from' = (true, from')
  leads    : t.walk (cfMaxLinkLevel - 1) t.root (nodes from') = some j
  fits     : PathFits t [] t.root (nodes from')

section
variable {t : Tree} {length j : Nat} {from' : CString}

theorem Expandable.proper (h : Expandable t from' j) : ∀ node ∈ nodes from', IsProper node := by
  have hproper := @isProper_of_mem_normalNodes from'
  have hnodes : nodes from' = normalNodes from' := by
    conv => lhs; rw [of_compressPath h.absolute h.normal]
    exact nodes_text fun node hnode => (hproper node hnode).toIsName
  exact hnodes ▸ hproper

theorem Expandable.expandLinks_eq (h : Expandable t from' j) (hne : nodes from' ≠ []) :
    expandLinks (lstat t length) 0 from' = expandLoop (lstat t length) (expandLinks (lstat t length) 1) from' []
      ((nodes from').flatMap ('/' :: ·)) := by
  have htext := of_compressPath h.absolute h.normal
  have hnodes : nodes from' = normalNodes from' := by
    conv => lhs; rw [htext]
    exact nodes_text fun node hnode => (@isProper_of_mem_normalNodes from' node hnode).toIsName
  have hflat : (nodes from').flatMap ('/' :: ·) = from' := by
    conv => rhs; rw [htext, normalForm, ←hnodes, text, if_neg hne]
  rw [hflat, expandLinks, if_pos (by decide)]

theorem Expandable.expanding (h : Expandable t from' j) :
    Expanding t from' [] false t.root (cfMaxLinkLevel - 1) j (nodes from') where
  reached := ⟨.inr rfl, Tree.walk_nil⟩
  up      := by simp [nodes_nil]
  proper  := h.proper
  fits    := h.fits
  behind  := ⟨[], rfl, fun d' hd' => (Option.some.inj hd').symm⟩
  leads   := h.leads

end

-- A path is expanded if the links on its way are such that the function does all of it. It is not if the text keeps a
-- link before its last node, nor if there is no node.
theorem expandLinks_exact (t : Tree) (length : Nat) (from' : CString) (j : Nat) (hlength : cfMaxLinkLevel ≤ length)
    (h : Expandable t from' j) :
    (Clear t false t.root (nodes from') →
      ∃ dest, expandLinks (lstat t length) 0 from' = some (true, dest) ∧ ExpansionOf t length dest j) ∧
    (from' = ['/'] ∨ Spoiled t t.root (nodes from') →
      ¬∃ dest, expandLinks (lstat t length) 0 from' = some (true, dest) ∧ ExpansionOf t length dest j) := by
  refine ⟨fun hclear => ?clear, ?spoiled⟩
  case clear =>
    rw [h.expandLinks_eq hclear.ne_nil]
    exact expandLoop_clear h.names (Nat.le_of_succ_le hlength) hclear h.expanding
  case spoiled =>
    rintro (rfl | hspoiled) ⟨dest, hexpand, hexpansion⟩
    · rw [expandLinks, if_pos (by decide), expandLoop_sep, expandLoop_nil] at hexpand
      cases hexpand
      have hnames := hexpansion.names
      cases hnames
    · rw [h.expandLinks_eq hspoiled.ne_nil] at hexpand
      have hstate : Following t length [] t.root (cfMaxLinkLevel - 1) j (nodes from') :=
        ⟨⟨.inr rfl, Tree.walk_nil⟩, h.proper, h.fits, ⟨Nat.le_of_succ_le hlength, by decide⟩, h.leads⟩
      exact hexpansion.direct <| hspoiled.of_expandLoop hstate h.expanding.behind hexpand

-- The link l leads to the link m, which leads to the directory d with the file x.
def chainOfLinks : Tree where
  root    := 0
  current := 0
  kind    := fun i => match i with
    | 0 => .directory 0 fun node =>
      if node = ['l'] then some 1 else if node = ['m'] then some 2 else if node = ['d'] then some 3 else none
    | 1 => .link ['/', 'm']
    | 2 => .link ['/', 'd']
    | 3 => .directory 0 fun node => if node = ['x'] then some 4 else none
    | _ => .file

theorem length_of_enter_chainOfLinks (d : Nat) (node : Node) (i : Nat) (h : chainOfLinks.enter d node = some i) :
    node.length < cfMaxLinkSize := by
  match d with
  | 0 | 3             =>
    simp only [Tree.enter, chainOfLinks] at h
    split_ifs at h
    all_goals
      subst node
      decide
  | 1 | 2 | _ + 4     => cases h

theorem pathFits_chainOfLinks {node : Node} {i : Nat} {target : CString} (hnode : NodeFits [] node)
    (hi : chainOfLinks.enter 0 node = some i) (hs : chainOfLinks.target i = some target)
    (hjoined : (joinedTarget [] target).length ≤ cfBufSize - cfBufferMargin)
    (hk : chainOfLinks.walk cfMaxLinkLevel (chainOfLinks.base 0 target) (nodes target) = some 3)
    (hx : NodeFits (splicedTarget [] target) ['x']) : PathFits chainOfLinks [] 0 [node, ['x']] := by
  refine ⟨hnode, fun i' hi' => ?_⟩
  obtain rfl := Option.some.inj <| hi.symm.trans hi'
  simp only [hs]
  refine ⟨hjoined, fun k hk' => ?_⟩
  obtain rfl := Option.some.inj <| hk.symm.trans hk'
  refine ⟨hx, fun i hi => ?_⟩
  obtain rfl : 4 = i := Option.some.inj hi
  exact trivial

theorem expandable_chainOfLinks_m : Expandable chainOfLinks ['/', 'm', '/', 'x'] 4 where
  names    := length_of_enter_chainOfLinks
  absolute := rfl
  normal   := compressPath_of_fits rfl (by decide) (by decide)
  leads    := rfl
  fits     := pathFits_chainOfLinks ⟨by decide, by decide⟩ rfl rfl (by decide) rfl ⟨by decide, by decide⟩

theorem expandable_chainOfLinks_l : Expandable chainOfLinks ['/', 'l', '/', 'x'] 4 where
  names    := length_of_enter_chainOfLinks
  absolute := rfl
  normal   := compressPath_of_fits rfl (by decide) (by decide)
  leads    := rfl
  fits     := pathFits_chainOfLinks ⟨by decide, by decide⟩ rfl rfl (by decide) rfl ⟨by decide, by decide⟩

-- The path through m is expanded.
theorem expandLinks_chainOfLinks : ∃ dest,
    expandLinks (lstat chainOfLinks 8) 0 ['/', 'm', '/', 'x'] = some (true, dest) ∧
      ExpansionOf chainOfLinks 8 dest 4 := by
  have hlast : Clear chainOfLinks false 3 [['x']] := .last rfl fun target htarget => by cases htarget
  have hclear : Clear chainOfLinks false 0 [['m'], ['x']] := .absolute rfl rfl rfl rfl (by decide) hlast
  exact (expandLinks_exact chainOfLinks 8 ['/', 'm', '/', 'x'] 4 (by decide) expandable_chainOfLinks_m).left hclear

-- What l leads to is another link.
theorem not_expandLinks : ¬∀ (t : Tree) (length : Nat) (from' : CString) (j : Nat), cfMaxLinkLevel ≤ length →
    Expandable t from' j → ∃ dest, expandLinks (lstat t length) 0 from' = some (true, dest) ∧
      ExpansionOf t length dest j := by
  intro h
  obtain ⟨dest, hexpand, hexpansion⟩ := h chainOfLinks 8 ['/', 'l', '/', 'x'] 4 (by decide) expandable_chainOfLinks_l
  have hrel : Relative chainOfLinks 3 [['x']] := .file rfl rfl .nil
  have hspoiled : Spoiled chainOfLinks 0 [['l'], ['x']] :=
    .link (n := 1) rfl rfl (fun _ => rfl) rfl rfl (List.cons_ne_nil _ _) hrel
  rw [expandable_chainOfLinks_l.expandLinks_eq (by decide)] at hexpand
  have hstate : Following chainOfLinks 8 [] 0 3 4 [['l'], ['x']] :=
    ⟨⟨.inr rfl, rfl⟩, expandable_chainOfLinks_l.proper, expandable_chainOfLinks_l.fits, by decide, rfl⟩
  exact hexpansion.direct <| hspoiled.of_expandLoop hstate expandable_chainOfLinks_l.expanding.behind hexpand

end CfEngine
