import CfEngine.Libutils.Strings
import CfEngine.Library.Paths

namespace CfEngine

def cfMaxLinkSize : Nat := 256

-- Separators at the end of a path, which come with the name of its last node.
def lastFileSeparator (str : CString) : Option Nat :=
  str.reverse.findIdx? (· = '/') |>.map (str.length - 1 - ·)

def addSlash (str : CString) : CString :=
  let sep := if '\\' ∈ str ∧ '/' ∉ str then '\\' else '/'
  if str.getLast? = some '/' then str else str ++ [sep]

def chopLastNode (str : CString) : CString :=
  let str := match lastFileSeparator str with
    | some i => str.take i
    | none   => str
  if str = [] then addSlash str else str

def readLastNode (str : CString) : CString :=
  match lastFileSeparator str with
  | some i => str.drop (i + 1)
  | none   => str

def isAbsoluteFileName (f : CString) : Bool :=
  (f.dropWhile (· = '"')).head? = some '/'

def deleteSlash (str : CString) : CString :=
  if str ≠ ['/'] ∧ str.getLast? = some '/' then str.dropLast else str

-- The path is left with a separator at its end if the name does not fit behind it.
def joinPath (path leaf : CString) : Option CString × CString :=
  let path := addSlash <| chop path cfExpandSize
  if path.length + leaf.length > cfBufSize - cfBufferMargin then
    (none, path)
  else
    (some (path ++ leaf), path ++ leaf)

def canonifyNameInPlace (s : CString) : CString :=
  s.map fun c => if !c.isAlphanum || c = '.' then '_' else c

-- A name that does not fit into the buffer is not terminated there.
def canonifyName (str : CString) : Option CString :=
  if str.length < cfBufSize then some (canonifyNameInPlace str) else none

def rootDirLength (f : CString) : Nat :=
  if f.head? = some '/' then 1 else 0

-- The name of a node is copied, and the text goes on behind it.
def compressLoop (dest : CString) : CString → Bool × CString
  | []      => (true, dest)
  | c :: sp =>
    if c = '/' then
      compressLoop dest sp
    else
      let node := c :: sp.takeWhile (· ≠ '/')
      let sp := sp.dropWhile (· ≠ '/')
      if cfMaxLinkSize + 1 < node.length then
        (false, dest)
      else if node = ['.'] then
        compressLoop dest sp
      else if node = ['.', '.'] then
        if lastFileSeparator dest = none then (false, chopLastNode dest) else compressLoop (chopLastNode dest) sp
      else
        match joinPath (addSlash dest) node with
        | (none, dest)   => (false, dest)
        | (some dest, _) => compressLoop dest sp
termination_by sp => sp.length
decreasing_by
  · exact Nat.lt_succ_self _
  all_goals exact Nat.lt_succ_of_le (List.dropWhile_suffix _).length_le

def compressPath (src : CString) : Bool × CString :=
  compressLoop (src.take (rootDirLength src)) (src.drop (rootDirLength src))

open Paths

section
variable {sp pre node : CString} {stack : List Node}

theorem addSlash_sep : addSlash (pre ++ ['/']) = pre ++ ['/'] := by
  rw [addSlash, if_pos]
  exact List.getLast?_concat

theorem addSlash_text (h : ∀ node ∈ stack, IsName node) : addSlash (text stack) = directory stack := by
  by_cases hne : stack = []
  case pos =>
    subst hne
    rfl
  case neg =>
    obtain ⟨stack, last, rfl⟩ := (List.eq_nil_or_concat stack).resolve_left hne
    rw [List.concat_eq_append] at *
    have hlast := h last <| List.mem_append_right _ List.mem_cons_self
    have hslash : '/' ∈ text (stack ++ [last]) := by
      rw [text_concat, directory]
      simp
    have hend : (text (stack ++ [last])).getLast? ≠ some '/' := by
      rw [text_concat, List.getLast?_append_of_ne_nil _ hlast.ne_nil]
      exact fun he => hlast.no_slash <| List.mem_of_getLast? he
    simp only [addSlash, if_neg hend, hslash, not_true_eq_false, and_false, if_false]
    exact (directory_of_ne_nil hne).symm

-- The separator at the end is not white space.
theorem chop_sep {n : Nat} : chop (pre ++ ['/']) n = pre ++ ['/'] := by
  rw [chop]
  split
  case isTrue  => rfl
  case isFalse => exact List.rdropWhile_concat_neg _ _ _ (by decide)

theorem joinPath_sep : joinPath (pre ++ ['/']) node =
    if cfBufSize - cfBufferMargin < pre.length + 1 + node.length then (none, pre ++ ['/'])
    else (some <| pre ++ '/' :: node, pre ++ '/' :: node) := by
  simp only [joinPath, chop_sep, addSlash_sep, List.length_append, List.length_singleton, List.append_assoc,
    List.singleton_append]

theorem joinPath_directory : joinPath (directory stack) node =
    if cfBufSize - cfBufferMargin < weight stack + 1 + node.length then (none, directory stack)
    else (some <| text (stack ++ [node]), text (stack ++ [node])) := by
  rw [directory, joinPath_sep, text_concat, directory, List.append_assoc, List.singleton_append, ←length_directory,
    directory, List.length_append, List.length_singleton]

theorem lastFileSeparator_append (h : '/' ∉ node) : lastFileSeparator (pre ++ '/' :: node) = some pre.length := by
  have hnone : node.reverse.findIdx? (· = '/') = none := by
    rw [List.findIdx?_eq_none_iff]
    intro c hc
    exact decide_eq_false fun he => h <| he ▸ List.mem_reverse.mp hc
  have hfind : (pre ++ '/' :: node).reverse.findIdx? (· = '/') = some node.length := by
    rw [List.reverse_append, List.reverse_cons, List.append_assoc, List.findIdx?_append, hnone]
    simp [List.findIdx?_cons]
  rw [lastFileSeparator, hfind, Option.map_some, List.length_append, List.length_cons]
  congr
  omega

theorem lastFileSeparator_text (h : ∀ node ∈ stack, IsName node) : lastFileSeparator (text stack) ≠ none := by
  rcases List.eq_nil_or_concat stack with rfl | ⟨stack, last, rfl⟩
  · decide
  · rw [List.concat_eq_append] at *
    rw [text_concat, directory, List.append_assoc, List.singleton_append,
      lastFileSeparator_append (h last <| List.mem_append_right _ List.mem_cons_self).no_slash]
    exact Option.some_ne_none _

theorem chopLastNode_text (h : ∀ node ∈ stack, IsName node) : chopLastNode (text stack) = text stack.dropLast := by
  rcases List.eq_nil_or_concat stack with rfl | ⟨stack, last, rfl⟩
  · rfl
  · rw [List.concat_eq_append] at *
    have hlast := @lastFileSeparator_append (stack.flatMap ('/' :: ·)) last
      (h last <| List.mem_append_right _ List.mem_cons_self).no_slash
    rw [text_concat, directory, List.append_assoc, List.singleton_append, chopLastNode, hlast, List.dropLast_concat]
    cases stack
    case nil             => rfl
    case cons node stack =>
      have hne : (node :: stack).flatMap ('/' :: ·) ≠ [] := List.cons_ne_nil _ _
      simp only [List.take_left, if_neg hne, text, if_neg (List.cons_ne_nil node stack)]

theorem compressLoop_sep {dest : CString} : compressLoop dest ('/' :: sp) = compressLoop dest sp := by
  rw [compressLoop, if_pos rfl]

-- A node is refused because of its length, or that of the path with it.
theorem compressLoop_node {rest : CString} (hn : IsName node) (hrest : ∀ c ∈ rest.head?, c = '/')
    (hstack : ∀ node ∈ stack, IsName node) : compressLoop (text stack) (node ++ rest) =
      if cfMaxLinkSize + 1 < node.length then
        (false, text stack)
      else if (node ≠ ['.'] ∧ node ≠ ['.', '.']) ∧ cfBufSize - cfBufferMargin < weight stack + 1 + node.length then
        (false, directory stack)
      else
        compressLoop (text <| walk stack node) rest := by
  obtain ⟨c, t, rfl⟩ := List.exists_cons_of_ne_nil hn.ne_nil
  have hc : c ≠ '/' := fun he => hn.no_slash <| he ▸ List.mem_cons_self
  obtain ⟨htake, hdrop⟩ := span_name hn hrest
  rw [List.cons_append, compressLoop, if_neg hc]
  simp only [htake, hdrop, walk]
  by_cases hlong : cfMaxLinkSize + 1 < (c :: t).length
  case pos => rw [if_pos hlong, if_pos hlong]
  case neg =>
    rw [if_neg hlong, if_neg hlong]
    by_cases hdot : c :: t = ['.']
    case pos => rw [if_pos hdot, if_pos hdot, if_neg fun h => h.left.left hdot]
    case neg =>
      by_cases hdotdot : c :: t = ['.', '.']
      case pos =>
        have hfits : ¬((c :: t ≠ ['.'] ∧ c :: t ≠ ['.', '.']) ∧
            cfBufSize - cfBufferMargin < weight stack + 1 + (c :: t).length) := fun h => h.left.right hdotdot
        rw [if_neg hdot, if_neg hdot, if_pos hdotdot, if_pos hdotdot, if_neg hfits,
          if_neg <| lastFileSeparator_text hstack, chopLastNode_text hstack]
      case neg =>
        rw [if_neg hdot, if_neg hdot, if_neg hdotdot, if_neg hdotdot, addSlash_text hstack, joinPath_directory]
        split_ifs with hfits h h
        · rfl
        · exact absurd ⟨⟨hdot, hdotdot⟩, hfits⟩ h
        · exact absurd h.right hfits
        · rfl

theorem isName_walk (hn : IsName node) (hstack : ∀ node ∈ stack, IsName node) :
    ∀ last ∈ walk stack node, IsName last := by
  intro last hlast
  rcases @mem_foldl_walk last stack [node] hlast with h | h
  · exact hstack last h
  · exact List.mem_singleton.mp h ▸ hn

theorem compressLoop_eq (hstack : ∀ node ∈ stack, IsName node) (hshort : ∀ node ∈ nodes sp, node.length ≤ cfMaxLinkSize)
    (hfits : weight stack + weight (nodes sp) ≤ cfBufSize - cfBufferMargin) :
    compressLoop (text stack) sp = (true, text <| (nodes sp).foldl walk stack) := by
  induction sp using node_induction generalizing stack
  case nil                      =>
    rw [compressLoop, nodes_nil]
    rfl
  case sep s ih                 =>
    rw [nodes_sep] at hshort hfits ⊢
    rw [compressLoop_sep, ih hstack hshort hfits]
  case node node rest hn hr ih =>
    rw [nodes_append hn hr] at hshort hfits ⊢
    have hwalk := @weight_walk_le node stack
    have hweight : weight (node :: nodes rest) = node.length + 1 + weight (nodes rest) := by simp [weight]
    have hnode := hshort node List.mem_cons_self
    rw [List.foldl_cons, compressLoop_node hn hr hstack, if_neg (by omega), if_neg (by omega),
      ih (isName_walk hn hstack) (fun node hnode => hshort node <| List.mem_cons_of_mem _ hnode) (by omega)]

-- Whatever the lengths are, a path that is not refused is in normal form.
theorem of_compressLoop {dest : CString} (hstack : ∀ node ∈ stack, IsName node)
    (h : compressLoop (text stack) sp = (true, dest)) : dest = text ((nodes sp).foldl walk stack) := by
  induction sp using node_induction generalizing stack
  case nil                      =>
    rw [compressLoop] at h
    exact (Prod.mk.inj h).right.symm
  case sep s ih                 =>
    rw [compressLoop_sep] at h
    rw [nodes_sep]
    exact ih hstack h
  case node node rest hn hr ih =>
    rw [compressLoop_node hn hr hstack] at h
    rw [nodes_append hn hr, List.foldl_cons]
    split_ifs at h
    · cases h
    · cases h
    · exact ih (isName_walk hn hstack) h

end

theorem of_compressPath {src dest : CString} (habs : src.head? = some '/') (h : compressPath src = (true, dest)) :
    dest = normalForm src := by
  cases src
  case nil        => cases habs
  case cons c src =>
    cases habs
    rw [normalForm, normalNodes, nodes_sep]
    exact @of_compressLoop src [] dest (by simp) h

theorem compressPath_of_fits {src : CString} (habs : src.head? = some '/')
    (hnodes : ∀ node ∈ nodes src, node.length ≤ cfMaxLinkSize)
    (hfits : weight (nodes src) ≤ cfBufSize - cfBufferMargin) : compressPath src = (true, normalForm src) := by
  cases src
  case nil        => cases habs
  case cons c src =>
    cases habs
    rw [nodes_sep] at hnodes hfits
    have hroot := @compressLoop_eq src [] (by simp) hnodes (by simpa [weight] using hfits)
    rw [normalForm, normalNodes, nodes_sep]
    exact hroot

-- What is compressed is in normal form.
theorem compressPath_eq (src : CString) (habs : src.head? = some '/')
    (hnodes : ∀ node ∈ nodes src, node.length ≤ cfMaxLinkSize) (hlen : src.length < cfBufSize - cfBufferMargin) :
    compressPath src = (true, normalForm src) ∧ compressPath (normalForm src) = (true, normalForm src) := by
  have hweight := (@weight_nodes_le src).right <| by
    rw [habs]
    rintro c ⟨⟩
    rfl
  have hnormal := @weight_foldl_walk_le [] (nodes src)
  have hself : nodes (normalForm src) = normalNodes src :=
    nodes_text fun node hnode => (isProper_of_mem_normalNodes node hnode).toIsName
  refine ⟨compressPath_of_fits habs hnodes (by omega), ?_⟩
  have hagain := @compressPath_of_fits (normalForm src) ?head ?short ?fits
  case head  =>
    rw [normalForm, text]
    cases normalNodes src <;> rfl
  case short =>
    rw [hself]
    intro node hnode
    rcases mem_foldl_walk hnode with h | h
    · cases h
    · exact hnodes node h
  case fits  =>
    have hempty : weight [] = 0 := rfl
    rw [hself, normalNodes]
    omega
  rwa [normalForm_normalForm] at hagain

-- White space at the end of a name stays.
theorem compressPath_spaces : (['/', 'a', ' ', '/', '/', '.', '/', 'b'] : CString).head? = some '/' ∧
    (∀ node ∈ nodes ['/', 'a', ' ', '/', '/', '.', '/', 'b'], node.length ≤ cfMaxLinkSize) ∧
    (['/', 'a', ' ', '/', '/', '.', '/', 'b'] : CString).length < cfBufSize - cfBufferMargin ∧
    compressPath ['/', 'a', ' ', '/', '/', '.', '/', 'b'] = (true, ['/', 'a', ' ', '/', 'b']) :=
  ⟨by decide, by decide, by decide, (compressPath_eq _ (by decide) (by decide) (by decide)).left⟩

end CfEngine
