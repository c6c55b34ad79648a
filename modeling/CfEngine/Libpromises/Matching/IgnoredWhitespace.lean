import Mathlib.Data.List.Infix
import CfEngine.Libpromises.Matching.PolicyTexts

namespace CfEngine

open Regex Links WhitespacePolicy

-- What says how often the character before it is repeated.
def IsQuantifier (w : CString) : Prop :=
  ∃ n m, w = '\x7b' :: (n ++ m ++ ['\x7d']) ∧ n ≠ [] ∧ (∀ c ∈ n, c.isDigit) ∧
    (m = [] ∨ ∃ k, m = ',' :: k ∧ ∀ c ∈ k, c.isDigit)

-- The library compiles the texts in which nothing else means something.
def CompilesTexts (compile : CString → Option Regex) : Prop :=
  ∀ xs : List Piece, (∀ c, .lit c ∈ xs → ¬isMeta c) → (∀ w, IsQuantifier w → ¬w.map .lit <:+: xs) →
    compile (piecesText xs) = some (ofPieces isspace xs)

-- A line for which the policies do what they are for, with another one that is not the text of an expression for it.
structure Comparable (policies : List InsertMatchType) (l h : CString) : Prop where
  chars       : ∀ c ∈ l, ¬isMeta c
  quantifiers : ∀ w, IsQuantifier w → ¬w <:+: l
  ends        : ∀ before behind, policies = before ++ .ignoreTrailing :: behind → EndReached before l
  texts       : ∀ before, before ≠ [] → before <+: policies → policyText before l = h → l = h

section
variable {compile : CString → Option Regex} {pcre : CString → CString → Bool} {camel haystack l h : CString}
  {policies before rp : List InsertMatchType} {xs : List Piece} {loop : PolicyLoop}

theorem IsQuantifier.not_isspace {w : CString} (h : IsQuantifier w) : ∀ c ∈ w, ¬isspace c := by
  obtain ⟨n, m, rfl, _, hn, hm⟩ := h
  have hm : ∀ c ∈ m, ¬isspace c := by
    rcases hm with (rfl | ⟨k, rfl, hk⟩)
    case inl => nofun
    case inr => exact List.forall_mem_cons.mpr ⟨by decide, fun c hc => ne_true_of_eq_false <| isspace_of_isDigit <| hk c hc⟩
  refine List.forall_mem_cons.mpr ⟨by decide, fun c hc => ?_⟩
  rw [List.append_assoc, List.mem_append, List.mem_append] at hc
  rcases hc with (hc | hc | hc)
  case inl     => exact ne_true_of_eq_false <| isspace_of_isDigit <| hn c hc
  case inr.inl => exact hm c hc
  case inr.inr => exact List.mem_singleton.mp hc ▸ by decide

theorem fullTextMatch_policyText (hcompile : CompilesTexts compile) (hmeta : ∀ c ∈ l, ¬isMeta c)
    (hquantifiers : ∀ w, IsQuantifier w → ¬w <:+: l) (ht : .ignoreTrailing ∈ policies → ∃ c ∈ l.getLast?, ¬isspace c) :
    fullTextMatch (compileAndMatch compile) (policyText policies l) h ↔ policyText policies l = h ∨ EqualUpTo policies l h := by
  have hrx : compile (policyText policies l) = some (ofPieces isspace (policyPieces policies l)) :=
    hcompile _ (fun c hc => hmeta c <| mem_of_mem_policyPieces hc) fun w hw hin =>
      hquantifiers w hw <| infix_of_policyPieces hw.not_isspace hin
  rw [fullTextMatch_iff hrx, ←runPieces_policyPieces_iff ht, ←exists_exec_ofPieces_iff <| settled_policyPieces ht]
  simp only [prefersWhole_iff]

-- The texts for the policies that have been applied, one after the other.
theorem policyLoop_texts (hstate : (if loop.escaped then loop.final else escapeRegexChars (cfBufSize - 1) 0 l) = policyText before l)
    (hnodup : (before ++ rp).Nodup) (hexact : .exact ∉ rp) (hmeta : ∀ c ∈ l, ¬isMeta c) (hlen : 3 * l.length + 10 ≤ cfBufSize)
    (hends : ∀ u v, before ++ rp = u ++ .ignoreTrailing :: v → EndReached u l) :
    ∃ loop', policyLoop pcre camel l h rp loop = .ok loop' ∧ (loop'.ok ↔ loop.ok ∨
      ∃ u, u ≠ [] ∧ u <+: rp ∧ fullTextMatch pcre (policyText (before ++ u) l) h) := by
  induction rp generalizing before loop
  case nil           =>
    refine ⟨loop, rfl, (or_iff_left ?_).symm⟩
    rintro ⟨u, hu, hbegins, _⟩
    exact hu <| List.prefix_nil.mp hbegins
  case cons opt rp ih =>
    have hopt : opt ≠ .exact := fun he => hexact <| he ▸ List.mem_cons_self
    have hnew : opt ∉ before := fun hmem =>
      (List.nodup_append.mp hnodup).right.right opt hmem opt List.mem_cons_self rfl
    have hbefore : before ++ opt :: rp = before ++ [opt] ++ rp := List.append_cons ..
    have ht : .ignoreTrailing ∈ before → ∃ c ∈ l.getLast?, ¬isspace c := by
      intro hmem
      have ⟨u, v, huv⟩ := List.append_of_mem hmem
      exact (hends u (v ++ opt :: rp) <| by rw [huv, List.append_assoc, List.cons_append]).left
    have happly := applyPolicy_policyText hopt hnew hmeta hlen ht fun he => hends before rp <| he ▸ rfl
    have ⟨loop', hloop, hmatch⟩ := @ih (before ++ [opt])
      ⟨policyText (before ++ [opt]) l, true, loop.ok || fullTextMatch pcre (policyText (before ++ [opt]) l) h⟩ rfl (hbefore ▸ hnodup)
      (fun hmem => hexact <| List.mem_cons_of_mem _ hmem) (hbefore ▸ hends)
    refine ⟨loop', ?_, ?_⟩
    case refine_1 => rw [policyLoop, if_neg hopt, hstate, happly, EditOutcome.ok_bind, hloop]
    case refine_2 =>
      rw [hmatch, Bool.or_eq_true, or_assoc]
      refine or_congr_right ?_
      constructor
      case mp  =>
        rintro (hnow | ⟨u, hu, hbegins, hlater⟩)
        case inl => exact ⟨[opt], List.cons_ne_nil _ _, List.cons_prefix_cons.mpr ⟨rfl, List.nil_prefix⟩, hnow⟩
        case inr =>
          refine ⟨opt :: u, List.cons_ne_nil _ _, List.cons_prefix_cons.mpr ⟨rfl, hbegins⟩, ?_⟩
          rwa [List.append_cons]
      case mpr =>
        rintro ⟨u, hu, hbegins, hfound⟩
        cases u
        case nil      => exact absurd rfl hu
        case cons p u =>
          have ⟨hp, hrest⟩ := List.cons_prefix_cons.mp hbegins
          subst hp
          rw [List.append_cons] at hfound
          by_cases hnil : u = []
          case pos =>
            rw [hnil, List.append_nil] at hfound
            exact .inl hfound
          case neg => exact .inr ⟨u, hnil, hrest, hfound⟩

theorem escapeItem_line (hline : '\n' ∉ l) : escapeItem '\n' l = l := by
  induction l
  case nil         => rfl
  case cons c l ih =>
    have hc : c ≠ '\n' := fun he => hline <| he ▸ List.mem_cons_self
    have ih := ih fun hmem => hline <| List.mem_cons_of_mem _ hmem
    rw [escapeItem] at ih ⊢
    rw [List.flatMap_cons, ih, if_neg hc, List.singleton_append]

-- The text is one line.
theorem splitString_line (hline : '\n' ∉ l) (hends : l.getLast? ≠ some '\\') (hlen : l.length < cfBufSize) :
    ∃ list a, splitString l '\n' = .ok list ∧ Chained list.items list.start [(a, l)] none := by
  have hjoin : joinEscapedItems '\n' [l] = l := List.intercalate_singleton.trans <| escapeItem_line hline
  have hstart : Chained (ItemList.mk [] none).items (ItemList.mk [] none).start [] none := rfl
  have ⟨list, file, hsplit, hchained, hfile⟩ := @splitStringLoop_join '\n' none ⟨[], none⟩ [] [l] (by decide) nofun
    (List.forall_mem_singleton.mpr hends) (List.forall_mem_singleton.mpr hlen) nofun hstart
  have ⟨⟨a, x⟩, hcell, hx⟩ := List.map_eq_singleton_iff.mp hfile
  obtain rfl : x = l := hx
  rw [hjoin] at hsplit
  exact ⟨list, a, hsplit, hcell ▸ hchained⟩

theorem linesLoop_line {list : Items} {start : Option Nat} {a : Nat} (h : Chained list start [(a, l)] none) (hne : policies ≠ [])
    (hloop : policyLoop pcre camel l haystack policies ⟨l.take (cfBufSize - 1), false, false⟩ = .ok loop) :
    linesLoop pcre camel haystack policies list list.fuel start false false = .ok loop.ok := by
  have hitem := @Items.deref_item list start [] [] a l h
  have hlt : a < list.length := lt_length_of_get h.right.left
  have ⟨n, hn⟩ : ∃ n, list.fuel = n + 2 := ⟨list.length - 1, by rw [Items.fuel]; omega⟩
  rw [hn, h.left, linesLoop, hitem, EditOutcome.ok_bind, if_neg hne, hloop, EditOutcome.ok_bind]
  cases hmatch : loop.ok
  case false => rfl
  case true  => rfl

end

theorem matchPolicy_iff_equalUpTo (compile : CString → Option Regex) (policies : List InsertMatchType) (l h : CString)
    (hcompile : CompilesTexts compile) (hne : policies ≠ []) (hnodup : policies.Nodup) (hexact : .exact ∉ policies)
    (hline : '\n' ∉ l) (hlen : l.length < cfBufSize / 4) (hok : Comparable policies l h) :
    ∃ b, WhitespacePolicy.matchPolicy (compileAndMatch compile) l h policies = .ok b ∧ (b ↔ EqualUpTo policies l h) := by
  have hsize : cfBufSize / 4 = 1024 ∧ cfBufSize = 4096 := ⟨rfl, rfl⟩
  have hend : l.getLast? ≠ some '\\' := fun he => hok.chars _ (List.mem_of_getLast? he) (by decide)
  obtain ⟨list, a, hsplit, hchained⟩ := splitString_line hline hend (by omega)
  have hstate : escapeRegexChars (cfBufSize - 1) 0 l = policyText [] l := by
    rw [escapeRegexChars_eq (by omega), policyText, policyPieces_nil]
  obtain ⟨loop, hloop, hmatch⟩ := @policyLoop_texts (compileAndMatch compile) l l h [] policies
    ⟨l.take (cfBufSize - 1), false, false⟩ hstate hnodup hexact hok.chars (by omega) hok.ends
  refine ⟨loop.ok, ?_, ?_⟩
  case refine_1 =>
    rw [WhitespacePolicy.matchPolicy, hsplit, EditOutcome.ok_bind]
    exact linesLoop_line hchained hne hloop
  case refine_2 =>
    have ht {u : List InsertMatchType} (hbegins : u <+: policies) (hmem : .ignoreTrailing ∈ u) :
        ∃ c ∈ l.getLast?, ¬isspace c := by
      obtain ⟨before, behind, hsplit⟩ := List.append_of_mem <| hbegins.subset hmem
      exact (hok.ends before behind hsplit).left
    rw [hmatch, or_iff_right Bool.false_ne_true]
    constructor
    case mp  =>
      rintro ⟨u, hu, hbegins, hfound⟩
      cases (fullTextMatch_policyText hcompile hok.chars hok.quantifiers (ht hbegins)).mp hfound
      case inl htext  => rw [EqualUpTo, hok.texts u hu hbegins htext]
      case inr hequal => exact hequal.mono hbegins.subset
    case mpr =>
      intro hequal
      have hfull : policies <+: policies := List.prefix_refl _
      exact ⟨policies, hne, hfull, (fullTextMatch_policyText hcompile hok.chars hok.quantifiers (ht hfull)).mpr <| .inr hequal⟩

-- The library, for the texts in which nothing else means something.
def readPieces : CString → List Piece
  | []                    => []
  | '\\' :: 's' :: '*' :: t => .star :: readPieces t
  | '\\' :: 's' :: '+' :: t => .plus :: readPieces t
  | '\\' :: c :: t          => .lit c :: readPieces t
  | c :: t                  => .lit c :: readPieces t

def compilePieces (regexp : CString) : Option Regex :=
  some <| ofPieces isspace <| readPieces regexp

theorem readPieces_piecesText {xs : List Piece} (hxs : ∀ c, .lit c ∈ xs → ¬isMeta c) : readPieces (piecesText xs) = xs := by
  induction xs
  case nil          => rfl
  case cons z xs ih =>
    have ih := ih fun c hc => hxs c <| List.mem_cons_of_mem _ hc
    rw [piecesText_cons]
    cases z
    case star  => exact congrArg _ ih
    case plus  => exact congrArg _ ih
    case lit c =>
      rw [pieceText]
      split
      case isTrue hesc =>
        rcases hesc with (rfl | rfl)
        all_goals exact congrArg _ ih
      case isFalse     =>
        have hc : c ≠ '\\' := by
          rintro rfl
          exact hxs _ List.mem_cons_self (by decide)
        rw [List.singleton_append, readPieces, ih]
        all_goals simp [hc]

theorem compilesTexts_compilePieces : CompilesTexts compilePieces := by
  intro xs hxs _
  rw [compilePieces, readPieces_piecesText hxs]

theorem matchPolicy_line : ∃ b,
    WhitespacePolicy.matchPolicy (compileAndMatch compilePieces) "a. bc".toList " a. bc\t".toList [.ignoreLeading, .ignoreTrailing] =
      .ok b ∧ (b ↔ EqualUpTo [.ignoreLeading, .ignoreTrailing] "a. bc".toList " a. bc\t".toList) := by
  have hbrace : '\x7b' ∉ "a. bc".toList := by decide
  have htexts : ∀ before ∈ List.inits [.ignoreLeading, .ignoreTrailing], before ≠ [] →
      policyText before "a. bc".toList ≠ " a. bc\t".toList := by decide
  refine matchPolicy_iff_equalUpTo compilePieces _ _ _ compilesTexts_compilePieces (by decide) (by decide) (by decide) (by decide)
    (by decide) ⟨by decide, ?_, ?_, ?_⟩
  case refine_1 =>
    rintro w ⟨n, m, rfl, _⟩ hin
    exact hbrace <| hin.subset List.mem_cons_self
  case refine_2 =>
    intro before behind he
    cases before
    case nil           => nomatch he
    case cons p before =>
      cases before
      case nil           =>
        obtain rfl := (List.cons.inj he).left
        exact ⟨⟨'c', rfl, by decide⟩, by decide⟩
      case cons q before => nomatch List.append_ne_nil_of_right_ne_nil _ (List.cons_ne_nil _ _) (List.cons.inj (List.cons.inj he).right).right.symm
  case refine_3 =>
    intro before hne hbegins htext
    exact absurd htext <| htexts before (List.mem_inits _ _ |>.mpr hbegins) hne

-- The white space at the end of the line is not ignored.
theorem not_matchPolicy_iff_equalUpTo : ¬∀ (compile : CString → Option Regex) (policies : List InsertMatchType) (l h : CString),
    CompilesTexts compile → policies ≠ [] → policies.Nodup → .exact ∉ policies → '\n' ∉ l → '\n' ∉ h →
      l.length < cfBufSize / 4 → h.length < cfBufSize / 4 →
      ∃ b, WhitespacePolicy.matchPolicy (compileAndMatch compile) l h policies = .ok b ∧ (b ↔ EqualUpTo policies l h) := by
  intro hall
  have ⟨b, hmatch, hb⟩ := hall compilePieces [.ignoreTrailing] "abc ".toList "abc".toList compilesTexts_compilePieces (by decide)
    (by decide) (by decide) (by decide) (by decide) (by decide) (by decide)
  have hfalse : WhitespacePolicy.matchPolicy (compileAndMatch compilePieces) "abc ".toList "abc".toList [.ignoreTrailing] =
    .ok false := by decide
  have hequal : EqualUpTo [.ignoreTrailing] "abc ".toList "abc".toList := by decide
  rw [hfalse] at hmatch
  have hb' : false = b := Except.ok.inj hmatch
  exact Bool.false_ne_true <| hb'.trans <| hb.mpr hequal

end CfEngine
