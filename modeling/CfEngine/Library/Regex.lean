import Mathlib.Data.List.Pairwise
import Mathlib.Data.List.Basic

-- Regular expressions over characters, which are matched by backtracking. The argument of `assert` stands for anchors and
-- for what is looked at around a position, and the number of `group` is that of the group that is captured.

inductive Regex
  | empty
  | set (p : Char → Bool)
  | assert (p : List Char → Nat → Bool)
  | seq (r t : Regex)
  | alt (r t : Regex)
  | star (greedy : Bool) (r : Regex)
  | group (n : Nat) (r : Regex)

namespace Regex

variable {s : List Char} {r t : Regex} {i j k : Nat}

-- What is matched from one position to another, in the sense of languages.
inductive Matches (s : List Char) : Regex → Nat → Nat → Prop
  | empty {i : Nat} : Matches s empty i i
  | set {p : Char → Bool} {i : Nat} {x : Char} : s[i]? = some x → p x → Matches s (set p) i (i + 1)
  | assert {p : List Char → Nat → Bool} {i : Nat} : p s i → Matches s (assert p) i i
  | seq {r t : Regex} {i k j : Nat} : Matches s r i k → Matches s t k j → Matches s (seq r t) i j
  | left {r t : Regex} {i j : Nat} : Matches s r i j → Matches s (alt r t) i j
  | right {r t : Regex} {i j : Nat} : Matches s t i j → Matches s (alt r t) i j
  | leave {g : Bool} {r : Regex} {i : Nat} : Matches s (star g r) i i
  | iterate {g : Bool} {r : Regex} {i k j : Nat} :
    Matches s r i k → Matches s (star g r) k j → Matches s (star g r) i j
  | group {n : Nat} {r : Regex} {i j : Nat} : Matches s r i j → Matches s (group n r) i j

-- A position with the highest number of a group that has been captured.
structure Cursor where
  pos      : Nat
  captured : Nat

-- A match with the choices that lead to it, where `true` is the branch that is tried first. An iteration that has not
-- moved is the last one.
inductive Takes (s : List Char) : Regex → Cursor → List Bool → Cursor → Prop
  | empty {c : Cursor} : Takes s empty c [] c
  | set {p : Char → Bool} {c : Cursor} {x : Char} :
    s[c.pos]? = some x → p x → Takes s (set p) c [] ⟨c.pos + 1, c.captured⟩
  | assert {p : List Char → Nat → Bool} {c : Cursor} : p s c.pos → Takes s (assert p) c [] c
  | seq {r t : Regex} {c d e : Cursor} {as bs : List Bool} :
    Takes s r c as d → Takes s t d bs e → Takes s (seq r t) c (as ++ bs) e
  | left {r t : Regex} {c d : Cursor} {as : List Bool} : Takes s r c as d → Takes s (alt r t) c (true :: as) d
  | right {r t : Regex} {c d : Cursor} {as : List Bool} : Takes s t c as d → Takes s (alt r t) c (false :: as) d
  | leave {g : Bool} {r : Regex} {c : Cursor} : Takes s (star g r) c [!g] c
  | iterate {g : Bool} {r : Regex} {c d e : Cursor} {as bs : List Bool} :
    Takes s r c as d → c.pos < d.pos → Takes s (star g r) d bs e → Takes s (star g r) c (g :: (as ++ bs)) e
  | stop {g : Bool} {r : Regex} {c d : Cursor} {as : List Bool} :
    Takes s r c as d → ¬c.pos < d.pos → Takes s (star g r) c (g :: as) d
  | group {n : Nat} {r : Regex} {c d : Cursor} {as : List Bool} :
    Takes s r c as d → Takes s (group n r) c as ⟨d.pos, max d.captured n⟩

-- The choices `as` take the first branch where `bs` take the other one.
def Before (as bs : List Bool) : Prop :=
  ∃ p u v, as = p ++ true :: u ∧ bs = p ++ false :: v

theorem Before.append {as bs : List Bool} (h : Before as bs) (us vs : List Bool) : Before (as ++ us) (bs ++ vs) := by
  have ⟨p, u, v, ha, hb⟩ := h
  exact ⟨p, u ++ us, v ++ vs, by rw [ha, List.append_assoc]; rfl, by rw [hb, List.append_assoc]; rfl⟩

theorem Before.prepend {as bs : List Bool} (h : Before as bs) (us : List Bool) : Before (us ++ as) (us ++ bs) := by
  have ⟨p, u, v, ha, hb⟩ := h
  exact ⟨us ++ p, u, v, by rw [ha, List.append_assoc], by rw [hb, List.append_assoc]⟩

theorem Before.cons {as bs : List Bool} (h : Before as bs) (b : Bool) : Before (b :: as) (b :: bs) :=
  h.prepend [b]

theorem before_cons (as bs : List Bool) : Before (true :: as) (false :: bs) :=
  ⟨[], as, bs, rfl, rfl⟩

theorem Before.asymm {as bs : List Bool} (h : Before as bs) : ¬Before bs as := by
  have ⟨p, u, v, ha, hb⟩ := h
  intro ⟨q, u', v', hb', ha'⟩
  have hpa := ha.symm.trans ha'
  have hpb := hb.symm.trans hb'
  clear ha hb ha' hb' h
  induction p generalizing q
  case nil          => cases q <;> simp_all
  case cons x p ih =>
    cases q
    case nil       => simp_all
    case cons y q => exact ih q (List.cons.inj hpa).right (List.cons.inj hpb).right

-- The matches, in the order in which they are tried.
abbrev Ways :=
  List (List Bool × Cursor)

def chosen (b : Bool) (ways : Ways) : Ways :=
  ways.map fun w => (b :: w.1, w.2)

-- The branch that is preferred is tried before the other one.
def branch (preferred other : Ways) : Ways :=
  chosen true preferred ++ chosen false other

def andThen (ways : Ways) (next : Cursor → Ways) : Ways :=
  ways.flatMap fun w => (next w.2).map fun v => (w.1 ++ v.1, v.2)

def repeatWays (greedy : Bool) (step : Cursor → Ways) : Nat → Cursor → Ways
  | 0, c        => chosen (!greedy) [([], c)]
  | fuel + 1, c =>
    let more := andThen (step c) fun d => if c.pos < d.pos then repeatWays greedy step fuel d else [([], d)]
    if greedy then branch more [([], c)] else branch [([], c)] more

def ways (s : List Char) : Regex → Cursor → Ways
  | empty, c     => [([], c)]
  | set p, c     => if s[c.pos]?.any p then [([], ⟨c.pos + 1, c.captured⟩)] else []
  | assert p, c  => if p s c.pos then [([], c)] else []
  | seq r t, c   => andThen (ways s r c) (ways s t)
  | alt r t, c   => branch (ways s r c) (ways s t c)
  | star g r, c  => repeatWays g (ways s r) (s.length + 1) c
  | group n r, c => (ways s r c).map fun w => (w.1, ⟨w.2.pos, max w.2.captured n⟩)

-- The leftmost match, and the first one that is tried there.
def exec (r : Regex) (s : List Char) : Option (Nat × Cursor) :=
  (List.range (s.length + 1)).findSome? fun i => (ways s r ⟨i, 0⟩).head?.map fun w => (i, w.2)

section
variable {c d : Cursor} {as bs : List Bool}

theorem Takes.le_length (h : Takes s r c as d) (hc : c.pos ≤ s.length) : d.pos ≤ s.length := by
  induction h <;> grind

theorem Takes.matches (h : Takes s r c as d) : Matches s r c.pos d.pos := by
  induction h
  case empty                   => exact .empty
  case set hx hp               => exact .set hx hp
  case assert hp               => exact .assert hp
  case seq ih ih'              => exact .seq ih ih'
  case left ih                 => exact .left ih
  case right ih                => exact .right ih
  case leave                   => exact .leave
  case iterate ih ih'          => exact .iterate ih ih'
  case stop hr hlt ih          => exact .iterate ih .leave
  case group ih                => exact .group ih

theorem mem_andThen {ws : Ways} {next : Cursor → Ways} :
    (as, d) ∈ andThen ws next ↔ ∃ us e vs, (us, e) ∈ ws ∧ (vs, d) ∈ next e ∧ as = us ++ vs := by
  constructor
  case mp  =>
    intro h
    have ⟨⟨us, e⟩, hu, h⟩ := List.mem_flatMap.mp h
    have ⟨⟨vs, d'⟩, hv, he⟩ := List.mem_map.mp h
    cases he
    exact ⟨us, e, vs, hu, hv, rfl⟩
  case mpr =>
    intro ⟨us, e, vs, hu, hv, he⟩
    exact List.mem_flatMap.mpr ⟨(us, e), hu, List.mem_map.mpr ⟨(vs, d), hv, by rw [he]⟩⟩

theorem mem_chosen {b : Bool} {ws : Ways} : (as, d) ∈ chosen b ws ↔ ∃ us, (us, d) ∈ ws ∧ as = b :: us := by
  constructor
  case mp  =>
    intro h
    have ⟨⟨us, d'⟩, hu, he⟩ := List.mem_map.mp h
    cases he
    exact ⟨us, hu, rfl⟩
  case mpr =>
    intro ⟨us, hu, he⟩
    exact List.mem_map.mpr ⟨(us, d), hu, by rw [he]⟩

theorem mem_branch {ws vs : Ways} :
    (as, d) ∈ branch ws vs ↔ (∃ us, (us, d) ∈ ws ∧ as = true :: us) ∨ ∃ us, (us, d) ∈ vs ∧ as = false :: us := by
  rw [branch, List.mem_append, mem_chosen, mem_chosen]

-- One round of a repetition.
def rounds (s : List Char) (g : Bool) (r : Regex) (fuel : Nat) (c : Cursor) : Ways :=
  andThen (ways s r c) fun d => if c.pos < d.pos then repeatWays g (ways s r) fuel d else [([], d)]

theorem mem_repeatWays_succ {g : Bool} {fuel : Nat} :
    (as, d) ∈ repeatWays g (ways s r) (fuel + 1) c ↔
      (∃ us, (us, d) ∈ rounds s g r fuel c ∧ as = g :: us) ∨ (as = [!g] ∧ d = c) := by
  have hleave {b : Bool} : (∃ us, (us, d) ∈ [(([] : List Bool), c)] ∧ as = b :: us) ↔ as = [b] ∧ d = c := by
    constructor
    case mp  =>
      intro ⟨us, hu, he⟩
      cases List.mem_singleton.mp hu
      exact ⟨he, rfl⟩
    case mpr => exact fun ⟨he, hd⟩ => ⟨[], by rw [hd]; exact List.mem_singleton_self _, he⟩
  cases g
  case true  => exact mem_branch.trans <| or_congr Iff.rfl hleave
  case false => exact mem_branch.trans <| (or_congr hleave Iff.rfl).trans or_comm

theorem mem_repeatWays {g : Bool} {fuel : Nat}
    (ih : ∀ c as d, c.pos ≤ s.length → ((as, d) ∈ ways s r c ↔ Takes s r c as d))
    (hc : c.pos ≤ s.length) (hfuel : s.length - c.pos < fuel) :
    (as, d) ∈ repeatWays g (ways s r) fuel c ↔ Takes s (star g r) c as d := by
  induction fuel generalizing c as d
  case zero             => omega
  case succ fuel ihfuel =>
    rw [mem_repeatWays_succ]
    constructor
    case mp  =>
      rintro (⟨us, hu, he⟩ | ⟨he, hd⟩)
      case inr => exact he ▸ hd ▸ .leave
      case inl =>
        have ⟨vs, e, ws, hv, hw, hus⟩ := mem_andThen.mp hu
        have htake := (ih c vs e hc).mp hv
        rw [he, hus]
        split at hw
        case isTrue hlt  =>
          have hle := htake.le_length hc
          exact .iterate htake hlt <| (ihfuel hle (by omega)).mp hw
        case isFalse hlt =>
          cases List.mem_singleton.mp hw
          rw [List.append_nil]
          exact .stop htake hlt
    case mpr =>
      intro h
      cases h
      case leave                    => exact .inr ⟨rfl, rfl⟩
      case iterate e us vs hlt h h' =>
        have hle := h.le_length hc
        refine .inl ⟨_, mem_andThen.mpr ⟨us, e, vs, (ih c us e hc).mpr h, ?_, rfl⟩, rfl⟩
        rw [if_pos hlt]
        exact (ihfuel hle (by omega)).mpr h'
      case stop us hlt h            =>
        refine .inl ⟨us, mem_andThen.mpr ⟨us, d, [], (ih c us d hc).mpr h, ?_, (List.append_nil _).symm⟩, rfl⟩
        rw [if_neg hlt]
        exact List.mem_singleton_self _

-- The ways are the matches with their choices.
theorem mem_ways (hc : c.pos ≤ s.length) : (as, d) ∈ ways s r c ↔ Takes s r c as d := by
  induction r generalizing c as d
  case empty          =>
    constructor
    case mp  =>
      intro h
      cases List.mem_singleton.mp h
      exact .empty
    case mpr =>
      intro h
      cases h
      exact List.mem_singleton_self _
  case set p          =>
    rw [ways]
    constructor
    case mp  =>
      intro h
      split at h
      case isFalse   => cases h
      case isTrue hp =>
        have ⟨x, hx, hpx⟩ := Option.any_eq_true _ _ |>.mp hp
        cases List.mem_singleton.mp h
        exact .set hx hpx
    case mpr =>
      intro h
      cases h
      case set x hp hx =>
        rw [hx, if_pos (by simpa using hp)]
        exact List.mem_singleton_self _
  case assert p       =>
    rw [ways]
    constructor
    case mp  =>
      intro h
      split at h
      case isFalse   => cases h
      case isTrue hp =>
        cases List.mem_singleton.mp h
        exact .assert hp
    case mpr =>
      intro h
      cases h
      case assert hp =>
        rw [if_pos hp]
        exact List.mem_singleton_self _
  case seq r t ih ih' =>
    refine mem_andThen.trans ⟨fun ⟨us, e, vs, hu, hv, he⟩ => ?_, fun h => ?_⟩
    case refine_1 =>
      have htake := (ih hc).mp hu
      exact he ▸ .seq htake ((ih' <| htake.le_length hc).mp hv)
    case refine_2 =>
      cases h
      case seq e us vs h h' => exact ⟨us, e, vs, (ih hc).mpr h, (ih' <| h.le_length hc).mpr h', rfl⟩
  case alt r t ih ih' =>
    refine mem_branch.trans ⟨fun h => ?_, fun h => ?_⟩
    case refine_1 =>
      rcases h with ⟨us, hu, he⟩ | ⟨us, hu, he⟩
      · exact he ▸ .left ((ih hc).mp hu)
      · exact he ▸ .right ((ih' hc).mp hu)
    case refine_2 =>
      cases h
      case left us h  => exact .inl ⟨us, (ih hc).mpr h, rfl⟩
      case right us h => exact .inr ⟨us, (ih' hc).mpr h, rfl⟩
  case star g r ih    => exact mem_repeatWays (fun c as d hc => @ih c d as hc) hc (by omega)
  case group n r ih   =>
    constructor
    case mp  =>
      intro h
      have ⟨⟨us, e⟩, hu, he⟩ := List.mem_map.mp h
      cases he
      exact .group ((ih hc).mp hu)
    case mpr =>
      intro h
      cases h
      case group e h => exact List.mem_map.mpr ⟨(as, e), (ih hc).mpr h, rfl⟩

-- Ways are tried in the order of their choices.
abbrev Ordered (ws : Ways) : Prop :=
  ws.Pairwise fun w v => Before w.1 v.1

theorem Ordered.andThen {ws : Ways} {next : Cursor → Ways} (h : Ordered ws) (hnext : ∀ w ∈ ws, Ordered (next w.2)) :
    Ordered (andThen ws next) := by
  refine List.pairwise_flatMap.mpr ⟨fun w hw => ?_, h.imp fun hb => ?_⟩
  case refine_1 => exact List.pairwise_map.mpr <| (hnext w hw).imp fun hb => hb.prepend w.1
  case refine_2 =>
    intro x hx y hy
    have ⟨v, _, hv⟩ := List.mem_map.mp hx
    have ⟨v', _, hv'⟩ := List.mem_map.mp hy
    rw [←hv, ←hv']
    exact hb.append v.1 v'.1

theorem Ordered.branch {ws vs : Ways} (h : Ordered ws) (h' : Ordered vs) : Ordered (branch ws vs) := by
  have hchosen {b : Bool} {ws : Ways} (h : Ordered ws) : Ordered (chosen b ws) :=
    List.pairwise_map.mpr <| h.imp fun hb => hb.cons b
  refine List.pairwise_append.mpr ⟨hchosen h, hchosen h', fun x hx y hy => ?_⟩
  have ⟨u, _, hu⟩ := List.mem_map.mp hx
  have ⟨v, _, hv⟩ := List.mem_map.mp hy
  rw [←hu, ←hv]
  exact before_cons u.1 v.1

theorem ordered_singleton {w : List Bool × Cursor} : Ordered [w] :=
  List.pairwise_singleton ..

theorem ordered_repeatWays {step : Cursor → Ways} {g : Bool} {fuel : Nat} (h : ∀ c, Ordered (step c)) :
    Ordered (repeatWays g step fuel c) := by
  induction fuel generalizing c
  case zero         => exact ordered_singleton
  case succ fuel ih =>
    have hmore : Ordered <| Regex.andThen (step c) fun d =>
        if c.pos < d.pos then repeatWays g step fuel d else [([], d)] := by
      refine (h c).andThen fun w _ => ?_
      split
      case isTrue  => exact ih
      case isFalse => exact ordered_singleton
    rw [repeatWays]
    cases g
    case true  => exact hmore.branch ordered_singleton
    case false => exact ordered_singleton.branch hmore

theorem ordered_ways : Ordered (ways s r c) := by
  induction r generalizing c
  case empty          => exact ordered_singleton
  case set p          =>
    rw [ways]
    split
    case isTrue  => exact ordered_singleton
    case isFalse => exact .nil
  case assert p       =>
    rw [ways]
    split
    case isTrue  => exact ordered_singleton
    case isFalse => exact .nil
  case seq r t ih ih' => exact ih.andThen fun _ _ => ih'
  case alt r t ih ih' => exact ih.branch ih'
  case star g r ih    => exact ordered_repeatWays fun _ => ih
  case group n r ih   => exact List.pairwise_map.mpr ih

-- The match that is preferred to all others.
def Preferred (s : List Char) (r : Regex) (c : Cursor) (as : List Bool) (d : Cursor) : Prop :=
  Takes s r c as d ∧ ∀ bs e, Takes s r c bs e → (bs, e) = (as, d) ∨ Before as bs

theorem preferred_iff (hc : c.pos ≤ s.length) : Preferred s r c as d ↔ (ways s r c).head? = some (as, d) := by
  have hordered : Ordered (ways s r c) := ordered_ways
  have hmem (as : List Bool) (d : Cursor) : (as, d) ∈ ways s r c ↔ Takes s r c as d := mem_ways hc
  rw [Preferred, ←hmem]
  simp only [←hmem]
  cases hw : ways s r c
  case nil       => exact iff_of_false (fun h => nomatch h.left) nofun
  case cons w ws =>
    rw [hw] at hordered
    have hfirst := (List.pairwise_cons.mp hordered).left
    constructor
    case mp  =>
      intro ⟨hin, hall⟩
      -- Of two ways, only one is before the other.
      cases List.mem_cons.mp hin
      case inl he => rw [he]; rfl
      case inr hm =>
        cases hall w.1 w.2 List.mem_cons_self
        case inl he => rw [←he]; rfl
        case inr hb => exact absurd hb (hfirst _ hm).asymm
    case mpr =>
      intro he
      cases Option.some.inj he
      refine ⟨List.mem_cons_self, fun bs e hb => ?_⟩
      exact (List.mem_cons.mp hb).imp id fun hm => hfirst _ hm

-- What is found at the start of the string.
theorem exec_of_preferred (h : Preferred s r ⟨0, 0⟩ as d) : exec r s = some (0, d) := by
  have hhead := (preferred_iff <| Nat.zero_le _).mp h
  rw [exec, List.range_succ_eq_map, List.findSome?_cons, hhead]
  rfl

-- What is found is a match.
theorem exec_takes (h : exec r s = some (i, d)) : i ≤ s.length ∧ ∃ as, Takes s r ⟨i, 0⟩ as d := by
  have ⟨k, hk, hfound⟩ := List.exists_of_findSome?_eq_some h
  have hle : k ≤ s.length := Nat.le_of_lt_succ <| List.mem_range.mp hk
  have ⟨w, hw, he⟩ := Option.map_eq_some_iff.mp hfound
  cases he
  exact ⟨hle, w.1, (mem_ways hle).mp <| List.mem_of_head? hw⟩

theorem exists_preferred (h : Takes s r ⟨0, 0⟩ as d) : ∃ bs e, Preferred s r ⟨0, 0⟩ bs e := by
  have hin : (as, d) ∈ ways s r ⟨0, 0⟩ := (mem_ways <| Nat.zero_le _).mpr h
  have ⟨w, ws, hw⟩ := List.exists_cons_of_ne_nil <| List.ne_nil_of_mem hin
  exact ⟨w.1, w.2, (preferred_iff <| Nat.zero_le _).mpr <| by rw [hw]; rfl⟩

end

end Regex
