import CfEngine.Libutils.IpAddress.IPV6Texts

namespace CfEngine

open Fields GroupsRead IPV6Parse

def IPV6Groups.values : IPV6Groups → List Nat
  | full groups             => groups.map hexadecimal
  | compressed before after =>
    before.map hexadecimal ++ List.replicate (8 - (before.length + after.length)) 0 ++ after.map hexadecimal

def IPV6Enclosure.portValue : IPV6Enclosure → Nat
  | port p => decimal p
  | _      => 0

structure IPV6Text.Denotes (t : IPV6Text) (address : IPV6Address) : Prop where
  sixteen : address.sixteen.toList.map UInt16.toNat = t.groups.values
  port    : address.port.toNat = t.enclosure.portValue

-- The text is accepted and read as the address that it denotes.
def IPV6Text.Reads (t : IPV6Text) : Prop :=
  ∃ address, ipv6Parser t.text = some address ∧ t.Denotes address

-- The groups after the colons are put in their places. In brackets they are stored from the last place on backwards,
-- and with a port not at all. The sixth one has its own place.
def AfterPlaced (after : List CString) : IPV6Enclosure → Prop
  | .plain    => after.length ≤ 5 ∨ ∀ g ∈ after.take 5, hexadecimal g = 0
  | .brackets => after.map hexadecimal = (after.map hexadecimal).reverse ∧
      (after.length ≤ 5 ∨ ∀ g ∈ after.head?, hexadecimal g = 0)
  | .port _   => ∀ g ∈ after.take 5, hexadecimal g = 0

def IPV6Text.Placed (t : IPV6Text) : Prop :=
  match t.groups with
  | .full _                  => True
  | .compressed before after => before.length ≤ 6 ∧ after.length ≤ 6 ∧ AfterPlaced after t.enclosure

-- The groups with the given values.
def ofValues (vs : List Nat) : Vector UInt16 8 :=
  Vector.ofFn fun i => .ofNat <| vs.getD i 0

section
variable {vs ws ns : List Nat} {n i : Nat} {port : UInt16} {groups before after : List CString} {e : IPV6Enclosure}
  {t : IPV6Text} {address : IPV6Address}

theorem sixteenOf_eq : sixteenOf groups = ofValues (groups.map hexadecimal) := by
  refine Vector.ext fun i hi => ?_
  simp only [sixteenOf, ofValues, Vector.getElem_ofFn, List.getD_eq_getElem?_getD, List.getElem?_map]
  cases groups[i]? <;> rfl

theorem toList_ofValues (hlen : vs.length = 8) (hle : ∀ v ∈ vs, v ≤ 65535) :
    (ofValues vs).toList.map UInt16.toNat = vs := by
  refine List.ext_getElem (by simp [hlen]) fun i _ hi => ?_
  have hlt : vs[i] < 65536 := Nat.lt_succ_of_le <| hle _ <| List.getElem_mem hi
  simpa [ofValues, hi] using hlt

-- The places that are not filled are zero.
theorem ofValues_append_replicate {k : Nat} : ofValues (vs ++ List.replicate k 0) = ofValues vs := by
  refine Vector.ext fun i hi => ?_
  simp only [ofValues, Vector.getElem_ofFn, List.getD_eq_getElem?_getD]
  grind

theorem store_ofValues (hi : i < vs.length) : store ⟨ofValues vs, port⟩ i n = ⟨ofValues (vs.set i n), port⟩ := by
  refine IPV6Address.ext (Vector.ext fun j hj => ?_) rfl
  simp only [store, ofValues, Vector.getElem_setIfInBounds, Vector.getElem_ofFn, List.getD_eq_getElem?_getD]
  grind

theorem storeBackwards_concat {numbers : List Nat} :
    storeBackwards address (numbers ++ [n]) = store (storeBackwards address numbers) (7 - numbers.length) n := by
  simp [storeBackwards, List.zipIdx_append]

theorem set_take_append {k : Nat} (hk : k < vs.length) :
    (vs.take (k + 1) ++ ws).set k n = vs.take k ++ n :: ws := by
  have hlen : (vs.take k).length = k := List.length_take_of_le <| Nat.le_of_lt hk
  rw [←List.take_append_getElem hk, List.append_assoc, List.set_append_right _ _ (Nat.le_of_eq hlen), hlen, Nat.sub_self]
  rfl

theorem storeBackwards_ofValues (hvs : vs.length = 8) (hns : ns.length ≤ 8) :
    storeBackwards ⟨ofValues vs, port⟩ ns = ⟨ofValues (vs.take (8 - ns.length) ++ ns.reverse), port⟩ := by
  induction ns using List.reverseRecOn
  case nil                    =>
    rw [List.length_nil, List.take_of_length_le (Nat.le_of_eq hvs), List.reverse_nil, List.append_nil]
    rfl
  case append_singleton ns n ih =>
    rw [List.length_append, List.length_singleton] at hns
    have hlen : (vs.take (8 - ns.length) ++ ns.reverse).length = 8 := by simp; omega
    have hsucc : 8 - ns.length = 7 - ns.length + 1 := by omega
    have hlast : 8 - (ns ++ [n]).length = 7 - ns.length := by
      rw [List.length_append, List.length_singleton]
      omega
    rw [storeBackwards_concat, ih (by omega), store_ofValues (by omega), hsucc, set_take_append (by omega), hlast,
      List.reverse_concat]

theorem denotes_iff (hlen : vs.length = 8) (hle : ∀ v ∈ vs, v ≤ 65535) (hport : t.enclosure.portValue ≤ 65535) :
    t.Denotes ⟨ofValues vs, .ofNat t.enclosure.portValue⟩ ↔ vs = t.groups.values := by
  constructor
  case mp  => exact fun h => (toList_ofValues hlen hle).symm.trans h.sixteen
  case mpr =>
    intro h
    refine ⟨(toList_ofValues hlen hle).trans h, ?_⟩
    rw [UInt16.toNat_ofNat']
    exact Nat.mod_eq_of_lt <| Nat.lt_succ_of_le hport

def padded (groups : List CString) : List Nat :=
  groups.map hexadecimal ++ List.replicate (8 - groups.length) 0

theorem length_padded (h : groups.length ≤ 8) : (padded groups).length = 8 := by
  rw [padded, List.length_append, List.length_map, List.length_replicate]
  omega

theorem ofValues_padded : ofValues (padded groups) = sixteenOf groups := by
  rw [padded, ofValues_append_replicate, sixteenOf_eq]

-- The values of the groups that the parser stores.
def GroupsRead.stored (r : GroupsRead) (after : List CString) : IPV6Enclosure → List Nat
  | .plain    =>
    if r.place = 7 then (padded r.before).take 7 ++ [hexadecimal r.current]
    else (padded r.before).take (7 - after.length) ++ (after.map hexadecimal ++ [hexadecimal r.current])
  | .brackets =>
    if r.place = 7 then
      ((padded r.before).take 7 ++ [hexadecimal r.current]).take (8 - after.length) ++ (after.map hexadecimal).reverse
    else (padded r.before).take (7 - after.length) ++ hexadecimal r.current :: (after.map hexadecimal).reverse
  | .port _   =>
    if r.place = 7 then (padded r.before).take 7 ++ [hexadecimal r.current] else padded r.before

theorem store_last (h : vs.length = 8) : store ⟨ofValues vs, port⟩ 7 n = ⟨ofValues (vs.take 7 ++ [n]), port⟩ := by
  have hset := @set_take_append vs [] n 7 (by omega)
  rw [List.append_nil, List.take_of_length_le (Nat.le_of_eq h)] at hset
  rw [store_ofValues (by omega), hset]

section
variable {r : GroupsRead} {bracket : Bool}

theorem parse_address (hr : r.Fits) : (r.parse bracket).address = ⟨ofValues (padded r.before), 0⟩ := by
  rw [ofValues_padded, parse]
  split <;> rfl

theorem place_cases (hr : r.Fits) (ha : r.after = some after) :
    r.place = 7 ∨ 2 ≤ r.place ∧ r.place ≤ 6 ∧ after.length ≤ 4 := by
  have hmax := (hr.after after ha).right.right.left
  simp only [place, ha]
  omega

theorem GroupsRead.Fits.length_padded (hr : r.Fits) : (padded r.before).length = 8 :=
  CfEngine.length_padded <| Nat.le_succ_of_le hr.length

theorem finish_low {parse : IPV6Parse} (hlow : 2 ≤ parse.state) (hhigh : parse.state ≤ 6) : parse.finish =
    if parse.bracket_expected then none
    else if parse.zero_compression then
      some <| storeBackwards parse.address parse.storeUnsorted.unsorted_sixteen.reverse
    else none := by
  rw [finish]
  generalize parse.state = state at *
  interval_cases state <;> rfl

theorem finish_plain (hr : r.Fits) (ha : r.after = some after) (he : r.Ends .plain) :
    finish (r.parse false) = some ⟨ofValues (r.stored after .plain), 0⟩ := by
  have hunsorted : (r.parse false).storeUnsorted.unsorted_sixteen = after.map hexadecimal ++ [hexadecimal r.current] := by
    simp [storeUnsorted, parse, ha]
  have hzero : (r.parse false).zero_compression = true := by simp [parse, ha]
  rcases place_cases hr ha with hplace | ⟨hlow, hhigh, hafter⟩
  · have hcounter : ¬(r.parse false).char_counter = 0 := fun hn =>
      he.left hplace <| List.length_eq_zero_iff.mp <| (hr.char_counter hplace).symm.trans hn
    have hlast : (r.parse false).storeSixteen.address = ⟨ofValues (r.stored after .plain), 0⟩ := by
      rw [storeSixteen, parse_state, hplace, parse_sixteen, parse_address hr, store_last hr.length_padded, stored,
        if_pos hplace]
    rw [finish, parse_state, hplace]
    simp [hcounter, hlast]
  · have hne : r.place ≠ 7 := by omega
    have hlen : 8 - (after.map hexadecimal ++ [hexadecimal r.current]).reverse.length = 7 - after.length := by
      simp
    have hstore := @storeBackwards_ofValues (padded r.before)
      (after.map hexadecimal ++ [hexadecimal r.current]).reverse 0 hr.length_padded (by simp; omega)
    rw [hlen, List.reverse_reverse] at hstore
    rw [finish_low (parse_state.symm ▸ hlow) (parse_state.symm ▸ hhigh), parse_bracket_expected, hzero, hunsorted,
      parse_address hr, hstore, stored, if_neg hne]
    rfl

theorem close_of_last (hr : r.Fits) (ha : r.after = some after) (hplace : r.place = 7) :
    (r.parse true).close.address = ⟨ofValues ((padded r.before).take 7 ++ [hexadecimal r.current]), 0⟩ ∧
      (r.parse true).close.unsorted_sixteen = after.map hexadecimal := by
  rw [close, parse_state, if_pos hplace, reset, storeSixteen, parse_state, hplace, parse_sixteen, parse_address hr,
    store_last hr.length_padded]
  exact ⟨rfl, by simp [parse, ha]⟩

theorem close_of_ne (hr : r.Fits) (ha : r.after = some after) (hplace : r.place ≠ 7) :
    (r.parse true).close.address = ⟨ofValues (padded r.before), 0⟩ ∧
      (r.parse true).close.unsorted_sixteen = after.map hexadecimal ++ [hexadecimal r.current] := by
  rw [close, parse_state, if_neg hplace, reset, storeUnsorted, parse_sixteen, parse_address hr]
  exact ⟨rfl, by simp [parse, ha]⟩

theorem finish_closed (hr : r.Fits) (ha : r.after = some after) :
    finish (r.parse true).close = some ⟨ofValues (r.stored after .brackets), 0⟩ := by
  have hzero : (r.parse true).close.zero_compression = true := by
    simp only [close]
    split <;> simp [storeSixteen, storeUnsorted, reset, parse, ha]
  have hfinish : finish (r.parse true).close =
      some (storeBackwards (r.parse true).close.address (r.parse true).close.unsorted_sixteen) := by
    simp [finish, show (r.parse true).close.state = 8 from rfl, hzero]
  rw [hfinish]
  rcases place_cases hr ha with hplace | ⟨_, hhigh, hafter⟩
  · obtain ⟨haddress, hunsorted⟩ := close_of_last hr ha hplace
    have hlen : ((padded r.before).take 7 ++ [hexadecimal r.current]).length = 8 := by simp [hr.length_padded]
    have hle := (hr.after after ha).right.right.left
    rw [haddress, hunsorted, storeBackwards_ofValues hlen (by rw [List.length_map]; omega), List.length_map, stored,
      if_pos hplace]
  · have hne : r.place ≠ 7 := by omega
    obtain ⟨haddress, hunsorted⟩ := close_of_ne hr ha hne
    have hlen : 8 - (after.map hexadecimal ++ [hexadecimal r.current]).length = 7 - after.length := by simp
    rw [haddress, hunsorted, storeBackwards_ofValues hr.length_padded (by simp; omega), hlen, List.reverse_concat, stored,
      if_neg hne]

theorem finish_port {p : CString} (hr : r.Fits) (ha : r.after = some after) (hp : p ≠ []) :
    finish (portRead (r.parse true).close p) = some ⟨ofValues (r.stored after <| .port p), .ofNat (decimal p)⟩ := by
  have hcounter : ¬p.length = 0 := fun hn => hp <| List.length_eq_zero_iff.mp hn
  have hfinish : finish (portRead (r.parse true).close p) =
      some { (r.parse true).close.address with port := .ofNat (decimal p) } := if_neg hcounter
  rw [hfinish]
  by_cases hplace : r.place = 7
  case pos => rw [(close_of_last hr ha hplace).left, stored, if_pos hplace]
  case neg => rw [(close_of_ne hr ha hplace).left, stored, if_neg hplace]

end

theorem ipv6Parser_eq {r : GroupsRead} (hr : r.Fits) (ha : r.after = some after) (he : r.Ends e) :
    ipv6Parser (e.enclose r.text) = some ⟨ofValues (r.stored after e), .ofNat e.portValue⟩ := by
  rw [ipv6Parser]
  cases e
  case plain    =>
    have hruns : r.text.foldlM step {} = some (r.parse false) := @Fits.runs r false hr
    rw [IPV6Enclosure.enclose, hruns, Option.bind_some, finish_plain hr ha he]
    rfl
  case brackets =>
    rw [IPV6Enclosure.enclose, runs_closed hr he, Option.bind_some, finish_closed hr ha]
    rfl
  case port p   =>
    rw [IPV6Enclosure.enclose, runs_port hr he.left he.right.toDigitsUpTo, Option.bind_some,
      finish_port hr ha he.right.ne_nil]
    rfl

theorem padded_orEmpty : padded (orEmpty groups) = padded groups := by
  rcases orEmpty_cases groups with ⟨he, hn⟩ | he
  · rw [he, hn]
    rfl
  · rw [he]

theorem take_padded {m : Nat} (hm : groups.length ≤ m) (hm' : m ≤ 8) :
    (padded groups).take m = groups.map hexadecimal ++ List.replicate (m - groups.length) 0 := by
  rw [padded, List.take_append, List.take_of_length_le (by rwa [List.length_map]), List.length_map, List.take_replicate,
    Nat.min_eq_left (by omega)]

theorem padded_eq {m k : Nat} (hm : groups.length ≤ m) (hk : m + k ≤ 8) :
    (padded groups).take (m + k) = (padded groups).take m ++ List.replicate k 0 := by
  rw [take_padded hm (by omega), take_padded (by omega) hk, List.append_assoc, ←List.replicate_add]
  congr 2
  omega

theorem values_compressed (h : before.length + after.length ≤ 7) :
    (IPV6Groups.compressed before after).values = (padded before).take (8 - after.length) ++ after.map hexadecimal := by
  rw [take_padded (by omega) (by omega), IPV6Groups.values, Nat.sub_sub, Nat.add_comm after.length]

theorem zero_cons_reverse_iff (hne : vs ≠ []) :
    0 :: vs.reverse = vs ++ [n] ↔ vs ++ [n] = (vs ++ [n]).reverse ∧ ∀ v ∈ vs.head?, v = 0 := by
  obtain ⟨v, vs, rfl⟩ := List.exists_cons_of_ne_nil hne
  rw [List.reverse_concat, List.cons_append]
  constructor
  case mp  =>
    intro h
    have hv : 0 = v := (List.cons.inj h).left
    have hn : v = n := by
      have hreverse := congrArg List.reverse h
      rw [List.reverse_cons, List.reverse_reverse, ←List.cons_append, List.reverse_concat] at hreverse
      exact (List.cons.inj hreverse).left
    refine ⟨?_, fun w hw => (Option.some.inj hw).symm.trans hv.symm⟩
    rw [←h, ←hn, ←hv]
  case mpr =>
    intro ⟨h, hhead⟩
    have hn : v = n := (List.cons.inj h).left
    rw [h, ←hn, hhead v rfl]

theorem replicate_eq_map_iff {k : Nat} (h : groups.length = k) :
    List.replicate k 0 = groups.map hexadecimal ↔ ∀ g ∈ groups, hexadecimal g = 0 := by
  rw [eq_comm, List.eq_replicate_iff, List.length_map]
  simp [h]

section
variable {a : List CString} {l : CString}

theorem place_of_orEmpty :
    (GroupsRead.mk (orEmpty before) (some a) l).place = max 2 before.length + a.length := by
  show max 2 (orEmpty before).length + a.length = _
  rcases orEmpty_cases before with ⟨he, hn⟩ | he
  · rw [he, hn]
    rfl
  · rw [he]

-- The last group comes before the last place.
theorem stored_low_iff (hlen : before.length + a.length ≤ 6) (ha : a.length ≤ 4)
    (hplace : (GroupsRead.mk (orEmpty before) (some a) l).place ≠ 7) :
    (GroupsRead.mk (orEmpty before) (some a) l).stored a e =
      (padded before).take (7 - a.length) ++ (a ++ [l]).map hexadecimal ↔ AfterPlaced (a ++ [l]) e := by
  have hshort : (a ++ [l]).length ≤ 5 := by
    rw [List.length_append]
    exact Nat.succ_le_succ ha
  cases e
  case plain    =>
    rw [stored, if_neg hplace, padded_orEmpty, List.map_append]
    exact iff_of_true rfl <| .inl hshort
  case brackets =>
    rw [stored, if_neg hplace, padded_orEmpty, List.append_right_inj, AfterPlaced, List.map_append, List.map_singleton,
      List.reverse_concat, eq_comm]
    exact (and_iff_left <| .inl hshort).symm
  case port p   =>
    have hpadded := @padded_eq before (7 - a.length) (a.length + 1) (by omega) (by omega)
    have height : 7 - a.length + (a.length + 1) = 8 := by omega
    rw [height, List.take_of_length_le (Nat.le_of_eq <| length_padded (by omega))] at hpadded
    rw [stored, if_neg hplace, padded_orEmpty, AfterPlaced, List.take_of_length_le hshort]
    nth_rewrite 1 [hpadded]
    rw [List.append_right_inj]
    exact replicate_eq_map_iff <| by rw [List.length_append, List.length_singleton]

-- The last group is in the last place.
theorem stored_last_iff (hb : before.length ≤ 2) (ha : a.length = 5)
    (hplace : (GroupsRead.mk (orEmpty before) (some a) l).place = 7) :
    (GroupsRead.mk (orEmpty before) (some a) l).stored a e =
      (padded before).take 2 ++ (a ++ [l]).map hexadecimal ↔ AfterPlaced (a ++ [l]) e := by
  have hlong : ¬(a ++ [l]).length ≤ 5 := by simp [ha]
  have hseven := @padded_eq before 2 5 hb (by decide)
  have hthree := @padded_eq before 2 1 hb (by decide)
  have htake : (a ++ [l]).take 5 = a := by rw [←ha, List.take_left]
  have hfirst : (padded before).take 7 ++ [hexadecimal l] = (padded before).take 2 ++ (a ++ [l]).map hexadecimal ↔
      ∀ g ∈ a, hexadecimal g = 0 := by
    rw [hseven, List.map_append, List.append_assoc, List.append_right_inj, List.map_singleton, List.append_left_inj]
    exact replicate_eq_map_iff ha
  cases e
  case plain    =>
    rw [stored, if_pos hplace, padded_orEmpty, hfirst, AfterPlaced, htake]
    exact (or_iff_right hlong).symm
  case brackets =>
    have ⟨g, gs, hg⟩ := List.exists_cons_of_length_eq_add_one ha
    have hne : a.map hexadecimal ≠ [] := by simp [hg]
    have hhead : (∀ v ∈ (a.map hexadecimal).head?, v = 0) ↔ ∀ e ∈ (a ++ [l]).head?, hexadecimal e = 0 := by simp [hg]
    have htake3 : ((padded before).take 7 ++ [hexadecimal l]).take (8 - a.length) = (padded before).take 2 ++ [0] := by
      rw [ha, List.take_append_of_le_length (by simp [@length_padded before (by omega)]), List.take_take]
      exact hthree
    rw [stored, if_pos hplace, padded_orEmpty, htake3, List.append_assoc, List.append_right_inj, List.map_append,
      List.map_singleton, List.singleton_append, zero_cons_reverse_iff hne, hhead, AfterPlaced, List.map_append,
      List.map_singleton, or_iff_right hlong]
  case port p   => rw [stored, if_pos hplace, padded_orEmpty, hfirst, AfterPlaced, htake]

end

-- The values are stored in their places under the condition.
theorem stored_eq_iff {a : List CString} {l : CString} (hlen : before.length + after.length ≤ 7)
    (hb : before.length ≤ 6) (ha : after.length ≤ 6) (hlast : orEmpty after = a ++ [l]) :
    (GroupsRead.mk (orEmpty before) (some a) l).stored a e = (IPV6Groups.compressed before after).values ↔
      AfterPlaced after e := by
  rw [values_compressed hlen]
  have hplace := @place_of_orEmpty before a l
  rcases orEmpty_cases after with ⟨he, hnil⟩ | he
  · have ⟨ha', hl⟩ : a = [] ∧ l = [] := by
      rw [he] at hlast
      exact List.singleton_eq_append_iff.mp hlast |>.elim (fun h => ⟨h.left, by simpa using h.right.symm⟩) (by simp)
    subst hnil ha' hl
    have hne : (GroupsRead.mk (orEmpty before) (some []) []).place ≠ 7 := by
      rw [hplace, List.length_nil]
      omega
    have hseven := @padded_eq before 7 1 (by omega) (by decide)
    have hplaced : AfterPlaced [] e := by cases e <;> simp [AfterPlaced]
    refine iff_of_true ?_ hplaced
    have hall := List.take_of_length_le <| Nat.le_of_eq <| @length_padded before (by omega)
    cases e
    case plain    => rw [stored, if_neg hne, padded_orEmpty]; exact hseven.symm.trans (List.append_nil _).symm
    case brackets => rw [stored, if_neg hne, padded_orEmpty]; exact hseven.symm.trans (List.append_nil _).symm
    case port p   => rw [stored, if_neg hne, padded_orEmpty]; exact hall.symm.trans (List.append_nil _).symm
  · rw [he] at hlast
    subst hlast
    rw [List.length_append, List.length_singleton] at hlen ha ⊢
    have height : 8 - (a.length + 1) = 7 - a.length := by omega
    rw [height]
    by_cases hlast : a.length = 5
    case pos =>
      rw [hlast]
      exact stored_last_iff (by omega) hlast <| by omega
    case neg => exact stored_low_iff (by omega) (by omega) <| by omega

-- A colon behind the last place is an error.
theorem rejects {r : GroupsRead} {bracket : Bool} {rest : CString} (hr : r.Fits) (hplace : r.place = 7) :
    ipv6Parser (opening bracket ++ r.text ++ ':' :: rest) = none := by
  have hruns := @Fits.runs r bracket hr
  have ⟨parse', hstep, hstate, _⟩ := step_colon_error (@Fits.inGroups r bracket hr) <| .inl <| parse_state.trans hplace
  rw [ipv6Parser, List.foldlM_append, hruns]
  simp only [Option.bind_eq_bind, Option.bind_some, List.foldlM_cons, hstep]
  cases rest
  case nil         =>
    simp only [List.foldlM_nil]
    show parse'.finish = none
    simp [finish, hstate]
  case cons c rest => rw [List.foldlM_cons, step_error hstate]; rfl

theorem enclose_append (e : IPV6Enclosure) (s rest : CString) :
    ∃ bracket rest', e.enclose (s ++ ':' :: rest) = opening bracket ++ s ++ ':' :: rest' := by
  cases e
  case plain    => exact ⟨false, rest, rfl⟩
  case brackets => exact ⟨true, rest ++ [']'], by simp [IPV6Enclosure.enclose, opening]⟩
  case port p   => exact ⟨true, rest ++ ']' :: ':' :: p, by simp [IPV6Enclosure.enclose, opening]⟩

theorem exists_concat_of_length {α : Type} {as : List α} (h : as.length = n + 1) :
    ∃ bs b, as = bs ++ [b] ∧ bs.length = n := by
  cases List.eq_nil_or_concat as
  case inl hnil => rw [hnil] at h; nomatch h
  case inr hlast =>
    have ⟨bs, b, hbs⟩ := hlast
    rw [List.concat_eq_append] at hbs
    rw [hbs, List.length_append] at h
    exact ⟨bs, b, hbs, Nat.succ.inj h⟩

-- The colons are behind the last place.
theorem rejects_before (hg : ∀ g ∈ before, IsGroup g) (hlen : before.length = 7) (rest : CString) :
    ipv6Parser (e.enclose <| [':'].intercalate before ++ ':' :: ':' :: rest) = none := by
  have hne : before ≠ [] := List.ne_nil_of_length_eq_add_one hlen
  have hfits : (GroupsRead.mk before none []).Fits :=
    ⟨hexDigits_nil, fun g h => (hg g h).toHexDigits, fun g h => (hg g <| List.mem_of_mem_tail h).ne_nil,
      Nat.le_of_eq hlen, nofun⟩
  have htext : (GroupsRead.mk before none []).text = [':'].intercalate before ++ [':'] := by
    rw [text_eq_intercalate]
    exact intercalate_append hne <| List.cons_ne_nil _ _
  have ⟨bracket, rest', h⟩ := enclose_append e ([':'].intercalate before ++ [':']) rest
  rw [←htext] at h
  have hrejects := @rejects (GroupsRead.mk before none []) bracket rest' hfits hlen
  rw [←h, htext, List.append_assoc] at hrejects
  exact hrejects

theorem rejects_after (hg : ∀ g ∈ after, IsGroup g) (hlen : after.length = 7) :
    ipv6Parser (e.enclose <| ':' :: ':' :: [':'].intercalate after) = none := by
  obtain ⟨after, last, rfl, hsix⟩ := exists_concat_of_length hlen
  obtain ⟨after, g, rfl, hfive⟩ := exists_concat_of_length hsix
  have hgroup (e : CString) (he : e ∈ after ++ [g]) : IsGroup e := hg e <| List.mem_append_left _ he
  have hafter (e : CString) (he : e ∈ after) : IsGroup e := hgroup e <| List.mem_append_left _ he
  have hfits : (GroupsRead.mk [[]] (some after) g).Fits := by
    refine ⟨(hgroup g <| by simp).toHexDigits, by simp [hexDigits_nil], by simp, by simp, fun _ h => ?_⟩
    cases h
    refine ⟨by simp, by simp, by simp [hfive], fun e he => (hafter e he).toHexDigits,
      fun e he => (hafter e <| List.mem_of_mem_tail he).ne_nil, fun hm => ?_⟩
    exact absurd rfl (hafter [] <| List.mem_of_mem_head? hm).ne_nil
  have hplace : (GroupsRead.mk [[]] (some after) g).place = 7 := congrArg (2 + ·) hfive
  have htext : (GroupsRead.mk [[]] (some after) g).text = ':' :: ':' :: [':'].intercalate (after ++ [g]) := by
    simp [GroupsRead.text, terminated, intercalate_concat]
  have happend : ':' :: ':' :: [':'].intercalate (after ++ [g] ++ [last]) =
      (GroupsRead.mk [[]] (some after) g).text ++ ':' :: last := by
    rw [htext, intercalate_append (by simp) (List.cons_ne_nil _ _), List.intercalate_singleton]
    rfl
  obtain ⟨bracket, rest', h⟩ := enclose_append e (GroupsRead.mk [[]] (some after) g).text last
  rw [happend, h]
  exact rejects hfits hplace

-- Every group has its own place.

theorem ipv6Parser_full (hg : ∀ g ∈ groups, IsGroup g) (hlen : groups.length = 8)
    (hport : ∀ p, e = .port p → IsNumeral 65535 p) :
    ipv6Parser (e.enclose <| [':'].intercalate groups) = some ⟨ofValues (groups.map hexadecimal), .ofNat e.portValue⟩ := by
  obtain ⟨before, g, rfl, hseven⟩ := exists_concat_of_length hlen
  have hbefore (e : CString) (he : e ∈ before) : IsGroup e := hg e <| List.mem_append_left _ he
  have hlast : IsGroup g := hg g <| by simp
  have hfits : (GroupsRead.mk before none g).Fits :=
    ⟨hlast.toHexDigits, fun e h => (hbefore e h).toHexDigits, fun e h => (hbefore e <| List.mem_of_mem_tail h).ne_nil,
      Nat.le_of_eq hseven, nofun⟩
  have hplace : (GroupsRead.mk before none g).place = 7 := hseven
  have hcloses : (GroupsRead.mk before none g).Closes := .inl hplace
  have htext : [':'].intercalate (before ++ [g]) = (GroupsRead.mk before none g).text := by
    rw [text_eq_intercalate]
    rfl
  have hstore : store ⟨sixteenOf before, 0⟩ 7 (hexadecimal g) = ⟨ofValues ((before ++ [g]).map hexadecimal), 0⟩ := by
    rw [←sixteenOf_eq, ←store_sixteenOf, hseven]
  have hsixteen (bracket : Bool) : ((GroupsRead.mk before none g).parse bracket).storeSixteen.address =
      ⟨ofValues ((before ++ [g]).map hexadecimal), 0⟩ := by
    rw [storeSixteen, parse_state, hplace, ←hstore]
    rfl
  have hclose : ((GroupsRead.mk before none g).parse true).close.address =
      ⟨ofValues ((before ++ [g]).map hexadecimal), 0⟩ := by
    rw [close, parse_state, if_pos hplace]
    exact hsixteen true
  have hzero : ((GroupsRead.mk before none g).parse true).close.zero_compression = false := by
    rw [close, parse_state, if_pos hplace]
    rfl
  rw [ipv6Parser, htext]
  cases e
  case plain    =>
    have hruns : (GroupsRead.mk before none g).text.foldlM step {} = some ((GroupsRead.mk before none g).parse false) :=
      @Fits.runs _ false hfits
    have hcounter : ¬((GroupsRead.mk before none g).parse false).char_counter = 0 := fun hn =>
      hlast.ne_nil <| List.length_eq_zero_iff.mp <| (hfits.char_counter hplace).symm.trans hn
    rw [IPV6Enclosure.enclose, hruns, Option.bind_some, finish, parse_state, hplace]
    simp [hcounter, hsixteen, IPV6Enclosure.portValue]
  case brackets =>
    rw [IPV6Enclosure.enclose, runs_closed hfits hcloses, Option.bind_some]
    simp [finish, show ((GroupsRead.mk before none g).parse true).close.state = 8 from rfl, hzero, hclose,
      IPV6Enclosure.portValue]
  case port p   =>
    have hp := hport p rfl
    have hcounter : ¬p.length = 0 := fun hn => hp.ne_nil <| List.length_eq_zero_iff.mp hn
    rw [IPV6Enclosure.enclose, runs_port hfits hcloses hp.toDigitsUpTo, Option.bind_some]
    simp [finish, portRead, hcounter, hclose, IPV6Enclosure.portValue]

-- The groups are read before their places are known.
theorem fits_compressed {a : List CString} {l : CString} (hg : ∀ g ∈ before ++ after, IsGroup g)
    (hcomplete : before.length + after.length ≤ 7) (hb : before.length ≤ 6) (ha : after.length ≤ 6)
    (hlast : orEmpty after = a ++ [l]) : (GroupsRead.mk (orEmpty before) (some a) l).Fits := by
  have hbefore (g : CString) (hm : g ∈ before) : IsGroup g := hg g <| List.mem_append_left _ hm
  have hafter (g : CString) (hm : g ∈ after) : IsGroup g := hg g <| List.mem_append_right _ hm
  have hlen : (orEmpty before).length ≤ max 1 before.length := by
    rcases orEmpty_cases before with ⟨he, _⟩ | he
    · rw [he]
      exact Nat.le_max_left _ _
    · rw [he]
      exact Nat.le_max_right _ _
  have ⟨hmem, halen⟩ : (∀ g ∈ a, g ∈ after) ∧ (a = [] ∨ a.length + 1 = after.length) := by
    rcases orEmpty_cases after with ⟨he, _⟩ | he
    · have hnil : a = [] := (List.append_eq_singleton_iff.mp <| hlast.symm.trans he).elim And.left (by simp)
      exact ⟨hnil ▸ fun _ hm => (nomatch hm), .inl hnil⟩
    · rw [he] at hlast
      rw [hlast]
      exact ⟨fun g hm => List.mem_append_left _ hm, .inr (@List.length_append _ a [l]).symm⟩
  have hgroup (g : CString) (hm : g ∈ a) : IsGroup g := hafter g <| hmem g hm
  refine ⟨?_, mem_orEmpty hbefore, orEmpty_tail hbefore, by simp only; omega, fun _ h => ?_⟩
  case refine_1 => exact mem_orEmpty hafter l <| hlast ▸ List.mem_append_right _ (List.mem_singleton_self l)
  case refine_2 =>
    cases h
    refine ⟨orEmpty_ne_nil, by simp only; omega, ?_, fun g hm => (hgroup g hm).toHexDigits,
      fun g hm => (hgroup g <| List.mem_of_mem_tail hm).ne_nil, fun hm => ?_⟩
    case refine_1 =>
      show max 2 (orEmpty before).length + a.length ≤ 7
      rcases halen with hnil | halen
      · rw [hnil, List.length_nil]
        omega
      · omega
    case refine_2 => exact absurd rfl (hgroup [] <| List.mem_of_mem_head? hm).ne_nil

theorem ends_compressed {a : List CString} {l : CString} (hg : ∀ g ∈ after, IsGroup g) (hb : before.length ≤ 6)
    (hlast : orEmpty after = a ++ [l]) (hport : ∀ p, e = .port p → IsNumeral 65535 p) :
    (GroupsRead.mk (orEmpty before) (some a) l).Ends e := by
  cases e
  case plain    =>
    refine ⟨fun hplace => ?_, .inr nofun⟩
    rw [place_of_orEmpty] at hplace
    have hne : a ≠ [] := fun hn => by
      rw [hn, List.length_nil] at hplace
      omega
    rcases orEmpty_cases after with ⟨he, _⟩ | he
    · exact absurd (List.append_eq_singleton_iff.mp <| hlast.symm.trans he) (by simp [hne])
    · exact (hg l <| he ▸ hlast ▸ List.mem_append_right _ (List.mem_singleton_self l)).ne_nil
  case brackets => exact .inr nofun
  case port p   => exact ⟨.inr nofun, hport p rfl⟩

theorem hexadecimal_le (h : ∀ g ∈ groups, HexDigits g) : ∀ v ∈ groups.map hexadecimal, v ≤ 65535 := by
  intro v hv
  have ⟨g, hg, he⟩ := List.mem_map.mp hv
  exact he ▸ (h g hg).le

theorem stored_le {r : GroupsRead} (hr : r.Fits) (ha : r.after = some after) : ∀ v ∈ r.stored after e, v ≤ 65535 := by
  have hpadded : ∀ v ∈ padded r.before, v ≤ 65535 := fun v hv =>
    (List.mem_append.mp hv).elim (hexadecimal_le hr.before v) fun hv => by simp [List.eq_of_mem_replicate hv]
  have hafter := hexadecimal_le (hr.after after ha).right.right.right.left
  have hcurrent := hr.current.le
  have htake {m : Nat} : ∀ v ∈ (padded r.before).take m, v ≤ 65535 := fun v hv => hpadded v <| List.mem_of_mem_take hv
  have hseven : ∀ v ∈ (padded r.before).take 7 ++ [hexadecimal r.current], v ≤ 65535 := fun v hv =>
    (List.mem_append.mp hv).elim (htake v) fun hv => List.mem_singleton.mp hv ▸ hcurrent
  intro v hv
  cases e
  all_goals
    rw [stored] at hv
    split at hv
  case plain.isTrue     => exact hseven v hv
  case port.isTrue      => exact hseven v hv
  case port.isFalse     => exact hpadded v hv
  case plain.isFalse    =>
    simp only [List.mem_append, List.mem_singleton] at hv
    exact hv.elim (htake v) fun hv => hv.elim (hafter v) fun hv => hv ▸ hcurrent
  case brackets.isTrue  =>
    rcases List.mem_append.mp hv with hv | hv
    · exact hseven v <| List.mem_of_mem_take hv
    · exact hafter v <| List.mem_reverse.mp hv
  case brackets.isFalse =>
    simp only [List.mem_append, List.mem_cons, List.mem_reverse] at hv
    exact hv.elim (htake v) fun hv => hv.elim (· ▸ hcurrent) (hafter v)

theorem length_stored {r : GroupsRead} (hr : r.Fits) (ha : r.after = some after) : (r.stored after e).length = 8 := by
  have hlen := hr.length_padded
  have hmax := (hr.after after ha).right.right.left
  cases e <;> rw [stored] <;> split <;>
    simp only [List.length_append, List.length_cons, List.length_nil, List.length_take, List.length_map,
      List.length_reverse, hlen] <;> omega

theorem portValue_le (hport : ∀ p, e = .port p → IsNumeral 65535 p) : e.portValue ≤ 65535 := by
  cases e
  case port p => exact (hport p rfl).le
  all_goals exact Nat.zero_le _

theorem reads_iff (hparser : ipv6Parser t.text = some ⟨ofValues vs, .ofNat t.enclosure.portValue⟩) (hlen : vs.length = 8)
    (hle : ∀ v ∈ vs, v ≤ 65535) (hport : t.enclosure.portValue ≤ 65535) : t.Reads ↔ vs = t.groups.values := by
  rw [←denotes_iff hlen hle hport, IPV6Text.Reads, hparser]
  exact ⟨fun ⟨_, he, h⟩ => Option.some.inj he ▸ h, fun h => ⟨_, rfl, h⟩⟩

theorem not_reads (h : ipv6Parser t.text = none) : ¬t.Reads :=
  fun ⟨_, he, _⟩ => nomatch h.symm.trans he

end

theorem ipv6Text_reads_iff (t : IPV6Text) (h : t.Valid) : t.Reads ↔ t.Placed := by
  obtain ⟨groups, e⟩ := t
  have hport : ∀ p, e = .port p → IsNumeral 65535 p := h.port
  have hle : e.portValue ≤ 65535 := portValue_le hport
  cases groups
  case full groups             =>
    have hgroups : ∀ g ∈ groups, IsGroup g := h.groups
    have hlen : (groups.map hexadecimal).length = 8 := by
      rw [List.length_map]
      exact h.complete
    have hle' := hexadecimal_le fun g hg => (hgroups g hg).toHexDigits
    have hreads := @reads_iff _ ⟨.full groups, e⟩ (ipv6Parser_full hgroups h.complete hport) hlen hle' hle
    exact iff_of_true (hreads.mpr rfl) trivial
  case compressed before after =>
    have hcomplete : before.length + after.length ≤ 7 := h.complete
    have hgroups : ∀ g ∈ before ++ after, IsGroup g := h.groups
    by_cases hb : before.length ≤ 6
    case neg =>
      have hrejects := @rejects_before before e (fun g hg => hgroups g <| List.mem_append_left _ hg) (by omega)
        ([':'].intercalate after)
      exact iff_of_false (not_reads hrejects) fun hplaced => hb hplaced.left
    case pos =>
      by_cases ha : after.length ≤ 6
      case neg =>
        have hnil : before = [] := List.length_eq_zero_iff.mp <| by omega
        have hrejects := @rejects_after after e (fun g hg => hgroups g <| List.mem_append_right _ hg) (by omega)
        refine iff_of_false (not_reads ?_) fun hplaced => ha hplaced.right.left
        rw [hnil]
        exact hrejects
      case pos =>
        have ⟨a, l, hlast⟩ : ∃ a l, orEmpty after = a ++ [l] :=
          ⟨_, _, (List.dropLast_append_getLast orEmpty_ne_nil).symm⟩
        have hfits := fits_compressed hgroups hcomplete hb ha hlast
        have hends := ends_compressed (fun g hg => hgroups g <| List.mem_append_right _ hg) hb hlast hport
        have htext : (GroupsRead.mk (orEmpty before) (some a) l).text = (IPV6Groups.compressed before after).text := by
          rw [GroupsRead.text_eq_intercalate, IPV6Groups.text_eq_intercalate, IPV6Groups.pieces, hlast]
          rfl
        have hparser := ipv6Parser_eq hfits rfl hends
        rw [htext] at hparser
        have hreads := @reads_iff _ ⟨.compressed before after, e⟩ hparser (length_stored hfits rfl) (stored_le hfits rfl) hle
        rw [hreads, stored_eq_iff hcomplete hb ha hlast]
        exact ⟨fun hplaced => ⟨hb, ha, hplaced⟩, fun hplaced => hplaced.right.right⟩

def exampleText (e : IPV6Enclosure) : IPV6Text :=
  ⟨.compressed ["2001".toList, "db8".toList] ["1".toList], e⟩

theorem exampleText_valid {e : IPV6Enclosure} (h : ∀ p, e = .port p → IsNumeral 65535 p) : (exampleText e).Valid :=
  ⟨by show 3 ≤ 7; decide, by show ∀ g ∈ ["2001".toList, "db8".toList, "1".toList], IsGroup g; decide, h⟩

theorem ipv6Text_reads_brackets : (exampleText .brackets).Valid ∧ (exampleText .brackets).Reads :=
  have hvalid : (exampleText .brackets).Valid := exampleText_valid nofun
  ⟨hvalid, (ipv6Text_reads_iff _ hvalid).mpr ⟨by decide, by decide, rfl, .inl <| by decide⟩⟩

theorem isNumeral_eighty : IsNumeral 65535 "80".toList := by
  decide

-- The group behind the colons is not stored.
theorem not_ipv6Text_reads : (exampleText <| .port "80".toList).Valid ∧ ¬(exampleText <| .port "80".toList).Reads := by
  refine ⟨exampleText_valid fun p hp => IPV6Enclosure.port.inj hp ▸ isNumeral_eighty, fun ⟨address, haddress, h⟩ => ?_⟩
  have hsixteen : (ipv6Parser (exampleText <| .port "80".toList).text).map (·.sixteen.toList.map UInt16.toNat) =
      some [0x2001, 0xdb8, 0, 0, 0, 0, 0, 0] := by
    decide
  rw [haddress] at hsixteen
  exact absurd ((Option.some.inj hsixteen).symm.trans h.sixteen) (by decide)

end CfEngine
