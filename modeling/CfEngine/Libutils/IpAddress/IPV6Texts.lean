import CfEngine.Libutils.IpAddress.IPV6Runs

namespace CfEngine

open Fields

structure IsGroup (g : CString) : Prop extends HexDigits g where
  ne_nil : g ≠ []

instance : DecidablePred IsGroup :=
  fun g => decidable_of_iff (HexDigits g ∧ g ≠ []) ⟨fun ⟨hd, hn⟩ => ⟨hd, hn⟩, fun h => ⟨h.toHexDigits, h.ne_nil⟩⟩

-- The groups of an address as they are written, where two colons may stand for groups of zeros.
inductive IPV6Groups
  | full (groups : List CString)
  | compressed (before after : List CString)

namespace IPV6Groups

def text : IPV6Groups → CString
  | full groups             => [':'].intercalate groups
  | compressed before after => [':'].intercalate before ++ ':' :: ':' :: [':'].intercalate after

def written : IPV6Groups → List CString
  | full groups             => groups
  | compressed before after => before ++ after

-- Two colons stand for at least one group.
def Complete : IPV6Groups → Prop
  | full groups             => groups.length = 8
  | compressed before after => before.length + after.length ≤ 7

end IPV6Groups

-- Where there are no groups, the colon is next to the start or the end.
def orEmpty (groups : List CString) : List CString :=
  if groups = [] then [[]] else groups

-- The pieces between the colons.
def IPV6Groups.pieces : IPV6Groups → List CString
  | full groups             => groups
  | compressed before after => orEmpty before ++ [] :: orEmpty after

inductive IPV6Enclosure
  | plain
  | brackets
  | port (p : CString)

def IPV6Enclosure.enclose : IPV6Enclosure → CString → CString
  | plain, s    => s
  | brackets, s => '[' :: (s ++ [']'])
  | port p, s   => '[' :: (s ++ ']' :: ':' :: p)

-- An address as it is written.
structure IPV6Text where
  groups    : IPV6Groups
  enclosure : IPV6Enclosure

namespace IPV6Text

def text (t : IPV6Text) : CString :=
  t.enclosure.enclose t.groups.text

structure Valid (t : IPV6Text) : Prop where
  complete : t.groups.Complete
  groups   : ∀ g ∈ t.groups.written, IsGroup g
  port     : ∀ p, t.enclosure = .port p → IsNumeral 65535 p

end IPV6Text

namespace GroupsRead

open IPV6Parse

-- What the parser takes for an address if nothing comes after the groups but what encloses them.
def Ends (r : GroupsRead) : IPV6Enclosure → Prop
  | .plain    => (r.place = 7 → r.current ≠ []) ∧ (r.place = 7 ∨ r.after ≠ none)
  | .brackets => r.Closes
  | .port p   => r.Closes ∧ IsNumeral 65535 p

section
variable {r : GroupsRead} {bracket : Bool} {source : CString}

theorem Fits.char_counter (h : r.Fits) (hplace : r.place = 7) : (r.parse bracket).char_counter = r.current.length := by
  obtain ⟨before, after, current⟩ := r
  cases after
  case none       =>
    have hlen : before.length = 7 := hplace
    have hne : before ≠ [] := List.ne_nil_of_length_eq_add_one hlen
    simp [parse, hne]
  case some after =>
    obtain ⟨_, hle, _⟩ := h.after after rfl
    have hlen : max 2 before.length + after.length = 7 := hplace
    have hne : after ≠ [] := fun hn => by
      have hle' : before.length ≤ 6 := hle
      rw [hn, List.length_nil] at hlen
      omega
    simp [parse, hne]

theorem Fits.finish_isSome (h : r.Fits) : (finish (r.parse bracket)).isSome ↔ bracket = false ∧ r.Ends .plain := by
  have hle := (@Fits.inGroups r bracket h).state_le
  have hcounter := @Fits.char_counter r bracket h
  have hzero : (r.parse bracket).zero_compression = true ↔ r.after ≠ none := by
    cases ha : r.after <;> simp [parse, ha]
  have hfirst : r.place ≤ 1 → r.after = none := fun hlt => by
    cases ha : r.after
    case none       => rfl
    case some after =>
      simp only [place, ha] at hlt
      omega
  have hbracket := @parse_bracket_expected r bracket
  rw [parse_state] at hle
  simp only [finish, parse_state, Ends, ←List.length_eq_zero_iff, ne_eq] at *
  generalize r.parse bracket = parse at *
  generalize r.place = place at *
  interval_cases place <;> simp_all <;> cases bracket <;> cases r.after <;> simp

-- What is accepted.
theorem ipv6Parser_isSome : (ipv6Parser source).isSome ↔
    ∃ (r : GroupsRead) (e : IPV6Enclosure), r.Fits ∧ r.Ends e ∧ source = e.enclose r.text := by
  constructor
  case mp  =>
    intro hsome
    obtain ⟨address, haddress⟩ := Option.isSome_iff_exists.mp hsome
    clear hsome
    obtain ⟨parse, hfold, hfinish⟩ := Option.bind_eq_some_iff.mp haddress
    cases reached_of_foldlM hfold
    case groups r bracket h =>
      obtain ⟨hbracket, hends⟩ := h.finish_isSome.mp <| Option.isSome_iff_exists.mpr ⟨_, hfinish⟩
      exact ⟨r, .plain, h, hends, by rw [hbracket]; rfl⟩
    case closed r h hc      => exact ⟨r, .brackets, h, hc, rfl⟩
    case port r p h hc hp   =>
      have hne : p ≠ [] := fun hn => by
        rw [hn] at hfinish
        cases hfinish
      exact ⟨r, .port p, h, ⟨hc, hp, hne⟩, rfl⟩
    case error hstate _     =>
      rw [finish, hstate] at hfinish
      cases hfinish
  case mpr =>
    rintro ⟨r, e, h, hends, hs⟩
    cases e
    case plain    =>
      have hruns := @Fits.runs r false h
      rw [hs, IPV6Enclosure.enclose, ipv6Parser]
      exact (congrArg (fun x => (x.bind finish).isSome) hruns).trans <| h.finish_isSome.mpr ⟨rfl, hends⟩
    case brackets => rw [hs, IPV6Enclosure.enclose, ipv6Parser, runs_closed h hends]; rfl
    case port p   =>
      rw [hs, IPV6Enclosure.enclose, ipv6Parser, runs_port h hends.left hends.right.toDigitsUpTo]
      have hne : p.length ≠ 0 := fun hn => hends.right.ne_nil <| List.length_eq_zero_iff.mp hn
      simp [finish, portRead, hne]

-- The pieces between the colons.
def pieces (r : GroupsRead) : List CString :=
  r.before ++ (r.after.elim [] ([] :: ·) ++ [r.current])

theorem text_eq_intercalate : r.text = [':'].intercalate r.pieces := by
  rw [pieces, ←List.append_assoc, intercalate_concat, text]
  cases r.after <;> simp [terminated]

theorem Fits.pieces_hexDigits (h : r.Fits) : ∀ g ∈ r.pieces, HexDigits g := by
  intro g hg
  rcases List.mem_append.mp hg with hg | hg
  · exact h.before g hg
  · rcases List.mem_append.mp hg with hg | hg
    · cases ha : r.after
      case none       => rw [ha] at hg; nomatch hg
      case some after =>
        rw [ha] at hg
        cases List.mem_cons.mp hg
        case inl he => exact he ▸ hexDigits_nil
        case inr hm => exact (h.after after ha).right.right.right.left g hm
    · exact List.mem_singleton.mp hg ▸ h.current

end

end GroupsRead

section
variable {groups before after : List CString} {g : CString} {s s' : CString}

theorem HexDigits.not_mem {c : Char} (h : HexDigits s) (hc : ¬isLowerHex c) : c ∉ s :=
  fun hm => hc <| h.digits c hm

theorem intercalate_orEmpty : [':'].intercalate (orEmpty groups) = [':'].intercalate groups := by
  rw [orEmpty]
  split
  case isTrue h  => rw [h]; rfl
  case isFalse h => rfl

theorem orEmpty_cases (groups : List CString) : orEmpty groups = [[]] ∧ groups = [] ∨ orEmpty groups = groups := by
  rw [orEmpty]
  split
  case isTrue h  => exact .inl ⟨rfl, h⟩
  case isFalse h => exact .inr rfl

theorem orEmpty_tail (h : ∀ g ∈ groups, IsGroup g) : ∀ g ∈ (orEmpty groups).tail, g ≠ [] := by
  rcases orEmpty_cases groups with ⟨he, _⟩ | he
  · rw [he]
    exact fun g hg => nomatch hg
  · rw [he]
    exact fun g hg => (h g <| List.mem_of_mem_tail hg).ne_nil

theorem orEmpty_ne_nil : orEmpty groups ≠ [] := by
  rw [orEmpty]
  split
  case isTrue    => exact List.cons_ne_nil _ _
  case isFalse h => exact h

theorem intercalate_append (hb : before ≠ []) (ha : after ≠ []) :
    [':'].intercalate (before ++ after) = [':'].intercalate before ++ ':' :: [':'].intercalate after := by
  induction before
  case nil               => exact absurd rfl hb
  case cons e before ih =>
    cases before
    case nil       =>
      have ⟨f, fs, hf⟩ := List.exists_cons_of_ne_nil ha
      rw [List.singleton_append, hf, List.intercalate_cons_cons, List.intercalate_singleton, List.append_assoc]
      rfl
    case cons f fs =>
      rw [List.cons_append, List.cons_append, List.intercalate_cons_cons, ←List.cons_append, ih nofun,
        List.intercalate_cons_cons]
      simp

theorem IPV6Groups.text_eq_intercalate (t : IPV6Groups) : t.text = [':'].intercalate t.pieces := by
  cases t
  case full                    => rfl
  case compressed before after =>
    have hsplit : [':'].intercalate ([] :: orEmpty after) = ':' :: [':'].intercalate (orEmpty after) :=
      @intercalate_append [[]] (orEmpty after) (List.cons_ne_nil _ _) orEmpty_ne_nil
    rw [text, pieces, intercalate_append orEmpty_ne_nil (List.cons_ne_nil _ _), hsplit, intercalate_orEmpty,
      intercalate_orEmpty]

theorem mem_orEmpty (h : ∀ g ∈ groups, IsGroup g) : ∀ g ∈ orEmpty groups, HexDigits g := by
  rw [orEmpty]
  split
  case isTrue  => exact fun g hg => List.mem_singleton.mp hg ▸ hexDigits_nil
  case isFalse => exact fun g hg => (h g hg).toHexDigits

theorem IPV6Groups.pieces_hexDigits {t : IPV6Groups} (h : ∀ g ∈ t.written, IsGroup g) :
    ∀ g ∈ t.pieces, HexDigits g := by
  cases t
  case full                    => exact fun g hg => (h g hg).toHexDigits
  case compressed before after =>
    intro g hg
    rcases List.mem_append.mp hg with hg | hg
    · exact mem_orEmpty (fun g hg => h g <| List.mem_append_left _ hg) g hg
    · cases List.mem_cons.mp hg
      case inl he => exact he ▸ hexDigits_nil
      case inr hg => exact mem_orEmpty (fun g hg => h g <| List.mem_append_right _ hg) g hg

theorem IPV6Groups.pieces_ne_nil {t : IPV6Groups} (h : t.Complete) : t.pieces ≠ [] := by
  cases t
  case full       => exact List.ne_nil_of_length_eq_add_one h
  case compressed => exact List.append_ne_nil_of_left_ne_nil orEmpty_ne_nil _

-- The pieces are those that the text is split into.
theorem pieces_inj {ps qs : List CString} (hps : ∀ g ∈ ps, HexDigits g) (hqs : ∀ g ∈ qs, HexDigits g)
    (hp : ps ≠ []) (hq : qs ≠ []) (h : [':'].intercalate ps = [':'].intercalate qs) : ps = qs := by
  have hcolon {ps : List CString} (hps : ∀ g ∈ ps, HexDigits g) : ∀ g ∈ ps, ':' ∉ g := fun g hg =>
    (hps g hg).not_mem (by decide)
  rw [←List.splitOn_intercalate ':' (hcolon hps) hp, h, List.splitOn_intercalate ':' (hcolon hqs) hq]

theorem not_mem_intercalate {ps : List CString} {c : Char} (hps : ∀ g ∈ ps, HexDigits g) (hc : ¬isLowerHex c)
    (hcolon : c ≠ ':') : c ∉ [':'].intercalate ps := by
  induction ps
  case nil          => exact List.not_mem_nil
  case cons g ps ih =>
    have hg := (hps g List.mem_cons_self).not_mem hc
    have ih := ih fun e he => hps e <| List.mem_cons_of_mem _ he
    cases ps
    case nil  => rwa [List.intercalate_singleton]
    case cons => simp [List.intercalate_cons_cons, hg, hcolon, ih]

theorem IPV6Enclosure.cases (e : IPV6Enclosure) (hport : ∀ p, e = .port p → IsNumeral 65535 p) :
    e = .plain ∨ ∃ z, ']' ∉ z ∧ ∀ s, e.enclose s = '[' :: (s ++ ']' :: z) := by
  cases e
  case plain    => exact .inl rfl
  case brackets => exact .inr ⟨[], List.not_mem_nil, fun _ => rfl⟩
  case port p   =>
    have hp : ']' ∉ p := fun hm => nomatch (hport p rfl).digits ']' hm
    exact .inr ⟨':' :: p, by simp [hp], fun _ => rfl⟩

-- What encloses the groups is not a part of them.
theorem enclose_inj {e e' : IPV6Enclosure} (hs : '[' ∉ s ∧ ']' ∉ s) (hs' : '[' ∉ s' ∧ ']' ∉ s')
    (hport : ∀ p, e = .port p → IsNumeral 65535 p) (hport' : ∀ p, e' = .port p → IsNumeral 65535 p)
    (h : e.enclose s = e'.enclose s') : s = s' := by
  rcases e.cases hport with rfl | ⟨z, hz, he⟩ <;> rcases e'.cases hport' with rfl | ⟨z', hz', he'⟩
  · exact h
  · have hplain : s = '[' :: (s' ++ ']' :: z') := h.trans <| he' s'
    exact absurd (hplain ▸ List.mem_cons_self) hs.left
  · have hplain : s' = '[' :: (s ++ ']' :: z) := h.symm.trans <| he s
    exact absurd (hplain ▸ List.mem_cons_self) hs'.left
  · rw [he, he'] at h
    exact ((List.append_cons_inj_of_notMem hs.right hz).mp (List.cons.inj h).right).left

end

end CfEngine
