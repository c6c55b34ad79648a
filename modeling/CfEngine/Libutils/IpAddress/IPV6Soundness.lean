import CfEngine.Libutils.IpAddress.IPV6Texts

namespace CfEngine

open Fields GroupsRead

-- What is accepted is the text of an address, and no number is written behind the end of the array of unsorted ones,
-- where the next one is written behind those that have been.
def SoundIPV6 (source : CString) : Prop :=
  ((ipv6Parser source).isSome → ∃ t : IPV6Text, t.Valid ∧ t.text = source) ∧
    ∀ s, s <+: source → ∀ parse, s.foldlM IPV6Parse.step {} = some parse → parse.unsorted_sixteen.length < 6

-- Groups that are not those of an address.
inductive GroupsRead.Malformed (r : GroupsRead) : Prop
  | leadingColon (hempty : [] ∈ r.before.head?) (h : r.after = none ∨ 2 ≤ r.before.length)
  | thirdColon {after : List CString} (h : r.after = some after) (hempty : [] ∈ after.head?)
  | trailingColon (hempty : r.current = []) (h : r.after ≠ some [])
  | nothingCompressed {after : List CString} (h : r.after = some after) (hlen : 2 ≤ r.before.length)
    (height : r.before.length + after.length = 7)

-- The source is a text that is accepted although its groups are not those of an address.
def Misread (source : CString) : Prop :=
  ∃ (r : GroupsRead) (e : IPV6Enclosure), r.Fits ∧ r.Ends e ∧ r.Malformed ∧ source = e.enclose r.text

section
variable {r : GroupsRead} {e : IPV6Enclosure} {t : IPV6Text} {groups before after : List CString} {g : CString}

-- The first piece that is empty, but for the first of all.
theorem before_eq {before' after' : List CString} (hb : ∀ g ∈ before.tail, g ≠ []) (hb' : ∀ g ∈ before'.tail, g ≠ [])
    (hne : before ≠ []) (hne' : before' ≠ []) (h : before ++ [] :: after = before' ++ [] :: after') :
    before = before' ∧ after = after' := by
  have ⟨a, as, ha⟩ := List.exists_cons_of_ne_nil hne
  have ⟨b, bs, hbs⟩ := List.exists_cons_of_ne_nil hne'
  subst ha hbs
  have hnot {as : List CString} (h : ∀ g ∈ as, g ≠ []) : [] ∉ as := fun hm => h [] hm rfl
  have ⟨hab, h⟩ := List.cons.inj h
  have ⟨has, hafter⟩ := append_cons_inj (hnot hb) (hnot hb') h
  exact ⟨hab ▸ congrArg (a :: ·) has, hafter⟩

-- Groups of an address that are read are not malformed.
theorem not_malformed_of_pieces {t : IPV6Groups} (hr : r.Fits) (hplace : r.after = none → r.place = 7)
    (hcomplete : t.Complete) (ht : ∀ g ∈ t.written, IsGroup g) (h : t.pieces = r.pieces) : ¬r.Malformed := by
  obtain ⟨before, after, current⟩ := r
  cases t
  case full groups =>
    have hall : ∀ g ∈ before ++ (after.elim [] ([] :: ·) ++ [current]), g ≠ [] := fun g hg =>
      (ht g <| (show groups = _ from h) ▸ hg).ne_nil
    cases after
    case some after => exact absurd rfl <| hall [] <| List.mem_append_right _ <| List.mem_cons_self
    case none       =>
      intro hmal
      cases hmal
      case leadingColon hempty _  =>
        exact hall [] (List.mem_append_left _ <| List.mem_of_mem_head? hempty) rfl
      case trailingColon hempty _ =>
        exact hall current (List.mem_append_right _ <| List.mem_singleton_self current) hempty
      case thirdColon h _         => cases h
      case nothingCompressed h _ _ => cases h
  case compressed b a =>
    have hb : ∀ g ∈ b, IsGroup g := fun g hg => ht g <| List.mem_append_left _ hg
    have ha : ∀ g ∈ a, IsGroup g := fun g hg => ht g <| List.mem_append_right _ hg
    cases after
    case none       =>
      -- There is an empty piece between the first and the last one.
      have hlast : orEmpty b ++ [] :: (orEmpty a).dropLast = before := by
        have hdrop := congrArg List.dropLast h
        rwa [IPV6Groups.pieces, pieces, List.dropLast_append_of_ne_nil (List.cons_ne_nil _ _),
          List.dropLast_cons_of_ne_nil orEmpty_ne_nil, Option.elim_none, List.nil_append, List.dropLast_concat] at hdrop
      obtain ⟨x, xs, hx⟩ := List.exists_cons_of_ne_nil (@orEmpty_ne_nil b)
      have htail : [] ∈ before.tail := by
        rw [←hlast, hx]
        exact List.mem_append_right _ List.mem_cons_self
      exact absurd rfl <| hr.tail [] htail
    case some after =>
      obtain ⟨hne, hle, _⟩ := hr.after after rfl
      obtain ⟨hbefore, hafter⟩ := before_eq (orEmpty_tail hb) hr.tail orEmpty_ne_nil hne h
      have hbefore : orEmpty b = before := hbefore
      have hlen : orEmpty a = after ++ [current] := hafter
      have hgroups (hne : after ≠ []) : a = after ++ [current] := by
        rcases orEmpty_cases a with ⟨he, _⟩ | he
        · rw [he] at hlen
          exact absurd (List.append_eq_singleton_iff.mp hlen.symm) (by simp [hne])
        · rwa [←he]
      have hgroups' (hlong : 2 ≤ before.length) : b = before := by
        rcases orEmpty_cases b with ⟨he, _⟩ | he
        · rw [←hbefore, he] at hlong
          exact absurd hlong (by decide)
        · rw [←hbefore, he]
      intro hmal
      cases hmal
      case leadingColon hempty hlong        =>
        have hlong : 2 ≤ before.length := hlong.resolve_left (by rintro ⟨⟩)
        have hb' := hgroups' hlong
        exact (hb [] <| hb' ▸ List.mem_of_mem_head? hempty).ne_nil rfl
      case trailingColon hempty hne'        =>
        have hne' : after ≠ [] := fun hn => hne' <| congrArg some hn
        exact (ha current <| hgroups hne' ▸ List.mem_append_right _ (List.mem_singleton_self _)).ne_nil hempty
      case thirdColon hsome hempty          =>
        cases hsome
        have hm := List.mem_of_mem_head? hempty
        exact (ha [] <| hgroups (List.ne_nil_of_mem hm) ▸ List.mem_append_left _ hm).ne_nil rfl
      case nothingCompressed hsome hlong height =>
        cases hsome
        have hb' : b.length = before.length := congrArg List.length <| hgroups' hlong
        have hle' : before.length ≤ 6 := hle
        have htotal : before.length + after.length = 7 := height
        have hne' : after ≠ [] := fun hn => by
          rw [hn, List.length_nil] at htotal
          omega
        have ha' : a.length = after.length + 1 := by rw [hgroups hne', List.length_append, List.length_singleton]
        have hcomplete : b.length + a.length ≤ 7 := hcomplete
        omega

theorem not_mem_brackets {ps : List CString} (h : ∀ g ∈ ps, HexDigits g) :
    '[' ∉ [':'].intercalate ps ∧ ']' ∉ [':'].intercalate ps :=
  ⟨not_mem_intercalate h (by decide) (by decide), not_mem_intercalate h (by decide) (by decide)⟩

theorem not_malformed (hr : r.Fits) (he : r.Ends e) (ht : t.Valid) (h : t.text = e.enclose r.text) :
    ¬r.Malformed := by
  have hps := IPV6Groups.pieces_hexDigits ht.groups
  have hqs := hr.pieces_hexDigits
  rw [IPV6Text.text, t.groups.text_eq_intercalate, r.text_eq_intercalate] at h
  have hport (p : CString) (hp : e = .port p) : IsNumeral 65535 p := by
    subst hp
    exact he.right
  have htext := enclose_inj (not_mem_brackets hps) (not_mem_brackets hqs) ht.port hport h
  have hne : r.pieces ≠ [] := List.append_ne_nil_of_right_ne_nil _ (by simp)
  have hpieces := pieces_inj hps hqs (IPV6Groups.pieces_ne_nil ht.complete) hne htext
  refine not_malformed_of_pieces hr (fun hnone => ?_) ht.complete ht.groups hpieces
  cases e
  case plain    => exact he.right.resolve_right fun hn => hn hnone
  case brackets => exact he.resolve_right fun hn => hn hnone
  case port     => exact he.left.resolve_right fun hn => hn hnone

theorem head_ne_nil (h : ∀ g ∈ groups.tail, g ≠ []) (hhead : [] ∉ groups.head?) : ∀ g ∈ groups, g ≠ [] := by
  cases groups
  case nil           => exact fun g hg => nomatch hg
  case cons e groups =>
    intro g hg
    cases List.mem_cons.mp hg
    case inl he => exact he ▸ fun hn => hhead <| congrArg some hn
    case inr hm => exact h g hm

-- Groups that are not malformed are those of an address.
theorem exists_groups (hr : r.Fits) (hplace : r.after = none → r.place = 7 ∧ r.current ≠ []) (h : ¬r.Malformed) :
    ∃ t : IPV6Groups, t.Complete ∧ (∀ g ∈ t.written, IsGroup g) ∧ t.pieces = r.pieces := by
  obtain ⟨before, after, current⟩ := r
  cases after
  case none       =>
    have ⟨hlen, hcurrent⟩ := hplace rfl
    have hbefore := head_ne_nil hr.tail fun hm => h <| .leadingColon hm <| .inl rfl
    refine ⟨.full (before ++ [current]), ?_, fun g hg => ?_, rfl⟩
    case refine_1 => exact List.length_append.trans <| congrArg (· + 1) hlen
    case refine_2 =>
      cases List.mem_append.mp hg
      case inl hg => exact ⟨hr.before g hg, hbefore g hg⟩
      case inr hg => exact List.mem_singleton.mp hg ▸ ⟨hr.current, hcurrent⟩
  case some after =>
    have ⟨hne, hle, hmax, hafter, htail, hhead⟩ := hr.after after rfl
    have ⟨b, hb, hbgroups, hblen⟩ : ∃ b, orEmpty b = before ∧ (∀ g ∈ b, IsGroup g) ∧ b.length ≤ before.length := by
      by_cases hempty : before = [[]]
      case pos => exact ⟨[], by rw [hempty]; rfl, fun g hg => (nomatch hg), Nat.zero_le _⟩
      case neg =>
        have hbefore : ∀ g ∈ before, g ≠ [] := head_ne_nil hr.tail fun hm => by
          refine h <| .leadingColon hm <| .inr ?_
          rcases before with _ | ⟨e, _ | ⟨f, before⟩⟩
          · nomatch hm
          · cases hm
            exact absurd rfl hempty
          · exact Nat.le_add_left _ _
        exact ⟨before, if_neg hne, fun g hg => ⟨hr.before g hg, hbefore g hg⟩, Nat.le_refl _⟩
    have ⟨a, ha, hagroups, halen⟩ :
        ∃ a, orEmpty a = after ++ [current] ∧ (∀ g ∈ a, IsGroup g) ∧ a.length ≤ after.length + 1 := by
      by_cases hempty : after = [] ∧ current = []
      case pos => exact ⟨[], by rw [hempty.left, hempty.right]; rfl, fun g hg => (nomatch hg), Nat.zero_le _⟩
      case neg =>
        have hcurrent : current ≠ [] := fun hcurrent =>
          h <| .trailingColon hcurrent fun hsome => hempty ⟨Option.some.inj hsome, hcurrent⟩
        have hgroups := head_ne_nil htail fun hm => h <| .thirdColon rfl hm
        refine ⟨after ++ [current], if_neg (by simp), fun g hg => ?_, by simp⟩
        cases List.mem_append.mp hg
        case inl hg => exact ⟨hafter g hg, hgroups g hg⟩
        case inr hg => exact List.mem_singleton.mp hg ▸ ⟨hr.current, hcurrent⟩
    refine ⟨.compressed b a, ?_, fun g hg => (List.mem_append.mp hg).elim (hbgroups g) (hagroups g), ?_⟩
    case refine_1 =>
      have hmax : max 2 before.length + after.length ≤ 7 := hmax
      have hheight (hlong : 2 ≤ before.length) : before.length + after.length ≠ 7 := fun height =>
        h <| .nothingCompressed rfl hlong height
      show b.length + a.length ≤ 7
      omega
    case refine_2 =>
      rw [IPV6Groups.pieces, hb, ha]
      rfl

theorem exists_text (hr : r.Fits) (he : r.Ends e) (h : ¬r.Malformed) :
    ∃ t : IPV6Text, t.Valid ∧ t.text = e.enclose r.text := by
  have hplace (hnone : r.after = none) : r.place = 7 ∧ r.current ≠ [] := by
    have hplace : r.place = 7 := by
      cases e
      case plain    => exact he.right.resolve_right fun hn => hn hnone
      case brackets => exact he.resolve_right fun hn => hn hnone
      case port     => exact he.left.resolve_right fun hn => hn hnone
    exact ⟨hplace, fun hcurrent => h <| .trailingColon hcurrent <| hnone ▸ nofun⟩
  have ⟨t, hcomplete, hgroups, hpieces⟩ := exists_groups hr hplace h
  refine ⟨⟨t, e⟩, ⟨hcomplete, hgroups, fun p hp => ?_⟩, ?_⟩
  case refine_1 =>
    cases hp
    exact he.right
  case refine_2 => rw [IPV6Text.text, t.text_eq_intercalate, r.text_eq_intercalate, hpieces]

end

theorem not_soundIPV6_of_misread {source : CString} (h : Misread source) : ¬SoundIPV6 source := by
  have ⟨r, e, hr, he, hmal, hs⟩ := h
  intro ⟨hsound, _⟩
  have ⟨t, ht, htext⟩ := hsound <| ipv6Parser_isSome.mpr ⟨r, e, hr, he, hs⟩
  exact not_malformed hr he ht (htext.trans hs) hmal

theorem soundIPV6_iff (source : CString) : SoundIPV6 source ↔ ¬Misread source := by
  constructor
  case mp  => exact fun h hmis => not_soundIPV6_of_misread hmis h
  case mpr =>
    intro h
    constructor
    case left  =>
      intro hsome
      have ⟨r, e, hr, he, hs⟩ := ipv6Parser_isSome.mp hsome
      exact hs ▸ exists_text hr he fun hmal => h ⟨r, e, hr, he, hmal, hs⟩
    case right => exact fun s _ parse hfold => (reached_of_foldlM hfold).unsorted_lt

-- The empty group before the first colon stands for zero.
theorem not_soundIPV6 : ¬SoundIPV6 ":1:2:3:4:5:6:7".toList := by
  refine not_soundIPV6_of_misread
    ⟨⟨[[], ['1'], ['2'], ['3'], ['4'], ['5'], ['6']], none, ['7']⟩, .plain, ?_, ?_, .leadingColon rfl (.inl rfl), rfl⟩
  case refine_1 => exact ⟨by decide, by decide, by decide, by decide, nofun⟩
  case refine_2 => exact ⟨fun _ => by decide, .inl rfl⟩

end CfEngine
