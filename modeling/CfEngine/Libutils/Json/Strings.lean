import CfEngine.Libutils.Json.Parsing

namespace CfEngine

-- The characters that are escaped by a letter.
def isLetterEscaped (c : Char) : Bool :=
  c ∈ ['\x08', '\x0c', '\n', '\r', '\t']

-- No character is escaped by a letter, and a backslash comes before a character that is not escaped.
def isDecodable : CString → Bool
  | []     => true
  | c :: s =>
    !isLetterEscaped c && (c ≠ '\\' || s.head?.any fun d => d ≠ '\\' ∧ d ≠ '"') && isDecodable s

theorem escapeJsonString_cons {c : Char} {s : CString} :
    escapeJsonString (c :: s) = escapeJsonChar c ++ escapeJsonString s :=
  List.flatMap_cons

theorem escapeJsonChar_eq_self {c : Char} (hl : isLetterEscaped c = false) (hq : c ≠ '"')
    (hb : c ≠ '\\') : escapeJsonChar c = [c] := by
  simp only [isLetterEscaped, List.mem_cons, List.not_mem_nil, or_false, decide_eq_false_iff_not,
    not_or] at hl
  simp [escapeJsonChar, hl, hq, hb]

theorem isUnescaped_eq_false {c : Char} (hl : isLetterEscaped c = false) (hq : c ≠ '"')
    (hb : c ≠ '\\') : JsonElement.isUnescaped c = false := by
  simp only [isLetterEscaped, List.mem_cons, List.not_mem_nil, or_false, decide_eq_false_iff_not,
    not_or] at hl
  simp [JsonElement.isUnescaped, hl, hq, hb]

-- The letter stands for the character, but the text that is read back has it after a backslash.
theorem escapeJsonChar_of_isLetterEscaped {c : Char} (h : isLetterEscaped c = true) :
    ∃ letter, escapeJsonChar c = ['\\', letter] ∧ JsonElement.isUnescaped letter = false ∧
      letter ≠ c ∧ c ≠ '\\' := by
  simp only [isLetterEscaped, List.mem_cons, List.not_mem_nil, or_false, decide_eq_true_eq] at h
  rcases h with rfl | rfl | rfl | rfl | rfl
  · exact ⟨'b', by decide⟩
  · exact ⟨'f', by decide⟩
  · exact ⟨'n', by decide⟩
  · exact ⟨'r', by decide⟩
  · exact ⟨'t', by decide⟩

namespace JsonElement

variable {prev c d : Char} {s str value : CString} {data rest last : List Char}

-- What a step of the loop over a string does.
theorem parseStringLoop_write (hq : c = '"' → prev = '\\')
    (hs : c = '\\' → data.head?.any isUnescaped = false) :
    parseStringLoop prev str (c :: data) = parseStringLoop c (str ++ [c]) data := by
  rw [parseStringLoop, if_neg, if_neg]
  · exact fun h => Bool.false_ne_true <| (hs h.left).symm.trans h.right
  · exact fun h => h.right <| hq h.left

theorem parseStringLoop_skip (hd : isUnescaped d = true) :
    parseStringLoop prev str ('\\' :: d :: data) = parseStringLoop '\\' str (d :: data) := by
  rw [parseStringLoop, if_neg (fun h => absurd h.left (by decide)), if_pos ⟨rfl, hd⟩]

theorem parseStringLoop_backslash (hd : isUnescaped d = false) :
    parseStringLoop prev str ('\\' :: d :: data) =
      parseStringLoop '\\' (str ++ ['\\']) (d :: data) :=
  parseStringLoop_write (absurd · (by decide)) fun _ => hd

theorem prefix_parseStringLoop (h : parseStringLoop prev str data = .ok (value, last)) :
    str <+: value := by
  induction data generalizing prev str
  case nil           => cases h
  case cons c data ih =>
    unfold parseStringLoop at h
    split at h
    case isTrue  =>
      cases h
      exact List.prefix_rfl
    case isFalse =>
      split at h
      case isTrue  => exact ih h
      case isFalse => exact (List.prefix_append ..).trans <| ih h

theorem head_of_parseStringLoop (h : parseStringLoop prev (str ++ [c]) data = .ok (value, last))
    (hv : str ++ [d] <+: value) : c = d := by
  have hp := List.prefix_of_prefix_length_le (prefix_parseStringLoop h) hv (by simp)
  have he := hp.eq_of_length (by simp)
  exact List.singleton_inj.mp <| List.append_cancel_left he

-- Of several backslashes at most one is written.
theorem not_prefix_backslashes (h : parseStringLoop prev str ('\\' :: data) = .ok (value, last)) :
    ¬str ++ ['\\', '\\'] <+: value := by
  intro hv
  have hv₁ : str ++ ['\\'] <+: value :=
    List.IsPrefix.trans ⟨['\\'], by simp⟩ hv
  induction data generalizing prev
  case nil            =>
    rw [parseStringLoop_write (absurd · (by decide)) fun _ => rfl] at h
    cases h
  case cons d data ih =>
    cases hd : isUnescaped d
    case false =>
      have hq : d ≠ '"' := fun he => by rw [he] at hd; exact absurd hd (by decide)
      have hb : d ≠ '\\' := fun he => by rw [he] at hd; exact absurd hd (by decide)
      rw [parseStringLoop_backslash hd, parseStringLoop_write (absurd · hq) (absurd · hb)] at h
      have hv : (str ++ ['\\']) ++ ['\\'] <+: value := by rwa [List.append_assoc]
      exact hb <| head_of_parseStringLoop h hv
    case true  =>
      rw [parseStringLoop_skip hd] at h
      by_cases hb : d = '\\'
      case pos => exact ih <| hb ▸ h
      case neg =>
        rw [parseStringLoop_write (fun _ => rfl) (absurd · hb)] at h
        exact hb <| head_of_parseStringLoop h hv₁

-- The text that is read from the escaped string, up to its end.
theorem parseStringLoop_escapeJsonString (hs : isDecodable s = true) (hp : s = [] → prev ≠ '\\') :
    parseStringLoop prev str (escapeJsonString s ++ '"' :: rest) = .ok (str ++ s, '"' :: rest) := by
  induction s generalizing prev str
  case nil         =>
    show parseStringLoop prev str ('"' :: rest) = _
    rw [parseStringLoop, if_pos ⟨rfl, hp rfl⟩, List.append_nil]
  case cons c s ih =>
    simp only [isDecodable, Bool.and_eq_true, Bool.or_eq_true, Bool.not_eq_true'] at hs
    have ⟨⟨hl, hb⟩, htail⟩ := hs
    have ih {prev} := @ih prev (str ++ [c]) htail
    rw [List.append_assoc] at ih
    rw [escapeJsonString_cons, List.append_assoc]
    by_cases hq : c = '"'
    case pos =>
      subst hq
      show parseStringLoop prev str ('\\' :: '"' :: (escapeJsonString s ++ '"' :: rest)) = _
      rw [parseStringLoop_skip (by decide), parseStringLoop_write (fun _ => rfl) (absurd · (by decide))]
      apply ih
      exact fun _ => by decide
    case neg =>
      by_cases hc : c = '\\'
      case neg =>
        rw [escapeJsonChar_eq_self hl hq hc]
        show parseStringLoop prev str (c :: (escapeJsonString s ++ '"' :: rest)) = _
        rw [parseStringLoop_write (absurd · hq) (absurd · hc)]
        exact ih fun _ => hc
      case pos =>
        subst hc
        show parseStringLoop prev str ('\\' :: '\\' :: (escapeJsonString s ++ '"' :: rest)) = _
        rcases s with _ | ⟨d, s⟩
        · exact absurd hb (by decide)
        · have hd : d ≠ '\\' ∧ d ≠ '"' := by simpa using hb
          simp only [isDecodable, Bool.and_eq_true, Bool.not_eq_true'] at htail
          have hl := htail.left.left
          rw [escapeJsonString_cons, escapeJsonChar_eq_self hl hd.right hd.left] at ih ⊢
          rw [parseStringLoop_skip (by decide)]
          apply (parseStringLoop_backslash <| isUnescaped_eq_false hl hd.right hd.left).trans
          exact ih nofun

theorem isDecodable_of_parseStringLoop
    (h : parseStringLoop prev str (escapeJsonString s ++ '"' :: rest) = .ok (str ++ s, '"' :: rest)) :
    isDecodable s = true := by
  induction s generalizing prev str
  case nil         => rfl
  case cons c s ih =>
    have ih {prev} := @ih prev (str ++ [c])
    rw [List.append_assoc] at ih
    have hc : str ++ [c] <+: str ++ c :: s := ⟨s, List.append_assoc ..⟩
    rw [escapeJsonString_cons, List.append_assoc] at h
    cases hl : isLetterEscaped c
    case true =>
      have ⟨letter, he, hu, _, hb⟩ := escapeJsonChar_of_isLetterEscaped hl
      rw [he] at h
      have h : parseStringLoop prev str ('\\' :: letter :: (escapeJsonString s ++ '"' :: rest)) = _ := h
      rw [parseStringLoop_backslash hu] at h
      exact absurd (head_of_parseStringLoop h hc).symm hb
    case false =>
      by_cases hq : c = '"'
      case pos =>
        subst hq
        have h : parseStringLoop prev str ('\\' :: '"' :: (escapeJsonString s ++ '"' :: rest)) = _ := h
        rw [parseStringLoop_skip (by decide),
          parseStringLoop_write (fun _ => rfl) (absurd · (by decide))] at h
        simp only [isDecodable, hl, ih h, Bool.not_false, Bool.true_and, Bool.and_true]
        rfl
      case neg =>
        by_cases hb : c = '\\'
        case neg =>
          rw [escapeJsonChar_eq_self hl hq hb] at h
          have h : parseStringLoop prev str (c :: (escapeJsonString s ++ '"' :: rest)) = _ := h
          rw [parseStringLoop_write (absurd · hq) (absurd · hb)] at h
          simp only [isDecodable, hl, ih h, hb, Bool.not_false, ne_eq, not_false_eq_true, decide_true,
            Bool.true_or, Bool.true_and]
        case pos =>
          subst hb
          have h : parseStringLoop prev str ('\\' :: '\\' :: (escapeJsonString s ++ '"' :: rest)) = _ := h
          rcases s with _ | ⟨d, s⟩
          · rw [parseStringLoop_skip (by decide)] at h
            have h : parseStringLoop '\\' str ('\\' :: '"' :: rest) = _ := h
            rw [parseStringLoop_skip (by decide),
              parseStringLoop_write (fun _ => rfl) (absurd · (by decide))] at h
            exact absurd (head_of_parseStringLoop h hc) (by decide)
          · rw [escapeJsonString_cons, List.append_assoc] at h
            by_cases hb : d = '\\'
            · exact absurd ⟨s, by rw [hb, List.append_assoc]; rfl⟩ (not_prefix_backslashes h)
            by_cases hq : d = '"'
            · subst hq
              have h : parseStringLoop prev str
                ('\\' :: '\\' :: '\\' :: '"' :: (escapeJsonString s ++ '"' :: rest)) = _ := h
              rw [parseStringLoop_skip (by decide), parseStringLoop_skip (by decide),
                parseStringLoop_skip (by decide),
                parseStringLoop_write (fun _ => rfl) (absurd · (by decide))] at h
              exact absurd (head_of_parseStringLoop h hc) (by decide)
            cases hd : isLetterEscaped d
            case true  =>
              have ⟨letter, he, hu, hn, _⟩ := escapeJsonChar_of_isLetterEscaped hd
              rw [he] at h
              have h : parseStringLoop prev str
                ('\\' :: '\\' :: '\\' :: letter :: (escapeJsonString s ++ '"' :: rest)) = _ := h
              rw [parseStringLoop_skip (by decide), parseStringLoop_skip (by decide),
                parseStringLoop_backslash hu, parseStringLoop_write
                  (fun he => absurd hu <| by rw [he]; decide) (fun he => absurd hu <| by rw [he]; decide)] at h
              exact absurd (head_of_parseStringLoop h ⟨s, by simp⟩) hn
            case false =>
              rw [escapeJsonChar_eq_self hd hq hb] at h
              have h : parseStringLoop prev str
                ('\\' :: '\\' :: d :: (escapeJsonString s ++ '"' :: rest)) = _ := h
              rw [parseStringLoop_skip (by decide),
                parseStringLoop_backslash <| isUnescaped_eq_false hd hq hb] at h
              have ih := @ih '\\'
              rw [escapeJsonString_cons, escapeJsonChar_eq_self hd hq hb] at ih
              rw [isDecodable, ih h, hl]
              simp [hb, hq]

-- What is written for a string is read back as the string, up to the closing quote.
theorem parseAsString_escapeJsonString_iff :
    (∀ rest, parseAsString ('"' :: escapeJsonString s ++ '"' :: rest) = .ok (s, '"' :: rest)) ↔
      isDecodable s = true := by
  constructor
  · intro h
    exact @isDecodable_of_parseStringLoop '"' s [] [] <| h []
  · intro h rest
    exact @parseStringLoop_escapeJsonString '"' s [] rest h fun _ => by decide

end JsonElement
end CfEngine
