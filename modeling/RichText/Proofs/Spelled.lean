import Mathlib
import RichText.Markup.Element
import RichText.Markup.Print

namespace RichText

namespace Text

theorem isBlank_of_isDigit {c : Char} (h : c.isDigit) : isBlank c = false := by
  simp only [Char.isDigit, Bool.and_eq_true, decide_eq_true_eq] at h
  have h₁ : 48 ≤ c.toNat := h.left
  have h₂ : c.toNat ≤ 57 := h.right
  simp only [isBlank, Bool.or_eq_false_iff, Bool.and_eq_false_iff, decide_eq_false_iff_not]
  omega

theorem digit?_of_isDigit {c : Char} (h : c.isDigit) : digit? 10 c = some (c.toNat - 48) := by
  simp only [Char.isDigit, Bool.and_eq_true, decide_eq_true_eq] at h
  have h₁ : 48 ≤ c.toNat := h.left
  have h₂ : c.toNat ≤ 57 := h.right
  have h₃ : '0' ≤ c := h.left
  have h₄ : c ≤ '9' := h.right
  rw [digit?]
  simp only [h₃, h₄, decide_true, Bool.and_self, if_true]
  rw [if_pos (by omega)]

theorem digits?_of_isDigit {cs : List Char} (hn : cs ≠ []) (h : ∀ c ∈ cs, c.isDigit) :
    digits? 10 cs = some (Nat.ofDigitChars 10 cs 0) := by
  have hf (n : Nat) : cs.foldl (fun n c => do return 10 * (← n) + (← digit? 10 c)) (some n) =
      some (Nat.ofDigitChars 10 cs n) := by
    clear hn
    induction cs generalizing n with
    | nil => rfl
    | cons c cs ih =>
      rw [List.forall_mem_cons] at h
      rw [List.foldl_cons, digit?_of_isDigit h.left]
      exact ih h.right _
  rw [digits?, if_neg (by simpa using hn)]
  exact hf 0

theorem trim_of_not_isBlank {cs : List Char} (h : ∀ c ∈ cs, isBlank c = false) : trim cs = cs := by
  have hd (cs : List Char) (h : ∀ c ∈ cs, isBlank c = false) : cs.dropWhile isBlank = cs := by
    cases cs with
    | nil => rfl
    | cons c cs => exact List.dropWhile_cons_of_neg (by simp [h c (.head _)])
  rw [trim, hd cs h, hd _ (by simpa using h), List.reverse_reverse]

theorem natural?_of_isDigit {cs : List Char} (hn : cs ≠ []) (h : ∀ c ∈ cs, c.isDigit) :
    natural? cs = (some (Nat.ofDigitChars 10 cs 0)).filter (· < naturalBound) := by
  rw [← digits?_of_isDigit hn h]
  unfold natural?
  split
  case h_1 =>
    have := h '+' (.head _)
    contradiction
  case h_2 => rfl

theorem natural?_toString {n : Nat} (h : n < naturalBound) :
    natural? (trim (toString n).toList) = some n := by
  have hd : ∀ c ∈ Nat.toDigits 10 n, c.isDigit := fun c hc =>
    Nat.isDigit_of_mem_toDigits (by decide) (by decide) hc
  rw [Nat.toString_eq_repr, Nat.toList_repr,
    trim_of_not_isBlank fun c hc => isBlank_of_isDigit (hd c hc),
    natural?_of_isDigit Nat.toDigits_ne_nil hd, Nat.ofDigitChars_toDigits (by decide) (by decide),
    Option.filter_some, if_pos (decide_eq_true h)]

theorem words_cons {c : Char} (hc : isBlank c = false) (cs : List Char) :
    words (c :: cs) = match cs, words cs with
      | d :: _, w :: ws => if isBlank d then [c] :: w :: ws else (c :: w) :: ws
      | _, ws => [c] :: ws := by
  conv => lhs; unfold words
  rw [hc]
  rfl

theorem words_append {w : List Char} (hn : w ≠ []) (hw : ∀ c ∈ w, isBlank c = false)
    (rest : List Char) : words (w ++ ' ' :: rest) = w :: words rest := by
  have hb : isBlank ' ' = true := by decide
  induction w with
  | nil => contradiction
  | cons c w ih =>
    rw [List.forall_mem_cons] at hw
    rw [List.cons_append, words_cons hw.left]
    cases w with
    | nil =>
      have hr : words (' ' :: rest) = words rest := by
        conv => lhs; unfold words
        rw [hb]
        rfl
      rw [List.nil_append, hr]
      cases words rest <;> simp [hb]
    | cons d w =>
      rw [ih (List.cons_ne_nil _ _) hw.right]
      simp [hw.right d (.head _)]

theorem words_of_not_isBlank {w : List Char} (hn : w ≠ []) (hw : ∀ c ∈ w, isBlank c = false) :
    words w = [w] := by
  induction w with
  | nil => contradiction
  | cons c w ih =>
    rw [List.forall_mem_cons] at hw
    rw [words_cons hw.left]
    cases w with
    | nil => rfl
    | cons d w =>
      rw [ih (List.cons_ne_nil _ _) hw.right]
      simp [hw.right d (.head _)]

theorem words_intercalate {ws : List String} (hn : ∀ w ∈ ws, w ≠ "")
    (hw : ∀ w ∈ ws, ∀ c ∈ w.toList, isBlank c = false) :
    words (String.intercalate " " ws).toList = ws.map String.toList := by
  induction ws with
  | nil => rfl
  | cons w ws ih =>
    rw [List.forall_mem_cons] at hn hw
    have hl : w.toList ≠ [] := by simpa using hn.left
    cases ws with
    | nil => simpa using words_of_not_isBlank hl hw.left
    | cons w' ws =>
      have := words_append hl hw.left (String.intercalate " " (w' :: ws)).toList
      rw [ih hn.right hw.right] at this
      simpa using this

end Text

namespace Markup

theorem inside_append {body rest : List Char} (h : ∀ c ∈ body, c ≠ '&' ∧ c ≠ ';') (read : List Char) :
    decode.inside read (body ++ ';' :: rest) =
      expand (read.reverse ++ body) ++ decode.outside rest := by
  induction body generalizing read with
  | nil => simp [decode.inside]
  | cons c body ih =>
    rw [List.forall_mem_cons] at h
    rw [List.cons_append, decode.inside, if_neg h.left.left, if_neg h.left.right, ih h.right]
    simp

theorem outside_reference (body : List Char) {c : Char} (h : ∀ c ∈ body, c ≠ '&' ∧ c ≠ ';')
    (hc : expand body = [c]) (rest : List Char) :
    decode.outside ('&' :: body ++ ';' :: rest) = c :: decode.outside rest := by
  rw [List.cons_append, decode.outside, if_pos rfl, inside_append h, List.reverse_nil,
    List.nil_append, hc]
  rfl

theorem escapeChar_cases (c : Char) :
    (∃ body, escapeChar c = '&' :: body ++ [';'] ∧ (∀ c ∈ body, c ≠ '&' ∧ c ≠ '<' ∧ c ≠ ';') ∧
      expand body = [c]) ∨ (escapeChar c = [c] ∧ c ≠ '&' ∧ c ≠ '<') := by
  unfold escapeChar
  split
  case h_1 => exact .inl ⟨['a', 'm', 'p'], rfl, by simp, rfl⟩
  case h_2 => exact .inl ⟨['l', 't'], rfl, by simp, rfl⟩
  case h_3 => exact .inl ⟨['g', 't'], rfl, by simp, rfl⟩
  case h_4 ha hl _ => exact .inr ⟨rfl, ha, hl⟩

theorem outside_escapeChar (c : Char) (rest : List Char) :
    decode.outside (escapeChar c ++ rest) = c :: decode.outside rest := by
  obtain ⟨body, he, hb, hc⟩ | ⟨he, ha, _⟩ := escapeChar_cases c
  case inl =>
    have := outside_reference body (fun c hm => ⟨(hb c hm).left, (hb c hm).right.right⟩) hc rest
    simpa [he] using this
  case inr => rw [he, List.singleton_append, decode.outside, if_neg ha]

theorem decode_escapeQuoted (cs : List Char) : decode (escapeQuoted cs) = cs := by
  rw [decode, escapeQuoted]
  induction cs with
  | nil => rfl
  | cons c cs ih =>
    rw [List.flatMap_cons]
    split
    case isTrue h =>
      have := outside_reference ['q', 'u', 'o', 't'] (by simp) rfl
        (cs.flatMap fun c => if c = '"' then "&quot;".toList else escapeChar c)
      exact this.trans (by rw [ih, h])
    case isFalse => rw [outside_escapeChar, ih]

theorem not_mem_escapeQuoted (cs : List Char) : '"' ∉ escapeQuoted cs := by
  rw [escapeQuoted, List.mem_flatMap]
  rintro ⟨c, -, h⟩
  split at h
  case isTrue => revert h; decide
  case isFalse hc =>
    unfold escapeChar at h
    split at h
    · revert h; decide
    · revert h; decide
    · revert h; decide
    · exact hc (List.mem_singleton.mp h).symm

end Markup

end RichText
