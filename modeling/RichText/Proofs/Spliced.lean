import RichText.Proofs.Reread

namespace RichText.Markup

namespace Token

variable {cs rest more : List Char} {c : Char}

theorem readTag?_more {quote : Option Char} (h : readTag? quote cs = some (tag, rest))
    (more : List Char) : readTag? quote (cs ++ more) = some (tag, rest ++ more) := by
  fun_induction readTag? quote cs generalizing tag with
  | case1 => contradiction
  | case2 c cs q ih =>
    obtain ⟨⟨tag, rest⟩, h', h⟩ := Option.map_eq_some_iff.mp h
    cases h
    rw [List.cons_append, readTag?]
    simp [ih h']
  | case3 =>
    cases h
    simp [readTag?]
  | case4 c cs hc ih =>
    obtain ⟨⟨tag, rest⟩, h', h⟩ := Option.map_eq_some_iff.mp h
    cases h
    rw [List.cons_append, readTag?]
    simp only [hc, if_false, ih h', Option.map_some]

theorem readPast?_more {closing read inner : List Char} {least : Nat}
    (h : readPast? closing least read cs = some (inner, rest)) (more : List Char) :
    readPast? closing least read (cs ++ more) = some (inner, rest ++ more) := by
  fun_induction readPast? closing least read cs with
  | case1 => contradiction
  | case2 _ _ _ hc =>
    cases h
    rw [List.cons_append, readPast?, if_pos hc]
  | case3 read c cs hc ih => rw [List.cons_append, readPast?, if_neg hc, ih h]

theorem readNested?_more {inner : List Char} {depth : Nat}
    (h : readNested? depth cs = some (inner, rest)) (more : List Char) :
    readNested? depth (cs ++ more) = some (inner, rest ++ more) := by
  induction cs generalizing depth inner with
  | nil => contradiction
  | cons c cs ih =>
    rw [readNested?] at h
    rw [List.cons_append, readNested?]
    split at h
    case isTrue hc =>
      cases h
      rw [if_pos hc]
    case isFalse hc =>
      obtain ⟨⟨inner, rest⟩, h', h⟩ := Option.map_eq_some_iff.mp h
      cases h
      rw [if_neg hc]
      simp only [ih h', Option.map_some]

theorem span_more {p : Char → Bool} (hc : p c = false) (cs more : List Char) :
    (cs ++ c :: more).takeWhile p = cs.takeWhile p ∧
      (cs ++ c :: more).dropWhile p = cs.dropWhile p ++ c :: more := by
  induction cs with
  | nil => simp [hc]
  | cons d cs ih => cases hd : p d <;> simp [hd, ih]

namespace Step

-- The same step where more text follows.
def onto (more : List Char) : Step → Step
  | token t rest => token t (rest ++ more)
  | skip rest => skip (rest ++ more)
  | fault f rest => fault f (rest ++ more)

end Step

theorem readBang_more (h : (readBang cs).rest? = some rest) (more : List Char) :
    readBang (cs ++ more) = (readBang cs).onto more := by
  unfold readBang at h
  split at h
  case h_5 => contradiction
  case h_1 | h_2 =>
    split at h
    case h_1 => contradiction
    case h_2 hr =>
      have hm := readPast?_more hr more
      split at h
      case isFalse => contradiction
      case isTrue hp =>
        unfold readBang
        simp only [List.cons_append] at hm ⊢
        simp only [hr, hm, hp, if_true]
        rfl
  case h_3 | h_4 =>
    split at h
    case h_1 => contradiction
    case h_2 hr =>
      have hm := readNested?_more hr more
      split at h
      case isFalse => contradiction
      case isTrue hd =>
        split at h
        case isTrue => contradiction
        case isFalse hs =>
          unfold readBang
          simp only [List.cons_append] at hm ⊢
          simp only [hr, hm, hd, hs, if_true]
          rfl

theorem readStep_more_markup (h : (readStep ('<' :: cs)).rest? = some rest) (more : List Char) :
    readStep ('<' :: cs ++ more) = (readStep ('<' :: cs)).onto more := by
  unfold readStep at h
  simp only at h
  split at h
  case h_1 cs =>
    have hm := readBang_more h more
    unfold readStep
    exact hm
  case h_2 =>
    split at h
    case h_1 => contradiction
    case h_2 hr =>
      have hm := readPast?_more hr more
      split at h
      case isTrue => contradiction
      case isFalse hl =>
        unfold readStep
        simp only [List.cons_append] at hm ⊢
        simp only [hr, hm, hl, if_false]
        rfl
  case h_3 =>
    split at h
    case h_1 => contradiction
    case h_2 hr =>
      have hm := readTag?_more hr more
      unfold readStep
      simp only [List.cons_append] at hm ⊢
      simp only [hr, hm]
      rfl
  case h_4 hb hq hs =>
    split at h
    case h_1 => contradiction
    case h_2 hr =>
      match cs with
      | c :: cs =>
        have hc : c ≠ '!' ∧ c ≠ '?' ∧ c ≠ '/' :=
          ⟨fun e => hb cs (e ▸ rfl), fun e => hq cs (e ▸ rfl), fun e => hs cs (e ▸ rfl)⟩
        have hm : readTag? none (c :: (cs ++ more)) = some _ := readTag?_more hr more
        rw [List.cons_append, List.cons_append, readStep_tag hc hm, readStep_tag hc hr]
        rfl

theorem readStep_more_reference (h : (readStep ('&' :: cs)).rest? = some rest)
    (more : List Char) :
    readStep ('&' :: cs ++ '<' :: more) = (readStep ('&' :: cs)).onto ('<' :: more) := by
  have ⟨ht, hd⟩ := span_more (c := '<') (p := fun c => c ≠ ';' && c ≠ '&' && c ≠ '<') (by decide)
    cs more
  unfold readStep at h
  simp only at h
  split at h
  case h_2 => contradiction
  case h_1 hr =>
    rw [hr] at hd
    unfold readStep
    simp only [List.cons_append, hr, ht, hd]
    rfl

theorem readStep_text (hc : c ≠ '<' ∧ c ≠ '&') (cs : List Char) :
    readStep (c :: cs) = .token (.text ((c :: cs).takeWhile fun c => c ≠ '<' && c ≠ '&'))
      ((c :: cs).dropWhile fun c => c ≠ '<' && c ≠ '&') := by
  unfold readStep
  split <;> simp_all

theorem readStep_more_text (hc : c ≠ '<' ∧ c ≠ '&') (cs more : List Char) :
    readStep (c :: cs ++ '<' :: more) = (readStep (c :: cs)).onto ('<' :: more) := by
  have ⟨ht, hd⟩ := span_more (c := '<') (p := fun c => c ≠ '<' && c ≠ '&') (by decide) (c :: cs) more
  rw [readStep_text hc, List.cons_append, readStep_text hc, ← List.cons_append, ht, hd]
  rfl

theorem readStep_more (h : (readStep (c :: cs)).rest? = some rest) (more : List Char) :
    readStep (c :: cs ++ '<' :: more) = (readStep (c :: cs)).onto ('<' :: more) := by
  by_cases hl : c = '<'
  case pos =>
    subst hl
    exact readStep_more_markup h _
  case neg =>
    by_cases ha : c = '&'
    case pos =>
      subst ha
      exact readStep_more_reference h more
    case neg => exact readStep_more_text ⟨hl, ha⟩ cs more

end Token

namespace Builder

variable {b : Builder} {total total' : Nat} {cs rest : List Char} {ts : List Token}

theorem read_skip (h : Token.readStep cs = .skip rest) (hn : cs ≠ []) :
    read total b cs = read total b rest := by
  match cs with
  | c :: cs =>
    have hl : rest.length < (c :: cs).length := Token.length_of_readStep (by rw [h]; rfl)
    have hr : Token.readAll total cs.length rest = Token.readAll total rest.length rest :=
      Token.readAll_of_le (Nat.le_of_lt_succ hl) (Nat.le_refl _)
    simp only [read, List.length_cons, Token.readAll, h, hr]

theorem read_more (h : Token.Reads total cs ts none) (more : List Char) :
    read total' b (cs ++ '<' :: more) = read total' (ts.foldl add b) ('<' :: more) := by
  generalize he : none = e at h
  induction h generalizing b with
  | done => rfl
  | token hs _ ih =>
    have hm := Token.readStep_more (by rw [hs]; rfl) more
    rw [hs] at hm
    rw [read_token hm (List.cons_ne_nil _ _), ih he, List.foldl_cons]
  | skip hs _ ih =>
    have hm := Token.readStep_more (by rw [hs]; rfl) more
    rw [hs] at hm
    rw [read_skip hm (List.cons_ne_nil _ _), ih he]
  | fault => contradiction

end Builder

end RichText.Markup
