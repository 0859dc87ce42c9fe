import RichText.Markup.Parse
import RichText.Proofs.Spelled

namespace RichText.Markup

namespace Token

theorem length_of_readTag? {cs tag rest : List Char} (h : readTag? quote cs = some (tag, rest)) :
    rest.length < cs.length := by
  fun_induction readTag? quote cs generalizing tag with
  | case1 => contradiction
  | case2 c cs q ih =>
    obtain ⟨⟨tag, rest⟩, h', h⟩ := Option.map_eq_some_iff.mp h
    cases h
    exact Nat.lt_succ_of_lt (ih h')
  | case3 => simp_all
  | case4 c cs _ ih =>
    obtain ⟨⟨tag, rest⟩, h', h⟩ := Option.map_eq_some_iff.mp h
    cases h
    exact Nat.lt_succ_of_lt (ih h')

theorem length_of_readPast? {closing read cs inner rest : List Char} {least : Nat}
    (h : readPast? closing least read cs = some (inner, rest)) : rest.length < cs.length := by
  fun_induction readPast? closing least read cs with
  | case1 => contradiction
  | case2 => simp_all
  | case3 read c cs _ ih => exact Nat.lt_succ_of_lt (ih h)

theorem length_of_readNested? {cs inner rest : List Char} {depth : Nat}
    (h : readNested? depth cs = some (inner, rest)) : rest.length < cs.length := by
  induction cs generalizing depth inner with
  | nil => contradiction
  | cons c cs ih =>
    rw [readNested?] at h
    split at h
    case isTrue => simp_all
    case isFalse =>
      obtain ⟨⟨inner, rest⟩, h', h⟩ := Option.map_eq_some_iff.mp h
      cases h
      exact Nat.lt_succ_of_lt (ih h')

namespace Step

def rest? : Step → Option (List Char)
  | token _ rest | skip rest => some rest
  | fault _ _ => none

end Step

theorem length_of_readBang {cs rest : List Char} (h : (readBang cs).rest? = some rest) :
    rest.length < cs.length := by
  unfold readBang at h
  split at h
  case h_5 => contradiction
  case h_1 | h_2 =>
    split at h
    case h_1 => contradiction
    case h_2 hr =>
      split at h
      case isTrue => cases h; exact length_of_readPast? hr
      case isFalse => contradiction
  case h_3 | h_4 =>
    split at h
    case h_1 => contradiction
    case h_2 hr =>
      split at h
      case isFalse => contradiction
      case isTrue =>
        split at h
        case isTrue => contradiction
        case isFalse => cases h; exact length_of_readNested? hr

theorem length_of_readStep {c : Char} {cs rest : List Char}
    (h : (readStep (c :: cs)).rest? = some rest) : rest.length < (c :: cs).length := by
  unfold readStep at h
  split at h
  case h_1 cs' e =>
    cases e
    rw [List.length_cons]
    split at h
    case h_1 => exact Nat.lt_succ_of_lt (length_of_readBang h)
    case h_2 =>
      split at h
      case h_1 => contradiction
      case h_2 hr =>
        split at h
        case isTrue => contradiction
        case isFalse => cases h; exact Nat.lt_succ_of_lt (length_of_readPast? hr)
    case h_3 | h_4 =>
      split at h
      case h_1 => contradiction
      case h_2 hr => cases h; exact Nat.lt_succ_of_lt (length_of_readTag? hr)
  case h_2 cs' e =>
    cases e
    simp only at h
    split at h
    case h_2 => contradiction
    case h_1 rest hd =>
      cases h
      have := List.dropWhile_suffix (l := cs) fun c => c ≠ ';' && c ≠ '&' && c ≠ '<'
      have := hd ▸ this.length_le
      simp only [List.length_cons] at this ⊢
      omega
  case h_3 hl ha =>
    cases h
    have hc : c ≠ '<' ∧ c ≠ '&' := ⟨fun e => hl cs (e ▸ rfl), fun e => ha cs (e ▸ rfl)⟩
    rw [List.dropWhile_cons_of_pos (by simp [hc]), List.length_cons]
    exact Nat.lt_succ_of_le (List.dropWhile_suffix _).length_le

@[simp]
theorem readAll_nil (total fuel : Nat) : readAll total fuel [] = ([], none) := by
  cases fuel <;> rfl

theorem readAll_of_le {total fuel fuel' : Nat} {cs : List Char} (h : cs.length ≤ fuel)
    (h' : cs.length ≤ fuel') : readAll total fuel cs = readAll total fuel' cs := by
  induction fuel generalizing fuel' cs with
  | zero => rw [List.eq_nil_of_length_eq_zero (Nat.le_zero.mp h), readAll_nil, readAll_nil]
  | succ fuel ih =>
    match cs, fuel' with
    | [], _ => rw [readAll_nil, readAll_nil]
    | c :: cs, fuel' + 1 =>
      have hr (rest) (hr : (readStep (c :: cs)).rest? = some rest) :
          readAll total fuel rest = readAll total fuel' rest := by
        have := length_of_readStep hr
        exact ih (by omega) (by omega)
      simp only [readAll]
      cases hs : readStep (c :: cs) with
      | token t rest => simp only [hr rest (by rw [hs]; rfl)]
      | skip rest => exact hr rest (by rw [hs]; rfl)
      | fault => rfl

-- Reading as it goes on without a bound, up to the end of the text or to a fault.
inductive Reads (total : Nat) : List Char → List Token → Option MarkupError → Prop
  | done : Reads total [] [] none
  | token (hs : readStep (c :: cs) = .token t rest) (h : Reads total rest ts e) :
    Reads total (c :: cs) (t :: ts) e
  | skip (hs : readStep (c :: cs) = .skip rest) (h : Reads total rest ts e) :
    Reads total (c :: cs) ts e
  | fault (hs : readStep (c :: cs) = .fault f rest) :
    Reads total (c :: cs) [] (some ⟨total - size rest, f⟩)

theorem reads_readAll {total fuel : Nat} {cs : List Char} (h : cs.length ≤ fuel) :
    Reads total cs (readAll total fuel cs).1 (readAll total fuel cs).2 := by
  induction fuel generalizing cs with
  | zero =>
    rw [List.eq_nil_of_length_eq_zero (Nat.le_zero.mp h)]
    exact .done
  | succ fuel ih =>
    match cs with
    | [] => exact .done
    | c :: cs =>
      have hr (rest) (hr : (readStep (c :: cs)).rest? = some rest) : rest.length ≤ fuel := by
        have := length_of_readStep hr
        omega
      simp only [readAll]
      cases hs : readStep (c :: cs) with
      | token t rest => exact .token hs (ih (hr rest (by rw [hs]; rfl)))
      | skip rest => exact .skip hs (ih (hr rest (by rw [hs]; rfl)))
      | fault => exact .fault hs

theorem reads_ofText (text : List Char) : ∃ cs, (text = cs ∨ text = '\ufeff' :: cs) ∧
    Reads (size cs) cs (ofText text).1 (ofText text).2 := by
  simp only [ofText]
  split
  case h_1 rest => exact ⟨rest, .inr rfl, reads_readAll (Nat.le_refl _)⟩
  case h_2 => exact ⟨text, .inl rfl, reads_readAll (Nat.le_refl _)⟩

end Token

def IsKey (key : String) : Prop :=
  key ≠ "" ∧ ∀ c ∈ key.toList, isSpace c = false ∧ c ≠ '=' ∧ c ≠ '>' ∧ c ≠ '"' ∧ c ≠ '\''

-- A tag as markup is read: in lower case, of letters and digits, the first a letter.
def IsTag (tag : String) : Prop :=
  (∃ c ∈ tag.toList.head?, c.isLower) ∧ ∀ c ∈ tag.toList, c.isLower ∨ c.isDigit

instance (tag : String) : Decidable (IsTag tag) :=
  inferInstanceAs (Decidable (_ ∧ _))

def writeAttribute (key value : String) : List Char :=
  ' ' :: key.toList ++ "=\"".toList ++ escapeQuoted value.toList ++ ['"']

theorem startTag_eq (tag : String) (attributes : List (String × String)) :
    startTag tag attributes =
      '<' :: (tag.toList ++ attributes.flatMap fun a => writeAttribute a.1 a.2) ++ ['>'] :=
  rfl

namespace Attribute

theorem length_of_readValue? {cs value rest : List Char} (h : readValue? cs = some (value, rest)) :
    rest.length ≤ cs.length := by
  have hd := (List.dropWhile_suffix (l := cs) isSpace).length_le
  unfold readValue? at h
  split at h
  case h_1 => contradiction
  case h_2 c cs' hc =>
    rw [hc, List.length_cons] at hd
    split at h
    case isTrue =>
      split at h
      case h_1 => contradiction
      case h_2 ha =>
        cases h
        have := ha ▸ (List.dropWhile_suffix (l := cs') (· ≠ c)).length_le
        simp only [List.length_cons] at this
        omega
    case isFalse =>
      cases h
      have := (List.dropWhile_suffix (l := c :: cs') (!isSpace ·)).length_le
      simp only [List.length_cons] at this
      omega

-- Reading attributes as it goes on without a bound. `seen` holds the keys read before.
inductive Reads : List (List Char) → List Char → List Attribute → Prop
  | done (h : cs.dropWhile isSpace = []) : Reads seen cs []
  | value {key value : List Char} (h : cs.dropWhile isSpace = c :: cs')
    (hk : readKey (c :: cs') = (key, rest)) (he : rest.dropWhile isSpace = '=' :: rest')
    (hn : key ∉ seen) (hv : readValue? rest' = some (value, after))
    (hr : Reads (key :: seen) after as) : Reads seen cs (⟨key, value⟩ :: as)
  | unclosed {key : List Char} (h : cs.dropWhile isSpace = c :: cs')
    (hk : readKey (c :: cs') = (key, rest)) (he : rest.dropWhile isSpace = '=' :: rest')
    (hn : key ∉ seen) (hv : readValue? rest' = none) : Reads seen cs []
  | again {key : List Char} (h : cs.dropWhile isSpace = c :: cs')
    (hk : readKey (c :: cs') = (key, rest)) (he : rest.dropWhile isSpace = '=' :: rest')
    (hn : key ∈ seen) (hr : Reads seen (rest'.dropWhile (!isSpace ·)) as) : Reads seen cs as
  | bare {key : List Char} (h : cs.dropWhile isSpace = c :: cs')
    (hk : readKey (c :: cs') = (key, rest)) (he : ∀ rest', rest.dropWhile isSpace ≠ '=' :: rest')
    (hn : key ∉ seen) (hr : Reads (key :: seen) (rest.dropWhile isSpace) as) :
    Reads seen cs (⟨key, []⟩ :: as)
  | bareAgain {key : List Char} (h : cs.dropWhile isSpace = c :: cs')
    (hk : readKey (c :: cs') = (key, rest)) (he : ∀ rest', rest.dropWhile isSpace ≠ '=' :: rest')
    (hn : key ∈ seen) (hr : Reads seen (rest.dropWhile isSpace) as) : Reads seen cs as

theorem length_of_readKey {c : Char} {cs cs' key rest : List Char}
    (h : cs.dropWhile isSpace = c :: cs') (hk : readKey (c :: cs') = (key, rest)) :
    (rest.dropWhile isSpace).length < cs.length := by
  cases hk
  have hd := h ▸ (List.dropWhile_suffix (l := cs) isSpace).length_le
  exact Nat.lt_of_le_of_lt ((List.dropWhile_suffix _).trans (List.dropWhile_suffix _)).length_le hd

theorem reads_readAll {fuel : Nat} {seen : List (List Char)} {cs : List Char}
    (hf : cs.length ≤ fuel) : Reads seen cs (readAll fuel seen cs) := by
  fun_induction readAll fuel seen cs with
  | case1 =>
    rw [List.eq_nil_of_length_eq_zero (Nat.le_zero.mp hf)]
    exact .done rfl
  | case2 _ _ _ h => exact .done h
  | case3 seen cs fuel c cs' h key rest hk isNew rest' he hn value after hv ih =>
    have hl := length_of_readKey h hk
    have := length_of_readValue? hv
    rw [he, List.length_cons] at hl
    exact .value h hk he (by simpa [isNew] using hn) hv (ih (by omega))
  | case4 seen cs fuel c cs' h key rest hk isNew rest' he hn hv =>
    exact .unclosed h hk he (by simpa [isNew] using hn) hv
  | case5 seen cs fuel c cs' h key rest hk isNew rest' he hn ih =>
    have hl := length_of_readKey h hk
    have := (List.dropWhile_suffix (l := rest') (!isSpace ·)).length_le
    rw [he, List.length_cons] at hl
    exact .again h hk he (by simpa [isNew] using hn) (ih (by omega))
  | case6 seen cs fuel c cs' h key rest hk isNew hn he ih =>
    have hl := length_of_readKey h hk
    exact .bare h hk he (by simpa [isNew] using hn) (ih (by omega))
  | case7 seen cs fuel c cs' h key rest hk isNew hn he ih =>
    have hl := length_of_readKey h hk
    exact .bareAgain h hk he (by simpa [isNew] using hn) (ih (by omega))

theorem readKey_append {key : List Char} (hn : key ≠ [])
    (hk : ∀ c ∈ key, isSpace c = false ∧ c ≠ '=') (rest : List Char) :
    readKey (key ++ '=' :: rest) = (key, '=' :: rest) := by
  match key with
  | c :: key =>
    rw [List.forall_mem_cons] at hk
    have hi : ∀ c ∈ key, (c ≠ '=' && !isSpace c) = true := fun c hc => by simp [hk.right c hc]
    rw [List.cons_append, readKey]
    simp only [List.takeWhile_append_of_pos hi, List.dropWhile_append_of_pos hi]
    simp

theorem readValue?_quoted {value : List Char} (h : '"' ∉ value) (rest : List Char) :
    readValue? ('"' :: value ++ '"' :: rest) = some (value, rest) := by
  have hv : ∀ c ∈ value, decide (c ≠ '"') = true := fun c hc =>
    decide_eq_true fun e => h (e ▸ hc)
  have hs : isSpace '"' = false := by decide
  rw [readValue?, List.cons_append, List.dropWhile_cons_of_neg (by simp [hs])]
  simp only [decide_true, Bool.true_or, if_true]
  rw [List.dropWhile_append_of_pos hv, List.takeWhile_append_of_pos hv]
  simp

theorem readAll_write {key value : String} {seen : List (List Char)} {fuel : Nat} (hk : IsKey key)
    (hs : key.toList ∉ seen) (rest : List Char) :
    readAll (fuel + 1) seen (writeAttribute key value ++ rest) =
      ⟨key.toList, escapeQuoted value.toList⟩ :: readAll fuel (key.toList :: seen) rest := by
  have hn : key.toList ≠ [] := by simpa using hk.left
  have hc : ∀ c ∈ key.toList, isSpace c = false ∧ c ≠ '=' :=
    fun c h => ⟨(hk.right c h).left, (hk.right c h).right.left⟩
  have ⟨c, cs, e⟩ := List.exists_cons_of_ne_nil hn
  have hd : (writeAttribute key value ++ rest).dropWhile isSpace =
      c :: (cs ++ '=' :: ('"' :: escapeQuoted value.toList ++ '"' :: rest)) := by
    have hc := (hc c (e ▸ .head _)).left
    have hsp : isSpace ' ' = true := by decide
    simp [writeAttribute, e, hc, hsp]
  have hr := readKey_append hn hc ('"' :: escapeQuoted value.toList ++ '"' :: rest)
  rw [e, List.cons_append] at hr
  have hq : isSpace '=' = false := by decide
  have hs : (!seen.contains (c :: cs)) = true := by simpa [← e] using hs
  conv => lhs; unfold readAll
  simp only [hd, hr]
  rw [List.dropWhile_cons_of_neg (by simp [hq])]
  simp only [hs, if_true, readValue?_quoted (not_mem_escapeQuoted value.toList), e]

theorem readAll_writeAll {seen : List (List Char)} {fuel : Nat} (attributes : List (String × String))
    (hk : ∀ a ∈ attributes, IsKey a.1) (hs : ∀ a ∈ attributes, a.1.toList ∉ seen)
    (hd : (attributes.map (·.1)).Nodup) (hf : attributes.length ≤ fuel) :
    readAll fuel seen (attributes.flatMap fun a => writeAttribute a.1 a.2) =
      attributes.map fun a => ⟨a.1.toList, escapeQuoted a.2.toList⟩ := by
  induction attributes generalizing seen fuel with
  | nil => cases fuel <;> rfl
  | cons a as ih =>
    match fuel with
    | fuel + 1 =>
      rw [List.forall_mem_cons] at hk hs
      rw [List.map_cons, List.nodup_cons] at hd
      rw [List.flatMap_cons, readAll_write hk.left hs.left, ih hk.right ?_ hd.right (by simpa using hf)]
      · rfl
      · intro b hb hm
        cases List.mem_cons.mp hm
        case inl e => exact hd.left (String.toList_inj.mp e ▸ List.mem_map_of_mem hb)
        case inr h => exact hs.right b hb h

end Attribute

namespace IsTag

variable {tag : String} (h : IsTag tag)

include h

theorem toList_ne_nil : tag.toList ≠ [] := by
  have ⟨⟨c, hc, _⟩, _⟩ := h
  intro e
  simp [e] at hc

theorem plain {c : Char} (hc : c ∈ tag.toList) :
    isSpace c = false ∧ c ≠ '>' ∧ c ≠ '"' ∧ c ≠ '\'' ∧ c ≠ '/' ∧ c ≠ '!' ∧ c ≠ '?' := by
  have hc := h.right c hc
  refine ⟨?_, ?_, ?_, ?_, ?_, ?_, ?_⟩
  case refine_1 =>
    simp only [isSpace, Bool.or_eq_false_iff, decide_eq_false_iff_not]
    refine ⟨⟨⟨?_, ?_⟩, ?_⟩, ?_⟩ <;> rintro rfl <;> revert hc <;> decide
  all_goals rintro rfl; revert hc; decide

theorem toLower {c : Char} (hc : c ∈ tag.toList) : c.toLower = c := by
  have hc := h.right c hc
  simp only [Char.isLower, Char.isDigit, Char.toLower] at *
  grind

theorem map_toLower : tag.toList.map Char.toLower = tag.toList :=
  (List.map_congr_left fun _ => h.toLower).trans (List.map_id _)

end IsTag

namespace Token

theorem readTag?_append {cs : List Char} (h : ∀ c ∈ cs, c ≠ '>' ∧ c ≠ '"' ∧ c ≠ '\'')
    (rest : List Char) :
    readTag? none (cs ++ rest) = (readTag? none rest).map fun (tag, rest) => (cs ++ tag, rest) := by
  induction cs with
  | nil => simp
  | cons c cs ih =>
    rw [List.forall_mem_cons] at h
    rw [List.cons_append, readTag?]
    simp [h.left, ih h.right, Option.map_map, Function.comp_def]

theorem readTag?_quoted {value : List Char} (h : '"' ∉ value) (rest : List Char) :
    readTag? (some '"') (value ++ '"' :: rest) =
      (readTag? none rest).map fun (tag, rest) => (value ++ '"' :: tag, rest) := by
  induction value with
  | nil => simp [readTag?]
  | cons c cs ih =>
    rw [List.mem_cons, not_or] at h
    rw [List.cons_append, readTag?]
    simp [Ne.symm h.left, ih h.right, Option.map_map, Function.comp_def]

theorem readTag?_writeAttribute {key : String} (h : IsKey key) (value : String) (rest : List Char) :
    readTag? none (writeAttribute key value ++ rest) =
      (readTag? none rest).map fun (tag, rest) => (writeAttribute key value ++ tag, rest) := by
  have hk : ∀ c ∈ ' ' :: key.toList ++ ['='], c ≠ '>' ∧ c ≠ '"' ∧ c ≠ '\'' := by
    intro c hc
    simp only [List.cons_append, List.mem_cons, List.mem_append, List.not_mem_nil, or_false] at hc
    obtain rfl | hc | rfl := hc
    · decide
    · exact (h.right c hc).right.right
    · decide
  have e (rest : List Char) : writeAttribute key value ++ rest =
      (' ' :: key.toList ++ ['=']) ++ ('"' :: (escapeQuoted value.toList ++ '"' :: rest)) := by
    simp [writeAttribute]
  rw [e, readTag?_append hk, readTag?]
  simp [readTag?_quoted (not_mem_escapeQuoted value.toList), Option.map_map, Function.comp_def, e]

theorem readTag?_written {tag : String} (ht : IsTag tag) (attributes : List (String × String))
    (hk : ∀ a ∈ attributes, IsKey a.1) (rest : List Char) :
    readTag? none (tag.toList ++ attributes.flatMap (fun a => writeAttribute a.1 a.2) ++ '>' :: rest) =
      some (tag.toList ++ attributes.flatMap fun a => writeAttribute a.1 a.2, rest) := by
  have ha : readTag? none (attributes.flatMap (fun a => writeAttribute a.1 a.2) ++ '>' :: rest) =
      some (attributes.flatMap fun a => writeAttribute a.1 a.2, rest) := by
    induction attributes with
    | nil => rfl
    | cons a as ih =>
      rw [List.forall_mem_cons] at hk
      rw [List.flatMap_cons, List.append_assoc, readTag?_writeAttribute hk.left, ih hk.right]
      rfl
  rw [List.append_assoc, readTag?_append, ha]
  · rfl
  · exact fun c hc => ⟨(ht.plain hc).right.left, (ht.plain hc).right.right.left,
      (ht.plain hc).right.right.right.left⟩

theorem getLast?_written {tag : String} (ht : IsTag tag) (attributes : List (String × String)) :
    (tag.toList ++ attributes.flatMap fun a => writeAttribute a.1 a.2).getLast? ≠ some '/' := by
  have ha : ∀ c ∈ (attributes.flatMap fun a => writeAttribute a.1 a.2).getLast?, c = '"' := by
    induction attributes with
    | nil => simp
    | cons a as ih =>
      have hw : (writeAttribute a.1 a.2).getLast? = some '"' := by
        rw [writeAttribute, List.getLast?_append]
        rfl
      rw [List.flatMap_cons, List.getLast?_append, hw]
      cases h : (as.flatMap fun a => writeAttribute a.1 a.2).getLast? with
      | none => simp
      | some c => simpa using ih c h
  intro e
  rw [List.getLast?_append, Option.or_eq_some_iff] at e
  obtain h | ⟨-, h⟩ := e
  · exact absurd (ha _ h) (by decide)
  · exact (ht.plain (List.mem_of_getLast? h)).right.right.right.right.left rfl

theorem ofStart_written {tag : String} {attributes : List (String × String)} (ht : IsTag tag)
    (hk : ∀ a ∈ attributes, IsKey a.1) (hd : (attributes.map (·.1)).Nodup) :
    ofStart (tag.toList ++ attributes.flatMap fun a => writeAttribute a.1 a.2) =
      .start tag.toList (attributes.map fun a => ⟨a.1.toList, escapeQuoted a.2.toList⟩) false := by
  have hs : ∀ c ∈ tag.toList, (!isSpace c) = true := fun c hc => by simp [(ht.plain hc).left]
  have hn : (tag.toList ++ attributes.flatMap fun a => writeAttribute a.1 a.2).takeWhile (!isSpace ·) =
      tag.toList := by
    rw [List.takeWhile_append_of_pos hs]
    cases attributes with
    | nil => simp
    | cons a as =>
      have hsp : isSpace ' ' = true := by decide
      simp [writeAttribute, hsp]
  have hl : attributes.length ≤ (attributes.flatMap fun a => writeAttribute a.1 a.2).length := by
    clear hk hd hn
    induction attributes with
    | nil => exact Nat.le_refl 0
    | cons a as ih =>
      have hw : 0 < (writeAttribute a.1 a.2).length := Nat.zero_lt_succ _
      rw [List.flatMap_cons, List.length_append, List.length_cons]
      omega
  rw [ofStart]
  simp only [getLast?_written ht attributes, decide_false, if_false, hn,
    ht.map_toLower, List.drop_left]
  rw [Attribute.ofList, Attribute.readAll_writeAll attributes hk (by simp) hd hl]

theorem readStep_tag {c : Char} (hc : c ≠ '!' ∧ c ≠ '?' ∧ c ≠ '/') {cs tag rest : List Char}
    (h : readTag? none (c :: cs) = some (tag, rest)) :
    readStep ('<' :: c :: cs) = .token (ofStart tag) rest := by
  unfold readStep
  simp only
  split <;> simp_all

theorem readStep_startTag {tag : String} {attributes : List (String × String)} (ht : IsTag tag)
    (hk : ∀ a ∈ attributes, IsKey a.1) (hd : (attributes.map (·.1)).Nodup) (rest : List Char) :
    readStep (startTag tag attributes ++ rest) =
      .token (.start tag.toList
        (attributes.map fun a => ⟨a.1.toList, escapeQuoted a.2.toList⟩) false) rest := by
  have hr := readTag?_written ht attributes hk rest
  have ⟨c, cs, e⟩ := List.exists_cons_of_ne_nil ht.toList_ne_nil
  have hc := ht.plain (c := c) (by simp [e])
  have hw : startTag tag attributes ++ rest = '<' :: (tag.toList ++
      attributes.flatMap (fun a => writeAttribute a.1 a.2) ++ '>' :: rest) := by
    simp [startTag_eq]
  rw [← ofStart_written ht hk hd, hw]
  simp only [e, List.cons_append] at hr ⊢
  exact readStep_tag ⟨hc.right.right.right.right.right.left, hc.right.right.right.right.right.right,
    hc.right.right.right.right.left⟩ hr

theorem readStep_stopTag {tag : String} (ht : IsTag tag) (hv : isVoid tag = false)
    (rest : List Char) : readStep (stopTag tag ++ rest) = .token (.stop tag.toList) rest := by
  have hr : readTag? none ('/' :: tag.toList ++ '>' :: rest) = some ('/' :: tag.toList, rest) := by
    have := readTag?_written ht [] nofun rest
    simp only [List.flatMap_nil, List.append_nil] at this
    rw [List.cons_append, readTag?]
    simp [this]
  have he : trimEnd tag.toList = tag.toList := by
    rw [trimEnd]
    cases h : tag.toList.reverse with
    | nil => simpa using h.symm
    | cons c cs =>
      have hc : c ∈ tag.toList := List.mem_reverse.mp (h ▸ .head _)
      rw [List.dropWhile_cons_of_neg (by simp [(ht.plain hc).left]), ← h, List.reverse_reverse]
  have hw : stopTag tag ++ rest = '<' :: ('/' :: tag.toList ++ '>' :: rest) := by
    simp [stopTag, hv]
  rw [hw]
  unfold readStep
  simp only [List.cons_append] at hr ⊢
  simp only [hr, ofStop, List.tail_cons, he, List.isEmpty_iff, ht.toList_ne_nil, if_false,
    ht.map_toLower]

end Token

end RichText.Markup
