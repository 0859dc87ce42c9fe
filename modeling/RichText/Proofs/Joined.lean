import RichText.Proofs.Glyph

namespace RichText

namespace Glyph

def toInline : Glyph → Inline
  | char c s => .run ⟨.singleton c, s⟩
  | lineBreak => .lineBreak

end Glyph

namespace Inline

def ofGlyphs (gs : List Glyph) : List Inline :=
  gs.foldr (fun g => cons g.toInline) []

theorem cons_cons_run (s s' : String) (styles : StyleSet) (is : List Inline) :
    cons (.run ⟨s, styles⟩) (cons (.run ⟨s', styles⟩) is) = cons (.run ⟨s ++ s', styles⟩) is := by
  match is with
  | [] | .lineBreak :: is => simp [cons]
  | .run r :: is =>
    by_cases h : styles = r.styles
    case pos => simp [cons, h, String.append_assoc]
    case neg => simp [cons, h]

theorem foldr_glyphs {i : Inline} (h : i.isEmpty = false) (is : List Inline) :
    i.glyphs.foldr (fun g => cons g.toInline) is = cons i is := by
  cases i with
  | lineBreak => rfl
  | run r =>
    have ⟨s, styles⟩ := r
    have hs : s.toList ≠ [] := by simpa [isEmpty] using h
    rw [← s.ofList_toList]
    generalize s.toList = cs at hs
    rw [glyphs, String.toList_ofList]
    clear h
    induction cs with
    | nil => contradiction
    | cons c cs ih =>
      cases cs with
      | nil => rfl
      | cons c' cs =>
        rw [List.map_cons, List.foldr_cons, ih (List.cons_ne_nil _ _), Glyph.toInline, cons_cons_run]
        congr 3
        exact String.toList_inj.mp (by simp)

theorem join_eq_ofGlyphs (is : List Inline) : join is = ofGlyphs (is.flatMap glyphs) := by
  rw [join, ofGlyphs]
  induction is with
  | nil => rfl
  | cons i is ih =>
    rw [List.filter_cons, List.flatMap_cons, List.foldr_append, ← ih]
    cases h : i.isEmpty
    case true => simp [glyphs_of_isEmpty h]
    case false => simp [foldr_glyphs h]

def Apart (i j : Inline) : Prop :=
  ∀ r r', i = .run r → j = .run r' → r.styles ≠ r'.styles

theorem cons_of_apart {i : Inline} {is : List Inline} (h : ∀ j ∈ is.head?, i.Apart j) :
    cons i is = i :: is := by
  unfold cons
  split
  case h_1 r r' rest => rw [if_neg (h _ rfl r r' rfl rfl)]
  case h_2 => rfl

theorem join_of_apart {is : List Inline} (he : ∀ i ∈ is, i.isEmpty = false)
    (h : is.IsChain Apart) : join is = is := by
  rw [join, List.filter_eq_self.mpr fun i hi => by simp [he i hi]]
  clear he
  induction is with
  | nil => rfl
  | cons i is ih =>
    rw [List.isChain_cons] at h
    rw [List.foldr_cons, ih h.right, cons_of_apart h.left]

theorem isChain_cons {i : Inline} {is : List Inline} (h : is.IsChain Apart) :
    (cons i is).IsChain Apart := by
  unfold cons
  split
  case h_1 r r' rest =>
    rw [List.isChain_cons] at h
    split
    case isTrue hs =>
      refine List.isChain_cons.mpr ⟨fun j hj q q' hq hq' => ?_, h.right⟩
      cases hq
      exact hs ▸ h.left j hj r' q' rfl hq'
    case isFalse hs =>
      exact List.isChain_cons_cons.mpr ⟨fun q q' hq hq' => by cases hq; cases hq'; exact hs,
        List.isChain_cons.mpr h⟩
  case h_2 hr =>
    refine List.isChain_cons.mpr ⟨fun j hj q q' hq hq' => ?_, h⟩
    cases is with
    | nil => cases hj
    | cons k is => cases hj; exact (hr q q' is hq (by rw [hq'])).elim

theorem isChain_join (is : List Inline) : (join is).IsChain Apart := by
  rw [join]
  induction is.filter (!·.isEmpty) with
  | nil => exact .nil
  | cons i is ih => exact isChain_cons ih

theorem join_eq_self_iff {is : List Inline} (he : ∀ i ∈ is, i.isEmpty = false) :
    join is = is ↔ is.IsChain Apart :=
  ⟨fun h => h ▸ isChain_join is, join_of_apart he⟩

end Inline

namespace Node

theorem runs_eq_ofGlyphs (n : Node) : n.runs = Inline.ofGlyphs (glyphsAmong ∅ n.children) := by
  rw [runs, Inline.join_eq_ofGlyphs, inlinesAmong_glyphs]

end Node

namespace Tree

variable {t t' : Tree} {i j : NodeId}

theorem runs_eq_ofGlyphs (t : Tree) (i : NodeId) : t.runs i = Inline.ofGlyphs (t.glyphs i) := by
  cases h : t.node? i with
  | none => simp [glyphs, runs, h, Inline.ofGlyphs]
  | some n => simp [runs, h, glyphs_of_node? h, n.runs_eq_ofGlyphs]

theorem runs_eq_iff : t.runs i = t'.runs j ↔ t.glyphs i = t'.glyphs j := by
  constructor
  case mp => exact congrArg (List.flatMap Inline.glyphs)
  case mpr =>
    intro h
    rw [runs_eq_ofGlyphs, runs_eq_ofGlyphs, h]

end Tree

end RichText
