import RichText.Lines
import RichText.Run
import RichText.Proofs.Identity

namespace RichText

namespace StyleSet

@[simp]
theorem empty_union (s : StyleSet) : ∅ ∪ s = s :=
  ext fun _ => by simp

@[simp]
theorem union_empty (s : StyleSet) : s ∪ ∅ = s :=
  ext fun _ => by simp

theorem union_assoc (s₁ s₂ s₃ : StyleSet) : s₁ ∪ s₂ ∪ s₃ = s₁ ∪ (s₂ ∪ s₃) :=
  ext fun _ => by simp [or_assoc]

theorem insert_union (s₁ s₂ : StyleSet) (tag : String) :
    s₁.insert tag ∪ s₂ = (s₁ ∪ s₂).insert tag :=
  ext fun _ => by simp [or_assoc]

theorem erase_union {s₂ : StyleSet} (h : tag ∉ s₂) (s₁ : StyleSet) :
    s₁.erase tag ∪ s₂ = (s₁ ∪ s₂).erase tag :=
  ext fun t => by
    simp only [mem_union, mem_erase]
    grind

theorem erase_union_of_mem {s₂ : StyleSet} (h : tag ∈ s₂) (s₁ : StyleSet) :
    s₁.erase tag ∪ s₂ = s₁ ∪ s₂ :=
  ext fun t => by
    simp only [mem_union, mem_erase]
    grind

theorem erase_of_not_mem {s : StyleSet} (h : tag ∉ s) : s.erase tag = s :=
  ext fun t => by
    simp only [mem_erase]
    grind

end StyleSet

-- What stands at one offset of a block: a char with all its styles, or a line break.
inductive Glyph where
  | char (c : Char) (styles : StyleSet)
  | lineBreak
deriving DecidableEq

namespace Glyph

def hasStyle (tag : String) : Glyph → Bool
  | char _ s => tag ∈ s
  | lineBreak => false

def mapStyles (f : StyleSet → StyleSet) : Glyph → Glyph
  | char c s => char c (f s)
  | lineBreak => lineBreak

def addStyle (tag : String) : Glyph → Glyph :=
  mapStyles (·.insert tag)

def removeStyle (tag : String) : Glyph → Glyph :=
  mapStyles (·.erase tag)

-- The styles of a wrapper around the glyph come on top of its own.
def within (s : StyleSet) : Glyph → Glyph :=
  mapStyles (s ∪ ·)

@[simp]
theorem within_empty : within ∅ = id := by
  funext g
  cases g <;> simp [within, mapStyles]

theorem within_within (s₁ s₂ : StyleSet) (g : Glyph) :
    within s₁ (within s₂ g) = within (s₁ ∪ s₂) g := by
  cases g <;> simp [within, mapStyles, StyleSet.union_assoc]

theorem within_insert (s : StyleSet) (tag : String) (g : Glyph) :
    within (s.insert tag) g = addStyle tag (within s g) := by
  cases g <;> simp [within, addStyle, mapStyles, StyleSet.insert_union]

-- A style comes from the wrappers around a glyph only where the glyph does not have it by itself.
theorem within_erase (s : StyleSet) (tag : String) (g : Glyph) :
    within (s.erase tag) g =
      if g.hasStyle tag then within s g else removeStyle tag (within s g) := by
  cases g with
  | lineBreak => simp [within, removeStyle, mapStyles]
  | char c own =>
    simp only [within, removeStyle, mapStyles, hasStyle, decide_eq_true_eq]
    split
    case isTrue h => rw [StyleSet.erase_union_of_mem h]
    case isFalse h => rw [StyleSet.erase_union h]

theorem removeStyle_of_not_hasStyle {g : Glyph} (h : g.hasStyle tag = false) :
    g.removeStyle tag = g := by
  cases g with
  | lineBreak => rfl
  | char c s =>
    simp only [hasStyle, decide_eq_false_iff_not] at h
    simp [removeStyle, mapStyles, StyleSet.erase_of_not_mem h]

end Glyph

namespace Inline

def glyphs : Inline → List Glyph
  | run r => r.text.toList.map (.char · r.styles)
  | lineBreak => [.lineBreak]

theorem glyphs_of_isEmpty {i : Inline} (h : i.isEmpty) : i.glyphs = [] := by
  cases i <;> simp_all [isEmpty, glyphs]

theorem flatMap_glyphs_cons (i : Inline) (is : List Inline) :
    (cons i is).flatMap glyphs = i.glyphs ++ is.flatMap glyphs := by
  unfold cons
  split
  case h_1 r r' rest =>
    split
    case isTrue h => simp [glyphs, h]
    case isFalse => rfl
  case h_2 => rfl

theorem flatMap_glyphs_join (is : List Inline) : (join is).flatMap glyphs = is.flatMap glyphs := by
  unfold join
  induction is with
  | nil => rfl
  | cons i is ih =>
    rw [List.filter_cons]
    split
    case isTrue => rw [List.foldr_cons, flatMap_glyphs_cons, ih]; rfl
    case isFalse h => rw [ih, List.flatMap_cons, glyphs_of_isEmpty (by simpa using h)]; rfl

end Inline

namespace Node

def glyphs (styles : StyleSet) (n : Node) : List Glyph :=
  (n.inlines styles).flatMap Inline.glyphs

def glyphsAmong (styles : StyleSet) (ns : List Node) : List Glyph :=
  ns.flatMap (glyphs styles)

@[simp]
theorem glyphsAmong_nil : glyphsAmong styles [] = [] :=
  rfl

@[simp]
theorem glyphsAmong_cons :
    glyphsAmong styles (n :: ns) = n.glyphs styles ++ glyphsAmong styles ns := by
  simp [glyphsAmong]

@[simp]
theorem glyphsAmong_append (ns ms : List Node) :
    glyphsAmong styles (ns ++ ms) = glyphsAmong styles ns ++ glyphsAmong styles ms := by
  simp [glyphsAmong]

theorem inlinesAmong_glyphs (ns : List Node) :
    (inlinesAmong styles ns).flatMap Inline.glyphs = glyphsAmong styles ns := by
  induction ns with
  | nil => rfl
  | cons n ns ih => simp [inlinesAmong, glyphs, ih]

theorem runs_glyphs (n : Node) : n.runs.flatMap Inline.glyphs = glyphsAmong ∅ n.children := by
  rw [runs, Inline.flatMap_glyphs_join, inlinesAmong_glyphs]

@[simp]
theorem glyphs_text : (mk i (.text s) cs).glyphs styles = s.toList.map (.char · styles) := by
  simp [glyphs, inlines, Inline.glyphs]

@[simp]
theorem glyphs_lineBreak :
    (mk i (.lineBreak trailing) cs).glyphs styles = if trailing then [] else [.lineBreak] := by
  cases trailing <;> simp [glyphs, inlines, Inline.glyphs]

@[simp]
theorem glyphs_wrapper :
    (mk i (.wrapper own) cs).glyphs styles = glyphsAmong (styles ∪ own) cs := by
  simp [glyphs, inlines, inlinesAmong_glyphs]

@[simp]
theorem glyphs_embed : (mk i (.embed tag) cs).glyphs styles = glyphsAmong styles cs := by
  simp [glyphs, inlines, inlinesAmong_glyphs]

@[simp]
theorem glyphs_block :
    (mk i (.block tag index editable) cs).glyphs styles = glyphsAmong styles cs := by
  simp [glyphs, inlines, inlinesAmong_glyphs]

@[simp]
theorem glyphs_cell : (mk i (.cell tag index) cs).glyphs styles = glyphsAmong styles cs := by
  simp [glyphs, inlines, inlinesAmong_glyphs]

@[simp]
theorem glyphs_element : (mk i (.element tag) cs).glyphs styles = glyphsAmong styles cs := by
  simp [glyphs, inlines, inlinesAmong_glyphs]

mutual

theorem glyphs_eq_within (n : Node) : n.glyphs styles = (n.glyphs ∅).map (Glyph.within styles) := by
  have ⟨i, k, cs⟩ := n
  cases k
  case text => simp [Glyph.within, Glyph.mapStyles]
  case lineBreak trailing => cases trailing <;> simp [Glyph.within, Glyph.mapStyles]
  case wrapper own =>
    have h (s : StyleSet) : glyphsAmong s cs = _ := glyphsAmong_eq_within cs
    simp [h (styles ∪ own), h own, Glyph.within_within, Function.comp_def]
  all_goals simpa using glyphsAmong_eq_within cs

theorem glyphsAmong_eq_within (ns : List Node) :
    glyphsAmong styles ns = (glyphsAmong ∅ ns).map (Glyph.within styles) := by
  match ns with
  | [] => rfl
  | n :: ns => rw [glyphsAmong_cons, glyphsAmong_cons, List.map_append, ← glyphs_eq_within n,
      ← glyphsAmong_eq_within ns]

end

theorem glyphs_insert (n : Node) (tag : String) :
    n.glyphs (styles.insert tag) = (n.glyphs styles).map (Glyph.addStyle tag) := by
  have h : n.glyphs styles = _ := n.glyphs_eq_within
  rw [glyphs_eq_within, h, List.map_map]
  exact List.map_congr_left fun g _ => Glyph.within_insert ..

end Node

theorem Lines.measure_ofKinds (ks : List Kind) :
    measure (ofKinds ks) = (ks.map Kind.width).sum := by
  fun_induction ofKinds ks with
  | case1 => rfl
  | case2 s ks ih => simp [measure_extend (ofKinds_ne_nil ks), Kind.width, ih]
  | case3 ks ih => simp [measure_cons (ofKinds_ne_nil ks), Kind.width, ih]
  | case4 k ks _ _ ih =>
    have : k.width = 0 := by
      unfold Kind.width
      split <;> simp_all
    simp [this, ih]

namespace Node

theorem charCount_eq_sum (n : Node) : n.charCount = (n.flow.map (·.kind.width)).sum := by
  simp [charCount, lines, Lines.measure_ofKinds, Function.comp_def]

mutual

theorem length_glyphs_eq_sum (n : Node) :
    (n.glyphs styles).length = (n.flow.map (·.kind.width)).sum := by
  have ⟨i, k, cs⟩ := n
  cases k
  case text => simp [flow, Kind.isText, Kind.width, String.length_toList]
  case lineBreak trailing =>
    cases trailing <;> simp [flow, Kind.isText, Kind.isBreak, Kind.width]
  all_goals simp [flow, Kind.isText, Kind.isBreak, Kind.width, length_glyphsAmong_eq_sum cs]

theorem length_glyphsAmong_eq_sum (ns : List Node) :
    (glyphsAmong styles ns).length = ((flowAll ns).map (·.kind.width)).sum := by
  match ns with
  | [] => rfl
  | n :: ns => simp [flowAll, length_glyphs_eq_sum n, length_glyphsAmong_eq_sum ns]

end

@[simp]
theorem length_glyphs (n : Node) : (n.glyphs styles).length = n.charCount := by
  rw [length_glyphs_eq_sum, charCount_eq_sum]

end Node

namespace Tree

def glyphs (t : Tree) (id : NodeId) : List Glyph :=
  (t.runs id).flatMap Inline.glyphs

theorem glyphs_of_node? {t : Tree} {id : NodeId} (h : t.node? id = some n) :
    t.glyphs id = Node.glyphsAmong ∅ n.children := by
  simp [glyphs, runs, h, Node.runs_glyphs]

end Tree

end RichText
