import RichText.Proofs.Outline

namespace RichText

-- What a reader meets in a node, in document order, if wrappers do not show and texts run together.
inductive Mark where
  | char (c : Char)
  | lineBreak (trailing : Bool)
  | enter (id : NodeId) (kind : Kind)
  | leave (id : NodeId)
deriving DecidableEq

namespace Mark

def char? : Mark → Option Char
  | char c => some c
  | lineBreak _ | enter _ _ | leave _ => none

def entered? : Mark → Option (NodeId × Kind)
  | enter i k => some (i, k)
  | char _ | lineBreak _ | leave _ => none

end Mark

namespace Kind

-- What is entered: a kind of node that has a place of its own among the content.
def isSolid (k : Kind) : Bool :=
  !(k.isLeaf || k.isWrapper)

theorem isLeaf_of_isSolid {k : Kind} (h : k.isSolid) : k.isLeaf = false := by
  simp_all [isSolid]

theorem isWrapper_of_isSolid {k : Kind} (h : k.isSolid) : k.isWrapper = false := by
  simp_all [isSolid]

end Kind

namespace Node

mutual

def marks : Node → List Mark
  | mk i k cs =>
    match k with
    | .text s => s.toList.map .char
    | .lineBreak trailing => [.lineBreak trailing]
    | .wrapper _ => marksAll cs
    | k => .enter i k :: (marksAll cs ++ [.leave i])

def marksAll : List Node → List Mark
  | [] => []
  | n :: ns => n.marks ++ marksAll ns

end

theorem marksAll_eq_flatMap (ns : List Node) : marksAll ns = ns.flatMap marks := by
  induction ns with
  | nil => rfl
  | cons n ns ih => simp [marksAll, ih]

@[simp]
theorem marksAll_append (ns ms : List Node) :
    marksAll (ns ++ ms) = marksAll ns ++ marksAll ms := by
  simp [marksAll_eq_flatMap]

end Node

namespace Item

def marks : Item → List Mark
  | char c => [.char c]
  | node n => n.marks

end Item

namespace Node

mutual

theorem outline_marks (n : Node) : n.outline.flatMap Item.marks = n.marks := by
  have ⟨i, k, cs⟩ := n
  cases k
  case text s =>
    rw [outline, marks, List.flatMap_map, List.map_eq_flatMap]
    rfl
  case wrapper => exact outlineAll_marks cs
  all_goals simp [outline, Item.marks]

theorem outlineAll_marks (ns : List Node) : (outlineAll ns).flatMap Item.marks = marksAll ns := by
  match ns with
  | [] => rfl
  | n :: ns => rw [outlineAll, marksAll, List.flatMap_append, outline_marks n, outlineAll_marks ns]

end

theorem marks_withChildren {n : Node} {cs : List Node}
    (h : outlineAll cs = outlineAll n.children) : (n.withChildren cs).marks = n.marks := by
  have hm : marksAll cs = marksAll n.children := by
    rw [← outlineAll_marks, ← outlineAll_marks, h]
  have ⟨i, k, ms⟩ := n
  cases k <;> simp_all [withChildren, marks]

end Node

namespace Lines

def ofMarks : List Mark → List String
  | [] => [""]
  | .char c :: ms => extend (.singleton c) (ofMarks ms)
  | .lineBreak false :: ms => "" :: ofMarks ms
  | .lineBreak true :: ms | .enter _ _ :: ms | .leave _ :: ms => ofMarks ms

theorem extend_extend (s s' : String) (ls : List String) :
    extend s (extend s' ls) = extend (s ++ s') ls := by
  cases ls <;> simp [extend, String.append_assoc]

theorem extend_empty {ls : List String} (h : ls ≠ []) : extend "" ls = ls := by
  cases ls with
  | nil => contradiction
  | cons l ls => simp [extend]

theorem ofMarks_ne_nil (ms : List Mark) : ofMarks ms ≠ [] := by
  fun_induction ofMarks ms with
  | case1 => simp
  | case2 c ms ih => cases h : ofMarks ms <;> simp [extend]
  | case3 ms ih => simp
  | case4 ms ih => exact ih
  | case5 i k ms ih => exact ih
  | case6 i ms ih => exact ih

theorem ofMarks_chars (cs : List Char) (ms : List Mark) :
    ofMarks (cs.map .char ++ ms) = extend (.ofList cs) (ofMarks ms) := by
  induction cs with
  | nil => exact (extend_empty (ofMarks_ne_nil ms)).symm
  | cons c cs ih =>
    rw [List.map_cons, List.cons_append, ofMarks, ih, extend_extend]
    congr 1
    exact String.toList_inj.mp (by simp)

end Lines

namespace Node

mutual

theorem lines_marks {ks : List Kind} {ms : List Mark} (n : Node)
    (h : Lines.ofKinds ks = Lines.ofMarks ms) :
    Lines.ofKinds (n.flow.map kind ++ ks) = Lines.ofMarks (n.marks ++ ms) := by
  have ⟨i, k, cs⟩ := n
  cases k
  case text s =>
    simp [flow, Kind.isText, marks, Lines.ofKinds, Lines.ofMarks_chars, h]
  case lineBreak trailing =>
    cases trailing <;> simp [flow, Kind.isText, Kind.isBreak, marks, Lines.ofKinds, Lines.ofMarks, h]
  case wrapper s => simpa [flow, Kind.isText, Kind.isBreak, marks, Lines.ofKinds] using
      lines_marksAll cs h
  all_goals
    have h : Lines.ofKinds ks = Lines.ofMarks (.leave i :: ms) := h
    simpa [flow, Kind.isText, Kind.isBreak, marks, Lines.ofKinds, Lines.ofMarks] using
      lines_marksAll cs h

theorem lines_marksAll {ks : List Kind} {ms : List Mark} (ns : List Node)
    (h : Lines.ofKinds ks = Lines.ofMarks ms) :
    Lines.ofKinds ((flowAll ns).map kind ++ ks) = Lines.ofMarks (marksAll ns ++ ms) := by
  match ns with
  | [] => exact h
  | n :: ns =>
    rw [flowAll, marksAll, List.map_append, List.append_assoc, List.append_assoc]
    exact lines_marks n (lines_marksAll ns h)

end

theorem lines_eq_ofMarks (n : Node) : n.lines = Lines.ofMarks n.marks := by
  have h : Lines.ofKinds [] = Lines.ofMarks [] := rfl
  simpa [lines] using lines_marks n h

mutual

theorem chars_marks (n : Node) (h : n.LeavesEmpty) :
    n.preorder.flatMap (·.text.toList) = n.marks.filterMap Mark.char? := by
  have ⟨i, k, cs⟩ := n
  rw [leavesEmpty_mk] at h
  cases k
  case text s =>
    have hc : cs = [] := h.left rfl
    subst hc
    simp [preorder, preorderAll, marks, text, Kind.text?, List.filterMap_map, Function.comp_def,
      Mark.char?]
  case lineBreak trailing =>
    have hc : cs = [] := h.left rfl
    subst hc
    rfl
  all_goals
    simpa [preorder, marks, text, Kind.text?, Mark.char?, List.filterMap_cons] using chars_marksAll cs h.right

theorem chars_marksAll (ns : List Node) (h : LeavesEmptyAll ns) :
    (preorderAll ns).flatMap (·.text.toList) = (marksAll ns).filterMap Mark.char? := by
  match ns with
  | [] => rfl
  | n :: ns =>
    rw [leavesEmptyAll_cons] at h
    rw [preorderAll, marksAll, List.flatMap_append, List.filterMap_append, chars_marks n h.left,
      chars_marksAll ns h.right]

end

theorem textContent_eq_ofList {n : Node} (h : n.LeavesEmpty) :
    n.textContent = .ofList (n.marks.filterMap Mark.char?) := by
  apply String.toList_inj.mp
  rw [textContent, String.toList_join, List.flatMap_map, chars_marks n h, String.toList_ofList]

def solidsAll (ns : List Node) : List (NodeId × Kind) :=
  ((preorderAll ns).filter (·.kind.isSolid)).map fun m => (m.id, m.kind)

def solids (n : Node) : List (NodeId × Kind) :=
  (n.preorder.filter (·.kind.isSolid)).map fun m => (m.id, m.kind)

@[simp]
theorem solidsAll_nil : solidsAll [] = [] :=
  rfl

@[simp]
theorem solidsAll_cons (n : Node) (ns : List Node) :
    solidsAll (n :: ns) = n.solids ++ solidsAll ns := by
  simp [solidsAll, solids, preorderAll]

@[simp]
theorem solidsAll_append (ns ms : List Node) :
    solidsAll (ns ++ ms) = solidsAll ns ++ solidsAll ms := by
  simp [solidsAll, preorderAll_append]

theorem solids_eq (n : Node) :
    n.solids = (if n.kind.isSolid then [(n.id, n.kind)] else []) ++ solidsAll n.children := by
  rw [solids, solidsAll, preorder_eq, List.filter_cons]
  split <;> rfl

mutual

theorem entered_marks (n : Node) (h : n.LeavesEmpty) :
    n.marks.filterMap Mark.entered? = n.solids := by
  have ⟨i, k, cs⟩ := n
  rw [leavesEmpty_mk] at h
  rw [solids_eq]
  cases k
  case text s =>
    have hc : cs = [] := h.left rfl
    subst hc
    simp [marks, List.filterMap_map, Function.comp_def, Mark.entered?, Kind.isSolid, Kind.isLeaf,
      Kind.isText]
  case lineBreak trailing =>
    have hc : cs = [] := h.left rfl
    subst hc
    rfl
  all_goals
    simpa [marks, Kind.isSolid, Kind.isLeaf, Kind.isText, Kind.isBreak, Kind.isWrapper,
      Mark.entered?, List.filterMap_cons] using entered_marksAll cs h.right

theorem entered_marksAll (ns : List Node) (h : LeavesEmptyAll ns) :
    (marksAll ns).filterMap Mark.entered? = solidsAll ns := by
  match ns with
  | [] => rfl
  | n :: ns =>
    rw [leavesEmptyAll_cons] at h
    rw [marksAll, solidsAll_cons, List.filterMap_append, entered_marks n h.left,
      entered_marksAll ns h.right]

end

theorem solids_withChildren {n : Node} {cs : List Node}
    (h : outlineAll cs = outlineAll n.children) (hc : LeavesEmptyAll cs)
    (hn : LeavesEmptyAll n.children) : (n.withChildren cs).solids = n.solids := by
  have hs : solidsAll cs = solidsAll n.children := by
    rw [← entered_marksAll cs hc, ← entered_marksAll _ hn, ← outlineAll_marks, h, outlineAll_marks]
  rw [solids_eq, solids_eq n, children_withChildren, hs]
  rfl

section Substitute

variable {target : NodeId} {f : Node → List Node}

mutual

theorem marks_substitute (n : Node) (h : ∀ m ∈ n.preorder, m.id = target → marksAll (f m) = m.marks) :
    marksAll (n.substitute target f) = n.marks := by
  have ⟨i, k, cs⟩ := n
  rw [substitute]
  split
  case isTrue hi => exact h _ (mem_preorder_self _) hi
  case isFalse =>
    have hs := marksAll_substituteAll cs fun m hm => h m (.tail _ hm)
    cases k <;> simp [marksAll, marks, hs]

theorem marksAll_substituteAll (ns : List Node)
    (h : ∀ m ∈ preorderAll ns, m.id = target → marksAll (f m) = m.marks) :
    marksAll (substituteAll target f ns) = marksAll ns := by
  match ns with
  | [] => rfl
  | n :: ns => rw [substituteAll, marksAll_append, marksAll,
      marks_substitute n fun m hm => h m (List.mem_append_left _ hm),
      marksAll_substituteAll ns fun m hm => h m (List.mem_append_right _ hm)]

end

mutual

theorem solids_substitute (n : Node)
    (h : ∀ m ∈ n.preorder, m.id = target → solidsAll (f m) = m.solids) :
    solidsAll (n.substitute target f) = n.solids := by
  have ⟨i, k, cs⟩ := n
  rw [substitute]
  split
  case isTrue hi => exact h _ (mem_preorder_self _) hi
  case isFalse =>
    have hs := solidsAll_substituteAll cs fun m hm => h m (.tail _ hm)
    rw [solidsAll_cons, solidsAll_nil, List.append_nil, solids_eq, children_mk, hs,
      solids_eq (mk i k cs)]
    rfl

theorem solidsAll_substituteAll (ns : List Node)
    (h : ∀ m ∈ preorderAll ns, m.id = target → solidsAll (f m) = m.solids) :
    solidsAll (substituteAll target f ns) = solidsAll ns := by
  match ns with
  | [] => rfl
  | n :: ns => rw [substituteAll, solidsAll_append, solidsAll_cons,
      solids_substitute n fun m hm => h m (List.mem_append_left _ hm),
      solidsAll_substituteAll ns fun m hm => h m (List.mem_append_right _ hm)]

end

end Substitute

end Node

namespace Tree

def marks (t : Tree) (id : NodeId) : List Mark :=
  ((t.node? id).map Node.marks).getD []

end Tree

end RichText
