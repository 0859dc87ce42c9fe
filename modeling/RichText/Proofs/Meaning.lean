import RichText.Proofs.Edited
import RichText.Proofs.Joined

namespace RichText

namespace Node

def fixturesAll (ns : List Node) : List Node :=
  (preorderAll ns).filter (!·.isStyleable)

def fixtures (n : Node) : List Node :=
  n.preorder.filter (!·.isStyleable)

theorem fixtures_eq (n : Node) :
    n.fixtures = (if n.isStyleable then [] else [n]) ++ fixturesAll n.children := by
  rw [fixtures, fixturesAll, preorder_eq, List.filter_cons]
  cases n.isStyleable <;> rfl

theorem fixtures_withChildren {n : Node} {cs : List Node}
    (h : fixturesAll cs = fixturesAll n.children) :
    (n.withChildren cs).fixtures.map (fun m => (m.id, m.kind)) =
      n.fixtures.map fun m => (m.id, m.kind) := by
  rw [fixtures_eq, fixtures_eq n, children_withChildren, h, List.map_append, List.map_append]
  congr 1
  change (if n.isStyleable then [] else [n.withChildren cs]).map _ = _
  split <;> rfl

theorem fixturesAll_cons (n : Node) (ns : List Node) :
    fixturesAll (n :: ns) = n.fixtures ++ fixturesAll ns := by
  simp [fixturesAll, fixtures, preorderAll]

end Node

namespace Item

def fixtures : Item → List Node
  | char _ => []
  | node n => n.fixtures

end Item

namespace Node

mutual

theorem outline_fixtures (n : Node) (h : n.LeavesEmpty) :
    n.outline.flatMap Item.fixtures = n.fixtures := by
  have ⟨i, k, cs⟩ := n
  rw [leavesEmpty_mk] at h
  cases k
  case text s =>
    have hc : cs = [] := h.left rfl
    subst hc
    rw [fixtures_eq, outline, List.flatMap_map]
    exact List.flatMap_eq_nil_iff.mpr fun _ _ => rfl
  case wrapper =>
    rw [fixtures_eq]
    exact outlineAll_fixtures cs h.right
  all_goals exact List.flatMap_singleton ..

theorem outlineAll_fixtures (ns : List Node) (h : LeavesEmptyAll ns) :
    (outlineAll ns).flatMap Item.fixtures = fixturesAll ns := by
  match ns with
  | [] => rfl
  | n :: ns =>
    rw [leavesEmptyAll_cons] at h
    rw [outlineAll, fixturesAll_cons, List.flatMap_append, outline_fixtures n h.left,
      outlineAll_fixtures ns h.right]

end

end Node

namespace Canonical

theorem fixtures_canonicalize {ns : List Node} (h : Node.LeavesEmptyAll ns) :
    Node.fixturesAll (canonicalize ns).kept = Node.fixturesAll ns := by
  rw [← Node.outlineAll_fixtures _ (leavesEmptyAll_canonicalize h), ← Node.outlineAll_fixtures _ h,
    outline_canonicalize]

end Canonical

namespace Tree

variable {t : Tree} {block : NodeId} {b : Node}

-- The nodes of a subtree other than texts and wrappers, in document order.
def fixtures (t : Tree) (id : NodeId) : List (NodeId × Kind) :=
  ((t.node? id).map fun n => n.fixtures.map fun m => (m.id, m.kind)).getD []

theorem made_canonicalize : (t.canonicalize block).2.made = t.made := by
  rw [canonicalize]
  split <;> rfl

section

variable (hb : t.node? block = some b)

include hb

theorem glyphs_canonicalize : (t.canonicalize block).2.glyphs block = t.glyphs block := by
  rw [glyphs_of_node? hb, glyphs_of_node? (node?_canonicalize hb)]
  exact Canonical.glyphs_canonicalize b.children

theorem lines_canonicalize : (t.canonicalize block).2.lines block = t.lines block := by
  have hb' := node?_canonicalize hb
  rw [lines_eq_ofMarks hb, lines_eq_ofMarks hb', marks_of_node? hb, marks_of_node? hb',
    Node.marks_withChildren (Canonical.outline_canonicalize b.children)]

theorem fixturesAll_canonicalize (he : t.LeavesEmpty) :
    Node.fixturesAll ((t.canonicalize block).2.children block) =
      Node.fixturesAll (t.children block) := by
  rw [children_of_node? hb, children_of_node? (node?_canonicalize hb)]
  exact Canonical.fixtures_canonicalize (he.leavesEmptyAll hb)

theorem fixtures_canonicalize (he : t.LeavesEmpty) :
    (t.canonicalize block).2.fixtures block = t.fixtures block := by
  simpa [fixtures, hb, node?_canonicalize hb] using
    Node.fixtures_withChildren (Canonical.fixtures_canonicalize (he.leavesEmptyAll hb))

end

-- Canonical form is another way to write down the same block: it reads the same, all but its texts
-- and wrappers is where it was, and so is everything around it.
theorem canonicalize_preserves (wf : t.WellFormed) (he : t.LeavesEmpty)
    (hb : t.node? block = some b) :
    (t.canonicalize block).2.runs block = t.runs block ∧
    (t.canonicalize block).2.lines block = t.lines block ∧
    (t.canonicalize block).2.fixtures block = t.fixtures block ∧
    Node.fixturesAll ((t.canonicalize block).2.children block) =
      Node.fixturesAll (t.children block) ∧
    (t.canonicalize block).2.made = t.made ∧ (t.canonicalize block).2.WellFormed ∧
    ∀ i, i.index < t.made → t.contains block i = false →
      t.Unmoved (t.canonicalize block).2 i := by
  have h := rebuilt_canonicalize wf hb
  refine ⟨runs_eq_iff.mpr (glyphs_canonicalize hb), lines_canonicalize hb,
    fixtures_canonicalize hb he, fixturesAll_canonicalize hb he, made_canonicalize, h.wf,
    fun i hi ho => ?_⟩
  have ⟨_, hn⟩ := wf.exists_node? hi
  exact h.unmoved hn ho

-- A block far from canonical form: a wrapper without styles around another wrapper, texts that stand
-- side by side, wrappers to be run together, and nodes of other kinds among them.
def tangled : Tree where
  roots := [.mk ⟨0⟩ (.element "div") [
    .mk ⟨1⟩ (.block "p" 0 true) [
      .mk ⟨2⟩ (.text "a") [],
      .mk ⟨3⟩ (.wrapper ∅) [
        .mk ⟨4⟩ (.text "b") [],
        .mk ⟨5⟩ (.wrapper (.single "i")) [.mk ⟨6⟩ (.text "c") [], .mk ⟨7⟩ (.lineBreak false) []]],
      .mk ⟨8⟩ (.text "") [],
      .mk ⟨9⟩ (.wrapper (.single "i")) [
        .mk ⟨10⟩ (.embed "math") [.mk ⟨11⟩ (.lineBreak false) [], .mk ⟨12⟩ (.text "d") []]],
      .mk ⟨13⟩ (.element "p") [.mk ⟨14⟩ (.text "e") [], .mk ⟨15⟩ (.text "f") []]],
    .mk ⟨16⟩ (.block "p" 1 true) [.mk ⟨17⟩ (.text "") []]]]
  made := 18

theorem canonicalize_preserves_tangled :
    tangled.WellFormed ∧ tangled.LeavesEmpty ∧ (tangled.canonicalize ⟨1⟩).1 = true ∧
      (tangled.canonicalize ⟨1⟩).2.runs ⟨1⟩ = tangled.runs ⟨1⟩ ∧
      (tangled.canonicalize ⟨1⟩).2.fixtures ⟨1⟩ = tangled.fixtures ⟨1⟩ ∧
      tangled.Unmoved (tangled.canonicalize ⟨1⟩).2 ⟨16⟩ := by
  have wf : tangled.WellFormed := by decide
  have he : tangled.LeavesEmpty := by decide
  have hb : tangled.node? ⟨1⟩ = some _ := rfl
  have ⟨hr, _, hf, _, _, _, hu⟩ := canonicalize_preserves wf he hb
  exact ⟨wf, he, by decide, hr, hf, hu ⟨16⟩ (by decide) (by decide)⟩

end Tree

end RichText
