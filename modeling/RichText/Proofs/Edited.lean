import RichText.Restyle
import RichText.Proofs.Around
import RichText.Proofs.Marks

namespace RichText

namespace Node

section Substitute

variable {target : NodeId} {f : Node → List Node}

mutual

theorem leavesEmptyAll_substitute (n : Node) (h : n.LeavesEmpty)
    (hf : ∀ m ∈ n.preorder, m.id = target → LeavesEmptyAll (f m)) :
    LeavesEmptyAll (n.substitute target f) := by
  have ⟨i, k, cs⟩ := n
  rw [leavesEmpty_mk] at h
  rw [substitute]
  split
  case isTrue hi => exact hf _ (mem_preorder_self _) hi
  case isFalse =>
    have hs := leavesEmptyAll_substituteAll cs h.right fun m hm => hf m (.tail _ hm)
    simpa [hs] using fun hk => by simp [h.left hk, substituteAll]

theorem leavesEmptyAll_substituteAll (ns : List Node) (h : LeavesEmptyAll ns)
    (hf : ∀ m ∈ preorderAll ns, m.id = target → LeavesEmptyAll (f m)) :
    LeavesEmptyAll (substituteAll target f ns) := by
  match ns with
  | [] => simp [substituteAll]
  | n :: ns =>
    rw [leavesEmptyAll_cons] at h
    rw [substituteAll, leavesEmptyAll_append]
    exact ⟨leavesEmptyAll_substitute n h.left fun m hm => hf m (List.mem_append_left _ hm),
      leavesEmptyAll_substituteAll ns h.right fun m hm => hf m (List.mem_append_right _ hm)⟩

end

end Substitute

end Node

namespace Tree

variable {t t' : Tree} {block : NodeId} {b : Node} {cs : List Node} {span : Span}

theorem leavesEmpty_iff : t.LeavesEmpty ↔ Node.LeavesEmptyAll t.roots :=
  Iff.rfl

namespace Rebuilt

variable (h : t.Rebuilt t' block cs) (wf : t.WellFormed) (hb : t.node? block = some b)

include h wf hb

theorem leavesEmpty (he : t.LeavesEmpty) (hk : b.kind.isLeaf = false) : t'.LeavesEmpty := by
  have ⟨extra, hr, hl⟩ := h.roots
  have ⟨hcs, hx⟩ := hl (by rw [children_of_node? hb]; exact he.leavesEmptyAll hb)
  rw [leavesEmpty_iff, hr, Node.leavesEmptyAll_append]
  constructor
  case left =>
    refine Node.leavesEmptyAll_substituteAll _ he fun m hm hi => ?_
    rw [Node.eq_of_id_eq wf.nodup hm (mem_of_node? hb) (hi.trans (id_of_node? hb).symm)]
    simpa [hk] using hcs
  case right =>
    refine Node.leavesEmptyAll_iff.mpr fun n hn => Node.leavesEmpty_iff.mpr ?_
    have hc := (hx n hn).children
    exact ⟨fun _ => hc, by simp [hc]⟩

end Rebuilt

-- The content of a block is restyled. Its outline stays, and it is in canonical form unless it stays
-- as a whole.
structure Edited (t t' : Tree) (block : NodeId) (b : Node) (cs : List Node) : Prop extends
    t.Rebuilt t' block cs where
  outline : Node.outlineAll cs = Node.outlineAll b.children
  canonical : Canonical.IsCanonical cs ∨ cs = b.children

theorem Edited.refl (wf : t.WellFormed) (hb : t.node? block = some b) :
    t.Edited t block b b.children where
  toRebuilt := .refl wf hb
  outline := rfl
  canonical := .inr rfl

section Edit

variable (wf : t.WellFormed) (hb : t.node? block = some b) (hs : b.kind.isSolid)

include wf hb hs

theorem edited_applyStyle (h : t.applyStyle block span tag = .ok (r, t')) :
    ∃ cs, t.Edited t' block b cs := by
  have ⟨⟨e, left, right⟩, hn, h⟩ := bind_eq_ok.mp ((applyStyle_eq ..).symm.trans h)
  cases h
  have ⟨_, _, _, hc⟩ := cover_of_node wf hb (Kind.isLeaf_of_isSolid hs) hn
  have ht := Draft.tagged_apply (wf.sound hb) (children_of_node? hb) hc tag
  refine ⟨_, rebuilt_redraft wf hb ht.grows, ?_, .inl (Canonical.isCanonical_canonicalize _)⟩
  rw [Canonical.outline_canonicalize, ht.outline, children_of_node? hb]

theorem edited_clearStyle (h : t.clearStyle block span tag = .ok (r, t')) :
    ∃ cs, t.Edited t' block b cs := by
  have ⟨⟨e, left, right⟩, hn, _⟩ := bind_eq_ok.mp ((clearStyle_eq ..).symm.trans h)
  have ⟨_, _, hlt, hc⟩ := cover_of_node wf hb (Kind.isLeaf_of_isSolid hs) hn
  have ⟨_, _, content, l, r, h', hre, _, hcl⟩ :=
    cleared_clearStyle wf hb (Kind.isWrapper_of_isSolid hs) hn hc hlt tag
  cases h.symm.trans h'
  obtain hre | ⟨rfl, rfl⟩ := hre.cases
  case inl =>
    refine ⟨_, hre, ?_, .inl (Canonical.isCanonical_canonicalize _)⟩
    rw [Canonical.outline_canonicalize, hcl.outline]
  case inr => exact ⟨_, .refl wf hb⟩

theorem edited_apply (span : Span) (tag : String) :
    ∃ cs, t.Edited (t.apply block span tag).2 block b cs := by
  rw [apply_eq]
  cases h : t.applyStyle block span tag with
  | error => exact ⟨_, .refl wf hb⟩
  | ok => exact edited_applyStyle wf hb hs h

theorem edited_clear (span : Span) (tag : String) :
    ∃ cs, t.Edited (t.clear block span tag).2 block b cs := by
  rw [clear_eq]
  cases h : t.clearStyle block span tag with
  | error => exact ⟨_, .refl wf hb⟩
  | ok => exact edited_clearStyle wf hb hs h

theorem edited_toggle (span : Span) (tag : String) :
    ∃ cs, t.Edited (t.toggle block span tag).2 block b cs := by
  rw [toggle]
  split
  case isTrue => exact edited_clear wf hb hs span tag
  case isFalse => exact edited_apply wf hb hs span tag

end Edit

theorem marks_of_node? (h : t.node? block = some b) : t.marks block = b.marks := by
  simp [marks, h]

theorem lines_eq_ofMarks (h : t.node? block = some b) :
    t.lines block = Lines.ofMarks (t.marks block) := by
  rw [marks_of_node? h, ← b.lines_eq_ofMarks, lines, h]
  rfl

theorem textContent_eq_ofMarks (he : t.LeavesEmpty) (h : t.node? block = some b) :
    t.textContent block = .ofList ((t.marks block).filterMap Mark.char?) := by
  rw [marks_of_node? h, ← Node.textContent_eq_ofList (he.node h), textContent, h]
  rfl

-- A block has the content that it had, and what lies elsewhere is where it was.
structure Keeps (t t' : Tree) (block : NodeId) : Prop where
  wf : t'.WellFormed
  leavesEmpty : t'.LeavesEmpty
  marks : t'.marks block = t.marks block
  lines : t'.lines block = t.lines block
  charCount : t'.charCount block = t.charCount block
  textContent : t'.textContent block = t.textContent block
  unmoved : ∀ i, i.index < t.made → t.contains block i = false → t.Unmoved t' i

theorem WellFormed.exists_node? (wf : t.WellFormed) {i : NodeId} (h : i.index < t.made) :
    ∃ n, t.node? i = some n := by
  have ⟨n, hn, e⟩ := Node.mem_idsAll_iff.mp ((wf.mem_iff i).mpr h)
  exact ⟨n, e ▸ node?_of_mem wf.nodup hn⟩

theorem Edited.keeps (h : t.Edited t' block b cs) (wf : t.WellFormed) (he : t.LeavesEmpty)
    (hb : t.node? block = some b) (hs : b.kind.isSolid) : t.Keeps t' block := by
  have hb' := h.node? hb
  have he' := h.leavesEmpty wf hb he (Kind.isLeaf_of_isSolid hs)
  have hm : t'.marks block = t.marks block := by
    rw [marks_of_node? hb', marks_of_node? hb, Node.marks_withChildren h.outline]
  have hl : t'.lines block = t.lines block := by
    rw [lines_eq_ofMarks hb', lines_eq_ofMarks hb, hm]
  exact {
    wf := h.wf
    leavesEmpty := he'
    marks := hm
    lines := hl
    charCount := congrArg Lines.measure hl
    textContent := by rw [textContent_eq_ofMarks he' hb', textContent_eq_ofMarks he hb, hm]
    unmoved := fun i hi ho =>
      have ⟨_, hn⟩ := wf.exists_node? hi
      h.unmoved hn ho }

-- Whatever is done to the styles of a block, its content stays, and so does everything around it. What
-- is refused changes nothing at all.
theorem keeps_restyled (wf : t.WellFormed) (he : t.LeavesEmpty) (hb : t.node? block = some b)
    (hk : b.kind.isSolid) (span : Span) (tag : String) :
    (∀ r t', t.applyStyle block span tag = .ok (r, t') → t.Keeps t' block) ∧
    (∀ r t', t.clearStyle block span tag = .ok (r, t') → t.Keeps t' block) ∧
    t.Keeps (t.apply block span tag).2 block ∧ t.Keeps (t.clear block span tag).2 block ∧
    t.Keeps (t.toggle block span tag).2 block ∧
    (∀ e, t.applyStyle block span tag = .error e → t.apply block span tag = (span, t)) ∧
    (∀ e, t.clearStyle block span tag = .error e → t.clear block span tag = (span, t)) ∧
    (∀ e t', t.tryApply block span tag = (.error e, t') → t' = t) ∧
    ∀ e t', t.tryClear block span tag = (.error e, t') → t' = t := by
  have keeps {t'} : (∃ cs, t.Edited t' block b cs) → t.Keeps t' block :=
    fun ⟨_, h⟩ => h.keeps wf he hb hk
  refine ⟨fun r t' h => ?applied, fun r t' h => ?cleared, ?apply, ?clear, ?toggle,
    fun e h => ?applyError, fun e h => ?clearError, fun e t' h => ?tryApply, fun e t' h => ?tryClear⟩
  case applied => exact keeps (edited_applyStyle wf hb hk h)
  case cleared => exact keeps (edited_clearStyle wf hb hk h)
  case apply => exact keeps (edited_apply wf hb hk span tag)
  case clear => exact keeps (edited_clear wf hb hk span tag)
  case toggle => exact keeps (edited_toggle wf hb hk span tag)
  case applyError =>
    rw [apply_eq, h]
    rfl
  case clearError =>
    rw [clear_eq, h]
    rfl
  case tryApply =>
    rw [tryApply_eq] at h
    split at h <;> cases h
    rfl
  case tryClear =>
    rw [tryClear_eq] at h
    split at h <;> cases h
    rfl

-- The wrapper is cut in two, with the embed and a text beside it.
theorem keeps_restyled_mixed :
    mixed.WellFormed ∧ mixed.LeavesEmpty ∧ (∃ b, mixed.node? ⟨0⟩ = some b ∧ b.kind.isSolid) ∧
      mixed.Keeps (mixed.toggle ⟨0⟩ ⟨⟨⟨3⟩, 1⟩, ⟨⟨8⟩, 1⟩⟩ "b").2 ⟨0⟩ ∧
      (mixed.toggle ⟨0⟩ ⟨⟨⟨3⟩, 1⟩, ⟨⟨8⟩, 1⟩⟩ "b").2 ≠ mixed := by
  have wf : mixed.WellFormed := by decide
  have he : mixed.LeavesEmpty := by decide
  have hb : ∃ b, mixed.node? ⟨0⟩ = some b ∧ b.kind.isSolid := ⟨_, rfl, rfl⟩
  have ⟨b, hn, hk⟩ := hb
  have h := keeps_restyled wf he hn hk ⟨⟨⟨3⟩, 1⟩, ⟨⟨8⟩, 1⟩⟩ "b"
  exact ⟨wf, he, hb, h.right.right.right.right.left, by decide⟩

end Tree

end RichText
