import RichText.Proofs.Arena.Calls
import RichText.Proofs.Arena.Markup
import RichText.Proofs.Arena.Restyle

namespace RichText

-- A call that changes an arena.
inductive Edit where
  | create (kind : Kind)
  | append (parent child : NodeId)
  | insert (parent : NodeId) (index : Nat) (child : NodeId)
  | insertBefore (reference child : NodeId)
  | insertAfter (reference child : NodeId)
  | detach (node : NodeId)
  | splitText (node : NodeId) (offset : Nat)
  | unwrap (node : NodeId)
  | moveRun (first target : NodeId)
  | parseInto (parent : NodeId) (markup : String)
  | pasteFragment (runs : List Run)
  | canonicalize (block : NodeId)
  | tidy (block : NodeId)
  | apply (block : NodeId) (span : Span) (tag : String)
  | clear (block : NodeId) (span : Span) (tag : String)
  | toggle (block : NodeId) (span : Span) (tag : String)

namespace Arena

-- By the stored parents, the way upward from a node comes to another one, or begins there.
def IsAbove (a : Arena) (upper lower : NodeId) : Prop :=
  Relation.ReflTransGen (fun p c => a.parent? c = some p) upper lower

end Arena

namespace Edit

-- What a call leaves of an arena, and nothing where one of its loops does not end.
def exec (a : Arena) : Edit → Option Arena
  | create kind => some (a.create kind).2
  | append parent child => some (a.append parent child)
  | insert parent index child => some (a.insert parent index child)
  | insertBefore reference child => some (a.insertBefore reference child)
  | insertAfter reference child => some (a.insertAfter reference child)
  | detach node => some (a.detach node)
  | splitText node offset => some (a.splitText node offset).2
  | unwrap node => some (a.unwrap node)
  | moveRun first target => a.moveRun target first
  | parseInto parent markup => (a.parseInto parent markup).map Prod.fst
  | pasteFragment runs => some (a.pasteFragment runs).2
  | canonicalize block => (a.canonicalize block).map Prod.snd
  | tidy block => some (a.tidy block).2
  | apply block span tag => (a.apply block span tag).map Prod.snd
  | clear block span tag => (a.clear block span tag).map Prod.snd
  | toggle block span tag => (a.toggle block span tag).map Prod.snd

def run (t : Tree) : Edit → Tree
  | create kind => (t.create kind).2
  | append parent child => t.append parent child
  | insert parent index child => t.insert parent index child
  | insertBefore reference child => t.insertBefore reference child
  | insertAfter reference child => t.insertAfter reference child
  | detach node => t.detach node
  | splitText node offset => (t.splitText node offset).2
  | unwrap node => t.unwrap node
  | moveRun first target => t.moveRun first target
  | parseInto parent markup => (t.parseInto parent markup).1
  | pasteFragment runs => (t.pasteFragment runs).2
  | canonicalize block => (t.canonicalize block).2
  | tidy block => (t.tidy block).2
  | apply block span tag => (t.apply block span tag).2
  | clear block span tag => (t.clear block span tag).2
  | toggle block span tag => (t.toggle block span tag).2

def nodes : Edit → List NodeId
  | create _ | pasteFragment _ => []
  | append a b | insert a _ b | insertBefore a b | insertAfter a b | moveRun a b => [a, b]
  | detach a | splitText a _ | unwrap a | parseInto a _ | canonicalize a | tidy a => [a]
  | apply a s _ | clear a s _ | toggle a s _ => [a, s.start.node, s.stop.node]

-- No node moves beneath itself, and no run to where it is.
def Moveable (a : Arena) : Edit → Prop
  | append parent child | insert parent _ child => ¬a.IsAbove child parent
  | insertBefore reference child | insertAfter reference child =>
    a.IsAbove child reference → reference = child
  | moveRun first target => a.parent? first ≠ some target ∧
    ∀ i ∈ first :: a.siblingsAfter first, ¬a.IsAbove i target
  | _ => True

structure Allowed (a : Arena) (e : Edit) : Prop where
  made : ∀ i ∈ e.nodes, i.index < a.size
  moveable : e.Moveable a

theorem conserves_run {t : Tree} {e : Edit} (wf : t.WellFormed) (ha : ∀ i ∈ e.nodes, i.index < t.made) :
    t.Conserves (e.run t) := by
  cases e with
  | create kind => exact Tree.conserves_create t kind
  | append parent child => exact wf.conserves_append parent child
  | insert parent index child => exact wf.conserves_insert parent index child
  | insertBefore reference child => exact wf.conserves_insertBefore reference child
  | insertAfter reference child => exact wf.conserves_insertAfter reference child
  | detach node => exact wf.conserves_detach node
  | splitText node offset => exact wf.conserves_splitText node offset
  | unwrap node => exact wf.conserves_unwrap node
  | moveRun first target => exact wf.conserves_moveRun first target
  | parseInto parent markup => exact wf.conserves_parseInto (ha parent (.head _)) markup
  | pasteFragment runs => exact Tree.conserves_pasteFragment t runs
  | canonicalize block => exact wf.conserves_canonicalize block
  | tidy block => exact wf.conserves_tidy (ha block (.head _))
  | apply block span tag => exact wf.conserves_apply block span tag
  | clear block span tag => exact wf.conserves_clear block span tag
  | toggle block span tag => exact wf.conserves_toggle block span tag

end Edit

namespace Arena

-- Every parent and every child is a node of the arena. Parents and child lists agree: a node is in the
-- child list of its parent, once, and in no other. No way upward comes back to where it began, and every
-- way downward or upward ends.
structure Linked (a : Arena) : Prop extends a.Paired where
  child_lt : ∀ p, ∀ c ∈ a.children p, c.index < a.size
  parent_lt : ∀ c p, a.parent? c = some p → p.index < a.size
  acyclic : ∀ i, ¬Relation.TransGen (fun p c => a.parent? c = some p) i i
  downward : WellFounded fun c p => a.parent? c = some p
  upward : WellFounded fun p c => a.parent? c = some p

inductive Reached : Arena → Prop
  | empty : Reached empty
  | step {a a' : Arena} (h : Reached a) {e : Edit} (ha : e.Allowed a) (hr : e.exec a = some a') : Reached a'

variable {a a' : Arena} {t : Tree} {e : Edit} {i j : NodeId}

namespace Holds

variable (h : a.Holds t)

include h

theorem linked : a.Linked where
  toPaired := h.stores.paired
  child_lt _ _ := h.stores.paired.child_lt
  parent_lt _ _ := h.stores.paired.parent_lt
  acyclic := by simpa only [h.parent?_eq] using h.wf.linked.acyclic
  downward := by simpa only [h.parent?_eq] using h.wf.linked.downward
  upward := by simpa only [h.parent?_eq] using h.wf.linked.upward

theorem isAbove_iff (hj : j.index < t.made) : a.IsAbove i j ↔ t.contains i j := by
  induction j using h.wf.wellFounded_parent.induction with
  | _ j ih =>
    rw [IsAbove, Relation.ReflTransGen.cases_tail_iff]
    cases hp : t.parent? j with
    | none => simp [h.parent?_eq, hp, h.wf.contains_of_root hj hp]
    | some p =>
      have ih := ih p hp (h.wf.linked.parent_lt j p hp)
      simp [h.parent?_eq, hp, h.wf.contains_of_parent? hp, ← ih, IsAbove]

theorem not_contains (hj : j.index < t.made) (hn : ¬a.IsAbove i j) : t.contains i j = false :=
  Bool.eq_false_iff.mpr (mt (h.isAbove_iff hj).mpr hn)

-- Every loop of a call ends, and what is stored then is the tree that the call leads to.
theorem exec (ha : e.Allowed a) : ∃ a', e.exec a = some a' ∧ a'.Holds (e.run t) := by
  have hmade : ∀ i ∈ e.nodes, i.index < t.made := h.size_eq ▸ ha.made
  have hmove := ha.moveable
  cases e with
  | create kind => exact ⟨_, rfl, (h.create kind).right⟩
  | append parent child =>
    have hp := hmade parent (.head _)
    exact ⟨_, rfl, h.append (hmade child (by simp [Edit.nodes])) hp (h.not_contains hp hmove)⟩
  | insert parent index child =>
    have hp := hmade parent (.head _)
    exact ⟨_, rfl, h.insert (hmade child (by simp [Edit.nodes])) hp (h.not_contains hp hmove) index⟩
  | insertBefore reference child =>
    have hr := hmade reference (.head _)
    exact ⟨_, rfl, h.insertBefore (hmade child (by simp [Edit.nodes])) hr
      fun hc => hmove ((h.isAbove_iff hr).mpr hc)⟩
  | insertAfter reference child =>
    have hr := hmade reference (.head _)
    exact ⟨_, rfl, h.insertAfter (hmade child (by simp [Edit.nodes])) hr
      fun hc => hmove ((h.isAbove_iff hr).mpr hc)⟩
  | detach node => exact ⟨_, rfl, h.detach node⟩
  | splitText node offset => exact ⟨_, rfl, (h.splitText (hmade node (.head _)) offset).right⟩
  | unwrap node => exact ⟨_, rfl, h.unwrap (hmade node (.head _))⟩
  | moveRun first target =>
    have ht := hmade target (by simp [Edit.nodes])
    exact h.moveRun ht (hmade first (.head _)) (h.parent?_eq first ▸ hmove.left)
      fun i hi => h.not_contains ht (hmove.right i hi)
  | parseInto parent markup =>
    obtain ⟨a', hr, h'⟩ := h.parseInto (hmade parent (.head _)) markup
    exact ⟨a', by simp [Edit.exec, hr], h'⟩
  | pasteFragment runs => exact ⟨_, rfl, (h.pasteFragment runs).right⟩
  | canonicalize block =>
    obtain ⟨b, hb⟩ := h.wf.exists_node? (hmade block (.head _))
    obtain ⟨a', hr, h'⟩ := h.canonicalize hb
    exact ⟨a', by simp [Edit.exec, hr], h'⟩
  | tidy block =>
    obtain ⟨b, hb⟩ := h.wf.exists_node? (hmade block (.head _))
    obtain ⟨a', hr, h'⟩ := h.tidy hb
    exact ⟨a', by simp [Edit.exec, hr], h'⟩
  | apply block span tag =>
    obtain ⟨b, hb⟩ := h.wf.exists_node? (hmade block (.head _))
    obtain ⟨_, a', hr, h'⟩ := h.apply hb span tag
    exact ⟨a', by simp [Edit.exec, hr], h'⟩
  | clear block span tag =>
    obtain ⟨b, hb⟩ := h.wf.exists_node? (hmade block (.head _))
    obtain ⟨_, a', hr, h'⟩ := h.clear hb span tag
    exact ⟨a', by simp [Edit.exec, hr], h'⟩
  | toggle block span tag =>
    obtain ⟨b, hb⟩ := h.wf.exists_node? (hmade block (.head _))
    obtain ⟨_, a', hr, h'⟩ := h.toggle hb span tag
    exact ⟨a', by simp [Edit.exec, hr], h'⟩

end Holds

theorem Reached.exists_holds (h : a.Reached) : ∃ t, a.Holds t := by
  induction h with
  | empty => exact ⟨Tree.empty, .empty⟩
  | step _ ha hr ih =>
    obtain ⟨t, h⟩ := ih
    obtain ⟨a', hr', h'⟩ := h.exec ha
    cases hr.symm.trans hr'
    exact ⟨_, h'⟩

-- Whatever calls led to an arena, its links are in order. The next call ends, loses no node, leaves the
-- links in order, and does to the tree that the arena holds what it does to a tree.
theorem linked_exec (h : a.Reached) (ha : e.Allowed a) :
    a.Linked ∧ ∃ a', e.exec a = some a' ∧ a'.Linked ∧ a.size ≤ a'.size ∧
      ∃ t, a.Holds t ∧ a'.Holds (e.run t) := by
  obtain ⟨t, h⟩ := h.exists_holds
  obtain ⟨a', hr, h'⟩ := h.exec ha
  have hle := (Edit.conserves_run h.wf (h.size_eq ▸ ha.made)).le
  exact ⟨h.linked, a', hr, h'.linked, by rwa [h.size_eq, h'.size_eq], t, h, h'⟩

theorem not_isAbove_of_root (hp : a.parent? j = none) (hne : j ≠ i) : ¬a.IsAbove i j := by
  rw [IsAbove, Relation.ReflTransGen.cases_tail_iff]
  simp [hp, hne]

-- A text and the break after it go from an element into a new wrapper.
theorem linked_exec_gathered :
    let a : Arena := ⟨[
      ⟨.element "div", none, [⟨1⟩, ⟨2⟩]⟩,
      ⟨.text "a", some ⟨0⟩, []⟩,
      ⟨.lineBreak false, some ⟨0⟩, []⟩,
      ⟨.wrapper (.single "bold"), none, []⟩]⟩
    let e : Edit := .moveRun ⟨1⟩ ⟨3⟩
    a.Reached ∧ e.Allowed a ∧ a.Linked ∧ ∃ a', e.exec a = some a' ∧ a'.Linked ∧ a.size ≤ a'.size ∧
      a'.children ⟨0⟩ = [] ∧ a'.children ⟨3⟩ = [⟨1⟩, ⟨2⟩] ∧ a'.parent? ⟨2⟩ = some ⟨3⟩ := by
  intro a e
  have h₀ : Reached ⟨[⟨.element "div", none, []⟩]⟩ :=
    .step .empty (e := .create (.element "div")) ⟨by decide, trivial⟩ rfl
  have h₁ : Reached ⟨[⟨.element "div", none, []⟩, ⟨.text "a", none, []⟩]⟩ :=
    .step h₀ (e := .create (.text "a")) ⟨by decide, trivial⟩ rfl
  have h₂ : Reached ⟨[⟨.element "div", none, [⟨1⟩]⟩, ⟨.text "a", some ⟨0⟩, []⟩]⟩ :=
    .step h₁ (e := .append ⟨0⟩ ⟨1⟩) ⟨by decide, not_isAbove_of_root rfl (by decide)⟩ rfl
  have h₃ : Reached ⟨[⟨.element "div", none, [⟨1⟩]⟩, ⟨.text "a", some ⟨0⟩, []⟩,
      ⟨.lineBreak false, none, []⟩]⟩ :=
    .step h₂ (e := .create (.lineBreak false)) ⟨by decide, trivial⟩ rfl
  have h₄ : Reached ⟨[⟨.element "div", none, [⟨1⟩, ⟨2⟩]⟩, ⟨.text "a", some ⟨0⟩, []⟩,
      ⟨.lineBreak false, some ⟨0⟩, []⟩]⟩ :=
    .step h₃ (e := .append ⟨0⟩ ⟨2⟩) ⟨by decide, not_isAbove_of_root rfl (by decide)⟩ rfl
  have h : a.Reached :=
    .step h₄ (e := .create (.wrapper (.single "bold"))) ⟨by decide, trivial⟩ rfl
  have ha : e.Allowed a := by
    have hi : ∀ i ∈ ⟨1⟩ :: a.siblingsAfter ⟨1⟩, ⟨3⟩ ≠ i := by decide
    exact ⟨by decide, by decide, fun i h => not_isAbove_of_root rfl (hi i h)⟩
  obtain ⟨hl, a', hr, hl', hle, -⟩ := linked_exec h ha
  have hr' : e.exec a = some ((a.append ⟨3⟩ ⟨1⟩).append ⟨3⟩ ⟨2⟩) := by
    have h₁ : a.next? ⟨1⟩ = some ⟨2⟩ := by decide
    have h₂ : (a.append ⟨3⟩ ⟨1⟩).next? ⟨2⟩ = none := by decide
    rw [Edit.exec, moveRun, h₁, moveRun, h₂, moveRun]
  obtain rfl : _ = a' := Option.some.inj (hr'.symm.trans hr)
  exact ⟨h, ha, hl, _, hr, hl', hle, by decide, by decide, by decide⟩

end Arena

end RichText
