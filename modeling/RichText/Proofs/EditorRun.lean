import RichText.Proofs.Parsed
import RichText.Proofs.RestoreSelection

namespace RichText.Editor

-- What is done with an editor: the surface shows a selection, or it is told to show one, or a style is
-- changed.
inductive Action where
  | select (live : Option LiveSelection)
  | setCaret (p : BlockPoint)
  | setSelection (s : BlockSelection)
  | restyle (command : Command) (tag : String)

def act (e : Editor) : Action → Editor
  | .select live => { e with live }
  | .setCaret p => e.setCaret p
  | .setSelection s => e.setSelection s
  | .restyle command tag => (e.restyle command tag).2

def run (e : Editor) (actions : List Action) : Editor :=
  actions.foldl act e

variable {e e' e'' : Editor} {a : Action} {actions : List Action}

theorem root_restyle (e : Editor) (command : Command) (tag : String) :
    (e.restyle command tag).2.root = e.root := by
  obtain h | ⟨target, clears, _, h⟩ := e.restyle_cases command tag
  case inl => rw [h]
  case inr =>
    rw [h, root_restore]
    rfl

theorem root_act (e : Editor) (a : Action) : (e.act a).root = e.root := by
  cases a with
  | restyle command tag => exact root_restyle e command tag
  | select | setCaret | setSelection => rfl

theorem revised_act (wf : e.tree.WellFormed) (he : e.tree.LeavesEmpty) (a : Action) :
    e.tree.Revised (e.act a).tree e.covered := by
  cases a with
  | restyle command tag => exact revised_restyle wf (fun _ _ _ hb => he.node hb) command tag
  | select | setCaret | setSelection => exact .refl wf

-- An editor whose document has been restyled, in whatever blocks and cells.
structure Keeps (e e' : Editor) : Prop where
  root : e'.root = e.root
  wf : e'.tree.WellFormed
  leavesEmpty : e'.tree.LeavesEmpty
  isCanonical : e.tree.IsCanonical → e'.tree.IsCanonical
  alike : ∀ {i n}, e.tree.node? i = some n → n.kind.isSolid →
    ∃ n', e'.tree.node? i = some n' ∧ n.Alike n'

namespace Keeps

theorem refl (wf : e.tree.WellFormed) (he : e.tree.LeavesEmpty) : e.Keeps e where
  root := rfl
  wf := wf
  leavesEmpty := he
  isCanonical := id
  alike hn _ := ⟨_, hn, .refl _⟩

theorem trans (h : e.Keeps e') (h' : e'.Keeps e'') : e.Keeps e'' where
  root := h'.root.trans h.root
  wf := h'.wf
  leavesEmpty := h'.leavesEmpty
  isCanonical hc := h'.isCanonical (h.isCanonical hc)
  alike hn hs :=
    have ⟨_, hn', ha⟩ := h.alike hn hs
    have ⟨n'', hn'', ha'⟩ := h'.alike hn' (ha.kind ▸ hs)
    ⟨n'', hn'', ha.trans ha'⟩

end Keeps

theorem keeps_act (wf : e.tree.WellFormed) (he : e.tree.LeavesEmpty) (a : Action) :
    e.Keeps (e.act a) :=
  have h := revised_act wf he a
  { root := e.root_act a
    wf := h.wf
    leavesEmpty := h.leavesEmpty he
    isCanonical := h.isCanonical
    alike := fun hn hs => h.alike hn (.inl hs) }

theorem keeps_run (wf : e.tree.WellFormed) (he : e.tree.LeavesEmpty) (actions : List Action) :
    e.Keeps (e.run actions) := by
  induction actions generalizing e with
  | nil => exact .refl wf he
  | cons a as ih =>
    have h := keeps_act wf he a
    exact h.trans (ih h.wf h.leavesEmpty)

namespace Keeps

variable (h : e.Keeps e')

include h

theorem lines (hn : e.tree.node? i = some n) (hs : n.kind.isSolid) :
    e'.tree.lines i = e.tree.lines i := by
  have ⟨n', hn', ha⟩ := h.alike hn hs
  rw [Tree.lines_eq_ofMarks hn', Tree.lines_eq_ofMarks hn, Tree.marks_of_node? hn',
    Tree.marks_of_node? hn, ha.marks]

theorem blockAt? (hr : e.tree.node? e.root = some r) (hs : r.kind.isSolid) (index : Nat) :
    e'.document.blockAt? index = e.document.blockAt? index := by
  have ⟨_, hr', ha⟩ := h.alike hr hs
  have hroot : e'.document.root = e.root := h.root
  rw [Document.blockAt?, hroot]
  exact Tree.blockAt?_congr hr hr' ha.solids index

end Keeps

theorem wellFormed_of_parse {config : Config} (h : parse markup config = .ok e) :
    e.tree.WellFormed ∧ e.tree.LeavesEmpty ∧
      ∃ r, e.tree.node? e.root = some r ∧ r.kind = .element "div" := by
  have ⟨_, hd, h⟩ := bind_eq_ok.mp h
  cases h
  exact Document.wellFormed_of_parse hd

-- Whatever is done with a document that is read in canonical form, at every step its blocks and cells
-- are in canonical form, blocks are found by their indices as before, and all lines are as before. The
-- next action changes no node outside of what is selected then.
theorem run_parse {config : Config} (h : parse markup config = .ok e) (hc : e.tree.IsCanonical)
    (actions : List Action) :
    let e' := e.run actions
    e'.tree.WellFormed ∧ e'.tree.IsCanonical ∧
    (∀ index, e'.document.blockAt? index = e.document.blockAt? index) ∧
    (∀ b ∈ Node.preorderAll e.tree.roots, b.kind.isRegion →
      e'.tree.lines b.id = e.tree.lines b.id) ∧
    ∀ a i, i.index < e'.tree.made → (∀ block, e'.Covers block → e'.tree.contains block i = false) →
      e'.tree.Unmoved (e'.act a).tree i := by
  have ⟨wf, he, r, hr, hrk⟩ := wellFormed_of_parse h
  have hs : r.kind.isSolid := by
    rw [hrk]
    rfl
  have hk := keeps_run wf he actions
  refine ⟨hk.wf, hk.isCanonical hc, hk.blockAt? hr hs, fun b hb hbk => ?lines,
    fun a i hi ho => ?unmoved⟩
  case lines => exact hk.lines (Tree.node?_of_mem wf.nodup hb) (Kind.isSolid_of_isRegion hbk)
  case unmoved =>
    have ⟨n, hn⟩ := hk.wf.exists_node? hi
    have ho : ∀ block ∈ (e.run actions).covered, (e.run actions).tree.contains block i = false :=
      fun block hb => ho block (mem_covered.mp hb)
    exact ((revised_act hk.wf hk.leavesEmpty a).unmoved hn ho).left

def twoTone : Editor where
  document := {
    tree := {
      roots := [.mk ⟨0⟩ (.element "div") [
        .mk ⟨1⟩ (.block "p" 0 true) [
          .mk ⟨2⟩ (.wrapper (.single "b")) [.mk ⟨3⟩ (.text "ab") []],
          .mk ⟨4⟩ (.text "c") []],
        .mk ⟨5⟩ (.block "p" 1 true) [
          .mk ⟨6⟩ (.text "d") [], .mk ⟨7⟩ (.lineBreak false) [], .mk ⟨8⟩ (.text "e") []]]]
      made := 9 }
    root := ⟨0⟩ }
  live := none
  config := {}

def twoToneMarkup : String :=
  "<p data-block-index=\"0\"><span class=\"b\">ab</span>c</p>" ++
    "<p data-block-index=\"1\">d<br/>e</p>"

theorem parse_twoTone : parse twoToneMarkup {} = .ok twoTone := by
  have h : (Document.parse twoToneMarkup).toOption.map (fun d => (d.tree, d.root)) =
      some (twoTone.tree, twoTone.root) := by decide +kernel
  rw [parse]
  cases hd : Document.parse twoToneMarkup with
  | error => simp [hd, Except.toOption] at h
  | ok d =>
    simp only [hd, Except.toOption, Option.map_some, Option.some.injEq, Prod.mk.injEq] at h
    have e : d = twoTone.document := by
      obtain ⟨_, _⟩ := d
      cases h.left
      cases h.right
      rfl
    rw [e]
    rfl

-- The style is given to all that is selected, and could then be taken away again.
theorem run_parse_twoTone :
    let e := twoTone.run [.setSelection ⟨⟨0, 1⟩, ⟨1, 1⟩⟩, .restyle .toggle "b"]
    twoTone.tree.IsCanonical ∧ e.tree.WellFormed ∧ e.tree.IsCanonical ∧
      e.document.blockAt? 1 = some ⟨5⟩ ∧ e.tree.lines ⟨5⟩ = ["d", "e"] ∧
      e.tree.styles ⟨1⟩ (e.tree.span ⟨1⟩ 0 3) = .single "b" ∧
      e.tree.Unmoved (e.act (.restyle .clear "b")).tree ⟨0⟩ := by
  have hc : twoTone.tree.IsCanonical := by decide
  have ⟨wf, hc', hb, hl, hu⟩ := run_parse parse_twoTone hc
    [.setSelection ⟨⟨0, 1⟩, ⟨1, 1⟩⟩, .restyle .toggle "b"]
  refine ⟨hc, wf, hc', (hb 1).trans (by decide), ?lines, by decide +kernel, ?unmoved⟩
  case lines =>
    exact (hl (.mk ⟨5⟩ (.block "p" 1 true) (twoTone.tree.children ⟨5⟩)) (by decide) rfl).trans
      (by decide)
  case unmoved =>
    have ho : ∀ block ∈ (twoTone.run [.setSelection ⟨⟨0, 1⟩, ⟨1, 1⟩⟩, .restyle .toggle "b"]).covered,
        (twoTone.run [.setSelection ⟨⟨0, 1⟩, ⟨1, 1⟩⟩, .restyle .toggle "b"]).tree.contains block ⟨0⟩ =
          false := by decide +kernel
    exact hu (.restyle .clear "b") ⟨0⟩ (by decide +kernel) fun block hb => ho block (mem_covered.mpr hb)

end RichText.Editor
