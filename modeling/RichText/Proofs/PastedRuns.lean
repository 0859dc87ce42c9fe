import RichText.Paste
import RichText.Proofs.Joined
import RichText.Proofs.Identity

namespace RichText

namespace Run

def isBlank (r : Run) : Bool :=
  r.text.isEmpty

-- Two runs that text with their styles would show as one.
def Differs (r r' : Run) : Prop :=
  r.styles ≠ r'.styles

-- Past blank runs, the next text has the given styles. Text without styles is told from such text
-- only by a blank run with styles before it.
def Follows (s : StyleSet) (rs : List Run) : Prop :=
  ∃ bs r cs, rs = bs ++ r :: cs ∧ r.isBlank = false ∧ r.styles = s ∧
    (∀ b ∈ bs, b.isBlank) ∧ (s = ∅ → ∃ b ∈ bs, b.styles ≠ ∅)

-- Two runs with the same styles come one after the other, with nothing but blank runs between.
def Abut (rs : List Run) : Prop :=
  ∃ as r cs, rs = as ++ r :: cs ∧ r.isBlank = false ∧ Follows r.styles cs

variable {r r' : Run} {rs : List Run} {s : StyleSet}

theorem apart_run : (Inline.run r).Apart (.run r') ↔ r.Differs r' := by
  simp [Inline.Apart, Differs]

theorem isBlank_append : (Run.mk (r.text ++ r'.text) s).isBlank = (r.isBlank && r'.isBlank) := by
  simp only [isBlank, Bool.eq_iff_iff (b := _ && _), String.isEmpty_iff, Bool.and_eq_true,
    String.append_eq_empty_iff]

theorem abut_nil : ¬Abut [] := by
  rintro ⟨as, r, cs, e, -⟩
  simp at e

theorem follows_nil : ¬Follows s [] := by
  rintro ⟨bs, r, cs, e, -⟩
  simp at e

theorem abut_cons : Abut (r :: rs) ↔ r.isBlank = false ∧ Follows r.styles rs ∨ Abut rs := by
  constructor
  case mp =>
    rintro ⟨as, q, cs, e, hq, hf⟩
    cases as with
    | nil => cases e; exact .inl ⟨hq, hf⟩
    | cons a as => cases e; exact .inr ⟨as, q, cs, rfl, hq, hf⟩
  case mpr =>
    rintro (⟨hr, hf⟩ | ⟨as, q, cs, rfl, hq, hf⟩)
    case inl => exact ⟨[], r, rs, rfl, hr, hf⟩
    case inr => exact ⟨r :: as, q, cs, rfl, hq, hf⟩

theorem follows_empty_cons (h : r.styles = ∅) :
    Follows ∅ (r :: rs) ↔ r.isBlank ∧ Follows ∅ rs := by
  constructor
  case mp =>
    rintro ⟨bs, q, cs, e, hq, hs, hb, hne⟩
    cases bs with
    | nil => simp at hne
    | cons b bs =>
      cases e
      refine ⟨hb _ (.head _), bs, q, cs, rfl, hq, hs, fun b hm => hb b (.tail _ hm), fun _ => ?_⟩
      simpa [h] using hne
  case mpr =>
    rintro ⟨hr, bs, q, cs, rfl, hq, hs, hb, hne⟩
    have ⟨b, hm, hb'⟩ := hne rfl
    exact ⟨r :: bs, q, cs, rfl, hq, hs, List.forall_mem_cons.mpr ⟨hr, hb⟩,
      fun _ => ⟨b, .tail _ hm, hb'⟩⟩

-- Unless a run goes on right away, the first text that is not blank decides.
theorem follows_cons_iff (h : s = ∅ → r.styles ≠ ∅) :
    Follows s (r :: rs) ↔ ((r :: rs).find? (!·.isBlank)).map styles = some s := by
  constructor
  case mp =>
    rintro ⟨bs, q, cs, e, hq, hs, hb, -⟩
    have hf : (r :: rs).find? (!·.isBlank) = some q :=
      List.find?_eq_some_iff_append.mpr ⟨by simp [hq], bs, cs, e, by simpa using hb⟩
    rw [hf, ← hs]
    rfl
  case mpr =>
    intro hf
    obtain ⟨q, hf, hs⟩ := Option.map_eq_some_iff.mp hf
    obtain ⟨hq, bs, cs, e, hb⟩ := List.find?_eq_some_iff_append.mp hf
    refine ⟨bs, q, cs, e, by simpa using hq, hs, by simpa using hb, fun hs' => ?_⟩
    cases bs with
    | nil => cases e; exact absurd (hs.trans hs') (h hs')
    | cons b bs => cases e; exact ⟨r, .head _, h hs'⟩

end Run

namespace Paste

variable {c : PasteConfig} {held r : Run} {rs : List Run}

def run (c : PasteConfig) (n : Node) : Run :=
  ⟨text n, styles c n⟩

def gatherInto (held : Run) : List Run → List Run
  | [] => [held]
  | r :: rs =>
    if held.styles = ∅ ∧ r.styles = ∅ then gatherInto ⟨held.text ++ r.text, ∅⟩ rs
    else held :: gatherInto r rs

def gather : List Run → List Run
  | [] => []
  | r :: rs => gatherInto r rs

theorem gatherInto_of_styled (h : held.styles ≠ ∅) : gatherInto held rs = held :: gather rs := by
  cases rs with
  | nil => rfl
  | cons r rs => rw [gatherInto, if_neg fun h' => h h'.left]; rfl

-- It makes no difference whether nodes are gathered to runs or the runs that they are.
theorem runsOf_eq (c : PasteConfig) (plain : Option String) (ns : List Node) :
    runsOf c plain ns = match plain with
      | none => gather (ns.map (run c))
      | some s => gatherInto ⟨s, ∅⟩ (ns.map (run c)) := by
  induction ns generalizing plain with
  | nil => cases plain <;> rfl
  | cons n ns ih =>
    rw [runsOf, ih, ih, List.map_cons]
    by_cases h : styles c n = ∅
    case pos =>
      have hr : run c n = ⟨text n, ∅⟩ := by rw [run, h]
      rw [if_pos (StyleSet.isEmpty_iff.mpr h), hr]
      cases plain with
      | none => simp [gather]
      | some s => simp [gatherInto]
    case neg =>
      have hn : (run c n).styles ≠ ∅ := h
      rw [if_neg (by simpa using h)]
      cases plain with
      | none => exact (gatherInto_of_styled hn).symm
      | some s =>
        simp only
        rw [gatherInto, if_neg fun h' => hn h'.right, gatherInto_of_styled hn]
        rfl

theorem find?_gatherInto (held : Run) (rs : List Run) :
    ((gatherInto held rs).find? (!·.isBlank)).map Run.styles =
      ((held :: rs).find? (!·.isBlank)).map Run.styles := by
  induction rs generalizing held with
  | nil => rfl
  | cons r rs ih =>
    rw [gatherInto]
    split
    case isFalse => cases h : held.isBlank <;> simp [List.find?_cons, h, ih]
    case isTrue h =>
      rw [ih, List.find?_cons, Run.isBlank_append]
      cases hh : held.isBlank
      case false => simp [hh, h.left]
      case true => cases hr : r.isBlank <;> simp [hh, hr, h.right]

theorem isChain_gatherInto (held : Run) (rs : List Run) :
    ((gatherInto held rs).filter (!·.isBlank)).IsChain Run.Differs ↔ ¬Run.Abut (held :: rs) := by
  induction rs generalizing held with
  | nil =>
    have h : ¬Run.Abut [held] := by simp [Run.abut_cons, Run.follows_nil, Run.abut_nil]
    simp only [gatherInto, h, not_false_eq_true, iff_true]
    cases hh : held.isBlank <;> simp [hh]
  | cons r rs ih =>
    rw [gatherInto]
    split
    case isFalse h =>
      have hf : Run.Follows held.styles (r :: rs) ↔ _ :=
        Run.follows_cons_iff fun hs hr => h ⟨hs, hr⟩
      rw [← find?_gatherInto, ← List.head?_filter] at hf
      rw [Run.abut_cons, hf, not_or, ← ih]
      cases hh : held.isBlank
      case true => simp [hh]
      case false =>
        rw [List.filter_cons_of_pos (by simp [hh]), List.isChain_cons]
        generalize (gatherInto r rs).filter (!·.isBlank) = l
        cases l <;> simp [Run.Differs, eq_comm]
    case isTrue h =>
      rw [ih, Run.abut_cons, Run.abut_cons, Run.abut_cons, Run.isBlank_append, h.left, h.right,
        Run.follows_empty_cons h.right]
      cases held.isBlank <;> cases r.isBlank <;> simp

theorem isChain_gather (rs : List Run) :
    ((gather rs).filter (!·.isBlank)).IsChain Run.Differs ↔ ¬Run.Abut rs := by
  cases rs with
  | nil => simp [gather, Run.abut_nil]
  | cons r rs => exact isChain_gatherInto r rs

def clipped (c : PasteConfig) (markup : String) : List Run :=
  let root : Node := .mk ⟨0⟩ (.element "fragment") (Markup.parseAfter [] 1 markup).1.nodes
  (contentRoot root).children.map (run c)

theorem sanitize_nonblank (c : PasteConfig) (markup : String) :
    ∀ r ∈ sanitize c markup, r.isBlank = false := by
  intro r hr
  rw [sanitize] at hr
  split at hr
  case isTrue h =>
    rw [Bool.and_eq_true, Bool.not_eq_true'] at h
    rw [List.mem_singleton.mp hr]
    exact h.right
  case isFalse => simpa [Run.isBlank] using (List.mem_filter.mp hr).right

theorem isChain_sanitize (c : PasteConfig) (markup : String) :
    (sanitize c markup).IsChain Run.Differs ↔ ¬Run.Abut (clipped c markup) := by
  have hg := fun ns => (runsOf_eq c none ns).symm
  simp only at hg
  rw [← isChain_gather, clipped, hg, sanitize]
  split
  case isTrue h =>
    rw [Bool.and_eq_true, List.isEmpty_iff] at h
    have hr : (runsOf c none _).filter (!·.isBlank) = [] := h.left
    simp [hr]
  case isFalse => rfl

theorem inlinesAmong_nodesOf (next : Nat) (rs : List Run) :
    Node.inlinesAmong ∅ (nodesOf next rs).1 = rs.map .run := by
  induction rs generalizing next with
  | nil => rfl
  | cons r rs ih =>
    rw [nodesOf, Node.inlinesAmong, ih, nodeOf]
    split
    case isTrue h => simp [Node.inlines, ← StyleSet.isEmpty_iff.mp h]
    case isFalse => simp [Node.inlines, Node.inlinesAmong]

end Paste

namespace Tree

variable {t : Tree}

theorem WellFormed.runs_pasteFragment (wf : t.WellFormed) (rs : List Run) :
    (t.pasteFragment rs).2.runs (t.pasteFragment rs).1 = Inline.join (rs.map .run) := by
  have hm : ∀ n ∈ Node.preorderAll t.roots, n.id ≠ ⟨t.made⟩ := fun n hn h =>
    Nat.lt_irrefl _ ((wf.mem_iff ⟨t.made⟩).mp (h ▸ List.mem_map_of_mem hn))
  rw [runs, node?_eq_find?, pasteFragment, Node.preorderAll_append, List.find?_append,
    List.find?_eq_none.mpr (by simpa using hm)]
  simp [Node.preorderAll, Node.preorder, Node.id, Node.runs, Node.children,
    Paste.inlinesAmong_nodesOf]

end Tree

namespace Paste

-- Pasted runs are maximal, and are read again as they are, exactly if no two nodes with the same
-- styles come one after the other in the markup.
theorem runs_sanitize (c : PasteConfig) (markup : String) :
    let rs := sanitize c markup
    let pasted := Tree.empty.pasteFragment rs
    (∀ r ∈ rs, r.text ≠ "") ∧ pasted.2.runs pasted.1 = Inline.join (rs.map .run) ∧
      (pasted.2.runs pasted.1 = rs.map .run ↔ rs.IsChain Run.Differs) ∧
      (rs.IsChain Run.Differs ↔ ¬Run.Abut (clipped c markup)) := by
  intro rs pasted
  have hb : ∀ r ∈ rs, r.isBlank = false := sanitize_nonblank c markup
  have hr : pasted.2.runs pasted.1 = Inline.join (rs.map .run) :=
    Tree.WellFormed.runs_pasteFragment (by decide) rs
  have he : ∀ i ∈ rs.map Inline.run, i.isEmpty = false := List.forall_mem_map.mpr hb
  refine ⟨fun r hm => by simpa [Run.isBlank] using hb r hm, hr, ?_, isChain_sanitize c markup⟩
  simp only [hr, Inline.join_eq_self_iff he, List.isChain_map, Run.apart_run]

end Paste

end RichText
