import RichText.Proofs.Arena.Stack
import RichText.Proofs.Around
import RichText.Proofs.Count
import RichText.Proofs.Joined
import RichText.Proofs.Marks

namespace RichText

theorem getElem?_flatMap_eq_some_iff {f : α → List β} {xs : List α} :
    (xs.flatMap f)[o]? = some y ↔
      ∃ us x vs k, xs = us ++ x :: vs ∧ (f x)[k]? = some y ∧ (us.flatMap f).length + k = o := by
  constructor
  case mp =>
    induction xs generalizing o with
    | nil => simp
    | cons x xs ih =>
      rw [List.flatMap_cons, List.getElem?_append]
      intro h
      split at h
      case isTrue => exact ⟨[], x, xs, o, rfl, h, by simp⟩
      case isFalse hlt =>
        obtain ⟨us, x', vs, k, rfl, hk, ho⟩ := ih h
        refine ⟨x :: us, x', vs, k, rfl, hk, ?_⟩
        rw [List.flatMap_cons, List.length_append]
        omega
  case mpr =>
    rintro ⟨us, x, vs, k, rfl, hk, rfl⟩
    have hl : k < (f x).length := (List.getElem?_eq_some_iff.mp hk).choose
    rw [List.flatMap_append, List.getElem?_append_right (by omega), List.flatMap_cons,
      List.getElem?_append_left (by omega), Nat.add_sub_cancel_left, hk]

namespace Inline

def text : Inline → String
  | run r => r.text
  | lineBreak => ""

def lines (is : List Inline) : List String :=
  (is.splitOn lineBreak).map fun piece => String.join (piece.map text)

variable {is : List Inline}

theorem lines_ne_nil (is : List Inline) : lines is ≠ [] := by
  simp [lines, List.splitOn, List.splitOnP_ne_nil]

theorem lines_run (r : Run) (is : List Inline) :
    lines (.run r :: is) = Lines.extend r.text (lines is) := by
  rw [lines, lines, List.splitOn, List.splitOn, List.splitOnP_cons_eq_if_modifyHead,
    if_neg (by simp)]
  cases h : is.splitOnP (· == lineBreak) with
  | nil => exact absurd h (List.splitOnP_ne_nil _ is)
  | cons piece pieces => simp [Lines.extend, text, String.join_cons]

theorem lines_lineBreak (is : List Inline) : lines (.lineBreak :: is) = "" :: lines is := by
  simp [lines, List.splitOn, List.splitOnP_cons_eq_if_modifyHead]

theorem lines_cons (i : Inline) (is : List Inline) : lines (cons i is) = lines (i :: is) := by
  unfold cons
  split
  case h_1 r r' rest =>
    split
    case isTrue => simp [lines_run, Lines.extend_extend]
    case isFalse => rfl
  case h_2 => rfl

theorem lines_of_isEmpty {i : Inline} (h : i.isEmpty) (is : List Inline) :
    lines (i :: is) = lines is := by
  cases i with
  | lineBreak => contradiction
  | run r =>
    have hr : r.text = "" := by simpa [isEmpty] using h
    rw [lines_run, hr, Lines.extend_empty (lines_ne_nil is)]

theorem lines_cons_congr {js : List Inline} (i : Inline) (h : lines is = lines js) :
    lines (i :: is) = lines (i :: js) := by
  cases i <;> simp [lines_run, lines_lineBreak, h]

theorem lines_join (is : List Inline) : lines (join is) = lines is := by
  rw [join]
  induction is with
  | nil => rfl
  | cons i is ih =>
    rw [List.filter_cons]
    split
    case isTrue => rw [List.foldr_cons, lines_cons, lines_cons_congr i ih]
    case isFalse h => rw [ih, lines_of_isEmpty (by simpa using h)]

theorem isEmpty_cons {i j : Inline} (hi : i.isEmpty = false) (h : ∀ j ∈ is, j.isEmpty = false)
    (hj : j ∈ cons i is) : j.isEmpty = false := by
  unfold cons at hj
  split at hj
  case h_2 => exact (List.mem_cons.mp hj).elim (· ▸ hi) (h j)
  case h_1 r r' rest =>
    split at hj
    case isFalse => exact (List.mem_cons.mp hj).elim (· ▸ hi) (h j)
    case isTrue =>
      cases List.mem_cons.mp hj
      case inl e => simp_all [isEmpty]
      case inr hj => exact h j (.tail _ hj)

theorem isEmpty_join {j : Inline} (hj : j ∈ join is) : j.isEmpty = false := by
  rw [join] at hj
  have h : ∀ i ∈ is.filter (!·.isEmpty), i.isEmpty = false := by simp
  generalize is.filter (!·.isEmpty) = ks at h hj
  induction ks generalizing j with
  | nil => contradiction
  | cons i ks ih =>
    rw [List.forall_mem_cons] at h
    exact isEmpty_cons h.left (fun j hj => ih h.right hj) hj

end Inline

namespace Node

mutual

theorem lines_inlines {is : List Inline} {ks : List Kind} (n : Node)
    (h : Inline.lines is = Lines.ofKinds ks) :
    Inline.lines (n.inlines styles ++ is) = Lines.ofKinds (n.flow.map kind ++ ks) := by
  have ⟨i, k, cs⟩ := n
  cases k
  case text s => simp [inlines, flow, Kind.isText, Lines.ofKinds, Inline.lines_run, h]
  case lineBreak trailing =>
    cases trailing <;>
      simp [inlines, flow, Kind.isText, Kind.isBreak, Lines.ofKinds, Inline.lines_lineBreak, h]
  all_goals
    simpa [inlines, flow, Kind.isText, Kind.isBreak, Lines.ofKinds] using lines_inlinesAmong cs h

theorem lines_inlinesAmong {is : List Inline} {ks : List Kind} (ns : List Node)
    (h : Inline.lines is = Lines.ofKinds ks) :
    Inline.lines (inlinesAmong styles ns ++ is) = Lines.ofKinds ((flowAll ns).map kind ++ ks) := by
  match ns with
  | [] => exact h
  | n :: ns =>
    rw [inlinesAmong, flowAll, List.map_append, List.append_assoc, List.append_assoc]
    exact lines_inlines n (lines_inlinesAmong ns h)

end

theorem lines_runs {n : Node} (h : n.kind.isLeaf = false) : Inline.lines n.runs = n.lines := by
  have hn : Inline.lines [] = Lines.ofKinds [] := rfl
  have hl : Inline.lines (inlinesAmong ∅ n.children ++ []) = _ := lines_inlinesAmong n.children hn
  rw [runs, Inline.lines_join, lines, flow_of_not_isLeaf h, List.map_cons]
  rw [List.append_nil, List.append_nil] at hl
  rw [hl]
  obtain ⟨i, k, cs⟩ := n
  cases k <;> first | contradiction | rfl

mutual

-- The texts and breaks that are read, each with the styles of the wrappers around it.
def readings (styles : StyleSet) : Node → List (Node × StyleSet)
  | mk i k cs =>
    match k with
    | .text _ | .lineBreak _ => [(mk i k cs, styles)]
    | .wrapper own => readingsAmong (styles ∪ own) cs
    | _ => readingsAmong styles cs

def readingsAmong (styles : StyleSet) : List Node → List (Node × StyleSet)
  | [] => []
  | n :: ns => n.readings styles ++ readingsAmong styles ns

end

mutual

theorem glyphs_eq_flatMap (n : Node) :
    n.glyphs styles = (n.readings styles).flatMap fun (m, s) => m.glyphs s := by
  have ⟨i, k, cs⟩ := n
  cases k
  case text => simp [readings]
  case lineBreak => simp [readings]
  all_goals simpa [readings] using glyphsAmong_eq_flatMap cs

theorem glyphsAmong_eq_flatMap (ns : List Node) :
    glyphsAmong styles ns = (readingsAmong styles ns).flatMap fun (m, s) => m.glyphs s := by
  match ns with
  | [] => rfl
  | n :: ns => rw [glyphsAmong_cons, readingsAmong, List.flatMap_append, glyphs_eq_flatMap n,
      glyphsAmong_eq_flatMap ns]

end

mutual

theorem map_fst_readings (n : Node) :
    (n.readings styles).map Prod.fst = n.flow.filter (·.kind.isLeaf) := by
  have ⟨i, k, cs⟩ := n
  cases k
  case text => rfl
  case lineBreak => rfl
  all_goals
    simpa [readings, flow, Kind.isLeaf, Kind.isText, Kind.isBreak] using map_fst_readingsAmong cs

theorem map_fst_readingsAmong (ns : List Node) :
    (readingsAmong styles ns).map Prod.fst = (flowAll ns).filter (·.kind.isLeaf) := by
  match ns with
  | [] => rfl
  | n :: ns => rw [readingsAmong, flowAll, List.map_append, List.filter_append, map_fst_readings n,
      map_fst_readingsAmong ns]

end

theorem mem_of_readingsAmong {ns : List Node} (h : (m, s) ∈ readingsAmong styles ns) :
    m ∈ flowAll ns ∧ m.kind.isLeaf := by
  have hm : m ∈ (readingsAmong styles ns).map Prod.fst := List.mem_map_of_mem h
  rw [map_fst_readingsAmong] at hm
  exact List.mem_filter.mp hm

theorem mem_preorder_of_readings {n : Node} (h : (m, s) ∈ n.readings styles) : m ∈ n.preorder := by
  have hm : m ∈ (n.readings styles).map Prod.fst := List.mem_map_of_mem h
  rw [map_fst_readings] at hm
  exact n.flow_sublist.subset (List.mem_of_mem_filter hm)

-- A wrapper around a node has the style.
def Styles (w m : Node) (tag : String) : Prop :=
  ∃ own, w.kind = .wrapper own ∧ tag ∈ own ∧ m ∈ w.preorder

theorem not_styles {m : Node} {ns : List Node} (h : m.id ∉ idsAll ns) :
    ¬∃ w ∈ preorderAll ns, w.Styles m tag := by
  rintro ⟨w, hw, _, _, _, hm⟩
  exact h (mem_idsAll_iff.mpr ⟨m, (preorderAll_sublist _ hw).subset hm, rfl⟩)

mutual

theorem mem_readings_iff (n : Node) (hd : n.ids.Nodup) (h : (m, s) ∈ n.readings styles) :
    tag ∈ s ↔ tag ∈ styles ∨ ∃ w ∈ n.preorder, w.Styles m tag := by
  have ⟨i, k, cs⟩ := n
  rw [ids_mk, List.nodup_cons] at hd
  have hn : ¬∃ w ∈ preorderAll cs, w.Styles (mk i k cs) tag := not_styles hd.left
  simp only [preorder, List.mem_cons, exists_eq_or_imp]
  cases k
  case text =>
    cases List.mem_singleton.mp h
    exact (or_iff_left (not_or.mpr ⟨by simp [Styles], hn⟩)).symm
  case lineBreak =>
    cases List.mem_singleton.mp h
    exact (or_iff_left (not_or.mpr ⟨by simp [Styles], hn⟩)).symm
  case wrapper own =>
    have hm : m ∈ (mk i (.wrapper own) cs).preorder := mem_preorder_of_readings h
    have hw : (mk i (.wrapper own) cs).Styles m tag ↔ tag ∈ own := by simp [Styles, hm]
    rw [mem_readingsAmong_iff cs hd.right h, StyleSet.mem_union, hw, or_assoc]
  all_goals
    rw [mem_readingsAmong_iff cs hd.right h]
    simp [Styles]

theorem mem_readingsAmong_iff (ns : List Node) (hd : (idsAll ns).Nodup)
    (h : (m, s) ∈ readingsAmong styles ns) :
    tag ∈ s ↔ tag ∈ styles ∨ ∃ w ∈ preorderAll ns, w.Styles m tag := by
  match ns with
  | [] => contradiction
  | n :: ns =>
    rw [idsAll_cons, List.nodup_append] at hd
    simp only [preorderAll, List.mem_append, or_and_right, exists_or]
    cases List.mem_append.mp h
    case inl h =>
      have hm : m.id ∈ n.ids := mem_ids_iff.mpr ⟨m, mem_preorder_of_readings h, rfl⟩
      have hn : ¬∃ w ∈ preorderAll ns, w.Styles m tag :=
        not_styles fun hn => hd.right.right _ hm _ hn rfl
      rw [mem_readings_iff n hd.left h, or_iff_left hn]
    case inr h =>
      have hm := flowAll_sublist ns |>.subset (mem_of_readingsAmong h).left
      have hm : m.id ∈ idsAll ns := mem_idsAll_iff.mpr ⟨m, hm, rfl⟩
      have hn : ¬∃ w ∈ preorderAll [n], w.Styles m tag :=
        not_styles fun hn => hd.right.right _ (by simpa using hn) _ hm rfl
      rw [preorderAll, preorderAll, List.append_nil] at hn
      rw [mem_readingsAmong_iff ns hd.right.left h, ← or_assoc, or_iff_left hn]

end

theorem getElem?_glyphs_eq_some_iff {n : Node} (h : n.kind.isLeaf) : (n.glyphs s)[k]? = some g ↔
    (∃ u c, n.kind = .text u ∧ u.toList[k]? = some c ∧ g = .char c s) ∨
      n.kind = .lineBreak false ∧ k = 0 ∧ g = .lineBreak := by
  obtain ⟨i, kind, cs⟩ := n
  cases kind with
  | text u => simp [eq_comm]
  | lineBreak trailing => cases trailing <;> cases k <;> simp [eq_comm]
  | _ => contradiction

theorem sum_width_filter (ns : List Node) :
    ((ns.filter (·.kind.isLeaf)).map (·.kind.width)).sum = (ns.map (·.kind.width)).sum := by
  induction ns with
  | nil => rfl
  | cons n ns ih =>
    rw [List.filter_cons]
    split
    case isTrue => simp [ih]
    case isFalse h => simp [ih, Kind.width_of_not_isLeaf (by simpa using h)]

theorem length_readings {rs : List (Node × StyleSet)} (h : ∀ r ∈ rs, r.1.kind.isLeaf) :
    (rs.flatMap fun (m, s) => m.glyphs s).length =
      ((rs.map Prod.fst).map (·.kind.width)).sum := by
  rw [List.length_flatMap, List.map_map]
  congr 1
  refine List.map_congr_left fun r hr => ?_
  rw [length_glyphs, charCount_of_isLeaf (h r hr), Function.comp]

theorem countBefore_of_readings {b m : Node} {rs : List (Node × StyleSet)} (hd : b.ids.Nodup)
    (hk : b.kind.isLeaf = false) (h : readingsAmong ∅ b.children = rs ++ (m, s) :: rs') :
    b.countBefore m.id = (rs.flatMap fun (m, s) => m.glyphs s).length := by
  have hl : ∀ r ∈ rs, r.1.kind.isLeaf := fun r hr =>
    (mem_of_readingsAmong (h ▸ List.mem_append_left _ hr)).right
  have hf : b.flow.filter (·.kind.isLeaf) = rs.map Prod.fst ++ m :: rs'.map Prod.fst := by
    rw [flow_of_not_isLeaf hk, List.filter_cons_of_neg (by simp [hk]), ← map_fst_readingsAmong, h]
    simp
  obtain ⟨us, vs, hb, hu, hv⟩ := List.filter_eq_append_iff.mp hf
  obtain ⟨vs, ws, rfl, hv, _⟩ := List.filter_eq_cons_iff.mp hv
  have hd : (b.flow.map id).Nodup := hd.sublist (b.flow_sublist.map id)
  rw [hb, ← List.append_assoc, List.map_append, List.map_cons, List.nodup_middle,
    List.nodup_cons] at hd
  have hm : ∀ n ∈ us ++ vs, n.id ≠ m.id := fun n hn e =>
    hd.left (List.mem_append_left _ (List.mem_map.mpr ⟨n, hn, e⟩))
  have ht : b.flow.takeWhile (·.id ≠ m.id) = us ++ vs := by
    rw [hb, ← List.append_assoc, List.takeWhile_append_of_pos (by simpa using hm),
      List.takeWhile_cons_of_neg (by simp), List.append_nil]
  rw [countBefore_eq_sum, ht, ← sum_width_filter, List.filter_append, hu, length_readings hl,
    List.filter_eq_nil_iff.mpr hv, List.append_nil]

theorem countBefore_of_not_mem {b : Node} (h : ∀ m ∈ b.flow, m.id ≠ i) :
    b.countBefore i = b.charCount := by
  rw [countBefore_eq_sum, charCount_eq_sum, List.takeWhile_eq_self_iff.mpr (by simpa using h)]

theorem getElem?_glyphsAmong_eq_some_iff {b : Node} (hd : b.ids.Nodup)
    (hk : b.kind.isLeaf = false) : (glyphsAmong ∅ b.children)[o]? = some g ↔
      ∃ m s k, (m, s) ∈ readingsAmong ∅ b.children ∧ (m.glyphs s)[k]? = some g ∧
        b.countBefore m.id + k = o := by
  rw [glyphsAmong_eq_flatMap, getElem?_flatMap_eq_some_iff]
  constructor
  case mp =>
    rintro ⟨rs, ⟨m, s⟩, rs', k, h, hg, ho⟩
    exact ⟨m, s, k, by simp [h], hg, countBefore_of_readings hd hk h ▸ ho⟩
  case mpr =>
    rintro ⟨m, s, k, hm, hg, ho⟩
    have ⟨rs, rs', h⟩ := List.append_of_mem hm
    exact ⟨rs, (m, s), rs', k, h, hg, countBefore_of_readings hd hk h ▸ ho⟩

end Node

namespace Tree

-- A wrapper between the root and the node has the style.
def IsWrapped (t : Tree) (root i : NodeId) (tag : String) : Prop :=
  ∃ w own, t.kind? w = some (.wrapper own) ∧ tag ∈ own ∧ w ≠ root ∧ t.contains root w ∧
    t.contains w i

-- What stands at an offset: a char that a text beneath the root has there, with the styles of all
-- the wrappers between, or a break that is not trailing.
inductive Shows (t : Tree) (root : NodeId) (o : Nat) : Glyph → Prop
  | char {styles : StyleSet} (hk : t.kind? i = some (.text s)) (hi : t.contains root i)
    (hc : s.toList[k]? = some c) (ho : t.offsetOf root ⟨i, k⟩ = o)
    (hs : ∀ tag, tag ∈ styles ↔ t.IsWrapped root i tag) :
    Shows t root o (.char c styles)
  | lineBreak (hk : t.kind? i = some (.lineBreak false)) (hi : t.contains root i)
    (ho : t.countBefore root i = o) : Shows t root o .lineBreak

variable {t : Tree} {root : NodeId} {b n : Node}

theorem WellFormed.isWrapped_iff (wf : t.WellFormed) (hb : t.node? root = some b)
    (hn : n ∈ b.preorder) :
    t.IsWrapped root n.id tag ↔ ∃ w ∈ Node.preorderAll b.children, w.Styles n tag := by
  have hn' := wf.node?_of_mem_preorder hb hn
  constructor
  case mp =>
    rintro ⟨i, own, hk, ht, hne, hc, hi⟩
    obtain ⟨w, hw, hk⟩ := Option.map_eq_some_iff.mp hk
    have hm := (wf.contains_iff hb hw).mp hc
    rw [Node.preorder_eq, List.mem_cons] at hm
    refine ⟨w, hm.resolve_left ?_, own, hk, ht, (wf.contains_iff hw hn').mp hi⟩
    rintro rfl
    exact hne ((id_of_node? hw).symm.trans (id_of_node? hb))
  case mpr =>
    rintro ⟨w, hw, own, hk, ht, hm⟩
    have hwb : w ∈ b.preorder := by simp [Node.preorder_eq, hw]
    have hw' := wf.node?_of_mem_preorder hb hwb
    refine ⟨w.id, own, by simp [kind?, hw', hk], ht, ?_, (wf.contains_iff hb hw').mpr hwb,
      (wf.contains_iff hw' hn').mpr hm⟩
    have hd := wf.nodup_ids hb
    rw [Node.ids_eq, List.nodup_cons, id_of_node? hb] at hd
    exact fun e => hd.left (Node.mem_idsAll_iff.mpr ⟨w, hw, e⟩)

theorem WellFormed.offsetOf_text (wf : t.WellFormed) (hb : t.node? root = some b)
    (hn : n ∈ b.preorder) (hk : n.kind = .text s) (hc : s.toList[k]? = some c) :
    t.offsetOf root ⟨n.id, k⟩ = b.countBefore n.id + k := by
  have ⟨hlt, _⟩ := List.getElem?_eq_some_iff.mp hc
  rw [String.length_toList] at hlt
  have ht : n.isText := by rw [Node.isText, hk]; rfl
  rw [wf.offsetOf_of_mem hb hn, Node.offsetOf, if_pos ht, hk]
  exact congrArg (_ + ·) (Nat.min_eq_left hlt.le)

section Beneath

variable (wf : t.WellFormed) (hb : t.node? root = some b)

include wf hb

theorem WellFormed.mem_of_readings (hm : (n, s) ∈ Node.readingsAmong ∅ b.children) :
    n ∈ b.preorder ∧ ∀ tag, tag ∈ s ↔ t.IsWrapped root n.id tag := by
  have hn : n ∈ b.preorder := by
    rw [Node.preorder_eq]
    exact .tail _ ((Node.flowAll_sublist _).subset (Node.mem_of_readingsAmong hm).left)
  have hd := wf.nodup_ids hb
  rw [Node.ids_eq, List.nodup_cons] at hd
  refine ⟨hn, fun tag => ?_⟩
  rw [wf.isWrapped_iff hb hn, Node.mem_readingsAmong_iff _ hd.right hm]
  exact or_iff_right (by simp)

theorem Shows.of_readings (hm : (n, s) ∈ Node.readingsAmong ∅ b.children)
    (hg : (n.glyphs s)[k]? = some g) : t.Shows root (b.countBefore n.id + k) g := by
  have ⟨hn, hs⟩ := wf.mem_of_readings hb hm
  have hn' := wf.node?_of_mem_preorder hb hn
  have hi := (wf.contains_iff hb hn').mpr hn
  cases (Node.getElem?_glyphs_eq_some_iff (Node.mem_of_readingsAmong hm).right).mp hg
  case inl h =>
    obtain ⟨u, c, hk, hc, rfl⟩ := h
    exact .char (by simp [kind?, hn', hk]) hi hc (wf.offsetOf_text hb hn hk hc) hs
  case inr h =>
    obtain ⟨hk, rfl, rfl⟩ := h
    exact .lineBreak (by simp [kind?, hn', hk]) hi (countBefore_of_node? hb)

theorem WellFormed.exists_of_kind? {kind : Kind} (hk : t.kind? i = some kind)
    (hi : t.contains root i) : ∃ n ∈ b.preorder, n.id = i ∧ n.kind = kind := by
  obtain ⟨n, hn, hk⟩ := Option.map_eq_some_iff.mp hk
  exact ⟨n, (wf.contains_iff hb hn).mp hi, id_of_node? hn, hk⟩

theorem WellFormed.exists_readings (hk : b.kind.isLeaf = false) (hn : n ∈ b.preorder)
    (hl : n.kind.isLeaf) (ho : b.countBefore n.id < b.charCount) :
    ∃ s, (n, s) ∈ Node.readingsAmong ∅ b.children := by
  have hf : n ∈ b.flow := by
    by_contra hf
    have h : ∀ m ∈ b.flow, m.id ≠ n.id := fun m hm e =>
      hf (List.inj_on_of_nodup_map (wf.nodup_ids hb) (b.flow_sublist.subset hm) hn e ▸ hm)
    rw [Node.countBefore_of_not_mem h] at ho
    exact ho.false
  have hr : n ∈ (Node.readingsAmong ∅ b.children).map Prod.fst := by
    rw [Node.map_fst_readingsAmong, List.mem_filter]
    rw [Node.flow_of_not_isLeaf hk, List.mem_cons] at hf
    refine ⟨hf.resolve_left ?_, hl⟩
    rintro rfl
    simp [hk] at hl
  obtain ⟨⟨_, s⟩, h, rfl⟩ := List.mem_map.mp hr
  exact ⟨s, h⟩

theorem Shows.getElem? (hk : b.kind.isLeaf = false) (ho : o < b.charCount)
    (h : t.Shows root o g) : (Node.glyphsAmong ∅ b.children)[o]? = some g := by
  rw [Node.getElem?_glyphsAmong_eq_some_iff (wf.nodup_ids hb) hk]
  cases h with
  | char h hi hc ho hs =>
    obtain ⟨n, hn, rfl, hu⟩ := wf.exists_of_kind? hb h hi
    rw [wf.offsetOf_text hb hn hu hc] at ho
    have hl : n.kind.isLeaf := hu ▸ rfl
    have ⟨s, hm⟩ := wf.exists_readings hb hk hn hl (by omega)
    have hs : s = _ := StyleSet.ext fun tag =>
      ((wf.mem_of_readings hb hm).right tag).trans (hs tag).symm
    refine ⟨n, s, _, hm, ?_, ho⟩
    exact (Node.getElem?_glyphs_eq_some_iff hl).mpr (.inl ⟨_, _, hu, hc, hs ▸ rfl⟩)
  | lineBreak h hi ho =>
    obtain ⟨n, hn, rfl, hu⟩ := wf.exists_of_kind? hb h hi
    rw [countBefore_of_node? hb] at ho
    have hl : n.kind.isLeaf := hu ▸ rfl
    have ⟨s, hm⟩ := wf.exists_readings hb hk hn hl (by omega)
    exact ⟨n, s, 0, hm, (Node.getElem?_glyphs_eq_some_iff hl).mpr (.inr ⟨hu, rfl, rfl⟩), ho⟩

end Beneath

-- The content of a root, read as text with styles and read as lines, is the same: it has the same
-- text between breaks, and what is read at an offset is what the offset leads to, with the styles
-- of the wrappers on the way. No joint and no empty text shows. Both are read off a stack.
theorem WellFormed.views_agree (wf : t.WellFormed) (hb : t.node? root = some b)
    (hk : b.kind.isLeaf = false) :
    Inline.lines (t.runs root) = t.lines root ∧
      (t.glyphs root).length = t.charCount root ∧
      (∀ o g, (t.glyphs root)[o]? = some g ↔ o < t.charCount root ∧ t.Shows root o g) ∧
      (∀ r, .run r ∈ t.runs root → r.text ≠ "") ∧ (t.runs root).IsChain Inline.Apart ∧
      ∀ a : Arena, a.Holds t → a.runs root = some (t.runs root) ∧
        a.lines root none = some (t.lines root) := by
  have hl : (t.glyphs root).length = t.charCount root := by
    rw [glyphs_of_node? hb, charCount_of_node? hb, Node.charCount_eq_sum,
      Node.flow_of_not_isLeaf hk, List.map_cons, List.sum_cons, Kind.width_of_not_isLeaf hk,
      Node.length_glyphsAmong_eq_sum, Nat.zero_add]
  have hr : t.runs root = b.runs := by simp [runs, hb]
  refine ⟨?lines, hl, fun o g => ⟨fun hg => ?shows, fun h => ?reads⟩, fun r h => ?text, ?apart,
    fun a h => ⟨h.runs_eq hb, h.lines_eq hb⟩⟩
  case lines => rw [hr, Node.lines_runs hk, lines, hb, Option.map_some, Option.getD_some]
  case shows =>
    have ho : o < t.charCount root := hl ▸ (List.getElem?_eq_some_iff.mp hg).choose
    rw [glyphs_of_node? hb, Node.getElem?_glyphsAmong_eq_some_iff (wf.nodup_ids hb) hk] at hg
    obtain ⟨n, s, k, hm, hg, rfl⟩ := hg
    exact ⟨ho, .of_readings wf hb hm hg⟩
  case reads =>
    rw [charCount_of_node? hb] at h
    rw [glyphs_of_node? hb]
    exact h.right.getElem? wf hb hk h.left
  case text =>
    rw [hr] at h
    simpa [Inline.isEmpty] using Inline.isEmpty_join h
  case apart => exact hr ▸ Inline.isChain_join _

-- Wrappers in a wrapper and beside it, an empty text, an embed and both kinds of breaks.
def woven : Tree where
  roots := [.mk ⟨0⟩ (.block "p" 0 true) [
    .mk ⟨1⟩ (.text "a") [],
    .mk ⟨2⟩ (.wrapper (.single "b")) [
      .mk ⟨3⟩ (.text "") [],
      .mk ⟨4⟩ (.wrapper (.single "i")) [.mk ⟨5⟩ (.text "xy") []],
      .mk ⟨6⟩ (.lineBreak false) []],
    .mk ⟨7⟩ (.wrapper (.single "b")) [.mk ⟨8⟩ (.text "z") []],
    .mk ⟨9⟩ (.embed "math") [.mk ⟨10⟩ (.text "m") []],
    .mk ⟨11⟩ (.text "n") [],
    .mk ⟨12⟩ (.lineBreak true) []]]
  made := 13

theorem views_agree_woven :
    woven.WellFormed ∧ ∃ b, woven.node? ⟨0⟩ = some b ∧ b.kind.isLeaf = false ∧
      Inline.lines (woven.runs ⟨0⟩) = ["axy", "zmn"] ∧ woven.lines ⟨0⟩ = ["axy", "zmn"] ∧
      (woven.glyphs ⟨0⟩).length = 7 ∧
      woven.Shows ⟨0⟩ 2 (.char 'y' ((StyleSet.single "b").insert "i")) ∧
      woven.Shows ⟨0⟩ 3 .lineBreak ∧
      woven.arena.Holds woven ∧ woven.arena.lines ⟨0⟩ none = some ["axy", "zmn"] := by
  have wf : woven.WellFormed := by decide
  have ⟨b, hb⟩ : ∃ b, woven.node? ⟨0⟩ = some b := ⟨_, rfl⟩
  have hk : b.kind.isLeaf = false := by cases hb; rfl
  have hl : woven.lines ⟨0⟩ = ["axy", "zmn"] := by decide
  have ⟨hr, hc, hs, _, _, ha⟩ := wf.views_agree hb hk
  have hw := Arena.holds_arena wf
  exact ⟨wf, b, hb, hk, hr.trans hl, hl, hc.trans (by decide), ((hs 2 _).mp (by decide)).right,
    ((hs 3 _).mp (by decide)).right, hw, hl ▸ (ha _ hw).right⟩

end Tree

end RichText
