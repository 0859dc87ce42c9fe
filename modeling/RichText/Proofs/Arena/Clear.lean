import RichText.Proofs.Arena.Apply
import RichText.Proofs.Clear

namespace RichText

namespace Node

-- A node that loses a style, and gives way to its children if that was its last one.
def cleared (tag : String) (n : Node) : Pass :=
  if n.kind.hasStyle tag then (n.removeStyle tag).dissolve else ⟨[n], []⟩

theorem any_through (last : NodeId) (ns : List Node) :
    (through last ns).1.any (·.id = last) = ns.any (·.id = last) := by
  induction ns with
  | nil => rfl
  | cons n ns ih =>
    rw [through]
    split
    case isTrue e => simp [e]
    case isFalse e => simpa [e] using ih

theorem any_from_iff {before after xs ys : List Node} {n m : Node}
    (h : before ++ n :: after = xs ++ m :: ys) (hd : (idsAll (before ++ n :: after)).Nodup) :
    (n :: after).any (·.id = m.id) ↔ before.length ≤ xs.length := by
  obtain ⟨rfl, rfl, rfl⟩ | ⟨cs, rfl, rfl⟩ | ⟨cs, rfl, rfl⟩ := append_cons_cases h
  case inl => simp
  case inr.inl => simp
  case inr.inr =>
    rw [h] at hd
    have hd := (List.nodup_append.mp (Node.idsAll_append .. ▸ hd)).right.left
    rw [idsAll_cons, List.nodup_append] at hd
    have hm (x : Node) (hx : x ∈ n :: after) : x.id ≠ m.id := fun e =>
      hd.right.right m.id m.id_mem_ids x.id (id_mem_idsAll (by simp [List.mem_cons.mp hx])) e.symm
    simpa using hm

theorem cutAround_middle (w : Node) (leaf : NodeId) (start stop next : Nat) :
    (w.cutAround leaf start stop next).middle.id = w.id ∧
      (w.cutAround leaf start stop next).middle.kind = w.kind := by
  unfold cutAround
  split
  case h_1 =>
    split
    split <;> exact ⟨rfl, rfl⟩
  case h_2 => exact ⟨rfl, rfl⟩

end Node

namespace Draft

variable {d : Draft} {s : Seat} {n m : Node} {q : Position}

theorem At.keeps_clearFrom (h : d.At s n) (hq : q.node = n.id) (hm : m ≠ n) (tag : String) :
    d.Keeps (d.clearFrom q tag).2 m := by
  cases s with
  | bare before after =>
    rw [clearFrom_bare h hq]
    exact .refl d m
  | held before i styles left right after =>
    obtain ⟨he, -⟩ | ⟨he, -⟩ | ⟨d', he, hc, -⟩ := clearFrom_held h hq tag
    case inl => exact he ▸ .refl d m
    case inr.inl => exact he ▸ .refl d m
    case inr.inr =>
      rw [he]
      constructor
      case ids => simp [hc, h.content]; grind
      case shallow => simp [hc, h.content, hm]; tauto

theorem At.mem_of_clearTo (h : d.At s n) (hq : q.node = n.id) (tag : String) :
    ∀ last, (d.clearTo q tag).1 = some last → last ∈ (d.clearTo q tag).2.content.map Node.id := by
  intro last hl
  cases s with
  | bare before after =>
    rw [Draft.clearTo_bare h hq] at hl ⊢
    obtain rfl := Option.some.inj hl
    simp [h.content]
  | held before i styles left right after =>
    obtain ⟨he, -⟩ | ⟨he, -⟩ | ⟨d', he, hc, -⟩ := Draft.clearTo_held h hq tag
    case inl =>
      rw [he] at hl ⊢
      obtain rfl := Option.some.inj hl
      simp [h.content]
    case inr.inl =>
      have hc : d.content = before ++ .mk i (.wrapper styles) (left ++ n :: right) :: after := by
        simp [h.content]
      rw [he] at hl ⊢
      obtain ⟨x, hx, rfl⟩ := Option.map_eq_some_iff.mp
        ((prev?_of_content h.sound.nodup_content hc).symm.trans hl)
      rw [hc]
      exact List.mem_map_of_mem (List.mem_append_left _ (List.mem_of_getLast? hx))
    case inr.inr =>
      rw [he] at hl ⊢
      obtain rfl := Option.some.inj hl
      simp [hc]

end Draft

namespace Arena

variable {a : Arena} {N : Nat} {p : NodeId} {k : Kind} {is js : List NodeId} {R : Multiset Cell}
  {m n w : Node} {ns left right : List Node} {d : Draft} {s : Place} {tag : String}

namespace Stores

theorem unstyle_eq (hk : a.kind? m.id = some m.kind) (hs : m.kind.hasStyle tag) :
    a.unstyle m.id tag =
      let b := a.mapKind m.id (·.mapStyles (·.erase tag))
      if (m.removeStyle tag).kind = .wrapper ∅ then b.unwrap m.id else b := by
  obtain ⟨i, k, cs⟩ := m
  cases k with
  | wrapper styles =>
    have hs : a.styles? i = some styles := styles?_eq hk
    simp [unstyle, hs, Node.removeStyle, Node.withKind, Kind.mapStyles]
  | _ => simp [Kind.hasStyle] at hs

theorem unstyle_family (h : a.Stores N (family p k is (m :: ns) js R)) (hs : m.kind.hasStyle tag) :
    (a.unstyle m.id tag).Stores N (family p k is ((m.removeStyle tag).dissolve.kept ++ ns) js
      (Node.cells (m.removeStyle tag).dissolve.dropped + R)) := by
  have hm := h.mapKind_family (·.mapStyles (·.erase tag))
  rw [unstyle_eq h.kind?_family hs, Node.dissolve]
  simp only
  split
  case isTrue => exact hm.unwrap_family
  case isFalse => exact hm.of_eq (by simp [Node.removeStyle])

theorem untagFrom (h : a.Stores N (family p k is ns [] R)) (last : NodeId) (tag : String) :
    ∃ a', a.untagFrom last tag (ns.head?.map Node.id) = some a' ∧
      a'.Stores N (family p k is
        ((Pass.each (Node.cleared tag) (Node.through last ns).1).kept ++ (Node.through last ns).2) []
        (Node.cells (Pass.each (Node.cleared tag) (Node.through last ns).1).dropped + R)) := by
  induction ns generalizing a is R with
  | nil =>
    rw [List.head?_nil, Option.map_none, Arena.untagFrom]
    exact ⟨a, rfl, h.of_eq (by simp [Node.through, Pass.each, Pass.unchanged])⟩
  | cons n ns ih =>
    have hnext : a.next? n.id = ns.head?.map Node.id := by simp [h.next?_family]
    have hone : (if a.hasStyle n.id tag then a.unstyle n.id tag else a).Stores N
        (family p k is ((n.cleared tag).kept ++ ns) [] (Node.cells (n.cleared tag).dropped + R)) := by
      rw [hasStyle_eq h.kind?_family, Node.cleared]
      split
      case isTrue hs => exact h.unstyle_family hs
      case isFalse => exact h.of_eq (by simp)
    have hrest := hone.of_eq (q := family p k (is ++ (n.cleared tag).kept.map Node.id) ns []
      (Node.cells (n.cleared tag).kept + (Node.cells (n.cleared tag).dropped + R))) (by
        simp [family, ← Multiset.singleton_add]
        abel)
    obtain ⟨a', hr, h'⟩ := ih hrest
    rw [List.head?_cons, Option.map_some, Arena.untagFrom, hnext]
    simp only [Node.through]
    by_cases e : n.id = last
    case pos =>
      simp only [if_pos e]
      exact ⟨_, rfl, hone.of_eq (by simp [Pass.each, Pass.append, Pass.unchanged])⟩
    case neg =>
      simp only [if_neg e]
      refine ⟨a', hr, h'.of_eq ?_⟩
      simp [Pass.each, Pass.append, family, ← Multiset.singleton_add]
      abel

theorem moveUntil {p q c : NodeId} {k k' : Kind} {cs ds es : List NodeId}
    (h : a.Stores N (⟨p, k, cs ++ c :: ds⟩ ::ₘ ⟨q, k', es⟩ ::ₘ R)) :
    ∃ a', a.moveUntil p q c = some a' ∧
      a'.Stores N (⟨p, k, c :: ds⟩ ::ₘ ⟨q, k', es ++ cs⟩ ::ₘ R) := by
  induction cs generalizing a es with
  | nil =>
    rw [Arena.moveUntil, firstChild?, h.children_head]
    exact ⟨a, by simp, h.of_eq (by simp)⟩
  | cons i cs ih =>
    have hne : i ≠ c := fun e => by
      have hd := h.paired.once p
      rw [h.children_head, e] at hd
      simp at hd
    have hm := Stores.moveTo (show a.Stores N (⟨p, k, [] ++ i :: (cs ++ c :: ds)⟩ ::ₘ _) from h)
    obtain ⟨a', hr, h'⟩ := ih hm
    rw [Arena.moveUntil, firstChild?, h.children_head]
    exact ⟨a', by simpa [hne] using hr, h'.of_eq (by simp)⟩

section Sibling

variable {xs ys : List Node} (h : a.Stores N (s.cells (xs ++ w :: ys)))

include h

theorem mapKind_sibling (f : Kind → Kind) :
    (a.mapKind w.id f).Stores N (s.cells (xs ++ w.withKind (f w.kind) :: ys)) := by
  obtain ⟨R, hR⟩ := s.exists_frame w.id xs ys
  have hf := h.of_eq (hR w rfl)
  exact (hf.mapKind f).of_eq (hR (w.withKind (f w.kind)) rfl).symm

theorem cutBefore (hw : w.children = left ++ n :: right) :
    ∃ a', a.cutBefore w.id n.id = some a' ∧ a'.Stores (N + 1)
      (s.cells (xs ++ w.copyAround ⟨N⟩ left :: w.withChildren (n :: right) :: ys)) := by
  obtain ⟨R, hR⟩ := s.exists_frame₂ ⟨N⟩ w.id xs ys
  have hc := h.create_before (.wrapper (w.kind.styles?.getD ∅))
  have hm := hc.of_eq (q := ⟨w.id, w.kind, left.map Node.id ++ n.id :: right.map Node.id⟩ ::ₘ
    ⟨⟨N⟩, .wrapper (w.kind.styles?.getD ∅), []⟩ ::ₘ (Node.cells (left ++ n :: right) + R)) (by
      rw [hR _ w rfl rfl, Multiset.cons_swap]
      simp [hw, Node.cell])
  obtain ⟨a', hr, hs⟩ := hm.moveUntil
  refine ⟨a', ?_, hs.of_eq ?_⟩
  case refine_1 =>
    simp only [Arena.cutBefore, copyWrapper, styles?_eq h.kind?_sibling, fst_create, h.size, hr]
  case refine_2 =>
    rw [hR (w.copyAround _ _) (w.withChildren _) rfl rfl]
    simp [Node.cell, Node.copyAround, ← Multiset.singleton_add]
    abel

theorem cutTextBefore {text : String} (hw : w.children = left ++ n :: right)
    (hk : n.kind = .text text) (offset : Nat) :
    ∃ a', (a.splitText n.id offset).2.cutBefore w.id (a.splitText n.id offset).1 = some a' ∧
      a'.Stores (N + 2) (s.cells (xs ++ w.copyAround ⟨N + 1⟩ (left ++ [n.takeText offset]) ::
        w.withChildren (n.dropText offset ⟨N⟩ :: right) :: ys)) := by
  obtain ⟨hi, hs⟩ := h.splitText_within hw hk offset
  have hw' : left ++ n.takeText offset :: n.dropText offset ⟨N⟩ :: right =
      (left ++ [n.takeText offset]) ++ n.dropText offset ⟨N⟩ :: right := by simp
  obtain ⟨a', hc, hs⟩ := hs.cutBefore hw'
  rw [hi]
  exact ⟨a', hc, hs⟩

end Sibling

theorem cutAround {e : Endpoints} (h : a.Stores N (s.cells [w]))
    (hw : w.children = left ++ n :: right) (hd : (Node.idsAll w.children).Nodup) (hn : n.isText)
    (hs : e.start.node = n.id) (ht : e.stop.node = n.id) :
    let cut := w.cutAround n.id e.start.offset e.stop.offset N
    ∃ a', a.cutAround w.id e = some a' ∧
      a'.Stores cut.next (s.cells (cut.before ++ cut.middle :: cut.after)) := by
  obtain ⟨t, hk⟩ := Node.isText_iff.mp hn
  have h : a.Stores N (s.cells ([] ++ w :: [])) := h
  have hl : a.textLength n.id = n.kind.textLength := textLength_eq (h.kind?_within hw)
  simp only [Arena.cutAround, hs, ht, hl, Node.cutAround, Node.childrenAround_of_children hd hw]
  by_cases hstop : e.stop.offset < n.kind.textLength
  case pos =>
    obtain ⟨a₁, hr₁, h₁⟩ := h.cutText hw hk e.stop.offset
    have hk₁ : (n.takeText e.stop.offset).kind =
        .text (.ofList (t.toList.take e.stop.offset)) := by
      simp [Node.takeText, hk, Kind.mapText]
    obtain ⟨a₂, hr₂, h₂⟩ := h₁.cutTextBefore rfl hk₁ e.start.offset
    by_cases hstart : 0 < e.start.offset
    case pos =>
      simp only [if_pos hstop, if_pos hstart, hr₁]
      exact ⟨a₂, hr₂, h₂⟩
    case neg =>
      simp only [if_pos hstop, if_neg hstart, hr₁]
      exact ⟨a₁, rfl, h₁⟩
  case neg =>
    obtain ⟨a₁, hr₁, h₁⟩ := h.cutTextBefore hw hk e.start.offset
    by_cases hstart : 0 < e.start.offset
    case pos =>
      simp only [if_neg hstop, if_pos hstart]
      exact ⟨a₁, hr₁, h₁⟩
    case neg =>
      simp only [if_neg hstop, if_neg hstart]
      exact ⟨a, rfl, h.of_eq (by rw [← hw, Node.withChildren, Node.eta])⟩

end Stores

namespace Draws

variable {before after : List Node} {i last : NodeId} {styles : StyleSet} {q : Position} {e : Endpoints}

theorem splitWrapper (h : a.Draws p k R d) (ha : d.At (.held before i styles left right after) n)
    (offset : Nat) :
    let w := Node.mk i (.wrapper styles) (left ++ n :: right)
    ∃ a', a.splitWrapper n.id offset = some (some (d.cutWrapper w n.id offset).1, a') ∧
      a'.Draws p k R (d.cutWrapper w n.id offset).2 := by
  have hs := h.place ha
  obtain ⟨t, ht⟩ := Node.isText_iff.mp ha.isText
  have hk := hs.kind?_within rfl
  have hp : a.parent? n.id = some i := hs.parent?_within rfl
  have hb : (a.prev? n.id).isNone = left.isEmpty := hs.isNone_prev?_within rfl
  have hn : (a.next? n.id).isNone = right.isEmpty := hs.isNone_next?_within rfl
  simp only [Arena.splitWrapper, hp, isText_eq hk, textLength_eq hk, hb, hn, Draft.cutWrapper,
    ha.childrenAround_held, Node.id_mk]
  have htext : (!n.kind.isText) = false := by simp [ht, Kind.isText]
  rw [htext, Bool.false_or]
  split
  case isTrue => exact ⟨a, rfl, h⟩
  case isFalse =>
    obtain ⟨a', hr, h'⟩ := hs.cutText rfl ht offset
    rw [Node.id_mk] at hr
    refine ⟨a', by rw [hr]; rfl, h'.of_eq ?_⟩
    simp [Draft.substitute, ha.substitute_held, Place.cells, Node.withChildren, Node.copyAround]

section Held

variable (h : a.Draws p k R d) (ha : d.At (.held before i styles left right after) n)

include h ha

theorem next?_held : a.next? i = d.next? i := by
  have hc : d.content = before ++ .mk i (.wrapper styles) (left ++ n :: right) :: after := by
    simp [ha.content]
  exact (h.place ha).next?_sibling.trans (Draft.next?_of_content ha.sound.nodup_content hc).symm

theorem prev?_held : a.prev? i = d.prev? i := by
  have hc : d.content = before ++ .mk i (.wrapper styles) (left ++ n :: right) :: after := by
    simp [ha.content]
  exact (h.place ha).prev?_sibling.trans (Draft.prev?_of_content ha.sound.nodup_content hc).symm

end Held

theorem clearFrom {s : Seat} (h : a.Draws p k R d) (ha : d.At s n) (hq : q.node = n.id) (tag : String) :
    ∃ a', a.clearFrom p q tag = some ((d.clearFrom q tag).1, a') ∧
      a'.Draws p k R (d.clearFrom q tag).2 := by
  cases s with
  | bare before after =>
    rw [Arena.clearFrom, hq, h.parent?_bare ha, Draft.clearFrom_bare ha hq]
    exact ⟨a, by simp, h⟩
  | held before i styles left right after =>
    obtain ⟨hp, hne⟩ := h.parent?_held ha
    have hs := h.place ha
    have hk : a.kind? i = some (.wrapper styles) := hs.kind?_sibling
    have hn : (a.next? n.id).isNone = right.isEmpty := hs.isNone_next?_within rfl
    simp only [Arena.clearFrom, Draft.clearFrom, hq, hp, if_neg hne, ha.holder?_held, Node.kind_mk,
      hasStyle_eq hk, hn, h.textLength_seat ha, ha.childrenAround_held, Node.id_mk]
    split
    case isFalse => exact ⟨a, rfl, h⟩
    case isTrue =>
      split
      case isTrue => exact ⟨a, by rw [h.next?_held ha], h⟩
      case isFalse =>
        obtain ⟨a', hr, h'⟩ := h.splitWrapper ha q.offset
        exact ⟨a', by rw [hr]; rfl, h'⟩

theorem clearTo {s : Seat} (h : a.Draws p k R d) (ha : d.At s n) (hq : q.node = n.id) (tag : String) :
    ∃ a', a.clearTo p q tag = some ((d.clearTo q tag).1, a') ∧
      a'.Draws p k R (d.clearTo q tag).2 := by
  cases s with
  | bare before after =>
    rw [Arena.clearTo, hq, h.parent?_bare ha, Draft.clearTo_bare ha hq]
    exact ⟨a, by simp, h⟩
  | held before i styles left right after =>
    obtain ⟨hp, hne⟩ := h.parent?_held ha
    have hs := h.place ha
    have hk : a.kind? i = some (.wrapper styles) := hs.kind?_sibling
    have hn : (a.prev? n.id).isNone = left.isEmpty := hs.isNone_prev?_within rfl
    simp only [Arena.clearTo, Draft.clearTo, hq, hp, if_neg hne, ha.holder?_held, Node.kind_mk,
      hasStyle_eq hk, hn, ha.childrenAround_held, Node.id_mk]
    split
    case isFalse => exact ⟨a, rfl, h⟩
    case isTrue =>
      split
      case isTrue => exact ⟨a, by rw [h.prev?_held ha], h⟩
      case isFalse =>
        obtain ⟨a', hr, h'⟩ := h.splitWrapper ha q.offset
        exact ⟨a', by rw [hr]; rfl, h'⟩

theorem clearBetween (h : a.Draws p k R d) (hl : last ∈ d.content.map Node.id) (first : NodeId)
    (tag : String) :
    ∃ a', (if a.isOrdered first last then a.untagFrom last tag (some first) else some a) = some a' ∧
      a'.Draws p k R (d.clearBetween first last tag) := by
  obtain ⟨m, hm, rfl⟩ := List.mem_map.mp hl
  obtain ⟨xs, ys, hc⟩ := List.append_of_mem hm
  have hd := h.sound.nodup_content
  have hs (before after : List Node) (n : Node) (hc : d.content = before ++ n :: after) :
      a.Stores d.next ((Place.among p k [] [] (Node.cells d.dropped + R)).cells
        (before ++ n :: after)) := h.of_eq (by rw [hc]; rfl)
  have hip := h.parent?_of_mem hl
  have him := (hs xs ys m hc).index?_sibling
  by_cases hf : first ∈ d.content.map Node.id
  case neg =>
    -- What is not among the children of the block is not before one of them.
    have hp : a.parent? first ≠ some p := fun hp => hf <| by
      have hch := (hs xs ys m hc).children_among
      rw [h.paired.parent_iff, hch] at hp
      rw [hc]
      simpa using hp
    have ho : a.isOrdered first m.id = false := by
      unfold isOrdered
      split
      case h_1 => simp [hip, hp]
      case h_2 => rfl
    have hne : ∀ n ∈ d.content, decide (n.id ≠ first) = true := fun n hn =>
      decide_eq_true fun e => hf (e ▸ List.mem_map_of_mem hn)
    rw [ho, if_neg (by simp)]
    refine ⟨a, rfl, ?_⟩
    simp only [Draft.clearBetween, Node.segment, List.dropWhile_eq_nil_iff.mpr hne, Node.through,
      List.any_nil]
    exact h
  case pos =>
    obtain ⟨n, hn, rfl⟩ := List.mem_map.mp hf
    obtain ⟨before, after, hc'⟩ := List.append_of_mem hn
    have hb := Node.not_mem_of_nodup (hc' ▸ hd)
    have ho : a.isOrdered n.id m.id = (n :: after).any (·.id = m.id) := by
      rw [Bool.eq_iff_iff, Node.any_from_iff (hc'.symm.trans hc) (hc' ▸ hd)]
      simp [isOrdered, him, (hs before after n hc').index?_sibling, hip, h.parent?_of_mem hf]
    have hcl : (fun n : Node => if n.kind.hasStyle tag then (n.removeStyle tag).dissolve
      else ⟨[n], []⟩) = Node.cleared tag := rfl
    simp only [Draft.clearBetween, Node.segment, hc', Node.takeWhile_id hb, Node.dropWhile_id hb,
      Node.any_through, ho, hcl]
    split
    case isFalse => exact ⟨a, rfl, h⟩
    case isTrue =>
      have hu : a.Stores d.next (family p k (before.map Node.id) (n :: after) []
          (Node.cells before + (Node.cells d.dropped + R))) := h.of_eq (by
        simp [hc', family, ← Multiset.singleton_add]
        abel)
      obtain ⟨a', hr, h'⟩ := hu.untagFrom m.id tag
      refine ⟨a', hr, of_place (h'.of_eq ?_)⟩
      simp [Place.cells, family, ← Multiset.singleton_add]
      abel

section ClearEnds

variable {s s' : Seat}

theorem clearEnds (h : a.Draws p k R d) (ha : d.At s n) (hb : d.At s' m) (hne : n ≠ m)
    (hs : e.start.node = n.id) (ht : e.stop.node = m.id) (tag : String) :
    ∃ a', a.clearEnds p e tag = some a' ∧ a'.Draws p k R (d.clear e tag) := by
  simp only [Arena.clearEnds, Draft.clear]
  obtain ⟨a₁, hr₁, h₁⟩ := h.clearFrom ha hs tag
  obtain ⟨s₁, hc₁⟩ := Draft.exists_seat ((ha.keeps_clearFrom hs hne.symm tag).shallow hb.mem_shallow)
  have hb₁ := h₁.seated hc₁ hb.isText
  generalize d.clearFrom e.start tag = r₁ at *
  obtain ⟨a₂, hr₂, h₂⟩ := h₁.clearTo hb₁ ht tag
  have hm := hb₁.mem_of_clearTo ht tag
  generalize r₁.2.clearTo e.stop tag = r₂ at *
  obtain ⟨first, d₁⟩ := r₁
  obtain ⟨last, d₂⟩ := r₂
  cases first with
  | none => exact ⟨a₂, by simp [hr₁, hr₂], h₂⟩
  | some first =>
    cases last with
    | none => exact ⟨a₂, by simp [hr₁, hr₂], h₂⟩
    | some last =>
      obtain ⟨a₃, hr₃, h₃⟩ := h₂.clearBetween (hm last rfl) first tag
      exact ⟨a₃, by simpa [hr₁, hr₂] using hr₃, h₃⟩

end ClearEnds

end Draws

section ClearWithin

theorem unwrap_of_root {i : NodeId} (h : a.parent? i = none) : a.unwrap i = a := by
  simp [Arena.unwrap, h]

variable {t : Tree} {e : Endpoints} {i : NodeId}

theorem Holds.clearWithin (h : a.Holds t) (hw : t.node? i = some w)
    (hc : w.children = left ++ n :: right) (hn : n.isText) (hs : e.start.node = n.id)
    (ht : e.stop.node = n.id) (hst : w.kind.hasStyle tag) :
    ∃ a', a.clearWithin i e tag = some a' ∧ a'.Holds (t.clearWithin w e tag) := by
  obtain rfl := Tree.id_of_node? hw
  have hd := h.wf.nodup_ids hw
  rw [Node.ids_eq, List.nodup_cons] at hd
  rw [Arena.clearWithin, Tree.clearWithin, hs]
  have hm := w.cutAround_middle n.id e.start.offset e.stop.offset t.made
  obtain ⟨hp, hl, as, bs, hr⟩ | ⟨f, path, hl, htop⟩ := Tree.exists_site hw
  case inl =>
    -- Without a parent, the wrapper stays.
    obtain ⟨hst', hrule⟩ := h.stores_root hr
    obtain ⟨a₁, hr₁, h₁⟩ := Stores.cutAround (s := .top (as ++ bs))
      (hst'.of_eq (by simp [Place.cells])) hc hd.right hn hs ht
    generalize w.cutAround n.id e.start.offset e.stop.offset t.made = cut at *
    have hu := Stores.unstyle_eq h₁.kind?_sibling (hm.right ▸ hst)
    have hk := h₁.mapKind_sibling (·.mapStyles (·.erase tag))
    have hroot : (a₁.mapKind cut.middle.id (·.mapStyles (·.erase tag))).parent? cut.middle.id = none :=
      Stores.parent?_root hk (w := cut.middle.removeStyle tag) (by simp [Node.removeStyle])
    rw [hm.left] at hu hroot
    simp only [unwrap_of_root hroot, ite_self] at hu
    rw [hr₁, Option.map_some, hu]
    refine ⟨_, rfl, ?_⟩
    have hres := hrule _ (fun _ => cut.before ++ [cut.middle.removeStyle tag] ++ cut.after) _
      (hk.of_eq (by
        simp [Place.cells, Node.removeStyle]
        abel))
    simpa [hp, Tree.substitute, hm.left] using hres
  case inr =>
    obtain ⟨R, hst', hrule⟩ := h.draws_child hl htop
    obtain ⟨a₁, hr₁, h₁⟩ := Stores.cutAround
      (s := .among f.id f.kind (f.before.reverse.map Node.id) (f.after.map Node.id) R) hst' hc hd.right
      hn hs ht
    have hp : (t.parent? w.id).isSome := by simp [Tree.parent?, hl, Location.parent?]
    simp only [hp, ↓reduceIte]
    generalize w.cutAround n.id e.start.offset e.stop.offset t.made = cut at *
    have hf := h₁.of_eq (q := family f.id f.kind
      (f.before.reverse.map Node.id ++ cut.before.map Node.id) (cut.middle :: cut.after)
      (f.after.map Node.id) (Node.cells cut.before + R)) (by
        simp [Place.cells, family, ← Multiset.singleton_add]
        abel)
    have hu := hf.unstyle_family (hm.right ▸ hst)
    rw [hm.left] at hu
    rw [hr₁, Option.map_some]
    refine ⟨_, rfl, ?_⟩
    refine hrule _ (fun _ => cut.before ++ (cut.middle.removeStyle tag).dissolve.kept ++ cut.after) _ _
      (hu.of_eq ?_)
    simp [family, ← Multiset.singleton_add]
    abel

end ClearWithin

theorem Holds.clearEnds {t : Tree} {block : NodeId} {b n m : Node} {s s' : Seat} {e : Endpoints}
    (h : a.Holds t) (hb : t.node? block = some b) (hp : Tree.Perch b e.start s n)
    (hq : Tree.Perch b e.stop s' m) (hne : e.start.node ≠ e.stop.node) (tag : String) :
    ∃ a', a.clearEnds block e tag = some a' ∧ a'.Holds (t.redraft block (·.clear e tag)) := by
  obtain ⟨R, hd, hr⟩ := h.draws hb
  have ha := hd.seated hp.children hp.isText
  have hb' := hd.seated hq.children hq.isText
  have hnm : n ≠ m := fun e' => hne (by rw [hp.node, hq.node, e'])
  rw [Tree.redraft, Tree.children_of_node? hb]
  obtain ⟨a', hr', hd'⟩ := hd.clearEnds ha hb' hnm hp.node hq.node tag
  exact ⟨a', hr', hr _ _ hd'⟩

end Arena

end RichText
