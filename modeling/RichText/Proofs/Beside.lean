import RichText.Proofs.Links

namespace RichText.Tree

variable {t t' : Tree} {r c p : NodeId}

theorem detach_eq_self (h : t.parent? c = none) : t.detach c = t := by
  unfold detach
  split
  case h_1 hl => simp [parent?, hl, Location.parent?] at h
  case h_2 => rfl

-- The same nodes, and all but one where they were: that one is under another parent, or under none.
structure Moved (t t' : Tree) (c : NodeId) (parent? : Option NodeId) : Prop where
  wf : t'.WellFormed
  made : t'.made = t.made
  kind : ∀ i, t'.kind? i = t.kind? i
  parent : t'.parent? c = parent?
  parents : ∀ i ≠ c, t'.parent? i = t.parent? i
  childIds : ∀ q, parent? ≠ some q → t'.childIds q = (t.childIds q).filter (· ≠ c)

namespace WellFormed

variable (wf : t.WellFormed)

include wf

theorem childIds_detach (c q : NodeId) :
    (t.detach c).childIds q = (t.childIds q).filter (· ≠ c) := by
  cases hp : t.parent? c with
  | none =>
    rw [detach_eq_self hp]
    refine (List.filter_eq_self.mpr fun i hi => decide_eq_true ?_).symm
    rintro rfl
    simp [(wf.parent?_iff i q).mpr hi] at hp
  | some p =>
    have wf' := (wf.conserves_detach c).wf wf
    have hm := made_detach t c
    cases Nat.lt_or_ge q.index t.made with
    | inr hq => rw [wf.childIds_of_le hq, wf'.childIds_of_le (hm ▸ hq), List.filter_nil]
    | inl hq =>
      obtain ⟨⟨n, path⟩, hl, hf⟩ := Option.bind_eq_some_iff.mp hp
      match path with
      | f :: path =>
        have hn := node_of_locate? hl
        have hr := Node.links_substituteAll_remove t.roots wf.nodup (mem_of_node? hn)
        rw [id_of_node? hn, ← Node.links_append] at hr
        have h := List.mem_map_of_mem (f := Node.unlink c) ((wf.mem_links_iff hq _).mpr rfl)
        rw [← wf'.mem_links_iff (hm ▸ hq), detach, hl]
        exact hr.symm.subset h

theorem moved_detach (c : NodeId) : t.Moved (t.detach c) c none where
  wf := (wf.conserves_detach c).wf wf
  made := made_detach t c
  kind := wf.kind?_of_perm ((wf.conserves_detach c).wf wf) (wf.map_detach_perm (fun _ _ => rfl) c)
  parent := Option.eq_none_iff_forall_ne_some.mpr fun q h => by
    rw [((wf.conserves_detach c).wf wf).parent?_iff, wf.childIds_detach] at h
    simp at h
  parents i hi := Option.ext fun q => by
    rw [((wf.conserves_detach c).wf wf).parent?_iff, wf.childIds_detach, wf.parent?_iff]
    simp [hi]
  childIds q _ := wf.childIds_detach c q

end WellFormed

namespace Moved

variable (h : t.Moved t' c none) (hc : c.index < t.made) (hp : p.index < t.made)
  (hu : t'.contains c p = false)

include h hc hp hu

theorem insert (index : Nat) : t.Moved (t'.insert p index c) c (some p) := by
  have hc' : c.index < t'.made := h.made ▸ hc
  have hp' : p.index < t'.made := h.made ▸ hp
  have wf' := (h.wf.conserves_insert p index c).wf h.wf
  have hk := h.wf.kind?_of_perm wf' (h.wf.map_insert_perm (fun _ _ => rfl) p index c)
  exact {
    wf := wf'
    made := (made_insert t' p index c).trans h.made
    kind := fun i => (hk i).trans (h.kind i)
    parent := by
      rw [wf'.parent?_iff, h.wf.childIds_insert hc' hp' hu hp']
      simp
    parents := fun i hi => (h.wf.parent?_insert hc' hp' hu hi index).trans (h.parents i hi)
    childIds := fun q hq => by
      have hq : q ≠ p := fun e => hq (congrArg some e.symm)
      have hf : (t'.childIds q).filter (· ≠ c) = (t.childIds q).filter (· ≠ c) := by
        simp [h.childIds q nofun]
      rw [← hf]
      cases Nat.lt_or_ge q.index t'.made with
      | inl hl => rw [h.wf.childIds_insert hc' hp' hu hl, if_neg hq]
      | inr hl =>
        rw [wf'.childIds_of_le (made_insert t' p index c ▸ hl), h.wf.childIds_of_le hl, List.filter_nil] }

theorem childIds_insert {left right : List NodeId} (hs : t'.childIds p = left ++ right) :
    (t'.insert p left.length c).childIds p = left ++ c :: right := by
  have hp' : p.index < t'.made := h.made ▸ hp
  have hf : (t'.childIds p).filter (· ≠ c) = t'.childIds p := by simp [h.childIds p nofun]
  rw [h.wf.childIds_insert (h.made ▸ hc) hp' hu hp', hf, hs]
  simp

end Moved

namespace WellFormed

-- A node is moved right before or right after another one, whether it was a sibling of that before, or
-- beneath it, or elsewhere. Beside a node without parent there is no place, but the node that was to
-- come there is detached all the same.
theorem moved_beside (wf : t.WellFormed) (hr : r.index < t.made) (hc : c.index < t.made)
    (hu : t.contains c r = false) :
    (∀ p, t.parent? r = some p →
      t.Moved (t.insertBefore r c) c (some p) ∧ t.Moved (t.insertAfter r c) c (some p) ∧
      ∃ left right, (t.childIds p).filter (· ≠ c) = left ++ r :: right ∧
        (t.insertBefore r c).childIds p = left ++ c :: r :: right ∧
        (t.insertAfter r c).childIds p = left ++ r :: c :: right) ∧
    (t.parent? r = none →
      t.insertBefore r c = t.detach c ∧ t.insertAfter r c = t.detach c ∧
      t.Moved (t.detach c) c none ∧ (t.detach c = t ↔ t.parent? c = none)) := by
  have hd := wf.moved_detach c
  refine ⟨fun p hp => ?attached, fun hp => ?detached⟩
  case attached =>
    have hne : r ≠ c ∧ t.contains c p = false := by simpa [wf.contains_of_parent? hp] using hu
    have hpl := wf.linked.parent_lt r p hp
    have hu' : (t.detach c).contains c p = false := by
      rw [contains, wf.lineage_of_parents hd.wf hd.kind hd.parents hpl hne.right]
      exact hne.right
    obtain ⟨⟨n, path⟩, hl, hf⟩ := Option.bind_eq_some_iff.mp ((hd.parents r hne.left).trans hp)
    cases path with
    | nil => contradiction
    | cons f path =>
      obtain rfl : f.id = p := Option.some.inj hf
      let left := f.before.reverse.map Node.id
      let right := f.after.map Node.id
      have hs : (t.detach c).childIds f.id = left ++ r :: right := hd.wf.childIds_of_locate? hl
      have hs' : (t.detach c).childIds f.id = (left ++ [r]) ++ right := by simpa using hs
      have hb := hd.childIds_insert hc hpl hu' hs
      have ha := hd.childIds_insert hc hpl hu' hs'
      simp only [insertBefore, insertAfter, hl]
      refine ⟨hd.insert hc hpl hu' _, hd.insert hc hpl hu' _, left, right, ?_, ?_, ?_⟩
      · rw [← hd.childIds f.id (by simp), hs]
      · simpa [left] using hb
      · simpa [left] using ha
  case detached =>
    have hne : r ≠ c := by simpa [wf.contains_of_root hr hp] using hu
    have hr' : (t.detach c).parent? r = none := (hd.parents r hne).trans hp
    obtain ⟨_, hn⟩ := hd.wf.exists_node? (hd.made ▸ hr)
    obtain ⟨⟨n, path⟩, hl, -⟩ := exists_locate? hn
    cases path with
    | nil =>
      exact ⟨by simp only [insertBefore, hl], by simp only [insertAfter, hl], hd,
        fun e => e ▸ hd.parent, detach_eq_self⟩
    | cons f path => simp [parent?, hl, Location.parent?] at hr'

end WellFormed

-- Three siblings, one of which has a child, and a node beside them that is detached.
def shelf : Tree where
  roots := [
    .mk ⟨0⟩ (.element "div") [
      .mk ⟨1⟩ (.text "a") [],
      .mk ⟨2⟩ (.wrapper (.single "b")) [.mk ⟨3⟩ (.text "c") []],
      .mk ⟨4⟩ (.lineBreak false) []],
    .mk ⟨5⟩ (.text "d") []]
  made := 6

-- A node is moved past two siblings, and it is lost beside the detached one.
theorem moved_beside_shelf :
    shelf.WellFormed ∧ shelf.contains ⟨1⟩ ⟨4⟩ = false ∧ shelf.contains ⟨1⟩ ⟨5⟩ = false ∧
      shelf.Moved (shelf.insertBefore ⟨4⟩ ⟨1⟩) ⟨1⟩ (some ⟨0⟩) ∧
      (shelf.insertBefore ⟨4⟩ ⟨1⟩).childIds ⟨0⟩ = [⟨2⟩, ⟨1⟩, ⟨4⟩] ∧
      shelf.insertBefore ⟨5⟩ ⟨1⟩ = shelf.detach ⟨1⟩ ∧ shelf.detach ⟨1⟩ ≠ shelf := by
  have wf : shelf.WellFormed := by decide
  have hu : shelf.contains ⟨1⟩ ⟨4⟩ = false := by decide
  have hu' : shelf.contains ⟨1⟩ ⟨5⟩ = false := by decide
  have h := (wf.moved_beside (by decide) (by decide) hu).left ⟨0⟩ (by decide)
  have h' := (wf.moved_beside (by decide) (by decide) hu').right (by decide)
  exact ⟨wf, hu, hu', h.left, by decide, h'.left, mt h'.right.right.right.mp (by decide)⟩

end RichText.Tree
