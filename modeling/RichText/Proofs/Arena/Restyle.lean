import RichText.Proofs.Arena.Canonical
import RichText.Proofs.Arena.Resolve
import RichText.Proofs.Arena.Shared
import RichText.Restyle

namespace RichText.Arena

variable {a : Arena} {t : Tree} {block : NodeId} {b : Node} {span : Span} {tag : String}

theorem Holds.exists_span (h : a.Holds t) (hb : t.node? block = some b) (start stop : Nat) :
    ∃ s, a.span block start stop = some s := by
  obtain ⟨p, hp⟩ := h.exists_resolve hb start
  obtain ⟨q, hq⟩ := h.exists_resolve hb stop
  exact ⟨⟨p, q⟩, by simp [Arena.span, hp, hq]⟩

theorem Holds.exists_settled (h : a.Holds t) (hb : t.node? block = some b) (left right : Nat) :
    ∃ s a', a.canonicalize block = some ((t.canonicalize block).1, a') ∧
      a'.span block left right = some s ∧ a'.Holds (t.canonicalize block).2 := by
  obtain ⟨a', hr, h'⟩ := h.canonicalize hb
  have hlt := (h.wf.isSome_node?_iff block).mp (by simp [hb])
  obtain ⟨b', hb'⟩ := h'.wf.exists_node? (hlt.trans_le (h.wf.conserves_canonicalize block).le)
  obtain ⟨s, hs⟩ := h'.exists_span hb' left right
  exact ⟨s, a', hr, hs, h'⟩

theorem Holds.tryApply (h : a.Holds t) (hb : t.node? block = some b) (span : Span) (tag : String) :
    ∃ r a', a.tryApply block span tag = some (r, a') ∧ a'.Holds (t.tryApply block span tag).2 := by
  rw [Arena.tryApply, h.nonemptyEndpoints_eq hb, Tree.tryApply]
  cases hn : t.nonemptyEndpoints block span with
  | error e => exact ⟨.error e, a, rfl, h⟩
  | ok r =>
    obtain ⟨e, left, right⟩ := r
    obtain ⟨b', s, n, s', m, hb', hp, hq⟩ := Tree.perch_of_nonemptyEndpoints hn
    cases hb.symm.trans hb'
    obtain ⟨a₁, h₁, hr₁⟩ := h.applyEnds hb hp hq tag
    obtain ⟨s, a₂, h₂, hs, hr₂⟩ := hr₁.exists_settled (Tree.node?_redraft hb _) left right
    exact ⟨.ok s, a₂, by simp [h₁, h₂, hs], hr₂⟩

theorem Holds.tryClear (h : a.Holds t) (hb : t.node? block = some b) (span : Span) (tag : String) :
    ∃ r a', a.tryClear block span tag = some (r, a') ∧ a'.Holds (t.tryClear block span tag).2 := by
  rw [Arena.tryClear, h.nonemptyEndpoints_eq hb, Tree.tryClear]
  cases hn : t.nonemptyEndpoints block span with
  | error e => exact ⟨.error e, a, rfl, h⟩
  | ok r =>
    obtain ⟨e, left, right⟩ := r
    obtain ⟨b', s, n, s', m, hb', hp, hq⟩ := Tree.perch_of_nonemptyEndpoints hn
    cases hb.symm.trans hb'
    simp only [bind, Option.bind_some]
    split
    case isFalse hne =>
      obtain ⟨a₁, h₁, hr₁⟩ := h.clearEnds hb hp hq hne tag
      obtain ⟨s, a₂, h₂, hs, hr₂⟩ := hr₁.exists_settled (Tree.node?_redraft hb _) left right
      exact ⟨.ok s, a₂, by simp [h₁, h₂, hs], hr₂⟩
    case isTrue he =>
      rw [h.parent?_eq]
      cases hpar : t.parent? e.start.node with
      | none => exact ⟨.ok span, a, rfl, h⟩
      | some p =>
        obtain ⟨w, n', hn', hw, rfl, hmem⟩ := Tree.exists_of_parent? hpar
        have hw := Tree.node?_of_mem h.wf.nodup hw
        obtain rfl : n = n' := Option.some.inj <|
          (h.wf.node?_of_mem_preorder hb hp.mem_preorder).symm.trans (hp.node ▸ hn')
        obtain ⟨xs, ys, hc⟩ := List.append_of_mem hmem
        have hs := hasStyle_eq (h.kind?_of_node? hw) tag
        simp only [Option.bind_some, hw, Option.filter_some, hs]
        by_cases hst : w.kind.hasStyle tag
        case neg => exact ⟨.ok span, a, by simp [hst], by simpa [hst] using h⟩
        case pos =>
          obtain ⟨a₁, h₁, hr₁⟩ := h.clearWithin hw hc hp.isText hp.node (he ▸ hp.node) hst
          have hlt := (h.wf.isSome_node?_iff block).mp (by simp [hb])
          obtain ⟨b₁, hb₁⟩ := hr₁.wf.exists_node? (hlt.trans_le (h.wf.conserves_clearWithin hw e tag).le)
          obtain ⟨s, a₂, h₂, hs, hr₂⟩ := hr₁.exists_settled hb₁ left right
          exact ⟨.ok s, a₂, by simp [hst, h₁, h₂, hs], by simpa [hst] using hr₂⟩

theorem Holds.apply (h : a.Holds t) (hb : t.node? block = some b) (span : Span) (tag : String) :
    ∃ s a', a.apply block span tag = some (s, a') ∧ a'.Holds (t.apply block span tag).2 := by
  obtain ⟨r, a', hr, h'⟩ := h.tryApply hb span tag
  exact ⟨r.toOption.getD span, a', by simp [Arena.apply, hr], h'⟩

theorem Holds.clear (h : a.Holds t) (hb : t.node? block = some b) (span : Span) (tag : String) :
    ∃ s a', a.clear block span tag = some (s, a') ∧ a'.Holds (t.clear block span tag).2 := by
  obtain ⟨r, a', hr, h'⟩ := h.tryClear hb span tag
  exact ⟨r.toOption.getD span, a', by simp [Arena.clear, hr], h'⟩

theorem Holds.stylesIn_eq (h : a.Holds t) (hb : t.node? block = some b) (span : Span) :
    a.stylesIn block span = some (t.stylesIn block span) := by
  rw [stylesIn, h.endpoints_eq hb, Tree.stylesIn]
  cases he : t.endpoints block span with
  | error e => rfl
  | ok e =>
    obtain ⟨b', s, n, s', m, hb', hp, hq⟩ := Tree.perch_of_endpoints he
    cases hb.symm.trans hb'
    obtain ⟨R, hd, -⟩ := h.draws hb
    have hsh := hd.shared (hd.seated hp.children hp.isText) (hd.seated hq.children hq.isText)
      hp.node hq.node
    simp only [bind, Option.bind_some, Except.bind, Tree.children_of_node? hb]
    generalize a.sharedFrom block e.start = first, a.sharedTo block e.stop = last at hsh
    rcases first with _ | first <;> rcases last with _ | last
    case some.some => simp only [hsh]; rfl
    all_goals rw [← Option.some.inj hsh]; rfl

theorem Holds.toggle (h : a.Holds t) (hb : t.node? block = some b) (span : Span) (tag : String) :
    ∃ s a', a.toggle block span tag = some (s, a') ∧ a'.Holds (t.toggle block span tag).2 := by
  simp only [Arena.toggle, h.stylesIn_eq hb, Tree.toggle, Tree.styles, bind, Option.bind_some]
  by_cases ht : tag ∈ (t.stylesIn block span).toOption.getD ∅
  case pos => simpa only [ht, ↓reduceIte] using h.clear hb span tag
  case neg => simpa only [ht, ↓reduceIte] using h.apply hb span tag

end RichText.Arena
