import RichText.Proofs.Arena.Endpoints

namespace RichText

namespace Location

variable {l : Location} {m : Node} {scope i : NodeId}

theorem mem_tipsAfter (h : l.nextLeaf? scope = some m) : m ∈ tipsAfter l.path := by
  obtain ⟨n, path⟩ := l
  induction path generalizing n with
  | nil => simp [nextLeaf?, nextLeaf?.climb] at h
  | cons f path ih =>
    rw [nextLeaf?, nextLeaf?.climb] at h
    rw [tipsAfter, List.mem_append]
    split at h
    case isTrue => contradiction
    case isFalse =>
      split at h
      case h_1 c _ hc =>
        cases h
        exact .inl (by simp [hc, List.mem_of_head? c.head?_tips])
      case h_2 => exact .inr (ih (f.plug n) h)

theorem mem_of_embedBelow? (h : l.embedBelow? scope = some i) : i ∈ l.ancestors.map Prod.fst := by
  obtain ⟨x, hx, rfl⟩ := Option.map_eq_some_iff.mp h
  exact List.mem_map_of_mem ((List.takeWhile_sublist _).subset (List.mem_of_find?_eq_some hx))

theorem exists_above (h : i ∈ l.ancestors.map Prod.fst) : ∃ l' : Location, l'.node.id = i ∧
    l'.top = l.top ∧ (tipsAfter l'.path).length ≤ (tipsAfter l.path).length := by
  obtain ⟨n, path⟩ := l
  induction path generalizing n with
  | nil => contradiction
  | cons f path ih =>
    have hle : (tipsAfter path).length ≤ (tipsAfter (f :: path)).length := by simp [tipsAfter]
    cases List.mem_cons.mp h with
    | inl e => exact ⟨⟨f.plug n, path⟩, e.symm, rfl, hle⟩
    | inr h =>
      obtain ⟨l', hi, ht, hl⟩ := ih (f.plug n) h
      exact ⟨l', hi, ht, hl.trans hle⟩

end Location

namespace Tree

variable {t : Tree} {l : Location} {n : Node} {xs ys : List Node}

theorem WellFormed.exists_leaf (wf : t.WellFormed) (hl : l.top ∈ t.roots)
    (h : l.top.tips = xs ++ n :: ys) : ∃ l' : Location, l'.node.id = n.id ∧ l'.top ∈ t.roots ∧
      (Location.tipsAfter l'.path).length = ys.length := by
  have hr : t.node? l.top.id = some l.top := node_of_locate? (wf.locate?_of_top (l := ⟨l.top, []⟩) hl)
  obtain ⟨l', hl', -, rfl⟩ := wf.exists_of_tips hr h
  exact ⟨l', Node.id_of_locate? hl', Node.top_of_locate? hl' ▸ hl, rfl⟩

theorem WellFormed.exists_lastLeaf (wf : t.WellFormed) (hl : l.top ∈ t.roots) :
    ∃ l' : Location, l'.node.id = l.node.lastLeaf.id ∧ l'.top ∈ t.roots ∧
      (Location.tipsAfter l'.path).length = (Location.tipsAfter l.path).length := by
  obtain ⟨us, hu⟩ := List.getLast?_eq_some_iff.mp l.node.getLast?_tips
  exact wf.exists_leaf hl (show _ = (Location.tipsBefore l.path ++ us) ++ _ by simp [l.tips_top, hu])

theorem WellFormed.exists_nextLeaf (wf : t.WellFormed) (hl : l.top ∈ t.roots)
    (h : l.nextLeaf? scope = some n) : ∃ l' : Location, l'.node.id = n.id ∧ l'.top ∈ t.roots ∧
      (Location.tipsAfter l'.path).length < (Location.tipsAfter l.path).length := by
  obtain ⟨us, vs, hu⟩ := List.append_of_mem (Location.mem_tipsAfter h)
  obtain ⟨l', hi, ht, hlen⟩ := wf.exists_leaf hl
    (show _ = (Location.tipsBefore l.path ++ l.node.tips ++ us) ++ n :: vs by simp [l.tips_top, hu])
  exact ⟨l', hi, ht, by simp [hlen, hu]; omega⟩

end Tree

namespace Arena

variable {a : Arena} {t : Tree} {block : NodeId} {b : Node} {l : Location}

section Seek

variable (h : a.Holds t)

include h

-- Each leaf on the way is read after the one before it, and so are those behind an embed.
theorem Holds.exists_seek (hl : l.top ∈ t.roots) (stop : Position) (remaining : Nat) :
    ∃ p, a.seek block stop remaining (some l.node.id) = some p := by
  induction hk : (Location.tipsAfter l.path).length using Nat.strong_induction_on
    generalizing l remaining with
  | _ k ih =>
    have onward (l' : Location) (hl' : l'.top ∈ t.roots)
        (hle : (Location.tipsAfter l'.path).length ≤ k) (remaining : Nat) :
        ∃ p, (a.nextLeaf? block l'.node.id).bind (a.seek block stop remaining) = some p := by
      rw [h.nextLeaf?_at hl', Option.bind_some]
      cases hn : l'.nextLeaf? block with
      | none => exact ⟨stop, by rw [Option.map_none, seek]⟩
      | some n =>
        obtain ⟨l'', hi, ht, hlt⟩ := h.wf.exists_nextLeaf hl' hn
        obtain ⟨p, hp⟩ := ih _ (hlt.trans_le hle) ht remaining rfl
        exact ⟨p, by rw [Option.map_some, ← hi, hp]⟩
    have here := onward l hl hk.le
    rw [seek, h.embedAbove?_eq, h.kind?_at hl]
    cases l.node.kind with
    | text s =>
      cases he : t.embedBelow? block l.node.id with
      | none =>
        simp only [bind, Option.bind_some]
        split
        case isTrue => exact ⟨_, rfl⟩
        case isFalse => exact here _
      | some i =>
        -- The embed is above the leaf, so what comes after it comes after the leaf.
        rw [Tree.embedBelow?, h.wf.locate?_of_top hl] at he
        obtain ⟨u, rfl, ht, hle⟩ := Location.exists_above (Location.mem_of_embedBelow? he)
        rw [← ht] at hl
        obtain ⟨l', hi, ht', hlen⟩ := h.wf.exists_lastLeaf hl
        have hu := h.node?_at hl
        have hlast := h.lastLeaf_eq hu
        have past := onward l' ht' (hlen.trans_le (hle.trans hk.le))
        rw [hi] at past
        simp only [bind, Option.bind_some, h.charCount_eq hu, hlast]
        split
        case isTrue => exact ⟨_, rfl⟩
        case isFalse =>
          split
          case isTrue => exact ⟨_, rfl⟩
          case isFalse => exact past _
    | lineBreak trailing =>
      cases trailing with
      | true => exact ⟨_, rfl⟩
      | false =>
        simp only [bind]
        split
        case isTrue => exact ⟨_, rfl⟩
        case isFalse => exact here _
    | _ => exact here _

end Seek

theorem Holds.exists_resolve (h : a.Holds t) (hb : t.node? block = some b) (offset : Nat) :
    ∃ p, a.resolve block offset = some p := by
  obtain ⟨lb, hlb, rfl⟩ := Tree.exists_locate? hb
  have hf := h.firstLeaf_eq hb
  simp only [resolve, hf, bind, Option.bind_some, h.embedAbove?_eq]
  split
  case isTrue =>
    split
    case isTrue => split <;> exact ⟨_, rfl⟩
    case isFalse => exact ⟨_, rfl⟩
  case isFalse =>
    have ht := Tree.top_of_locate? hlb
    obtain ⟨us, hu⟩ := List.head?_eq_some_iff.mp lb.node.head?_tips
    obtain ⟨l, hi, hl, -⟩ := h.wf.exists_leaf ht (show _ = Location.tipsBefore lb.path ++
      lb.node.firstLeaf :: (us ++ Location.tipsAfter lb.path) by simp [lb.tips_top, hu])
    rw [← hi]
    exact h.exists_seek hl _ offset

end Arena

end RichText
