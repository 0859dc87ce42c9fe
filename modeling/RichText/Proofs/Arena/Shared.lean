import RichText.Proofs.Arena.Clear
import RichText.Proofs.Arena.Endpoints
import RichText.Proofs.Shared

namespace RichText

namespace Draft

variable {d : Draft} {s : Seat} {n : Node} {q : Position} {i j : NodeId}

def meet (common : Option StyleSet) (s : StyleSet) : Option StyleSet :=
  some ((common.map (· ∩ s)).getD s)

theorem foldl_meet_some (s : StyleSet) (ss : List StyleSet) :
    ss.foldl meet (some s) = some (ss.foldl (· ∩ ·) s) := by
  induction ss generalizing s with
  | nil => rfl
  | cons s' ss ih => exact ih (s ∩ s')

theorem sharedStyles_eq (ns : List Node) : sharedStyles ns = if ns.any Node.isText then ∅
    else ((ns.filterMap (·.kind.styles?)).foldl meet none).getD ∅ := by
  rw [sharedStyles]
  split
  case isTrue => rfl
  case isFalse =>
    cases ns.filterMap (·.kind.styles?) with
    | nil => rfl
    | cons s ss => simp [meet, foldl_meet_some]

theorem next?_mem (h : d.next? i = some j) : j ∈ d.content.map Node.id := by
  obtain ⟨n, hn, rfl⟩ := Option.map_eq_some_iff.mp h
  exact List.mem_map_of_mem
    ((List.dropWhile_sublist _).subset (List.mem_of_mem_tail (List.mem_of_head? hn)))

theorem At.sharedFrom_mem (h : d.At s n) (hq : q.node = n.id) (hi : d.sharedFrom q = some i) :
    i ∈ d.content.map Node.id := by
  rw [sharedFrom_eq h hq] at hi
  split at hi
  case isTrue => exact next?_mem hi
  case isFalse =>
    cases hi
    rw [h.content, s.plug_eq]
    simp

end Draft

namespace Arena

variable {a : Arena} {p last : NodeId} {k : Kind} {R : Multiset Cell} {N : Nat} {is : List NodeId}
  {d : Draft} {s s' : Seat} {n m : Node} {q : Position} {e : Endpoints}

section Step

variable {i : NodeId} (common : Option StyleSet)

theorem sharedStyles_text {t : String} (hk : a.kind? i = some (.text t)) :
    a.sharedStyles last common i = some ∅ := by
  rw [sharedStyles, hk]

theorem sharedStyles_step (hk : a.kind? i = some k) (ht : k.isText = false) :
    a.sharedStyles last common i =
      let common := k.styles?.elim common (Draft.meet common)
      if i = last then some (common.getD ∅)
      else match a.next? i with
        | some j => a.sharedStyles last common j
        | none => some ∅ := by
  rw [sharedStyles, hk]
  cases k <;> first | contradiction | rfl

end Step

theorem any_isText_through (ht : n.isText) (ns : List Node) :
    (Node.through last (n :: ns)).1.any Node.isText := by
  rw [Node.through]
  split <;> simp [ht]

theorem Stores.sharedStyles {ns : List Node} (h : a.Stores N (family p k is (n :: ns) [] R))
    (common : Option StyleSet) : a.sharedStyles last common n.id =
      let inside := (Node.through last (n :: ns)).1
      some (if inside.any (·.id = last) && !inside.any Node.isText then
        ((inside.filterMap (·.kind.styles?)).foldl Draft.meet common).getD ∅ else ∅) := by
  induction ns generalizing n is R common with
  | nil =>
    have hn : a.next? n.id = none := h.next?_family
    cases ht : n.isText with
    | true =>
      obtain ⟨t, hk⟩ := Node.isText_iff.mp ht
      simp [sharedStyles_text common (hk ▸ h.kind?_family), any_isText_through ht]
    | false =>
      rw [sharedStyles_step common h.kind?_family ht, hn, Node.through, Node.through]
      by_cases e : n.id = last
      case pos => cases hs : n.kind.styles? <;> simp [e, ht, hs]
      case neg => simp [e]
  | cons m ns ih =>
    have hn : a.next? n.id = some m.id := by simp [h.next?_family]
    cases ht : n.isText with
    | true =>
      obtain ⟨t, hk⟩ := Node.isText_iff.mp ht
      simp [sharedStyles_text common (hk ▸ h.kind?_family), any_isText_through ht]
    | false =>
      rw [sharedStyles_step common h.kind?_family ht, hn, Node.through]
      simp only [ih h.next_family]
      by_cases e : n.id = last
      case pos => cases hs : n.kind.styles? <;> simp [e, ht, hs]
      case neg => cases hs : n.kind.styles? <;> simp [e, ht, hs]

namespace Draws

section End

variable (h : a.Draws p k R d) (ha : d.At s n) (hq : q.node = n.id)

include h ha hq

theorem sharedFrom : a.sharedFrom p q = d.sharedFrom q := by
  have ht : a.isText n.id = true := by rw [isText_eq (h.kind?_seat ha)]; exact ha.isText
  cases s with
  | bare before after =>
    have hs : a.Stores d.next ((Place.among p k [] [] (Node.cells d.dropped + R)).cells
        (before ++ n :: after)) := h.of_eq (by simp [Place.cells, ha.content])
    have hn := Draft.next?_of_content ha.sound.nodup_content (by simpa using ha.content)
    have hp : (a.parent? n.id).filter (· ≠ p) = none := by simp [h.parent?_bare ha]
    rw [Arena.sharedFrom, hq, hp]
    simp [Draft.sharedFrom, hq, ha.holder?_bare, ht, h.textLength_seat ha, hs.next?_sibling, hn]
  | held before i styles left right after =>
    obtain ⟨hp, hne⟩ := h.parent?_held ha
    have hn : (a.next? n.id).isNone = right.isEmpty := (h.place ha).isNone_next?_within rfl
    have hp : (a.parent? n.id).filter (· ≠ p) = some i := by simp [hp, hne]
    rw [Arena.sharedFrom, hq, hp]
    simp [Draft.sharedFrom, hq, ha.holder?_held, hn, h.textLength_seat ha, ha.childrenAround_held,
      h.next?_held ha]

theorem sharedTo : a.sharedTo p q = d.sharedTo q := by
  have ht : a.isText n.id = true := by rw [isText_eq (h.kind?_seat ha)]; exact ha.isText
  cases s with
  | bare before after =>
    have hs : a.Stores d.next ((Place.among p k [] [] (Node.cells d.dropped + R)).cells
        (before ++ n :: after)) := h.of_eq (by simp [Place.cells, ha.content])
    have hn := Draft.prev?_of_content ha.sound.nodup_content (by simpa using ha.content)
    have hp : (a.parent? n.id).filter (· ≠ p) = none := by simp [h.parent?_bare ha]
    rw [Arena.sharedTo, hq, hp]
    simp [Draft.sharedTo, hq, ha.holder?_bare, ht, hs.prev?_sibling, hn]
  | held before i styles left right after =>
    obtain ⟨hp, hne⟩ := h.parent?_held ha
    have hn : (a.prev? n.id).isNone = left.isEmpty := (h.place ha).isNone_prev?_within rfl
    have hp : (a.parent? n.id).filter (· ≠ p) = some i := by simp [hp, hne]
    rw [Arena.sharedTo, hq, hp]
    simp [Draft.sharedTo, hq, ha.holder?_held, hn, ha.childrenAround_held, h.prev?_held ha]

end End

end Draws

theorem Draws.shared (h : a.Draws p k R d) (ha : d.At s n) (hb : d.At s' m)
    (hs : e.start.node = n.id) (ht : e.stop.node = m.id) :
    (match a.sharedFrom p e.start, a.sharedTo p e.stop with
    | some first, some last => a.sharedStyles last none first
    | _, _ => some ∅) = some (d.shared e) := by
  rw [h.sharedFrom ha hs, h.sharedTo hb ht, Draft.shared]
  cases hf : d.sharedFrom e.start with
  | none => rfl
  | some first =>
    cases d.sharedTo e.stop with
    | none => rfl
    | some last =>
      obtain ⟨m, hm, rfl⟩ := List.mem_map.mp (ha.sharedFrom_mem hs hf)
      obtain ⟨before, after, hc⟩ := List.append_of_mem hm
      have hn := Node.not_mem_of_nodup (hc ▸ h.sound.nodup_content)
      have hu : a.Stores d.next (family p k (before.map Node.id) (m :: after) []
          (Node.cells before + (Node.cells d.dropped + R))) := h.of_eq (by
        simp [hc, family, ← Multiset.singleton_add]
        abel)
      simp only [hu.sharedStyles, Node.segment, hc, Node.takeWhile_id hn, Node.dropWhile_id hn,
        Draft.sharedStyles_eq]
      generalize (Node.through last (m :: after)).1 = inside
      cases inside.any (·.id = last) <;> cases inside.any Node.isText <;> rfl

end Arena

end RichText
