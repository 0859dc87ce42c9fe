import RichText.Proofs.FlatBlock
import RichText.Proofs.Navigable

namespace List

theorem append_cons_cases_of_notMem {as bs cs xs ys : List α} (h : as ++ bs ++ cs = xs ++ x :: ys)
    (hx : x ∉ bs) : (∃ zs, as = xs ++ x :: zs) ∨ ∃ zs, xs = as ++ bs ++ zs := by
  obtain ⟨zs, h, -⟩ | ⟨zs, h, h'⟩ := append_eq_append_iff.mp h
  case inl => exact .inr ⟨zs, h⟩
  case inr =>
    cases zs with
    | nil => exact .inr ⟨[], by simpa using h.symm⟩
    | cons z zs =>
      injection h' with e _
      subst e
      obtain ⟨us, -, h⟩ | ⟨us, h, h'⟩ := append_eq_append_iff.mp h
      case inl => exact absurd (by simp [h]) hx
      case inr =>
        cases us with
        | nil => simp [show bs = x :: zs from h'.symm] at hx
        | cons u us =>
          injection h' with e _
          exact .inl ⟨us, e ▸ h⟩

end List

namespace RichText

namespace Node

variable {b p : Node} {as bs : List Node}

theorem offsetOf_of_append (hd : b.ids.Nodup) (he : b.LeavesEmpty) (hp : p ∈ b.preorder)
    (hk : p.kind.isLeaf = false) (hc : p.children = as ++ bs) :
    b.offsetOf p as.length = b.countBefore p.id + (as.map charCount).sum := by
  cases bs with
  | cons n bs => rw [offsetOf_before hk hc, countBefore_child hd he hp hk hc]
  | nil =>
    rw [List.append_nil] at hc
    obtain rfl | ⟨as, n, rfl⟩ := as.eq_nil_or_concat
    case inl => simp [offsetOf, not_isText_of_not_isLeaf hk, hc]
    case inr =>
      rw [List.concat_eq_append] at hc ⊢
      rw [List.length_append, List.length_singleton, offsetOf_after hd he hp hk hc,
        countBefore_child hd he hp hk hc]
      simp [Nat.add_assoc]

theorem sights_of_solid {n : Node} (h : n.Solid) : n.sights = n.items := by
  have ⟨i, k, cs⟩ := n
  rw [sights]
  exact if_pos h

theorem sightsAll_eq_flatMap (ns : List Node) : sightsAll ns = ns.flatMap sights := by
  induction ns with
  | nil => rfl
  | cons n ns ih => rw [sightsAll, ih, List.flatMap_cons]

end Node

namespace Seat

def ahead : Seat → List Node
  | bare before _ => before
  | held before _ _ left _ _ => before ++ left

def behind : Seat → List Node
  | bare _ after => after
  | held _ _ _ _ right after => right ++ after

theorem total_lead (s : Seat) : Piece.total s.lead = (s.ahead.map Node.charCount).sum := by
  have hi (ns : List Node) (host : Option StyleSet) :
      Piece.total ((ns.flatMap Node.items).map (⟨·, host⟩)) = (ns.map Node.charCount).sum := by
    induction ns with
    | nil => rfl
    | cons n ns ih => simp [Node.total_items, ih]
  cases s <;> simp [ahead, Node.total_pieces, hi]

theorem sightsAll_plug (s : Seat) (ns : List Node) : Node.sightsAll (s.plug ns) =
    Node.sightsAll s.ahead ++ Node.sightsAll ns ++ Node.sightsAll s.behind := by
  cases s with
  | bare => simp [ahead, behind, Node.sightsAll_eq_flatMap]
  | held before i styles left right after =>
    have hw (cs : List Node) : (Node.mk i (.wrapper styles) cs).sights = Node.sightsAll cs := by
      rw [Node.sights]
      rfl
    simp [ahead, behind, Node.sightsAll_eq_flatMap, hw]

end Seat

namespace Tree

variable {t : Tree} {block : NodeId} {b n : Node} {s : Seat} {p : Position} {o : Nat}

-- A position with its offset in a block of flat content: between two children of the block or of one
-- of its wrappers, or in a text.
inductive Footing (b : Node) : Position → Nat → Prop
  | block {before after : List Node} (children : b.children = before ++ after) :
    Footing b ⟨b.id, before.length⟩ (Piece.total (before.flatMap Node.pieces))
  | wrapper {before left right after : List Node} {i : NodeId} {styles : StyleSet}
    (children : b.children = before ++ .mk i (.wrapper styles) (left ++ right) :: after) :
    Footing b ⟨i, left.length⟩ (Piece.total (Seat.held before i styles left right after).lead)
  | text {p : Position} {s : Seat} {n : Node} (perch : Perch b p s n) :
    Footing b p (Piece.total s.lead + p.offset)

theorem Footing.before (hc : b.children = s.plug [n]) :
    Footing b (s.site b.id).before (Piece.total s.lead) := by
  cases s with
  | bare before after =>
    have hc' : b.children = before ++ n :: after := by simpa using hc
    exact .block hc'
  | held before i styles left right after =>
    have hc' : b.children = before ++ .mk i (.wrapper styles) (left ++ n :: right) :: after := by
      simpa using hc
    have hf : Footing b ⟨i, left.length⟩ _ := .wrapper hc'
    exact hf

theorem Footing.after (hc : b.children = s.plug [n]) (hn : n.Solid) :
    Footing b (s.site b.id).after (Piece.total s.lead + n.charCount) := by
  cases s with
  | bare before after =>
    have hf : Footing b ⟨b.id, (before ++ [n]).length⟩ _ := .block hc
    have hp := Node.pieces_of_not_isWrapper (Node.not_isWrapper_of_solid hn)
    simpa [Seat.site, Site.after, hp, Node.total_items] using hf
  | held before i styles left right after =>
    have hf : Footing b ⟨i, (left ++ [n]).length⟩ _ := .wrapper hc
    simpa [Seat.site, Site.after, Node.total_items, Nat.add_assoc] using hf

section Block

variable (wf : t.WellFormed) (hb : t.node? block = some b) (hk : b.kind.isLeaf = false)

include wf hb hk

theorem Footing.offsetOf (h : Footing b p o) (he : b.LeavesEmpty) : t.offsetOf block p = o := by
  have hd := wf.nodup_ids hb
  cases h with
  | text hp => exact hp.offsetOf wf hb hk
  | block hc =>
    rw [wf.offsetOf_of_mem hb b.mem_preorder_self,
      Node.offsetOf_of_append hd he b.mem_preorder_self hk hc, Node.countBefore_self, Nat.zero_add,
      Node.total_pieces]
  | @wrapper before left right after i styles hc =>
    have hw : Node.mk i (.wrapper styles) (left ++ right) ∈ b.preorder :=
      Node.mem_preorder_of_child (by simp [hc]) (Node.mem_preorder_self _)
    have hs := Node.countBefore_child hd he b.mem_preorder_self hk hc
    have ho := wf.offsetOf_of_mem (k := left.length) hb hw
    rw [Node.offsetOf_of_append hd he hw rfl rfl, hs, Node.countBefore_self, Nat.zero_add] at ho
    rw [Seat.lead_held, Piece.total_append, Node.total_pieces, Node.total_map_items]
    exact ho

theorem exists_footing_resolve (hf : Node.Flat b.children) (hl : Node.Legible b.children) (o : Nat) :
    ∃ o', Footing b (t.resolve block o) o' := by
  have hi := id_of_node? hb
  cases resolve_cases hb hk o
  case inr hr =>
    have hc : b.children = [] ++ b.children := rfl
    have h : Footing b ⟨b.id, ([] : List Node).length⟩ _ := .block hc
    exact ⟨_, hr.right ▸ hi ▸ h⟩
  case inl hr =>
    rw [hr, seek_block (wf.nodup_ids hb) hl]
    cases Landmark.walk_cases ⟨block, b.children.length⟩ o (Node.landmarksAmong b.id 0 b.children)
    case inl e =>
      have h : Footing b ⟨b.id, b.children.length⟩ _ := .block (List.append_nil _).symm
      exact ⟨_, e ▸ hi ▸ h⟩
    case inr hw =>
      obtain ⟨l, hm, hw⟩ := hw
      obtain ⟨ls, rs, e⟩ := List.append_of_mem hm
      obtain ⟨s, hc, hs, -⟩ := Node.exists_seat_of_landmark hf [] e
      rw [List.nil_append] at hc
      rw [hs] at hw
      obtain e | e | ⟨ht, k, hle, e⟩ := hw
      case inl => exact ⟨_, e ▸ Footing.before hc⟩
      case inr.inl =>
        exact ⟨_, e ▸ Footing.after hc (Node.solid_of_mem_landmarksAmong _ hm)⟩
      case inr.inr =>
        have hp : Perch b ⟨l.node.id, k⟩ s l.node := ⟨hc, ht, rfl, hle⟩
        exact ⟨_, e ▸ Footing.text hp⟩

theorem footing_resolve (hf : Node.Flat b.children) (hn : b.Navigable) (hu : t.Unenclosed block o)
    (ho : o ≤ b.charCount) : Footing b (t.resolve block o) o := by
  have ⟨o', h⟩ := exists_footing_resolve wf hb hk hf hn.toLegible o
  have e := h.offsetOf wf hb hk (hn.leavesEmpty hk)
  rw [offsetOf_resolve_of_unenclosed wf hb hk hn hu ho] at e
  exact e ▸ h

theorem Perch.unenclosed (h : Perch b p s n) (hn : b.Navigable) :
    t.Unenclosed block (Piece.total s.lead + p.offset) := by
  refine (unenclosed_iff wf hb hk hn).mpr fun xs m ys e hm hlt => ?_
  have hle := h.le
  have ⟨text, ht⟩ := Node.isText_iff.mp h.isText
  have hs : Node.sightsAll [n] = text.toList.map .char := by
    rw [Node.sightsAll_eq_flatMap, List.flatMap_singleton,
      Node.sights_of_solid (Node.solid_iff.mpr (.inl h.isText)), Node.items_text ht]
  have hx : Item.node m ∉ Node.sightsAll [n] := by simp [hs]
  rw [s.total_lead] at hlt
  rw [h.children, s.sightsAll_plug] at e
  cases List.append_cons_cases_of_notMem e hx
  case inl h =>
    obtain ⟨zs, h⟩ := h
    have hw := congrArg (fun is => (is.map Item.width).sum) h
    simp only [List.map_append, List.map_cons, List.sum_append, List.sum_cons,
      Node.sum_width_sightsAll, Item.width] at hw
    omega
  case inr h =>
    obtain ⟨zs, h⟩ := h
    have hw := congrArg (fun is => (is.map Item.width).sum) h
    simp only [List.map_append, List.sum_append, Node.sum_width_sightsAll, List.map_cons,
      List.map_nil, List.sum_cons, List.sum_nil] at hw
    omega

end Block

end Tree

end RichText
