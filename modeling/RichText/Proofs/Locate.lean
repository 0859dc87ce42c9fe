import RichText.Endpoints
import RichText.Proofs.Parent
import RichText.Proofs.Seat

namespace RichText

namespace Node

theorem locateFrom_of_not_mem {n : Node} (h : target ∉ n.ids) : n.locateFrom target path = none := by
  rw [← Option.not_isSome_iff_eq_none, locateFrom_isSome]
  exact h

theorem locate?_of_not_mem {n : Node} (h : target ∉ n.ids) : n.locate? target = none :=
  locateFrom_of_not_mem h

theorem locateAmong_append {ns : List Node} (h : target ∉ idsAll ns) (ms : List Node) :
    locateAmong target path i k before (ns ++ ms) =
      locateAmong target path i k (ns.reverse ++ before) ms := by
  induction ns generalizing before with
  | nil => rfl
  | cons n ns ih =>
    simp only [idsAll_cons, List.mem_append, not_or] at h
    rw [List.cons_append, locateAmong, locateFrom_of_not_mem h.left, ih h.right]
    simp

theorem locateFrom_plug {f : Frame} {n : Node} (hd : (f.plug n).ids.Nodup) (h : target ∈ n.ids)
    (path : List Frame) : (f.plug n).locateFrom target path = n.locateFrom target (f :: path) := by
  rw [Frame.plug, ids_mk, List.nodup_cons, idsAll_append, idsAll_cons, List.nodup_append] at hd
  have hi : f.id ≠ target := fun e => hd.left (by simp [e, h])
  have hb : target ∉ idsAll f.before.reverse :=
    fun hb => hd.right.right.right _ hb _ (List.mem_append_left _ h) rfl
  have h' : (n.locateFrom target (f :: path)).isSome := (locateFrom_isSome n).mpr h
  obtain ⟨l, hl⟩ := Option.isSome_iff_exists.mp h'
  rw [Frame.plug, locateFrom, if_neg hi, locateAmong_append hb, locateAmong]
  simp [hl]

theorem locateFrom_top {l : Location} (hd : l.top.ids.Nodup) (h : target ∈ l.node.ids)
    (path : List Frame) :
    l.top.locateFrom target path = l.node.locateFrom target (l.path ++ path) := by
  have ⟨n, fs⟩ := l
  induction fs generalizing n with
  | nil => rfl
  | cons f fs ih =>
    have hf : target ∈ (f.plug n).ids := by simp [Frame.plug, show target ∈ n.ids from h]
    have hn := nodup_ids_of_mem hd (Location.node_mem_top ⟨f.plug n, fs⟩)
    exact (ih (f.plug n) hd hf).trans (locateFrom_plug hn h _)

end Node

namespace Location

variable {l : Location}

theorem locate?_top (hd : l.top.ids.Nodup) : l.top.locate? l.node.id = some l := by
  have ht := Node.locateFrom_top hd l.node.id_mem_ids []
  have ⟨⟨i, k, cs⟩, path⟩ := l
  rw [List.append_nil] at ht
  rw [Node.locate?, ht, Node.locateFrom]
  exact if_pos rfl

theorem child?_of_children (hc : l.node.children = xs ++ n :: ys) :
    l.child? xs.length = some ⟨n, ⟨l.node.id, l.node.kind, xs.reverse, ys⟩ :: l.path⟩ := by
  simp [child?, hc]

section Seek

variable {p : Node → Bool} {f : Frame} {path : List Frame} {n c : Node} {ms : List Node}
  (hn : p n = false) (hm : ∀ m ∈ ms, p m = false)

include hn hm

theorem seekRight_go_of_not (hc : p c) (before after : List Node) :
    seekRight.go p f path before n (ms ++ c :: after) =
      some ⟨c, { f with before := ms.reverse ++ n :: before, after } :: path⟩ := by
  induction ms generalizing n before with
  | nil => cases after <;> simp [seekRight.go, hn, hc]
  | cons m ms ih =>
    have ih := ih (hm m (.head _)) (fun m hm' => hm m (.tail _ hm')) (n :: before)
    rw [List.cons_append, seekRight.go, hn]
    simpa using ih

theorem seekLeft_go_of_not (hc : p c) (after before : List Node) :
    seekLeft.go p f path after n (ms ++ c :: before) =
      some ⟨c, { f with before, after := ms.reverse ++ n :: after } :: path⟩ := by
  induction ms generalizing n after with
  | nil => cases before <;> simp [seekLeft.go, hn, hc]
  | cons m ms ih =>
    have ih := ih (hm m (.head _)) (fun m hm' => hm m (.tail _ hm')) (n :: after)
    rw [List.cons_append, seekLeft.go, hn]
    simpa using ih

theorem seekRight_go_eq_none (before : List Node) : seekRight.go p f path before n ms = none := by
  induction ms generalizing n before with
  | nil => simp [seekRight.go, hn]
  | cons m ms ih =>
    rw [seekRight.go, if_neg (by simp [hn])]
    exact ih (hm m (.head _)) (fun m hm' => hm m (.tail _ hm')) _

theorem seekLeft_go_eq_none (after : List Node) : seekLeft.go p f path after n ms = none := by
  induction ms generalizing n after with
  | nil => simp [seekLeft.go, hn]
  | cons m ms ih =>
    rw [seekLeft.go, if_neg (by simp [hn])]
    exact ih (hm m (.head _)) (fun m hm' => hm m (.tail _ hm')) _

end Seek

end Location

namespace Seat

variable {s : Seat} {b n : Node}

def frames (b : Node) : Seat → List Frame
  | bare before after => [⟨b.id, b.kind, before.reverse, after⟩]
  | held before id styles left right after =>
    [⟨id, .wrapper styles, left.reverse, right⟩, ⟨b.id, b.kind, before.reverse, after⟩]

def location (b n : Node) (s : Seat) : Location where
  node := n
  path := s.frames b

theorem top_location (hc : b.children = s.plug [n]) : (s.location b n).top = b := by
  have he := b.eta
  rw [hc] at he
  cases s <;> simpa [Location.top, location, frames, Frame.plug] using he

theorem locate?_seat (hd : b.ids.Nodup) (hc : b.children = s.plug [n]) :
    b.locate? n.id = some (s.location b n) := by
  have ht : (s.location b n).top = b := top_location hc
  have hl : (s.location b n).top.ids.Nodup := ht.symm ▸ hd
  calc b.locate? n.id
    _ = (s.location b n).top.locate? n.id := by rw [ht]
    _ = some (s.location b n) := Location.locate?_top hl

end Seat

namespace Tree

variable {t : Tree} {block : NodeId} {b n : Node} {s : Seat}

theorem WellFormed.locate?_of_top (wf : t.WellFormed) {l : Location} (h : l.top ∈ t.roots) :
    t.locate? l.node.id = some l := by
  have ⟨as, bs, e⟩ := List.append_of_mem h
  have hd := wf.nodup
  rw [e, Node.idsAll_append, Node.idsAll_cons, List.nodup_append, List.nodup_append] at hd
  have hl : l.node.id ∈ l.top.ids := Node.mem_ids_iff.mpr ⟨_, l.node_mem_top, rfl⟩
  have has : ∀ a ∈ as, a.locate? l.node.id = none := by
    intro a ha
    apply Node.locate?_of_not_mem
    intro hi
    have hi := (Node.ids_sublist_of_mem ha).subset hi
    exact hd.right.right _ hi _ (List.mem_append_left _ hl) rfl
  rw [locate?, e, List.findSome?_append, List.findSome?_eq_none_iff.mpr has]
  simp [l.locate?_top hd.right.left.left]

theorem WellFormed.locate?_beneath (wf : t.WellFormed) {l lb : Location}
    (hb : t.locate? block = some lb) (hl : l.top = lb.node) :
    t.locate? l.node.id = some ⟨l.node, l.path ++ lb.path⟩ := by
  have ⟨r, hr, hrl⟩ := List.exists_of_findSome?_eq_some hb
  have ht : (Location.mk l.node (l.path ++ lb.path)).top = r := by
    rw [← Node.top_of_locate? hrl, Location.top, List.foldl_append]
    exact congrArg (lb.path.foldl _) hl
  exact wf.locate?_of_top (ht ▸ hr)

theorem WellFormed.embedBelow?_seat (wf : t.WellFormed) (hb : t.node? block = some b)
    (hc : b.children = s.plug [n]) : t.embedBelow? b.id n.id = none := by
  have ⟨lb, hlb, e⟩ := Option.map_eq_some_iff.mp hb
  have ht : (s.location b n).top = lb.node := (Seat.top_location hc).trans e.symm
  have hl : t.locate? n.id = some ⟨n, s.frames b ++ lb.path⟩ := wf.locate?_beneath hlb ht
  rw [embedBelow?, hl, Option.bind_some, Location.embedBelow?, Location.ancestors]
  cases s with
  | bare => simp [Seat.frames]
  | held before id styles left right after =>
    have hi : id ≠ b.id := by
      intro e
      have hd := wf.nodup_ids hb
      rw [Node.ids_eq, hc, List.nodup_cons] at hd
      exact hd.left (by simp [e])
    simp [Seat.frames, hi, Kind.isEmbed]

end Tree

end RichText
