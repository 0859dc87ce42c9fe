import RichText.Proofs.Endpoints
import RichText.Proofs.Locate

namespace RichText

namespace Spot

variable {s s₁ s₂ : Spot}

def toStart (s : Spot) : Except SpanFault Spot := do
  let s ← s.startInBlock
  let s ← s.startPastAtoms
  return s.startInWrapper

def toStop (s : Spot) : Except SpanFault Spot := do
  let s ← s.stopInBlock
  let s ← s.stopPastAtoms
  return s.stopInWrapper

theorem toStart_of (h₁ : s.startInBlock = .ok s₁) (h₂ : s₁.startPastAtoms = .ok s₂) :
    s.toStart = .ok s₂.startInWrapper := by
  simp [toStart, h₁, h₂, bind, Except.bind, pure, Except.pure]

theorem toStop_of (h₁ : s.stopInBlock = .ok s₁) (h₂ : s₁.stopPastAtoms = .ok s₂) :
    s.toStop = .ok s₂.stopInWrapper := by
  simp [toStop, h₁, h₂, bind, Except.bind, pure, Except.pure]

section Stays

theorem startInBlock_of_not_isBlock (h : s.isBlock = false) : s.startInBlock = .ok s := by
  simp [startInBlock, h]

theorem stopInBlock_of_not_isBlock (h : s.isBlock = false) : s.stopInBlock = .ok s := by
  simp [stopInBlock, h]

theorem startPastAtoms_of_not_isAtomic (h : s.node.kind.isAtomic = false) :
    s.startPastAtoms = .ok s := by
  simp [startPastAtoms, h]

theorem stopPastAtoms_of_not_isAtomic (h : s.node.kind.isAtomic = false) :
    s.stopPastAtoms = .ok s := by
  simp [stopPastAtoms, h]

theorem startInWrapper_of_not_isWrapper (h : s.node.isWrapper = false) : s.startInWrapper = s := by
  simp [startInWrapper, h]

theorem stopInWrapper_of_not_isWrapper (h : s.node.isWrapper = false) : s.stopInWrapper = s := by
  simp [stopInWrapper, h]

end Stays

end Spot

theorem Endpoints.ofSpots_of {start stop s u : Spot} (hs : start.toStart = .ok s)
    (hu : stop.toStop = .ok u) (hs' : s.isStyleable) (hu' : u.isStyleable) :
    ofSpots start stop = .ok ⟨s.position, u.position⟩ := by
  have ⟨s₁, hs₁, hs⟩ := bind_eq_ok.mp hs
  have ⟨s₂, hs₂, hs⟩ := bind_eq_ok.mp hs
  have ⟨u₁, hu₁, hu⟩ := bind_eq_ok.mp hu
  have ⟨u₂, hu₂, hu⟩ := bind_eq_ok.mp hu
  cases hs
  cases hu
  simp [ofSpots, hs₁, hs₂, hu₁, hu₂, hs', hu', bind, Except.bind]

theorem Endpoints.exists_of_ofSpots {start stop : Spot} (h : ofSpots start stop = .ok e) :
    (∃ s, start.toStart = .ok s) ∧ ∃ u, stop.toStop = .ok u := by
  have ⟨_, hs₁, h⟩ := bind_eq_ok.mp h
  have ⟨_, hu₁, h⟩ := bind_eq_ok.mp h
  have ⟨_, hs₂, h⟩ := bind_eq_ok.mp h
  have ⟨_, hu₂, _⟩ := bind_eq_ok.mp h
  exact ⟨⟨_, Spot.toStart_of hs₁ hs₂⟩, _, Spot.toStop_of hu₁ hu₂⟩

namespace Node

theorem not_isAtomic_of_isText {n : Node} (h : n.isText) : n.kind.isAtomic = false := by
  rw [isText] at h
  cases hk : n.kind <;> simp_all [Kind.isText, Kind.isAtomic, Kind.isBreak, Kind.isEmbed]

theorem not_isWrapper_of_isText {n : Node} (h : n.isText) : n.isWrapper = false := by
  rw [isText] at h
  rw [isWrapper]
  cases hk : n.kind <;> simp_all [Kind.isText, Kind.isWrapper]

theorem extent_of_isText {n : Node} (h : n.isText) : n.extent = n.charCount := by
  rw [extent, if_pos h, charCount_of_isText h]

end Node

namespace Seat

variable {s : Seat} {b n : Node} {k : Nat} {before after left right : List Node} {i : NodeId}
  {styles : StyleSet}

def spot (b n : Node) (k : Nat) (s : Seat) : Spot where
  location := s.location b n
  offset := k

theorem isStyleable_spot (h : n.isText) : (s.spot b n k).isStyleable := by
  cases s <;> simp [spot, Spot.isStyleable, Spot.node, location, frames, h, Kind.isWrapper]

theorem isBlock_spot : (s.spot b n k).isBlock = false := by
  cases s <;> rfl

theorem toStart_spot (h : n.isText) : (s.spot b n k).toStart = .ok (s.spot b n k) := by
  have h₁ := Spot.startInBlock_of_not_isBlock (isBlock_spot (s := s) (b := b) (n := n) (k := k))
  have h₂ : (s.spot b n k).startPastAtoms = _ :=
    Spot.startPastAtoms_of_not_isAtomic (Node.not_isAtomic_of_isText h)
  have h₃ : (s.spot b n k).startInWrapper = _ :=
    Spot.startInWrapper_of_not_isWrapper (Node.not_isWrapper_of_isText h)
  rw [Spot.toStart_of h₁ h₂, h₃]

theorem toStop_spot (h : n.isText) : (s.spot b n k).toStop = .ok (s.spot b n k) := by
  have h₁ := Spot.stopInBlock_of_not_isBlock (isBlock_spot (s := s) (b := b) (n := n) (k := k))
  have h₂ : (s.spot b n k).stopPastAtoms = _ :=
    Spot.stopPastAtoms_of_not_isAtomic (Node.not_isAtomic_of_isText h)
  have h₃ : (s.spot b n k).stopInWrapper = _ :=
    Spot.stopInWrapper_of_not_isWrapper (Node.not_isWrapper_of_isText h)
  rw [Spot.toStop_of h₁ h₂, h₃]

theorem startInWrapper_held : ((bare before after).spot b (.mk i (.wrapper styles)
    (left ++ n :: right)) left.length).startInWrapper =
      (held before i styles left right after).spot b n 0 := by
  have hc := Location.child?_of_children
    (l := (bare before after).location b (.mk i (.wrapper styles) (left ++ n :: right))) rfl
  rw [Spot.startInWrapper, if_pos (by rfl)]
  simp only [spot, hc]
  rfl

theorem toStart_held : ((bare before after).spot b (.mk i (.wrapper styles) (left ++ n :: right))
    left.length).toStart = .ok ((held before i styles left right after).spot b n 0) := by
  rw [Spot.toStart_of rfl rfl, startInWrapper_held]

theorem stopInWrapper_held : (Spot.atEnd ((bare before after).location b
    (.mk i (.wrapper styles) (left ++ [n])))).stopInWrapper =
      (held before i styles left [] after).spot b n n.extent := by
  have hc := Location.child?_of_children
    (l := (bare before after).location b (.mk i (.wrapper styles) (left ++ [n]))) rfl
  have he : (Node.mk i (.wrapper styles) (left ++ [n])).extent = left.length + 1 := by
    simp [Node.extent, Node.isText, Kind.isText]
  rw [Spot.stopInWrapper, if_pos (by rfl)]
  simp only [Spot.atEnd, location, he, Nat.add_one_ne_zero, if_false, Nat.add_sub_cancel] at hc ⊢
  rw [hc]
  rfl

section Block

variable (hc : b.children = before ++ n :: after)

include hc

theorem startInBlock_of_children : Spot.startInBlock ⟨⟨b, []⟩, before.length⟩ =
    .ok ((bare before after).spot b n 0) := by
  have hl : (Location.mk b []).child? before.length = _ := Location.child?_of_children hc
  rw [Spot.startInBlock, if_pos (by rfl), hl]
  rfl

theorem stopInBlock_of_children : Spot.stopInBlock ⟨⟨b, []⟩, before.length + 1⟩ =
    .ok (Spot.atEnd ((bare before after).location b n)) := by
  have hl : (Location.mk b []).child? before.length = _ := Location.child?_of_children hc
  rw [Spot.stopInBlock, if_pos (by rfl)]
  simp only [hl]
  rfl

end Block

section Atoms

variable {as : List Node} (ha : ∀ a ∈ as, a.kind.isAtomic)

include ha

theorem toStart_block (hn : n.kind.isAtomic = false) (hc : b.children = before ++ as ++ n :: after) :
    Spot.toStart ⟨⟨b, []⟩, before.length⟩ =
      .ok ((bare (before ++ as) after).spot b n 0).startInWrapper := by
  cases as with
  | nil =>
    rw [List.append_nil] at hc ⊢
    exact Spot.toStart_of (startInBlock_of_children hc) (Spot.startPastAtoms_of_not_isAtomic hn)
  | cons a as =>
    have ha' : a.kind.isAtomic := ha a (.head _)
    have hs : Location.seekRight.go (!·.kind.isAtomic) ⟨b.id, b.kind, before.reverse, as ++ n :: after⟩
        [] before.reverse a (as ++ n :: after) = _ :=
      Location.seekRight_go_of_not (by simp [ha']) (fun m hm => by simp [ha m (.tail _ hm)])
        (by simp [hn]) ..
    have hl : ((bare before (as ++ n :: after)).location b a).seekRight (!·.kind.isAtomic) =
        some ((bare (before ++ a :: as) after).location b n) := by
      simpa [Location.seekRight, location, frames] using hs
    apply Spot.toStart_of (startInBlock_of_children (n := a) (by simpa using hc))
    have ha' : ((bare before (as ++ n :: after)).spot b a 0).node.kind.isAtomic := ha'
    rw [Spot.startPastAtoms, if_pos ha']
    simp only [spot, hl]
    rfl

theorem toStop_block (hn : n.kind.isAtomic = false) (hc : b.children = before ++ n :: as ++ after) :
    Spot.toStop ⟨⟨b, []⟩, (before ++ n :: as).length⟩ =
      .ok (Spot.atEnd ((bare before (as ++ after)).location b n)).stopInWrapper := by
  have hlen : (before ++ n :: as).length = (before ++ as).length + 1 := by simp; omega
  obtain rfl | ⟨as, a, rfl⟩ := as.eq_nil_or_concat
  case inl =>
    rw [hlen, List.append_nil]
    exact Spot.toStop_of (stopInBlock_of_children (by simpa using hc))
      (Spot.stopPastAtoms_of_not_isAtomic hn)
  case inr =>
    rw [List.concat_eq_append] at ha hc ⊢
    have ha' : a.kind.isAtomic := ha a (by simp)
    have hs : Location.seekLeft.go (!·.kind.isAtomic)
        ⟨b.id, b.kind, (before ++ n :: as).reverse, after⟩ [] after a
        (as.reverse ++ n :: before.reverse) = _ :=
      Location.seekLeft_go_of_not (by simp [ha'])
        (fun m hm => by simp [ha m (List.mem_append_left _ (List.mem_reverse.mp hm))])
        (by simp [hn]) ..
    have hl : ((bare (before ++ n :: as) after).location b a).seekLeft (!·.kind.isAtomic) =
        some ((bare before (as ++ [a] ++ after)).location b n) := by
      simpa [Location.seekLeft, location, frames] using hs
    have hlen : (before ++ n :: (as ++ [a])).length = (before ++ n :: as).length + 1 := by
      simp; omega
    rw [hlen]
    apply Spot.toStop_of (stopInBlock_of_children (by simpa using hc))
    have ha' : (Spot.atEnd ((bare (before ++ n :: as) after).location b a)).node.kind.isAtomic := ha'
    rw [Spot.stopPastAtoms, if_pos ha']
    simp only [Spot.atEnd, hl]

theorem toStart_block_bare (hn : n.isText) (hc : b.children = before ++ as ++ n :: after) :
    Spot.toStart ⟨⟨b, []⟩, before.length⟩ = .ok ((bare (before ++ as) after).spot b n 0) := by
  have hw : ((bare (before ++ as) after).spot b n 0).startInWrapper = _ :=
    Spot.startInWrapper_of_not_isWrapper (Node.not_isWrapper_of_isText hn)
  rw [toStart_block ha (Node.not_isAtomic_of_isText hn) hc, hw]

theorem toStart_block_held
    (hc : b.children = before ++ as ++ .mk i (.wrapper styles) (n :: right) :: after) :
    Spot.toStart ⟨⟨b, []⟩, before.length⟩ =
      .ok ((held (before ++ as) i styles [] right after).spot b n 0) := by
  have hs : ((bare (before ++ as) after).spot b (.mk i (.wrapper styles) ([] ++ n :: right))
      ([] : List Node).length).startInWrapper = _ := startInWrapper_held
  rw [toStart_block ha rfl hc]
  exact congrArg Except.ok hs

theorem toStop_block_bare (hn : n.isText) (hc : b.children = before ++ n :: as ++ after) :
    Spot.toStop ⟨⟨b, []⟩, (before ++ n :: as).length⟩ =
      .ok ((bare before (as ++ after)).spot b n n.extent) := by
  have hw : (Spot.atEnd ((bare before (as ++ after)).location b n)).stopInWrapper = _ :=
    Spot.stopInWrapper_of_not_isWrapper (Node.not_isWrapper_of_isText hn)
  rw [toStop_block ha (Node.not_isAtomic_of_isText hn) hc, hw]
  rfl

theorem toStop_block_held
    (hc : b.children = before ++ .mk i (.wrapper styles) (left ++ [n]) :: as ++ after) :
    Spot.toStop ⟨⟨b, []⟩, (before ++ .mk i (.wrapper styles) (left ++ [n]) :: as).length⟩ =
      .ok ((held before i styles left [] (as ++ after)).spot b n n.extent) := by
  rw [toStop_block ha rfl hc, stopInWrapper_held]

theorem toStart_block_error (hc : b.children = before ++ as) :
    ∃ fault, Spot.toStart ⟨⟨b, []⟩, before.length⟩ = .error fault := by
  cases as with
  | nil =>
    have hl : (Location.mk b []).child? before.length = none := by simp [Location.child?, hc]
    refine ⟨.startPastEnd, ?_⟩
    rw [Spot.toStart, Spot.startInBlock, if_pos (by rfl), hl]
    rfl
  | cons a as =>
    have ha' : a.kind.isAtomic := ha a (.head _)
    have hs : Location.seekRight.go (!·.kind.isAtomic) ⟨b.id, b.kind, before.reverse, as⟩
        [] before.reverse a as = none :=
      Location.seekRight_go_eq_none (by simp [ha']) (fun m hm => by simp [ha m (.tail _ hm)]) _
    have hn : ((bare before as).spot b a 0).node.kind.isAtomic := ha'
    refine ⟨.nothingAfterStart, ?_⟩
    rw [Spot.toStart, startInBlock_of_children hc]
    simp only [bind, Except.bind, Spot.startPastAtoms, hn, if_true]
    simp only [spot, location, frames, Location.seekRight, hs]

theorem toStop_block_error (hc : b.children = as ++ after) :
    ∃ fault, Spot.toStop ⟨⟨b, []⟩, as.length⟩ = .error fault := by
  obtain rfl | ⟨as, a, rfl⟩ := as.eq_nil_or_concat
  case inl => exact ⟨.stopAtStart, rfl⟩
  case inr =>
    rw [List.concat_eq_append] at ha hc ⊢
    have ha' : a.kind.isAtomic := ha a (by simp)
    have hs : Location.seekLeft.go (!·.kind.isAtomic) ⟨b.id, b.kind, as.reverse, after⟩
        [] after a as.reverse = none :=
      Location.seekLeft_go_eq_none (by simp [ha'])
        (fun m hm => by simp [ha m (List.mem_append_left _ (List.mem_reverse.mp hm))]) _
    have hn : (Spot.atEnd ((bare as after).location b a)).node.kind.isAtomic := ha'
    refine ⟨.nothingBeforeStop, ?_⟩
    rw [List.length_append, List.length_singleton, Spot.toStop,
      stopInBlock_of_children (by simpa using hc)]
    simp only [bind, Except.bind, Spot.stopPastAtoms, hn, if_true]
    simp only [Spot.atEnd, location, frames, Location.seekLeft, hs]

end Atoms

end Seat

namespace Tree

variable {t : Tree} {block : NodeId} {b n m : Node} {s s' : Seat}

theorem WellFormed.spot_seat (wf : t.WellFormed) (hb : t.node? block = some b)
    (hc : b.children = s.plug [n]) (hk : k ≤ n.extent) :
    t.spot b ⟨n.id, k⟩ = .ok (s.spot b n k) := by
  have hp : (s.location b n).path.length ≤ 2 := by cases s <;> simp [Seat.location, Seat.frames]
  have hl : b.locate? n.id = some (s.location b n) := Seat.locate?_seat (wf.nodup_ids hb) hc
  simp only [spot, hl, wf.embedBelow?_seat hb hc]
  rw [if_neg (by simp), if_neg (by omega)]
  congr 2
  exact Nat.min_eq_left hk

theorem spot_block (he : t.embedBelow? b.id b.id = none) (ht : b.isText = false)
    (hk : k ≤ b.children.length) : t.spot b ⟨b.id, k⟩ = .ok ⟨⟨b, []⟩, k⟩ := by
  have hl : b.locate? b.id = some ⟨b, []⟩ := by
    have ⟨i, kind, cs⟩ := b
    rw [Node.locate?, Node.locateFrom]
    exact if_pos rfl
  simp only [spot, hl, he]
  rw [if_neg (by simp), if_neg (by simp)]
  congr 2
  have he : b.extent = b.children.length := by simp [Node.extent, ht]
  exact he ▸ Nat.min_eq_left hk

theorem Perch.position_spot {p : Position} (h : Perch b p s n) :
    (s.spot b n p.offset).position = p := by
  have ⟨i, k⟩ := p
  have hi : i = n.id := h.node
  rw [hi]
  rfl

-- Taken as a start, the first position leads to the second one, which is in a text at a seat.
structure Enters (t : Tree) (b : Node) (p q : Position) (s : Seat) (n : Node) : Prop where
  perch : Perch b q s n
  leads : ∃ spot, t.spot b p = .ok spot ∧ spot.toStart = .ok (s.spot b n q.offset)

structure Leaves (t : Tree) (b : Node) (p q : Position) (s : Seat) (n : Node) : Prop where
  perch : Perch b q s n
  leads : ∃ spot, t.spot b p = .ok spot ∧ spot.toStop = .ok (s.spot b n q.offset)

section Moves

variable {as before left right after : List Node} {styles : StyleSet} {i : NodeId}
  (hb : t.node? block = some b)

include hb

section Here

variable (wf : t.WellFormed) (hc : b.children = s.plug [n]) (ht : n.isText)
  (hk : k ≤ n.charCount)

include wf hc ht hk

theorem enters_here : t.Enters b ⟨n.id, k⟩ ⟨n.id, k⟩ s n where
  perch := ⟨hc, ht, rfl, hk⟩
  leads := ⟨_, wf.spot_seat hb hc (Node.extent_of_isText ht ▸ hk), Seat.toStart_spot ht⟩

theorem leaves_here : t.Leaves b ⟨n.id, k⟩ ⟨n.id, k⟩ s n where
  perch := ⟨hc, ht, rfl, hk⟩
  leads := ⟨_, wf.spot_seat hb hc (Node.extent_of_isText ht ▸ hk), Seat.toStop_spot ht⟩

end Here

section Block

variable (hbt : b.isText = false) (he : t.embedBelow? block block = none)

include hbt he

theorem spot_of_block (hk : k ≤ b.children.length) : t.spot b ⟨block, k⟩ = .ok ⟨⟨b, []⟩, k⟩ := by
  have hi := id_of_node? hb
  exact hi ▸ spot_block (hi ▸ he) hbt hk

variable (ha : ∀ a ∈ as, a.kind.isAtomic) (ht : n.isText)

include ha ht

theorem enters_block (hc : b.children = before ++ as ++ n :: after) :
    t.Enters b ⟨block, before.length⟩ ⟨n.id, 0⟩ (.bare (before ++ as) after) n where
  perch := ⟨by simpa using hc, ht, rfl, Nat.zero_le _⟩
  leads := ⟨_, spot_of_block hb hbt he (by simp [hc]), Seat.toStart_block_bare ha ht hc⟩

theorem enters_block_held
    (hc : b.children = before ++ as ++ .mk i (.wrapper styles) (n :: right) :: after) :
    t.Enters b ⟨block, before.length⟩ ⟨n.id, 0⟩ (.held (before ++ as) i styles [] right after) n where
  perch := ⟨by simpa using hc, ht, rfl, Nat.zero_le _⟩
  leads := ⟨_, spot_of_block hb hbt he (by simp [hc]), Seat.toStart_block_held ha hc⟩

theorem leaves_block (hc : b.children = before ++ n :: as ++ after) :
    t.Leaves b ⟨block, (before ++ n :: as).length⟩ ⟨n.id, n.charCount⟩ (.bare before (as ++ after))
      n where
  perch := ⟨by simp [hc], ht, rfl, Nat.le_refl _⟩
  leads := ⟨_, spot_of_block hb hbt he (by simp [hc]),
    Node.extent_of_isText ht ▸ Seat.toStop_block_bare ha ht hc⟩

theorem leaves_block_held
    (hc : b.children = before ++ .mk i (.wrapper styles) (left ++ [n]) :: as ++ after) :
    t.Leaves b ⟨block, (before ++ .mk i (.wrapper styles) (left ++ [n]) :: as).length⟩
      ⟨n.id, n.charCount⟩ (.held before i styles left [] (as ++ after)) n where
  perch := ⟨by simp [hc], ht, rfl, Nat.le_refl _⟩
  leads := ⟨_, spot_of_block hb hbt he (by simp [hc]),
    Node.extent_of_isText ht ▸ Seat.toStop_block_held ha hc⟩

end Block

end Moves

theorem endpoints_of {span : Span} (hb : t.node? block = some b)
    (hs : t.Enters b span.start p s n) (hu : t.Leaves b span.stop q s' m) :
    t.endpoints block span = .ok ⟨p, q⟩ := by
  have ⟨start, hs₁, hs₂⟩ := hs.leads
  have ⟨stop, hu₁, hu₂⟩ := hu.leads
  have he := Endpoints.ofSpots_of hs₂ hu₂ (Seat.isStyleable_spot hs.perch.isText)
    (Seat.isStyleable_spot hu.perch.isText)
  rw [hs.perch.position_spot, hu.perch.position_spot] at he
  simp [endpoints, hb, hs₁, hu₁, he, bind, Except.bind, Except.mapError]

theorem endpoints_error {span : Span} {start stop : Spot} (hb : t.node? block = some b)
    (hs : t.spot b span.start = .ok start) (hu : t.spot b span.stop = .ok stop)
    (h : (∃ fault, start.toStart = .error fault) ∨ ∃ fault, stop.toStop = .error fault) :
    ∃ error, t.endpoints block span = .error error := by
  cases he : t.endpoints block span with
  | error error => exact ⟨error, rfl⟩
  | ok e =>
    rw [endpoints, hb] at he
    simp only [hs, hu, bind, Except.bind] at he
    have ⟨⟨_, hs⟩, _, hu⟩ := Endpoints.exists_of_ofSpots (mapError_eq_ok.mp he)
    simp [hs, hu] at h

end Tree

end RichText
