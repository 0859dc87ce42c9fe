import RichText.Proofs.Inward

namespace RichText

-- The offsets to which a position leads as the start and as the stop of a span to be styled.
@[ext]
structure Limits where
  start : Option Nat
  stop : Option Nat

namespace Limits

def lost : Limits :=
  ⟨none, none⟩

def text (offset : Nat) : Limits :=
  ⟨some offset, some offset⟩

def range? (e e' : Limits) : Option (Nat × Nat) :=
  match e.start, e'.stop with
  | some left, some right => if left < right then some (left, right) else none
  | _, _ => none

end Limits

namespace Spot

def styled? (t : Tree) (block : NodeId) (s : Spot) : Option Nat :=
  if s.isStyleable then some (t.offsetOf block s.position) else none

def limits (t : Tree) (block : NodeId) (s : Spot) : Limits where
  start := s.toStart.toOption.bind (styled? t block)
  stop := s.toStop.toOption.bind (styled? t block)

end Spot

namespace Tree

def limits (t : Tree) (block : NodeId) (p : Position) : Limits :=
  match t.node? block with
  | none => .lost
  | some b => match t.spot b p with
    | .error _ => .lost
    | .ok s => s.limits t block

end Tree

theorem Endpoints.offsets_ofSpots (t : Tree) (block : NodeId) (start stop : Spot) :
    (ofSpots start stop).toOption.map (·.offsets t block) =
      (start.limits t block).start.bind fun left => (stop.limits t block).stop.map (left, ·) := by
  cases h : ofSpots start stop with
  | ok e =>
    obtain ⟨s, u, hs, hu, hs', hu', rfl⟩ := moves_of_ofSpots h
    simp [Spot.limits, Spot.styled?, hs, hu, hs', hu', Except.toOption, offsets]
  | error =>
    simp only [Spot.limits, Except.toOption, Option.map_none]
    cases hs : start.toStart with
    | error => rfl
    | ok s =>
      cases hu : stop.toStop with
      | error => simp
      | ok u =>
        cases hs' : s.isStyleable <;> cases hu' : u.isStyleable
        case true.true => cases h.symm.trans (ofSpots_of hs hu hs' hu')
        all_goals simp [Spot.styled?, hs', hu']

namespace Tree

theorem offsets_endpoints (t : Tree) (block : NodeId) (span : Span) :
    (t.endpoints block span).toOption.map (·.offsets t block) =
      (t.limits block span.start).start.bind fun left =>
        (t.limits block span.stop).stop.map (left, ·) := by
  rw [endpoints, limits, limits]
  cases t.node? block with
  | none => rfl
  | some b =>
    simp only
    cases t.spot b span.start with
    | error => rfl
    | ok s =>
      cases t.spot b span.stop with
      | error => exact (Option.bind_fun_none (s.limits t block).start).symm
      | ok u =>
        simp only [bind, Except.bind]
        rw [← Endpoints.offsets_ofSpots]
        cases Endpoints.ofSpots s u <;> rfl

theorem range_nonemptyEndpoints (t : Tree) (block : NodeId) (span : Span) :
    (t.nonemptyEndpoints block span).toOption.map Prod.snd =
      (t.limits block span.start).range? (t.limits block span.stop) := by
  have ho := t.offsets_endpoints block span
  rw [nonemptyEndpoints, Limits.range?]
  cases he : t.endpoints block span with
  | error =>
    rw [he] at ho
    cases hs : (t.limits block span.start).start <;> cases hu : (t.limits block span.stop).stop <;>
      simp [hs, hu, Except.toOption] at ho
    all_goals rfl
  | ok e =>
    rw [he] at ho
    cases hs : (t.limits block span.start).start <;> cases hu : (t.limits block span.stop).stop <;>
      simp [hs, hu, Except.toOption] at ho
    case some.some =>
      simp only [bind, Except.bind, ho]
      split <;> rfl

end Tree

namespace Seat

variable {b n : Node} {before after : List Node} {k : Nat}

section Atomic

variable (hk : n.kind.isAtomic)

include hk

theorem toStart_atomic (k : Nat) : ((bare before after).spot b n k).toStart =
    ((bare before after).spot b n 0).toStart := by
  have ha (k : Nat) : ((bare before after).spot b n k).startPastAtoms = _ := if_pos hk
  have hs (k : Nat) := Spot.startInBlock_of_not_isBlock
    (isBlock_spot (s := bare before after) (b := b) (n := n) (k := k))
  simp only [Spot.toStart, hs, ha, bind, Except.bind]
  rfl

theorem toStop_atomic (k : Nat) : ((bare before after).spot b n k).toStop =
    ((bare before after).spot b n n.extent).toStop := by
  have ha (k : Nat) : ((bare before after).spot b n k).stopPastAtoms = _ := if_pos hk
  have hs (k : Nat) := Spot.stopInBlock_of_not_isBlock
    (isBlock_spot (s := bare before after) (b := b) (n := n) (k := k))
  simp only [Spot.toStop, hs, ha, bind, Except.bind]
  rfl

end Atomic

variable (hc : b.children = before ++ n :: after)

include hc

theorem toStart_block_eq : Spot.toStart ⟨⟨b, []⟩, before.length⟩ =
    ((bare before after).spot b n 0).toStart := by
  rw [Spot.toStart, Spot.toStart, startInBlock_of_children hc,
    Spot.startInBlock_of_not_isBlock isBlock_spot]

theorem toStop_block_eq : Spot.toStop ⟨⟨b, []⟩, before.length + 1⟩ =
    ((bare before after).spot b n n.extent).toStop := by
  rw [Spot.toStop, Spot.toStop, stopInBlock_of_children hc,
    Spot.stopInBlock_of_not_isBlock isBlock_spot]
  rfl

variable (hk : n.kind.isAtomic)

include hk

theorem toOption_toStart_atomic : (Spot.toStart ⟨⟨b, []⟩, before.length⟩).toOption =
    (Spot.toStart ⟨⟨b, []⟩, before.length + 1⟩).toOption := by
  have hl : (before ++ [n]).length = before.length + 1 := by simp
  cases hfind : after.find? (!·.kind.isAtomic) with
  | none =>
    have ha : ∀ a ∈ after, a.kind.isAtomic := by simpa using hfind
    have hc' : b.children = (before ++ [n]) ++ after := by simpa using hc
    have ⟨_, e⟩ := toStart_block_error (List.forall_mem_cons.mpr ⟨hk, ha⟩) hc
    have ⟨_, e'⟩ := toStart_block_error ha hc'
    rw [e, ← hl, e']
    rfl
  | some m =>
    have ⟨hm, as, bs, e, ha⟩ := List.find?_eq_some_iff_append.mp hfind
    have ha : ∀ a ∈ as, a.kind.isAtomic := by simpa using ha
    have hm : m.kind.isAtomic = false := by simpa using hm
    rw [e] at hc
    have hc' : b.children = before ++ [n] ++ as ++ m :: bs := by simpa using hc
    rw [toStart_block (List.forall_mem_cons.mpr ⟨hk, ha⟩) hm (by simpa using hc), ← hl,
      toStart_block ha hm hc']
    simp

theorem toOption_toStop_atomic : (Spot.toStop ⟨⟨b, []⟩, before.length + 1⟩).toOption =
    (Spot.toStop ⟨⟨b, []⟩, before.length⟩).toOption := by
  have hl : (before ++ [n]).length = before.length + 1 := by simp
  cases hfind : before.reverse.find? (!·.kind.isAtomic) with
  | none =>
    have ha : ∀ a ∈ before, a.kind.isAtomic := by simpa using hfind
    have ha' : ∀ a ∈ before ++ [n], a.kind.isAtomic := by simpa [or_imp, forall_and, hk] using ha
    have hc' : b.children = (before ++ [n]) ++ after := by simpa using hc
    have ⟨_, e⟩ := toStop_block_error ha' hc'
    have ⟨_, e'⟩ := toStop_block_error ha hc
    rw [← hl, e, e']
    rfl
  | some m =>
    have ⟨hm, as, bs, e, ha⟩ := List.find?_eq_some_iff_append.mp hfind
    have ha : ∀ a ∈ as.reverse, a.kind.isAtomic := by simpa using ha
    have hm : m.kind.isAtomic = false := by simpa using hm
    have e : before = bs.reverse ++ m :: as.reverse := by simpa using congrArg List.reverse e
    have ha' : ∀ a ∈ as.reverse ++ [n], a.kind.isAtomic := by
      simpa [or_imp, forall_and, hk] using ha
    subst e
    have hc' : b.children = bs.reverse ++ m :: (as.reverse ++ [n]) ++ after := by simpa using hc
    rw [toStop_block ha hm hc, ← hl, List.append_assoc, List.cons_append, toStop_block ha' hm hc']
    simp

end Seat

namespace Tree

-- Where a position on the block itself leads, unless the block is in an embed.
def limitsAt (t : Tree) (block : NodeId) (b : Node) (index : Nat) : Limits :=
  Spot.limits t block ⟨⟨b, []⟩, index⟩

def limitsPast (t : Tree) (block : NodeId) (b : Node) (index : Nat) : Limits where
  start := (t.limitsAt block b (index + 1)).start
  stop := (t.limitsAt block b index).stop

variable {t : Tree} {block : NodeId} {b n m : Node} {s : Seat} {p : Position} {k : Nat}

theorem limits_of_spot {u : Spot} (hb : t.node? block = some b) (hs : t.spot b p = .ok u) :
    t.limits block p = u.limits t block := by
  simp [limits, hb, hs]

theorem limits_of_error (hb : t.node? block = some b) (hs : t.spot b p = .error e) :
    t.limits block p = .lost := by
  simp [limits, hb, hs]

theorem WellFormed.spot_seat_min (wf : t.WellFormed) (hb : t.node? block = some b)
    (hc : b.children = s.plug [n]) (k : Nat) :
    t.spot b ⟨n.id, k⟩ = .ok (s.spot b n (min k n.extent)) := by
  have hs := wf.spot_seat hb hc (Nat.min_le_right k n.extent)
  have hl : b.locate? n.id = some (s.location b n) := Seat.locate?_seat (wf.nodup_ids hb) hc
  have hm : min (min k n.extent) n.extent = min k n.extent := by omega
  simp only [spot, hl, Seat.location, hm] at hs ⊢
  exact hs

theorem embedBelow?_eq (t : Tree) (scope i : NodeId) : t.embedBelow? scope i =
    (((t.lineage i).tail.takeWhile (·.1 ≠ scope)).find? (·.2.isEmbed)).map (·.1) := by
  rw [embedBelow?, lineage]
  cases t.locate? i <;> rfl

theorem WellFormed.embedBelow?_beneath (wf : t.WellFormed) (hb : t.node? block = some b)
    (hn : n ∈ Node.preorderAll b.children) (hk : n.kind.isEmbed)
    (hm : m ∈ Node.preorderAll n.children) : (t.embedBelow? block m.id).isSome := by
  have hnb : n ∈ b.preorder := by simp [Node.preorder_eq, hn]
  have hmn : m ∈ n.preorder := by simp [Node.preorder_eq, hm]
  have hnt := wf.node?_of_mem_preorder hb hnb
  have hmt := wf.node?_of_mem_preorder hnt hmn
  obtain ⟨lower, hl, hlower⟩ := wf.lineage_beneath hnt hmn
  obtain ⟨upper, hu, hupper⟩ := wf.lineage_beneath hb hnb
  obtain ⟨_, hna⟩ := lineage_eq_cons hnt
  obtain ⟨_, hma⟩ := lineage_eq_cons hmt
  obtain ⟨_, hba⟩ := lineage_eq_cons hb
  have hd := Node.ids_eq b ▸ wf.nodup_ids hb
  rw [List.nodup_cons, id_of_node? hb] at hd
  have hne {x : Node} (hx : x ∈ Node.preorderAll b.children) : x.id ≠ block :=
    fun e => hd.left (e ▸ Node.mem_idsAll_iff.mpr ⟨x, hx, rfl⟩)
  have hsub : Node.preorderAll n.children ⊆ Node.preorderAll b.children :=
    fun x hx => Node.preorderAll_children_subset hnb hx
  have hup : (n.id, n.kind) ∈ upper := by
    cases upper with
    | nil =>
      have e := List.cons.inj (hna.symm.trans (hu.trans hba))
      exact absurd (Prod.mk.inj e.left).left (hne hn)
    | cons a upper => exact (List.cons.inj (hna.symm.trans hu)).left ▸ .head _
  cases lower with
  | nil =>
    have e := List.cons.inj (hma.symm.trans (hl.trans hna))
    have hd := Node.ids_eq n ▸ wf.nodup_ids hnt
    have hi := Node.mem_idsAll_iff.mpr ⟨m, hm, (Prod.mk.inj e.left).left⟩
    exact absurd hi (List.nodup_cons.mp hd).left
  | cons a lower =>
    have hw : ∀ a ∈ lower ++ upper, decide (a.1 ≠ block) := by
      simp only [List.mem_append, decide_eq_true_eq]
      rintro a (ha | ha)
      case inl =>
        obtain ⟨x, hx, hi, _⟩ := hlower a (.tail _ ha)
        exact hi ▸ hne (hsub hx)
      case inr =>
        obtain ⟨x, hx, hi, _⟩ := hupper a ha
        exact hi ▸ hne hx
    rw [embedBelow?_eq, hl, hu, List.cons_append, List.tail_cons, ← List.append_assoc,
      List.takeWhile_append_of_pos hw, Option.isSome_map, List.find?_isSome]
    exact ⟨(n.id, n.kind), by simp [hup], hk⟩

theorem WellFormed.spot_beneath (wf : t.WellFormed) (hb : t.node? block = some b)
    (hn : n ∈ Node.preorderAll b.children) (hk : n.kind.isEmbed)
    (hi : i ∈ Node.idsAll n.children) (k : Nat) : ∃ error, t.spot b ⟨i, k⟩ = .error error := by
  have ⟨m, hm, e⟩ := Node.mem_idsAll_iff.mp hi
  have he := wf.embedBelow?_beneath hb hn hk hm
  rw [e, ← id_of_node? hb] at he
  rw [spot]
  split
  case h_1 => exact ⟨_, rfl⟩
  case h_2 => exact ⟨_, if_pos he⟩

theorem WellFormed.limits_beneath (wf : t.WellFormed) (hb : t.node? block = some b)
    (hn : n ∈ Node.preorderAll b.children) (hk : n.kind.isEmbed)
    (hi : i ∈ Node.idsAll n.children) (k : Nat) : t.limits block ⟨i, k⟩ = .lost :=
  have ⟨_, hs⟩ := wf.spot_beneath hb hn hk hi k
  limits_of_error hb hs

section Children

variable {before after : List Node}

theorem start_limitsAt_end : (t.limitsAt block b b.children.length).start = none := by
  have hc : b.children = b.children ++ [] := (List.append_nil _).symm
  have ⟨_, e⟩ := Seat.toStart_block_error (List.forall_mem_nil _) hc
  simp [Tree.limitsAt, Spot.limits, e, Except.toOption]

theorem stop_limitsAt_zero : (t.limitsAt block b 0).stop = none :=
  rfl

section Atomic

variable (hc : b.children = before ++ n :: after) (hk : n.kind.isAtomic)

include hc hk

theorem start_limitsAt_atomic : (t.limitsAt block b before.length).start =
    (t.limitsAt block b (before.length + 1)).start := by
  simp only [Tree.limitsAt, Spot.limits, Seat.toOption_toStart_atomic hc hk]

theorem stop_limitsAt_atomic : (t.limitsAt block b (before.length + 1)).stop =
    (t.limitsAt block b before.length).stop := by
  simp only [Tree.limitsAt, Spot.limits, Seat.toOption_toStop_atomic hc hk]

end Atomic

end Children

end Tree

end RichText
