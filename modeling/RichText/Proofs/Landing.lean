import RichText.Proofs.SimpleBlock

namespace RichText

namespace Tree

variable {t : Tree} {block : NodeId} {b : Node}

-- No embed of the block encloses the offset.
def Free (t : Tree) (block : NodeId) (o : Nat) : Prop :=
  ∀ n ∈ t.children block, ¬t.Encloses block o n

instance : Decidable (t.Free block o) :=
  inferInstanceAs (Decidable (∀ n ∈ t.children block, _))

theorem free_zero : t.Free block 0 :=
  fun _ _ he => Nat.not_lt_zero _ he.left

-- What an offset of a block of simple content leads to: a place in a text, or one between children of
-- the block, which may come before the offset if nothing after it takes offsets.
inductive Landing (b : Node) (o : Nat) : Position → Prop where
  | inText {p : Position} {s : Seat} {n : Node} (perch : Perch b p s n)
    (total : Piece.total s.lead + p.offset = o) : Landing b o p
  | between {xs ys : List Node} (children : b.children = xs ++ ys)
    (le : Piece.total (xs.flatMap Node.pieces) ≤ o)
    (reached : Piece.total (xs.flatMap Node.pieces) = o ∨ Piece.total (ys.flatMap Node.pieces) = 0) :
    Landing b o ⟨b.id, xs.length⟩

end Tree

namespace SimpleBlock

variable {t : Tree} {block : NodeId} {b n : Node} {as cs : List Node} {o r : Nat}

theorem landing_text {s : Seat} (hc : b.children = s.plug [n]) (hn : n.isText)
    (ho : Piece.total s.lead + r = o) (next : n.charCount ≤ r →
      Tree.Landing b o (Landmark.walk stop (r - n.charCount) ls)) :
    Tree.Landing b o (Landmark.walk stop r (⟨n, site⟩ :: ls)) := by
  have ⟨content, hk⟩ := Node.isText_iff.mp hn
  have hl : n.charCount = content.length := by
    simp [Node.charCount_of_isText hn, Kind.textLength, Kind.text?, hk]
  simp only [Landmark.walk, hk]
  split
  case isTrue hle => exact .inText ⟨hc, hn, rfl, hl ▸ hle⟩ ho
  case isFalse hlt => exact hl ▸ next (by omega)

section

variable (h : SimpleBlock t block b)

include h

theorem free_charCount : t.Free block b.charCount := by
  intro n hn he
  rw [Tree.children_of_node? h.node] at hn
  have ⟨as, bs, hc⟩ := List.append_of_mem hn
  have hs : b.children = (Seat.bare as bs).plug [n] := by simp [hc]
  have hb := Node.countBefore_of_plug (h.wf.nodup_ids h.node) h.not_isLeaf hs
  have hr := he.right
  rw [Tree.countBefore_of_node? h.node, hb, h.charCount_eq, hc] at hr
  simp only [Seat.lead_bare, List.flatMap_append, List.flatMap_cons, Piece.total_append,
    Node.total_pieces_self] at hr
  omega

theorem not_inside (hf : t.Free block o) (hc : b.children = as ++ n :: cs) (hk : n.kind.isEmbed)
    (hlt : Piece.total (as.flatMap Node.pieces) < o) :
    Piece.total (as.flatMap Node.pieces) + n.charCount ≤ o := by
  have hs : b.children = (Seat.bare as cs).plug [n] := by simp [hc]
  have hn := Node.countBefore_of_plug (h.wf.nodup_ids h.node) h.not_isLeaf hs
  rw [← Tree.countBefore_of_node? h.node, Seat.lead_bare] at hn
  apply Nat.le_of_not_lt
  intro hlt'
  refine hf n ?_ ⟨hk, hn ▸ hlt, hn ▸ hlt'⟩
  simp [Tree.children_of_node? h.node, hc]

section Atomic

variable (hc : b.children = as ++ n :: cs) (ho : Piece.total (as.flatMap Node.pieces) + r = o)
  (next : n.charCount ≤ r → Tree.Landing b o (Landmark.walk stop (r - n.charCount) ls))

include hc ho next

theorem landing_break (hk : n.kind = .lineBreak trailing) :
    Tree.Landing b o (Landmark.walk stop r (⟨n, ⟨b.id, as.length⟩⟩ :: ls)) := by
  have hw : n.charCount = n.kind.width :=
    Node.charCount_of_isLeaf (by simp [hk, Kind.isLeaf, Kind.isBreak])
  cases trailing with
  | true =>
    have e : cs = [] := by
      by_contra hcs
      refine h.simple.trailing n ?_ hk
      simp [hc, List.dropLast_append_of_ne_nil, List.dropLast_cons_of_ne_nil hcs]
    simp only [Landmark.walk, hk]
    refine .between hc (by omega) (.inr ?_)
    rw [e, Node.total_pieces]
    simp [hw, hk, Kind.width]
  | false =>
    have hw : n.charCount = 1 := by simp [hw, hk, Kind.width]
    simp only [Landmark.walk, hk]
    split
    case isTrue => exact .between hc (by omega) (.inl (by omega))
    case isFalse => exact hw ▸ next (by omega)

theorem landing_embed (hf : t.Free block o) (hk : n.kind = .embed tag) :
    Tree.Landing b o (Landmark.walk stop r (⟨n, ⟨b.id, as.length⟩⟩ :: ls)) := by
  have hk' : n.kind.isEmbed := by simp [hk, Kind.isEmbed]
  simp only [Landmark.walk, hk]
  split
  case isFalse ht =>
    -- An embed without texts takes no offsets.
    have hl : Node.Legible [n] := h.legible.of_subset fun m hm => by
      rw [hc, Node.preorderAll_append]
      exact List.mem_append_right _ (by simp_all [Node.preorderAll])
    have e := Node.charCount_of_no_text hk' hl (by simpa using ht)
    simpa [e] using next (by omega)
  case isTrue =>
    split
    case isTrue => exact .between hc (by omega) (.inl (by omega))
    case isFalse =>
      split
      case isFalse => exact next (by omega)
      case isTrue hle =>
        have e := h.not_inside hf hc hk' (by omega)
        have ht : Piece.total ((as ++ [n]).flatMap Node.pieces) = o := by
          simp only [List.flatMap_append, List.flatMap_singleton, Piece.total_append,
            Node.total_pieces_self]
          omega
        have hc' : b.children = (as ++ [n]) ++ cs := by simp [hc]
        have hb := Tree.Landing.between hc' (Nat.le_of_eq ht) (.inl ht)
        rwa [List.length_append] at hb

end Atomic

theorem landing_walk (hf : t.Free block o) (hc : b.children = as ++ cs)
    (ho : Piece.total (as.flatMap Node.pieces) + r = o) :
    Tree.Landing b o (Landmark.walk ⟨b.id, b.children.length⟩ r
      (Node.landmarksAmong b.id as.length cs)) := by
  induction cs generalizing as r with
  | nil =>
    have hl : b.children.length = as.length := by simp [hc]
    rw [hl]
    exact .between hc (by omega) (.inr rfl)
  | cons n cs ih =>
    have next (hr : n.charCount ≤ r) : Tree.Landing b o (Landmark.walk ⟨b.id, b.children.length⟩
        (r - n.charCount) (Node.landmarksAmong b.id (as.length + 1) cs)) := by
      have ht : Piece.total ((as ++ [n]).flatMap Node.pieces) + (r - n.charCount) = o := by
        simp only [List.flatMap_append, List.flatMap_singleton, Piece.total_append,
          Node.total_pieces_self]
        omega
      have h := ih (by simp [hc]) ht
      rwa [List.length_append] at h
    rw [Node.landmarksAmong]
    obtain ⟨hn, -⟩ | hn | ⟨i, s, m, rfl, hm, -⟩ := h.simple.cases (n := n) (by simp [hc])
    case inl =>
      rw [Node.landmarks_of_solid (Node.solid_iff.mpr (.inl hn))]
      exact landing_text (s := .bare as cs) (by simp [hc]) hn (by simpa using ho) next
    case inr.inl =>
      rw [Node.landmarks_of_solid (Node.solid_iff.mpr (.inr hn))]
      cases hk : n.kind with
      | lineBreak => exact h.landing_break hc ho next hk
      | embed => exact h.landing_embed hc ho next hf hk
      | _ => simp [hk, Kind.isAtomic, Kind.isBreak, Kind.isEmbed] at hn
    case inr.inr =>
      rw [Node.landmarks_wrapper, Node.landmarksAmong, Node.landmarksAmong, List.append_nil,
        Node.landmarks_of_solid (Node.solid_iff.mpr (.inl hm))]
      refine landing_text (s := .held as i s [] [] cs) (by simp [hc]) hm (by simpa using ho) fun hr => ?_
      have e := Node.charCount_around (i := i) (s := s) m
      exact e ▸ next (e ▸ hr)

theorem landing_resolve (hf : t.Free block o) : Tree.Landing b o (t.resolve block o) := by
  have hc : b.children = [] ++ b.children := rfl
  by_cases hfl : o = 0 → b.firstLeaf.isText
  case pos =>
    rw [Tree.resolve_of_firstLeaf h.node h.not_isLeaf hfl, ← h.id_eq,
      Tree.seek_block (h.wf.nodup_ids h.node) h.legible]
    exact h.landing_walk hf hc (by simp)
  case neg =>
    have ⟨ho, hfl⟩ := Classical.not_imp.mp hfl
    rw [ho, Tree.resolve_zero h.node h.not_isLeaf (by simpa using hfl), ← h.id_eq]
    exact .between hc (by simp) (.inl rfl)

end

end SimpleBlock

namespace Piece

-- No char lies between two offsets.
def Charless (ps : List Piece) (left right : Nat) : Prop :=
  ∀ o, left ≤ o → o < right → (itemAt? width ps o).any isChar = false

namespace Charless

variable {ps qs rs : List Piece} {left right o o' : Nat}

theorem mono (h : Charless ps left right) (hl : left ≤ o) (hr : o' ≤ right) : Charless ps o o' :=
  fun i hle hlt => h i (by omega) (by omega)

theorem empty (h : right ≤ left) : Charless ps left right :=
  fun _ hle hlt => by omega

theorem mid (h : ∀ q ∈ qs, q.isChar = false) (hr : right ≤ total (ps ++ qs) ∨ total rs = 0) :
    Charless (ps ++ qs ++ rs) (total ps) right := by
  intro o hle hlt
  cases hp : itemAt? width (ps ++ qs ++ rs) o with
  | none => rfl
  | some p =>
    have hlt' := lt_total_of_itemAt? hp
    rw [total_append _ rs] at hlt'
    exact h p (mem_of_itemAt?_mid hp hle (by omega))

end Charless

end Piece

namespace Node

theorem not_isChar_of_isAtomic {ns : List Node} (h : ∀ n ∈ ns, n.kind.isAtomic)
    (hp : p ∈ ns.flatMap pieces) : p.isChar = false := by
  have ⟨n, hn, hp⟩ := List.mem_flatMap.mp hp
  rw [pieces_of_isAtomic (h n hn), List.mem_singleton] at hp
  simp [hp, Piece.isChar, Piece.node?]

end Node

namespace Tree

-- Taken as a start, a position leads on to a text, past no char. It then is at the front of the text,
-- unless it was in the text already.
structure StartLeads (t : Tree) (b : Node) (o : Nat) (p q : Position) (left : Nat) : Prop where
  enters : ∃ s n, t.Enters b p q s n ∧ Piece.total s.lead + q.offset = left
  le : o ≤ left
  front : q.offset = 0 ∨ left = o
  charless : Piece.Charless (b.children.flatMap Node.pieces) o left

structure StopLeads (t : Tree) (b : Node) (o : Nat) (p q : Position) (right : Nat) : Prop where
  leaves : ∃ s n, t.Leaves b p q s n ∧ Piece.total s.lead + q.offset = right ∧
    (q.offset = n.charCount ∨ right = o)
  le : right ≤ o
  charless : Piece.Charless (b.children.flatMap Node.pieces) right o

end Tree

namespace SimpleBlock

variable {t : Tree} {block : NodeId} {b : Node} {p : Position} {o : Nat}

section Leads

variable (h : SimpleBlock t block b) (he : t.embedBelow? block block = none)
  (hl : Tree.Landing b o p)

include h he hl

theorem startLeads : (∃ q left, t.StartLeads b o p q left) ∨
    (∃ spot fault, t.spot b p = .ok spot ∧ spot.toStart = .error fault) ∧
      ∀ right, Piece.Charless (b.children.flatMap Node.pieces) o right := by
  cases hl with
  | @inText p s n perch total =>
    have hen := Tree.enters_here h.node h.wf perch.children perch.isText perch.le
    rw [← perch.node] at hen
    exact .inl ⟨p, o, ⟨s, n, hen, total⟩, Nat.le_refl _, .inr rfl, .empty (Nat.le_refl _)⟩
  | @between xs ys children le reached =>
    have hx : xs.length ≤ b.children.length := by simp [children]
    have hspot := Tree.spot_of_block h.node h.not_isText he hx
    rw [h.id_eq]
    cases hf : ys.find? (!·.kind.isAtomic) with
    | none =>
      have ha : ∀ a ∈ ys, a.kind.isAtomic := by simpa using hf
      have ⟨fault, hs⟩ := Seat.toStart_block_error ha children
      refine .inr ⟨⟨_, fault, hspot, hs⟩, fun right => ?_⟩
      have hc : Piece.Charless (xs.flatMap Node.pieces ++ ys.flatMap Node.pieces ++ []) _ right :=
        .mid (fun _ hq => Node.not_isChar_of_isAtomic ha hq) (.inr rfl)
      rw [List.append_nil, ← List.flatMap_append, ← children] at hc
      exact hc.mono le (Nat.le_refl _)
    | some n =>
      have ⟨hk, as, bs, hys, ha⟩ := List.find?_eq_some_iff_append.mp hf
      have ha : ∀ a ∈ as, a.kind.isAtomic := by simpa using ha
      have hc : b.children = xs ++ as ++ n :: bs := by simp [children, hys]
      have ⟨q, s, m, hen, hs, hq, hst⟩ : ∃ q s m, t.Enters b ⟨block, xs.length⟩ q s m ∧
          s.lead = (xs ++ as).flatMap Node.pieces ∧ q.offset = 0 ∧ n.isStyleable := by
        obtain ⟨ht, -⟩ | hna | ⟨i, styles, m, rfl, hm, -⟩ := h.simple.cases (n := n) (by simp [hc])
        case inl =>
          exact ⟨_, _, _, Tree.enters_block h.node h.not_isText he ha ht hc, rfl, rfl,
            by simp [Node.isStyleable, ht]⟩
        case inr.inl => simp [hna] at hk
        case inr.inr =>
          exact ⟨_, _, _, Tree.enters_block_held h.node h.not_isText he ha hm hc, by simp, rfl, rfl⟩
      have hpos := h.simple.charCount_pos (n := n) (by simp [hc]) hst
      -- What has chars takes offsets, so the place is right at the offset.
      have hx := reached.resolve_right (by rw [hys, Node.total_pieces]; simp; omega)
      have hcl : Piece.Charless (xs.flatMap Node.pieces ++ as.flatMap Node.pieces ++
          (n :: bs).flatMap Node.pieces) _ _ :=
        .mid (fun _ hq => Node.not_isChar_of_isAtomic ha hq) (.inl (Nat.le_refl _))
      rw [← List.flatMap_append, ← List.flatMap_append, ← hc, hx, ← hs] at hcl
      refine .inl ⟨q, Piece.total s.lead, ⟨s, m, hen, by simp [hq]⟩, ?_, .inl hq, hcl⟩
      rw [hs, List.flatMap_append, Piece.total_append]
      omega

theorem stopLeads : (∃ q right, t.StopLeads b o p q right) ∨
    (∃ spot fault, t.spot b p = .ok spot ∧ spot.toStop = .error fault) ∧
      Piece.Charless (b.children.flatMap Node.pieces) 0 o := by
  cases hl with
  | @inText p s n perch total =>
    have hlv := Tree.leaves_here h.node h.wf perch.children perch.isText perch.le
    rw [← perch.node] at hlv
    exact .inl ⟨p, o, ⟨s, n, hlv, total, .inr rfl⟩, Nat.le_refl _, .empty (Nat.le_refl _)⟩
  | @between xs ys children le reached =>
    have hx : xs.length ≤ b.children.length := by simp [children]
    have hspot := Tree.spot_of_block h.node h.not_isText he hx
    rw [h.id_eq]
    cases hf : xs.reverse.find? (!·.kind.isAtomic) with
    | none =>
      have ha : ∀ a ∈ xs, a.kind.isAtomic := by simpa using hf
      have ⟨fault, hs⟩ := Seat.toStop_block_error ha children
      refine .inr ⟨⟨_, fault, hspot, hs⟩, ?_⟩
      have hc : Piece.Charless ([] ++ xs.flatMap Node.pieces ++ ys.flatMap Node.pieces) _ o :=
        .mid (fun _ hq => Node.not_isChar_of_isAtomic ha hq) (by simpa using reached.imp_left Eq.ge)
      rwa [List.nil_append, ← List.flatMap_append, ← children] at hc
    | some n =>
      have ⟨hk, as, bs, hxs, ha⟩ := List.find?_eq_some_iff_append.mp hf
      have ha : ∀ a ∈ as.reverse, a.kind.isAtomic := by simpa using ha
      have hxs : xs = bs.reverse ++ n :: as.reverse := by simpa using congrArg List.reverse hxs
      have hc : b.children = bs.reverse ++ n :: as.reverse ++ ys := by simp [children, hxs]
      have ⟨q, s, m, hlv, hs, hq⟩ : ∃ q s m, t.Leaves b ⟨block, xs.length⟩ q s m ∧
          Piece.total s.lead + q.offset = Piece.total ((bs.reverse ++ [n]).flatMap Node.pieces) ∧
          q.offset = m.charCount := by
        rw [hxs]
        obtain ⟨ht, -⟩ | hna | ⟨i, styles, m, rfl, hm, -⟩ := h.simple.cases (n := n) (by simp [hc])
        case inl =>
          exact ⟨_, _, _, Tree.leaves_block h.node h.not_isText he ha ht hc,
            by simp [Node.total_pieces_self], rfl⟩
        case inr.inl => simp [hna] at hk
        case inr.inr =>
          have hc : b.children = bs.reverse ++ .mk i (.wrapper styles) ([] ++ [m]) :: as.reverse ++ ys :=
            hc
          refine ⟨_, _, _, Tree.leaves_block_held h.node h.not_isText he ha hm hc, ?_, rfl⟩
          simp [Node.total_pieces_self, Node.charCount_around]
      have hcl : Piece.Charless ((bs.reverse ++ [n]).flatMap Node.pieces ++
          as.reverse.flatMap Node.pieces ++ ys.flatMap Node.pieces)
          (Piece.total ((bs.reverse ++ [n]).flatMap Node.pieces)) o := by
        refine .mid (fun _ hq => Node.not_isChar_of_isAtomic ha hq) ?_
        rw [← List.flatMap_append, List.append_assoc, List.singleton_append, ← hxs]
        exact reached.imp_left Eq.ge
      rw [← List.flatMap_append, ← List.flatMap_append, List.append_assoc bs.reverse,
        List.singleton_append, ← hc] at hcl
      refine .inl ⟨q, _, ⟨s, m, hlv, hs, .inl hq⟩, ?_, hcl⟩
      rw [hxs, List.flatMap_append, Piece.total_append] at le
      simp only [List.flatMap_append, List.flatMap_cons, Piece.total_append, List.flatMap_nil] at le ⊢
      simpa using by omega

end Leads

end SimpleBlock

-- Endpoints in texts that delimit the same chars as two offsets. Where an end was moved, it is at an
-- edge of its text.
structure Narrows (b : Node) (e : Endpoints) (start stop left right : Nat) : Prop where
  atStart : ∃ s n, Tree.Perch b e.start s n ∧ Piece.total s.lead + e.start.offset = left ∧
    (e.start.offset = 0 ∨ left = start)
  atStop : ∃ s n, Tree.Perch b e.stop s n ∧ Piece.total s.lead + e.stop.offset = right ∧
    (e.stop.offset = n.charCount ∨ right = stop)
  iff_of_isChar : ∀ o, (itemAt? Piece.width (b.children.flatMap Node.pieces) o).any Piece.isChar →
    (start ≤ o ∧ o < stop ↔ left ≤ o ∧ o < right)

namespace SimpleBlock

variable {t : Tree} {block : NodeId} {b : Node} {start stop : Nat}

section Endpoints

variable (h : SimpleBlock t block b) (he : t.embedBelow? block block = none)
  (hs : t.Free block start) (hu : t.Free block stop)

include h he hs hu

theorem endpoints_cases :
    (∃ e left right, t.endpoints block (t.span block start stop) = .ok e ∧
      Narrows b e start stop left right) ∨
    (∃ error, t.endpoints block (t.span block start stop) = .error error) ∧
      Piece.Charless (b.children.flatMap Node.pieces) start stop := by
  have fails {s u : Spot} (hs : t.spot b (t.resolve block start) = .ok s)
      (hu : t.spot b (t.resolve block stop) = .ok u) :
      (∃ fault, s.toStart = .error fault) ∨ (∃ fault, u.toStop = .error fault) →
        ∃ error, t.endpoints block (t.span block start stop) = .error error :=
    Tree.endpoints_error h.node hs hu
  obtain ⟨p, left, hl⟩ | ⟨⟨s, fault, hs, hf⟩, hc⟩ := h.startLeads he (h.landing_resolve hs)
  case inr =>
    have ⟨u, hu⟩ : ∃ u, t.spot b (t.resolve block stop) = .ok u := by
      obtain ⟨_, _, ⟨_, _, ⟨_, u, hu, _⟩, _⟩, _⟩ | ⟨⟨u, _, hu, _⟩, _⟩ :=
        h.stopLeads he (h.landing_resolve hu)
      case inl => exact ⟨u, hu⟩
      case inr => exact ⟨u, hu⟩
    exact .inr ⟨fails hs hu (.inl ⟨fault, hf⟩), hc stop⟩
  case inl =>
    have ⟨s, n, hen, hleft⟩ := hl.enters
    obtain ⟨q, right, hr⟩ | ⟨⟨u, fault, hu, hf⟩, hc⟩ := h.stopLeads he (h.landing_resolve hu)
    case inr =>
      have ⟨_, hs, _⟩ := hen.leads
      exact .inr ⟨fails hs hu (.inr ⟨fault, hf⟩), hc.mono (Nat.zero_le _) (Nat.le_refl _)⟩
    case inl =>
      have ⟨s', m, hlv, hright, hback⟩ := hr.leaves
      refine .inl ⟨⟨p, q⟩, left, right, Tree.endpoints_of h.node hen hlv,
        ⟨s, n, hen.perch, hleft, hl.front⟩, ⟨s', m, hlv.perch, hright, hback⟩, fun o ho => ?_⟩
      refine ⟨fun ⟨hs, hu⟩ => ⟨?left, ?right⟩,
        fun ⟨hs, hu⟩ => ⟨Nat.le_trans hl.le hs, Nat.lt_of_lt_of_le hu hr.le⟩⟩
      case left => exact Nat.le_of_not_lt fun hlt => by simp [hl.charless o hs hlt] at ho
      case right => exact Nat.lt_of_not_le fun hle => by simp [hr.charless o hle hu] at ho

end Endpoints

end SimpleBlock

end RichText
