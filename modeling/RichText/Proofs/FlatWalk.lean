import RichText.Proofs.Isolate
import RichText.Proofs.RoundTrip

namespace RichText

namespace Node

def Solid (n : Node) : Prop :=
  n.kind.isLeaf || n.kind.isEmbed

instance (n : Node) : Decidable n.Solid :=
  inferInstanceAs (Decidable (_ = true))

theorem solid_iff {n : Node} : n.Solid ↔ n.isText ∨ n.kind.isAtomic := by
  simp [Solid, Kind.isLeaf, Kind.isAtomic, isText, or_assoc]

theorem landmarks_of_solid {n : Node} (h : n.Solid) (site : Site) :
    n.landmarks site = [⟨n, site⟩] := by
  have ⟨i, k, cs⟩ := n
  exact if_pos h

mutual

theorem solid_of_mem_landmarks (n : Node) (h : l ∈ n.landmarks site) : l.node.Solid := by
  have ⟨i, k, cs⟩ := n
  rw [landmarks] at h
  split at h
  case isTrue hk => exact List.mem_singleton.mp h ▸ hk
  case isFalse => exact solid_of_mem_landmarksAmong cs h

theorem solid_of_mem_landmarksAmong (ns : List Node) (h : l ∈ landmarksAmong b index ns) :
    l.node.Solid := by
  match ns with
  | [] => contradiction
  | n :: ns =>
    cases List.mem_append.mp h
    case inl h => exact solid_of_mem_landmarks n h
    case inr h => exact solid_of_mem_landmarksAmong ns h

end

theorem landmarks_wrapper (i : NodeId) (s : StyleSet) (cs : List Node) (site : Site) :
    (mk i (.wrapper s) cs).landmarks site = landmarksAmong i 0 cs := by
  rw [landmarks]
  rfl

theorem landmarksAmong_append (b : NodeId) (index : Nat) (ns ms : List Node) :
    landmarksAmong b index (ns ++ ms) =
      landmarksAmong b index ns ++ landmarksAmong b (index + ns.length) ms := by
  induction ns generalizing index with
  | nil => rfl
  | cons n ns ih =>
    simp only [List.cons_append, landmarksAmong, ih, List.append_assoc, List.length_cons]
    congr 3
    omega

mutual

theorem sum_landmarks (n : Node) :
    ((n.landmarks site).map (·.node.charCount)).sum = n.charCount := by
  have ⟨i, k, cs⟩ := n
  rw [landmarks]
  split
  case isTrue => simp
  case isFalse h =>
    have hk : k.isLeaf = false := by simp_all
    have hn : (mk i k cs).charCount = (cs.map charCount).sum := charCount_of_not_isLeaf hk
    rw [hn, sum_landmarksAmong cs]

theorem sum_landmarksAmong (ns : List Node) :
    ((landmarksAmong b index ns).map (·.node.charCount)).sum = (ns.map charCount).sum := by
  match ns with
  | [] => rfl
  | n :: ns => simp [landmarksAmong, sum_landmarks n, sum_landmarksAmong ns]

end

theorem total_map_items (ns : List Node) (host : Option StyleSet) :
    Piece.total ((ns.flatMap items).map (⟨·, host⟩)) = (ns.map charCount).sum := by
  induction ns with
  | nil => rfl
  | cons n ns ih =>
    rw [List.flatMap_cons, List.map_append, Piece.total_append, total_items, ih, List.map_cons,
      List.sum_cons]

end Node

namespace Seat

def site (b : NodeId) : Seat → Site
  | bare before _ => ⟨b, before.length⟩
  | held _ id _ left _ _ => ⟨id, left.length⟩

def marksBefore (b : NodeId) : Seat → List Landmark
  | bare before _ => Node.landmarksAmong b 0 before
  | held before id _ left _ _ => Node.landmarksAmong b 0 before ++ Node.landmarksAmong id 0 left

def marksAfter (b : NodeId) : Seat → List Landmark
  | bare before after => Node.landmarksAmong b (before.length + 1) after
  | held before id _ left right after =>
    Node.landmarksAmong id (left.length + 1) right ++
      Node.landmarksAmong b (before.length + 1) after

variable {s : Seat} {n : Node}

theorem landmarksAmong_plug (h : n.Solid) (b : NodeId) :
    Node.landmarksAmong b 0 (s.plug [n]) = s.marksBefore b ++ ⟨n, s.site b⟩ :: s.marksAfter b := by
  cases s <;>
    simp [marksBefore, marksAfter, site, Node.landmarksAmong_append, Node.landmarksAmong,
      Node.landmarks_of_solid h, Node.landmarks_wrapper]

theorem sum_marksBefore (b : NodeId) :
    ((s.marksBefore b).map (·.node.charCount)).sum = Piece.total s.lead := by
  cases s <;>
    simp [marksBefore, Node.sum_landmarksAmong, Node.total_pieces, Node.total_map_items]

end Seat

namespace Node

-- Children of a block, and of its wrappers, of which each is a stop for a reader.
structure Flat (ns : List Node) : Prop where
  child : ∀ n ∈ ns, n.Solid ∨ n.isWrapper
  inside : ∀ w ∈ ns, w.isWrapper → ∀ n ∈ w.children, n.Solid

theorem exists_of_landmark {ns : List Node} (hs : ∀ n ∈ ns, n.Solid) {index : Nat}
    (h : landmarksAmong w index ns = ls ++ l :: rs) :
    ∃ left right, ns = left ++ l.node :: right ∧ l.site = ⟨w, index + left.length⟩ ∧
      ls = landmarksAmong w index left ∧ rs = landmarksAmong w (index + left.length + 1) right := by
  induction ns generalizing index ls with
  | nil => simp [landmarksAmong] at h
  | cons n ns ih =>
    rw [landmarksAmong, landmarks_of_solid (hs n (.head _)), List.singleton_append] at h
    cases ls with
    | nil =>
      injection h with e h
      exact ⟨[], ns, by simp [← e], by simp [← e], rfl, h.symm⟩
    | cons m ls =>
      injection h with e h
      obtain ⟨left, right, rfl, hs', rfl, rfl⟩ := ih (fun n hn => hs n (.tail _ hn)) h
      refine ⟨n :: left, right, rfl, ?_, ?_, ?_⟩
      · simp [hs', Nat.add_assoc, Nat.add_comm 1]
      · simp [landmarksAmong, landmarks_of_solid (hs n (.head _)), e]
      · simp [Nat.add_assoc, Nat.add_comm 1]

theorem landmarks_of_isWrapper {n : Node} (h : n.isWrapper) (site : Site) :
    ∃ i s cs, n = mk i (.wrapper s) cs ∧ n.landmarks site = landmarksAmong i 0 cs := by
  have ⟨i, k, cs⟩ := n
  cases k <;> try contradiction
  case wrapper s => exact ⟨i, s, cs, rfl, landmarks_wrapper ..⟩

theorem exists_seat_of_landmark {ns : List Node} (hf : Flat ns) (as : List Node)
    (h : landmarksAmong b as.length ns = ls ++ l :: rs) :
    ∃ s : Seat, as ++ ns = s.plug [l.node] ∧ l.site = s.site b ∧
      landmarksAmong b 0 as ++ ls = s.marksBefore b ∧ rs = s.marksAfter b := by
  induction ns generalizing as ls with
  | nil => simp [landmarksAmong] at h
  | cons n ns ih =>
    have hfs : Flat ns := ⟨fun n hn => hf.child n (.tail _ hn), fun w hw => hf.inside w (.tail _ hw)⟩
    -- Either it is beyond the first child, or it is the first child or in it.
    have beyond (ms : List Landmark) (hls : ls = n.landmarks ⟨b, as.length⟩ ++ ms)
        (hr : landmarksAmong b (as.length + 1) ns = ms ++ l :: rs) :
        ∃ s : Seat, as ++ n :: ns = s.plug [l.node] ∧ l.site = s.site b ∧
          landmarksAmong b 0 as ++ ls = s.marksBefore b ∧ rs = s.marksAfter b := by
      have e : (as ++ [n]).length = as.length + 1 := by simp
      have ⟨s, hc, hs, hl, hr⟩ := ih hfs (as ++ [n]) (e ▸ hr)
      refine ⟨s, by simpa using hc, hs, ?_, hr⟩
      rw [← hl, hls]
      simp [landmarksAmong_append, landmarksAmong]
    rw [landmarksAmong] at h
    obtain ⟨ms, hls, hr⟩ | ⟨ms, hn, hr⟩ := List.append_eq_append_iff.mp h
    case inl => exact beyond ms hls hr
    case inr =>
      cases ms with
      | nil => exact beyond [] (by simpa using hn.symm) (by simpa using hr.symm)
      | cons m ms =>
        injection hr with e hr
        subst e hr
        cases hf.child n (.head _)
        case inl hs =>
          have hl : ls = [] ∧ l = ⟨n, ⟨b, as.length⟩⟩ ∧ ms = [] := by
            rw [landmarks_of_solid hs] at hn
            cases ls <;> simp_all
          obtain ⟨rfl, rfl, rfl⟩ := hl
          exact ⟨.bare as ns, by simp, rfl, by simp [Seat.marksBefore], rfl⟩
        case inr hw =>
          have ⟨i, styles, cs, e, hcs⟩ := landmarks_of_isWrapper hw ⟨b, as.length⟩
          subst e
          obtain ⟨left, right, hc, hs, rfl, rfl⟩ :=
            exists_of_landmark (hf.inside _ (.head _) hw) (hcs ▸ hn)
          rw [children_mk] at hc
          subst hc
          refine ⟨.held as i styles left right ns, by simp, by simp [hs, Seat.site],
            rfl, by simp [Seat.marksAfter]⟩

end Node

namespace Landmark

theorem walk_cases (stop : Position) (r : Nat) (ls : List Landmark) :
    walk stop r ls = stop ∨ ∃ l ∈ ls, walk stop r ls = l.site.before ∨
      walk stop r ls = l.site.after ∨
      l.node.isText ∧ ∃ k ≤ l.node.charCount, walk stop r ls = ⟨l.node.id, k⟩ := by
  induction ls generalizing r with
  | nil => exact .inl rfl
  | cons l ls ih =>
    have ih (r : Nat) : walk stop r ls = stop ∨ ∃ m ∈ l :: ls, walk stop r ls = m.site.before ∨
        walk stop r ls = m.site.after ∨
        m.node.isText ∧ ∃ k ≤ m.node.charCount, walk stop r ls = ⟨m.node.id, k⟩ :=
      (ih r).imp_right fun ⟨m, hm, h⟩ => ⟨m, .tail _ hm, h⟩
    rw [walk]
    split
    case h_1 s hk =>
      split
      case isFalse => exact ih _
      case isTrue hle =>
        have ht : l.node.isText := Node.isText_iff.mpr ⟨s, hk⟩
        refine .inr ⟨l, .head _, .inr (.inr ⟨ht, r, ?_, rfl⟩)⟩
        simpa [Node.charCount_of_isText ht, hk, Kind.textLength, Kind.text?] using hle
    case h_2 => exact .inr ⟨l, .head _, .inl rfl⟩
    case h_3 =>
      split
      case isTrue => exact .inr ⟨l, .head _, .inl rfl⟩
      case isFalse => exact ih _
    case h_4 =>
      split
      case isFalse => exact ih _
      case isTrue =>
        split
        case isTrue => exact .inr ⟨l, .head _, .inl rfl⟩
        case isFalse =>
          split
          case isTrue => exact .inr ⟨l, .head _, .inr (.inl rfl)⟩
          case isFalse => exact ih _

structure Passable (n : Node) : Prop where
  solid : n.Solid
  placed : n.kind ≠ .lineBreak true
  text : n.kind.isEmbed → (Node.preorderAll n.children).any Node.isText

theorem Passable.cases {n : Node} (h : Passable n) :
    n.isText ∨ n.kind = .lineBreak false ∨ n.kind.isEmbed := by
  have hs := h.solid
  have hp := h.placed
  rw [Node.isText]
  cases hk : n.kind
  case lineBreak trailing => cases trailing <;> simp_all
  all_goals
    simp [Node.Solid, hk, Kind.isLeaf, Kind.isText, Kind.isBreak, Kind.isEmbed] at hs ⊢

theorem walk_append {ls : List Landmark} (hp : ∀ l ∈ ls, Passable l.node)
    (hr : (ls.map (·.node.charCount)).sum < r) (rest : List Landmark) :
    walk stop r (ls ++ rest) = walk stop (r - (ls.map (·.node.charCount)).sum) rest := by
  induction ls generalizing r with
  | nil => rfl
  | cons l ls ih =>
    rw [List.map_cons, List.sum_cons] at hr ⊢
    have ih := ih (fun m hm => hp m (.tail _ hm)) (Nat.lt_sub_of_add_lt (Nat.add_comm .. ▸ hr))
    rw [Nat.sub_sub] at ih
    rw [← ih, List.cons_append]
    have ⟨hs, hb, ht⟩ := hp l (.head _)
    have ⟨n, site⟩ := l
    cases hk : n.kind
    case text s =>
      have hc : n.charCount = s.length := by
        rw [Node.charCount_of_isLeaf (by simp [hk, Kind.isLeaf, Kind.isText]), hk]
        rfl
      simp only at hr
      simp only [walk, hk, hc]
      exact if_neg (by omega)
    case lineBreak trailing =>
      cases trailing
      case true => contradiction
      case false =>
        have hc : n.charCount = 1 := by
          rw [Node.charCount_of_isLeaf (by simp [hk, Kind.isLeaf, Kind.isBreak]), hk]
          rfl
        simp only at hr
        simp only [walk, hk, hc]
        exact if_neg (by omega)
    case embed tag =>
      simp only at hr
      simp only [walk, hk]
      rw [if_pos (ht (by simp [hk, Kind.isEmbed])), if_neg (by omega), if_neg (by omega)]
    all_goals simp [Node.Solid, hk, Kind.isLeaf, Kind.isText, Kind.isBreak, Kind.isEmbed] at hs

end Landmark

end RichText
