import RichText.Restyle
import RichText.Proofs.Clear

namespace RichText

namespace Node

theorem count_takeWhile (p : Node → Bool) (ns : List Node) (i : NodeId) :
    (idsAll (ns.takeWhile p)).count i + (idsAll (ns.dropWhile p)).count i =
      (idsAll ns).count i := by
  rw [← List.count_append, ← idsAll_append, List.takeWhile_append_dropWhile]

end Node

namespace Draft

-- No node is lost, and none but new nodes come in.
structure Conserves (d d' : Draft) : Prop where
  le : d.next ≤ d'.next
  perm : (Node.idsAll (d'.content ++ d'.dropped)).Perm
    (Node.idsAll (d.content ++ d.dropped) ++ NodeId.given d.next d'.next)

theorem Grows.conserves {d d' : Draft} (h : d.Grows d') : d.Conserves d' :=
  ⟨h.le, h.perm⟩

namespace Conserves

variable {d d' d'' : Draft}

theorem refl (d : Draft) : d.Conserves d :=
  (Grows.refl d).conserves

theorem trans (h : d.Conserves d') (h' : d'.Conserves d'') : d.Conserves d'' where
  le := Nat.le_trans h.le h'.le
  perm := NodeId.perm_given_trans h.le h'.le h.perm h'.perm

theorem sound (h : d.Conserves d') (hs : d.Sound) : d'.Sound :=
  hs.of_perm h.le h.perm

theorem step (h : d.Conserves d') (hs : d.Sound) (h' : d'.Sound → d'.Conserves d'') :
    d.Conserves d'' :=
  h.trans (h' (h.sound hs))

end Conserves

variable {d : Draft}

theorem Sound.conserves_substitute (hs : d.Sound) {n : Node} (hn : n ∈ Node.preorderAll d.content)
    (f : Node → List Node) (out : List Node) {next : Nat} (hle : d.next ≤ next)
    (hp : (Node.idsAll (f n) ++ Node.idsAll out).Perm (n.ids ++ NodeId.given d.next next)) :
    d.Conserves ⟨Node.substituteAll n.id f d.content, d.dropped ++ out, next⟩ where
  le := hle
  perm := by
    have h := Node.idsAll_substituteAll_perm d.content hs.nodup_content hn hp
    refine List.perm_iff_count.mpr fun i => ?_
    have := h.count_eq i
    simp only [Node.idsAll_append, List.count_append] at this ⊢
    omega

theorem mem_content_of_holder? {w : Node} (h : d.holder? child = some w) :
    w ∈ Node.preorderAll d.content :=
  Node.mem_preorderAll_of_mem (List.mem_of_find?_eq_some h)

theorem Sound.conserves_splitText (hs : d.Sound) (hi : leaf ∈ Node.idsAll d.content) (k : Nat) :
    d.Conserves (d.splitText leaf k).2 := by
  obtain ⟨n, hn, rfl⟩ := Node.mem_idsAll_iff.mp hi
  have h := hs.conserves_substitute hn (fun n => [n.takeText k, n.dropText k ⟨d.next⟩]) []
    (Nat.le_succ _) (by simp)
  rwa [List.append_nil] at h

theorem Sound.conserves_splitStart (hs : d.Sound) (hi : p.node ∈ Node.idsAll d.content) :
    d.Conserves (d.splitStart p).2 := by
  rw [splitStart]
  split
  case isTrue => exact hs.conserves_splitText hi _
  case isFalse => exact .refl d

theorem Sound.conserves_splitStop (hs : d.Sound) (p : Position) : d.Conserves (d.splitStop p) := by
  rw [splitStop]
  split
  case isFalse => exact .refl d
  case isTrue h =>
    refine hs.conserves_splitText ?_ _
    cases hn : d.node? p.node with
    | none => simp [textLength, hn] at h
    | some n =>
      have hi : n.id = p.node := by simpa using List.find?_some hn
      exact Node.mem_idsAll_iff.mpr ⟨n, List.mem_of_find?_eq_some hn, hi⟩

theorem mem_content_splitStop (hs : d.Sound) (hi : i ∈ Node.idsAll d.content) (p : Position) :
    i ∈ Node.idsAll (d.splitStop p).content := by
  have h := hs.conserves_splitStop p
  have hd : (d.splitStop p).dropped = d.dropped := by
    rw [splitStop]
    split <;> rfl
  have hm := h.perm.mem_iff (a := i)
  have hn := hs.nodup
  rw [hd] at hm
  simp only [Node.idsAll_append, List.mem_append, List.nodup_append] at hm hn
  refine (hm.mpr (.inl (.inl hi))).resolve_right fun hi' => ?_
  exact hn.right.right _ hi _ hi' rfl

theorem Sound.conserves_isolate (hs : d.Sound) (child : NodeId) :
    d.Conserves (d.isolate child).2 := by
  unfold isolate
  split
  case h_1 => exact .refl d
  case h_2 w hw =>
    have hw := mem_content_of_holder? hw
    have keep {pieces : List Node} {made : Nat}
        (hp : (Node.idsAll pieces).Perm (w.ids ++ NodeId.given d.next (d.next + made))) :
        d.Conserves { d.substitute w.id fun _ => pieces with next := d.next + made } := by
      have h := hs.conserves_substitute hw (fun _ => pieces) [] (Nat.le_add_right _ made)
        (by simpa using hp)
      rwa [List.append_nil] at h
    simp only
    split
    case h_1 | h_2 => exact .refl d
    all_goals
      have hc := Node.children_of_childrenAround ‹_›
      refine keep (List.perm_iff_count.mpr fun i => ?_)
      simp [Node.ids_eq w, hc, Node.copyAround, List.count_cons] <;> omega

theorem Sound.conserves_absorbFollowing (hs : d.Sound) (leaf stop : NodeId) :
    d.Conserves (d.absorbFollowing leaf stop) := by
  simp only [absorbFollowing, substitute]
  split
  case h_1 => exact .refl d
  case h_2 w hw =>
    split
    case h_2 => exact .refl d
    case h_1 before n after h =>
      have hc := Node.children_of_childrenAround h
      refine hs.conserves_substitute (mem_content_of_holder? hw) _ _ (Nat.le_refl d.next)
        (List.perm_iff_count.mpr fun i => ?_)
      have := Node.count_takeWhile (fun m => m.isText && !decide (m.id = stop)) after i
      simp [Node.ids_eq w, hc, List.count_cons]
      omega

theorem Sound.conserves_absorbPreceding (hs : d.Sound) (leaf : NodeId) :
    d.Conserves (d.absorbPreceding leaf) := by
  simp only [absorbPreceding, substitute]
  split
  case h_1 => exact .refl d
  case h_2 w hw =>
    split
    case h_2 => exact .refl d
    case h_1 before n after h =>
      have hc := Node.children_of_childrenAround h
      have hb := List.rdropWhile_append_rtakeWhile (p := Node.isText) (l := before)
      refine hs.conserves_substitute (mem_content_of_holder? hw) _ _ (Nat.le_refl d.next)
        (List.perm_iff_count.mpr fun i => ?_)
      have := congrArg (fun ns => (Node.idsAll ns).count i) hb
      simp only [Node.idsAll_append, List.count_append, List.rdropWhile, List.rtakeWhile] at this
      simp [Node.ids_eq w, hc, List.count_cons, ← this]
      omega

theorem conserves_tagBetween (d : Draft) (first last : NodeId) (tag : String) :
    d.Conserves (d.tagBetween first last tag) := by
  generalize hs : Node.segment first last d.content = parts
  have ⟨before, inside, after⟩ := parts
  exact (tagBetween_of_segment (Node.segment_append_eq hs).symm hs tag).right.conserves

theorem Sound.conserves_apply (hs : d.Sound) {e : Endpoints}
    (hi : e.start.node ∈ Node.idsAll d.content) (tag : String) : d.Conserves (d.apply e tag) := by
  rw [apply]
  split
  case isTrue =>
    have h₁ := hs.conserves_splitStop e.stop
    have hi := mem_content_splitStop hs hi e.stop
    exact h₁.step hs (·.conserves_splitStart hi) |>.step hs (·.conserves_isolate _)
      |>.trans (conserves_tagBetween ..)
  case isFalse =>
    exact hs.conserves_splitStart hi |>.step hs (·.conserves_splitStop e.stop)
      |>.step hs (·.conserves_absorbFollowing _ e.stop.node) |>.step hs (·.conserves_isolate _)
      |>.step hs (·.conserves_absorbPreceding e.stop.node) |>.step hs (·.conserves_isolate _)
      |>.trans (conserves_tagBetween ..)

theorem Sound.conserves_cutWrapper (hs : d.Sound) {w : Node} (hw : w ∈ Node.preorderAll d.content)
    (leaf : NodeId) (offset : Nat) : d.Conserves (d.cutWrapper w leaf offset).2 := by
  unfold cutWrapper
  split
  case h_2 => exact .refl d
  case h_1 before n after h =>
    split
    case isTrue => exact .refl d
    case isFalse =>
      have hc := Node.children_of_childrenAround h
      have h := hs.conserves_substitute hw (fun w' => [w'.withChildren (before ++ [n.takeText offset]),
        w.copyAround ⟨d.next + 1⟩ (n.dropText offset ⟨d.next⟩ :: after)]) []
        (Nat.le_add_right _ 2) (List.perm_iff_count.mpr fun i => by
          simp [Node.ids_eq w, hc, Node.copyAround, List.count_cons]
          omega)
      rwa [List.append_nil] at h

theorem Sound.conserves_clearFrom (hs : d.Sound) (p : Position) (tag : String) :
    d.Conserves (d.clearFrom p tag).2 := by
  unfold clearFrom
  split
  case h_1 => exact .refl d
  case h_2 w hw =>
    split
    case isFalse => exact .refl d
    case isTrue =>
      split
      case isTrue => exact .refl d
      case isFalse => exact hs.conserves_cutWrapper (mem_content_of_holder? hw) ..

theorem Sound.conserves_clearTo (hs : d.Sound) (p : Position) (tag : String) :
    d.Conserves (d.clearTo p tag).2 := by
  unfold clearTo
  split
  case h_1 => exact .refl d
  case h_2 w hw =>
    split
    case isFalse => exact .refl d
    case isTrue =>
      split
      case isTrue => exact .refl d
      case isFalse => exact hs.conserves_cutWrapper (mem_content_of_holder? hw) ..

theorem Sound.conserves_clear (hs : d.Sound) (e : Endpoints) (tag : String) :
    d.Conserves (d.clear e tag) := by
  have h := (hs.conserves_clearFrom e.start tag).step hs (·.conserves_clearTo e.stop tag)
  unfold clear
  simp only
  split
  case h_1 => exact h.trans (grows_clearBetween ..).conserves
  case h_2 => exact h

end Draft

end RichText
