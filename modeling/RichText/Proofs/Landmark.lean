import RichText.Proofs.Count

namespace RichText

-- A text, a break or an embed that no embed holds, where a reader of a block meets it.
structure Landmark where
  node : Node
  site : Site

namespace Node

mutual

def landmarks (site : Site) : Node → List Landmark
  | mk i k cs =>
    if k.isLeaf || k.isEmbed then [⟨mk i k cs, site⟩]
    else landmarksAmong i 0 cs

def landmarksAmong (parent : NodeId) (index : Nat) : List Node → List Landmark
  | [] => []
  | n :: ns => n.landmarks ⟨parent, index⟩ ++ landmarksAmong parent (index + 1) ns

end

-- Nodes that are read through as their text suggests: nothing is beneath texts and breaks, embeds
-- are not nested, and each embed starts with a text if it has a break at all.
structure Legible (ns : List Node) : Prop where
  leaf : ∀ n ∈ preorderAll ns, n.kind.isLeaf → n.children = []
  embed : ∀ n ∈ preorderAll ns, n.kind.isEmbed →
    ∀ m ∈ preorderAll n.children, m.kind.isEmbed = false
  text : ∀ n ∈ preorderAll ns, n.kind.isEmbed →
    ∀ m ∈ (preorderAll n.children).takeWhile (!·.isText), m.kind.isBreak = false

instance (ns : List Node) : Decidable (Legible ns) :=
  decidable_of_iff (_ ∧ _ ∧ _) ⟨fun h => ⟨h.left, h.right.left, h.right.right⟩,
    fun h => ⟨h.leaf, h.embed, h.text⟩⟩

namespace Legible

theorem of_subset (h : Legible ns) (hs : preorderAll ms ⊆ preorderAll ns) : Legible ms where
  leaf n hn := h.leaf n (hs hn)
  embed n hn := h.embed n (hs hn)
  text n hn := h.text n (hs hn)

theorem head (h : Legible (n :: ns)) : Legible [n] :=
  h.of_subset <| by simp [preorderAll]

theorem tail (h : Legible (n :: ns)) : Legible ns :=
  h.of_subset <| List.subset_append_right ..

theorem children (h : Legible [n]) : Legible n.children :=
  h.of_subset <| by simp [preorderAll, preorder_eq]

end Legible

mutual

theorem kind_leaves (n : Node) :
    (n.leaves site? islands).map Leaf.kind = (n.preorder.filter (·.children.isEmpty)).map kind := by
  have ⟨i, k, cs⟩ := n
  rw [leaves, preorder]
  cases cs with
  | nil => rfl
  | cons => simpa using kind_leavesAmong _

theorem kind_leavesAmong (ns : List Node) :
    (leavesAmong parent index islands ns).map Leaf.kind =
      ((preorderAll ns).filter (·.children.isEmpty)).map kind := by
  match ns with
  | [] => rfl
  | n :: ns => simp [leavesAmong, preorderAll, kind_leaves n, kind_leavesAmong ns]

end

mutual

theorem islands_leaves (n : Node) (h : ∀ m ∈ n.preorder, m.kind.isEmbed = false)
    (hl : l ∈ n.leaves site? islands) : l.islands = islands := by
  have ⟨i, k, cs⟩ := n
  rw [leaves] at hl
  split at hl
  case isTrue => rw [List.mem_singleton.mp hl]
  case isFalse =>
    have hk : k.isEmbed = false := h _ (mem_preorder_self _)
    simp only [hk] at hl
    exact islands_leavesAmong cs (fun m hm => h m (.tail _ hm)) hl

theorem islands_leavesAmong (ns : List Node) (h : ∀ m ∈ preorderAll ns, m.kind.isEmbed = false)
    (hl : l ∈ leavesAmong parent index islands ns) : l.islands = islands := by
  match ns with
  | [] => contradiction
  | n :: ns =>
    cases List.mem_append.mp hl
    case inl hl => exact islands_leaves n (fun m hm => h m (List.mem_append_left _ hm)) hl
    case inr hl => exact islands_leavesAmong ns (fun m hm => h m (List.mem_append_right _ hm)) hl

end

mutual

theorem mem_islands_leaves (n : Node) (hl : l ∈ n.leaves (some site) islands)
    (hi : island ∈ l.islands) : island ∈ islands ∨ island.id ∈ n.ids ∧ island.site?.isSome := by
  have ⟨i, k, cs⟩ := n
  rw [leaves] at hl
  split at hl
  case isTrue =>
    rw [List.mem_singleton.mp hl] at hi
    exact .inl hi
  case isFalse =>
    cases mem_islands_leavesAmong cs hl hi
    case inr h => exact .inr ⟨by simp [h.left], h.right⟩
    case inl h =>
      split at h
      case isFalse => exact .inl h
      case isTrue =>
        cases List.mem_cons.mp h
        case inl e => exact .inr (by simp [e])
        case inr h => exact .inl h

theorem mem_islands_leavesAmong (ns : List Node) (hl : l ∈ leavesAmong parent index islands ns)
    (hi : island ∈ l.islands) : island ∈ islands ∨ island.id ∈ idsAll ns ∧ island.site?.isSome := by
  match ns with
  | [] => contradiction
  | n :: ns =>
    cases List.mem_append.mp hl
    case inl hl => exact (mem_islands_leaves n hl hi).imp_right (.imp_left (by simp +contextual))
    case inr hl => exact (mem_islands_leavesAmong ns hl hi).imp_right (.imp_left (by simp +contextual))

end

end Node

namespace Leaf

variable {stop : Position} {ls rest : List Leaf} {island : Island}

theorem seek_skip (h : ∀ l ∈ ls, l.islands = [island]) :
    seek stop (some island.id) r (ls ++ rest) = seek stop (some island.id) r rest := by
  induction ls with
  | nil => rfl
  | cons l ls ih =>
    have hl : l.islands = [island] := h l (.head _)
    rw [List.cons_append, seek, if_pos (by simp [hl])]
    exact ih fun m hm => h m (.tail _ hm)

theorem seek_left (h : ∀ l ∈ rest, ∀ island ∈ l.islands, island.id ≠ i) :
    seek stop (some i) r rest = seek stop none r rest := by
  cases rest with
  | nil => rfl
  | cons l rest =>
    have hl : ¬l.islands.any (some ·.id = some i) := by
      simpa using h l (.head _)
    have hn : ¬l.islands.any (some ·.id = none) := by simp
    simp only [seek, hl, hn, Bool.false_eq_true, if_false]

theorem seek_plain (ht : l.kind.isText = false) (hb : l.kind.isBreak = false) :
    seek stop none r (l :: rest) = seek stop none r rest := by
  have hn : ¬l.islands.any (some ·.id = none) := by simp
  rw [seek, if_neg hn]
  cases hk : l.kind <;> first | rfl | simp [hk, Kind.isText, Kind.isBreak] at ht hb

-- The leaves of an embed count as one piece from its first text on.
theorem seek_island (h : ∀ l ∈ ls, l.islands = [island]) (hs : island.site? = some site)
    (ht : ∀ l ∈ ls.takeWhile (!·.kind.isText), l.kind.isBreak = false)
    (hr : ∀ l ∈ rest, ∀ i ∈ l.islands, i.id ≠ island.id) :
    seek stop none r (ls ++ rest) =
      if ls.any (·.kind.isText) then
        if r = 0 then site.before
        else if r ≤ island.length then site.after
        else seek stop none (r - island.length) rest
      else seek stop none r rest := by
  induction ls with
  | nil => rfl
  | cons l ls ih =>
    have ⟨id, k, site?, islands⟩ := l
    have hl : islands = [island] := h _ (.head _)
    have hls : ∀ l ∈ ls, l.islands = [island] := fun m hm => h m (.tail _ hm)
    subst hl
    by_cases hk : k.isText
    case pos =>
      cases k <;> try contradiction
      case text s => simp [seek, Kind.isText, hs, seek_skip hls, seek_left hr]
    case neg =>
      have hk : k.isText = false := by simpa using hk
      simp only [List.takeWhile_cons, hk] at ht
      have hb : k.isBreak = false := ht _ (.head _)
      have ih := ih hls fun m hm => ht m (.tail _ hm)
      rw [List.cons_append, seek_plain hk hb, ih, List.any_cons, hk, Bool.false_or]

end Leaf

namespace Landmark

def walk (stop : Position) : Nat → List Landmark → Position
  | _, [] => stop
  | remaining, l :: ls =>
    match l.node.kind with
    | .text s =>
      if remaining ≤ s.length then ⟨l.node.id, remaining⟩ else walk stop (remaining - s.length) ls
    | .lineBreak true => l.site.before
    | .lineBreak false =>
      if remaining = 0 then l.site.before else walk stop (remaining - 1) ls
    | _ =>
      if (Node.preorderAll l.node.children).any Node.isText then
        if remaining = 0 then l.site.before
        else if remaining ≤ l.node.charCount then l.site.after
        else walk stop (remaining - l.node.charCount) ls
      else walk stop remaining ls

end Landmark

namespace Node

theorem takeWhile_filter_of_neg {p q : α → Bool} {l : List α} (h : ∀ a ∈ l, q a = false → p a) :
    (l.filter p).takeWhile q = (l.takeWhile q).filter p := by
  induction l with
  | nil => rfl
  | cons a l ih =>
    have ih := ih fun b hb => h b (.tail _ hb)
    cases hq : q a
    case false => simp [hq, h a (.head _) hq]
    case true => cases hp : p a <;> simp [hp, hq, ih]

section Texts

variable {ns : List Node} {parent : NodeId} {index : Nat} {islands : List Island}

theorem isEmpty_of_isText (h : ∀ n ∈ preorderAll ns, n.kind.isLeaf → n.children = [])
    (hn : n ∈ preorderAll ns) (ht : n.isText) : n.children.isEmpty := by
  have hk : n.kind.isLeaf := by simpa [Kind.isLeaf] using .inl ht
  simp [h n hn hk]

theorem any_isText_leavesAmong (h : ∀ n ∈ preorderAll ns, n.kind.isLeaf → n.children = []) :
    (leavesAmong parent index islands ns).any (·.kind.isText) = (preorderAll ns).any isText :=
  calc (leavesAmong parent index islands ns).any (·.kind.isText)
    _ = ((leavesAmong parent index islands ns).map Leaf.kind).any Kind.isText := by
        rw [List.any_map]
        rfl
    _ = ((preorderAll ns).filter (·.children.isEmpty)).any isText := by
        rw [kind_leavesAmong, List.any_map]
        rfl
    _ = (preorderAll ns).any isText := by
        rw [Bool.eq_iff_iff, List.any_eq_true, List.any_eq_true]
        constructor
        · exact fun ⟨n, hn, ht⟩ => ⟨n, (List.mem_filter.mp hn).left, ht⟩
        · exact fun ⟨n, hn, ht⟩ => ⟨n, List.mem_filter.mpr ⟨hn, isEmpty_of_isText h hn ht⟩, ht⟩

theorem mem_takeWhile_leavesAmong (h : ∀ n ∈ preorderAll ns, n.kind.isLeaf → n.children = [])
    (hl : l ∈ (leavesAmong parent index islands ns).takeWhile (!·.kind.isText)) :
    ∃ m ∈ (preorderAll ns).takeWhile (!·.isText), m.kind = l.kind := by
  have hk : l.kind ∈ ((leavesAmong parent index islands ns).map Leaf.kind).takeWhile (!·.isText) :=
    List.takeWhile_map ▸ List.mem_map_of_mem hl
  rw [kind_leavesAmong, List.takeWhile_map] at hk
  have ⟨m, hm, e⟩ := List.mem_map.mp hk
  have hq : ∀ n ∈ preorderAll ns, (!n.isText) = false → n.children.isEmpty :=
    fun n hn ht => isEmpty_of_isText h hn (by simpa using ht)
  change m ∈ ((preorderAll ns).filter (·.children.isEmpty)).takeWhile (!·.isText) at hm
  rw [takeWhile_filter_of_neg hq] at hm
  exact ⟨m, (List.mem_filter.mp hm).left, e⟩

end Texts

section Seek

variable {stop : Position} {rest : List Leaf} {ls : List Landmark} {site : Site} {cs : List Node}

theorem seek_leaf (hk : k.isLeaf)
    (hw : ∀ r, Leaf.seek stop none r rest = Landmark.walk stop r ls) (r : Nat) :
    Leaf.seek stop none r (⟨i, k, some site, []⟩ :: rest) =
      Landmark.walk stop r (⟨mk i k cs, site⟩ :: ls) := by
  cases k
  case text => simp [Leaf.seek, Landmark.walk, hw]
  case lineBreak trailing => cases trailing <;> simp [Leaf.seek, Landmark.walk, hw]
  all_goals contradiction

theorem seek_childless (hk : k.isLeaf = false) :
    Leaf.seek stop none r (⟨i, k, some site, []⟩ :: rest) = Leaf.seek stop none r rest := by
  cases k <;> first | contradiction | simp [Leaf.seek]

theorem seek_embed (hk : k.isEmbed) (h : Legible [mk i k cs])
    (hr : ∀ l ∈ rest, ∀ island ∈ l.islands, island.id ≠ i)
    (hw : ∀ r, Leaf.seek stop none r rest = Landmark.walk stop r ls) (r : Nat) :
    Leaf.seek stop none r ((mk i k cs).leaves (some site) [] ++ rest) =
      Landmark.walk stop r (⟨mk i k cs, site⟩ :: ls) := by
  have hm : mk i k cs ∈ preorderAll [mk i k cs] := mem_preorderAll_of_mem (.head _)
  have ⟨tag, e⟩ : ∃ tag, k = .embed tag := by cases k <;> simp_all [Kind.isEmbed]
  subst e
  cases cs with
  | nil =>
    have hs : Leaf.seek stop none r (⟨i, .embed tag, some site, []⟩ :: rest) = _ :=
      seek_childless rfl
    exact hs.trans (hw r)
  | cons c cs =>
    let island : Island := ⟨i, (mk i (.embed tag) (c :: cs)).charCount, some site⟩
    have hleaf : ∀ n ∈ preorderAll (c :: cs), n.kind.isLeaf → n.children = [] := h.children.leaf
    have hl : ∀ l ∈ leavesAmong i 0 [island] (c :: cs), l.islands = [island] :=
      fun l hl => islands_leavesAmong _ (h.embed _ hm rfl) hl
    have ht : ∀ l ∈ (leavesAmong i 0 [island] (c :: cs)).takeWhile (!·.kind.isText),
        l.kind.isBreak = false := by
      intro l hl
      have ⟨m, hm', e⟩ := mem_takeWhile_leavesAmong hleaf hl
      exact e ▸ h.text _ hm rfl m hm'
    have e : (mk i (.embed tag) (c :: cs)).leaves (some site) [] =
        leavesAmong i 0 [island] (c :: cs) := rfl
    rw [e, Leaf.seek_island hl rfl ht hr, any_isText_leavesAmong hleaf, hw, hw]
    rfl

end Seek

mutual

theorem seek_leaves {ls : List Landmark} (n : Node) (h : Legible [n]) (hd : n.ids.Nodup)
    (hr : ∀ l ∈ rest, ∀ island ∈ l.islands, island.id ∉ n.ids)
    (hw : ∀ r, Leaf.seek stop none r rest = Landmark.walk stop r ls) (r : Nat) :
    Leaf.seek stop none r (n.leaves (some site) [] ++ rest) =
      Landmark.walk stop r (n.landmarks site ++ ls) := by
  have ⟨i, k, cs⟩ := n
  rw [ids_mk, List.nodup_cons] at hd
  cases hl : k.isLeaf <;> cases he : k.isEmbed
  case true.false | true.true =>
    have hc : cs = [] := h.leaf _ (mem_preorderAll_of_mem (.head _)) hl
    subst hc
    simpa [landmarks, leaves, hl] using seek_leaf hl hw r
  case false.true =>
    have hr : ∀ l ∈ rest, ∀ island ∈ l.islands, island.id ≠ i :=
      fun l hl island hi e => hr l hl island hi (by simp [e])
    simpa [landmarks, he] using seek_embed he h hr hw r
  case false.false =>
    have hr : ∀ l ∈ rest, ∀ island ∈ l.islands, island.id ∉ idsAll cs :=
      fun l hl island hi hn => hr l hl island hi (by simp [hn])
    have hs : Leaf.seek stop none r (leavesAmong i 0 [] cs ++ rest) =
        Landmark.walk stop r (landmarksAmong i 0 cs ++ ls) :=
      seek_leavesAmong cs h.children hd.right hr hw r
    cases cs with
    | nil => simpa [landmarks, leavesAmong, leaves, hl, he, seek_childless hl] using hs
    | cons => simpa [landmarks, leaves, hl, he] using hs

theorem seek_leavesAmong {ls : List Landmark} (ns : List Node) (h : Legible ns)
    (hd : (idsAll ns).Nodup) (hr : ∀ l ∈ rest, ∀ island ∈ l.islands, island.id ∉ idsAll ns)
    (hw : ∀ r, Leaf.seek stop none r rest = Landmark.walk stop r ls) (r : Nat) :
    Leaf.seek stop none r (leavesAmong parent index [] ns ++ rest) =
      Landmark.walk stop r (landmarksAmong parent index ns ++ ls) := by
  match ns with
  | [] => exact hw r
  | n :: ns =>
    rw [idsAll_cons, List.nodup_append] at hd
    rw [leavesAmong, landmarksAmong, List.append_assoc, List.append_assoc]
    apply seek_leaves n h.head hd.left
    case hr =>
      intro l hl island hi hn
      cases List.mem_append.mp hl
      case inl hl =>
        cases mem_islands_leavesAmong ns hl hi
        case inl h => contradiction
        case inr h => exact hd.right.right _ hn _ h.left rfl
      case inr hl => exact hr l hl island hi (by simp [hn])
    case hw =>
      have hr : ∀ l ∈ rest, ∀ island ∈ l.islands, island.id ∉ idsAll ns :=
        fun l hl island hi hn => hr l hl island hi (by simp [hn])
      exact seek_leavesAmong ns h.tail hd.right.left hr hw

end

end Node

end RichText
