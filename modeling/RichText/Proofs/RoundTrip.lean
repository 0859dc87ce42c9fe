import RichText.Proofs.Landmark
import RichText.Proofs.Leaves

namespace RichText

namespace Node

mutual

theorem flow_eq_preorder (n : Node) (h : ∀ m ∈ n.preorder, m.kind.isLeaf → m.children = []) :
    n.flow = n.preorder := by
  have ⟨i, k, cs⟩ := n
  have hs := flowAll_eq_preorderAll cs fun m hm => h m (.tail _ hm)
  rw [flow, preorder, hs]
  split
  case isFalse => rfl
  case isTrue hk =>
    have hc : cs = [] := h _ (mem_preorder_self _) hk
    rw [hc]
    rfl

theorem flowAll_eq_preorderAll (ns : List Node)
    (h : ∀ m ∈ preorderAll ns, m.kind.isLeaf → m.children = []) : flowAll ns = preorderAll ns := by
  match ns with
  | [] => rfl
  | n :: ns =>
    rw [flowAll, preorderAll, flow_eq_preorder n fun m hm => h m (List.mem_append_left _ hm),
      flowAll_eq_preorderAll ns fun m hm => h m (List.mem_append_right _ hm)]

end

section Induction

variable {n : Node} {motive : (b : Node) → n ∈ b.preorder → Prop}

mutual

theorem preorder_induction (self : motive n n.mem_preorder_self)
    (child : ∀ b c (hc : c ∈ b.children) (hn : n ∈ c.preorder),
      motive c hn → motive b (mem_preorder_of_child hc hn)) (b : Node) (h : n ∈ b.preorder) :
    motive b h := by
  have ⟨i, k, cs⟩ := b
  cases List.mem_cons.mp h
  case inl e =>
    subst e
    exact self
  case inr h =>
    have ⟨c, hc, hn, hm⟩ := preorderAll_induction self child cs h
    exact child (mk i k cs) c hc hn hm

theorem preorderAll_induction (self : motive n n.mem_preorder_self)
    (child : ∀ b c (hc : c ∈ b.children) (hn : n ∈ c.preorder),
      motive c hn → motive b (mem_preorder_of_child hc hn)) (ns : List Node)
    (h : n ∈ preorderAll ns) : ∃ c ∈ ns, ∃ hn : n ∈ c.preorder, motive c hn := by
  match ns with
  | [] => contradiction
  | c :: ns =>
    cases List.mem_append.mp h
    case inl hn => exact ⟨c, .head _, hn, preorder_induction self child c hn⟩
    case inr h =>
      have ⟨c, hc, h⟩ := preorderAll_induction self child ns h
      exact ⟨c, .tail _ hc, h⟩

end

end Induction

theorem isInfix_preorder (n : Node) (h : m ∈ n.preorder) : m.preorder <:+: n.preorder := by
  induction n, h using preorder_induction with
  | self => exact List.infix_rfl
  | child n c hc hm ih =>
    obtain ⟨as, bs, hc⟩ := List.append_of_mem hc
    have h : n.preorder = n :: preorderAll as ++ c.preorder ++ preorderAll bs := by
      simp [preorder_eq n, hc, preorderAll]
    exact ih.trans ⟨_, _, h.symm⟩

mutual

theorem getLast?_preorder (n : Node) : n.preorder.getLast? = some n.lastLeaf := by
  have ⟨i, k, cs⟩ := n
  rw [preorder, lastLeaf, List.getLast?_cons, getLast?_preorderAll cs]

theorem getLast?_preorderAll (ns : List Node) :
    (preorderAll ns).getLast?.getD n = lastLeafAmong n ns := by
  match ns with
  | [] => rfl
  | m :: ns =>
    rw [preorderAll, List.getLast?_append, getLast?_preorder m, lastLeafAmong,
      ← getLast?_preorderAll ns]
    cases (preorderAll ns).getLast? <;> rfl

end

theorem sum_charCount (ns : List Node) :
    (ns.map charCount).sum = ((flowAll ns).map (·.kind.width)).sum := by
  induction ns with
  | nil => rfl
  | cons n ns ih => simp [flowAll, ih, charCount_eq_sum]

theorem charCount_of_not_isLeaf {n : Node} (hk : n.kind.isLeaf = false) :
    n.charCount = (n.children.map charCount).sum := by
  rw [charCount_eq_sum, flow_of_not_isLeaf hk, List.map_cons, List.sum_cons,
    Kind.width_of_not_isLeaf hk, Nat.zero_add, sum_charCount]

section Measure

variable {b p n : Node} {ls rs : List Node}

theorem takeWhile_preorder (hd : b.ids.Nodup) (h : b.preorder = ls ++ n :: rs) :
    b.preorder.takeWhile (·.id ≠ n.id) = ls := by
  rw [ids, h, List.map_append, List.nodup_append] at hd
  have hl : ∀ m ∈ ls, decide (m.id ≠ n.id) = true :=
    fun m hm => decide_eq_true (hd.right.right _ (List.mem_map_of_mem hm) _ (.head _))
  rw [h, List.takeWhile_append_of_pos hl, List.takeWhile_cons_of_neg (by simp), List.append_nil]

theorem countBefore_of_preorder (hd : b.ids.Nodup) (hb : b.LeavesEmpty)
    (h : b.preorder = ls ++ n :: rs) : b.countBefore n.id = (ls.map (·.kind.width)).sum := by
  rw [countBefore_eq_sum, flow_eq_preorder b hb, takeWhile_preorder hd h]

theorem countBefore_self (b : Node) : b.countBefore b.id = 0 := by
  have h := takeWhile_flow_self b []
  rw [List.append_nil] at h
  rw [countBefore_eq_sum, h]
  rfl

theorem countBefore_child (hd : b.ids.Nodup) (hb : b.LeavesEmpty) (hp : p ∈ b.preorder)
    (hk : p.kind.isLeaf = false) (hc : p.children = ls ++ n :: rs) :
    b.countBefore n.id = b.countBefore p.id + (ls.map charCount).sum := by
  have ⟨as, bs, e⟩ := isInfix_preorder b hp
  have hp' : b.preorder = as ++ p :: (preorderAll p.children ++ bs) := by
    rw [← e, preorder_eq]
    simp
  have hn : b.preorder =
      (as ++ p :: preorderAll ls) ++ n :: (preorderAll n.children ++ preorderAll rs ++ bs) := by
    rw [hp', hc]
    simp [preorderAll, preorder_eq]
  have hl : flowAll ls = preorderAll ls :=
    flowAll_eq_preorderAll ls fun m hm => hb m (by simp [hn, hm])
  rw [countBefore_of_preorder hd hb hp', countBefore_of_preorder hd hb hn, sum_charCount, hl]
  simp [Kind.width_of_not_isLeaf hk]

theorem offsetOf_before (hk : p.kind.isLeaf = false) (hc : p.children = ls ++ n :: rs) :
    b.offsetOf p ls.length = b.countBefore n.id := by
  have ht : p.isText = false := Node.not_isText_of_not_isLeaf hk
  simp [offsetOf, ht, hc]

theorem offsetOf_after (hd : b.ids.Nodup) (hb : b.LeavesEmpty) (hp : p ∈ b.preorder)
    (hk : p.kind.isLeaf = false) (hc : p.children = ls ++ n :: rs) :
    b.offsetOf p (ls.length + 1) = b.countBefore n.id + n.charCount := by
  have ht : p.isText = false := Node.not_isText_of_not_isLeaf hk
  have hn := countBefore_child hd hb hp hk hc
  cases rs with
  | cons m rs =>
    have hm : b.countBefore m.id = b.countBefore p.id + ((ls ++ [n]).map charCount).sum :=
      countBefore_child hd hb hp hk (by simpa using hc)
    simp [offsetOf, ht, hc, hm, hn, Nat.add_assoc]
  | nil =>
    have hend : b.countBefore p.id + p.charCount = b.countBefore n.id + n.charCount := by
      rw [hn, charCount_of_not_isLeaf hk, hc]
      simp [Nat.add_assoc]
    have hself : p.id = b.id → p = b := List.inj_on_of_nodup_map hd hp b.mem_preorder_self
    rw [← hend, offsetOf, ht, if_neg (by simp), hc, List.getElem?_eq_none (by simp)]
    simp only [Nat.add_one_ne_zero, if_false]
    split
    case isTrue e => rw [hself e, countBefore_self, Nat.zero_add]
    case isFalse => rfl

end Measure

end Node

namespace Tree

-- An embed with offsets of a block on both sides of the given one.
structure Encloses (t : Tree) (block : NodeId) (o : Nat) (n : Node) : Prop where
  embed : n.kind.isEmbed
  left : t.countBefore block n.id < o
  right : o < t.countBefore block n.id + n.charCount

instance {t : Tree} : Decidable (t.Encloses block o n) :=
  decidable_of_iff (n.kind.isEmbed ∧ t.countBefore block n.id < o ∧
    o < t.countBefore block n.id + n.charCount)
    ⟨fun h => ⟨h.left, h.right.left, h.right.right⟩, fun h => ⟨h.embed, h.left, h.right⟩⟩

end Tree

namespace Landmark

-- The offsets of the places that a walk can end in, at a landmark that starts at some offset.
structure At (t : Tree) (block : NodeId) (base : Nat) (l : Landmark) : Prop where
  start : t.countBefore block l.node.id = base
  before : t.offsetOf block l.site.before = base
  after : t.offsetOf block l.site.after = base + l.node.charCount
  inner : l.node.isText → ∀ k ≤ l.node.charCount, t.offsetOf block ⟨l.node.id, k⟩ = base + k
  solid : l.node.kind.isLeaf ∨ l.node.kind.isEmbed

-- Landmarks that follow one another without a gap.
inductive Laid (t : Tree) (block : NodeId) : Nat → List Landmark → Nat → Prop where
  | nil : Laid t block base [] base
  | cons : l.At t block base → Laid t block (base + l.node.charCount) ls total →
    Laid t block base (l :: ls) total

-- Where a reader ends who looks for an offset: past the embed that encloses it, else right there.
structure Lands (t : Tree) (block : NodeId) (ls : List Landmark) (total o x : Nat) : Prop where
  enclosed : ∀ l ∈ ls, t.Encloses block o l.node →
    x = t.countBefore block l.node.id + l.node.charCount
  free : (∀ l ∈ ls, ¬t.Encloses block o l.node) → x = min o total

variable {t : Tree} {block : NodeId} {l : Landmark} {ls : List Landmark} {base total o x : Nat}

namespace Laid

theorem le (h : Laid t block base ls total) : base ≤ total := by
  induction h with
  | nil => exact Nat.le_refl _
  | cons _ _ ih => omega

theorem le_start (h : Laid t block base ls total) (hl : l ∈ ls) :
    base ≤ t.countBefore block l.node.id := by
  induction h with
  | nil => contradiction
  | cons ha _ ih =>
    cases List.mem_cons.mp hl
    case inl e => rw [e, ha.start]
    case inr hl =>
      have := ih hl
      omega

theorem stop_le (h : Laid t block base ls total) (hl : l ∈ ls) :
    t.countBefore block l.node.id + l.node.charCount ≤ total := by
  induction h with
  | nil => contradiction
  | cons ha ht ih =>
    cases List.mem_cons.mp hl
    case inl e => exact e ▸ ha.start ▸ ht.le
    case inr hl => exact ih hl

theorem not_encloses (h : Laid t block base ls total) (ho : o ≤ base) (hl : l ∈ ls) :
    ¬t.Encloses block o l.node := by
  intro he
  have := h.le_start hl
  have := he.left
  omega

end Laid

namespace Lands

theorem of_free (h : ∀ l ∈ ls, ¬t.Encloses block o l.node) (e : x = min o total) :
    Lands t block ls total o x where
  enclosed l hl he := absurd he (h l hl)
  free _ := e

theorem skip (h : Lands t block ls total o x) (hn : ¬t.Encloses block o l.node) :
    Lands t block (l :: ls) total o x where
  enclosed m hm he := by
    cases List.mem_cons.mp hm
    case inl e => exact absurd (e ▸ he) hn
    case inr hm => exact h.enclosed m hm he
  free hf := h.free fun m hm => hf m (.tail _ hm)

theorem here (hl : Laid t block base ls total) (ho : o ≤ base) (hn : ¬t.Encloses block o l.node)
    (hx : x = o) : Lands t block (l :: ls) total o x := by
  apply skip (of_free (fun m hm => hl.not_encloses ho hm) _) hn
  have := hl.le
  omega

end Lands

section Step

variable {n : Node} {site : Site} {stop : Position}
  (hl : Laid t block (base + n.charCount) ls total)
  (ih : ∀ r, Lands t block ls total (base + n.charCount + r) (t.offsetOf block (walk stop r ls)))

include hl ih

theorem lands_text (ha : At t block base ⟨n, site⟩) (hk : n.kind = .text s) (r : Nat) :
    Lands t block (⟨n, site⟩ :: ls) total (base + r)
      (t.offsetOf block (walk stop r (⟨n, site⟩ :: ls))) := by
  have ht : n.isText := by rw [Node.isText, hk]; rfl
  have hc : n.charCount = s.length := by rw [Node.charCount_of_isText ht, hk]; rfl
  have hn : ¬t.Encloses block (base + r) n := fun he => by simpa [hk, Kind.isEmbed] using he.embed
  simp only [walk, hk]
  split
  case isTrue hr => exact .here hl (by omega) hn (ha.inner ht r (hc ▸ hr))
  case isFalse hr =>
    have e : base + n.charCount + (r - s.length) = base + r := by omega
    exact (e ▸ ih _).skip hn

theorem lands_break (ha : At t block base ⟨n, site⟩) (hk : n.kind = .lineBreak trailing)
    (ht : trailing → t.countBefore block n.id = total) (r : Nat) :
    Lands t block (⟨n, site⟩ :: ls) total (base + r)
      (t.offsetOf block (walk stop r (⟨n, site⟩ :: ls))) := by
  have hn : ¬t.Encloses block (base + r) n := fun he => by simpa [hk, Kind.isEmbed] using he.embed
  have hb : t.offsetOf block site.before = base := ha.before
  have hs : t.countBefore block n.id = base := ha.start
  have hc : n.charCount = (Kind.lineBreak trailing).width :=
    hk ▸ Node.charCount_of_isLeaf (by simp [hk, Kind.isLeaf, Kind.isBreak])
  cases trailing
  case true =>
    have ht : t.countBefore block n.id = total := ht rfl
    simp only [walk, hk]
    refine .skip (.of_free (fun m hm he => ?_) (by omega)) hn
    have := hl.le_start hm
    have := hl.stop_le hm
    have := he.left
    have := he.right
    omega
  case false =>
    have hc : n.charCount = 1 := hc
    simp only [walk, hk]
    split
    case isTrue hr => exact .here hl (by omega) hn (by omega)
    case isFalse hr =>
      have e : base + n.charCount + (r - 1) = base + r := by omega
      exact (e ▸ ih _).skip hn

theorem lands_embed (ha : At t block base ⟨n, site⟩) (hk : n.kind = .embed tag)
    (hv : (Node.preorderAll n.children).any Node.isText = false → n.charCount = 0) (r : Nat) :
    Lands t block (⟨n, site⟩ :: ls) total (base + r)
      (t.offsetOf block (walk stop r (⟨n, site⟩ :: ls))) := by
  have hs : t.countBefore block n.id = base := ha.start
  have hb : t.offsetOf block site.before = base := ha.before
  have hf : t.offsetOf block site.after = base + n.charCount := ha.after
  have hn (h : r = 0 ∨ n.charCount ≤ r) : ¬t.Encloses block (base + r) n := by
    intro he
    have := he.left
    have := he.right
    omega
  simp only [walk, hk]
  split
  case isFalse ht =>
    have hc : n.charCount = 0 := hv (by simpa using ht)
    have e : base + n.charCount + r = base + r := by omega
    exact (e ▸ ih r).skip (hn (by omega))
  case isTrue =>
    split
    case isTrue hr => exact .here hl (by omega) (hn (.inl hr)) (by omega)
    case isFalse hr =>
      split
      case isFalse hlt =>
        have e : base + n.charCount + (r - n.charCount) = base + r := by omega
        exact (e ▸ ih _).skip (hn (by omega))
      case isTrue hle =>
        by_cases hr' : r = n.charCount
        case pos => exact .here hl (by omega) (hn (by omega)) (by omega)
        case neg =>
          have he : t.Encloses block (base + r) n :=
            ⟨by simp [hk, Kind.isEmbed], by omega, by omega⟩
          constructor
          case free => exact fun hfree => absurd he (hfree _ (.head _))
          case enclosed =>
            intro m hm he'
            cases List.mem_cons.mp hm
            case inl e => rw [e, hs, hf]
            case inr hm => exact absurd he' (hl.not_encloses (by omega) hm)

end Step

-- The walk through landmarks that are laid out from some offset finds each offset from there on.
theorem lands_walk (h : Laid t block base ls total) (hs : t.offsetOf block stop = total)
    (ht : ∀ l ∈ ls, l.node.kind = .lineBreak true → t.countBefore block l.node.id = total)
    (hv : ∀ l ∈ ls, l.node.kind.isEmbed →
      (Node.preorderAll l.node.children).any Node.isText = false → l.node.charCount = 0) (r : Nat) :
    Lands t block ls total (base + r) (t.offsetOf block (walk stop r ls)) := by
  induction h generalizing r with
  | nil => exact .of_free (by simp) (by simp [walk, hs])
  | @cons base ls total l ha hl ih =>
    have ih := ih hs (fun m hm => ht m (.tail _ hm)) (fun m hm => hv m (.tail _ hm))
    obtain ⟨n, site⟩ := l
    cases hk : n.kind
    case text => exact lands_text hl ih ha hk r
    case lineBreak trailing =>
      exact lands_break hl ih ha hk (fun e => ht _ (.head _) (by simp [hk, e])) r
    case embed tag => exact lands_embed hl ih ha hk (hv _ (.head _) (by simp [hk, Kind.isEmbed])) r
    all_goals
      exact absurd ha.solid (by simp [hk, Kind.isLeaf, Kind.isText, Kind.isBreak, Kind.isEmbed])

end Landmark

namespace Node

structure Readable (b : Node) : Prop extends Legible b.children where
  trailing : ∀ n ∈ preorderAll b.children, n.kind = .lineBreak true →
    (∀ m ∈ preorderAll b.children, m.kind.isEmbed → n ∉ m.preorder) → n = b.lastLeaf

instance (b : Node) : Decidable b.Readable :=
  decidable_of_iff (_ ∧ _) ⟨fun h => ⟨h.left, h.right⟩, fun h => ⟨h.toLegible, h.trailing⟩⟩

theorem head?_leavesAmong {n : Node} (ns : List Node)
    (h : (n.leaves (some ⟨parent, index⟩) islands).head?.map Leaf.kind = some n.firstLeaf.kind) :
    (leavesAmong parent index islands (n :: ns)).head?.map Leaf.kind = some n.firstLeaf.kind := by
  rw [leavesAmong]
  cases hl : n.leaves (some ⟨parent, index⟩) islands with
  | nil => simp [hl] at h
  | cons l ls => simpa [hl] using h

theorem head?_leaves (n : Node) :
    (n.leaves site? islands).head?.map Leaf.kind = some n.firstLeaf.kind := by
  match n with
  | mk i k [] => rfl
  | mk i k (c :: cs) => exact head?_leavesAmong cs (head?_leaves c)
termination_by structural n

section Landmarks

mutual

theorem node_mem_preorder (n : Node) (hl : l ∈ n.landmarks site) : l.node ∈ n.preorder := by
  have ⟨i, k, cs⟩ := n
  rw [landmarks] at hl
  split at hl
  case isTrue => exact List.mem_singleton.mp hl ▸ mem_preorder_self _
  case isFalse => exact .tail _ (node_mem_preorderAll cs hl)

theorem node_mem_preorderAll (ns : List Node) (hl : l ∈ landmarksAmong parent index ns) :
    l.node ∈ preorderAll ns := by
  match ns with
  | [] => contradiction
  | n :: ns =>
    cases List.mem_append.mp hl
    case inl hl => exact List.mem_append_left _ (node_mem_preorder n hl)
    case inr hl => exact List.mem_append_right _ (node_mem_preorderAll ns hl)

end

mutual

theorem exists_landmark (n : Node) (h : Legible [n]) (hm : m ∈ n.preorder) (hk : m.kind.isEmbed) :
    ∃ l ∈ n.landmarks site, l.node = m := by
  have ⟨i, k, cs⟩ := n
  rw [landmarks]
  cases List.mem_cons.mp hm
  case inl e =>
    subst e
    have hk : k.isEmbed := hk
    rw [if_pos (by simp [hk])]
    exact ⟨_, .head _, rfl⟩
  case inr hm =>
    have hl : k.isLeaf = false := by
      rw [Bool.eq_false_iff]
      intro hl
      have hc : cs = [] := h.leaf _ (mem_preorderAll_of_mem (.head _)) hl
      simp [hc, preorderAll] at hm
    have he : k.isEmbed = false := by
      rw [Bool.eq_false_iff]
      intro he
      have := h.embed _ (mem_preorderAll_of_mem (.head _)) he m hm
      simp [this] at hk
    simpa [hl, he] using exists_landmarkAmong cs h.children hm hk

theorem exists_landmarkAmong (ns : List Node) (h : Legible ns) (hm : m ∈ preorderAll ns)
    (hk : m.kind.isEmbed) : ∃ l ∈ landmarksAmong parent index ns, l.node = m := by
  match ns with
  | [] => contradiction
  | n :: ns =>
    cases List.mem_append.mp hm
    case inl hm =>
      have hn : ∃ l ∈ n.landmarks ⟨parent, index⟩, l.node = m := exists_landmark n h.head hm hk
      exact hn.imp fun l hl => ⟨List.mem_append_left _ hl.left, hl.right⟩
    case inr hm =>
      have hn : ∃ l ∈ landmarksAmong parent (index + 1) ns, l.node = m :=
        exists_landmarkAmong ns h.tail hm hk
      exact hn.imp fun l hl => ⟨List.mem_append_right _ hl.left, hl.right⟩

end

mutual

theorem not_mem_embed (n : Node) (h : Legible [n]) (hd : n.ids.Nodup) (hl : l ∈ n.landmarks site)
    (hk : l.node.kind.isLeaf) (hm : m ∈ n.preorder) (he : m.kind.isEmbed) :
    l.node ∉ m.preorder := by
  have ⟨i, k, cs⟩ := n
  rw [ids_mk, List.nodup_cons] at hd
  rw [landmarks] at hl
  split at hl
  case isTrue =>
    rw [List.mem_singleton.mp hl] at hk
    have hc : cs = [] := h.leaf _ (mem_preorderAll_of_mem (.head _)) hk
    simp only [hc, preorder, preorderAll, List.mem_singleton] at hm
    subst hm
    cases k <;> contradiction
  case isFalse hk' =>
    cases List.mem_cons.mp hm
    case inl e => simp_all
    case inr hm => exact not_mem_embedAmong cs h.children hd.right hl hk hm he

theorem not_mem_embedAmong (ns : List Node) (h : Legible ns) (hd : (idsAll ns).Nodup)
    (hl : l ∈ landmarksAmong parent index ns) (hk : l.node.kind.isLeaf) (hm : m ∈ preorderAll ns)
    (he : m.kind.isEmbed) : l.node ∉ m.preorder := by
  match ns with
  | [] => contradiction
  | n :: ns =>
    rw [idsAll_cons, List.nodup_append] at hd
    intro hn
    cases List.mem_append.mp hl <;> cases List.mem_append.mp hm
    case inl.inl hl hm => exact not_mem_embed n h.head hd.left hl hk hm he hn
    case inr.inr hl hm => exact not_mem_embedAmong ns h.tail hd.right.left hl hk hm he hn
    case inl.inr hl hm =>
      have hl := mem_ids_iff.mpr ⟨_, node_mem_preorder n hl, rfl⟩
      have hn := mem_idsAll_iff.mpr ⟨_, (preorderAll_sublist ns hm).subset hn, rfl⟩
      exact hd.right.right _ hl _ hn rfl
    case inr.inl hl hm =>
      have hl := mem_idsAll_iff.mpr ⟨_, node_mem_preorderAll ns hl, rfl⟩
      have hn := mem_ids_iff.mpr ⟨_, mem_preorder_trans hm hn, rfl⟩
      exact hd.right.right _ hn _ hl rfl

end

end Landmarks

section Laid

variable {t : Tree} {block : NodeId} {b : Node}

theorem at_landmark {p : Node} {as : List Node} (wf : t.WellFormed) (hb : t.node? block = some b)
    (he : b.LeavesEmpty) (hp : p ∈ b.preorder) (hk : p.kind.isLeaf = false)
    (hc : p.children = as ++ n :: bs) (hs : n.kind.isLeaf ∨ n.kind.isEmbed) :
    Landmark.At t block (b.countBefore n.id) ⟨n, ⟨p.id, as.length⟩⟩ where
  start := Tree.countBefore_of_node? hb
  before := (wf.offsetOf_of_mem hb hp).trans (offsetOf_before hk hc)
  after := (wf.offsetOf_of_mem hb hp).trans (offsetOf_after (wf.nodup_ids hb) he hp hk hc)
  solid := hs
  inner ht k hle := by
    have hn : n ∈ b.preorder :=
      mem_preorder_trans hp (mem_preorder_of_child (by simp [hc]) n.mem_preorder_self)
    rw [charCount_of_isText ht] at hle
    rw [wf.offsetOf_of_mem hb hn, offsetOf, if_pos ht, Nat.min_eq_left hle]

mutual

theorem laid_landmarks {p : Node} {as : List Node} {ls : List Landmark} (wf : t.WellFormed)
    (hb : t.node? block = some b) (he : b.LeavesEmpty) (n : Node) (hp : p ∈ b.preorder)
    (hk : p.kind.isLeaf = false) (hc : p.children = as ++ n :: bs)
    (hl : Landmark.Laid t block (b.countBefore n.id + n.charCount) ls total) :
    Landmark.Laid t block (b.countBefore n.id) (n.landmarks ⟨p.id, as.length⟩ ++ ls) total := by
  have hn : n ∈ b.preorder :=
    mem_preorder_trans hp (mem_preorder_of_child (by simp [hc]) n.mem_preorder_self)
  have ⟨i, k, cs⟩ := n
  rw [landmarks]
  split
  case isTrue hk' => exact .cons (at_landmark wf hb he hp hk hc (by simpa using hk')) hl
  case isFalse hk' =>
    have hk' : k.isLeaf = false := by simp_all
    have hcs : (mk i k cs).children = [] ++ cs := rfl
    exact laid_landmarksAmong wf hb he cs hn hk' hcs hl
termination_by structural n

theorem laid_landmarksAmong {p : Node} {as : List Node} {ls : List Landmark} (wf : t.WellFormed)
    (hb : t.node? block = some b) (he : b.LeavesEmpty) (ns : List Node) (hp : p ∈ b.preorder)
    (hk : p.kind.isLeaf = false) (hc : p.children = as ++ ns)
    (hl : Landmark.Laid t block (b.countBefore p.id + p.charCount) ls total) :
    Landmark.Laid t block (b.countBefore p.id + (as.map charCount).sum)
      (landmarksAmong p.id as.length ns ++ ls) total := by
  match ns with
  | [] =>
    rw [List.append_nil] at hc
    rw [charCount_of_not_isLeaf hk, hc] at hl
    exact hl
  | n :: ns =>
    have hn : b.countBefore n.id = b.countBefore p.id + (as.map charCount).sum :=
      countBefore_child (wf.nodup_ids hb) he hp hk hc
    have hns := laid_landmarksAmong wf hb he ns hp hk (List.append_cons as n ns ▸ hc) hl
    rw [landmarksAmong, List.append_assoc, ← hn]
    apply laid_landmarks wf hb he n hp hk hc
    simpa [hn, Nat.add_assoc] using hns
termination_by structural ns

end

end Laid

theorem charCount_of_no_text {n : Node} (hk : n.kind.isEmbed) (h : Legible [n])
    (ht : (preorderAll n.children).any isText = false) : n.charCount = 0 := by
  have ht : ∀ m ∈ preorderAll n.children, (!m.isText) = true := by simpa using ht
  have hb := h.text n (mem_preorderAll_of_mem (.head _)) hk
  rw [List.takeWhile_eq_self_iff.mpr ht] at hb
  have hw : ∀ m ∈ flowAll n.children, m.kind.width = 0 := by
    intro m hm
    have hm := (flowAll_sublist _).subset hm
    apply Kind.width_of_not_isLeaf
    have hmt : m.kind.isText = false := Bool.not_eq_true' _ ▸ ht m hm
    rw [Kind.isLeaf, hmt, hb m hm]
    rfl
  have hl : n.kind.isLeaf = false := by
    cases hn : n.kind <;> simp_all [Kind.isEmbed, Kind.isLeaf, Kind.isText, Kind.isBreak]
  rw [charCount_of_not_isLeaf hl, sum_charCount, List.sum_eq_zero_iff_forall_eq_nat]
  simpa using hw

namespace Readable

variable {b : Node}

theorem leavesEmpty (h : b.Readable) (hk : b.kind.isLeaf = false) : b.LeavesEmpty := by
  intro n hn hl
  rw [preorder_eq] at hn
  cases List.mem_cons.mp hn
  case inl e => simp [e, hk] at hl
  case inr hn => exact h.leaf n hn hl

theorem countBefore_of_trailing (h : b.Readable) (hk : b.kind.isLeaf = false) (hd : b.ids.Nodup)
    (hl : l ∈ landmarksAmong b.id 0 b.children) (ht : l.node.kind = .lineBreak true) :
    b.countBefore l.node.id = b.charCount := by
  have hlk : l.node.kind.isLeaf := by simp [ht, Kind.isLeaf, Kind.isBreak]
  rw [ids_eq] at hd
  have hlast : l.node = b.lastLeaf :=
    h.trailing _ (node_mem_preorderAll _ hl) ht fun m hm he =>
      not_mem_embedAmong _ h.toLegible hd.tail hl hlk hm he
  obtain ⟨as, e⟩ := List.getLast?_eq_some_iff.mp (getLast?_preorder b)
  rw [← hlast] at e
  rw [countBefore_of_preorder (ids_eq b ▸ hd) (h.leavesEmpty hk) e, charCount_eq_sum,
    flow_eq_preorder b (h.leavesEmpty hk), e]
  simp [ht, Kind.width]

end Readable

def deep : Node :=
  .mk ⟨0⟩ (.block "p" 0 true) [
    .mk ⟨1⟩ (.text "ab") [],
    .mk ⟨2⟩ (.element "div") [
      .mk ⟨3⟩ (.wrapper (.single "b")) [
        .mk ⟨4⟩ (.text "c") [],
        .mk ⟨5⟩ (.embed "math") [
          .mk ⟨6⟩ (.text "xy") [],
          .mk ⟨7⟩ (.lineBreak false) []]]],
    .mk ⟨8⟩ (.lineBreak true) []]

end Node

namespace Tree

variable {t : Tree} {block : NodeId} {b : Node}

theorem offsetOf_end (wf : t.WellFormed) (hb : t.node? block = some b)
    (hk : b.kind.isLeaf = false) : t.offsetOf block ⟨block, b.children.length⟩ = b.charCount := by
  have ht : b.isText = false := Node.not_isText_of_not_isLeaf hk
  have he := wf.offsetOf_of_mem (k := b.children.length) hb b.mem_preorder_self
  rw [id_of_node? hb] at he
  rw [he, Node.offsetOf, ht, if_neg (by simp), List.getElem?_eq_none (Nat.le_refl _)]
  simp only [if_true]
  split
  case isFalse => rfl
  case isTrue h =>
    rw [Node.charCount_of_not_isLeaf hk, List.eq_nil_of_length_eq_zero h, Node.countBefore_self]
    rfl

theorem laid_block (wf : t.WellFormed) (hb : t.node? block = some b) (he : b.LeavesEmpty)
    (hk : b.kind.isLeaf = false) :
    Landmark.Laid t block 0 (Node.landmarksAmong b.id 0 b.children) b.charCount := by
  have hz : b.countBefore b.id + b.charCount = b.charCount := by simp [Node.countBefore_self]
  have hn : Landmark.Laid t block (b.countBefore b.id + b.charCount) [] b.charCount :=
    hz.symm ▸ .nil
  have hc : b.children = [] ++ b.children := rfl
  simpa [Node.countBefore_self] using
    Node.laid_landmarksAmong wf hb he b.children b.mem_preorder_self hk hc hn

theorem seek_block (hd : b.ids.Nodup) (h : Node.Legible b.children) (stop : Position) (o : Nat) :
    Leaf.seek stop none o (Node.leavesAmong b.id 0 [] b.children) =
      Landmark.walk stop o (Node.landmarksAmong b.id 0 b.children) := by
  have hds : (Node.idsAll b.children).Nodup := (Node.ids_eq b ▸ hd).tail
  have hs : Leaf.seek stop none o (Node.leavesAmong b.id 0 [] b.children ++ []) =
      Landmark.walk stop o (Node.landmarksAmong b.id 0 b.children ++ []) :=
    Node.seek_leavesAmong b.children h hds (by simp) (fun r => rfl) o
  rwa [List.append_nil, List.append_nil] at hs

theorem lands_seek (wf : t.WellFormed) (hb : t.node? block = some b) (hk : b.kind.isLeaf = false)
    (h : b.Readable) (o : Nat) :
    Landmark.Lands t block (Node.landmarksAmong b.id 0 b.children) b.charCount o
      (t.offsetOf block (Leaf.seek ⟨block, b.children.length⟩ none o
        (Node.leavesAmong b.id 0 [] b.children))) := by
  have hd := wf.nodup_ids hb
  have hl := Landmark.lands_walk (laid_block wf hb (h.leavesEmpty hk) hk) (offsetOf_end wf hb hk)
    (fun l hl ht => (countBefore_of_node? hb).trans (h.countBefore_of_trailing hk hd hl ht))
    (fun l hl he => Node.charCount_of_no_text he <| h.of_subset <| by
      simpa [Node.preorderAll] using
        (Node.preorderAll_sublist _ (Node.node_mem_preorderAll _ hl)).subset)
    o
  rw [seek_block hd h.toLegible]
  simpa using hl

theorem head?_trail {l : Location} (hk : l.node.kind.isLeaf = false) :
    (t.trail l).head?.map Leaf.kind = some l.node.firstLeaf.kind := by
  rw [trail]
  cases hc : l.node.children with
  | nil =>
    have hf : l.node.firstLeaf = l.node := by
      rw [← l.node.eta, hc]
      rfl
    rw [hf]
    cases hk' : l.node.kind <;> simp_all [Kind.isLeaf, Kind.isText]
  | cons n ns =>
    have hf : l.node.firstLeaf = n.firstLeaf := by
      rw [← l.node.eta, hc]
      rfl
    exact hf ▸ Node.head?_leavesAmong ns (Node.head?_leaves n)

theorem resolve_zero (hb : t.node? block = some b) (hk : b.kind.isLeaf = false)
    (hf : b.firstLeaf.isText = false) : t.resolve block 0 = ⟨block, 0⟩ := by
  have ⟨l, hl, e⟩ := Option.map_eq_some_iff.mp hb
  subst e
  have hh : (t.trail l).head?.map Leaf.kind = _ := head?_trail hk
  simp only [resolve, hl, if_true]
  split
  case h_3 => rfl
  all_goals
    rename_i h
    rw [h] at hh
    rw [Node.isText, ← Option.some.inj hh] at hf
    contradiction

theorem resolve_of_firstLeaf (hb : t.node? block = some b) (hk : b.kind.isLeaf = false)
    (hf : o = 0 → b.firstLeaf.isText) : t.resolve block o =
      Leaf.seek ⟨block, b.children.length⟩ none o (Node.leavesAmong b.id 0 [] b.children) := by
  obtain ⟨l, hl, e⟩ := Option.map_eq_some_iff.mp hb
  subst e
  have hh : (t.trail l).head?.map Leaf.kind = _ := head?_trail hk
  simp only [resolve, hl]
  cases hc : l.node.children with
  | nil =>
    have e : l.node.firstLeaf = l.node := by
      rw [← l.node.eta, hc]
      rfl
    have ht : l.node.isText = false := Node.not_isText_of_not_isLeaf hk
    have e : t.trail l = [⟨l.node.id, l.node.kind, l.site?, l.islandsAbove⟩] := by
      rw [trail, hc]
      cases hk' : l.node.kind <;> simp_all [Node.isText, Kind.isText]
    rw [e, if_neg fun ho => by simp_all]
    cases hk' : l.node.kind <;>
      simp_all [Kind.isLeaf, Kind.isText, Kind.isBreak, Node.leavesAmong, Leaf.seek]
  | cons n ns =>
    have e : t.trail l = Node.leavesAmong l.node.id 0 [] (n :: ns) := by
      rw [trail, hc]
      rfl
    rw [e] at hh ⊢
    split
    case isFalse => rfl
    case isTrue ho =>
      subst ho
      split
      case h_1 h => simp [h, Leaf.seek]
      case h_2 id content site? island islands rest h =>
        have hm : ⟨id, .text content, site?, island :: islands⟩ ∈
            Node.leavesAmong l.node.id 0 [] (n :: ns) := h ▸ .head _
        cases Node.mem_islands_leavesAmong _ hm (.head _)
        case inl hi => contradiction
        case inr hi =>
          obtain ⟨site, hs⟩ := Option.isSome_iff_exists.mp hi.right
          simp [h, Leaf.seek, hs]
      case h_3 h₁ h₂ =>
        obtain ⟨leaf, hl, hk⟩ := Option.map_eq_some_iff.mp hh
        obtain ⟨rest, hr⟩ := List.head?_eq_some_iff.mp hl
        obtain ⟨id, kind, site?, islands⟩ := leaf
        have ht : kind.isText := by
          rw [show kind = _ from hk]
          exact hf rfl
        cases kind <;> try contradiction
        cases islands with
        | nil => exact (h₁ _ _ _ _ hr).elim
        | cons => exact (h₂ _ _ _ _ _ _ hr).elim

theorem resolve_cases (hb : t.node? block = some b) (hk : b.kind.isLeaf = false) (o : Nat) :
    t.resolve block o = Leaf.seek ⟨block, b.children.length⟩ none o
        (Node.leavesAmong b.id 0 [] b.children) ∨
      o = 0 ∧ t.resolve block o = ⟨block, 0⟩ := by
  by_cases hf : o = 0 → b.firstLeaf.isText
  case pos => exact .inl (resolve_of_firstLeaf hb hk hf)
  case neg =>
    have ⟨ho, hf⟩ := Classical.not_imp.mp hf
    subst ho
    exact .inr ⟨rfl, resolve_zero hb hk (by simpa using hf)⟩

theorem offsetOf_start (wf : t.WellFormed) (hb : t.node? block = some b)
    (hk : b.kind.isLeaf = false) (he : b.LeavesEmpty) : t.offsetOf block ⟨block, 0⟩ = 0 := by
  have ht : b.isText = false := Node.not_isText_of_not_isLeaf hk
  have ho := wf.offsetOf_of_mem (k := 0) hb b.mem_preorder_self
  rw [id_of_node? hb] at ho
  rw [ho, Node.offsetOf, ht, if_neg (by simp)]
  cases hc : b.children with
  | nil => simp [Node.countBefore_self]
  | cons n ns =>
    have hc : b.children = [] ++ n :: ns := hc
    have := Node.countBefore_child (wf.nodup_ids hb) he b.mem_preorder_self hk hc
    simpa [Node.countBefore_self] using this

-- An offset leads to a position at that offset, except that it skips the rest of an embed that
-- encloses it, and the end of the block is as far as it gets.
theorem offsetOf_resolve (wf : t.WellFormed) (hb : t.node? block = some b)
    (hk : b.kind.isLeaf = false) (h : b.Readable) (o : Nat) :
    (∀ n ∈ Node.preorderAll b.children, t.Encloses block o n →
      t.offsetOf block (t.resolve block o) = t.countBefore block n.id + n.charCount) ∧
    ((∀ n ∈ Node.preorderAll b.children, ¬t.Encloses block o n) →
      t.offsetOf block (t.resolve block o) = min o (t.charCount block)) := by
  rw [charCount_of_node? hb]
  cases resolve_cases hb hk o
  case inr hr =>
    have ⟨ho, hr⟩ := hr
    rw [hr, offsetOf_start wf hb hk (h.leavesEmpty hk)]
    exact ⟨fun n _ he => absurd he.left (by omega), fun _ => by omega⟩
  case inl hr =>
    rw [hr]
    have hl := lands_seek wf hb hk h o
    constructor
    · intro n hn he
      have ⟨l, hl', e⟩ : ∃ l ∈ Node.landmarksAmong b.id 0 b.children, l.node = n :=
        Node.exists_landmarkAmong _ h.toLegible hn he.embed
      exact e ▸ hl.enclosed l hl' (e ▸ he)
    · exact fun hf => hl.free fun l hl' => hf l.node (Node.node_mem_preorderAll _ hl')

def deep : Tree where
  roots := [.deep]
  made := 9

-- Within the embed, and past the end.
theorem offsetOf_resolve_deep :
    deep.WellFormed ∧ deep.node? ⟨0⟩ = some .deep ∧ Node.deep.kind.isLeaf = false ∧
      Node.deep.Readable ∧ deep.offsetOf ⟨0⟩ (deep.resolve ⟨0⟩ 4) = 6 ∧
      deep.offsetOf ⟨0⟩ (deep.resolve ⟨0⟩ 9) = 6 := by
  have wf : deep.WellFormed := by decide
  have h : Node.deep.Readable := ⟨⟨by decide, by decide, by decide⟩, by decide⟩
  have hm : ∃ n ∈ Node.preorderAll Node.deep.children, deep.Encloses ⟨0⟩ 4 n ∧
      deep.countBefore ⟨0⟩ n.id + n.charCount = 6 := by decide
  have ⟨n, hn, he, hs⟩ := hm
  refine ⟨wf, rfl, rfl, h, ?_, ?_⟩
  case refine_1 => exact ((offsetOf_resolve wf rfl rfl h 4).left n hn he).trans hs
  case refine_2 => exact (offsetOf_resolve wf rfl rfl h 9).right (by decide)

end Tree

end RichText
