import RichText.Proofs.FlatWalk

namespace RichText

namespace Node

mutual

def sealed : Node → Node
  | mk i k cs => mk i k (if k.isEmbed then [] else sealedAll cs)

def sealedAll : List Node → List Node
  | [] => []
  | n :: ns => n.sealed :: sealedAll ns

end

@[simp]
theorem id_sealed (n : Node) : n.sealed.id = n.id := by
  cases n
  simp [sealed]

@[simp]
theorem kind_sealed (n : Node) : n.sealed.kind = n.kind := by
  cases n
  simp [sealed]

theorem length_sealedAll (ns : List Node) : (sealedAll ns).length = ns.length := by
  induction ns with
  | nil => rfl
  | cons n ns ih => simp [sealedAll, ih]

end Node

namespace Landmark

def sealed (l : Landmark) : Landmark :=
  ⟨l.node.sealed, l.site⟩

-- What a walk asks of an embed: whether there is text in it, and how many offsets it takes.
structure SameEmbed (l l' : Landmark) : Prop where
  text : (Node.preorderAll l.node.children).any Node.isText =
    (Node.preorderAll l'.node.children).any Node.isText
  charCount : l.node.charCount = l'.node.charCount

variable {stop : Position} {ls ls' : List Landmark}

-- A walk sees no more of a block than its embeds let out.
theorem walk_eq_of_sealed (h : ls.map sealed = ls'.map sealed)
    (he : ∀ l ∈ ls, ∀ l' ∈ ls', l.node.id = l'.node.id → l.node.kind = l'.node.kind →
      l.node.kind.isEmbed → SameEmbed l l')
    (hs : ∀ l ∈ ls, l.node.Solid) (r : Nat) : walk stop r ls = walk stop r ls' := by
  induction ls generalizing ls' r with
  | nil =>
    cases ls' with
    | nil => rfl
    | cons => simp at h
  | cons l ls ih =>
    cases ls' with
    | nil => simp at h
    | cons l' ls' =>
      rw [List.map_cons, List.map_cons, List.cons.injEq] at h
      have ih := ih h.right (fun m hm m' hm' => he m (.tail _ hm) m' (.tail _ hm'))
        fun m hm => hs m (.tail _ hm)
      have hn : l.node.sealed = l'.node.sealed := congrArg Landmark.node h.left
      have hsite : l.sealed.site = l'.sealed.site := congrArg Landmark.site h.left
      have hsite : l.site = l'.site := hsite
      have hid : l.node.id = l'.node.id := by simpa using congrArg Node.id hn
      have hkind : l.node.kind = l'.node.kind := by simpa using congrArg Node.kind hn
      have hsame := he l (.head _) l' (.head _) hid hkind
      have hsolid := hs l (.head _)
      rw [walk, walk, ← hsite, ← hid, ← hkind]
      cases hk : l.node.kind
      case text => simp only [ih]
      case lineBreak trailing => cases trailing <;> simp only [ih]
      case embed =>
        have hsame := hsame (by simp [hk, Kind.isEmbed])
        simp only [hsame.text, hsame.charCount, ih]
      all_goals simp [Node.Solid, hk, Kind.isLeaf, Kind.isText, Kind.isBreak, Kind.isEmbed] at hsolid

end Landmark

namespace Node

section Landmarks

mutual

theorem landmarks_sealed (n : Node) (site : Site) :
    n.sealed.landmarks site = (n.landmarks site).map Landmark.sealed := by
  have ⟨i, k, cs⟩ := n
  rw [sealed, landmarks, landmarks]
  cases he : k.isEmbed
  case true => simp [Landmark.sealed, sealed, he]
  case false =>
    cases hk : k.isLeaf
    case true => simp [Landmark.sealed, sealed, he]
    case false => simpa using landmarksAmong_sealedAll cs i 0

theorem landmarksAmong_sealedAll (ns : List Node) (parent : NodeId) (index : Nat) :
    landmarksAmong parent index (sealedAll ns) =
      (landmarksAmong parent index ns).map Landmark.sealed := by
  match ns with
  | [] => rfl
  | n :: ns =>
    rw [sealedAll, landmarksAmong, landmarksAmong, landmarks_sealed n,
      landmarksAmong_sealedAll ns, List.map_append]

end

mutual

theorem parent_of_landmark (n : Node) (hl : l ∈ n.landmarks site) :
    l = ⟨n, site⟩ ∨ ∃ p ∈ n.preorder, p.id = l.site.parent ∧ l.node ∈ p.children := by
  have ⟨i, k, cs⟩ := n
  rw [landmarks] at hl
  split at hl
  case isTrue => exact .inl (List.mem_singleton.mp hl)
  case isFalse =>
    cases parent_of_landmarkAmong cs hl
    case inl h => exact .inr ⟨_, mem_preorder_self _, h.left.symm, h.right⟩
    case inr h =>
      have ⟨p, hp, h⟩ := h
      exact .inr ⟨p, by simp [preorder, hp], h⟩

theorem parent_of_landmarkAmong (ns : List Node) (hl : l ∈ landmarksAmong parent index ns) :
    l.site.parent = parent ∧ l.node ∈ ns ∨
      ∃ p ∈ preorderAll ns, p.id = l.site.parent ∧ l.node ∈ p.children := by
  match ns with
  | [] => contradiction
  | n :: ns =>
    cases List.mem_append.mp hl
    case inl hl =>
      cases parent_of_landmark n hl
      case inl h => exact .inl (by simp [h])
      case inr h =>
        have ⟨p, hp, h⟩ := h
        exact .inr ⟨p, List.mem_append_left _ hp, h⟩
    case inr hl =>
      cases parent_of_landmarkAmong ns hl
      case inl h => exact .inl ⟨h.left, .tail _ h.right⟩
      case inr h =>
        have ⟨p, hp, h⟩ := h
        exact .inr ⟨p, List.mem_append_right _ hp, h⟩

end

end Landmarks

-- Legible content whose embeds all have a text, so that a reader notices each of them.
structure Opaque (ns : List Node) : Prop extends Legible ns where
  content : ∀ n ∈ preorderAll ns, n.kind.isEmbed → (preorderAll n.children).any isText

def SameLength (ns ns' : List Node) : Prop :=
  ∀ n ∈ preorderAll ns, ∀ n' ∈ preorderAll ns', n.id = n'.id → n.kind.isEmbed →
    n.charCount = n'.charCount

instance (ns ns' : List Node) : Decidable (SameLength ns ns') :=
  inferInstanceAs (Decidable (∀ n ∈ preorderAll ns, ∀ n' ∈ preorderAll ns', _))

theorem walk_eq_of_sealedAll {ns ns' : List Node} (h : Opaque ns) (h' : Opaque ns')
    (hs : sealedAll ns = sealedAll ns') (hl : SameLength ns ns') (stop : Position) (o : Nat) :
    Landmark.walk stop o (landmarksAmong i 0 ns) = Landmark.walk stop o (landmarksAmong i 0 ns') := by
  have hm : (landmarksAmong i 0 ns).map Landmark.sealed =
      (landmarksAmong i 0 ns').map Landmark.sealed := by
    rw [← landmarksAmong_sealedAll, hs, landmarksAmong_sealedAll]
  apply Landmark.walk_eq_of_sealed hm
  case hs => exact fun l hm => solid_of_mem_landmarksAmong ns hm
  case he =>
    intro l hm l' hm' hid hk he
    have hn := node_mem_preorderAll ns hm
    have hn' := node_mem_preorderAll ns' hm'
    exact {
      text := (h.content _ hn he).trans (h'.content _ hn' (hk ▸ he)).symm
      charCount := hl _ hn _ hn' hid he
    }

theorem not_mem_ids_of_landmark {b m : Node} (hd : b.ids.Nodup) (h : Legible b.children)
    (hl : l ∈ landmarksAmong b.id 0 b.children) (hm : m ∈ preorderAll b.children)
    (he : m.kind.isEmbed) : l.site.parent ∉ m.ids ∧ (l.node.kind.isLeaf → l.node.id ∉ m.ids) := by
  rw [ids_eq, List.nodup_cons] at hd
  have hsub := preorderAll_sublist b.children hm
  refine ⟨fun hi => ?_, fun hk hi => ?_⟩
  case refine_2 =>
    have ⟨n, hn, e⟩ := mem_ids_iff.mp hi
    have e := eq_of_id_eq hd.right (hsub.subset hn) (node_mem_preorderAll _ hl) e
    exact not_mem_embedAmong _ h hd.right hl hk hm he (e ▸ hn)
  case refine_1 =>
    have ⟨n, hn, e⟩ := mem_ids_iff.mp hi
    cases parent_of_landmarkAmong _ hl
    case inl hp =>
      exact hd.left (mem_idsAll_iff.mpr ⟨n, hsub.subset hn, e.trans hp.left⟩)
    case inr hp =>
      -- The landmark is beneath the embed with its parent, but then it is no landmark.
      have ⟨p, hp, e', hc⟩ := hp
      have e := eq_of_id_eq hd.right (hsub.subset hn) hp (e.trans e'.symm)
      subst e
      have hb : l.node ∈ preorderAll m.children := by
        rw [preorder_eq, List.mem_cons] at hn
        cases hn
        case inl e => exact mem_preorderAll_of_mem (e ▸ hc)
        case inr hn =>
          have hs := preorderAll_sublist _ hn
          exact hs.subset (mem_preorder_of_child hc (mem_preorder_self _))
      cases Bool.or_eq_true_iff.mp (solid_of_mem_landmarksAmong _ hl)
      case inl hk =>
        exact not_mem_embedAmong _ h hd.right hl hk hm he (preorder_eq m ▸ .tail _ hb)
      case inr hk => simp [h.embed m hm he _ hb] at hk

end Node

namespace Tree

variable {t t' : Tree} {block : NodeId} {b b' : Node}

theorem resolve_eq_walk (wf : t.WellFormed) (hb : t.node? block = some b)
    (hk : b.kind.isLeaf = false) (h : Node.Legible b.children) (hf : o = 0 → b.firstLeaf.isText) :
    t.resolve block o = Landmark.walk ⟨block, b.children.length⟩ o
      (Node.landmarksAmong b.id 0 b.children) :=
  (resolve_of_firstLeaf hb hk hf).trans (seek_block (wf.nodup_ids hb) h _ o)

theorem resolve_not_mem_embed (wf : t.WellFormed) (hb : t.node? block = some b)
    (hk : b.kind.isLeaf = false) (h : Node.Legible b.children) (hm : m ∈ Node.preorderAll b.children)
    (he : m.kind.isEmbed) (o : Nat) : (t.resolve block o).node ∉ m.ids := by
  have hd := wf.nodup_ids hb
  have hi : block ∉ m.ids := by
    intro hi
    rw [Node.ids_eq, List.nodup_cons, id_of_node? hb] at hd
    exact hd.left ((Node.ids_sublist_of_mem_preorderAll hm).subset hi)
  cases resolve_cases hb hk o
  case inr h => rwa [h.right]
  case inl hr =>
    rw [hr, seek_block hd h]
    obtain e | ⟨l, hl, hw⟩ := Landmark.walk_cases ⟨block, b.children.length⟩ o
      (Node.landmarksAmong b.id 0 b.children)
    case inl => rwa [e]
    case inr =>
      have hn := Node.not_mem_ids_of_landmark hd h hl hm he
      obtain e | e | ⟨ht, k, -, e⟩ := hw
      case inl | inr.inl => exact e ▸ hn.left
      case inr.inr => exact e ▸ hn.right (by simpa [Kind.isLeaf] using .inl ht)

-- Whatever is beneath the embeds of a block, an offset leads to the same position, and that is
-- outside of them. Only for the first offset it matters whether the block starts with a text.
theorem resolve_eq_of_sealed (wf : t.WellFormed) (wf' : t'.WellFormed)
    (hb : t.node? block = some b) (hb' : t'.node? block = some b') (hk : b.kind.isLeaf = false)
    (hk' : b'.kind.isLeaf = false) (h : Node.Opaque b.children) (h' : Node.Opaque b'.children)
    (hs : Node.sealedAll b.children = Node.sealedAll b'.children)
    (hl : Node.SameLength b.children b'.children) (o : Nat) :
    ((o = 0 → b.firstLeaf.isText = b'.firstLeaf.isText) →
      t.resolve block o = t'.resolve block o) ∧
    (∀ m ∈ Node.preorderAll b.children, m.kind.isEmbed → (t.resolve block o).node ∉ m.ids) ∧
    ∀ m ∈ Node.preorderAll b'.children, m.kind.isEmbed → (t'.resolve block o).node ∉ m.ids := by
  refine ⟨fun hf => ?_, fun m hm he => resolve_not_mem_embed wf hb hk h.toLegible hm he o,
    fun m hm he => resolve_not_mem_embed wf' hb' hk' h'.toLegible hm he o⟩
  by_cases ho : o = 0 → b.firstLeaf.isText
  case pos =>
    have ho' : o = 0 → b'.firstLeaf.isText := fun e => hf e ▸ ho e
    have hlen : b.children.length = b'.children.length := by
      rw [← Node.length_sealedAll, hs, Node.length_sealedAll]
    have hid : b.id = b'.id := (id_of_node? hb).trans (id_of_node? hb').symm
    rw [resolve_eq_walk wf hb hk h.toLegible ho, resolve_eq_walk wf' hb' hk' h'.toLegible ho',
      hlen, hid, Node.walk_eq_of_sealedAll h h' hs hl]
  case neg =>
    have ⟨e, ho⟩ := Classical.not_imp.mp ho
    subst e
    have ho : b.firstLeaf.isText = false := by simpa using ho
    rw [resolve_zero hb hk ho, resolve_zero hb' hk' (hf rfl ▸ ho)]

-- A block with an embed in a wrapper, with some content beneath the embed.
def around (made : Nat) (content : List Node) : Tree where
  roots := [.mk ⟨0⟩ (.block "p" 0 true) [
    .mk ⟨1⟩ (.wrapper (.single "b")) [.mk ⟨2⟩ (.embed "math") content],
    .mk ⟨3⟩ (.text "z") []]]
  made := made

-- Two texts with a break between them, or one text.
theorem resolve_eq_of_sealed_around :
    let cs := [.mk ⟨4⟩ (.text "x") [], .mk ⟨5⟩ (.lineBreak false) [], .mk ⟨6⟩ (.text "y") []]
    let cs' := [.mk ⟨4⟩ (.text "xyz") []]
    (around 7 cs).WellFormed ∧ (around 5 cs').WellFormed ∧
      Node.Opaque ((around 7 cs).children ⟨0⟩) ∧ Node.Opaque ((around 5 cs').children ⟨0⟩) ∧
      Node.sealedAll ((around 7 cs).children ⟨0⟩) = Node.sealedAll ((around 5 cs').children ⟨0⟩) ∧
      Node.SameLength ((around 7 cs).children ⟨0⟩) ((around 5 cs').children ⟨0⟩) ∧
      ∀ o, (around 7 cs).resolve ⟨0⟩ o = (around 5 cs').resolve ⟨0⟩ o := by
  intro cs cs'
  have wf : (around 7 cs).WellFormed := by decide
  have wf' : (around 5 cs').WellFormed := by decide
  have h : Node.Opaque ((around 7 cs).children ⟨0⟩) := ⟨⟨by decide, by decide, by decide⟩, by decide⟩
  have h' : Node.Opaque ((around 5 cs').children ⟨0⟩) :=
    ⟨⟨by decide, by decide, by decide⟩, by decide⟩
  have hs : Node.sealedAll ((around 7 cs).children ⟨0⟩) =
    Node.sealedAll ((around 5 cs').children ⟨0⟩) := by decide
  have hl : Node.SameLength ((around 7 cs).children ⟨0⟩) ((around 5 cs').children ⟨0⟩) := by decide
  have hb : (around 7 cs).node? ⟨0⟩ =
    some (.mk ⟨0⟩ (.block "p" 0 true) ((around 7 cs).children ⟨0⟩)) := rfl
  have hb' : (around 5 cs').node? ⟨0⟩ =
    some (.mk ⟨0⟩ (.block "p" 0 true) ((around 5 cs').children ⟨0⟩)) := rfl
  exact ⟨wf, wf', h, h', hs, hl, fun o =>
    (resolve_eq_of_sealed wf wf' hb hb' rfl rfl h h' hs hl o).left fun _ => rfl⟩

-- Where the embed does not start with a text, neither does the block, so the first offset stays
-- outside of the wrapper.
theorem resolve_zero_around :
    let cs := [.mk ⟨4⟩ (.text "x") []]
    let cs' := [.mk ⟨4⟩ (.element "i") [], .mk ⟨5⟩ (.text "x") []]
    (around 5 cs).WellFormed ∧ (around 6 cs').WellFormed ∧
      Node.Opaque ((around 5 cs).children ⟨0⟩) ∧ Node.Opaque ((around 6 cs').children ⟨0⟩) ∧
      Node.sealedAll ((around 5 cs).children ⟨0⟩) = Node.sealedAll ((around 6 cs').children ⟨0⟩) ∧
      Node.SameLength ((around 5 cs).children ⟨0⟩) ((around 6 cs').children ⟨0⟩) ∧
      (around 5 cs).resolve ⟨0⟩ 0 ≠ (around 6 cs').resolve ⟨0⟩ 0 :=
  ⟨by decide, by decide, ⟨⟨by decide, by decide, by decide⟩, by decide⟩,
    ⟨⟨by decide, by decide, by decide⟩, by decide⟩, by decide, by decide, by decide⟩

end Tree

end RichText
