import RichText.Restyle.Draft
import RichText.Proofs.Count

namespace RichText

namespace Kind

@[simp]
theorem isLeaf_mapText {k : Kind} : (k.mapText f).isLeaf = k.isLeaf := by
  cases k <;> rfl

@[simp]
theorem isLeaf_mapStyles {k : Kind} : (k.mapStyles f).isLeaf = k.isLeaf := by
  cases k <;> rfl

@[simp]
theorem isLeaf_wrapper : (wrapper s).isLeaf = false :=
  rfl

end Kind

namespace Node

def LeavesEmpty (n : Node) : Prop :=
  ∀ m ∈ n.preorder, m.kind.isLeaf → m.children = []

def LeavesEmptyAll (ns : List Node) : Prop :=
  ∀ n ∈ preorderAll ns, n.kind.isLeaf → n.children = []

instance (ns : List Node) : Decidable (LeavesEmptyAll ns) :=
  inferInstanceAs (Decidable (∀ n ∈ preorderAll ns, _))

theorem leavesEmptyAll_iff {ns : List Node} : LeavesEmptyAll ns ↔ ∀ n ∈ ns, n.LeavesEmpty := by
  simp only [LeavesEmptyAll, LeavesEmpty, preorderAll_eq_flatMap, List.mem_flatMap]
  constructor
  · exact fun h n hn m hm => h m ⟨n, hn, hm⟩
  · exact fun h m ⟨n, hn, hm⟩ => h n hn m hm

@[simp]
theorem leavesEmptyAll_nil : LeavesEmptyAll [] := by
  simp [leavesEmptyAll_iff]

@[simp]
theorem leavesEmptyAll_cons : LeavesEmptyAll (n :: ns) ↔ n.LeavesEmpty ∧ LeavesEmptyAll ns := by
  simp [leavesEmptyAll_iff]

@[simp]
theorem leavesEmptyAll_append :
    LeavesEmptyAll (ns ++ ms) ↔ LeavesEmptyAll ns ∧ LeavesEmptyAll ms := by
  simp [leavesEmptyAll_iff, or_imp, forall_and]

theorem LeavesEmptyAll.of_subset (h : LeavesEmptyAll ns) (hs : ms ⊆ ns) : LeavesEmptyAll ms :=
  leavesEmptyAll_iff.mpr fun n hn => leavesEmptyAll_iff.mp h n (hs hn)

theorem leavesEmpty_iff {n : Node} :
    n.LeavesEmpty ↔ (n.kind.isLeaf → n.children = []) ∧ LeavesEmptyAll n.children := by
  simp [LeavesEmpty, LeavesEmptyAll, preorder_eq]

theorem LeavesEmpty.children {n : Node} (h : n.LeavesEmpty) : LeavesEmptyAll n.children :=
  (leavesEmpty_iff.mp h).right

theorem LeavesEmpty.of_mem {n m : Node} (h : n.LeavesEmpty) (hm : m ∈ n.preorder) :
    m.LeavesEmpty :=
  fun l hl => h l (mem_preorder_trans hm hl)

theorem LeavesEmpty.not_isLeaf {n c : Node} (h : n.LeavesEmpty) (hc : c ∈ n.children) :
    n.kind.isLeaf = false := by
  by_contra hk
  rw [(leavesEmpty_iff.mp h).left (by simpa using hk)] at hc
  contradiction

@[simp]
theorem leavesEmpty_mk : (mk i k cs).LeavesEmpty ↔ (k.isLeaf → cs = []) ∧ LeavesEmptyAll cs :=
  leavesEmpty_iff

@[simp]
theorem leavesEmpty_withChildren {n : Node} :
    (n.withChildren cs).LeavesEmpty ↔ (n.kind.isLeaf → cs = []) ∧ LeavesEmptyAll cs :=
  leavesEmpty_mk

-- A text or a wrapper with nothing beneath it. Styling takes nothing else out of a block.
structure IsHusk (n : Node) : Prop where
  isStyleable : n.isStyleable
  children : n.children = []

theorem IsHusk.of_isText {n : Node} (ht : n.isText) (h : n.LeavesEmpty) : n.IsHusk where
  isStyleable := by simp [Node.isStyleable, ht]
  children := (leavesEmpty_iff.mp h).left (Bool.or_eq_true_iff.mpr (.inl ht))

theorem isLeaf_of_isWrapper {n : Node} (h : n.isWrapper) : n.kind.isLeaf = false := by
  unfold isWrapper Kind.isWrapper at h
  split at h <;> simp_all

section Text

variable {n : Node}

@[simp]
theorem leavesEmpty_takeText : (n.takeText k).LeavesEmpty ↔ n.LeavesEmpty := by
  simp [leavesEmpty_iff, takeText]

@[simp]
theorem leavesEmpty_dropText : (n.dropText k fresh).LeavesEmpty := by
  simp [dropText]

@[simp]
theorem leavesEmpty_appendText : (n.appendText s).LeavesEmpty ↔ n.LeavesEmpty := by
  simp [leavesEmpty_iff, appendText]

@[simp]
theorem leavesEmpty_prependText : (n.prependText s).LeavesEmpty ↔ n.LeavesEmpty := by
  simp [leavesEmpty_iff, prependText]

@[simp]
theorem leavesEmpty_addStyle : (n.addStyle tag).LeavesEmpty ↔ n.LeavesEmpty := by
  simp [leavesEmpty_iff, addStyle]

@[simp]
theorem leavesEmpty_removeStyle : (n.removeStyle tag).LeavesEmpty ↔ n.LeavesEmpty := by
  simp [leavesEmpty_iff, removeStyle]

@[simp]
theorem leavesEmpty_copyAround : (n.copyAround fresh cs).LeavesEmpty ↔ LeavesEmptyAll cs := by
  simp [copyAround]

end Text

end Node

namespace Seat

theorem leavesEmptyAll_plug {s : Seat} {ns : List Node} : Node.LeavesEmptyAll (s.plug ns) ↔
    Node.LeavesEmptyAll (s.plug []) ∧ Node.LeavesEmptyAll ns := by
  cases s <;> simp <;> tauto

end Seat

end RichText
