import Mathlib
import RichText.Arena

namespace RichText.Arena

variable {a : Arena} {i j p q c : NodeId}

theorem slot?_eq_none_iff : a.slot? i = none ↔ a.size ≤ i.index := by
  rw [slot?, List.getElem?_eq_none_iff, size]

theorem exists_slot? (h : i.index < a.size) : ∃ s, a.slot? i = some s :=
  Option.ne_none_iff_exists'.mp fun e => Nat.not_le.mpr h (slot?_eq_none_iff.mp e)

theorem kind?_isSome_iff : (a.kind? i).isSome ↔ i.index < a.size := by
  rw [kind?, Option.isSome_map, Option.isSome_iff_ne_none, ne_eq, slot?_eq_none_iff, Nat.not_le]

theorem parent?_of_le (h : a.size ≤ i.index) : a.parent? i = none := by
  rw [parent?, slot?_eq_none_iff.mpr h, Option.bind_none]

theorem children_of_le (h : a.size ≤ i.index) : a.children i = [] := by
  rw [children, slot?_eq_none_iff.mpr h]
  rfl

theorem lt_of_parent? (h : a.parent? i = some p) : i.index < a.size := by
  by_contra hle
  simp [parent?_of_le (Nat.not_lt.mp hle)] at h

theorem lt_of_mem_children (h : c ∈ a.children p) : p.index < a.size := by
  by_contra hle
  simp [children_of_le (Nat.not_lt.mp hle)] at h

section Kind

variable {k : Kind} (h : a.kind? i = some k)

include h

theorem isText_eq : a.isText i = k.isText := by
  rw [isText, h, Option.any_some]

theorem isBreak_eq : a.isBreak i = k.isBreak := by
  rw [isBreak, h, Option.any_some]

theorem isWrapper_eq : a.isWrapper i = k.isWrapper := by
  rw [isWrapper, h, Option.any_some]

theorem isEmbed_eq : a.isEmbed i = k.isEmbed := by
  rw [isEmbed, h, Option.any_some]

theorem text?_eq : a.text? i = k.text? := by
  rw [text?, h, Option.bind_some]

theorem text_eq : a.text i = k.text?.getD "" := by
  rw [text, text?_eq h]

theorem textLength_eq : a.textLength i = k.textLength := by
  rw [textLength, text_eq h]
  cases k <;> rfl

theorem styles?_eq : a.styles? i = k.styles? := by
  rw [styles?, h, Option.bind_some]

theorem hasStyle_eq (tag : String) : a.hasStyle i tag = k.hasStyle tag := by
  rw [hasStyle, h, Option.any_some]

end Kind

section Write

@[simp]
theorem size_modify (f : Slot → Slot) : (a.modify i f).size = a.size :=
  List.length_modify ..

theorem slot?_modify (f : Slot → Slot) :
    (a.modify i f).slot? j = if i = j then (a.slot? j).map f else a.slot? j := by
  obtain ⟨i⟩ := i
  obtain ⟨j⟩ := j
  simp only [modify, slot?, List.getElem?_modify, NodeId.mk.injEq]
  split
  case isTrue => rfl
  case isFalse => simp

theorem kind?_modify {f : Slot → Slot} (hf : ∀ s, (f s).kind = s.kind) :
    (a.modify i f).kind? j = a.kind? j := by
  rw [kind?, slot?_modify]
  split
  case isTrue => simp [kind?, Function.comp_def, hf]
  case isFalse => rfl

theorem parent?_modify {f : Slot → Slot} (hf : ∀ s, (f s).parent = s.parent) :
    (a.modify i f).parent? j = a.parent? j := by
  rw [parent?, slot?_modify]
  split
  case isTrue => simp [parent?, Option.bind_map, hf]
  case isFalse => rfl

theorem children_modify {f : Slot → Slot} (hf : ∀ s, (f s).children = s.children) :
    (a.modify i f).children j = a.children j := by
  rw [children, slot?_modify]
  split
  case isTrue => simp [children, Function.comp_def, hf]
  case isFalse => rfl

@[simp]
theorem size_setParent (h : Option NodeId) : (a.setParent i h).size = a.size :=
  size_modify _

@[simp]
theorem kind?_setParent (h : Option NodeId) : (a.setParent i h).kind? j = a.kind? j :=
  kind?_modify fun _ => rfl

@[simp]
theorem children_setParent (h : Option NodeId) : (a.setParent i h).children j = a.children j :=
  children_modify fun _ => rfl

theorem parent?_setParent (hi : i.index < a.size) (h : Option NodeId) :
    (a.setParent i h).parent? j = if i = j then h else a.parent? j := by
  rw [setParent, parent?, slot?_modify]
  split
  case isFalse => rfl
  case isTrue e =>
    obtain ⟨s, hs⟩ := exists_slot? (e ▸ hi)
    rw [hs]
    rfl

@[simp]
theorem size_mapChildren (f : List NodeId → List NodeId) : (a.mapChildren i f).size = a.size :=
  size_modify _

@[simp]
theorem kind?_mapChildren (f : List NodeId → List NodeId) :
    (a.mapChildren i f).kind? j = a.kind? j :=
  kind?_modify fun _ => rfl

@[simp]
theorem parent?_mapChildren (f : List NodeId → List NodeId) :
    (a.mapChildren i f).parent? j = a.parent? j :=
  parent?_modify fun _ => rfl

theorem children_mapChildren (hi : i.index < a.size) (f : List NodeId → List NodeId) :
    (a.mapChildren i f).children j = if i = j then f (a.children j) else a.children j := by
  rw [mapChildren, children, slot?_modify]
  split
  case isFalse => rfl
  case isTrue e =>
    obtain ⟨s, hs⟩ := exists_slot? (e ▸ hi)
    simp [hs, children]

@[simp]
theorem size_mapKind (f : Kind → Kind) : (a.mapKind i f).size = a.size :=
  size_modify _

@[simp]
theorem children_mapKind (f : Kind → Kind) : (a.mapKind i f).children j = a.children j :=
  children_modify fun _ => rfl

@[simp]
theorem parent?_mapKind (f : Kind → Kind) : (a.mapKind i f).parent? j = a.parent? j :=
  parent?_modify fun _ => rfl

theorem kind?_mapKind (f : Kind → Kind) :
    (a.mapKind i f).kind? j = if i = j then (a.kind? j).map f else a.kind? j := by
  rw [mapKind, kind?, slot?_modify]
  split
  case isTrue => simp [kind?, Function.comp_def]
  case isFalse => rfl

variable {k : Kind}

@[simp]
theorem fst_create : (a.create k).1 = ⟨a.size⟩ :=
  rfl

@[simp]
theorem size_create : (a.create k).2.size = a.size + 1 := by
  simp [create, size]

theorem slot?_create :
    (a.create k).2.slot? i = if i = ⟨a.size⟩ then some ⟨k, none, []⟩ else a.slot? i := by
  obtain ⟨i⟩ := i
  simp only [create, slot?, List.getElem?_append, List.getElem?_cons, NodeId.mk.injEq, size]
  grind

@[simp]
theorem children_create : (a.create k).2.children i = a.children i := by
  rw [children, slot?_create]
  split
  case isTrue e => rw [children_of_le (e ▸ Nat.le_refl _)]; rfl
  case isFalse => rfl

@[simp]
theorem parent?_create : (a.create k).2.parent? i = a.parent? i := by
  rw [parent?, slot?_create]
  split
  case isTrue e => rw [parent?_of_le (e ▸ Nat.le_refl _)]; rfl
  case isFalse => rfl

@[simp]
theorem size_detach : (a.detach c).size = a.size := by
  unfold detach
  split <;> simp

@[simp]
theorem kind?_detach : (a.detach c).kind? i = a.kind? i := by
  unfold detach
  split <;> simp

theorem parent?_detach : (a.detach c).parent? i = if c = i then none else a.parent? i := by
  unfold detach
  split
  case h_1 h => rw [parent?_mapChildren, parent?_setParent (lt_of_parent? h)]
  case h_2 h => split <;> simp_all

@[simp]
theorem size_insert (index : Nat) : (a.insert p index c).size = a.size := by
  simp [insert]

@[simp]
theorem kind?_insert (index : Nat) : (a.insert p index c).kind? i = a.kind? i := by
  simp [insert]

theorem parent?_insert (hc : c.index < a.size) (index : Nat) :
    (a.insert p index c).parent? i = if c = i then some p else a.parent? i := by
  rw [insert, parent?_setParent (by simpa using hc), parent?_mapChildren, parent?_detach]
  split <;> rfl

end Write

theorem insertIdx_min (cs : List NodeId) (index : Nat) (c : NodeId) :
    cs.insertIdx (min index cs.length) c = cs.take index ++ c :: cs.drop index := by
  induction cs generalizing index with
  | nil => simp
  | cons d cs ih =>
    cases index with
    | zero => simp
    | succ index => simpa [Nat.succ_min_succ] using ih index

theorem insertIdx_length (as bs : List NodeId) (c : NodeId) :
    (as ++ bs).insertIdx as.length c = as ++ c :: bs := by
  simpa using insertIdx_min (as ++ bs) as.length c

theorem filter_ne_of_not_mem {cs : List NodeId} (h : c ∉ cs) : cs.filter (· ≠ c) = cs :=
  List.filter_eq_self.mpr fun _ hi => decide_eq_true fun e => h (e ▸ hi)

theorem filter_ne_of_nodup {as bs : List NodeId} (h : (as ++ c :: bs).Nodup) :
    (as ++ c :: bs).filter (· ≠ c) = as ++ bs := by
  rw [List.nodup_append, List.nodup_cons] at h
  have ha : c ∉ as := fun hm => h.right.right c hm c (.head _) rfl
  rw [List.filter_append, List.filter_cons_of_neg (by simp), filter_ne_of_not_mem ha,
    filter_ne_of_not_mem h.right.left.left]

-- The two ways in which it is stored that a node is the child of another one agree.
structure Paired (a : Arena) : Prop where
  parent_iff : ∀ c p, a.parent? c = some p ↔ c ∈ a.children p
  once : ∀ p, (a.children p).Nodup

namespace Paired

theorem empty : Paired empty where
  parent_iff c p := by simp [parent?, children, slot?, Arena.empty]
  once p := by simp [children, slot?, Arena.empty]

variable (h : a.Paired)

include h

theorem child_lt (hc : c ∈ a.children p) : c.index < a.size :=
  lt_of_parent? ((h.parent_iff c p).mpr hc)

theorem parent_lt (hp : a.parent? c = some p) : p.index < a.size :=
  lt_of_mem_children ((h.parent_iff c p).mp hp)

theorem congr {a' : Arena} (hp : ∀ i, a'.parent? i = a.parent? i)
    (hc : ∀ i, a'.children i = a.children i) : a'.Paired where
  parent_iff c p := by rw [hp, hc, h.parent_iff]
  once p := by rw [hc]; exact h.once p

theorem mapKind (i : NodeId) (f : Kind → Kind) : (a.mapKind i f).Paired :=
  h.congr (fun _ => parent?_mapKind f) fun _ => children_mapKind f

theorem create (k : Kind) : (a.create k).2.Paired :=
  h.congr (fun _ => parent?_create) fun _ => children_create

theorem children_detach (c p : NodeId) :
    (a.detach c).children p = (a.children p).filter (· ≠ c) := by
  unfold Arena.detach
  split
  case h_1 q hq =>
    rw [children_mapChildren (by simpa using h.parent_lt hq), children_setParent]
    split
    case isTrue => rfl
    case isFalse hne =>
      exact (filter_ne_of_not_mem fun hm =>
        hne (by simpa [hq] using (h.parent_iff c p).mpr hm)).symm
  case h_2 hn => exact (filter_ne_of_not_mem fun hm => by simp [(h.parent_iff c p).mpr hm] at hn).symm

theorem detach (c : NodeId) : (a.detach c).Paired where
  parent_iff i p := by
    rw [parent?_detach, h.children_detach, List.mem_filter, ← h.parent_iff]
    split
    case isTrue e => simp [e]
    case isFalse hne => simp [Ne.symm hne]
  once p := by
    rw [h.children_detach]
    exact (h.once p).filter _

theorem children_insert (hp : p.index < a.size) (index : Nat) (c q : NodeId) :
    (a.insert p index c).children q =
      let cs := (a.children q).filter (· ≠ c)
      if p = q then cs.take index ++ c :: cs.drop index else cs := by
  rw [Arena.insert, children_setParent, children_mapChildren (by simpa using hp),
    h.children_detach]
  simp only [insertIdx_min]

theorem insert (hp : p.index < a.size) (hc : c.index < a.size) (index : Nat) :
    (a.insert p index c).Paired where
  parent_iff i q := by
    have hd := (h.detach c).parent_iff i q
    rw [parent?_detach, h.children_detach] at hd
    rw [parent?_insert hc, h.children_insert hp]
    have hm (cs : List NodeId) : i ∈ cs.take index ++ c :: cs.drop index ↔ i = c ∨ i ∈ cs := by
      rw [List.perm_middle.mem_iff, List.take_append_drop, List.mem_cons]
    simp only
    split
    case isTrue => grind
    case isFalse => grind
  once q := by
    have hd := (h.detach c).once q
    rw [h.children_detach] at hd
    rw [h.children_insert hp]
    simp only
    split
    case isFalse => exact hd
    case isTrue =>
      rw [List.perm_middle.nodup_iff, List.take_append_drop, List.nodup_cons]
      exact ⟨by simp, hd⟩

section Siblings

variable {as bs : List NodeId} (hc : a.children p = as ++ c :: bs)

include hc

theorem parent?_eq : a.parent? c = some p :=
  (h.parent_iff c p).mpr (by simp [hc])

theorem index?_eq : a.index? c = some as.length := by
  have hn : c ∉ as := fun hm => by
    have hd := h.once p
    rw [hc, List.nodup_append] at hd
    exact hd.right.right c hm c (.head _) rfl
  have ha : as.findIdx? (· = c) = none :=
    List.findIdx?_eq_none_iff.mpr fun i hi => decide_eq_false fun e => hn (e ▸ hi)
  simp [index?, h.parent?_eq hc, hc, List.findIdx?_append, List.findIdx?_cons, ha]

theorem next?_eq : a.next? c = bs.head? := by
  simp [next?, h.parent?_eq hc, h.index?_eq hc, child?, hc, List.getElem?_append,
    List.head?_eq_getElem?]

theorem prev?_eq : a.prev? c = as.getLast? := by
  rw [prev?, h.parent?_eq hc, h.index?_eq hc, List.getLast?_eq_getElem?]
  cases as using List.reverseRecOn with
  | nil => simp
  | append_singleton as b => simp [child?, hc]

theorem filter_ne : (a.children p).filter (· ≠ c) = as ++ bs := by
  have hd := h.once p
  rw [hc] at hd ⊢
  exact filter_ne_of_nodup hd

end Siblings

end Paired

end RichText.Arena
