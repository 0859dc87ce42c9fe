import RichText.Proofs.Arena.Slots

namespace RichText

structure Cell where
  id : NodeId
  kind : Kind
  children : List NodeId

namespace Arena

variable {a a' : Arena} {i p q c : NodeId} {k k' : Kind} {x y : Cell} {m R : Multiset Cell} {n : Nat}

def cells (a : Arena) : Multiset Cell :=
  ↑(a.slots.zipIdx.map fun (s, i) => (⟨⟨i⟩, s.kind, s.children⟩ : Cell))

theorem mem_cells : x ∈ a.cells ↔ a.kind? x.id = some x.kind ∧ a.children x.id = x.children := by
  obtain ⟨⟨i⟩, k, cs⟩ := x
  simp only [cells, Multiset.mem_coe, List.mem_map, List.mem_zipIdx_iff_getElem?, Prod.exists,
    Cell.mk.injEq, NodeId.mk.injEq, kind?, children, slot?]
  constructor
  case mp =>
    rintro ⟨s, _, hs, rfl, rfl, rfl⟩
    simp [hs]
  case mpr =>
    rintro ⟨hk, hc⟩
    obtain ⟨s, hs, rfl⟩ := Option.map_eq_some_iff.mp hk
    exact ⟨s, i, hs, rfl, rfl, by simpa [hs] using hc⟩

theorem map_id_cells (a : Arena) :
    a.cells.map Cell.id = ↑((List.range a.size).map NodeId.mk) := by
  have h : (a.slots.zipIdx.map fun (s, i) => (⟨⟨i⟩, s.kind, s.children⟩ : Cell)).map Cell.id =
      (a.slots.zipIdx.map Prod.snd).map NodeId.mk := by
    simp only [List.map_map]
    rfl
  rw [cells, Multiset.map_coe, h, List.zipIdx_map_snd, size, List.range_eq_range']

theorem nodup_map_id_cells (a : Arena) : (a.cells.map Cell.id).Nodup := by
  rw [map_id_cells, Multiset.coe_nodup]
  exact List.nodup_range.map fun _ _ h => by injection h

theorem cells_of_write (h : a.cells = x ::ₘ R) (hid : y.id = x.id)
    (ho : ∀ i ≠ x.id, a'.kind? i = a.kind? i ∧ a'.children i = a.children i)
    (hy : y ∈ a'.cells) : a'.cells = y ::ₘ R := by
  have hd := nodup_map_id_cells a
  rw [h, Multiset.map_cons, Multiset.nodup_cons] at hd
  have hd' : (y ::ₘ R).Nodup := by
    refine .of_map Cell.id ?_
    rw [Multiset.map_cons, Multiset.nodup_cons, hid]
    exact hd
  refine (Multiset.Nodup.ext (.of_map _ (nodup_map_id_cells a')) hd').mpr fun z => ?_
  rw [Multiset.mem_cons]
  cases decEq z.id x.id with
  | isTrue e =>
    have hz : z ∉ R := fun hz => hd.left (e ▸ Multiset.mem_map_of_mem _ hz)
    rw [or_iff_left hz]
    constructor
    case mpr => rintro rfl; exact hy
    case mp =>
      intro hz
      rw [mem_cells] at hz hy
      obtain ⟨⟩ := z
      obtain ⟨⟩ := y
      simp_all
  | isFalse hne =>
    have hz : z ≠ y := fun e => hne (e ▸ hid)
    have hx : z ≠ x := fun e => hne (e ▸ rfl)
    have hm : z ∈ a.cells ↔ z ∈ R := by rw [h, Multiset.mem_cons, or_iff_right hx]
    rw [or_iff_right hz, ← hm, mem_cells, mem_cells, (ho _ hne).left, (ho _ hne).right]

theorem lt_of_mem_cells (h : x ∈ a.cells) : x.id.index < a.size :=
  kind?_isSome_iff.mp (by simp [(mem_cells.mp h).left])

theorem exists_mem_cells (h : i.index < a.size) : ∃ x ∈ a.cells, x.id = i := by
  obtain ⟨k, hk⟩ := Option.isSome_iff_exists.mp (kind?_isSome_iff.mpr h)
  exact ⟨⟨i, k, a.children i⟩, mem_cells.mpr ⟨hk, rfl⟩, rfl⟩

theorem children_congr (hs : a'.size = a.size) (hq : ∀ x ∈ a.cells, x.id = q → x ∈ a'.cells) :
    a'.children q = a.children q := by
  cases Nat.lt_or_ge q.index a.size with
  | inl hlt =>
    obtain ⟨x, hx, rfl⟩ := exists_mem_cells hlt
    rw [(mem_cells.mp (hq x hx rfl)).right, (mem_cells.mp hx).right]
  | inr hle => rw [children_of_le hle, children_of_le (hs ▸ hle)]

theorem cells_setParent (i : NodeId) (p : Option NodeId) : (a.setParent i p).cells = a.cells :=
  (Multiset.Nodup.ext (.of_map _ (nodup_map_id_cells _)) (.of_map _ (nodup_map_id_cells _))).mpr
    fun _ => by simp [mem_cells]

theorem cells_mapKind {cs : List NodeId} (h : a.cells = ⟨i, k, cs⟩ ::ₘ R) (f : Kind → Kind) :
    (a.mapKind i f).cells = ⟨i, f k, cs⟩ ::ₘ R := by
  have hx : ⟨i, k, cs⟩ ∈ a.cells := by simp [h]
  obtain ⟨hk, hc⟩ := mem_cells.mp hx
  refine cells_of_write h rfl (fun j hj => ⟨?_, children_mapKind f⟩) (mem_cells.mpr ⟨?_, ?_⟩)
  · rw [kind?_mapKind, if_neg (Ne.symm hj)]
  · simp [kind?_mapKind, hk]
  · rw [children_mapKind, hc]

theorem cells_mapChildren {cs : List NodeId} (h : a.cells = ⟨i, k, cs⟩ ::ₘ R)
    (f : List NodeId → List NodeId) : (a.mapChildren i f).cells = ⟨i, k, f cs⟩ ::ₘ R := by
  have hx : ⟨i, k, cs⟩ ∈ a.cells := by simp [h]
  obtain ⟨hk, hc⟩ := mem_cells.mp hx
  have hi := lt_of_mem_cells hx
  refine cells_of_write h rfl (fun j hj => ⟨kind?_mapChildren f, ?_⟩) (mem_cells.mpr ⟨?_, ?_⟩)
  · rw [children_mapChildren hi, if_neg (Ne.symm hj)]
  · rw [kind?_mapChildren, hk]
  · rw [children_mapChildren hi, if_pos rfl, hc]

theorem cells_create (a : Arena) (k : Kind) :
    (a.create k).2.cells = ⟨⟨a.size⟩, k, []⟩ ::ₘ a.cells := by
  rw [cells, cells, create, List.zipIdx_append, List.map_append, ← Multiset.coe_add, add_comm]
  simp [size]

-- That a paired arena with some number of nodes holds some cells. One node differs from the next in
-- its cell only, so what a write leaves alone is the rest of the cells.
structure Stores (a : Arena) (n : Nat) (m : Multiset Cell) : Prop where
  paired : a.Paired
  size : a.size = n
  cells : a.cells = m

namespace Stores

theorem empty : Arena.empty.Stores 0 0 :=
  ⟨.empty, rfl, rfl⟩

theorem of_eq (h : a.Stores n m) {q : Multiset Cell} (e : m = q) : a.Stores n q :=
  e ▸ h

section Read

variable (h : a.Stores n m)

include h

theorem mem (hx : x ∈ m) : x ∈ a.cells :=
  h.cells ▸ hx

theorem lt (hx : x ∈ m) : x.id.index < n :=
  h.size ▸ lt_of_mem_cells (h.mem hx)

theorem kind?_eq (hx : x ∈ m) : a.kind? x.id = some x.kind :=
  (mem_cells.mp (h.mem hx)).left

theorem children_eq (hx : x ∈ m) : a.children x.id = x.children :=
  (mem_cells.mp (h.mem hx)).right

theorem exists_mem (hi : i.index < n) : ∃ x ∈ m, x.id = i :=
  h.cells ▸ exists_mem_cells (h.size ▸ hi)

theorem nodup : (m.map Cell.id).Nodup :=
  h.cells ▸ nodup_map_id_cells a

omit h in
theorem kind?_head {cs : List NodeId} (h : a.Stores n (⟨i, k, cs⟩ ::ₘ R)) : a.kind? i = some k :=
  h.kind?_eq (Multiset.mem_cons_self _ _)

omit h in
theorem children_head {cs : List NodeId} (h : a.Stores n (⟨i, k, cs⟩ ::ₘ R)) : a.children i = cs :=
  h.children_eq (Multiset.mem_cons_self _ _)

end Read

section Write

variable {as bs cs ds : List NodeId}

theorem mapKind (h : a.Stores n (⟨i, k, cs⟩ ::ₘ R)) (f : Kind → Kind) :
    (a.mapKind i f).Stores n (⟨i, f k, cs⟩ ::ₘ R) :=
  ⟨h.paired.mapKind i f, (size_mapKind f).trans h.size, cells_mapKind h.cells f⟩

theorem mapText (h : a.Stores n (⟨i, k, cs⟩ ::ₘ R)) (f : String → String) :
    (a.mapText i f).Stores n (⟨i, k.mapText f, cs⟩ ::ₘ R) :=
  h.mapKind _

theorem create (h : a.Stores n m) (k : Kind) :
    (a.create k).2.Stores (n + 1) (⟨⟨n⟩, k, []⟩ ::ₘ m) :=
  ⟨h.paired.create k, by rw [size_create, h.size], by rw [cells_create, h.cells, h.size]⟩

theorem detach (h : a.Stores n (⟨p, k, as ++ c :: bs⟩ ::ₘ R)) :
    (a.detach c).Stores n (⟨p, k, as ++ bs⟩ ::ₘ R) where
  paired := h.paired.detach c
  size := size_detach.trans h.size
  cells := by
    have hc := h.children_eq (Multiset.mem_cons_self _ _)
    have hf := h.paired.filter_ne hc
    rw [Arena.detach, h.paired.parent?_eq hc, cells_mapChildren ((cells_setParent ..).trans h.cells)]
    rw [hc] at hf
    simp only [hf]

theorem insert (h : a.Stores n (⟨p, k, cs⟩ ::ₘ R)) (hc : c.index < n) (hp : a.parent? c = none)
    (index : Nat) :
    (a.insert p index c).Stores n (⟨p, k, cs.take index ++ c :: cs.drop index⟩ ::ₘ R) where
  paired := h.paired.insert (h.size ▸ h.lt (Multiset.mem_cons_self _ _)) (h.size ▸ hc) index
  size := (size_insert index).trans h.size
  cells := by
    have hd : a.detach c = a := by rw [Arena.detach, hp]
    rw [Arena.insert, hd, cells_setParent, cells_mapChildren h.cells, insertIdx_min]

theorem parent?_eq (h : a.Stores n (⟨p, k, as ++ c :: bs⟩ ::ₘ R)) : a.parent? c = some p :=
  h.paired.parent?_eq (h.children_eq (Multiset.mem_cons_self _ _))

theorem parent?_fresh (h : a.Stores n m) (k : Kind) : (a.create k).2.parent? ⟨n⟩ = none := by
  rw [parent?_create, parent?_of_le (Nat.le_of_eq h.size)]

theorem detach_eq_self (hp : a.parent? c = none) : a.detach c = a := by
  rw [Arena.detach, hp]

theorem insert_detach (a : Arena) (p : NodeId) (index : Nat) (c : NodeId) :
    (a.detach c).insert p index c = a.insert p index c := by
  rw [Arena.insert, Arena.insert, detach_eq_self (by rw [parent?_detach, if_pos rfl])]

theorem append (h : a.Stores n (⟨p, k, cs⟩ ::ₘ R)) (hc : c.index < n) (hp : a.parent? c = none) :
    (a.append p c).Stores n (⟨p, k, cs ++ [c]⟩ ::ₘ R) := by
  have h' := h.insert hc hp (a.children p).length
  rw [h.children_eq (Multiset.mem_cons_self _ _)] at h'
  rw [Arena.append, h.children_eq (Multiset.mem_cons_self _ _)]
  simpa using h'

theorem moveTo (h : a.Stores n (⟨p, k, as ++ c :: bs⟩ ::ₘ ⟨q, k', ds⟩ ::ₘ R)) :
    (a.append q c).Stores n (⟨p, k, as ++ bs⟩ ::ₘ ⟨q, k', ds ++ [c]⟩ ::ₘ R) := by
  have hq := h.children_eq (x := ⟨q, k', ds⟩) (by simp)
  have hc : c.index < n := h.size ▸ lt_of_parent? h.parent?_eq
  have hp : (a.detach c).parent? c = none := by rw [parent?_detach, if_pos rfl]
  have h' := (h.detach.of_eq (Multiset.cons_swap ..)).insert hc hp (a.children q).length
  rw [insert_detach, hq] at h'
  rw [Arena.append, hq]
  exact h'.of_eq (by rw [List.take_length, List.drop_length, Multiset.cons_swap])

theorem insertBefore (h : a.Stores n (⟨p, k, as ++ i :: bs⟩ ::ₘ R)) (hc : c.index < n)
    (hp : a.parent? c = none) :
    (a.insertBefore i c).Stores n (⟨p, k, as ++ c :: i :: bs⟩ ::ₘ R) := by
  have hi := h.children_eq (Multiset.mem_cons_self _ _)
  have h' := h.insert hc hp as.length
  rw [List.take_left, List.drop_left] at h'
  rw [Arena.insertBefore, detach_eq_self hp, h.parent?_eq, h.paired.index?_eq hi]
  exact h'

theorem insertAfter (h : a.Stores n (⟨p, k, as ++ i :: bs⟩ ::ₘ R)) (hc : c.index < n)
    (hp : a.parent? c = none) :
    (a.insertAfter i c).Stores n (⟨p, k, as ++ i :: c :: bs⟩ ::ₘ R) := by
  have hi := h.children_eq (Multiset.mem_cons_self _ _)
  have h' := h.insert hc hp (as.length + 1)
  rw [List.take_length_add_append, List.drop_length_add_append] at h'
  rw [Arena.insertAfter, detach_eq_self hp, h.parent?_eq, h.paired.index?_eq hi]
  simpa using h'

theorem splitText {s : String} (h : a.Stores n (⟨p, k, as ++ i :: bs⟩ ::ₘ ⟨i, .text s, cs⟩ ::ₘ R))
    (offset : Nat) :
    (a.splitText i offset).1 = ⟨n⟩ ∧
      (a.splitText i offset).2.Stores (n + 1) (⟨p, k, as ++ i :: ⟨n⟩ :: bs⟩ ::ₘ
        ⟨i, .text (.ofList (s.toList.take offset)), cs⟩ ::ₘ
        ⟨⟨n⟩, .text (.ofList (s.toList.drop offset)), []⟩ ::ₘ R) := by
  have hk := h.kind?_eq (x := ⟨i, .text s, cs⟩) (by simp)
  have ht : a.text? i = some s := by rw [text?, hk]; rfl
  rw [Arena.splitText, ht]
  have h := (h.of_eq (Multiset.cons_swap ..)).mapText fun s => String.ofList (s.toList.take offset)
  have hc := h.create (.text (String.ofList (s.toList.drop offset)))
  have hf := h.parent?_fresh (.text (String.ofList (s.toList.drop offset)))
  refine ⟨congrArg _ h.size, ?_⟩
  have he (m : Multiset Cell) (x y z : Cell) : x ::ₘ y ::ₘ z ::ₘ m = z ::ₘ y ::ₘ x ::ₘ m := by
    simp only [← Multiset.singleton_add]
    abel
  have hi := (hc.of_eq (he ..)).insertAfter (c := ⟨n⟩) (Nat.lt_succ_self n) hf
  dsimp only [fst_create]
  rw [h.size]
  exact hi

theorem moveRun (h : a.Stores n (⟨p, k, as ++ cs⟩ ::ₘ ⟨q, k', ds⟩ ::ₘ R)) :
    ∃ a', a.moveRun q cs.head? = some a' ∧
      a'.Stores n (⟨p, k, as⟩ ::ₘ ⟨q, k', ds ++ cs⟩ ::ₘ R) := by
  induction cs generalizing a ds with
  | nil =>
    rw [List.head?_nil, Arena.moveRun]
    exact ⟨a, rfl, by simpa using h⟩
  | cons c cs ih =>
    have hn := h.paired.next?_eq (h.children_eq (Multiset.mem_cons_self _ _))
    obtain ⟨a', hr, h'⟩ := ih h.moveTo
    rw [List.head?_cons, Arena.moveRun, hn]
    exact ⟨a', hr, by simpa using h'⟩

section Unwrap

variable {w : NodeId} {index offset : Nat}

theorem size_foldl_place (cs : List (NodeId × Nat)) (p : NodeId) (index : Nat) :
    (cs.foldl (fun a (c, offset) => a.place p (index + offset) c) a).size = a.size := by
  induction cs generalizing a with
  | nil => rfl
  | cons c cs ih => rw [List.foldl_cons, ih]; simp [place]

theorem parent?_foldl_place (hcs : ∀ c ∈ cs, c.index < a.size) :
    ((cs.zipIdx offset).foldl (fun a (c, offset) => a.place p (index + offset) c) a).parent? i =
      if i ∈ cs then some p else a.parent? i := by
  induction cs generalizing a offset with
  | nil => simp
  | cons c cs ih =>
    rw [List.forall_mem_cons] at hcs
    rw [List.zipIdx_cons, List.foldl_cons, ih (by simpa [place] using hcs.right)]
    simp only [place, parent?_mapChildren, parent?_setParent hcs.left]
    grind

theorem cells_foldl_place (h : a.cells = ⟨p, k, as ++ bs⟩ ::ₘ R) (hi : index + offset = as.length) :
    ((cs.zipIdx offset).foldl (fun a (c, offset) => a.place p (index + offset) c) a).cells =
      ⟨p, k, as ++ cs ++ bs⟩ ::ₘ R := by
  induction cs generalizing a as offset with
  | nil => simpa using h
  | cons c cs ih =>
    have h' : (a.place p (index + offset) c).cells = ⟨p, k, (as ++ [c]) ++ bs⟩ ::ₘ R := by
      rw [place, cells_mapChildren ((cells_setParent ..).trans h), hi, insertIdx_length]
      simp
    have h' := ih h' (show index + (offset + 1) = _ by simp [← hi, Nat.add_assoc])
    simpa using h'

theorem paired_of_unwrap (h : a.Paired) (hne : w ≠ p) (hp : a.children p = as ++ w :: bs)
    (hup : ∀ i, a'.parent? i =
      if w = i then none else if i ∈ a.children w then some p else a.parent? i)
    (hcp : a'.children p = as ++ a.children w ++ bs) (hcw : a'.children w = [])
    (hcq : ∀ q, q ≠ p → q ≠ w → a'.children q = a.children q) : a'.Paired := by
  have hip (i : NodeId) := h.parent_iff i p
  have hiw (i : NodeId) := h.parent_iff i w
  have hd := h.once p
  rw [hp] at hip hd
  have hn : w ∉ as ∧ w ∉ bs := by
    rw [List.nodup_append, List.nodup_cons] at hd
    exact ⟨fun hm => hd.right.right w hm w (.head _) rfl, hd.right.left.left⟩
  have hcases (q : NodeId) : q = p ∨ q = w ∨ q ≠ p ∧ q ≠ w ∧ a'.children q = a.children q := by
    grind
  constructor
  case parent_iff =>
    intro i q
    have hiq := h.parent_iff i q
    rw [hup]
    obtain rfl | rfl | ⟨_, _, hq⟩ := hcases q
    · rw [hcp]
      grind
    · rw [hcw]
      grind
    · rw [hq]
      grind
  case once =>
    intro q
    obtain rfl | rfl | ⟨_, _, hq⟩ := hcases q
    · have hw := h.once w
      rw [hcp]
      grind
    · rw [hcw]
      exact .nil
    · rw [hq]
      exact h.once q

theorem unwrap (h : a.Stores n (⟨p, k, as ++ w :: bs⟩ ::ₘ ⟨w, k', cs⟩ ::ₘ R)) :
    (a.unwrap w).Stores n (⟨p, k, as ++ cs ++ bs⟩ ::ₘ ⟨w, k', []⟩ ::ₘ R) := by
  have hp : a.children p = as ++ w :: bs := h.children_eq (Multiset.mem_cons_self _ _)
  have hw : a.children w = cs := h.children_eq (x := ⟨w, k', cs⟩) (by simp)
  have hwp : a.parent? w = some p := h.parent?_eq
  have hne : w ≠ p := by
    have hd := h.nodup
    simp only [Multiset.map_cons, Multiset.nodup_cons, Multiset.mem_cons, not_or] at hd
    exact Ne.symm hd.left.left
  have hwcs : w ∉ cs := fun hm => hne <| by
    have hww := (h.paired.parent_iff w w).mpr (hw ▸ hm)
    exact Option.some.inj (hww.symm.trans hwp)
  -- The arena while the children stand next to the node.
  let b := cs.zipIdx.foldl (fun a (c, offset) => a.place p (as.length + 1 + offset) c)
    (a.mapChildren w fun _ => [])
  have he : a.unwrap w = b.detach w := by
    rw [Arena.unwrap, hwp, h.paired.index?_eq hp]
    simp only [hw, b]
  have hbs : b.size = a.size := (size_foldl_place ..).trans (size_mapChildren _)
  have hbp (i : NodeId) : b.parent? i = if i ∈ cs then some p else a.parent? i := by
    refine (parent?_foldl_place fun c hc => ?_).trans (by rw [parent?_mapChildren])
    exact (size_mapChildren (a := a) _).symm ▸ h.paired.child_lt (p := w) (hw ▸ hc)
  have hbc : b.cells = ⟨p, k, (as ++ [w]) ++ cs ++ bs⟩ ::ₘ ⟨w, k', []⟩ ::ₘ R := by
    have hc := cells_mapChildren (h.cells.trans (Multiset.cons_swap ..)) fun _ => []
    rw [Multiset.cons_swap] at hc
    exact cells_foldl_place (by simpa using hc) (by simp)
  have hf : ((as ++ [w]) ++ cs ++ bs).filter (· ≠ w) = as ++ cs ++ bs := by
    have hd := hp ▸ h.paired.once p
    rw [List.nodup_append, List.nodup_cons] at hd
    have ha : w ∉ as := fun hm => hd.right.right w hm w (.head _) rfl
    rw [List.filter_append, List.filter_append, List.filter_append, filter_ne_of_not_mem ha,
      filter_ne_of_not_mem hwcs, filter_ne_of_not_mem hd.right.left.left]
    simp
  have hs : (b.detach w).size = a.size := size_detach.trans hbs
  have hc : (b.detach w).cells = ⟨p, k, as ++ cs ++ bs⟩ ::ₘ ⟨w, k', []⟩ ::ₘ R := by
    rw [Arena.detach, hbp, if_neg hwcs, hwp, cells_mapChildren ((cells_setParent ..).trans hbc), hf]
  refine he ▸ ⟨paired_of_unwrap h.paired hne hp ?up ?parent ?node ?other, hs.trans h.size, hc⟩
  case up => exact fun i => by rw [parent?_detach, hbp, hw]
  case parent => exact hw ▸ (mem_cells.mp (hc ▸ Multiset.mem_cons_self _ _)).right
  case node => exact (mem_cells (x := ⟨w, k', []⟩).mp (hc ▸ by simp)).right
  case other =>
    refine fun q hqp hqw => children_congr hs fun x hx hq => ?_
    simp only [h.cells, hc, Multiset.mem_cons] at hx ⊢
    exact .inr (.inr ((hx.resolve_left fun e => hqp (by simp [← hq, e])).resolve_left
      fun e => hqw (by simp [← hq, e])))

end Unwrap

end Write

end Stores

end Arena

end RichText
