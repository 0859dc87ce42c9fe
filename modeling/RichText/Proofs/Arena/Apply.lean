import RichText.Proofs.Arena.Cut
import RichText.Proofs.Endpoints

namespace RichText

namespace Node

variable {n : Node}

@[simp]
theorem appendText_empty (n : Node) : n.appendText "" = n := by
  obtain ⟨i, k, cs⟩ := n
  cases k <;> simp [appendText, withKind, Kind.mapText]

@[simp]
theorem prependText_empty (n : Node) : n.prependText "" = n := by
  obtain ⟨i, k, cs⟩ := n
  cases k <;> simp [prependText, withKind, Kind.mapText]

theorem appendText_appendText (s s' : String) :
    (n.appendText s).appendText s' = n.appendText (s ++ s') := by
  obtain ⟨i, k, cs⟩ := n
  cases k <;> simp [appendText, withKind, Kind.mapText, String.append_assoc]

theorem prependText_prependText (s s' : String) :
    (n.prependText s).prependText s' = n.prependText (s' ++ s) := by
  obtain ⟨i, k, cs⟩ := n
  cases k <;> simp [prependText, withKind, Kind.mapText, String.append_assoc]

end Node

namespace Draft

variable {d : Draft} {s : Seat} {n m : Node} {before left right after : List Node} {i : NodeId}
  {styles : StyleSet}

def shallow (ns : List Node) : List Node :=
  ns.flatMap fun n => if n.isWrapper then n.children else [n]

section Shallow

variable {ns : List Node}

@[simp]
theorem shallow_append (ms ns : List Node) : shallow (ms ++ ns) = shallow ms ++ shallow ns :=
  List.flatMap_append

@[simp]
theorem shallow_wrapper (cs : List Node) (ns : List Node) :
    shallow (.mk i (.wrapper styles) cs :: ns) = cs ++ shallow ns :=
  rfl

theorem shallow_text (hn : n.isText) (ns : List Node) : shallow (n :: ns) = n :: shallow ns := by
  obtain ⟨t, ht⟩ := Node.isText_iff.mp hn
  simp [shallow, Node.isWrapper, Kind.isWrapper, ht]

theorem exists_seat (h : m ∈ shallow ns) : ∃ s : Seat, ns = s.plug [m] := by
  obtain ⟨⟨i, k, cs⟩, hw, hm⟩ := List.mem_flatMap.mp h
  obtain ⟨before, after, rfl⟩ := List.append_of_mem hw
  split at hm
  case isTrue hk =>
    obtain ⟨left, right, rfl⟩ := List.append_of_mem (Node.children_mk ▸ hm)
    cases k with
    | wrapper styles => exact ⟨.held before i styles left right after, by simp⟩
    | _ => simp [Node.isWrapper, Kind.isWrapper] at hk
  case isFalse =>
    obtain rfl := List.mem_singleton.mp hm
    exact ⟨.bare before after, by simp⟩

theorem mem_shallow_plug {ns : List Node} (hn : ∀ n ∈ ns, n.isText) (s : Seat) :
    m ∈ shallow (s.plug ns) ↔ m ∈ shallow (s.plug []) ∨ m ∈ ns := by
  have ht : shallow ns = ns := by
    induction ns with
    | nil => rfl
    | cons n ns ih => rw [shallow_text (hn n (.head _)), ih fun m hm => hn m (.tail _ hm)]
  cases s with
  | bare => simp [ht]; tauto
  | held => simp; tauto

end Shallow

theorem At.mem_preorderAll (h : d.At s n) : n ∈ Node.preorderAll d.content :=
  h.content ▸ Seat.mem_preorderAll_plug (.head _)

theorem At.mem_shallow (h : d.At s n) : n ∈ shallow d.content := by
  rw [h.content, mem_shallow_plug (by simpa using h.isText)]
  simp

-- What is done to a draft keeps the children of the block, and a text where it can be styled.
structure Keeps (d d' : Draft) (m : Node) : Prop where
  ids : ∀ i ∈ d.content.map Node.id, i ∈ d'.content.map Node.id
  shallow : m ∈ shallow d.content → m ∈ shallow d'.content

namespace Keeps

theorem refl (d : Draft) (m : Node) : d.Keeps d m :=
  ⟨fun _ => id, id⟩

end Keeps

theorem At.keeps_splitText (h : d.At s n) (hm : m ≠ n) (offset : Nat) :
    d.Keeps (d.splitText n.id offset).2 m where
  ids := by
    rw [h.content_splitText, h.content]
    cases s with
    | bare => simp; grind
    | held => simp
  shallow := by
    have ht := Node.isText_takeText h.isText offset
    rw [h.content_splitText, h.content, mem_shallow_plug (show ∀ w ∈ [n], w.isText by simp [h.isText]),
      mem_shallow_plug (show ∀ w : Node, w ∈ [_, _] → w.isText by simp [ht]), List.mem_singleton,
      or_iff_left hm]
    exact Or.inl

theorem At.keeps_absorbFollowing (h : d.At (.held before i styles left right after) n)
    (hm : m ≠ n) : d.Keeps (d.absorbFollowing n.id m.id) m where
  ids := by simp [h.absorbFollowing_eq, h.content]
  shallow := by
    have hr : m ∈ right → m ∈ right.dropWhile (Node.isAbsorbed m.id) := by
      intro hm
      rw [← List.takeWhile_append_dropWhile (p := Node.isAbsorbed m.id) (l := right),
        List.mem_append] at hm
      refine hm.resolve_left fun hm => ?_
      simpa [Node.isAbsorbed] using List.mem_takeWhile_imp hm
    simp [h.absorbFollowing_eq, h.content]
    tauto

theorem At.keeps_isolate (h : d.At s n) (m : Node) : d.Keeps (d.isolate n.id).2 m := by
  obtain ⟨-, hc, -⟩ := h.isolate rfl
  constructor
  case ids =>
    rw [hc, h.content]
    rcases s with _ | ⟨_, _, _, _ | _, _ | _, _⟩ <;>
      simp [Seat.head, Seat.own, Seat.tail, Seat.shell] <;> grind
  case shallow =>
    rw [hc, h.content]
    rcases s with _ | ⟨_, _, _, _ | _, _ | _, _⟩ <;>
      simp [Seat.head, Seat.own, Seat.tail, Seat.shell]

section Keep

variable {q : Position}

theorem At.keeps_splitStart (h : d.At s n) (hq : q.node = n.id) (hm : m ≠ n) :
    d.Keeps (d.splitStart q).2 m := by
  rw [Draft.splitStart, hq]
  split
  case isTrue => exact h.keeps_splitText hm q.offset
  case isFalse => exact .refl d m

theorem At.keeps_splitStop (h : d.At s n) (hq : q.node = n.id) (hm : m ≠ n) :
    d.Keeps (d.splitStop q) m := by
  rw [Draft.splitStop, hq]
  split
  case isTrue => exact h.keeps_splitText hm q.offset
  case isFalse => exact .refl d m

theorem At.absorbed (h : d.At s n) (hm : m ≠ n) :
    ∃ s' n', n'.id = n.id ∧ (d.absorbFollowing n.id m.id).At s' n' ∧
      d.Keeps (d.absorbFollowing n.id m.id) m := by
  cases s with
  | bare before after =>
    rw [h.absorbFollowing_bare]
    exact ⟨_, n, rfl, h, .refl d m⟩
  | held before i styles left right after =>
    obtain ⟨n', hi, -, h', -⟩ := h.absorbFollowing_held m.id
    exact ⟨_, n', hi, h', h.keeps_absorbFollowing hm⟩

theorem At.absorbed_preceding (h : d.At s n) : ∃ s' n', n'.id = n.id ∧
    (d.absorbPreceding n.id).At s' n' ∧
      ∀ i ∈ d.content.map Node.id, i ∈ (d.absorbPreceding n.id).content.map Node.id := by
  cases s with
  | bare before after =>
    rw [h.absorbPreceding_bare]
    exact ⟨_, n, rfl, h, fun _ => id⟩
  | held before i styles left right after =>
    obtain ⟨n', hi, -, h', -⟩ := h.absorbPreceding_held
    exact ⟨_, n', hi, h', by simp [h.absorbPreceding_eq, h.content]⟩

theorem At.fst_splitStart_ne (h : d.At s n) (hq : q.node = n.id) {s' : Seat} (h' : d.At s' m)
    (hne : n.id ≠ m.id) : (d.splitStart q).1 ≠ m.id := by
  rw [Draft.splitStart]
  split
  case isTrue =>
    have hm : m.id ∈ Node.idsAll (d.content ++ d.dropped) := by
      rw [Node.idsAll_append]
      exact List.mem_append_left _ (Node.mem_idsAll_iff.mpr ⟨m, h'.mem_preorderAll, rfl⟩)
    exact fun e => Nat.lt_irrefl d.next (by simpa [← e, Draft.splitText] using h.sound.lt _ hm)
  case isFalse => rwa [hq]

theorem At.fst_isolate_mem (h : d.At s n) :
    (d.isolate n.id).1 ∈ (d.isolate n.id).2.content.map Node.id := by
  obtain ⟨hi, hc, -⟩ := h.isolate rfl
  simp [hi, hc]

theorem At.id_ne (h : d.At s n) {s' : Seat} (h' : d.At s' m) (hne : n ≠ m) : n.id ≠ m.id :=
  fun e => hne <| Node.eq_of_id_eq h.sound.nodup_content h.mem_preorderAll h'.mem_preorderAll e

end Keep

end Draft

namespace Arena

variable {a : Arena} {N : Nat} {p : NodeId} {k : Kind} {is js : List NodeId} {R : Multiset Cell}
  {m : Node} {ns : List Node} {d : Draft} {n : Node}

namespace Stores

section Family

variable (h : a.Stores N (family p k is (m :: ns) js R))

include h

theorem next?_family : a.next? m.id = (ns.map Node.id ++ js).head? :=
  h.paired.next?_eq (h.children_head.trans (show _ = is ++ _ by simp))

theorem prev?_family : a.prev? m.id = is.getLast? :=
  h.paired.prev?_eq (h.children_head.trans (show _ = is ++ m.id :: (ns.map Node.id ++ js) by simp))

theorem text_family : a.text m.id = m.text :=
  text_eq h.kind?_family

theorem isText_family : a.isText m.id = m.isText :=
  isText_eq h.kind?_family

end Family

theorem absorbFollowing (h : a.Stores N (family p k is (m :: ns) [] R)) (stop : NodeId) :
    ∃ a', a.absorbFollowing m.id stop = some a' ∧ a'.Stores N (family p k is
      (m.appendText (.join ((ns.takeWhile (Node.isAbsorbed stop)).map Node.text)) ::
        ns.dropWhile (Node.isAbsorbed stop)) []
      (Node.cells (ns.takeWhile (Node.isAbsorbed stop)) + R)) := by
  induction ns generalizing a m R with
  | nil =>
    rw [Arena.absorbFollowing, h.next?_family]
    exact ⟨a, rfl, h.of_eq (by simp [String.join])⟩
  | cons c cs ih =>
    have hn := h.next_family
    rw [Arena.absorbFollowing, h.next?_family]
    simp only [List.map_cons, List.cons_append, List.head?_cons, hn.text_family, hn.isText_family]
    cases hc : c.isAbsorbed stop with
    | false =>
      rw [if_neg (by grind [Node.isAbsorbed])]
      exact ⟨a, rfl, h.of_eq (by simp [hc, String.join])⟩
    | true =>
      rw [if_pos (by grind [Node.isAbsorbed])]
      have hd := (h.mapKind_family (·.mapText (· ++ c.text))).next_family.detach_family
      have hd := hd.of_eq (q := family p k is (m.appendText c.text :: cs) []
        (Node.cells [c] + R)) (by
          simp [family, Node.appendText, ← Multiset.singleton_add]
          abel)
      obtain ⟨a', hr, h'⟩ := ih hd
      refine ⟨a', hr, h'.of_eq ?_⟩
      simp [hc, String.join_cons, Node.appendText_appendText, family, ← Multiset.singleton_add]
      abel

theorem absorbPreceding {cs : List Node}
    (h : a.Stores N (family p k [] (cs.reverse ++ m :: ns) [] R)) :
    ∃ a', a.absorbPreceding m.id = some a' ∧ a'.Stores N (family p k []
      ((cs.dropWhile Node.isText).reverse ++ m.prependText
        (.join ((cs.takeWhile Node.isText).reverse.map Node.text)) :: ns) []
      (Node.cells (cs.takeWhile Node.isText) + R)) := by
  induction cs generalizing a m R with
  | nil =>
    have hm : a.Stores N (family p k [] (m :: ns) [] R) := h
    rw [Arena.absorbPreceding, hm.prev?_family]
    exact ⟨a, rfl, h.of_eq (by simp [String.join])⟩
  | cons c cs ih =>
    -- The text before it at the head of the family, and then the text itself.
    have hc := h.of_eq (q := family p k (cs.reverse.map Node.id) (c :: m :: ns) []
      (Node.cells cs + R)) (by simp [family, ← Multiset.singleton_add]; abel)
    have hm := hc.next_family
    rw [Arena.absorbPreceding, hm.prev?_family]
    simp only [List.getLast?_concat, hc.text_family, hc.isText_family]
    cases ht : c.isText with
    | false =>
      exact ⟨a, rfl, h.of_eq (by simp [ht, String.join])⟩
    | true =>
      have hd := (hm.mapKind_family (·.mapText (c.text ++ ·))).of_eq
        (q := family p k (cs.reverse.map Node.id) (c :: m.prependText c.text :: ns) []
          (Node.cells cs + R)) (by simp [family, Node.prependText, ← Multiset.singleton_add]; abel)
      have hd := hd.detach_family.of_eq (q := family p k [] (cs.reverse ++ m.prependText c.text :: ns)
        [] (Node.cells [c] + R)) (by simp [family, ← Multiset.singleton_add]; abel)
      obtain ⟨a', hr, h'⟩ := ih hd
      refine ⟨a', hr, h'.of_eq ?_⟩
      simp [ht, String.join_append, String.join_cons, Node.prependText_prependText, family,
        ← Multiset.singleton_add]
      abel

section Tag

open Draft

variable {run : List Node} {tag : String}

def runId (N : Nat) (run : List Node) : Option NodeId :=
  if run.isEmpty then none else some ⟨N⟩

theorem tagOne_text (h : a.Stores (tagAll.close tag run N).2
    (family p k is ((tagAll.close tag run N).1 ++ m :: ns) [] R)) (hm : m.isText) :
    ∃ a', a.tagOne tag (runId N run) m.id = (runId N (run ++ [m]), a') ∧
      a'.Stores (tagAll.close tag (run ++ [m]) N).2
        (family p k is ((tagAll.close tag (run ++ [m]) N).1 ++ ns) [] R) := by
  obtain ⟨t, ht⟩ := Node.isText_iff.mp hm
  have hk : a.kind? m.id = some (.text t) := ht ▸ h.kind?_node (by simp [family])
  simp only [tagOne, hk]
  cases run with
  | nil =>
    have hc := Stores.create_before
      (show a.Stores _ ((Place.among p k is [] R).cells ([] ++ m :: ns)) from h) (.wrapper (.single tag))
    have hm := (hc.of_eq (q := ⟨p, k, (is ++ [⟨N⟩]) ++ m.id :: ns.map Node.id⟩ ::ₘ
      ⟨⟨N⟩, .wrapper (.single tag), []⟩ ::ₘ (Node.cells (m :: ns) + R)) (by
        simp [Place.cells, family, Node.cell, tagAll.close, ← Multiset.singleton_add]
        abel)).moveTo
    refine ⟨_, ?_, hm.of_eq ?_⟩
    · simp [h.size, runId, tagAll.close]
    · simp [family, Node.cell, tagAll.close, ← Multiset.singleton_add]
      abel
  | cons r run =>
    have hm := (h.of_eq (q := ⟨p, k, (is ++ [⟨N⟩]) ++ m.id :: ns.map Node.id⟩ ::ₘ
      ⟨⟨N⟩, .wrapper (.single tag), (r :: run).map Node.id⟩ ::ₘ
        (Node.cells (r :: run) + Node.cells (m :: ns) + R)) (by
          simp [family, Node.cell, tagAll.close, ← Multiset.singleton_add]
          abel)).moveTo
    refine ⟨_, rfl, hm.of_eq ?_⟩
    simp [family, Node.cell, tagAll.close, ← Multiset.singleton_add]
    abel

theorem tagOne_of_not_isText (h : a.Stores N (family p k is (m :: ns) [] R)) (hm : m.isText = false)
    (tag : String) (w : Option NodeId) :
    ∃ a', a.tagOne tag w m.id = (none, a') ∧
      a'.Stores N (family p k is (m.addStyle tag :: ns) [] R) := by
  have hk := h.kind?_family
  have ha : m.isWrapper = false → m.addStyle tag = m := fun hw => by
    obtain ⟨i, k, cs⟩ := m
    cases k <;> simp_all [Node.addStyle, Node.withKind, Kind.mapStyles, Node.isWrapper,
      Kind.isWrapper]
  simp only [tagOne, hk]
  split
  case h_1 t e => simp [Node.isText, Option.some.inj e, Kind.isText] at hm
  case h_2 => exact ⟨_, rfl, h.mapKind_family _⟩
  case h_3 ht hw =>
    refine ⟨a, rfl, ?_⟩
    rw [ha]
    · exact h
    · unfold Node.isWrapper Kind.isWrapper
      split
      case h_1 s e => exact absurd (congrArg some e) (hw s)
      case h_2 => rfl

theorem tagFrom (h : a.Stores (tagAll.close tag run N).2
    (family p k is ((tagAll.close tag run N).1 ++ ns) [] R)) (last : NodeId) :
    ∃ a', a.tagFrom last tag (runId N run) (ns.head?.map Node.id) = some a' ∧
      a'.Stores (tagAll tag run N (Node.through last ns).1).2 (family p k is
        ((tagAll tag run N (Node.through last ns).1).1 ++ (Node.through last ns).2) [] R) := by
  induction ns generalizing a run N is R with
  | nil =>
    rw [List.head?_nil, Option.map_none, Arena.tagFrom]
    exact ⟨a, rfl, h⟩
  | cons n ns ih =>
    have hf := h.of_eq (q := family p k (is ++ (tagAll.close tag run N).1.map Node.id) (n :: ns) []
      (Node.cells (tagAll.close tag run N).1 + R)) (by
        simp [family, ← Multiset.singleton_add]
        abel)
    have hnext : a.next? n.id = ns.head?.map Node.id := by simp [hf.next?_family]
    rw [List.head?_cons, Option.map_some, Arena.tagFrom, hnext]
    cases hn : n.isText with
    | true =>
      obtain ⟨a₁, h₁, hs₁⟩ := h.tagOne_text hn
      obtain ⟨a₂, h₂, hs₂⟩ := ih hs₁
      simp only [h₁, Node.through]
      by_cases e : n.id = last
      case pos =>
        simp only [if_pos e, tagAll_text hn]
        exact ⟨a₁, rfl, hs₁⟩
      case neg =>
        simp only [if_neg e, tagAll_text hn]
        exact ⟨a₂, h₂, hs₂⟩
    | false =>
      obtain ⟨a₁, h₁, hs₁⟩ := hf.tagOne_of_not_isText hn tag (runId N run)
      have hc : a₁.Stores (tagAll.close tag [] (tagAll.close tag run N).2).2 _ := hs₁.next_family
      obtain ⟨a₂, h₂, hs₂⟩ := ih hc
      simp only [h₁, Node.through]
      by_cases e : n.id = last
      case pos =>
        simp only [if_pos e, tagAll_of_not_isText hn]
        refine ⟨a₁, rfl, hs₁.of_eq ?_⟩
        simp [tagAll, tagAll.close, family, ← Multiset.singleton_add]
        abel
      case neg =>
        simp only [if_neg e, tagAll_of_not_isText hn]
        refine ⟨a₂, h₂, hs₂.of_eq ?_⟩
        simp [family, ← Multiset.singleton_add]
        abel

end Tag

end Stores

namespace Draws

variable {before left right after : List Node} {i : NodeId} {styles : StyleSet} {s : Seat}

theorem sound (h : a.Draws p k R d) : d.Sound where
  nodup := by
    have hd := h.nodup
    rw [family, Multiset.map_cons, Multiset.nodup_cons] at hd
    refine Multiset.coe_nodup.mp (Multiset.nodup_of_le ?_ hd.right)
    rw [← Node.map_id_cells]
    exact Multiset.map_le_map (by simp [← add_assoc])
  lt i hi := by
    obtain ⟨n, hn, rfl⟩ := Node.mem_idsAll_iff.mp hi
    refine h.lt (x := n.cell) ?_
    have hc : n.cell ∈ Node.cells (d.content ++ d.dropped) := Node.mem_cells.mpr ⟨n, hn, rfl⟩
    rw [Node.cells_append] at hc
    simp [family, ← add_assoc, hc]

theorem seated (h : a.Draws p k R d) (hc : d.content = s.plug [n]) (hn : n.isText) : d.At s n :=
  ⟨h.sound, hc, hn⟩

theorem of_place {cs ds ms : List Node} (h : a.Stores N
    ((Place.among p k [] [] (Node.cells ds + R)).cells cs + Node.cells ms)) :
    a.Draws p k R ⟨cs, ds ++ ms, N⟩ :=
  h.of_eq (by
    simp [Place.cells, family, ← Multiset.singleton_add]
    abel)

section Held

variable (h : a.Draws p k R d) (ha : d.At (.held before i styles left right after) n)

include h ha

theorem place : a.Stores d.next ((Place.among p k [] [] (Node.cells d.dropped + R)).cells
    (before ++ .mk i (.wrapper styles) (left ++ n :: right) :: after)) :=
  h.of_eq (by simp [Place.cells, ha.content])

theorem isolate : ∃ a', a.isolate n.id = some ((d.isolate n.id).1, a') ∧
    a'.Draws p k R (d.isolate n.id).2 := by
  have hs := h.place ha
  have hp := hs.parent?_within rfl
  have hc := hs.children_within rfl
  have hn := hs.next?_within rfl
  have hsub := ha.substitute_held
  rw [Node.id_mk] at hp hc
  rcases left with _ | ⟨l, left⟩ <;> rcases right with _ | ⟨r, right⟩ <;>
    simp only [Draft.isolate, ha.holder?_held, ha.childrenAround_held, Draft.substitute, Node.id_mk,
      hsub, Arena.isolate, hp, hc, hn, List.head?_cons, List.head?_nil, Option.map_some,
      Option.map_none]
  case nil.nil => exact ⟨a, rfl, h⟩
  case nil.cons =>
    obtain ⟨a', hr, hs'⟩ := hs.cutFrom (show _ = [n] ++ r :: right from rfl)
    have hc' : a'.children i = [n.id] := hs'.children_sibling
    rw [Node.id_mk] at hr
    exact ⟨a', by simp [hr, hc'], hs'.of_eq (by simp [Place.cells])⟩
  case cons.nil =>
    have hi : (a.copyWrapper i).1 = ⟨d.next⟩ := congrArg NodeId.mk hs.size
    have hs' := hs.copyAround (show _ = (l :: left) ++ [n] from rfl)
    exact ⟨_, by simp [hc, hi], hs'.of_eq (by simp [Place.cells])⟩
  case cons.cons =>
    obtain ⟨a', hr, hs'⟩ := hs.cutFrom (show _ = (l :: left ++ [n]) ++ r :: right by simp)
    have hc' : a'.children i = (l :: left ++ [n]).map Node.id := hs'.children_sibling
    have hi : (a'.copyWrapper i).1 = ⟨d.next + 1⟩ := congrArg NodeId.mk hs'.size
    have hs'' := hs'.copyAround (show _ = (l :: left) ++ [n] from rfl)
    rw [Node.id_mk] at hr
    refine ⟨_, by simp [hr, hc', hi], hs''.of_eq ?_⟩
    simp [Place.cells, Node.copyAround, Node.withChildren, Kind.styles?]

theorem absorbFollowing (stop : NodeId) : ∃ a', a.absorbFollowing n.id stop = some a' ∧
    a'.Draws p k R (d.absorbFollowing n.id stop) := by
  obtain ⟨R', hR⟩ := (Place.among p k [] [] (Node.cells d.dropped + R)).exists_frame i before after
  have hf := (h.place ha).of_eq (q := family i (.wrapper styles) (left.map Node.id) (n :: right) []
    (Node.cells left + R')) (by
      rw [hR _ rfl]
      simp [family, ← Multiset.singleton_add]
      abel)
  obtain ⟨a', hr, hs⟩ := hf.absorbFollowing stop
  refine ⟨a', hr, ?_⟩
  rw [ha.absorbFollowing_eq]
  refine of_place (hs.of_eq ?_)
  rw [Seat.plug_held, hR _ rfl]
  simp [family, ← Multiset.singleton_add]
  abel

theorem absorbPreceding : ∃ a', a.absorbPreceding n.id = some a' ∧
    a'.Draws p k R (d.absorbPreceding n.id) := by
  obtain ⟨R', hR⟩ := (Place.among p k [] [] (Node.cells d.dropped + R)).exists_frame i before after
  have hf := (h.place ha).of_eq (q := family i (.wrapper styles) []
    (left.reverse.reverse ++ n :: right) [] R') (by rw [hR _ rfl, List.reverse_reverse]; rfl)
  obtain ⟨a', hr, hs⟩ := hf.absorbPreceding
  refine ⟨a', hr, ?_⟩
  rw [ha.absorbPreceding_eq]
  refine of_place (hs.of_eq ?_)
  rw [Seat.plug_held, hR _ rfl]
  simp [family, List.rdropWhile, List.rtakeWhile, ← Multiset.singleton_add]
  abel

end Held

section Seat

variable (h : a.Draws p k R d) (ha : d.At s n)

include h ha

theorem kind?_seat : a.kind? n.id = some n.kind := by
  have hc : n.cell ∈ Node.cells d.content := Node.mem_cells.mpr ⟨n, ha.mem_preorderAll, rfl⟩
  exact h.kind?_node (by simp [family, hc])

theorem textLength_seat : a.textLength n.id = d.textLength n.id := by
  rw [textLength_eq (h.kind?_seat ha), ha.textLength, Node.length_items_of_isText ha.isText]

theorem splitText (offset : Nat) : (a.splitText n.id offset).1 = (d.splitText n.id offset).1 ∧
    (a.splitText n.id offset).2.Draws p k R (d.splitText n.id offset).2 := by
  obtain ⟨t, ht⟩ := Node.isText_iff.mp ha.isText
  have hc := ha.content_splitText offset
  cases s with
  | bare before after =>
    have hf : a.Stores d.next (family p k (before.map Node.id) (n :: after) []
        (Node.cells before + (Node.cells d.dropped + R))) := h.of_eq (by
      simp [ha.content, family, ← Multiset.singleton_add]
      abel)
    obtain ⟨hi, hs⟩ := hf.splitText_family ht offset
    refine ⟨hi, hs.of_eq ?_⟩
    rw [hc]
    simp [Draft.splitText, Draft.substitute, family, ← Multiset.singleton_add]
    abel
  | held before i styles left right after =>
    obtain ⟨hi, hs⟩ := (h.place ha).splitText_within rfl ht offset
    refine ⟨hi, hs.of_eq ?_⟩
    rw [hc]
    simp [Draft.splitText, Draft.substitute, Place.cells, Node.withChildren]

theorem splitStart (hq : q.node = n.id) : (a.splitStart q).1 = (d.splitStart q).1 ∧
    (a.splitStart q).2.Draws p k R (d.splitStart q).2 := by
  rw [Arena.splitStart, Draft.splitStart, hq]
  split
  case isTrue => exact h.splitText ha q.offset
  case isFalse => exact ⟨rfl, h⟩

theorem splitStop (hq : q.node = n.id) : (a.splitStop q).Draws p k R (d.splitStop q) := by
  rw [Arena.splitStop, Draft.splitStop, hq, h.textLength_seat ha]
  split
  case isTrue => exact (h.splitText ha q.offset).right
  case isFalse => exact h

end Seat

theorem parent?_of_mem (h : a.Draws p k R d) (hi : i ∈ d.content.map Node.id) :
    a.parent? i = some p := by
  obtain ⟨n, hn, rfl⟩ := List.mem_map.mp hi
  obtain ⟨before, after, hc⟩ := List.append_of_mem hn
  have hs : a.Stores d.next ((Place.among p k [] [] (Node.cells d.dropped + R)).cells
    (before ++ n :: after)) := h.of_eq (by rw [hc]; rfl)
  exact hs.parent?_sibling

theorem ne_of_mem (h : a.Draws p k R d) (hi : i ∈ d.content.map Node.id) : i ≠ p := by
  obtain ⟨n, hn, rfl⟩ := List.mem_map.mp hi
  have hd := h.nodup
  have hc : n.cell ∈ Node.cells d.content :=
    Node.mem_cells.mpr ⟨n, Node.mem_preorderAll_of_mem hn, rfl⟩
  rw [family, Multiset.map_cons, Multiset.nodup_cons] at hd
  exact fun e => hd.left (Multiset.mem_map.mpr ⟨n.cell, by simp [hc], e⟩)

section Lift

theorem parent?_bare (h : a.Draws p k R d) (ha : d.At (.bare before after) n) :
    a.parent? n.id = some p :=
  h.parent?_of_mem (by simp [ha.content])

theorem parent?_held (h : a.Draws p k R d) (ha : d.At (.held before i styles left right after) n) :
    a.parent? n.id = some i ∧ i ≠ p :=
  ⟨(h.place ha).parent?_within rfl, h.ne_of_mem (by simp [ha.content])⟩

variable (h : a.Draws p k R d) (ha : d.At s n)

include h ha

theorem liftFirst_self : ∃ a', a.liftFirst p n.id n.id =
      some (((d.isolate n.id).1, (d.isolate n.id).1), a') ∧
    a'.Draws p k R (d.isolate n.id).2 := by
  cases s with
  | bare before after =>
    rw [Arena.liftFirst, if_pos (h.parent?_bare ha), ha.isolate_bare]
    exact ⟨a, rfl, h⟩
  | held before i styles left right after =>
    obtain ⟨hp, hne⟩ := h.parent?_held ha
    obtain ⟨a', hi, h'⟩ := h.isolate ha
    refine ⟨a', ?_, h'⟩
    simp [Arena.liftFirst, hp, hne, hi]

theorem liftFirst {last : NodeId} (hne : n.id ≠ last) :
    ∃ a', a.liftFirst p n.id last =
        some ((((d.absorbFollowing n.id last).isolate n.id).1, last), a') ∧
      a'.Draws p k R ((d.absorbFollowing n.id last).isolate n.id).2 := by
  cases s with
  | bare before after =>
    rw [Arena.liftFirst, if_pos (h.parent?_bare ha), ha.absorbFollowing_bare, ha.isolate_bare]
    exact ⟨a, rfl, h⟩
  | held before i styles left right after =>
    obtain ⟨hp, hi⟩ := h.parent?_held ha
    obtain ⟨a₁, hr, h₁⟩ := h.absorbFollowing ha last
    obtain ⟨n', hn, -, ha₁, -⟩ := ha.absorbFollowing_held last
    obtain ⟨a₂, hr', h₂⟩ := h₁.isolate ha₁
    rw [hn] at hr' h₂
    refine ⟨a₂, ?_, h₂⟩
    simp [Arena.liftFirst, hp, hi, hne, hr, hr']

theorem liftLast : ∃ a', a.liftLast p n.id = some (((d.absorbPreceding n.id).isolate n.id).1, a') ∧
    a'.Draws p k R ((d.absorbPreceding n.id).isolate n.id).2 := by
  cases s with
  | bare before after =>
    rw [Arena.liftLast, if_pos (h.parent?_bare ha), ha.absorbPreceding_bare, ha.isolate_bare]
    exact ⟨a, rfl, h⟩
  | held before i styles left right after =>
    obtain ⟨hp, hi⟩ := h.parent?_held ha
    obtain ⟨a₁, hr, h₁⟩ := h.absorbPreceding ha
    obtain ⟨n', hn, -, ha₁, -⟩ := ha.absorbPreceding_held
    obtain ⟨a₂, hr', h₂⟩ := h₁.isolate ha₁
    rw [hn] at hr' h₂
    refine ⟨a₂, ?_, h₂⟩
    simp [Arena.liftLast, hp, hi, hr, hr']

end Lift

theorem tagBetween {first : NodeId} (h : a.Draws p k R d) (hf : first ∈ d.content.map Node.id)
    (last : NodeId) (tag : String) : ∃ a', a.tagFrom last tag none (some first) = some a' ∧
      a'.Draws p k R (d.tagBetween first last tag) := by
  obtain ⟨n, hn, rfl⟩ := List.mem_map.mp hf
  obtain ⟨before, after, hc⟩ := List.append_of_mem hn
  have hb := Node.not_mem_of_nodup (hc ▸ h.sound.nodup_content)
  have hs : a.Stores (Draft.tagAll.close tag [] d.next).2 (family p k (before.map Node.id)
      ((Draft.tagAll.close tag [] d.next).1 ++ n :: after) []
      (Node.cells before + (Node.cells d.dropped + R))) := h.of_eq (by
    simp [hc, Draft.tagAll.close, family, ← Multiset.singleton_add]
    abel)
  obtain ⟨a', hr, h'⟩ := hs.tagFrom last
  refine ⟨a', hr, ?_⟩
  simp only [Draft.tagBetween, Node.segment, hc, Node.takeWhile_id hb, Node.dropWhile_id hb]
  refine h'.of_eq ?_
  simp [family, ← Multiset.singleton_add]
  abel

section Apply

variable {e : Endpoints} {m : Node} {s' : Seat}

theorem applyEnds_single (h : a.Draws p k R d) (ha : d.At s n) (hs : e.start.node = n.id)
    (ht : e.stop.node = n.id) (tag : String) :
    ∃ a', a.applyEnds p e tag = some a' ∧ a'.Draws p k R (d.apply e tag) := by
  have hse : e.start.node = e.stop.node := hs.trans ht.symm
  simp only [applyEnds, splitEnds, Draft.apply, if_pos hse]
  have h₁ := h.splitStop ha ht
  obtain ⟨_, n₁, hi₁, ha₁, -⟩ := ha.splitStop ht
  have hs₁ : e.start.node = n₁.id := hs.trans (ht.symm.trans hi₁)
  obtain ⟨hl₂, h₂⟩ := h₁.splitStart ha₁ hs₁
  obtain ⟨_, n₂, hi₂, ha₂, -⟩ := ha₁.splitStart hs₁
  generalize (d.splitStop e.stop).splitStart e.start = r₂ at *
  obtain ⟨a₃, hr₃, h₃⟩ := h₂.liftFirst_self ha₂
  have hm₃ := ha₂.fst_isolate_mem
  obtain ⟨a₄, hr₄, h₄⟩ := h₃.tagBetween hm₃ (r₂.2.isolate n₂.id).1 tag
  refine ⟨a₄, ?_, hi₂ ▸ h₄⟩
  simp [hl₂, hi₂, hr₃, Arena.liftLast, h₃.parent?_of_mem hm₃, hr₄]

theorem applyEnds_several (h : a.Draws p k R d) (ha : d.At s n) (hb : d.At s' m) (hne : n ≠ m)
    (hs : e.start.node = n.id) (ht : e.stop.node = m.id) (tag : String) :
    ∃ a', a.applyEnds p e tag = some a' ∧ a'.Draws p k R (d.apply e tag) := by
  have hne' : n.id ≠ m.id := ha.id_ne hb hne
  have hse : e.start.node ≠ e.stop.node := by rwa [hs, ht]
  simp only [applyEnds, splitEnds, Draft.apply, if_neg hse]
  obtain ⟨hl₁, h₁⟩ := h.splitStart ha hs
  obtain ⟨_, n₁, hi₁, ha₁, -⟩ := ha.splitStart hs
  have hne₁ : n₁.id ≠ m.id := hi₁ ▸ ha.fst_splitStart_ne hs hb hne'
  obtain ⟨s₁, hc₁⟩ := Draft.exists_seat ((ha.keeps_splitStart hs hne.symm).shallow hb.mem_shallow)
  have hb₁ := h₁.seated hc₁ hb.isText
  generalize d.splitStart e.start = r₁ at *
  have h₂ := h₁.splitStop hb₁ ht
  obtain ⟨_, m₂, hj₂, hb₂, -⟩ := hb₁.splitStop ht
  obtain ⟨s₂, hc₂⟩ := Draft.exists_seat ((hb₁.keeps_splitStop ht fun e => hne₁ (e ▸ rfl)).shallow
    ha₁.mem_shallow)
  have ha₂ := h₂.seated hc₂ ha₁.isText
  have hne₂ : n₁.id ≠ m₂.id := by rwa [← hj₂, ht]
  simp only [hl₁, hi₁, hj₂]
  generalize r₁.2.splitStop e.stop = d₂ at *
  obtain ⟨a₄, hr₄, h₄⟩ := h₂.liftFirst ha₂ hne₂
  obtain ⟨s₃, n₃, hi₃, ha₃, hk₃⟩ := ha₂.absorbed (m := m₂) fun e => hne₂ (e ▸ rfl)
  have hm₄ := hi₃ ▸ ha₃.fst_isolate_mem
  obtain ⟨s₄, hc₄⟩ := Draft.exists_seat (hi₃ ▸ (ha₃.keeps_isolate m₂).shallow
    (hk₃.shallow hb₂.mem_shallow))
  have hb₄ := h₄.seated hc₄ hb₂.isText
  generalize (d₂.absorbFollowing n₁.id m₂.id).isolate n₁.id = r₄ at *
  obtain ⟨a₅, hr₅, h₅⟩ := h₄.liftLast hb₄
  obtain ⟨s₅, m₅, hj₅, hb₅, hk₅⟩ := hb₄.absorbed_preceding
  have hm₅ := hj₅ ▸ (hb₅.keeps_isolate m₅).ids _ (hk₅ _ hm₄)
  generalize (r₄.2.absorbPreceding m₂.id).isolate m₂.id = r₅ at *
  obtain ⟨a₆, hr₆, h₆⟩ := h₅.tagBetween hm₅ r₅.1 tag
  exact ⟨a₆, by simp [hr₄, hr₅, hr₆], h₆⟩

end Apply

end Draws

theorem Holds.applyEnds {t : Tree} {block : NodeId} {b n m : Node} {s s' : Seat} {e : Endpoints}
    (h : a.Holds t) (hb : t.node? block = some b) (hp : Tree.Perch b e.start s n)
    (hq : Tree.Perch b e.stop s' m) (tag : String) :
    ∃ a', a.applyEnds block e tag = some a' ∧ a'.Holds (t.redraft block (·.apply e tag)) := by
  obtain ⟨R, hd, hr⟩ := h.draws hb
  have ha := hd.seated hp.children hp.isText
  have hb' := hd.seated hq.children hq.isText
  rw [Tree.redraft, Tree.children_of_node? hb]
  by_cases e' : n = m
  case pos =>
    subst e'
    obtain ⟨a', hr', hd'⟩ := hd.applyEnds_single ha hp.node hq.node tag
    exact ⟨a', hr', hr _ _ hd'⟩
  case neg =>
    obtain ⟨a', hr', hd'⟩ := hd.applyEnds_several ha hb' e' hp.node hq.node tag
    exact ⟨a', hr', hr _ _ hd'⟩

end Arena

end RichText
