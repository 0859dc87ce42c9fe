import RichText.Arena.Markup
import RichText.Proofs.Arena.Calls
import RichText.Proofs.Parsed
import RichText.Proofs.Readable

namespace RichText

namespace Markup

variable {p : NodeId} {k : Kind} {current : List Node} {es outer : List OpenElement}

-- How a node and the open elements in it are stored while they are read into. `inner` is the element
-- that was opened next, if there is one.
def spine (p : NodeId) (k : Kind) (current : List Node) (inner : List NodeId) :
    List OpenElement → Multiset Cell
  | [] => ⟨p, k, current.reverse.map Node.id ++ inner⟩ ::ₘ Node.cells current
  | e :: es =>
    ⟨e.id, e.kind, current.reverse.map Node.id ++ inner⟩ ::ₘ
      (Node.cells current + spine p k e.before [e.id] es)

theorem spine_cons (n : Node) (es : List OpenElement) :
    spine p k (n :: current) [] es =
      n.cell ::ₘ (Node.cells n.children + spine p k current [n.id] es) := by
  cases es <;> simp [spine, ← Multiset.singleton_add] <;> abel

theorem spine_closeInnermost (es outer : List OpenElement) :
    spine p k (Builder.closeInnermost current es) [] outer = spine p k current [] (es ++ outer) := by
  induction es generalizing current with
  | nil => rfl
  | cons e es ih =>
    rw [Builder.closeInnermost, ih, spine_cons]
    simp [spine, Node.cell, ← Multiset.singleton_add]

theorem spine_nodes (b : Builder) :
    spine p k b.current [] b.opened = Arena.family p k [] b.nodes [] 0 := by
  rw [← List.append_nil b.opened, ← spine_closeInnermost]
  simp [spine, Arena.family, Builder.nodes]

end Markup

namespace Arena

open Markup

variable {a a' : Arena} {p : NodeId} {k : Kind} {n : Nat} {R : Multiset Cell} {b : Builder}

def innermost (p : NodeId) (opened : List (String × NodeId)) : NodeId :=
  (opened.head?.map Prod.snd).getD p

def marks (b : Builder) : List (String × NodeId) :=
  b.opened.map fun e => (e.tag, e.id)

def Reads (a : Arena) (p : NodeId) (k : Kind) (R : Multiset Cell) (b : Builder) : Prop :=
  a.Stores b.next (spine p k b.current [] b.opened + R)

theorem exists_spine (b : Builder) : ∃ k' R', ∀ current inner,
    spine p k current inner b.opened = ⟨innermost p (marks b), k', current.reverse.map Node.id ++ inner⟩ ::ₘ
      (Node.cells current + R') := by
  cases h : b.opened with
  | nil => exact ⟨k, 0, fun current inner => by simp [spine, innermost, marks, h]⟩
  | cons e es =>
    refine ⟨e.kind, spine p k e.before [e.id] es, fun current inner => ?_⟩
    simp [spine, innermost, marks, h]

section Add

variable (h : a.Reads p k R b)

include h

theorem Reads.append_new (kind : Kind) :
    ((a.create kind).2.append (innermost p (marks b)) (a.create kind).1).Stores (b.next + 1)
      (⟨⟨b.next⟩, kind, []⟩ ::ₘ (spine p k b.current [⟨b.next⟩] b.opened + R)) := by
  obtain ⟨k', R', hs⟩ := exists_spine (p := p) (k := k) b
  have hc := (Stores.create h kind).of_eq
    (q := ⟨innermost p (marks b), k', b.current.reverse.map Node.id⟩ ::ₘ
      (⟨⟨b.next⟩, kind, []⟩ ::ₘ (Node.cells b.current + R' + R)))
    (by simp [hs, ← Multiset.singleton_add]; abel)
  have ha := hc.append (c := ⟨b.next⟩) (Nat.lt_succ_self _) (h.parent?_fresh kind)
  rw [fst_create, h.size]
  refine ha.of_eq ?_
  simp [hs, ← Multiset.singleton_add]
  abel

theorem Reads.leaf (kind : Kind) :
    ((a.create kind).2.append (innermost p (marks b)) (a.create kind).1).Reads p k R (b.leaf kind) :=
  (h.append_new kind).of_eq (by simp [Builder.leaf, spine_cons, Node.cell])

theorem Reads.open (kind : Kind) (tag : String) :
    ((a.create kind).2.append (innermost p (marks b)) (a.create kind).1).Reads p k R
      ⟨[], ⟨⟨b.next⟩, kind, tag, b.current⟩ :: b.opened, b.next + 1⟩ :=
  (h.append_new kind).of_eq (by simp [spine])

theorem Reads.text (content : List Char) :
    (a.pushText (innermost p (marks b)) content).Reads p k R (b.text content) := by
  obtain ⟨k', R', hs⟩ := exists_spine (p := p) (k := k) b
  have h' := Stores.of_eq h (q := ⟨innermost p (marks b), k', b.current.reverse.map Node.id⟩ ::ₘ
    (Node.cells b.current + R' + R)) (by simp [hs, ← Multiset.singleton_add]; abel)
  have hl : a.lastChild? (innermost p (marks b)) = b.current.head?.map Node.id := by
    simp [lastChild?, h'.children_head]
  rw [pushText, hl]
  obtain ⟨rfl, e⟩ | ⟨m, ms, hc, hm, hne, e⟩ | ⟨hm, hne, e⟩ := b.text_cases content
  case inl => rwa [e]
  case inr.inl =>
    have hk := h'.kind?_node (x := m) (by simp [hc])
    have hm : a.isText m.id := (isText_eq hk).trans hm
    have hc' := Stores.of_eq h (by rw [hc, spine_cons, Multiset.cons_add])
    rw [if_neg (by simpa using hne), hc, e]
    simp only [List.head?_cons, Option.map_some, Option.filter_some, hm, if_true]
    refine (Stores.mapText hc' (· ++ String.ofList content)).of_eq ?_
    simp [spine_cons, Node.appendText, Node.cell]
  case inr.inr =>
    have hf : (b.current.head?.map Node.id).filter a.isText = none := by
      cases hc : b.current with
      | nil => rfl
      | cons m ms =>
        have hk := h'.kind?_node (x := m) (by simp [hc])
        have hm : a.isText m.id = false := (isText_eq hk).trans (hm m (by simp [hc]))
        simp [hm]
    rw [if_neg (by simpa using hne), hf, e]
    exact h.leaf _

-- The open elements of an arena, as a token leaves them, are those of the builder.
theorem Reads.add (t : Token) :
    (a.addToken p (marks b) t).1 = marks (b.add t) ∧
      (a.addToken p (marks b) t).2.Reads p k R (b.add t) := by
  cases t with
  | text content =>
    exact ⟨by rw [addToken, Builder.add, marks, marks, Builder.opened_text], h.text content⟩
  | start name attributes isClosed =>
    simp only [addToken, Builder.add, Builder.start]
    split
    case isTrue => exact ⟨rfl, h.leaf _⟩
    case isFalse => exact ⟨by simp [marks, h.size], h.open _ _⟩
  | stop name =>
    rw [addToken, Builder.add]
    obtain ⟨hn, e⟩ | ⟨inner, e, outer, ho, ht, hi, he⟩ := b.stop_cases (String.ofList name)
    case inl =>
      have hd : (marks b).dropWhile (·.1 ≠ String.ofList name) = [] := by
        refine List.dropWhile_eq_nil_iff.mpr fun m hm => decide_eq_true ?_
        obtain ⟨x, hx, rfl⟩ := List.mem_map.mp hm
        exact fun e' => hn (e' ▸ List.mem_map_of_mem hx)
      rw [hd, e]
      exact ⟨rfl, h⟩
    case inr =>
      have hd : (marks b).dropWhile (·.1 ≠ String.ofList name) =
          (e.tag, e.id) :: outer.map fun e => (e.tag, e.id) := by
        have hi : ∀ m ∈ inner.map fun e => (e.tag, e.id), decide (m.1 ≠ String.ofList name) := by
          intro m hm
          obtain ⟨x, hx, rfl⟩ := List.mem_map.mp hm
          exact decide_eq_true fun e' => hi (ht ▸ e' ▸ List.mem_map_of_mem hx)
        rw [marks, ho, List.map_append, List.dropWhile_append_of_pos hi]
        simp [ht]
      rw [hd, he]
      refine ⟨rfl, Stores.of_eq h ?_⟩
      rw [spine_closeInnermost, ho]
      simp

end Add

theorem reads_readFrom {total : Nat} {cs : List Char} {ts : List Token} {e : Option MarkupError}
    (ht : Token.Reads total cs ts e) (h : a.Reads p k R b) :
    ∃ a', a.readFrom p total (marks b) cs = some (a', e) ∧ a'.Reads p k R (ts.foldl .add b) := by
  induction ht generalizing a b with
  | done => exact ⟨a, by rw [readFrom], h⟩
  | @token _ _ t _ _ _ hs _ ih =>
    obtain ⟨hm, ha⟩ := h.add t
    obtain ⟨a', hr, h'⟩ := ih ha
    rw [readFrom, hs]
    simp only [hm]
    exact ⟨a', hr, h'⟩
  | skip hs _ ih =>
    obtain ⟨a', hr, h'⟩ := ih h
    rw [readFrom, hs]
    exact ⟨a', hr, h'⟩
  | fault hs =>
    rw [readFrom, hs]
    exact ⟨a, rfl, h⟩

theorem Holds.readFrom {t : Tree} {ts : List Token} {e : Option MarkupError} {total : Nat}
    {cs : List Char} (h : a.Holds t) (hp : p.index < t.made) (ht : Token.Reads total cs ts e)
    (hb : ts.foldl .add ⟨(t.children p).reverse, [], t.made⟩ = b) :
    ∃ a', a.readFrom p total [] cs = some (a', e) ∧
      a'.Holds { t.modifyChildren p fun _ => b.nodes with made := b.next } := by
  obtain ⟨w, hw⟩ := h.wf.exists_node? hp
  obtain ⟨R, hd, hr⟩ := h.draws hw
  have h₀ : a.Reads p w.kind R ⟨(t.children p).reverse, [], t.made⟩ :=
    hd.of_eq (by simp [spine, family, Tree.children_of_node? hw])
  obtain ⟨a', hr', h'⟩ := reads_readFrom ht h₀
  rw [hb] at h'
  have hm := hr a' ⟨b.nodes, [], b.next⟩ (Stores.of_eq h' (by rw [spine_nodes]; simp [family]))
  exact ⟨a', hr', by simpa [Tree.replaceChildren] using hm⟩

theorem Holds.parseInto {t : Tree} (h : a.Holds t) (hp : p.index < t.made) (markup : String) :
    ∃ a', a.parseInto p markup = some (a', (t.parseInto p markup).2) ∧
      a'.Holds (t.parseInto p markup).1 :=
  h.readFrom hp (Token.reads_readAll (Nat.le_refl _)) rfl

theorem Stores.pasteRun {is : List NodeId} (h : a.Stores n (⟨p, k, is⟩ ::ₘ R)) (r : Run) :
    (a.pasteRun p r).Stores (Paste.nodeOf n r).2 (⟨p, k, is ++ [(Paste.nodeOf n r).1.id]⟩ ::ₘ
      (Node.cells [(Paste.nodeOf n r).1] + R)) := by
  have hc := (h.create (.text r.text)).of_eq (Multiset.cons_swap ..)
  have hf := h.parent?_fresh (.text r.text)
  rw [Arena.pasteRun, Paste.nodeOf]
  simp only [fst_create, h.size]
  split
  case isTrue =>
    exact (hc.append (Nat.lt_succ_self n) hf).of_eq (by simp [Node.cell])
  case isFalse =>
    have hw := hc.create (.wrapper r.styles)
    have hfw := hc.parent?_fresh (.wrapper r.styles)
    have ht := hw.append (c := ⟨n⟩) (Nat.lt_succ_of_lt (Nat.lt_succ_self n)) (by rw [parent?_create, hf])
    have ht := ht.of_eq (Multiset.cons_swap ..)
    have hp : (((a.create (.text r.text)).2.create (.wrapper r.styles)).2.append ⟨n + 1⟩ ⟨n⟩).parent? ⟨n + 1⟩ =
        none := by
      rw [Arena.append, parent?_insert (by simp [h.size]), if_neg (by simp), hfw]
    rw [hc.size]
    refine (ht.append (Nat.lt_succ_self _) hp).of_eq ?_
    simp [Node.cell, ← Multiset.singleton_add]
    abel

theorem stores_pasteRuns {is : List NodeId} (h : a.Stores n (⟨p, k, is⟩ ::ₘ R)) (runs : List Run) :
    (runs.foldl (·.pasteRun p ·) a).Stores (Paste.nodesOf n runs).2
      (family p k is (Paste.nodesOf n runs).1 [] R) := by
  induction runs generalizing a n is R with
  | nil => exact h.of_eq (by simp [family, Paste.nodesOf])
  | cons r runs ih =>
    refine (ih (h.pasteRun r)).of_eq ?_
    simp [family, Paste.nodesOf, ← Multiset.singleton_add]
    abel

theorem Holds.pasteFragment {t : Tree} (h : a.Holds t) (runs : List Run) :
    (a.pasteFragment runs).1 = (t.pasteFragment runs).1 ∧
      (a.pasteFragment runs).2.Holds (t.pasteFragment runs).2 := by
  have hc := stores_pasteRuns (h.stores.create (.element "fragment")) runs
  refine ⟨congrArg NodeId.mk h.size_eq, .of_stores ?_⟩
  simp only [Arena.pasteFragment, fst_create, h.size_eq]
  refine hc.of_eq ?_
  simp [family, Tree.pasteFragment, Node.cell, ← Multiset.singleton_add]
  abel

end Arena

end RichText
