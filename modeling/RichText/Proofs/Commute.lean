import RichText.Document
import RichText.Proofs.Ranges
import Mathlib.Data.List.SplitBy

namespace RichText

theorem Kind.eq_wrapper {k : Kind} {s : StyleSet} (h : k.styles? = some s) : k = .wrapper s := by
  cases k <;> first | contradiction | exact congrArg _ (Option.some.inj h)

namespace Item

def markup : Item → List Char
  | .char c => Markup.escapeChar c
  | .node n => n.markup

end Item

namespace Piece

open Markup

-- Two pieces that are next to each other are in one wrapper.
def isJoint (p q : Piece) : Bool :=
  p.host.isSome && p.host = q.host

def markupRun (ps : List Piece) : List Char :=
  let inner := ps.flatMap (·.item.markup)
  match ps.head?.bind host with
  | none => inner
  | some s => startTag "span" [("class", s.classes)] ++ inner ++ stopTag "span"

-- Pieces as markup, with a wrapper around each run of those with the same styles.
def markupAll (ps : List Piece) : List Char :=
  (ps.splitBy isJoint).flatMap markupRun

variable {ps qs : List Piece}

theorem markupAll_append (h : ∀ p ∈ ps.getLast?, ∀ q ∈ qs.head?, p.isJoint q = false) :
    markupAll (ps ++ qs) = markupAll ps ++ markupAll qs := by
  rw [markupAll, List.splitBy_append h, List.flatMap_append]
  rfl

theorem markupAll_bare (h : ∀ p ∈ ps, p.host = none) :
    markupAll ps = ps.flatMap (·.item.markup) := by
  induction ps with
  | nil => rfl
  | cons p ps ih =>
    have hp : p.host = none := h p (.head _)
    have hj : ∀ p' ∈ [p].getLast?, ∀ q ∈ ps.head?, p'.isJoint q = false := by
      simp [isJoint, hp]
    have hs : markupAll [p] = p.item.markup := by
      simp [markupAll, List.splitBy, List.splitBy.loop, markupRun, hp]
    rw [← List.singleton_append, markupAll_append hj, ih fun q hq => h q (.tail _ hq), hs]
    rfl

theorem markupAll_held {styles : StyleSet} (hne : ps ≠ []) (h : ∀ p ∈ ps, p.host = some styles) :
    markupAll ps = startTag "span" [("class", styles.classes)] ++ ps.flatMap (·.item.markup) ++
      stopTag "span" := by
  have hc : ps.IsChain fun p q => p.isJoint q := by
    rw [List.isChain_iff_forall_rel_of_append_cons_cons]
    intro p q as bs e
    simp [isJoint, h p (by simp [e]), h q (by simp [e])]
  have hh : ps.head?.bind host = some styles := by
    have ⟨p, ps', e⟩ := List.exists_cons_of_ne_nil hne
    simp [e, h p (by simp [e])]
  rw [markupAll, List.splitBy_of_isChain hne hc]
  simp [markupRun, hh]

end Piece

namespace Node

open Markup

variable {n : Node} {ns : List Node}

theorem markup_eq_flatMap_items (n : Node) : n.items.flatMap Item.markup = n.markup := by
  obtain ⟨i, k, cs⟩ := n
  cases k <;> simp [items, Item.markup, markup, escape, List.flatMap_map]

theorem markupAll_pieces (h : n.pieces ≠ []) : Piece.markupAll n.pieces = n.markup := by
  cases hw : n.isWrapper
  case false =>
    rw [pieces_of_not_isWrapper hw, Piece.markupAll_bare (by simp), List.flatMap_map]
    exact n.markup_eq_flatMap_items
  case true =>
    have ⟨i, k, cs⟩ := n
    cases k <;> try contradiction
    case wrapper styles =>
      rw [Piece.markupAll_held h fun p hp => host_of_mem_pieces hp, pieces_wrapper rfl,
        List.flatMap_map, children_mk]
      simp only [List.flatMap_assoc, markup_eq_flatMap_items]
      simp [markup, markupAll_eq_flatMap, Kind.asElement]

end Node

namespace Canonical

theorem IsCanonical.markupAll_eq_pieces {ns : List Node} (h : IsCanonical ns) :
    Node.markupAll ns = Piece.markupAll (ns.flatMap Node.pieces) := by
  have hne : ∀ n ∈ ns, n.pieces ≠ [] := fun n hn => h.pieces_ne_nil hn
  have hd := h.distinct
  clear h
  induction ns with
  | nil => rfl
  | cons n ns ih =>
    have hj : ∀ p ∈ n.pieces.getLast?, ∀ q ∈ (ns.flatMap Node.pieces).head?,
        p.isJoint q = false := by
      intro p hp q hq
      have hp := Node.host_of_mem_pieces (List.mem_of_getLast? hp)
      cases ns with
      | nil => simp at hq
      | cons m ns =>
        have ⟨q', qs, e⟩ := List.exists_cons_of_ne_nil (hne m (by simp))
        have hq : q ∈ m.pieces := by
          simp [e] at hq
          simp [e, hq]
        have hq := Node.host_of_mem_pieces hq
        have hs : n.sameStyles m = false := (List.isChain_cons_cons.mp hd).left
        rw [Piece.isJoint, hp, hq, ← Bool.not_eq_true]
        simp only [Bool.and_eq_true, decide_eq_true_eq, Option.isSome_iff_exists]
        rintro ⟨⟨styles, e⟩, e'⟩
        have hsame : n.sameStyles m :=
          Node.sameStyles_iff.mpr ⟨styles, Kind.eq_wrapper e, Kind.eq_wrapper (e' ▸ e)⟩
        simp [hsame] at hs
    rw [Node.markupAll, List.flatMap_cons, Piece.markupAll_append hj,
      Node.markupAll_pieces (hne n (.head _)), ih (fun m hm => hne m (.tail _ hm)) hd.tail]

end Canonical

namespace Tree

variable {t : Tree} {block : NodeId} {b : Node}

def applyBetween (t : Tree) (block : NodeId) (start stop : Nat) (tag : String) : Tree :=
  (t.apply block (t.span block start stop) tag).2

theorem innerMarkup_eq_pieces (hb : t.node? block = some b)
    (hc : Canonical.IsCanonical b.children) :
    t.innerMarkup block = .ofList (Piece.markupAll (b.children.flatMap Node.pieces)) := by
  rw [innerMarkup, hb, Option.map_some, Option.getD_some, Node.innerMarkup, hc.markupAll_eq_pieces]

-- Of two styles, it does not show which one was added first.
theorem innerMarkup_applyBetween_comm (h : LinedBlock t block b) (start stop start' stop' : Nat)
    (tag tag' : String) :
    ((t.applyBetween block start stop tag).applyBetween block start' stop' tag').innerMarkup block =
      ((t.applyBetween block start' stop' tag').applyBetween block start stop tag).innerMarkup
        block := by
  have ⟨_, h₁⟩ := h.dyed_apply start stop tag
  have ⟨_, h₁₂⟩ := h₁.lined.dyed_apply start' stop' tag'
  have ⟨_, h₂⟩ := h.dyed_apply start' stop' tag'
  have ⟨_, h₂₁⟩ := h₂.lined.dyed_apply start stop tag
  iterate 4 rw [applyBetween]
  rw [innerMarkup_eq_pieces h₁₂.lined.node h₁₂.lined.flat.canonical,
    innerMarkup_eq_pieces h₂₁.lined.node h₂₁.lined.flat.canonical, h₁₂.pieces, h₂₁.pieces,
    h₁.pieces, h₂.pieces, h₁.shapes, h₂.shapes, h₁.embedBelow?, h₂.embedBelow?,
    Piece.styleRange_comm]

def striped : Tree where
  roots := [.mk ⟨0⟩ (.block "p" 0 true) [
    .mk ⟨1⟩ (.text "ab") [],
    .mk ⟨2⟩ (.wrapper (.single "i")) [
      .mk ⟨3⟩ (.text "cd") [],
      .mk ⟨4⟩ (.lineBreak false) [],
      .mk ⟨5⟩ (.text "ef") []],
    .mk ⟨6⟩ (.embed "math") [.mk ⟨7⟩ (.text "x") []],
    .mk ⟨8⟩ (.text "gh") [],
    .mk ⟨9⟩ (.lineBreak true) []]]
  made := 10

-- Two spans that overlap, the one with the style of the wrapper, the other one past the embed.
theorem innerMarkup_applyBetween_comm_striped :
    ∃ b, LinedBlock striped ⟨0⟩ b ∧
      ((striped.applyBetween ⟨0⟩ 1 6 "i").applyBetween ⟨0⟩ 3 9 "b").innerMarkup ⟨0⟩ =
        ((striped.applyBetween ⟨0⟩ 3 9 "b").applyBetween ⟨0⟩ 1 6 "i").innerMarkup ⟨0⟩ ∧
      ((striped.applyBetween ⟨0⟩ 1 6 "i").applyBetween ⟨0⟩ 3 9 "b").innerMarkup ⟨0⟩ ≠
        (striped.applyBetween ⟨0⟩ 1 6 "i").innerMarkup ⟨0⟩ := by
  have h : LinedBlock striped ⟨0⟩ _ := ⟨by decide, rfl, rfl, by decide, by decide, by decide⟩
  exact ⟨_, h, innerMarkup_applyBetween_comm h 1 6 3 9 "i" "b", by decide +kernel⟩

def burdened : Tree where
  roots := [.mk ⟨0⟩ (.block "p" 0 true) [
    .mk ⟨1⟩ (.wrapper (.single "s")) [.mk ⟨2⟩ (.text "a") []],
    .mk ⟨3⟩ (.text "bc") [.mk ⟨4⟩ (.text "d") []],
    .mk ⟨5⟩ (.lineBreak false) [],
    .mk ⟨6⟩ (.text "ef") []]]
  made := 7

-- Offsets that led past the text beneath the other one lead elsewhere once a wrapper has absorbed
-- that other one.
theorem innerMarkup_applyBetween_comm_burdened :
    burdened.WellFormed ∧ Canonical.IsFlat (burdened.children ⟨0⟩) ∧
      (∀ w ∈ burdened.children ⟨0⟩, w.isWrapper →
        ∀ n ∈ w.children, n.isText ∨ n.kind = .lineBreak false) ∧
      5 ≤ burdened.charCount ⟨0⟩ ∧
      ((burdened.applyBetween ⟨0⟩ 0 4 "s").applyBetween ⟨0⟩ 4 5 "t").innerMarkup ⟨0⟩ ≠
        ((burdened.applyBetween ⟨0⟩ 4 5 "t").applyBetween ⟨0⟩ 0 4 "s").innerMarkup ⟨0⟩ :=
  ⟨by decide, by decide, by decide, by decide, by decide +kernel⟩

def stacked : Tree where
  roots := [.mk ⟨0⟩ (.block "p" 0 true) [
    .mk ⟨1⟩ (.wrapper (.single "i")) [
      .mk ⟨2⟩ (.lineBreak false) [],
      .mk ⟨3⟩ (.lineBreak false) [.mk ⟨4⟩ (.lineBreak false) []],
      .mk ⟨5⟩ (.text "b") []],
    .mk ⟨6⟩ (.text "c") []]]
  made := 7

theorem innerMarkup_applyBetween_comm_stacked :
    stacked.WellFormed ∧ Canonical.IsFlat (stacked.children ⟨0⟩) ∧
      (∀ w ∈ stacked.children ⟨0⟩, w.isWrapper →
        ∀ n ∈ w.children, n.isText ∨ n.kind = .lineBreak false) ∧
      4 ≤ stacked.charCount ⟨0⟩ ∧
      ((stacked.applyBetween ⟨0⟩ 2 3 "b").applyBetween ⟨0⟩ 1 4 "s").innerMarkup ⟨0⟩ ≠
        ((stacked.applyBetween ⟨0⟩ 1 4 "s").applyBetween ⟨0⟩ 2 3 "b").innerMarkup ⟨0⟩ :=
  ⟨by decide, by decide, by decide, by decide, by decide +kernel⟩

end Tree

end RichText
