import RichText.Arena.Canonical
import RichText.Proofs.Arena.Holds
import RichText.Proofs.Tidied

namespace RichText

namespace Pass

@[simp]
theorem isChange_drop (n : Node) (p : Pass) : (p.drop n).isChange = true := by
  simp [isChange, drop]

@[simp]
theorem isChange_keep (n : Node) (p : Pass) : (p.keep n).isChange = p.isChange :=
  rfl

theorem isChange_append (p q : Pass) : (p.append q).isChange = (p.isChange || q.isChange) := by
  cases h : p.dropped <;> simp [isChange, append, h]

@[simp]
theorem kept_andThen (p : Pass) (f : List Node → Pass) : (p.andThen f).kept = (f p.kept).kept :=
  rfl

@[simp]
theorem dropped_andThen (p : Pass) (f : List Node → Pass) :
    (p.andThen f).dropped = p.dropped ++ (f p.kept).dropped :=
  rfl

@[simp]
theorem isChange_andThen (p : Pass) (f : List Node → Pass) :
    (p.andThen f).isChange = (p.isChange || (f p.kept).isChange) := by
  cases h : p.dropped <;> simp [isChange, andThen, h]

theorem each_cons (f : Node → Pass) (n : Node) (ns : List Node) :
    each f (n :: ns) = (f n).append (each f ns) :=
  rfl

end Pass

namespace Node

theorem text?_eq_empty_iff {n : Node} : n.kind.text? = some "" ↔ n.isEmptyText := by
  obtain ⟨i, k, cs⟩ := n
  cases k <;> simp [isEmptyText, isText, text, Kind.isText, Kind.text?]

end Node

namespace Arena

open Canonical

-- That a pass over some of the children of a node ends, tells whether it changed anything, and leaves
-- the arena with those that it keeps in their place.
def Passes (n : Nat) (p : NodeId) (k : Kind) (is js : List NodeId) (R : Multiset Cell)
    (changed : Bool) (q : Pass) (r : Option (Bool × Arena)) : Prop :=
  ∃ a', r = some (changed || q.isChange, a') ∧
    a'.Stores n (family p k is q.kept js (Node.cells q.dropped + R))

variable {a : Arena} {p c d : NodeId} {k : Kind} {n index : Nat} {R : Multiset Cell}
  {is js : List NodeId} {ns : List Node} {held m : Node} {changed : Bool} {q : Pass}
  {r : Option (Bool × Arena)}

theorem Stores.text?_family (h : a.Stores n (family p k is (m :: ns) js R)) :
    a.text? m.id = some "" ↔ m.isEmptyText := by
  rw [text?_eq h.kind?_family, Node.text?_eq_empty_iff]

namespace Passes

theorem drop (h : Passes n p k is js (Node.cells [m] + R) true q r) :
    Passes n p k is js R changed (q.drop m) r := by
  obtain ⟨a', hr, h'⟩ := h
  refine ⟨a', by simpa using hr, h'.of_eq ?_⟩
  simp [family, Pass.drop, ← Multiset.singleton_add]
  abel

theorem keep (h : Passes n p k (is ++ [m.id]) js (Node.cells [m] + R) changed q r) :
    Passes n p k is js R changed (q.keep m) r := by
  obtain ⟨a', hr, h'⟩ := h
  refine ⟨a', by simpa using hr, h'.of_eq ?_⟩
  simp [family, Pass.keep, ← Multiset.singleton_add]
  abel

end Passes

-- A pass over siblings that treats each one on its own, and leaves some aside that it would not change.
theorem passes_each {f : Node → Pass} {isTreated : Node → Bool}
    {step : Bool × Arena → NodeId → Option (Bool × Arena)}
    (hskip : ∀ m, isTreated m = false → f m = .unchanged [m])
    (hstep : ∀ {a is js m R} (c : Bool), isTreated m → a.Stores n (family p k is [m] js R) →
      Passes n p k is js R c (f m) (step (c, a) m.id))
    (h : a.Stores n (family p k is ns js R)) :
    Passes n p k is js R changed (.each f ns)
      (((ns.filter isTreated).map Node.id).foldlM step (changed, a)) := by
  induction ns generalizing a is R changed with
  | nil =>
    exact ⟨a, by simp [Pass.each, Pass.unchanged, Pass.isChange],
      h.of_eq (by simp [Pass.each, Pass.unchanged])⟩
  | cons m ns ih =>
    rw [Pass.each_cons]
    cases hm : isTreated m with
    | true =>
      have hf := h.of_eq (q := family p k is [m] (ns.map Node.id ++ js) (Node.cells ns + R))
        (by simp [family, ← Multiset.singleton_add]; abel)
      obtain ⟨b, hr, hb⟩ := hstep changed hm hf
      have hb := hb.of_eq (q := family p k (is ++ (f m).kept.map Node.id) ns js
        (Node.cells (f m).kept + Node.cells (f m).dropped + R)) (by simp [family]; abel)
      obtain ⟨a', hr', h'⟩ := @ih _ _ _ (changed || (f m).isChange) hb
      refine ⟨a', ?_, h'.of_eq ?_⟩
      · rw [List.filter_cons_of_pos hm, List.map_cons, List.foldlM_cons, hr, Pass.isChange_append,
          ← Bool.or_assoc]
        exact hr'
      · simp [family, Pass.append]
        abel
    | false =>
      obtain ⟨a', hr', h'⟩ := @ih _ _ _ changed h.next_family
      rw [hskip m hm]
      refine ⟨a', ?_, h'.of_eq ?_⟩
      · rw [List.filter_cons_of_neg (by simp [hm]), Pass.isChange_append]
        simpa [Pass.unchanged, Pass.isChange] using hr'
      · simp [family, Pass.append, Pass.unchanged, ← Multiset.singleton_add]
        abel

section MergeTexts

theorem mergeTextsFrom_of_none (hc : a.child? p index = none) :
    a.mergeTextsFrom p changed index = some (changed, a) := by
  rw [mergeTextsFrom, hc]

theorem mergeTextsFrom_of_empty (hc : a.child? p index = some c) (ht : a.text? c = some "") :
    a.mergeTextsFrom p changed index = (a.detach c).mergeTextsFrom p true index := by
  rw [mergeTextsFrom, hc]
  exact if_pos ht

theorem mergeTextsFrom_of_texts (hc : a.child? p index = some c) (ht : a.text? c ≠ some "")
    (hd : a.child? p (index + 1) = some d) (hcd : (a.isText c && a.isText d) = true) :
    a.mergeTextsFrom p changed index =
      ((a.mapText c (· ++ a.text d)).detach d).mergeTextsFrom p true index := by
  rw [mergeTextsFrom, hc]
  simp only [if_neg ht, hd, if_pos hcd]

theorem mergeTextsFrom_of_kept (hc : a.child? p index = some c) (ht : a.text? c ≠ some "")
    (hd : ∀ d, a.child? p (index + 1) = some d → (a.isText c && a.isText d) = false) :
    a.mergeTextsFrom p changed index = a.mergeTextsFrom p changed (index + 1) := by
  rw [mergeTextsFrom, hc]
  simp only [if_neg ht]
  split
  case h_1 d h => simp only [hd d h, Bool.false_eq_true, if_false]
  case h_2 => rfl

theorem passes_mergeTextsFrom (h : a.Stores n (family p k is (held :: ns) [] R)) :
    Passes n p k is [] R changed (mergeTextsInto held ns)
      (a.mergeTextsFrom p changed is.length) := by
  induction held, ns using mergeTextsInto.induct generalizing a is R changed with
  | case1 held hn =>
    have hd := h.detach_family
    rw [mergeTextsFrom_of_empty h.child?_family (h.text?_family.mpr hn),
      mergeTextsFrom_of_none (by simp [child?, hd.children_head]), mergeTextsInto, if_pos hn]
    exact ⟨_, by simp [Pass.isChange], hd⟩
  | case2 held hn =>
    rw [mergeTextsFrom_of_kept h.child?_family (mt h.text?_family.mp hn)
        (by simp [child?, h.children_head]),
      mergeTextsFrom_of_none (by simp [child?, h.children_head]), mergeTextsInto, if_neg hn]
    exact ⟨a, by simp [Pass.isChange], h.of_eq (by simp)⟩
  | case3 held m ns hn ih =>
    rw [mergeTextsFrom_of_empty h.child?_family (h.text?_family.mpr hn), mergeTextsInto, if_pos hn]
    exact .drop (ih h.detach_family)
  | case4 held m ns hn htm ih =>
    have hm := h.next_family.kind?_family
    have hcm := h.next_family.child?_family
    have hcm : a.child? p (is.length + 1) = some m.id := by simpa using hcm
    have hw := (h.mapKind_family (·.mapText (· ++ a.text m.id))).next_family.detach_family
    rw [mergeTextsFrom_of_texts h.child?_family (mt h.text?_family.mp hn) hcm
      (by rwa [isText_eq h.kind?_family, isText_eq hm]), mergeTextsInto, if_neg hn, if_pos htm]
    refine .drop (ih ?_)
    rw [text_eq hm] at hw ⊢
    exact hw.of_eq (by simp [family, Node.appendText, Node.text, ← Multiset.singleton_add]; abel)
  | case5 held m ns hn htm ih =>
    have hm := h.next_family.kind?_family
    have hcm := h.next_family.child?_family
    have hcm : a.child? p (is.length + 1) = some m.id := by simpa using hcm
    rw [mergeTextsFrom_of_kept h.child?_family (mt h.text?_family.mp hn) fun d hd => ?_,
      mergeTextsInto, if_neg hn, if_neg htm]
    · exact .keep (by simpa using ih h.next_family)
    · obtain rfl := Option.some.inj (hcm.symm.trans hd)
      simpa [isText_eq h.kind?_family, isText_eq hm, Node.isText] using htm

theorem passes_mergeTexts (h : a.Stores n (family p k [] ns [] R)) :
    Passes n p k [] [] R false (Canonical.mergeTexts ns) (a.mergeTexts p) := by
  cases ns with
  | nil =>
    refine ⟨a, mergeTextsFrom_of_none (by simp [child?, h.children_head]), h.of_eq ?_⟩
    simp [Canonical.mergeTexts, Pass.unchanged]
  | cons held ns => exact passes_mergeTextsFrom h

end MergeTexts

theorem wrappers_eq (h : a.Stores n (family p k [] ns [] R)) :
    a.wrappers p = (ns.filter Node.isWrapper).map Node.id := by
  have hw (m : Node) (hm : m ∈ ns) : a.isWrapper m.id = m.isWrapper := by
    have hx : m.cell ∈ Node.cells ns := Node.mem_cells.mpr ⟨m, Node.mem_preorderAll_of_mem hm, rfl⟩
    rw [isWrapper_eq (h.kind?_node (x := m) (by simp [family, hx])), Node.isWrapper]
  rw [wrappers, h.children_head, List.nil_append, List.append_nil, List.filter_map]
  exact congrArg _ (List.filter_congr hw)

theorem passes_mergeTextsInWrappers (h : a.Stores n (family p k [] ns [] R)) :
    Passes n p k [] [] R false (Canonical.mergeTextsInWrappers ns) (a.mergeTextsInWrappers p) := by
  rw [Arena.mergeTextsInWrappers, wrappers_eq h]
  refine passes_each (fun m hm => by rw [if_neg (by simp [hm])]; rfl) ?_ h
  intro a is js m R changed hm h
  have h := h.of_eq (q := family m.id m.kind [] m.children [] (⟨p, k, is ++ [m.id] ++ js⟩ ::ₘ R))
    (by simp [family, Node.cell, ← Multiset.singleton_add]; abel)
  obtain ⟨a', hr, h'⟩ := passes_mergeTexts h
  rw [if_pos hm]
  refine ⟨a', by simp [hr]; rfl, h'.of_eq ?_⟩
  simp [family, Node.cell, ← Multiset.singleton_add]
  abel

theorem passes_unwrapUnstyled (h : a.Stores n (family p k [] ns [] R)) :
    Passes n p k [] [] R false (Canonical.unwrapUnstyled ns) (some (a.unwrapUnstyled p)) := by
  rw [Arena.unwrapUnstyled, wrappers_eq h, ← Option.pure_def, ← List.foldlM_pure]
  refine passes_each (fun m hm => ?_) ?_ h
  · rw [Node.dissolve, if_neg fun e => by simp [Node.isWrapper, e, Kind.isWrapper] at hm]
    rfl
  · intro a is js m R changed hm h
    have hs : (a.styles? m.id).any StyleSet.isEmpty ↔ m.kind = .wrapper ∅ := by
      rw [styles?_eq h.kind?_family]
      cases m.kind <;> simp [Kind.styles?, StyleSet.isEmpty_iff]
    dsimp only
    rw [Node.dissolve]
    by_cases he : m.kind = .wrapper ∅
    · rw [if_pos he, if_pos (hs.mpr he)]
      exact ⟨_, by simp [Pass.isChange], h.unwrap_family.of_eq (by simp)⟩
    · rw [if_neg he, if_neg (mt hs.mp he)]
      exact ⟨a, by simp [Pass.isChange], h.of_eq (by simp)⟩

theorem passes_dropEmptyWrappers (h : a.Stores n (family p k [] ns [] R)) :
    Passes n p k [] [] R false (Canonical.dropEmptyWrappers ns) (some (a.dropEmptyWrappers p)) := by
  rw [Arena.dropEmptyWrappers, wrappers_eq h, ← Option.pure_def, ← List.foldlM_pure]
  refine passes_each (fun m hm => by rw [if_neg (by simp [hm])]; rfl) ?_ h
  intro a is js m R changed hm h
  dsimp only
  rw [h.children_family, List.isEmpty_map, hm, Bool.true_and]
  split
  case isTrue => exact ⟨_, by simp [Pass.isChange], h.detach_family⟩
  case isFalse => exact ⟨a, by simp [Pass.isChange], h.of_eq (by simp)⟩

section MergeWrappers

theorem moveAll_of_cells {q : NodeId} {k' : Kind} {cs ds : List NodeId}
    (h : a.Stores n (⟨p, k, cs⟩ ::ₘ ⟨q, k', ds⟩ ::ₘ R)) :
    ∃ a', a.moveAll p q = some a' ∧ a'.Stores n (⟨p, k, []⟩ ::ₘ ⟨q, k', ds ++ cs⟩ ::ₘ R) := by
  induction cs generalizing a ds with
  | nil =>
    rw [moveAll, firstChild?, h.children_head]
    exact ⟨a, rfl, by simpa using h⟩
  | cons c cs ih =>
    obtain ⟨a', hr, h'⟩ := ih (Stores.moveTo (show a.Stores n (⟨p, k, [] ++ c :: cs⟩ ::ₘ _) from h))
    rw [moveAll, firstChild?, h.children_head]
    exact ⟨a', hr, by simpa using h'⟩

theorem mergeWrappersFrom_of_none (hd : a.child? p (index + 1) = none) :
    a.mergeWrappersFrom p changed index = some (changed, a) := by
  rw [mergeWrappersFrom, hd]
  split <;> simp_all

theorem mergeWrappersFrom_of_same (hc : a.child? p index = some c)
    (hd : a.child? p (index + 1) = some d) (hs : a.sameStyles c d) :
    a.mergeWrappersFrom p changed index =
      (a.moveAll d c).bind fun a => (a.detach d).mergeWrappersFrom p true index := by
  rw [mergeWrappersFrom, hc, hd]
  exact if_pos hs

theorem mergeWrappersFrom_of_kept (hc : a.child? p index = some c)
    (hd : a.child? p (index + 1) = some d) (hs : ¬a.sameStyles c d) :
    a.mergeWrappersFrom p changed index = a.mergeWrappersFrom p changed (index + 1) := by
  rw [mergeWrappersFrom, hc, hd]
  exact if_neg hs

theorem sameStyles_eq {m m' : Node} (h : a.kind? m.id = some m.kind)
    (h' : a.kind? m'.id = some m'.kind) : a.sameStyles m.id m'.id = m.sameStyles m' := by
  rw [sameStyles, styles?_eq h, styles?_eq h', Node.sameStyles]
  cases m.kind <;> cases m'.kind <;> rfl

theorem passes_mergeWrappersFrom (h : a.Stores n (family p k is (held :: ns) [] R)) :
    Passes n p k is [] R changed (mergeWrappersInto held ns)
      (a.mergeWrappersFrom p changed is.length) := by
  induction held, ns using mergeWrappersInto.induct generalizing a is R changed with
  | case1 held =>
    rw [mergeWrappersFrom_of_none (by simp [child?, h.children_head]), mergeWrappersInto]
    exact ⟨a, by simp [Pass.unchanged, Pass.isChange], h.of_eq (by simp [Pass.unchanged])⟩
  | case2 held m ns hs ih =>
    have hm := h.next_family.kind?_family
    have hcm := h.next_family.child?_family
    have hcm : a.child? p (is.length + 1) = some m.id := by simpa using hcm
    have hc := h.of_eq (q := m.cell ::ₘ held.cell ::ₘ ⟨p, k, is ++ (held :: m :: ns).map Node.id⟩ ::ₘ
      (Node.cells held.children + Node.cells m.children + Node.cells ns + R))
      (by simp [family, ← Multiset.singleton_add]; abel)
    obtain ⟨b, hr, hb⟩ := moveAll_of_cells hc
    have hb := hb.of_eq (q := family p k is
      (held.withChildren (held.children ++ m.children) :: m.withChildren [] :: ns) [] R)
      (by simp [family, Node.cell, ← Multiset.singleton_add]; abel)
    have hd := hb.next_family.detach_family.of_eq (q := family p k is
      (held.withChildren (held.children ++ m.children) :: ns) [] (Node.cells [m.withChildren []] + R))
      (by simp [family, Node.cell, ← Multiset.singleton_add]; abel)
    rw [mergeWrappersFrom_of_same h.child?_family hcm (by rwa [sameStyles_eq h.kind?_family hm]), hr,
      mergeWrappersInto, if_pos hs]
    exact .drop (ih hd)
  | case3 held m ns hs ih =>
    have hm := h.next_family.kind?_family
    have hcm := h.next_family.child?_family
    have hcm : a.child? p (is.length + 1) = some m.id := by simpa using hcm
    rw [mergeWrappersFrom_of_kept h.child?_family hcm (by rwa [sameStyles_eq h.kind?_family hm]),
      mergeWrappersInto, if_neg hs]
    exact .keep (by simpa using ih h.next_family)

theorem passes_mergeWrappers (h : a.Stores n (family p k [] ns [] R)) :
    Passes n p k [] [] R false (Canonical.mergeWrappers ns) (a.mergeWrappers p) := by
  cases ns with
  | nil =>
    refine ⟨a, mergeWrappersFrom_of_none (by simp [child?, h.children_head]), h.of_eq ?_⟩
    simp [Canonical.mergeWrappers, Pass.unchanged]
  | cons held ns => exact passes_mergeWrappersFrom h

end MergeWrappers

section Rounds

theorem passes_round (h : a.Stores n (family p k [] ns [] R)) :
    Passes n p k [] [] R false (Canonical.round ns) (a.round p) := by
  obtain ⟨a₁, h₁, h⟩ := passes_mergeTextsInWrappers h
  obtain ⟨a₂, h₂, h⟩ := passes_unwrapUnstyled h
  obtain ⟨a₃, h₃, h⟩ := passes_dropEmptyWrappers h
  obtain ⟨a₄, h₄, h⟩ := passes_mergeWrappers h
  obtain ⟨a₅, h₅, h⟩ := passes_mergeTexts h
  have h₂ := Option.some.inj h₂
  have h₃ := Option.some.inj h₃
  refine ⟨a₅, ?_, h.of_eq ?_⟩
  · simp [Arena.round, h₁, h₂, h₃, h₄, h₅, Canonical.round]
  · simp [family, Canonical.round]
    abel

theorem passes_rounds {ms : List Node} {i : Nat} (hs : Settles ms i q)
    (h : a.Stores n (family p k [] ms [] R)) :
    Passes n p k [] [] R changed q (a.roundsFrom p changed) := by
  induction hs generalizing a R changed with
  | still hc =>
    obtain ⟨a', hr, h'⟩ := passes_round h
    rw [roundsFrom, hr]
    exact ⟨a', by simp [hc], h'⟩
  | again hc _ ih =>
    obtain ⟨b, hr, hb⟩ := passes_round h
    obtain ⟨a', hr', h'⟩ := @ih _ _ true hb
    rw [roundsFrom, hr]
    refine ⟨a', by simpa [hc] using hr', h'.of_eq ?_⟩
    simp [family]
    abel

end Rounds

theorem Holds.canonicalize {t : Tree} {b : Node} (h : a.Holds t) (hb : t.node? p = some b) :
    ∃ a', a.canonicalize p = some ((t.canonicalize p).1, a') ∧
      a'.Holds (t.canonicalize p).2 := by
  obtain ⟨R, hd, hr⟩ := h.draws hb
  obtain ⟨i, _, hs⟩ := exists_settles_canonicalize b.children
  obtain ⟨a', ha, h'⟩ : Passes t.made p b.kind [] [] R false _ (a.roundsFrom p false) :=
    passes_rounds hs (hd.of_eq (by simp))
  have hm := hr a' ⟨(Canonical.canonicalize b.children).kept, (Canonical.canonicalize b.children).dropped,
    t.made⟩ h'
  refine ⟨a', ha.trans (congrArg some (Prod.ext ?_ rfl)), ?_⟩
  · rw [Tree.canonicalize, Tree.children_of_node? hb]
    split <;> simp_all
  · rw [Tree.canonicalize, Tree.children_of_node? hb]
    split
    case isTrue => exact hm
    case isFalse hc =>
      rw [Bool.not_eq_true] at hc
      rw [Pass.isChange_eq_false.mp hc, kept_of_canonicalize (Pass.isChange_eq_false.mp hc)] at hm
      rwa [h.wf.replaceChildren_self hb] at hm

section Tidy

theorem dropLastBreak_concat (init : List Node) (last : Node) :
    Tidy.dropLastBreak (init ++ [last]) =
      if last.kind = .lineBreak false && !(init.getLast?.map (·.kind.isBreak)).getD false then
        ⟨init, [last]⟩
      else .unchanged (init ++ [last]) := by
  simp [Tidy.dropLastBreak]

theorem dropLastBreak_of_family (h : a.Stores n (family p k [] ns [] R)) :
    Passes n p k [] [] R false (Tidy.dropLastBreak ns) (some (a.dropLastBreak p)) := by
  cases ns using List.reverseRecOn with
  | nil =>
    have hl : a.lastChild? p = none := by simp [lastChild?, h.children_head]
    rw [Arena.dropLastBreak, hl]
    exact ⟨a, by simp [Tidy.dropLastBreak, Pass.unchanged, Pass.isChange],
      h.of_eq (by simp [Tidy.dropLastBreak, Pass.unchanged])⟩
  | append_singleton init last =>
    have h' := h.of_eq (q := family p k (init.map Node.id) [last] [] (Node.cells init + R))
      (by simp [family, ← Multiset.singleton_add]; abel)
    have hl : a.lastChild? p = some last.id := by simp [lastChild?, h.children_head]
    have hp : a.prev? last.id = init.getLast?.map Node.id := by
      rw [h.paired.prev?_eq (h.children_head.trans (show _ = init.map Node.id ++ last.id :: [] by simp)),
        List.getLast?_map]
    have hb : (a.prev? last.id).any a.isBreak = (init.getLast?.map (·.kind.isBreak)).getD false := by
      rw [hp]
      cases hi : init.getLast? with
      | none => rfl
      | some m =>
        have hm := Node.mem_preorderAll_of_mem (List.mem_of_getLast? hi)
        have hx : m.cell ∈ Node.cells init := Node.mem_cells.mpr ⟨m, hm, rfl⟩
        simp [isBreak_eq (h'.kind?_node (x := m) (by simp [family, hx]))]
    rw [Arena.dropLastBreak, hl, dropLastBreak_concat]
    simp only [h'.kind?_family, hb, Option.some.injEq]
    split
    case isTrue => exact ⟨_, by simp [Pass.isChange], h'.detach_family.of_eq (by simp [family]; abel)⟩
    case isFalse => exact ⟨a, by simp [Pass.unchanged, Pass.isChange], h.of_eq (by simp [Pass.unchanged])⟩

theorem guardFirst_of_family (h : a.Stores n (family p k [] ns [] R)) :
    ∃ a', a.guardFirst p = (decide (Tidy.guardFirst ns ≠ ns), a') ∧
      a'.Stores n (family p k [] (Tidy.guardFirst ns) [] R) := by
  cases ns with
  | nil =>
    have hf : a.firstChild? p = none := by simp [firstChild?, h.children_head]
    rw [Arena.guardFirst, hf]
    exact ⟨a, rfl, h⟩
  | cons m ns =>
    have hf : a.firstChild? p = some m.id := by simp [firstChild?, h.children_head]
    rw [Arena.guardFirst, hf]
    simp only [text_eq h.kind?_family]
    obtain ⟨hs, e⟩ | ⟨_, _, s, hc, hk, e⟩ := Tidy.guardFirst_cases (m :: ns)
    case inl =>
      split
      case h_1 cs hcs =>
        cases hk : m.kind with
        | text s =>
          refine absurd (hk.trans (congrArg Kind.text ?_)) (hs m rfl (.ofList cs))
          rw [hk] at hcs
          exact String.toList_inj.mp (by simpa [Kind.text?] using hcs)
        | _ => simp [hk, Kind.text?] at hcs
      case h_2 => exact ⟨a, by simp [e], by rwa [e]⟩
    case inr =>
      obtain ⟨rfl, rfl⟩ := List.cons.inj hc
      have hg := h.mapKind_family (·.mapText Tidy.guardText)
      have hne : Tidy.guardFirst (m :: ns) ≠ m :: ns := by
        rw [e]
        intro he
        have := congrArg Node.kind (List.cons.inj he).left
        simp [hk] at this
      simp only [hk, Kind.text?, Option.getD_some, String.toList_append]
      exact ⟨_, by simp [hne, mapText], hg⟩

theorem Holds.tidy {t : Tree} {b : Node} (h : a.Holds t) (hb : t.node? p = some b) :
    ∃ a', a.tidy p = ((t.tidy p).1, a') ∧ a'.Holds (t.tidy p).2 := by
  obtain ⟨R, hd, hr⟩ := h.draws hb
  obtain ⟨a₁, h₁, hs⟩ := dropLastBreak_of_family
    (hd.of_eq (q := family p b.kind [] b.children [] R) (by simp))
  obtain ⟨a₂, h₂, hs⟩ := guardFirst_of_family hs
  have hm := hr a₂ ⟨(Tidy.pass b.children).kept, (Tidy.pass b.children).dropped, t.made⟩ hs
  refine ⟨a₂, ?_, h.wf.tidy_eq hb ▸ hm⟩
  rw [Arena.tidy, Option.some.inj h₁]
  simp only [h₂, Tree.tidy, Tree.children_of_node? hb]
  split <;> simp_all

end Tidy

end Arena

end RichText
