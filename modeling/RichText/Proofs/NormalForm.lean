import RichText.Document
import RichText.Proofs.Canonical
import RichText.Proofs.Joined

namespace RichText

namespace Inline

open Markup

def markup : Inline → List Char
  | run r =>
    let text := escape r.text.toList
    if r.styles = ∅ then text
    else startTag "span" [("class", r.styles.classes)] ++ text ++ stopTag "span"
  | lineBreak => startTag "br" []

end Inline

namespace Node

-- Styled text and nothing else: a text, a break that takes an offset, or a wrapper around texts.
def isInline : Node → Bool
  | mk _ k cs =>
    match k with
    | .text _ => true
    | .lineBreak trailing => !trailing
    | .wrapper _ => cs.all isText
    | _ => false

def toInline : Node → Inline
  | mk _ k cs =>
    match k with
    | .text s => .run ⟨s, ∅⟩
    | .wrapper styles => .run ⟨String.join (cs.map text), styles⟩
    | _ => .lineBreak

variable {n m : Node}

theorem isInline_of_isText (h : n.isText) : n.isInline := by
  have ⟨i, k, cs⟩ := n
  cases k <;> first | rfl | contradiction

theorem isInline_of_isWrapper (h : n.isWrapper) : n.isInline ↔ ∀ c ∈ n.children, c.isText := by
  have ⟨i, k, cs⟩ := n
  cases k <;> first | contradiction | simp [isInline]

section Single

variable (h : n.isInline) (hw : n.isWrapper → ∃ c, n.children = [c])

include h hw

theorem inlines_of_isInline : n.inlines ∅ = [n.toInline] := by
  have ⟨i, k, cs⟩ := n
  cases k
  case text => rfl
  case lineBreak trailing => cases trailing <;> first | rfl | contradiction
  case wrapper own =>
    obtain ⟨c, rfl⟩ : ∃ c, cs = [c] := hw rfl
    have ⟨s, hs⟩ := isText_iff.mp ((isInline_of_isWrapper rfl).mp h c (.head _))
    have ⟨i', k', cs'⟩ := c
    rw [kind_mk] at hs
    simp [inlines, inlinesAmong, toInline, text, hs, Kind.text?, String.join_cons]
  all_goals contradiction

theorem markup_of_isInline (hk : n.kind ≠ .wrapper ∅) : n.markup = n.toInline.markup := by
  have ⟨i, k, cs⟩ := n
  cases k
  case text s => simp [markup, toInline, Inline.markup]
  case lineBreak trailing => cases trailing <;> first | rfl | contradiction
  case wrapper own =>
    obtain ⟨c, rfl⟩ : ∃ c, cs = [c] := hw rfl
    obtain ⟨s, hs⟩ := isText_iff.mp ((isInline_of_isWrapper rfl).mp h c (.head _))
    obtain ⟨i', k', cs'⟩ := c
    have ho : own ≠ ∅ := fun e => hk (e ▸ rfl)
    rw [kind_mk] at hs
    simp [markup, markupAll, toInline, Inline.markup, text, hs, Kind.text?, Kind.asElement, ho,
      String.join_cons]
  all_goals contradiction

end Single

end Node

namespace Canonical

open Node

variable {ns : List Node}

-- No pass makes anything but styled text of styled text.
section Passes

theorem forall_mergeTextsInto {q : Node → Prop} (hq : ∀ n s, n.isText → q n → q (n.appendText s))
    (held : Node) (ns : List Node) (h : ∀ n ∈ held :: ns, q n) :
    ∀ n ∈ (mergeTextsInto held ns).kept, q n := by
  fun_induction mergeTextsInto held ns with
  | case1 => exact fun _ hn => absurd hn List.not_mem_nil
  | case2 => exact h
  | case3 held n ns _ ih => exact ih fun m hm => h m (.tail _ hm)
  | case4 held n ns _ ht ih =>
    rw [Bool.and_eq_true] at ht
    simp_all [Pass.drop]
  | case5 held n ns _ _ ih => simp_all [Pass.keep]

theorem forall_mergeTexts {q : Node → Prop} (hq : ∀ n s, n.isText → q n → q (n.appendText s))
    (h : ∀ n ∈ ns, q n) : ∀ n ∈ (mergeTexts ns).kept, q n := by
  cases ns with
  | nil => exact h
  | cons n ns => exact forall_mergeTextsInto hq n ns h

theorem forall_each {f : Node → Pass} {q : Node → Prop} (h : ∀ n ∈ ns, q n)
    (hf : ∀ n, q n → ∀ m ∈ (f n).kept, q m) : ∀ n ∈ (Pass.each f ns).kept, q n := by
  intro m hm
  rw [Pass.kept_each] at hm
  have ⟨n, hn, hm⟩ := List.mem_flatMap.mp hm
  exact hf n (h n hn) m hm

variable (h : ∀ n ∈ ns, n.isInline)

include h

theorem isInline_mergeTexts : ∀ n ∈ (mergeTexts ns).kept, n.isInline :=
  forall_mergeTexts (fun _ s ht _ => isInline_of_isText (isText_appendText ht s)) h

theorem isInline_mergeTextsInWrappers : ∀ n ∈ (mergeTextsInWrappers ns).kept, n.isInline := by
  refine forall_each h fun n hn => ?_
  split
  case isTrue hw =>
    have hc := (isInline_of_isWrapper hw).mp hn
    have hw' : (n.withChildren (mergeTexts n.children).kept).isWrapper := hw
    simpa [isInline_of_isWrapper hw'] using forall_mergeTexts (fun _ s ht _ => isText_appendText ht s) hc
  case isFalse => simpa using hn

theorem isInline_unwrapUnstyled : ∀ n ∈ (unwrapUnstyled ns).kept, n.isInline := by
  refine forall_each h fun n hn => ?_
  rw [dissolve]
  split
  case isTrue hk =>
    have hw : n.isWrapper := by simp [isWrapper, Kind.isWrapper, hk]
    exact fun m hm => isInline_of_isText ((isInline_of_isWrapper hw).mp hn m hm)
  case isFalse => simpa using hn

theorem isInline_dropEmptyWrappers : ∀ n ∈ (dropEmptyWrappers ns).kept, n.isInline := by
  refine forall_each h fun n hn => ?_
  split
  case isTrue => exact nofun
  case isFalse => simpa using hn

theorem isInline_mergeWrappers : ∀ n ∈ (mergeWrappers ns).kept, n.isInline := by
  have into (held : Node) (ns : List Node) (h : ∀ n ∈ held :: ns, n.isInline) :
      ∀ n ∈ (mergeWrappersInto held ns).kept, n.isInline := by
    fun_induction mergeWrappersInto held ns with
    | case1 => exact h
    | case2 held n ns hs ih =>
      obtain ⟨s, hk, hk'⟩ := sameStyles_iff.mp hs
      have hw : held.isWrapper := by simp [isWrapper, Kind.isWrapper, hk]
      have hw' : n.isWrapper := by simp [isWrapper, Kind.isWrapper, hk']
      have hm : (held.withChildren (held.children ++ n.children)).isInline := by
        refine (isInline_of_isWrapper (n := held.withChildren _) hw).mpr fun c hc => ?_
        cases List.mem_append.mp hc
        case inl hc => exact (isInline_of_isWrapper hw).mp (h _ (.head _)) c hc
        case inr hc => exact (isInline_of_isWrapper hw').mp (h _ (.tail _ (.head _))) c hc
      simp_all [Pass.drop]
    | case3 held n ns _ ih => simp_all [Pass.keep]
  cases ns with
  | nil => exact h
  | cons n ns => exact into n ns h

theorem isInline_canonicalize : ∀ n ∈ (canonicalize ns).kept, n.isInline :=
  rounds_induction (q := fun ns => ∀ n ∈ ns, n.isInline) (fun _ h =>
    isInline_mergeTexts <| isInline_mergeWrappers <| isInline_dropEmptyWrappers <|
      isInline_unwrapUnstyled <| isInline_mergeTextsInWrappers h) _ ns h

end Passes

theorem Merged.exists_eq_singleton (h : Merged ns) (ht : ∀ n ∈ ns, n.isText) (hn : ns ≠ []) :
    ∃ n, ns = [n] := by
  match ns with
  | [] => contradiction
  | [n] => exact ⟨n, rfl⟩
  | n :: m :: ns =>
    exact absurd ⟨ht n (.head _), ht m (.tail _ (.head _))⟩ (List.isChain_cons_cons.mp h.apart).left

namespace IsCanonical

variable (h : IsCanonical ns) (hi : ∀ n ∈ ns, n.isInline)

include h hi

theorem exists_child (hn : n ∈ ns) (hw : n.isWrapper) : ∃ c, n.children = [c] :=
  (h.mergedInside n hn hw).exists_eq_singleton ((isInline_of_isWrapper hw).mp (hi n hn))
    (h.nonempty n hn hw)

theorem inlinesAmong_eq_map : inlinesAmong ∅ ns = ns.map toInline := by
  have he (ns : List Node) : inlinesAmong ∅ ns = ns.flatMap (inlines ∅) := by
    induction ns with
    | nil => rfl
    | cons n ns ih => rw [inlinesAmong, ih, List.flatMap_cons]
  rw [he, List.map_eq_flatMap]
  exact List.flatMap_congr fun n hn => inlines_of_isInline (hi n hn) (h.exists_child hi hn)

theorem isEmpty_toInline (hn : n ∈ ns) : n.toInline.isEmpty = false := by
  have hc := h.exists_child hi hn
  have ht := h.mergedInside n hn
  have he := h.merged.nonempty n hn
  have hi := hi n hn
  have ⟨i, k, cs⟩ := n
  cases k
  case text s => simpa [isEmptyText, isText, Kind.isText, text, Kind.text?, toInline, Inline.isEmpty] using he
  case lineBreak => rfl
  case wrapper own =>
    obtain ⟨c, rfl⟩ : ∃ c, cs = [c] := hc rfl
    have hct := (isInline_of_isWrapper rfl).mp hi c (.head _)
    have hce := (ht rfl).nonempty c (.head _)
    simpa [isEmptyText, hct, toInline, Inline.isEmpty, String.join_cons] using hce
  all_goals contradiction

omit hi in
theorem isChain_toInline : (ns.map toInline).IsChain Inline.Apart := by
  rw [List.isChain_map, List.isChain_iff_getElem]
  intro j hj r r' hr hr' e
  have ht := h.merged.apart.getElem j hj
  have hd := h.distinct.getElem j hj
  have hs := h.styled _ (List.getElem_mem (Nat.lt_of_succ_lt hj))
  have hs' := h.styled _ (List.getElem_mem hj)
  generalize ns[j] = n at *
  generalize ns[j + 1] = m at *
  have ⟨i, k, cs⟩ := n
  have ⟨i', k', cs'⟩ := m
  cases k <;> cases k' <;> simp_all [toInline, isText, Kind.isText, sameStyles] <;> grind

theorem markupAll_eq : markupAll ns = (inlinesAmong ∅ ns).flatMap Inline.markup := by
  rw [markupAll_eq_flatMap, h.inlinesAmong_eq_map hi, List.flatMap_map]
  exact List.flatMap_congr fun n hn =>
    markup_of_isInline (hi n hn) (h.exists_child hi hn) (h.styled n hn)

theorem join_inlinesAmong : Inline.join (inlinesAmong ∅ ns) = inlinesAmong ∅ ns := by
  rw [h.inlinesAmong_eq_map hi]
  refine Inline.join_of_apart (fun i hm => ?_) h.isChain_toInline
  have ⟨n, hn, e⟩ := List.mem_map.mp hm
  exact e ▸ h.isEmpty_toInline hi hn

end IsCanonical

end Canonical

namespace Tree

variable {t t' : Tree} {i j : NodeId} {b b' : Node}

theorem runs_canonicalize (hb : t.node? i = some b) :
    (t.canonicalize i).2.runs i = t.runs i := by
  rw [runs_eq_iff, glyphs_of_node? hb, glyphs_of_node? (node?_canonicalize hb)]
  exact Canonical.glyphs_canonicalize b.children

theorem innerMarkup_canonicalize (hb : t.node? i = some b) (hi : ∀ n ∈ b.children, n.isInline) :
    (t.canonicalize i).2.innerMarkup i = .ofList ((t.runs i).flatMap Inline.markup) := by
  have hb' := node?_canonicalize hb
  have hc := Canonical.isCanonical_canonicalize b.children
  have hi' := Canonical.isInline_canonicalize hi
  rw [← runs_canonicalize hb, runs, innerMarkup, hb', Option.map_some, Option.map_some,
    Option.getD_some, Option.getD_some, Node.runs, Node.innerMarkup, Node.children_withChildren,
    hc.join_inlinesAmong hi', hc.markupAll_eq hi']

-- However styled text is cut into texts and wrappers, there is one canonical form: it has the runs
-- of the text, and is written as one node for each of them.
theorem innerMarkup_canonicalize_of_runs (hb : t.node? i = some b) (hb' : t'.node? j = some b')
    (hi : ∀ n ∈ b.children, n.isInline) (hi' : ∀ n ∈ b'.children, n.isInline)
    (h : t.runs i = t'.runs j) :
    (t.canonicalize i).2.runs i = t.runs i ∧ (t'.canonicalize j).2.runs j = t.runs i ∧
    (t.canonicalize i).2.innerMarkup i = .ofList ((t.runs i).flatMap Inline.markup) ∧
    (t'.canonicalize j).2.innerMarkup j = (t.canonicalize i).2.innerMarkup i :=
  ⟨runs_canonicalize hb, (runs_canonicalize hb').trans h.symm, innerMarkup_canonicalize hb hi, by
    rw [innerMarkup_canonicalize hb hi, innerMarkup_canonicalize hb' hi', h]⟩

def shredded : Tree where
  roots := [.mk ⟨0⟩ (.block "p" 0 true) [
    .mk ⟨1⟩ (.text "a") [],
    .mk ⟨2⟩ (.text "b") [],
    .mk ⟨3⟩ (.wrapper (.single "i")) [.mk ⟨4⟩ (.text "c") []],
    .mk ⟨5⟩ (.wrapper (.single "u")) [],
    .mk ⟨6⟩ (.wrapper (.single "i")) [.mk ⟨7⟩ (.text "") [], .mk ⟨8⟩ (.text "d") []],
    .mk ⟨9⟩ (.lineBreak false) [],
    .mk ⟨10⟩ (.wrapper ∅) [.mk ⟨11⟩ (.text "e") []]]]
  made := 12

def patched : Tree where
  roots := [.mk ⟨0⟩ (.cell "td" 3) [
    .mk ⟨1⟩ (.wrapper ∅) [.mk ⟨2⟩ (.text "ab") []],
    .mk ⟨3⟩ (.text "") [],
    .mk ⟨4⟩ (.wrapper (.single "i")) [.mk ⟨5⟩ (.text "c") [], .mk ⟨6⟩ (.text "d") []],
    .mk ⟨7⟩ (.lineBreak false) [],
    .mk ⟨8⟩ (.text "e") []]]
  made := 9

theorem innerMarkup_canonicalize_shredded :
    shredded.WellFormed ∧ patched.WellFormed ∧
      (∀ n ∈ shredded.children ⟨0⟩, n.isInline) ∧ (∀ n ∈ patched.children ⟨0⟩, n.isInline) ∧
      shredded.runs ⟨0⟩ = patched.runs ⟨0⟩ ∧
      shredded.innerMarkup ⟨0⟩ ≠ patched.innerMarkup ⟨0⟩ ∧
      (shredded.canonicalize ⟨0⟩).2.runs ⟨0⟩ = shredded.runs ⟨0⟩ ∧
      (patched.canonicalize ⟨0⟩).2.runs ⟨0⟩ = shredded.runs ⟨0⟩ ∧
      (shredded.canonicalize ⟨0⟩).2.innerMarkup ⟨0⟩ =
        "ab<span class=\"i\">cd</span><br>e" ∧
      (patched.canonicalize ⟨0⟩).2.innerMarkup ⟨0⟩ =
        (shredded.canonicalize ⟨0⟩).2.innerMarkup ⟨0⟩ := by
  have hi : ∀ n ∈ shredded.children ⟨0⟩, n.isInline := by decide
  have hi' : ∀ n ∈ patched.children ⟨0⟩, n.isInline := by decide
  have hr : shredded.runs ⟨0⟩ = patched.runs ⟨0⟩ := by decide
  have hb : shredded.node? ⟨0⟩ = some _ := rfl
  have hb' : patched.node? ⟨0⟩ = some _ := rfl
  have ⟨hs, hp, hm, he⟩ := innerMarkup_canonicalize_of_runs hb hb' hi hi' hr
  have hw : String.ofList ((shredded.runs ⟨0⟩).flatMap Inline.markup) =
      "ab<span class=\"i\">cd</span><br>e" := by decide
  exact ⟨by decide, by decide, hi, hi', hr, by decide, hs, hp, hm.trans hw, he⟩

end Tree

end RichText
