import RichText.Proofs.Draft

namespace RichText

namespace Node

variable {n m : Node}

theorem isEmptyText_iff : n.isEmptyText ↔ n.isText ∧ n.items = [] := by
  unfold isEmptyText
  rw [Bool.and_eq_true]
  refine and_congr_right fun h => ?_
  have ⟨s, hs⟩ := isText_iff.mp h
  simp [items_text hs, text, hs, Kind.text?]

theorem items_appendText_text (hn : n.isText) (hm : m.isText) :
    (n.appendText m.text).items = n.items ++ m.items := by
  have ⟨s, hs⟩ := isText_iff.mp hm
  rw [items_appendText hn, items_text hs, text, hs]
  rfl

theorem pieces_appendText_text (hn : n.isText) (hm : m.isText) :
    (n.appendText m.text).pieces = n.pieces ++ m.pieces := by
  simp only [Seat.pieces_of_isText (isText_appendText hn _), Seat.pieces_of_isText hn,
    Seat.pieces_of_isText hm, items_appendText_text hn hm, List.map_append]

theorem sameStyles_iff :
    n.sameStyles m ↔ ∃ s, n.kind = .wrapper s ∧ m.kind = .wrapper s := by
  unfold sameStyles
  split
  case h_1 s s' hn hm => simp [hn, hm, eq_comm]
  case h_2 h => simp; intro s hn hm; exact h s s hn hm

theorem pieces_merge (h : n.sameStyles m) :
    (n.withChildren (n.children ++ m.children)).pieces = n.pieces ++ m.pieces := by
  have ⟨s, hn, hm⟩ := sameStyles_iff.mp h
  simp [pieces, hn, hm]

end Node

namespace Pass

-- No node is lost.
def Accounts (ns : List Node) (p : Pass) : Prop :=
  (Node.idsAll p.kept ++ Node.idsAll p.dropped).Perm (Node.idsAll ns)

theorem accounts_unchanged (ns : List Node) : Accounts ns (unchanged ns) := by
  simp [Accounts, unchanged]

theorem Accounts.andThen {ns : List Node} {p : Pass} {f : List Node → Pass}
    (h : p.Accounts ns) (hf : (f p.kept).Accounts p.kept) : (p.andThen f).Accounts ns := by
  refine .trans (List.perm_iff_count.mpr fun i => ?_) h
  have := hf.count_eq i
  simp [Pass.andThen] at this ⊢
  omega

-- What is dropped cannot be found anymore, so something is left to do only so many times.
theorem Accounts.count_lt {ns : List Node} {p : Pass} (h : p.Accounts ns) (hp : p.isChange) :
    Node.count p.kept < Node.count ns := by
  have hl := h.length_eq
  simp only [List.length_append, Node.idsAll, List.length_map] at hl
  have ⟨kept, dropped⟩ := p
  cases dropped with
  | nil => simp [isChange] at hp
  | cons n ns =>
    rw [Node.preorderAll, Node.preorder_eq] at hl
    simp [Node.count] at hl ⊢
    omega

theorem accounts_each {f : Node → Pass} (ns : List Node) (hf : ∀ n ∈ ns, (f n).Accounts [n]) :
    (each f ns).Accounts ns := by
  refine List.perm_iff_count.mpr fun i => ?_
  rw [kept_each, dropped_each]
  induction ns with
  | nil => simp
  | cons n ns ih =>
    have := (hf n (.head _)).count_eq i
    have := ih fun m hm => hf m (.tail _ hm)
    simp at this ⊢
    simp_all
    omega

theorem flatMap_each {f : Node → Pass} {g : Node → List β} {ns : List Node}
    (hf : ∀ n ∈ ns, (f n).kept.flatMap g = g n) : (each f ns).kept.flatMap g = ns.flatMap g := by
  rw [kept_each, List.flatMap_assoc]
  exact List.flatMap_congr hf

theorem each_of_dropped {f : Node → Pass} {q : Node → Prop} {ns : List Node}
    (hf : ∀ n ∈ ns, (f n).dropped = [] → (f n).kept = [n] ∧ q n) (h : (each f ns).dropped = []) :
    (each f ns).kept = ns ∧ ∀ n ∈ ns, q n := by
  rw [dropped_each, List.flatMap_eq_nil_iff] at h
  refine ⟨?_, fun n hn => (hf n hn (h n hn)).right⟩
  rw [kept_each, List.flatMap_congr fun n hn => (hf n hn (h n hn)).left, List.flatMap_singleton']

end Pass

namespace Canonical

section MergeTexts

variable {held : Node} {ns : List Node}

theorem flatMap_mergeTextsInto {g : Node → List β} (h₀ : ∀ n, n.isEmptyText → g n = [])
    (h : ∀ n m : Node, n.isText → m.isText → g (n.appendText m.text) = g n ++ g m) (held : Node)
    (ns : List Node) : (mergeTextsInto held ns).kept.flatMap g = g held ++ ns.flatMap g := by
  fun_induction mergeTextsInto held ns with
  | case1 held he => simp [h₀ held he]
  | case2 held => simp
  | case3 held n ns he ih => simp [Pass.drop, ih, h₀ held he]
  | case4 held n ns _ ht ih =>
    rw [Bool.and_eq_true] at ht
    simp [Pass.drop, ih, h held n ht.left ht.right]
  | case5 held n ns _ _ ih => simp [Pass.keep, ih]

theorem flatMap_mergeTexts {g : Node → List β} (h₀ : ∀ n, n.isEmptyText → g n = [])
    (h : ∀ n m : Node, n.isText → m.isText → g (n.appendText m.text) = g n ++ g m)
    (ns : List Node) : (mergeTexts ns).kept.flatMap g = ns.flatMap g := by
  cases ns with
  | nil => rfl
  | cons n ns => exact flatMap_mergeTextsInto h₀ h n ns

theorem items_mergeTexts (ns : List Node) :
    (mergeTexts ns).kept.flatMap Node.items = ns.flatMap Node.items :=
  flatMap_mergeTexts (fun _ h => (Node.isEmptyText_iff.mp h).right)
    (fun _ _ => Node.items_appendText_text) ns

theorem pieces_mergeTexts (ns : List Node) :
    (mergeTexts ns).kept.flatMap Node.pieces = ns.flatMap Node.pieces := by
  refine flatMap_mergeTexts (fun n h => ?_) (fun _ _ => Node.pieces_appendText_text) ns
  have h := Node.isEmptyText_iff.mp h
  rw [Seat.pieces_of_isText h.left, h.right, List.map_nil]

theorem accounts_mergeTextsInto (held : Node) (ns : List Node) :
    (mergeTextsInto held ns).Accounts (held :: ns) := by
  refine List.perm_iff_count.mpr fun i => ?_
  fun_induction mergeTextsInto held ns with
  | case1 held => simp
  | case2 held => simp
  | case3 held n ns _ ih => simp [Pass.drop] at ih ⊢; omega
  | case4 held n ns _ _ ih => simp [Pass.drop] at ih ⊢; omega
  | case5 held n ns _ _ ih => simp [Pass.keep] at ih ⊢; omega

theorem accounts_mergeTexts (ns : List Node) : (mergeTexts ns).Accounts ns := by
  cases ns with
  | nil => exact .refl _
  | cons n ns => exact accounts_mergeTextsInto n ns

end MergeTexts

structure Merged (ns : List Node) : Prop where
  nonempty : ∀ n ∈ ns, n.isEmptyText = false
  apart : ns.IsChain fun n m => ¬(n.isText ∧ m.isText)

theorem merged_of_mergeTextsInto (held : Node) (ns : List Node)
    (h : (mergeTextsInto held ns).dropped = []) :
    (mergeTextsInto held ns).kept = held :: ns ∧ Merged (held :: ns) := by
  fun_induction mergeTextsInto held ns with
  | case1 held he => simp at h
  | case2 held he => exact ⟨rfl, by simpa using he, .singleton _⟩
  | case3 held n ns he ih => simp [Pass.drop] at h
  | case4 held n ns _ ht ih => simp [Pass.drop] at h
  | case5 held n ns he ht ih =>
    have ⟨hk, hm⟩ := ih h
    refine ⟨by simp [Pass.keep, hk], by simpa using ⟨by simpa using he, by simpa using hm.nonempty⟩, ?_⟩
    exact .cons_cons (by simpa using ht) hm.apart

theorem merged_of_mergeTexts {ns : List Node} (h : (mergeTexts ns).dropped = []) :
    (mergeTexts ns).kept = ns ∧ Merged ns := by
  cases ns with
  | nil => exact ⟨rfl, nofun, .nil⟩
  | cons n ns => exact merged_of_mergeTextsInto n ns h

section MergeTextsInWrappers

theorem pieces_mergeTextsInWrappers (ns : List Node) :
    (mergeTextsInWrappers ns).kept.flatMap Node.pieces = ns.flatMap Node.pieces := by
  refine Pass.flatMap_each fun n _ => ?_
  split
  case isTrue hw =>
    have ⟨i, k, cs⟩ := n
    cases k <;> simp [Node.isWrapper, Kind.isWrapper] at hw
    simp [Node.pieces, items_mergeTexts]
  case isFalse => simp

theorem accounts_mergeTextsInWrappers (ns : List Node) : (mergeTextsInWrappers ns).Accounts ns := by
  refine Pass.accounts_each ns fun n _ => ?_
  split
  case isTrue => simpa [Pass.Accounts, Node.ids_eq n] using accounts_mergeTexts n.children
  case isFalse => exact Pass.accounts_unchanged _

theorem merged_of_mergeTextsInWrappers {ns : List Node} (h : (mergeTextsInWrappers ns).dropped = []) :
    (mergeTextsInWrappers ns).kept = ns ∧ ∀ n ∈ ns, n.isWrapper → Merged n.children := by
  refine Pass.each_of_dropped (fun n _ h => ?_) h
  split at h
  case isTrue hw =>
    have ⟨hk, hm⟩ := merged_of_mergeTexts h
    simp [hw, hk, hm]
  case isFalse hw => simp [hw]

end MergeTextsInWrappers

section UnwrapUnstyled

theorem glyphs_dissolve (n : Node) : Node.glyphsAmong ∅ n.dissolve.kept = n.glyphs ∅ := by
  obtain ⟨i, k, cs⟩ := n
  rw [Node.dissolve]
  split
  case isTrue h => rw [Node.kind_mk] at h; simp [h]
  case isFalse => simp

theorem pieces_dissolve (n : Node) :
    n.dissolve.kept.flatMap Node.pieces = n.pieces.flatMap Piece.loosen := by
  rw [Node.dissolve]
  split
  case isTrue hk =>
    rw [Node.pieces_wrapper hk, List.map_flatMap, List.flatMap_assoc]
    refine List.flatMap_congr fun m _ => ?_
    cases ht : m.isText
    case false => simp [Node.items_of_not_isText ht, Piece.loosen]
    case true =>
      obtain ⟨s, hk⟩ := Node.isText_iff.mp ht
      rw [Seat.pieces_of_isText ht, Node.items_text hk, List.flatMap_map, List.flatMap_map]
      exact List.map_map.trans List.map_eq_flatMap
  case isFalse hk =>
    have hp : ∀ p ∈ n.pieces, p.loosen = [p] := by
      intro p hp
      refine if_neg fun e => hk ?_
      rw [Node.host_of_mem_pieces hp] at e
      obtain ⟨i, k, cs⟩ := n
      cases k <;> simp_all [Kind.styles?]
    simp [List.flatMap_congr hp]

theorem accounts_dissolve (n : Node) : n.dissolve.Accounts [n] := by
  rw [Node.dissolve]
  split
  case isTrue => simp [Pass.Accounts, Node.ids_eq n]
  case isFalse => exact Pass.accounts_unchanged _

theorem accounts_unwrapUnstyled (ns : List Node) : (unwrapUnstyled ns).Accounts ns :=
  Pass.accounts_each ns fun n _ => accounts_dissolve n

theorem styled_of_unwrapUnstyled {ns : List Node} (h : (unwrapUnstyled ns).dropped = []) :
    (unwrapUnstyled ns).kept = ns ∧ ∀ n ∈ ns, n.kind ≠ .wrapper ∅ := by
  refine Pass.each_of_dropped (fun n _ h => ?_) h
  rw [Node.dissolve] at h ⊢
  split at h
  case isTrue => simp at h
  case isFalse hk => simp [hk]

end UnwrapUnstyled

section DropEmptyWrappers

theorem pieces_dropEmptyWrappers (ns : List Node) :
    (dropEmptyWrappers ns).kept.flatMap Node.pieces = ns.flatMap Node.pieces := by
  refine Pass.flatMap_each fun n _ => ?_
  split
  case isTrue h =>
    have ⟨i, k, cs⟩ := n
    cases k <;> simp [Node.isWrapper, Kind.isWrapper] at h
    simp [Node.pieces, h]
  case isFalse => simp

theorem accounts_dropEmptyWrappers (ns : List Node) : (dropEmptyWrappers ns).Accounts ns := by
  refine Pass.accounts_each ns fun n _ => ?_
  split <;> simp [Pass.Accounts]

theorem nonempty_of_dropEmptyWrappers {ns : List Node} (h : (dropEmptyWrappers ns).dropped = []) :
    (dropEmptyWrappers ns).kept = ns ∧ ∀ n ∈ ns, n.isWrapper → n.children ≠ [] := by
  refine Pass.each_of_dropped (fun n _ h => ?_) h
  split at h
  case isTrue => simp at h
  case isFalse hk => exact ⟨by rw [if_neg hk], by simpa using hk⟩

end DropEmptyWrappers

section MergeWrappers

theorem pieces_mergeWrappersInto (held : Node) (ns : List Node) :
    (mergeWrappersInto held ns).kept.flatMap Node.pieces =
      held.pieces ++ ns.flatMap Node.pieces := by
  fun_induction mergeWrappersInto held ns with
  | case1 held => simp [Pass.unchanged]
  | case2 held n ns h ih => simp [Pass.drop, ih, Node.pieces_merge h]
  | case3 held n ns h ih => simp [Pass.keep, ih]

theorem pieces_mergeWrappers (ns : List Node) :
    (mergeWrappers ns).kept.flatMap Node.pieces = ns.flatMap Node.pieces := by
  cases ns with
  | nil => rfl
  | cons n ns => exact pieces_mergeWrappersInto n ns

theorem accounts_mergeWrappersInto (held : Node) (ns : List Node) :
    (mergeWrappersInto held ns).Accounts (held :: ns) := by
  refine List.perm_iff_count.mpr fun i => ?_
  fun_induction mergeWrappersInto held ns with
  | case1 held => simp [Pass.unchanged]
  | case2 held n ns _ ih =>
    simp [Pass.drop, Node.ids_eq held, Node.ids_eq n, List.count_cons] at ih ⊢
    omega
  | case3 held n ns _ ih => simp [Pass.keep] at ih ⊢; omega

theorem accounts_mergeWrappers (ns : List Node) : (mergeWrappers ns).Accounts ns := by
  cases ns with
  | nil => exact .refl _
  | cons n ns => exact accounts_mergeWrappersInto n ns

theorem distinct_of_mergeWrappersInto (held : Node) (ns : List Node)
    (h : (mergeWrappersInto held ns).dropped = []) :
    (mergeWrappersInto held ns).kept = held :: ns ∧
      (held :: ns).IsChain fun n m => n.sameStyles m = false := by
  fun_induction mergeWrappersInto held ns with
  | case1 held => exact ⟨rfl, .singleton _⟩
  | case2 held n ns _ ih => simp [Pass.drop] at h
  | case3 held n ns hs ih =>
    have ⟨hk, hc⟩ := ih h
    exact ⟨by simp [Pass.keep, hk], .cons_cons (by simpa using hs) hc⟩

theorem distinct_of_mergeWrappers {ns : List Node} (h : (mergeWrappers ns).dropped = []) :
    (mergeWrappers ns).kept = ns ∧ ns.IsChain fun n m => n.sameStyles m = false := by
  cases ns with
  | nil => exact ⟨rfl, .nil⟩
  | cons n ns => exact distinct_of_mergeWrappersInto n ns h

end MergeWrappers

-- What no pass has anything to do for.
structure IsCanonical (ns : List Node) : Prop where
  merged : Merged ns
  mergedInside : ∀ n ∈ ns, n.isWrapper → Merged n.children
  styled : ∀ n ∈ ns, n.kind ≠ .wrapper ∅
  nonempty : ∀ n ∈ ns, n.isWrapper → n.children ≠ []
  distinct : ns.IsChain fun n m => n.sameStyles m = false

section Decide

instance (ns : List Node) : Decidable (Merged ns) :=
  decidable_of_iff (_ ∧ _) ⟨fun h => ⟨h.left, h.right⟩, fun h => ⟨h.nonempty, h.apart⟩⟩

instance (ns : List Node) : Decidable (IsCanonical ns) :=
  decidable_of_iff (_ ∧ _ ∧ _ ∧ _ ∧ _)
    ⟨fun h => ⟨h.left, h.right.left, h.right.right.left, h.right.right.right.left,
      h.right.right.right.right⟩,
    fun h => ⟨h.merged, h.mergedInside, h.styled, h.nonempty, h.distinct⟩⟩

end Decide

-- Content in canonical form whose wrappers hold nothing but texts, breaks and embeds.
structure IsFlat (ns : List Node) : Prop where
  canonical : IsCanonical ns
  child : ∀ n ∈ ns, n.isText ∨ n.kind.isAtomic ∨ n.isWrapper
  inside : ∀ w ∈ ns, w.isWrapper → ∀ n ∈ w.children, n.isText ∨ n.kind.isAtomic

instance (ns : List Node) : Decidable (IsFlat ns) :=
  decidable_of_iff (_ ∧ _ ∧ _)
    ⟨fun h => ⟨h.left, h.right.left, h.right.right⟩, fun h => ⟨h.canonical, h.child, h.inside⟩⟩

section Round

theorem accounts_round (ns : List Node) : (round ns).Accounts ns :=
  (accounts_mergeTextsInWrappers ns).andThen (accounts_unwrapUnstyled _)
    |>.andThen (accounts_dropEmptyWrappers _)
    |>.andThen (accounts_mergeWrappers _)
    |>.andThen (accounts_mergeTexts _)

theorem glyphs_round (ns : List Node) :
    Node.glyphsAmong ∅ (round ns).kept = Node.glyphsAmong ∅ ns := by
  have hu (ns : List Node) : Node.glyphsAmong ∅ (unwrapUnstyled ns).kept = Node.glyphsAmong ∅ ns :=
    Pass.flatMap_each fun n _ => glyphs_dissolve n
  simp only [round, Pass.andThen]
  rw [← Node.flatMap_pieces_glyphs, pieces_mergeTexts, pieces_mergeWrappers,
    pieces_dropEmptyWrappers, Node.flatMap_pieces_glyphs, hu, ← Node.flatMap_pieces_glyphs,
    pieces_mergeTextsInWrappers, Node.flatMap_pieces_glyphs]

theorem pieces_round (ns : List Node) :
    (round ns).kept.flatMap Node.pieces = (ns.flatMap Node.pieces).flatMap Piece.loosen := by
  have hu (ms : List Node) : (unwrapUnstyled ms).kept.flatMap Node.pieces =
      (ms.flatMap Node.pieces).flatMap Piece.loosen := by
    rw [unwrapUnstyled, Pass.kept_each, List.flatMap_assoc, List.flatMap_assoc]
    exact List.flatMap_congr fun n _ => pieces_dissolve n
  simp only [round, Pass.andThen]
  rw [pieces_mergeTexts, pieces_mergeWrappers, pieces_dropEmptyWrappers, hu,
    pieces_mergeTextsInWrappers]

theorem isCanonical_of_round {ns : List Node} (h : (round ns).dropped = []) :
    (round ns).kept = ns ∧ IsCanonical ns := by
  simp only [round, Pass.andThen, List.append_eq_nil_iff] at h ⊢
  have ⟨⟨⟨⟨h₁, h₂⟩, h₃⟩, h₄⟩, h₅⟩ := h
  have ⟨k₁, mergedInside⟩ := merged_of_mergeTextsInWrappers h₁
  simp only [k₁] at h₂ h₃ h₄ h₅ ⊢
  have ⟨k₂, styled⟩ := styled_of_unwrapUnstyled h₂
  simp only [k₂] at h₃ h₄ h₅ ⊢
  have ⟨k₃, nonempty⟩ := nonempty_of_dropEmptyWrappers h₃
  simp only [k₃] at h₄ h₅ ⊢
  have ⟨k₄, distinct⟩ := distinct_of_mergeWrappers h₄
  simp only [k₄] at h₅ ⊢
  have ⟨k₅, merged⟩ := merged_of_mergeTexts h₅
  exact ⟨k₅, { merged, mergedInside, styled, nonempty, distinct }⟩

end Round

section Rounds

theorem rounds_induction {q : List Node → Prop} (hq : ∀ ns, q ns → q (round ns).kept)
    (fuel : Nat) (ns : List Node) (h : q ns) : q (rounds fuel ns).kept := by
  induction fuel generalizing ns with
  | zero => exact h
  | succ fuel ih =>
    rw [rounds]
    split
    case isTrue => exact ih _ (hq ns h)
    case isFalse => exact hq ns h

theorem accounts_rounds (fuel : Nat) (ns : List Node) : (rounds fuel ns).Accounts ns := by
  induction fuel generalizing ns with
  | zero => exact Pass.accounts_unchanged ns
  | succ fuel ih =>
    rw [rounds]
    split
    case isTrue => exact (accounts_round ns).andThen (ih _)
    case isFalse => exact accounts_round ns

-- Each round but the last takes out a node, so as many rounds as nodes are enough.
theorem isCanonical_rounds {fuel : Nat} {ns : List Node} (h : Node.count ns ≤ fuel) :
    IsCanonical (rounds fuel ns).kept := by
  induction fuel generalizing ns with
  | zero =>
    have hns : ns = [] := by
      cases ns with
      | nil => rfl
      | cons n ns => simp [Node.count, Node.preorderAll, Node.preorder_eq] at h
    subst hns
    exact (isCanonical_of_round rfl).right
  | succ fuel ih =>
    rw [rounds]
    split
    case isTrue hc =>
      have := (accounts_round ns).count_lt hc
      exact ih (by omega)
    case isFalse hc =>
      have hd : (round ns).dropped = [] := by simpa [Pass.isChange] using hc
      have ⟨hk, hi⟩ := isCanonical_of_round hd
      simpa [hk] using hi

theorem kept_of_rounds {fuel : Nat} {ns : List Node} (h : (rounds fuel ns).dropped = []) :
    (rounds fuel ns).kept = ns := by
  cases fuel with
  | zero => rfl
  | succ fuel =>
    rw [rounds] at h ⊢
    split at h
    case isTrue hc => simp_all [Pass.andThen, Pass.isChange]
    case isFalse hc => rw [if_neg hc]; exact (isCanonical_of_round h).left

end Rounds

section Leaves

open Node

theorem leavesEmptyAll_each {f : Node → Pass} {ns : List Node} (h : LeavesEmptyAll ns)
    (hf : ∀ n, n.LeavesEmpty → LeavesEmptyAll (f n).kept) : LeavesEmptyAll (Pass.each f ns).kept := by
  rw [Pass.kept_each, leavesEmptyAll_iff]
  intro m hm
  have ⟨n, hn, hm⟩ := List.mem_flatMap.mp hm
  exact leavesEmptyAll_iff.mp (hf n (leavesEmptyAll_iff.mp h n hn)) m hm

theorem leavesEmptyAll_mergeTextsInto (held : Node) (ns : List Node)
    (h : LeavesEmptyAll (held :: ns)) : LeavesEmptyAll (mergeTextsInto held ns).kept := by
  fun_induction mergeTextsInto held ns with
  | case1 => simp
  | case2 => exact h
  | case3 held n ns _ ih => exact ih (leavesEmptyAll_cons.mp h).right
  | case4 held n ns _ _ ih => exact ih (by simp_all)
  | case5 held n ns _ _ ih => simp_all [Pass.keep]

theorem leavesEmptyAll_mergeTexts {ns : List Node} (h : LeavesEmptyAll ns) :
    LeavesEmptyAll (mergeTexts ns).kept := by
  cases ns with
  | nil => exact h
  | cons n ns => exact leavesEmptyAll_mergeTextsInto n ns h

theorem leavesEmptyAll_mergeTextsInWrappers {ns : List Node} (h : LeavesEmptyAll ns) :
    LeavesEmptyAll (mergeTextsInWrappers ns).kept := by
  refine leavesEmptyAll_each h fun n hn => ?_
  split
  case isTrue hw =>
    simpa [isLeaf_of_isWrapper hw] using leavesEmptyAll_mergeTexts (leavesEmpty_iff.mp hn).right
  case isFalse => simpa using hn

theorem leavesEmptyAll_dissolve {n : Node} (h : n.LeavesEmpty) :
    LeavesEmptyAll n.dissolve.kept := by
  rw [dissolve]
  split
  case isTrue => exact (leavesEmpty_iff.mp h).right
  case isFalse => simpa using h

theorem leavesEmptyAll_unwrapUnstyled {ns : List Node} (h : LeavesEmptyAll ns) :
    LeavesEmptyAll (unwrapUnstyled ns).kept :=
  leavesEmptyAll_each h fun _ hn => leavesEmptyAll_dissolve hn

theorem leavesEmptyAll_dropEmptyWrappers {ns : List Node} (h : LeavesEmptyAll ns) :
    LeavesEmptyAll (dropEmptyWrappers ns).kept := by
  refine leavesEmptyAll_each h fun n hn => ?_
  split
  case isTrue => simp
  case isFalse => simpa using hn

theorem leavesEmptyAll_mergeWrappersInto (held : Node) (ns : List Node)
    (h : LeavesEmptyAll (held :: ns)) : LeavesEmptyAll (mergeWrappersInto held ns).kept := by
  fun_induction mergeWrappersInto held ns with
  | case1 => exact h
  | case2 held n ns hs ih =>
    have ⟨s, hk, _⟩ := sameStyles_iff.mp hs
    simp_all [Pass.drop, leavesEmpty_iff]
  | case3 held n ns _ ih => simp_all [Pass.keep]

theorem leavesEmptyAll_mergeWrappers {ns : List Node} (h : LeavesEmptyAll ns) :
    LeavesEmptyAll (mergeWrappers ns).kept := by
  cases ns with
  | nil => exact h
  | cons n ns => exact leavesEmptyAll_mergeWrappersInto n ns h

theorem leavesEmptyAll_round {ns : List Node} (h : LeavesEmptyAll ns) :
    LeavesEmptyAll (round ns).kept :=
  leavesEmptyAll_mergeTexts <| leavesEmptyAll_mergeWrappers <| leavesEmptyAll_dropEmptyWrappers <|
    leavesEmptyAll_unwrapUnstyled <| leavesEmptyAll_mergeTextsInWrappers h

theorem leavesEmptyAll_canonicalize {ns : List Node} (h : LeavesEmptyAll ns) :
    LeavesEmptyAll (canonicalize ns).kept :=
  rounds_induction (fun _ => leavesEmptyAll_round) _ ns h

-- Only husks are taken out.
section Husks

open Node

theorem husks_each {f : Node → Pass} {ns : List Node} (hf : ∀ n ∈ ns, ∀ m ∈ (f n).dropped, m.IsHusk) :
    ∀ m ∈ (Pass.each f ns).dropped, m.IsHusk := by
  intro m hm
  rw [Pass.dropped_each] at hm
  have ⟨n, hn, hm⟩ := List.mem_flatMap.mp hm
  exact hf n hn m hm

theorem husks_mergeTextsInto (held : Node) (ns : List Node) (h : LeavesEmptyAll (held :: ns)) :
    ∀ m ∈ (mergeTextsInto held ns).dropped, m.IsHusk := by
  have husk {n : Node} (ht : n.isEmptyText) (h : n.LeavesEmpty) : n.IsHusk :=
    .of_isText (isEmptyText_iff.mp ht).left h
  fun_induction mergeTextsInto held ns with
  | case1 held he => simpa using husk he (by simpa using h)
  | case2 => simp
  | case3 held n ns he ih =>
    rw [leavesEmptyAll_cons] at h
    simpa [Pass.drop] using ⟨husk he h.left, ih h.right⟩
  | case4 held n ns _ ht ih =>
    rw [Bool.and_eq_true] at ht
    rw [leavesEmptyAll_cons, leavesEmptyAll_cons] at h
    have hn := IsHusk.of_isText ht.right h.right.left
    simpa [Pass.drop] using ⟨hn, ih (by simp [h.left, h.right.right])⟩
  | case5 held n ns _ _ ih => exact ih (leavesEmptyAll_cons.mp h).right

theorem husks_mergeTexts {ns : List Node} (h : LeavesEmptyAll ns) :
    ∀ m ∈ (mergeTexts ns).dropped, m.IsHusk := by
  cases ns with
  | nil => exact nofun
  | cons n ns => exact husks_mergeTextsInto n ns h

theorem husks_mergeTextsInWrappers {ns : List Node} (h : LeavesEmptyAll ns) :
    ∀ m ∈ (mergeTextsInWrappers ns).dropped, m.IsHusk := by
  refine husks_each fun n hn => ?_
  split
  case isTrue => exact husks_mergeTexts (leavesEmpty_iff.mp (leavesEmptyAll_iff.mp h n hn)).right
  case isFalse => exact nofun

theorem husks_dissolve (n : Node) : ∀ m ∈ n.dissolve.dropped, m.IsHusk := by
  rw [dissolve]
  split
  case isTrue hk => simpa using ⟨by simp [isStyleable, isWrapper, Kind.isWrapper, hk], rfl⟩
  case isFalse => simp

theorem husks_unwrapUnstyled (ns : List Node) : ∀ m ∈ (unwrapUnstyled ns).dropped, m.IsHusk :=
  husks_each fun n _ => husks_dissolve n

theorem husks_dropEmptyWrappers (ns : List Node) :
    ∀ m ∈ (dropEmptyWrappers ns).dropped, m.IsHusk := by
  refine husks_each fun n _ => ?_
  split
  case isTrue h =>
    rw [Bool.and_eq_true, List.isEmpty_iff] at h
    simpa using ⟨by simp [isStyleable, h.left], h.right⟩
  case isFalse => simp

theorem husks_mergeWrappersInto (held : Node) (ns : List Node) :
    ∀ m ∈ (mergeWrappersInto held ns).dropped, m.IsHusk := by
  fun_induction mergeWrappersInto held ns with
  | case1 => exact nofun
  | case2 held n ns hs ih =>
    have ⟨s, _, hk⟩ := sameStyles_iff.mp hs
    simpa [Pass.drop] using ⟨⟨by simp [isStyleable, isWrapper, Kind.isWrapper, hk], rfl⟩, ih⟩
  | case3 held n ns _ ih => exact ih

theorem husks_mergeWrappers (ns : List Node) : ∀ m ∈ (mergeWrappers ns).dropped, m.IsHusk := by
  cases ns with
  | nil => exact nofun
  | cons n ns => exact husks_mergeWrappersInto n ns

theorem husks_round {ns : List Node} (h : LeavesEmptyAll ns) :
    ∀ m ∈ (round ns).dropped, m.IsHusk := by
  have h₁ := leavesEmptyAll_mergeTextsInWrappers h
  have h₂ := leavesEmptyAll_mergeWrappers <| leavesEmptyAll_dropEmptyWrappers <|
    leavesEmptyAll_unwrapUnstyled h₁
  intro m hm
  simp only [round, Pass.andThen, List.mem_append] at hm
  obtain (((hm | hm) | hm) | hm) | hm := hm
  · exact husks_mergeTextsInWrappers h m hm
  · exact husks_unwrapUnstyled _ m hm
  · exact husks_dropEmptyWrappers _ m hm
  · exact husks_mergeWrappers _ m hm
  · exact husks_mergeTexts h₂ m hm

theorem husks_canonicalize {ns : List Node} (h : LeavesEmptyAll ns) :
    ∀ m ∈ (canonicalize ns).dropped, m.IsHusk := by
  rw [canonicalize]
  generalize Node.count ns = fuel
  induction fuel generalizing ns with
  | zero => exact nofun
  | succ fuel ih =>
    rw [rounds]
    split
    case isTrue =>
      intro m hm
      cases List.mem_append.mp hm
      case inl hm => exact husks_round h m hm
      case inr hm => exact ih (leavesEmptyAll_round h) m hm
    case isFalse => exact husks_round h

end Husks

end Leaves

theorem accounts_canonicalize (ns : List Node) : (canonicalize ns).Accounts ns :=
  accounts_rounds _ ns

theorem kept_of_canonicalize {ns : List Node} (h : (canonicalize ns).dropped = []) :
    (canonicalize ns).kept = ns :=
  kept_of_rounds h

theorem isCanonical_canonicalize (ns : List Node) : IsCanonical (canonicalize ns).kept :=
  isCanonical_rounds (Nat.le_refl _)

theorem glyphs_canonicalize (ns : List Node) :
    Node.glyphsAmong ∅ (canonicalize ns).kept = Node.glyphsAmong ∅ ns :=
  rounds_induction (q := fun ms => Node.glyphsAmong ∅ ms = Node.glyphsAmong ∅ ns)
    (fun ms h => (glyphs_round ms).trans h) _ ns rfl

theorem pieces_canonicalize {ns : List Node}
    (h : ∀ p ∈ ns.flatMap Node.pieces, p.host ≠ some ∅) :
    (canonicalize ns).kept.flatMap Node.pieces = ns.flatMap Node.pieces := by
  have hl : (ns.flatMap Node.pieces).flatMap Piece.loosen = ns.flatMap Node.pieces :=
    (List.flatMap_congr fun p hp => if_neg (h p hp)).trans (List.flatMap_singleton' _)
  refine rounds_induction (q := fun ms => ms.flatMap Node.pieces = ns.flatMap Node.pieces) ?_ _ ns rfl
  intro ms hm
  rw [pieces_round, hm, hl]

end Canonical

namespace Tree

variable {t : Tree} {block : NodeId} {b : Node}

theorem node?_append (h : t.node? block = some b) (ns : List Node) (made : Nat) :
    (Tree.mk (t.roots ++ ns) made).node? block = some b := by
  rw [node?_eq_find?] at h ⊢
  rw [Node.preorderAll_append, List.find?_append, h, Option.some_or]

theorem node?_replaceChildren (h : t.node? block = some b) (p : Pass) :
    (t.replaceChildren block p).node? block = some (b.withChildren p.kept) := by
  have hm : (t.modify block fun n => n.withChildren p.kept).node? block = _ :=
    node?_modify fun _ hm => hm
  rw [h] at hm
  exact node?_append hm ..

theorem WellFormed.replaceChildren (wf : t.WellFormed) (h : t.node? block = some b) {p : Pass}
    {next : Nat} (hle : t.made ≤ next) (hp : (Node.idsAll p.kept ++ Node.idsAll p.dropped).Perm
      (Node.idsAll b.children ++ NodeId.given t.made next)) :
    { t.replaceChildren block p with made := next }.WellFormed := by
  have hi := id_of_node? h
  have hb : (Node.idsAll [b.withChildren p.kept] ++ Node.idsAll p.dropped).Perm
      (b.ids ++ NodeId.given t.made next) := by
    rw [Node.ids_eq b]
    simpa using hp.cons b.id
  have hs := Node.idsAll_substituteAll_perm (f := fun n => [n.withChildren p.kept]) t.roots wf.nodup
    (mem_of_node? h) hb
  rw [wellFormed_iff, ← NodeId.given_append (Nat.zero_le _) hle]
  refine .trans ?_ (hs.trans ((wellFormed_iff.mp wf).append_right _))
  simp [Tree.replaceChildren, modifyChildren, modify, substitute, hi]

theorem WellFormed.canonicalize (wf : t.WellFormed) (h : t.node? block = some b) :
    (t.canonicalize block).2.WellFormed := by
  simp only [Tree.canonicalize, children_of_node? h]
  split
  case isFalse => exact wf
  case isTrue =>
    have hp := Canonical.accounts_canonicalize b.children
    have hw : ({ t.replaceChildren block (Canonical.canonicalize b.children) with
        made := t.made } : Tree).WellFormed :=
      wf.replaceChildren h (Nat.le_refl _) (by simpa [Pass.Accounts] using hp)
    exact hw

theorem node?_canonicalize (h : t.node? block = some b) :
    (t.canonicalize block).2.node? block =
      some (b.withChildren (Canonical.canonicalize b.children).kept) := by
  simp only [Tree.canonicalize, children_of_node? h]
  split
  case isTrue => exact node?_replaceChildren h _
  case isFalse hc =>
    have hd : (Canonical.canonicalize b.children).dropped = [] := by simpa [Pass.isChange] using hc
    rw [Canonical.kept_of_canonicalize hd, Node.withChildren_children]
    exact h

end Tree

end RichText
