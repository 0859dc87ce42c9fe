import RichText.Proofs.Around

namespace RichText

namespace Pass

theorem each_of_unchanged {f : Node → Pass} {ns : List Node} (h : ∀ n ∈ ns, f n = unchanged [n]) :
    each f ns = unchanged ns := by
  induction ns with
  | nil => rfl
  | cons n ns ih =>
    change (f n).append (each f ns) = _
    rw [h n (.head _), ih fun m hm => h m (.tail _ hm)]
    rfl

theorem isChange_eq_false {p : Pass} : p.isChange = false ↔ p.dropped = [] := by
  simp [isChange]

end Pass

namespace Canonical

variable {ns : List Node} {n : Node}

-- No pass finds anything to do in canonical content.
section Unchanged

theorem mergeTexts_of_merged (h : Merged ns) : mergeTexts ns = .unchanged ns := by
  have into (held : Node) (ns : List Node) (h : Merged (held :: ns)) :
      mergeTextsInto held ns = .unchanged (held :: ns) := by
    fun_induction mergeTextsInto held ns with
    | case1 held he => simp [h.nonempty held (.head _)] at he
    | case2 => rfl
    | case3 held n ns he => simp [h.nonempty held (.head _)] at he
    | case4 held n ns _ ht =>
      have := (List.isChain_cons_cons.mp h.apart).left
      simp_all
    | case5 held n ns _ _ ih =>
      rw [ih ⟨fun m hm => h.nonempty m (.tail _ hm), (List.isChain_cons_cons.mp h.apart).right⟩]
      rfl
  cases ns with
  | nil => rfl
  | cons n ns => exact into n ns h

theorem mergeTextsInWrappers_of_merged (h : ∀ n ∈ ns, n.isWrapper → Merged n.children) :
    mergeTextsInWrappers ns = .unchanged ns := by
  refine Pass.each_of_unchanged fun n hn => ?_
  split
  case isTrue hw => simp [mergeTexts_of_merged (h n hn hw), Pass.unchanged]
  case isFalse => rfl

theorem unwrapUnstyled_of_styled (h : ∀ n ∈ ns, n.kind ≠ .wrapper ∅) :
    unwrapUnstyled ns = .unchanged ns :=
  Pass.each_of_unchanged fun n hn => if_neg (h n hn)

theorem dropEmptyWrappers_of_nonempty (h : ∀ n ∈ ns, n.isWrapper → n.children ≠ []) :
    dropEmptyWrappers ns = .unchanged ns := by
  refine Pass.each_of_unchanged fun n hn => if_neg ?_
  simpa using h n hn

theorem mergeWrappers_of_distinct (h : ns.IsChain fun n m => n.sameStyles m = false) :
    mergeWrappers ns = .unchanged ns := by
  have into (held : Node) (ns : List Node)
      (h : (held :: ns).IsChain fun n m => n.sameStyles m = false) :
      mergeWrappersInto held ns = .unchanged (held :: ns) := by
    fun_induction mergeWrappersInto held ns with
    | case1 => rfl
    | case2 held n ns hs => simp [(List.isChain_cons_cons.mp h).left] at hs
    | case3 held n ns _ ih => rw [ih (List.isChain_cons_cons.mp h).right]; rfl
  cases ns with
  | nil => rfl
  | cons n ns => exact into n ns h

theorem round_of_isCanonical (h : IsCanonical ns) : round ns = .unchanged ns := by
  have andThen {f : List Node → Pass} (hf : f ns = .unchanged ns) :
      (Pass.unchanged ns).andThen f = .unchanged ns := by
    simp [Pass.andThen, Pass.unchanged] at hf ⊢
    simp [hf]
  rw [round, mergeTextsInWrappers_of_merged h.mergedInside,
    andThen (unwrapUnstyled_of_styled h.styled), andThen (dropEmptyWrappers_of_nonempty h.nonempty),
    andThen (mergeWrappers_of_distinct h.distinct), andThen (mergeTexts_of_merged h.merged)]

end Unchanged

theorem isChange_round_eq_false : (round ns).isChange = false ↔ IsCanonical ns :=
  ⟨fun h => (isCanonical_of_round (Pass.isChange_eq_false.mp h)).right,
    fun h => by rw [round_of_isCanonical h]; rfl⟩

theorem round_of_not_isChange (h : (round ns).isChange = false) : round ns = .unchanged ns :=
  round_of_isCanonical (isChange_round_eq_false.mp h)

-- Rounds as they follow one another without a bound: each that changes something is followed by
-- another, and the one that does not is the last. The number counts those that do.
inductive Settles : List Node → Nat → Pass → Prop
  | still {ms : List Node} (h : (round ms).isChange = false) : Settles ms 0 (round ms)
  | again {ms : List Node} {k : Nat} {q : Pass} (h : (round ms).isChange)
    (hs : Settles (round ms).kept k q) : Settles ms (k + 1) ((round ms).andThen fun _ => q)

namespace Settles

variable {k : Nat} {p : Pass}

theorem unique {k' : Nat} {p' : Pass} (h : Settles ns k p) (h' : Settles ns k' p') :
    k = k' ∧ p = p' := by
  induction h generalizing k' p' with
  | still hc => cases h' <;> simp_all
  | again hc _ ih =>
    cases h' with
    | still => simp_all
    | again _ hs =>
      have ⟨hk, hp⟩ := ih hs
      exact ⟨congrArg _ hk, hp ▸ rfl⟩

theorem isCanonical (h : Settles ns k p) : IsCanonical p.kept := by
  induction h with
  | still hc => exact round_of_not_isChange hc ▸ isChange_round_eq_false.mp hc
  | again _ _ ih => exact ih

theorem le_count (h : Settles ns k p) : k ≤ Node.count ns := by
  induction h with
  | still => exact Nat.zero_le _
  | again hc _ ih =>
    have := (accounts_round _).count_lt hc
    omega

theorem isChange (h : Settles ns k p) : p.isChange = decide (k ≠ 0) := by
  cases h with
  | still hc => simpa using hc
  | again hc => simp_all [Pass.isChange, Pass.andThen]

theorem rounds_eq (h : Settles ns k p) {fuel : Nat} (hf : k ≤ fuel) : rounds fuel ns = p := by
  induction h generalizing fuel with
  | still hc =>
    rw [round_of_not_isChange hc]
    cases fuel with
    | zero => rfl
    | succ fuel => rw [rounds, round_of_not_isChange hc]; rfl
  | again hc _ ih =>
    obtain ⟨fuel, rfl⟩ := Nat.exists_eq_add_of_lt hf
    rw [rounds, if_pos hc, Pass.andThen, ih (Nat.le_add_right _ _)]
    rfl

end Settles

theorem exists_settles (ns : List Node) : ∃ k p, Settles ns k p := by
  generalize hc : Node.count ns = c
  induction c using Nat.strongRecOn generalizing ns with
  | ind c ih =>
    cases h : (round ns).isChange
    case false => exact ⟨_, _, .still h⟩
    case true =>
      have ⟨_, _, hs⟩ := ih _ (hc ▸ (accounts_round ns).count_lt h) _ rfl
      exact ⟨_, _, .again h hs⟩

theorem exists_settles_canonicalize (ns : List Node) :
    ∃ k ≤ Node.count ns, Settles ns k (canonicalize ns) := by
  have ⟨k, p, h⟩ := exists_settles ns
  exact ⟨k, h.le_count, by rw [canonicalize, h.rounds_eq h.le_count]; exact h⟩

theorem isChange_canonicalize_eq_false : (canonicalize ns).isChange = false ↔ IsCanonical ns := by
  constructor
  case mp =>
    intro h
    rw [← kept_of_canonicalize (Pass.isChange_eq_false.mp h)]
    exact isCanonical_canonicalize ns
  case mpr =>
    intro h
    have hs := Settles.still (isChange_round_eq_false.mpr h)
    rw [canonicalize, hs.rounds_eq (Nat.zero_le _)]
    exact isChange_round_eq_false.mpr h

end Canonical

namespace Tree

variable {t : Tree} {block : NodeId}

theorem length_roots_replaceChildren (p : Pass) :
    (t.replaceChildren block p).roots.length = t.roots.length + p.dropped.length := by
  simp [replaceChildren, modifyChildren, modify, substitute, Node.substituteAll_eq_map]

theorem canonicalize_fst_eq_false :
    (t.canonicalize block).1 = false ↔ Canonical.IsCanonical (t.children block) := by
  rw [← Canonical.isChange_canonicalize_eq_false, canonicalize]
  split <;> simp_all

-- What is taken out becomes a tree beside the others, so a change always shows.
theorem canonicalize_snd_eq_self : (t.canonicalize block).1 = false ↔ (t.canonicalize block).2 = t := by
  rw [canonicalize]
  split
  case isFalse => simp
  case isTrue h =>
    refine iff_of_false (by simp) fun e => ?_
    have hl := congrArg (·.roots.length) e
    simp only [length_roots_replaceChildren] at hl
    simp_all [Pass.isChange]

theorem isCanonical_children_canonicalize (t : Tree) (block : NodeId) :
    Canonical.IsCanonical ((t.canonicalize block).2.children block) := by
  cases hb : t.node? block with
  | some b =>
    rw [children_of_node? (node?_canonicalize hb)]
    exact Canonical.isCanonical_canonicalize b.children
  | none =>
    have hc : t.children block = [] := by simp [children, hb]
    have h : (t.canonicalize block).1 = false :=
      canonicalize_fst_eq_false.mpr (hc ▸ by decide)
    rw [canonicalize_snd_eq_self.mp h, hc]
    decide

-- The rounds end in canonical form, and tell whether there was anything to do. Nothing is left for
-- another call.
theorem canonicalize_settles (t : Tree) (block : NodeId) :
    (∃ k ≤ Node.count (t.children block), ∃ p, Canonical.Settles (t.children block) k p ∧
      t.canonicalize block = if k = 0 then (false, t) else (true, t.replaceChildren block p)) ∧
    Canonical.IsCanonical ((t.canonicalize block).2.children block) ∧
    ((t.canonicalize block).1 = false ↔ (t.canonicalize block).2 = t) ∧
    ((t.canonicalize block).1 = false ↔ Canonical.IsCanonical (t.children block)) ∧
    (t.canonicalize block).2.canonicalize block = (false, (t.canonicalize block).2) := by
  have hi := isCanonical_children_canonicalize t block
  refine ⟨?rounds, hi, canonicalize_snd_eq_self, canonicalize_fst_eq_false, ?again⟩
  case rounds =>
    have ⟨k, hk, hs⟩ := Canonical.exists_settles_canonicalize (t.children block)
    refine ⟨k, hk, _, hs, ?_⟩
    rw [canonicalize, hs.isChange]
    split <;> simp_all
  case again =>
    have h := canonicalize_fst_eq_false.mpr hi
    exact Prod.ext h (canonicalize_snd_eq_self.mp h)

end Tree

end RichText
