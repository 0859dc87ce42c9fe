import RichText.Arena.Walk
import RichText.Proofs.Arena.Holds
import RichText.Proofs.Count
import RichText.Proofs.Marks

namespace RichText

namespace Lines

def push (ls : List String) : Kind → List String
  | .text s => Arena.extendLast s ls
  | .lineBreak false => ls ++ [""]
  | _ => ls

theorem extendLast_append (s l : String) (ls : List String) :
    Arena.extendLast s (ls ++ [l]) = ls ++ [l ++ s] := by
  induction ls with
  | nil => rfl
  | cons l' ls ih => cases ls <;> simp_all [Arena.extendLast]

theorem foldl_push (ks : List Kind) (ls : List String) (l : String) :
    ks.foldl push (ls ++ [l]) = ls ++ extend l (ofKinds ks) := by
  induction ks generalizing ls l with
  | nil => simp [ofKinds, extend]
  | cons k ks ih =>
    rw [List.foldl_cons]
    cases k with
    | text s => rw [push, extendLast_append, ih, ofKinds, extend_extend]
    | lineBreak trailing =>
      cases trailing with
      | true => exact ih ls l
      | false =>
        rw [push, ih, ofKinds, extend_empty (ofKinds_ne_nil ks)]
        simp [extend]
    | _ => exact ih ls l

end Lines

namespace Inline

def push (is : List Inline) : Inline → List Inline
  | run r => Arena.pushRun r.text r.styles is
  | lineBreak => is ++ [lineBreak]

theorem push_append (is : List Inline) (i : Inline) (js : List Inline) (k : Inline) :
    push (is ++ i :: js) k = is ++ push (i :: js) k := by
  induction is with
  | nil => rfl
  | cons j is ih =>
    obtain ⟨l, ls, e⟩ : ∃ l ls, is ++ i :: js = l :: ls := List.exists_cons_of_ne_nil (by simp)
    rw [List.cons_append, List.cons_append, ← ih, e]
    cases k <;> cases j <;> rfl

theorem cons_cons (i j : Inline) (is : List Inline) : cons i (j :: is) = cons i [j] ++ is := by
  cases i with
  | lineBreak => cases j <;> rfl
  | run r =>
    cases j with
    | lineBreak => rfl
    | run r' => simp only [cons]; split <;> rfl

theorem cons_push (i j : Inline) (is : List Inline) : cons i (push is j) = push (cons i is) j := by
  rcases is with _ | ⟨k, _ | ⟨k', is⟩⟩
  case nil => cases i <;> cases j <;> simp [push, cons, Arena.pushRun]
  case cons.nil =>
    rcases i with r | _ <;> rcases k with r' | _ <;> rcases j with r'' | _
    case run.run.run =>
      by_cases hi : r.styles = r'.styles <;> by_cases hj : r'.styles = r''.styles <;>
        simp_all [push, cons, Arena.pushRun, String.append_assoc]
    case run.run.lineBreak => by_cases hi : r.styles = r'.styles <;> simp [push, cons, hi]
    all_goals simp [push, cons, Arena.pushRun]
  case cons.cons =>
    rw [cons_cons i k, push_append, ← List.singleton_append, push_append, List.singleton_append,
      cons_cons]

theorem foldl_push (is : List Inline) : is.foldl push [] = is.foldr cons [] := by
  induction is using List.reverseRecOn with
  | nil => rfl
  | append_singleton is j ih =>
    rw [List.foldl_append, ih, List.foldl_cons, List.foldl_nil]
    clear ih
    induction is with
    | nil => cases j <;> rfl
    | cons i is ih => rw [List.foldr_cons, List.cons_append, List.foldr_cons, ← ih, cons_push]

end Inline

namespace Node

section Induction

variable {motive : List Node → Prop} (nil : motive [])

include nil

theorem forest_induction (cons : ∀ n ns, motive n.children → motive ns → motive (n :: ns)) :
    (ns : List Node) → motive ns
  | [] => nil
  | mk i k cs :: ns => cons _ ns (forest_induction cons cs) (forest_induction cons ns)

-- As a stack is worked off: a node is left out, or makes room for its children.
theorem stack_induction (cons : ∀ n ns, motive (n.children ++ ns) → motive ns → motive (n :: ns))
    (ns : List Node) : motive ns := by
  suffices h : ∀ rest, motive rest → motive (ns ++ rest) by simpa using h [] nil
  refine forest_induction (motive := fun ns => ∀ rest, motive rest → motive (ns ++ rest))
    (fun _ h => h) (fun n ns hc hs rest h => ?_) ns
  exact cons n (ns ++ rest) (hc _ (hs rest h)) (hs rest h)

end Induction

theorem lastLeafAmong_concat (ns : List Node) (n m : Node) :
    lastLeafAmong n (ns ++ [m]) = m.lastLeaf := by
  induction ns generalizing n with
  | nil => rfl
  | cons k ns ih => exact ih k.lastLeaf

end Node

namespace Arena

variable {a : Arena} {t : Tree} {i : NodeId} {n : Node} {ns ms : List Node}

-- That nodes are stored, with all that is beneath them.
def Records (a : Arena) (ns : List Node) : Prop :=
  Node.cells ns ⊆ a.cells

theorem records_cons : a.Records (n :: ns) ↔
    (a.kind? n.id = some n.kind ∧ a.children n.id = n.children.map Node.id) ∧
      a.Records n.children ∧ a.Records ns := by
  have hn : n.cell ∈ a.cells ↔ a.kind? n.id = some n.kind ∧ a.children n.id = n.children.map Node.id :=
    mem_cells
  rw [← hn]
  simp only [Records, Multiset.subset_iff, Node.cells_cons, Multiset.mem_cons, Multiset.mem_add, or_imp,
    forall_and, forall_eq]

theorem records_append : a.Records (ms ++ ns) ↔ a.Records ms ∧ a.Records ns := by
  simp [Records, Multiset.subset_iff, or_imp, forall_and]

theorem Holds.records (h : a.Holds t) (hn : t.node? i = some n) : a.Records [n] := by
  have hs := (Node.preorderAll_sublist _ (Tree.mem_of_node? hn)).map Node.cell
  rw [Records, h.stores.cells, Node.cells, Node.preorderAll, Node.preorderAll, List.append_nil]
  exact hs.subset

section Walk

theorem preorderFrom_eq (h : a.Records ns) (met : List NodeId) :
    a.preorderFrom met (ns.map Node.id) = some (met ++ Node.idsAll ns) := by
  induction ns using Node.stack_induction generalizing met with
  | nil => rw [List.map_nil, preorderFrom, Node.idsAll_nil, List.append_nil]
  | cons n ns ih _ =>
    obtain ⟨⟨_, hc⟩, hr, hs⟩ := records_cons.mp h
    rw [List.map_cons, preorderFrom, hc, ← List.map_append, ih (records_append.mpr ⟨hr, hs⟩)]
    simp [Node.ids_eq]

theorem linesFrom_eq (h : a.Records ns) (stop : Option NodeId) (ls : List String) :
    a.linesFrom stop ls (ns.map Node.id) =
      some ((((Node.flowAll ns).takeWhile (some ·.id ≠ stop)).map Node.kind).foldl Lines.push ls) := by
  induction ns using Node.stack_induction generalizing ls with
  | nil => rw [List.map_nil, linesFrom]; rfl
  | cons n ns ih ih' =>
    obtain ⟨⟨hk, hc⟩, hr, hs⟩ := records_cons.mp h
    have ih := ih (records_append.mpr ⟨hr, hs⟩)
    rw [List.map_append, Node.flowAll_append] at ih
    obtain ⟨i, k, cs⟩ := n
    rw [List.map_cons, linesFrom, hk, hc]
    by_cases hi : some i = stop
    case pos => simp [hi, Node.flowAll, Node.flow]
    case neg =>
      cases k with
      | text s => simpa [hi, Node.flowAll, Node.flow, Kind.isText, Lines.push] using ih' hs _
      | lineBreak trailing =>
        cases trailing <;>
          simpa [hi, Node.flowAll, Node.flow, Kind.isText, Kind.isBreak, Lines.push] using ih' hs _
      | _ => simpa [hi, Node.flowAll, Node.flow, Kind.isText, Kind.isBreak, Lines.push] using ih _

theorem runsFrom_eq (h : a.Records ns) (inherited : StyleSet) (read : List Inline)
    (stack : List (NodeId × StyleSet)) :
    a.runsFrom read (ns.map (fun n => (n.id, inherited)) ++ stack) =
      a.runsFrom (((Node.inlinesAmong inherited ns).filter (!·.isEmpty)).foldl Inline.push read) stack := by
  induction ns using Node.forest_induction generalizing inherited read stack with
  | nil => rfl
  | cons n ns ih ih' =>
    obtain ⟨⟨hk, hc⟩, hr, hs⟩ := records_cons.mp h
    obtain ⟨i, k, cs⟩ := n
    rw [List.map_cons, List.cons_append, runsFrom]
    simp only [Node.id_mk, Node.kind_mk, Node.children_mk] at hk hc
    cases k with
    | text s =>
      simp only [Node.id_mk, hk, Node.inlinesAmong, Node.inlines]
      split <;> simp_all [Inline.isEmpty, Inline.push]
    | lineBreak trailing =>
      cases trailing <;>
        simp_all [Node.inlinesAmong, Node.inlines, Inline.isEmpty, Inline.push]
    | _ =>
      simp only [Node.id_mk, hk, hc, Node.inlinesAmong, Node.inlines, Option.bind_some, Kind.styles?,
        Option.getD_some, Option.getD_none, StyleSet.union_empty, List.map_map, List.filter_append,
        List.foldl_append]
      rw [← ih' hs]
      exact ih hr _ read _

theorem Records.firstLeaf (h : a.Records ns) (hn : n ∈ ns) : a.firstLeaf n.id = some n.firstLeaf.id := by
  induction ns using Node.forest_induction generalizing n with
  | nil => contradiction
  | cons m ns ih ih' =>
    obtain ⟨⟨_, hc⟩, hr, hs⟩ := records_cons.mp h
    cases hn with
    | tail _ hn => exact ih' hs hn
    | head =>
      obtain ⟨i, k, cs⟩ := m
      rw [Arena.firstLeaf, firstChild?, hc]
      cases cs with
      | nil => rfl
      | cons c cs => exact ih hr (.head _)

theorem Records.lastLeaf (h : a.Records ns) (hn : n ∈ ns) : a.lastLeaf n.id = some n.lastLeaf.id := by
  induction ns using Node.forest_induction generalizing n with
  | nil => contradiction
  | cons m ns ih ih' =>
    obtain ⟨⟨_, hc⟩, hr, hs⟩ := records_cons.mp h
    cases hn with
    | tail _ hn => exact ih' hs hn
    | head =>
      obtain ⟨i, k, cs⟩ := m
      rw [Arena.lastLeaf, lastChild?, hc, Node.lastLeaf]
      cases cs using List.reverseRecOn with
      | nil => rfl
      | append_singleton cs c =>
        rw [Node.lastLeafAmong_concat]
        simpa using ih hr (List.mem_append_right cs (.head _))

end Walk

section Views

variable (h : a.Holds t) (hn : t.node? i = some n)

include h hn

theorem Holds.preorder_eq : a.preorder i = some ((t.preorder i).map Node.id) := by
  have hr := preorderFrom_eq (h.records hn) []
  rw [Tree.preorder, hn]
  simpa [Arena.preorder, Tree.id_of_node? hn, Node.ids] using hr

theorem Holds.firstLeaf_eq : a.firstLeaf i = some n.firstLeaf.id :=
  Tree.id_of_node? hn ▸ (h.records hn).firstLeaf (.head _)

theorem Holds.lastLeaf_eq : a.lastLeaf i = some n.lastLeaf.id :=
  Tree.id_of_node? hn ▸ (h.records hn).lastLeaf (.head _)

theorem Holds.runs_eq : a.runs i = some (t.runs i) := by
  obtain rfl := Tree.id_of_node? hn
  obtain ⟨⟨_, hc⟩, hr, _⟩ := records_cons.mp (h.records hn)
  have hr := runsFrom_eq hr ∅ [] []
  rw [Arena.runs, hc, List.map_map, Tree.runs, hn]
  rw [List.append_nil, runsFrom, Inline.foldl_push] at hr
  exact hr

theorem Holds.lines_to (stop : Option NodeId) : a.lines i stop =
    some (Lines.ofKinds ((n.flow.takeWhile (some ·.id ≠ stop)).map Node.kind)) := by
  have hr := linesFrom_eq (h.records hn) stop [""]
  have hl := Lines.foldl_push ((n.flow.takeWhile (some ·.id ≠ stop)).map Node.kind) [] ""
  rw [Lines.extend_empty (Lines.ofKinds_ne_nil _), List.nil_append, List.nil_append] at hl
  rwa [Node.flowAll, Node.flowAll, List.append_nil, List.map_singleton, Tree.id_of_node? hn, hl] at hr

theorem Holds.lines_eq : a.lines i none = some (t.lines i) := by
  have ht : n.flow.takeWhile (some ·.id ≠ none) = n.flow := List.takeWhile_eq_self_iff.mpr (by simp)
  rw [h.lines_to hn, ht, Tree.lines, hn]
  rfl

theorem Holds.linesBefore_eq (stop : NodeId) :
    a.lines i (some stop) = some (t.linesBefore i stop) := by
  rw [h.lines_to hn, Tree.linesBefore, hn]
  simp [Node.linesBefore]

end Views

end Arena

end RichText
