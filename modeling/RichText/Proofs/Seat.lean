import RichText.Proofs.Piece

namespace RichText

-- Where a text that can be styled stands: among the children of a block, or in one of the wrappers
-- among them. What is around the text is kept, the text itself is left out.
inductive Seat where
  | bare (before after : List Node)
  | held (before : List Node) (id : NodeId) (styles : StyleSet) (left right after : List Node)

namespace Seat

def plug : Seat → List Node → List Node
  | bare before after, ns => before ++ ns ++ after
  | held before id styles left right after, ns =>
    before ++ .mk id (.wrapper styles) (left ++ ns ++ right) :: after

def host : Seat → Option StyleSet
  | bare .. => none
  | held _ _ styles .. => some styles

def lead : Seat → List Piece
  | bare before _ => before.flatMap Node.pieces
  | held before _ styles left _ _ =>
    before.flatMap Node.pieces ++ (left.flatMap Node.items).map (⟨·, some styles⟩)

def rest : Seat → List Piece
  | bare _ after => after.flatMap Node.pieces
  | held _ _ styles _ right after =>
    (right.flatMap Node.items).map (⟨·, some styles⟩) ++ after.flatMap Node.pieces

def pushLeft (ns : List Node) : Seat → Seat
  | bare before after => bare (before ++ ns) after
  | held before id styles left right after => held before id styles (left ++ ns) right after

def pushRight (ns : List Node) : Seat → Seat
  | bare before after => bare before (ns ++ after)
  | held before id styles left right after => held before id styles left (ns ++ right) after

def prepend (ns : List Node) : Seat → Seat
  | bare before after => bare (ns ++ before) after
  | held before id styles left right after => held (ns ++ before) id styles left right after

def append (ns : List Node) : Seat → Seat
  | bare before after => bare before (after ++ ns)
  | held before id styles left right after => held before id styles left right (after ++ ns)

section Cases

variable {before after left right : List Node} {id : NodeId} {styles : StyleSet}

@[simp]
theorem plug_bare (ns : List Node) : (bare before after).plug ns = before ++ ns ++ after :=
  rfl

@[simp]
theorem plug_held (ns : List Node) : (held before id styles left right after).plug ns =
    before ++ .mk id (.wrapper styles) (left ++ ns ++ right) :: after :=
  rfl

@[simp]
theorem host_bare : (bare before after).host = none :=
  rfl

@[simp]
theorem host_held : (held before id styles left right after).host = some styles :=
  rfl

@[simp]
theorem lead_bare : (bare before after).lead = before.flatMap Node.pieces :=
  rfl

@[simp]
theorem lead_held : (held before id styles left right after).lead =
    before.flatMap Node.pieces ++ (left.flatMap Node.items).map (⟨·, some styles⟩) :=
  rfl

@[simp]
theorem rest_bare : (bare before after).rest = after.flatMap Node.pieces :=
  rfl

@[simp]
theorem rest_held : (held before id styles left right after).rest =
    (right.flatMap Node.items).map (⟨·, some styles⟩) ++ after.flatMap Node.pieces :=
  rfl

end Cases

variable {s : Seat} {n : Node}

theorem plug_pushLeft (ms ns : List Node) : (s.pushLeft ms).plug ns = s.plug (ms ++ ns) := by
  cases s <;> simp [pushLeft]

theorem plug_pushRight (ms ns : List Node) : (s.pushRight ms).plug ns = s.plug (ns ++ ms) := by
  cases s <;> simp [pushRight]

@[simp]
theorem plug_prepend (ms ns : List Node) : (s.prepend ms).plug ns = ms ++ s.plug ns := by
  cases s <;> simp [prepend]

@[simp]
theorem plug_append (ms ns : List Node) : (s.append ms).plug ns = s.plug ns ++ ms := by
  cases s <;> simp [append]

@[simp]
theorem host_pushLeft (ns : List Node) : (s.pushLeft ns).host = s.host := by
  cases s <;> rfl

@[simp]
theorem host_pushRight (ns : List Node) : (s.pushRight ns).host = s.host := by
  cases s <;> rfl

@[simp]
theorem host_prepend (ns : List Node) : (s.prepend ns).host = s.host := by
  cases s <;> rfl

@[simp]
theorem host_append (ns : List Node) : (s.append ns).host = s.host := by
  cases s <;> rfl

@[simp]
theorem rest_pushLeft (ns : List Node) : (s.pushLeft ns).rest = s.rest := by
  cases s <;> rfl

@[simp]
theorem lead_pushRight (ns : List Node) : (s.pushRight ns).lead = s.lead := by
  cases s <;> rfl

@[simp]
theorem rest_prepend (ns : List Node) : (s.prepend ns).rest = s.rest := by
  cases s <;> rfl

@[simp]
theorem lead_prepend (ns : List Node) :
    (s.prepend ns).lead = ns.flatMap Node.pieces ++ s.lead := by
  cases s <;> simp [prepend]

@[simp]
theorem lead_append (ns : List Node) : (s.append ns).lead = s.lead := by
  cases s <;> rfl

@[simp]
theorem rest_append (ns : List Node) :
    (s.append ns).rest = s.rest ++ ns.flatMap Node.pieces := by
  cases s <;> simp [append]

def seated (s : Seat) (ns : List Node) : List Piece :=
  (ns.flatMap Node.items).map (⟨·, s.host⟩)

@[simp]
theorem seated_prepend (ms ns : List Node) : (s.prepend ms).seated ns = s.seated ns := by
  simp [seated]

theorem pieces_of_isText (h : n.isText) : n.pieces = (n.items.map (⟨·, none⟩)) :=
  Node.pieces_of_not_isWrapper <| by
    unfold Node.isText Kind.isText at h
    split at h <;> simp_all [Node.isWrapper, Kind.isWrapper]

theorem flatMap_pieces_of_isText {ns : List Node} (h : ∀ n ∈ ns, n.isText) :
    ns.flatMap Node.pieces = (ns.flatMap Node.items).map (⟨·, none⟩) := by
  induction ns with
  | nil => rfl
  | cons n ns ih =>
    rw [List.flatMap_cons, List.flatMap_cons, List.map_append, ih fun m hm => h m (.tail _ hm),
      pieces_of_isText (h n (.head _))]

theorem lead_pushLeft {ns : List Node} (h : ∀ n ∈ ns, n.isText) :
    (s.pushLeft ns).lead = s.lead ++ s.seated ns := by
  cases s <;> simp [pushLeft, seated, flatMap_pieces_of_isText h]

theorem rest_pushRight {ns : List Node} (h : ∀ n ∈ ns, n.isText) :
    (s.pushRight ns).rest = s.seated ns ++ s.rest := by
  cases s <;> simp [pushRight, seated, flatMap_pieces_of_isText h]

theorem pieces_plug {ns : List Node} (h : ∀ n ∈ ns, n.isText) :
    (s.plug ns).flatMap Node.pieces = s.lead ++ s.seated ns ++ s.rest := by
  cases s with
  | bare => simp [seated, flatMap_pieces_of_isText h]
  | held => simp [seated, Node.pieces]

theorem idsAll_plug_perm (s : Seat) (ns : List Node) :
    (Node.idsAll (s.plug ns)).Perm (Node.idsAll (s.plug []) ++ Node.idsAll ns) := by
  refine List.perm_iff_count.mpr fun i => ?_
  cases s <;> simp [List.count_cons] <;> omega

theorem mem_preorderAll_plug (hn : n ∈ ns) : n ∈ Node.preorderAll (s.plug ns) := by
  have h := Node.mem_preorderAll_of_mem hn
  cases s with
  | bare => simp [h]
  | held => simp [Node.preorderAll, Node.preorder, h]

section Substitute

variable {f : Node → List Node}

theorem substituteAll_plug (h : (Node.idsAll (s.plug [n])).Nodup) :
    Node.substituteAll n.id f (s.plug [n]) = s.plug (f n) := by
  cases s with
  | bare before after =>
    have h : (Node.idsAll (before ++ n :: after)).Nodup := by simpa using h
    simpa using Node.substituteAll_at h
  | held before id styles left right after =>
    have hw : (Node.mk id (.wrapper styles) (left ++ [n] ++ right)).children =
        left ++ n :: right := by simp
    simpa [Node.withChildren] using Node.substituteAll_in h hw

end Substitute

end Seat

inductive Stretch where
  | joint (before : List Node) (id : NodeId) (styles : StyleSet)
    (left middle right after : List Node)
  | apart (first last : Seat)

namespace Stretch

def plug : Stretch → List Node → List Node → List Node
  | joint before id styles left middle right after, ns, ms =>
    before ++ .mk id (.wrapper styles) (left ++ ns ++ middle ++ ms ++ right) :: after
  | apart first last, ns, ms => first.plug ns ++ last.plug ms

-- The seat of the first text, with some nodes in the place of the other one.
def first : Stretch → List Node → Seat
  | joint before id styles left middle right after, ms =>
    .held before id styles left (middle ++ ms ++ right) after
  | apart first last, ms => first.append (last.plug ms)

-- The seat of the last text, with some nodes in the place of the other one.
def last : Stretch → List Node → Seat
  | joint before id styles left middle right after, ns =>
    .held before id styles (left ++ ns ++ middle) right after
  | apart first last, ns => last.prepend (first.plug ns)

def lead : Stretch → List Piece
  | joint before _ styles left _ _ _ =>
    before.flatMap Node.pieces ++ (left.flatMap Node.items).map (⟨·, some styles⟩)
  | apart first _ => first.lead

def middle : Stretch → List Piece
  | joint _ _ styles _ middle _ _ => (middle.flatMap Node.items).map (⟨·, some styles⟩)
  | apart first last => first.rest ++ last.lead

def rest : Stretch → List Piece
  | joint _ _ styles _ _ right after =>
    (right.flatMap Node.items).map (⟨·, some styles⟩) ++ after.flatMap Node.pieces
  | apart _ last => last.rest

def firstHost : Stretch → Option StyleSet
  | joint _ _ styles .. => some styles
  | apart first _ => first.host

def lastHost : Stretch → Option StyleSet
  | joint _ _ styles .. => some styles
  | apart _ last => last.host

def pushLeft (ns : List Node) : Stretch → Stretch
  | joint before id styles left middle right after =>
    joint before id styles (left ++ ns) middle right after
  | apart first last => apart (first.pushLeft ns) last

def pushRight (ns : List Node) : Stretch → Stretch
  | joint before id styles left middle right after =>
    joint before id styles left middle (ns ++ right) after
  | apart first last => apart first (last.pushRight ns)

variable {s : Stretch} {n m : Node}

theorem plug_first (ns ms : List Node) : (s.first ms).plug ns = s.plug ns ms := by
  cases s <;> simp [first, plug]

theorem plug_last (ns ms : List Node) : (s.last ns).plug ms = s.plug ns ms := by
  cases s <;> simp [last, plug]

@[simp]
theorem lead_first (ms : List Node) : (s.first ms).lead = s.lead := by
  cases s <;> simp [first, lead]

@[simp]
theorem rest_last (ns : List Node) : (s.last ns).rest = s.rest := by
  cases s <;> simp [last, rest]

@[simp]
theorem host_first (ms : List Node) : (s.first ms).host = s.firstHost := by
  cases s <;> simp [first, firstHost]

@[simp]
theorem host_last (ns : List Node) : (s.last ns).host = s.lastHost := by
  cases s <;> simp [last, lastHost]

theorem lead_last {ns : List Node} (h : ∀ n ∈ ns, n.isText) :
    (s.last ns).lead = s.lead ++ (ns.flatMap Node.items).map (⟨·, s.firstHost⟩) ++ s.middle := by
  cases s with
  | joint => simp [last, lead, middle, firstHost]
  | apart first last =>
    simp [Stretch.last, lead, middle, firstHost, Seat.pieces_plug h, Seat.seated]

theorem lead_pushLeft {ns : List Node} (h : ∀ n ∈ ns, n.isText) :
    (s.pushLeft ns).lead = s.lead ++ (ns.flatMap Node.items).map (⟨·, s.firstHost⟩) := by
  cases s with
  | joint => simp [pushLeft, lead, firstHost]
  | apart => simp [pushLeft, lead, firstHost, Seat.lead_pushLeft h, Seat.seated]

theorem rest_pushRight {ns : List Node} (h : ∀ n ∈ ns, n.isText) :
    (s.pushRight ns).rest = (ns.flatMap Node.items).map (⟨·, s.lastHost⟩) ++ s.rest := by
  cases s with
  | joint => simp [pushRight, rest, lastHost]
  | apart => simp [pushRight, rest, lastHost, Seat.rest_pushRight h, Seat.seated]

@[simp]
theorem middle_pushLeft (ns : List Node) : (s.pushLeft ns).middle = s.middle := by
  cases s <;> simp [pushLeft, middle]

@[simp]
theorem middle_pushRight (ns : List Node) : (s.pushRight ns).middle = s.middle := by
  cases s <;> simp [pushRight, middle]

@[simp]
theorem rest_pushLeft (ns : List Node) : (s.pushLeft ns).rest = s.rest := by
  cases s <;> simp [pushLeft, rest]

@[simp]
theorem lead_pushRight (ns : List Node) : (s.pushRight ns).lead = s.lead := by
  cases s <;> simp [pushRight, lead]

@[simp]
theorem firstHost_pushLeft (ns : List Node) : (s.pushLeft ns).firstHost = s.firstHost := by
  cases s <;> simp [pushLeft, firstHost]

@[simp]
theorem lastHost_pushLeft (ns : List Node) : (s.pushLeft ns).lastHost = s.lastHost := by
  cases s <;> simp [pushLeft, lastHost]

@[simp]
theorem firstHost_pushRight (ns : List Node) : (s.pushRight ns).firstHost = s.firstHost := by
  cases s <;> simp [pushRight, firstHost]

@[simp]
theorem lastHost_pushRight (ns : List Node) : (s.pushRight ns).lastHost = s.lastHost := by
  cases s <;> simp [pushRight, lastHost]

end Stretch

theorem append_cons_cases {as as' bs bs' : List α} (h : as ++ a :: bs = as' ++ a' :: bs') :
    (as = as' ∧ a = a' ∧ bs = bs') ∨ (∃ cs, bs = cs ++ a' :: bs' ∧ as' = as ++ a :: cs) ∨
      (∃ cs, bs' = cs ++ a :: bs ∧ as = as' ++ a' :: cs) := by
  induction as generalizing as' with
  | nil =>
    cases as' with
    | nil => injection h with h h'; exact .inl ⟨rfl, h, h'⟩
    | cons => injection h with h h'; exact .inr <| .inl ⟨_, h', by rw [h]; rfl⟩
  | cons b as ih =>
    cases as' with
    | nil => injection h with h h'; exact .inr <| .inr ⟨_, h'.symm, by rw [h]; rfl⟩
    | cons =>
      injection h with h h'
      subst h
      obtain ⟨rfl, h⟩ | ⟨cs, h, rfl⟩ | ⟨cs, h, rfl⟩ := ih h'
      case inl => exact .inl ⟨rfl, h⟩
      case inr.inl => exact .inr <| .inl ⟨cs, h, rfl⟩
      case inr.inr => exact .inr <| .inr ⟨cs, h, rfl⟩

namespace Seat

def before : Seat → List Node
  | bare before _ => before
  | held before .. => before

def after : Seat → List Node
  | bare _ after => after
  | held _ _ _ _ _ after => after

def child (n : Node) : Seat → Node
  | bare .. => n
  | held _ id styles left right _ => .mk id (.wrapper styles) (left ++ n :: right)

def between (before after : List Node) : Seat → Seat
  | bare .. => bare before after
  | held _ id styles left right _ => held before id styles left right after

theorem plug_eq (s : Seat) (n : Node) : s.plug [n] = s.before ++ s.child n :: s.after := by
  cases s <;> simp [before, after, child]

theorem stretch_of_after {s s' : Seat} (hb : s'.before = s.before ++ s.child n :: cs)
    (ha : s.after = cs ++ s'.child m :: s'.after) :
    ∃ p : Stretch, s = p.first [m] ∧ s' = p.last [n] := by
  refine ⟨.apart (s.between s.before cs) (s'.between [] s'.after), ?_, ?_⟩
  · cases s <;> cases s' <;>
      simp_all [Stretch.first, append, between, before, after, child]
  · cases s <;> cases s' <;>
      simp_all [Stretch.last, prepend, between, before, after, child]

theorem same_or_stretch {s s' : Seat} {n m : Node} (h : s.plug [n] = s'.plug [m])
    (hn : n.isText) (hm : m.isText) :
    (s = s' ∧ n = m) ∨ (∃ p : Stretch, s = p.first [m] ∧ s' = p.last [n]) ∨
      (∃ p : Stretch, s' = p.first [n] ∧ s = p.last [m]) := by
  rw [plug_eq, plug_eq] at h
  obtain ⟨hb, hc, ha⟩ | ⟨cs, ha, hb⟩ | ⟨cs, ha, hb⟩ := append_cons_cases h
  case inr.inl => exact .inr <| .inl <| stretch_of_after hb ha
  case inr.inr => exact .inr <| .inr <| stretch_of_after hb ha
  -- Both texts are in one child of the block.
  cases s <;> cases s' <;> simp only [before, after, child] at hb hc ha <;> subst hb ha
  case bare.bare => exact .inl ⟨rfl, hc⟩
  case bare.held => simp [hc, Node.isText, Kind.isText] at hn
  case held.bare => simp [← hc, Node.isText, Kind.isText] at hm
  case held.held before id styles left right after id' styles' left' right' =>
    injection hc with hi hk hc
    injection hk with hk
    subst hi hk
    obtain ⟨rfl, rfl, rfl⟩ | ⟨cs, rfl, rfl⟩ | ⟨cs, rfl, rfl⟩ := append_cons_cases hc
    case inl => exact .inl ⟨rfl, rfl⟩
    case inr.inl =>
      exact .inr <| .inl ⟨.joint before id styles left cs right' after, by simp [Stretch.first],
        by simp [Stretch.last]⟩
    case inr.inr =>
      exact .inr <| .inr ⟨.joint before id styles left' cs right after, by simp [Stretch.first],
        by simp [Stretch.last]⟩

end Seat

end RichText
