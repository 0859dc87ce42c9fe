import RichText.Proofs.Draft

namespace List

variable {p : α → Bool}

theorem takeWhile_append_cons (h : p b = false) (as bs : List α) :
    (as ++ b :: bs).takeWhile p = as.takeWhile p := by
  induction as with
  | nil => simp [h]
  | cons a as ih => simp only [cons_append, takeWhile_cons, ih]

theorem dropWhile_append_cons (h : p b = false) (as bs : List α) :
    (as ++ b :: bs).dropWhile p = as.dropWhile p ++ b :: bs := by
  induction as with
  | nil => simp [h]
  | cons a as ih =>
    simp only [cons_append, dropWhile_cons, ih]
    split <;> rfl

end List

namespace RichText

namespace Seat

variable {s : Seat} {n : Node}

def shell (i : NodeId) (styles : StyleSet) : List Node → List Node
  | [] => []
  | cs => [.mk i (.wrapper styles) cs]

def head : Seat → List Node
  | bare before _ => before
  | held before i styles left _ _ => before ++ shell i styles left

-- The text in its own wrapper. The old wrapper stays with what is before the text, if anything is.
def own (next : Nat) (n : Node) : Seat → Node
  | bare .. => n
  | held _ i styles [] _ _ => .mk i (.wrapper styles) [n]
  | held _ _ styles (_ :: _) [] _ => .mk ⟨next⟩ (.wrapper styles) [n]
  | held _ _ styles (_ :: _) (_ :: _) _ => .mk ⟨next + 1⟩ (.wrapper styles) [n]

def tail (next : Nat) : Seat → List Node
  | bare _ after => after
  | held _ _ styles _ right after => shell ⟨next⟩ styles right ++ after

theorem pieces_shell (i : NodeId) (styles : StyleSet) (cs : List Node) :
    (shell i styles cs).flatMap Node.pieces = (cs.flatMap Node.items).map (⟨·, some styles⟩) := by
  cases cs <;> simp [shell, Node.pieces]

theorem pieces_head (s : Seat) : s.head.flatMap Node.pieces = s.lead := by
  cases s <;> simp [head, pieces_shell]

theorem pieces_tail (s : Seat) (next : Nat) : (s.tail next).flatMap Node.pieces = s.rest := by
  cases s <;> simp [tail, pieces_shell]

theorem pieces_own (h : n.isText) (s : Seat) (next : Nat) :
    (s.own next n).pieces = s.seated [n] := by
  rcases s with _ | ⟨_, _, _, _ | _, _ | _, _⟩
  case bare => simp [own, seated, pieces_of_isText h]
  all_goals simp [own, seated, Node.pieces]

@[simp]
theorem head_prepend (ns : List Node) : (s.prepend ns).head = ns ++ s.head := by
  cases s <;> simp [head, prepend]

@[simp]
theorem tail_prepend (ns : List Node) : (s.prepend ns).tail next = s.tail next := by
  cases s <;> rfl

@[simp]
theorem tail_append (ns : List Node) : (s.append ns).tail next = s.tail next ++ ns := by
  cases s <;> simp [tail, append]

end Seat

namespace Stretch

variable {s : Stretch} {n m : Node}

def inner (s : Stretch) (n m : Node) : List Piece :=
  n.items.map (⟨·, s.firstHost⟩) ++ s.middle ++ m.items.map (⟨·, s.lastHost⟩)

theorem pieces_plug (hn : n.isText) (hm : m.isText) :
    (s.plug [n] [m]).flatMap Node.pieces = s.lead ++ s.inner n m ++ s.rest := by
  rw [← plug_last, Seat.pieces_plug (by simpa using hm), lead_last (by simpa using hn)]
  simp [inner, Seat.seated]

theorem first_pushLeft (ns ms : List Node) :
    (s.pushLeft ns).first ms = (s.first ms).pushLeft ns := by
  cases s with
  | joint => rfl
  | apart first last => cases first <;> rfl

theorem last_pushRight (ns ms : List Node) :
    (s.pushRight ms).last ns = (s.last ns).pushRight ms := by
  cases s with
  | joint => rfl
  | apart first last => cases last <;> rfl

-- The seat of the last text in what comes after the first one, when that has its own wrapper.
def tail (next : Nat) : Stretch → Seat
  | joint _ _ styles _ middle right after => .held [] ⟨next⟩ styles middle right after
  | apart first last => last.prepend (first.tail next)

theorem tail_first (m : Node) (next : Nat) :
    (s.first [m]).tail next = (s.tail next).plug [m] := by
  cases s with
  | joint => simp [first, Seat.tail, tail, Seat.shell]
  | apart => simp [first, tail]

@[simp]
theorem lead_tail (next : Nat) : (s.tail next).lead = s.middle := by
  cases s <;> simp [tail, middle, Seat.pieces_tail]

@[simp]
theorem rest_tail (next : Nat) : (s.tail next).rest = s.rest := by
  cases s <;> simp [tail, rest]

@[simp]
theorem host_tail (next : Nat) : (s.tail next).host = s.lastHost := by
  cases s <;> simp [tail, lastHost]

end Stretch

namespace Node

theorem total_take_items {n : Node} {host : Option StyleSet} (h : n.isText)
    (hk : k ≤ n.items.length) : Piece.total ((n.items.take k).map (⟨·, host⟩)) = k := by
  have ⟨s, hs⟩ := isText_iff.mp h
  rw [items_text hs] at hk ⊢
  rw [List.length_map] at hk
  simp [Piece.total, Piece.glyphs, ← List.map_take, List.flatMap_map, hk]

theorem map_items_cut (n : Node) (host : Option StyleSet) (k : Nat) :
    n.items.map (Piece.mk · host) =
      (n.items.take k).map (⟨·, host⟩) ++ (n.items.drop k).map (⟨·, host⟩) := by
  rw [← List.map_append, List.take_append_drop]

theorem map_items_take (n : Node) (host : Option StyleSet) (h : start ≤ stop) :
    (n.items.take stop).map (Piece.mk · host) =
      (n.items.take start).map (⟨·, host⟩) ++ ((n.items.take stop).drop start).map (⟨·, host⟩) := by
  have ht : (n.items.take stop).take start = n.items.take start := by
    rw [List.take_take, Nat.min_eq_left h]
  rw [← ht, ← List.map_append, List.take_append_drop]

theorem map_items_cut₂ (n : Node) (host : Option StyleSet) (h : start ≤ stop) :
    n.items.map (Piece.mk · host) =
      (n.items.take start).map (⟨·, host⟩) ++ ((n.items.take stop).drop start).map (⟨·, host⟩) ++
        (n.items.drop stop).map (⟨·, host⟩) := by
  rw [n.map_items_cut host stop, n.map_items_take host h]

theorem flatMap_items_takeWhile (p : Node → Bool) (ns : List Node) :
    (ns.takeWhile p).flatMap items ++ (ns.dropWhile p).flatMap items = ns.flatMap items := by
  rw [← List.flatMap_append, List.takeWhile_append_dropWhile]

theorem flatMap_items_rtakeWhile (p : Node → Bool) (ns : List Node) :
    (ns.rdropWhile p).flatMap items ++ (ns.rtakeWhile p).flatMap items = ns.flatMap items := by
  rw [← List.flatMap_append, List.rdropWhile_append_rtakeWhile]

def isAbsorbed (stop : NodeId) (n : Node) : Bool :=
  n.isText && n.id ≠ stop

end Node

namespace Seat

variable {s : Seat} {n : Node}

def upto (s : Seat) (n : Node) (k : Nat) : List Piece :=
  s.lead ++ (n.items.take k).map (⟨·, s.host⟩)

theorem total_upto (h : n.isText) (hk : k ≤ n.items.length) :
    Piece.total (s.upto n k) = Piece.total s.lead + k := by
  rw [upto, Piece.total_append, Node.total_take_items h hk]

theorem length_upto (hk : k ≤ n.items.length) : (s.upto n k).length = s.lead.length + k := by
  simp [upto, hk]

end Seat

namespace Draft

structure At (d : Draft) (s : Seat) (n : Node) : Prop where
  sound : d.Sound
  content : d.content = s.plug [n]
  isText : n.isText

namespace At

variable {d : Draft} {s : Seat} {n : Node}

theorem nodup (h : d.At s n) : (Node.idsAll (s.plug [n])).Nodup :=
  h.content ▸ h.sound.nodup_content

theorem textLength (h : d.At s n) : d.textLength n.id = n.items.length := by
  have hn : d.node? n.id = some n := by
    rw [Draft.node?, h.content]
    exact Node.find?_id_of_mem h.nodup (Seat.mem_preorderAll_plug (.head _))
  simp [Draft.textLength, hn, Node.length_items_of_isText h.isText]

section Split

theorem content_splitText (h : d.At s n) (k : Nat) :
    (d.splitText n.id k).2.content = s.plug [n.takeText k, n.dropText k ⟨d.next⟩] := by
  simp [Draft.splitText, Draft.substitute, h.content, Seat.substituteAll_plug h.nodup]

theorem grows_splitText (h : d.At s n) (k : Nat) : d.Grows (d.splitText n.id k).2 := by
  refine .of_count (Nat.le_succ _) (fun he => ?_) (fun _ _ => .inl) fun i => ?_
  case refine_1 =>
    rw [h.content, Seat.leavesEmptyAll_plug] at he
    rw [h.content_splitText, Seat.leavesEmptyAll_plug]
    simpa using he
  case refine_2 =>
    rw [h.content_splitText, h.content, (s.idsAll_plug_perm _).count_eq,
      (s.idsAll_plug_perm [n]).count_eq]
    simp [Draft.splitText, Draft.substitute]
    omega

theorem splitStart (h : d.At s n) (hp : p.node = n.id) :
    ∃ ns n', (d.splitStart p).1 = n'.id ∧ (d.splitStart p).2.At (s.pushLeft ns) n' ∧
      (∀ m ∈ ns, m.isText) ∧ ns.flatMap Node.items = n.items.take p.offset ∧
      n'.items = n.items.drop p.offset ∧ d.Grows (d.splitStart p).2 := by
  unfold Draft.splitStart
  rw [hp]
  split
  case isTrue =>
    have hg := h.grows_splitText p.offset
    refine ⟨[n.takeText p.offset], n.dropText p.offset ⟨d.next⟩, rfl, ⟨h.sound.of_grows hg, ?_, rfl⟩,
      ?_, ?_, Node.items_dropText h.isText .., hg⟩
    · rw [h.content_splitText, Seat.plug_pushLeft]; rfl
    · simpa using Node.isText_takeText h.isText _
    · simpa using Node.items_takeText h.isText _
  case isFalse hz =>
    have hz : p.offset = 0 := by omega
    exact ⟨[], n, rfl, ⟨h.sound, by simp [h.content, Seat.plug_pushLeft], h.isText⟩, nofun,
      by simp [hz], by simp [hz], .refl _⟩

theorem splitStop (h : d.At s n) (hp : p.node = n.id) :
    ∃ ns n', p.node = n'.id ∧ (d.splitStop p).At (s.pushRight ns) n' ∧
      (∀ m ∈ ns, m.isText) ∧ ns.flatMap Node.items = n.items.drop p.offset ∧
      n'.items = n.items.take p.offset ∧ d.Grows (d.splitStop p) := by
  unfold Draft.splitStop
  rw [show d.textLength p.node = n.items.length from hp ▸ h.textLength]
  split
  case isTrue =>
    have hg := hp ▸ h.grows_splitText p.offset
    refine ⟨[n.dropText p.offset ⟨d.next⟩], n.takeText p.offset, hp, ⟨h.sound.of_grows hg, ?_, ?_⟩,
      ?_, ?_, Node.items_takeText h.isText _, hg⟩
    · rw [hp, h.content_splitText, Seat.plug_pushRight]; rfl
    · exact Node.isText_takeText h.isText _
    · simp
    · simp [Node.items_dropText h.isText]
  case isFalse hz =>
    have hz : n.items.length ≤ p.offset := by omega
    exact ⟨[], n, hp, ⟨h.sound, by simp [h.content, Seat.plug_pushRight], h.isText⟩, nofun,
      by simp [hz], (List.take_of_length_le hz).symm, .refl _⟩

end Split

section Held

variable {before left right after : List Node} {i : NodeId} {styles : StyleSet}

theorem holder?_bare (h : d.At (.bare before after) n) : d.holder? n.id = none := by
  refine Node.find?_holder_of_mem h.sound.nodup_content ?_
  simp [h.content]

theorem holder?_held (h : d.At (.held before i styles left right after) n) :
    d.holder? n.id = some (.mk i (.wrapper styles) (left ++ n :: right)) := by
  refine Node.find?_holder h.sound.nodup_content ?_ ?_
  · simp [h.content]
  · simp

theorem childrenAround_held (h : d.At (.held before i styles left right after) n) :
    (Node.mk i (.wrapper styles) (left ++ n :: right)).childrenAround n.id =
      (left, some n, right) := by
  have hw : Node.mk i (.wrapper styles) (left ++ n :: right) ∈
      (Seat.held before i styles left right after).plug [n] := by simp
  have hd := h.nodup.sublist (Node.ids_sublist_of_mem hw)
  rw [Node.ids_mk, List.nodup_cons] at hd
  exact Node.childrenAround_of_children hd.right rfl

theorem substitute_held (h : d.At (.held before i styles left right after) n)
    (f : Node → List Node) : Node.substituteAll i f d.content =
      before ++ f (.mk i (.wrapper styles) (left ++ n :: right)) ++ after := by
  have hc : d.content = before ++ .mk i (.wrapper styles) (left ++ n :: right) :: after := by
    simp [h.content]
  rw [hc]
  exact Node.substituteAll_at (n := .mk i (.wrapper styles) (left ++ n :: right))
    (hc ▸ h.sound.nodup_content)

end Held

theorem isolate_bare {before after : List Node} (h : d.At (.bare before after) n) :
    d.isolate n.id = (n.id, d) := by
  simp [Draft.isolate, h.holder?_bare]

theorem isolate (h : d.At s n) (hi : i = n.id) :
    (d.isolate i).1 = (s.own d.next n).id ∧
      (d.isolate i).2.content = s.head ++ s.own d.next n :: s.tail d.next ∧
      d.Grows (d.isolate i).2 := by
  subst hi
  cases s with
  | bare before after =>
    rw [h.isolate_bare]
    exact ⟨rfl, by simp [h.content, Seat.head, Seat.own, Seat.tail], .refl d⟩
  | held before i styles left right after =>
    have hi := h.holder?_held
    have hc := h.childrenAround_held
    have hs := h.substitute_held
    have hd := h.content
    rcases left with _ | ⟨l, left⟩ <;> rcases right with _ | ⟨r, right⟩ <;>
      simp only [Draft.isolate, hi, hc, Draft.substitute, Node.id_mk, hs, Seat.head, Seat.own,
        Seat.tail, Seat.shell]
    case nil.nil => exact ⟨trivial, by simp [hd], .refl d⟩
    all_goals
      refine ⟨by trivial, by simp [Node.withChildren, Node.copyAround, Kind.styles?],
        .of_count (by simp) (by simp +contextual [hd, Node.withChildren]) (fun _ _ => .inl)
          fun j => ?_⟩
      simp [hd, Node.copyAround, List.count_cons]
      omega

section Absorb

variable {before left right after : List Node} {i : NodeId} {styles : StyleSet}

theorem absorbFollowing_bare (h : d.At (.bare before after) n) (stop : NodeId) :
    d.absorbFollowing n.id stop = d := by
  simp [Draft.absorbFollowing, h.holder?_bare]

theorem absorbFollowing_eq (h : d.At (.held before i styles left right after) n) (stop : NodeId) :
    d.absorbFollowing n.id stop = {
      content := (Seat.held before i styles left (right.dropWhile (Node.isAbsorbed stop)) after).plug
        [n.appendText (.join ((right.takeWhile (Node.isAbsorbed stop)).map Node.text))]
      dropped := d.dropped ++ right.takeWhile (Node.isAbsorbed stop)
      next := d.next } := by
  simp only [Draft.absorbFollowing, h.holder?_held, h.childrenAround_held, Node.id_mk,
    Draft.substitute, h.substitute_held, Seat.plug_held, List.append_assoc]
  rfl

theorem absorbFollowing_held (h : d.At (.held before i styles left right after) n)
    (stop : NodeId) :
    ∃ n', n'.id = n.id ∧
      n'.items = n.items ++ (right.takeWhile (Node.isAbsorbed stop)).flatMap Node.items ∧
      (d.absorbFollowing n.id stop).At
        (.held before i styles left (right.dropWhile (Node.isAbsorbed stop)) after) n' ∧
      d.Grows (d.absorbFollowing n.id stop) := by
  have hc := h.content
  have hr := List.takeWhile_append_dropWhile (p := Node.isAbsorbed stop) (l := right)
  have ha := h.absorbFollowing_eq stop
  have hg : d.Grows (d.absorbFollowing n.id stop) := by
    rw [ha]
    refine .of_count (Nat.le_refl _) (fun he => ?leaves) (fun he m hm => ?husks) fun j => ?count
    case leaves =>
      have hs : Node.LeavesEmptyAll right → Node.LeavesEmptyAll (right.dropWhile _) :=
        fun h => h.of_subset (List.dropWhile_sublist (Node.isAbsorbed stop)).subset
      simp [hc] at he ⊢
      tauto
    case husks =>
      have hle : Node.LeavesEmptyAll right := by
        simp [hc] at he
        tauto
      refine (List.mem_append.mp hm).imp_right fun hm => .of_isText ?_ ?_
      case refine_1 =>
        have := List.mem_takeWhile_imp (p := Node.isAbsorbed stop) hm
        exact (Bool.and_eq_true_iff.mp this).left
      exact Node.leavesEmptyAll_iff.mp hle m ((List.takeWhile_sublist _).subset hm)
    have := congrArg (fun ns => (Node.idsAll ns).count j) hr
    simp only [Node.idsAll_append, List.count_append] at this
    simp [hc, ← this, List.count_cons]
    omega
  refine ⟨_, Node.id_appendText _, ?_,
    ⟨h.sound.of_grows hg, by rw [ha], Node.isText_appendText h.isText _⟩, hg⟩
  rw [Node.items_appendText h.isText, Node.toList_join_text]
  intro m hm
  have := List.mem_takeWhile_imp (p := Node.isAbsorbed stop) hm
  exact (Bool.and_eq_true_iff.mp this).left

theorem absorbPreceding_bare (h : d.At (.bare before after) n) : d.absorbPreceding n.id = d := by
  simp [Draft.absorbPreceding, h.holder?_bare]

theorem absorbPreceding_eq (h : d.At (.held before i styles left right after) n) :
    d.absorbPreceding n.id = {
      content := (Seat.held before i styles (left.rdropWhile Node.isText) right after).plug
        [n.prependText (.join ((left.rtakeWhile Node.isText).map Node.text))]
      dropped := d.dropped ++ left.rtakeWhile Node.isText
      next := d.next } := by
  simp only [Draft.absorbPreceding, h.holder?_held, h.childrenAround_held, Node.id_mk,
    Draft.substitute, h.substitute_held, Seat.plug_held, List.append_assoc]
  rfl

theorem absorbPreceding_held (h : d.At (.held before i styles left right after) n) :
    ∃ n', n'.id = n.id ∧
      n'.items = (left.rtakeWhile Node.isText).flatMap Node.items ++ n.items ∧
      (d.absorbPreceding n.id).At
        (.held before i styles (left.rdropWhile Node.isText) right after) n' ∧
      d.Grows (d.absorbPreceding n.id) := by
  have hc := h.content
  have hr := List.rdropWhile_append_rtakeWhile (p := Node.isText) (l := left)
  have ha := h.absorbPreceding_eq
  have hg : d.Grows (d.absorbPreceding n.id) := by
    rw [ha]
    refine .of_count (Nat.le_refl _) (fun he => ?leaves) (fun he m hm => ?husks) fun j => ?count
    case leaves =>
      have hs : Node.LeavesEmptyAll left → Node.LeavesEmptyAll (left.rdropWhile _) :=
        fun h => h.of_subset (List.rdropWhile_prefix Node.isText left).subset
      simp [hc] at he ⊢
      tauto
    case husks =>
      have hle : Node.LeavesEmptyAll left := by
        simp [hc] at he
        tauto
      refine (List.mem_append.mp hm).imp_right fun hm => .of_isText (List.mem_rtakeWhile_imp hm) ?_
      exact Node.leavesEmptyAll_iff.mp hle m ((List.rtakeWhile_suffix Node.isText left).subset hm)
    have := congrArg (fun ns => (Node.idsAll ns).count j) hr
    simp only [Node.idsAll_append, List.count_append] at this
    simp [hc, ← this, List.count_cons]
    omega
  refine ⟨_, Node.id_prependText _, ?_,
    ⟨h.sound.of_grows hg, by rw [ha], Node.isText_prependText h.isText _⟩, hg⟩
  rw [Node.items_prependText h.isText, Node.toList_join_text]
  exact fun m hm => List.mem_rtakeWhile_imp hm

theorem absorbPreceding {ns : List Node} (h : d.At (s.prepend ns) n) (hi : i = n.id) :
    ∃ (s' : Seat) (n' : Node), i = n'.id ∧ (d.absorbPreceding i).At (s'.prepend ns) n' ∧
      s'.lead ++ s'.seated [n'] = s.lead ++ s.seated [n] ∧ s'.rest = s.rest ∧
      d.Grows (d.absorbPreceding i) := by
  subst hi
  cases s with
  | bare before after =>
    rw [absorbPreceding_bare h]
    exact ⟨.bare before after, n, rfl, h, rfl, rfl, .refl d⟩
  | held before i styles left right after =>
    have ⟨n', hi, hn, hd, hg⟩ := absorbPreceding_held h
    refine ⟨.held before i styles (left.rdropWhile Node.isText) right after, n', hi.symm, hd, ?_, rfl, hg⟩
    have hr := Node.flatMap_items_rtakeWhile Node.isText left
    simp only [Seat.lead_held, Seat.seated, List.flatMap_singleton, Seat.host_held, hn, ← hr,
      List.map_append, List.append_assoc]

end Absorb

end At

structure Between (d : Draft) (p : Stretch) (n m : Node) : Prop where
  sound : d.Sound
  content : d.content = p.plug [n] [m]
  firstIsText : n.isText
  lastIsText : m.isText

theorem At.between {d : Draft} {p : Stretch} (h : d.At (p.first [m]) n) (hm : m.isText) :
    d.Between p n m where
  sound := h.sound
  content := by rw [h.content, p.plug_first]
  firstIsText := h.isText
  lastIsText := hm

theorem At.between_last {d : Draft} {p : Stretch} (h : d.At (p.last [n]) m) (hn : n.isText) :
    d.Between p n m where
  sound := h.sound
  content := by rw [h.content, p.plug_last]
  firstIsText := hn
  lastIsText := h.isText

namespace Between

variable {d : Draft} {p : Stretch} {n m : Node}

theorem first (h : d.Between p n m) : d.At (p.first [m]) n where
  sound := h.sound
  content := by rw [h.content, p.plug_first]
  isText := h.firstIsText

theorem last (h : d.Between p n m) : d.At (p.last [n]) m where
  sound := h.sound
  content := by rw [h.content, p.plug_last]
  isText := h.lastIsText

theorem pieces (h : d.Between p n m) :
    d.content.flatMap Node.pieces = p.lead ++ p.inner n m ++ p.rest := by
  rw [h.content, Stretch.pieces_plug h.firstIsText h.lastIsText]

theorem splitStart (h : d.Between p n m) (hq : q.node = n.id) :
    ∃ (p' : Stretch) (n' : Node), (d.splitStart q).1 = n'.id ∧
      (d.splitStart q).2.Between p' n' m ∧ p'.lead = (p.first [m]).upto n q.offset ∧
      (∀ k, (p'.last [n']).upto m k = (p.last [n]).upto m k) ∧
      p'.lead ++ p'.inner n' m = p.lead ++ p.inner n m ∧ p'.rest = p.rest ∧
      d.Grows (d.splitStart q).2 := by
  have ⟨ns, n', hi, hd, ht, hns, hn', hg⟩ := h.first.splitStart hq
  have hn : ∀ x ∈ [n], x.isText := by simpa using h.firstIsText
  have hn₁ : ∀ x ∈ [n'], x.isText := by simpa using hd.isText
  rw [← Stretch.first_pushLeft] at hd
  refine ⟨p.pushLeft ns, n', hi, hd.between h.lastIsText, ?_, fun k => ?_, ?_, by simp, hg⟩
  · rw [Stretch.lead_pushLeft ht, hns, Seat.upto, Stretch.lead_first, Stretch.host_first]
  · simp only [Seat.upto, Stretch.lead_last hn, Stretch.lead_last hn₁, Stretch.lead_pushLeft ht, hns,
      hn', Stretch.host_last, Stretch.firstHost_pushLeft, Stretch.lastHost_pushLeft,
      Stretch.middle_pushLeft, List.flatMap_singleton, n.map_items_cut p.firstHost q.offset,
      List.append_assoc]
  · simp only [Stretch.lead_pushLeft ht, hns, Stretch.inner, hn', Stretch.firstHost_pushLeft,
      Stretch.lastHost_pushLeft, Stretch.middle_pushLeft, n.map_items_cut p.firstHost q.offset,
      List.append_assoc]

theorem splitStop (h : d.Between p n m) (hq : q.node = m.id) :
    ∃ (p' : Stretch) (m' : Node), q.node = m'.id ∧ (d.splitStop q).Between p' n m' ∧
      p'.lead = p.lead ∧ p'.inner n m' ++ p'.rest = p.inner n m ++ p.rest ∧
      p'.lead ++ p'.inner n m' = (p.last [n]).upto m q.offset ∧
      d.Grows (d.splitStop q) := by
  have ⟨ns, m', hi, hd, ht, hns, hm', hg⟩ := h.last.splitStop hq
  rw [← Stretch.last_pushRight] at hd
  refine ⟨p.pushRight ns, m', hi, hd.between_last h.firstIsText, by simp, ?_, ?_, hg⟩
  · simp only [Stretch.rest_pushRight ht, hns, Stretch.inner, hm', Stretch.firstHost_pushRight,
      Stretch.lastHost_pushRight, Stretch.middle_pushRight, m.map_items_cut p.lastHost q.offset,
      List.append_assoc]
  · rw [Seat.upto, Stretch.lead_last (by simpa using h.firstIsText), Stretch.inner, hm',
      Stretch.lead_pushRight, Stretch.firstHost_pushRight, Stretch.lastHost_pushRight,
      Stretch.middle_pushRight, Stretch.host_last]
    simp only [List.flatMap_singleton, List.append_assoc]

theorem absorbFollowing (h : d.Between p n m) (hi : i = n.id) (hj : j = m.id) :
    ∃ (p' : Stretch) (n' : Node), i = n'.id ∧
      (d.absorbFollowing i j).Between p' n' m ∧ p'.lead = p.lead ∧
      p'.inner n' m = p.inner n m ∧ p'.rest = p.rest ∧ d.Grows (d.absorbFollowing i j) := by
  subst hi hj
  have hm : m.isAbsorbed m.id = false := by simp [Node.isAbsorbed]
  have hf := h.first
  cases p with
  | joint before i styles left middle right after =>
    obtain ⟨n', hi, hn, hd, hg⟩ := hf.absorbFollowing_held m.id
    rw [List.append_assoc, List.singleton_append, List.takeWhile_append_cons hm] at hn
    rw [List.append_assoc, List.singleton_append, List.dropWhile_append_cons hm] at hd
    let p' := Stretch.joint before i styles left (middle.dropWhile (Node.isAbsorbed m.id)) right after
    have hd : (d.absorbFollowing n.id m.id).At (p'.first [m]) n' := by
      simpa [p', Stretch.first] using hd
    refine ⟨p', n', hi.symm, hd.between h.lastIsText, rfl, ?_, rfl, hg⟩
    have hr := Node.flatMap_items_takeWhile (Node.isAbsorbed m.id) middle
    simp only [p', Stretch.inner, Stretch.middle, Stretch.firstHost, Stretch.lastHost, hn, ← hr,
      List.map_append, List.append_assoc]
  | apart first last =>
    cases first with
    | bare before after =>
      rw [hf.absorbFollowing_bare]
      exact ⟨_, n, rfl, h, rfl, rfl, rfl, .refl d⟩
    | held before i styles left right after =>
      obtain ⟨n', hi, hn, hd, hg⟩ := hf.absorbFollowing_held m.id
      let p' := Stretch.apart
        (.held before i styles left (right.dropWhile (Node.isAbsorbed m.id)) after) last
      have hd : (d.absorbFollowing n.id m.id).At (p'.first [m]) n' := hd
      refine ⟨p', n', hi.symm, hd.between h.lastIsText, rfl, ?_, rfl, hg⟩
      have hr := Node.flatMap_items_takeWhile (Node.isAbsorbed m.id) right
      simp only [p', Stretch.inner, Stretch.middle, Stretch.firstHost, Stretch.lastHost, hn, ← hr,
        Seat.rest_held, Seat.host_held, List.map_append, List.append_assoc]

theorem ne (h : d.Between p n m) : n.id ≠ m.id := by
  intro e
  have hd := ((p.last [n]).idsAll_plug_perm [m]).nodup_iff.mp h.last.nodup
  have hn : n ∈ Node.preorderAll ((p.last [n]).plug []) := by
    rw [p.plug_last, ← p.plug_first]
    exact Seat.mem_preorderAll_plug (.head _)
  rw [List.nodup_append] at hd
  exact hd.right.right _ (Node.mem_idsAll_iff.mpr ⟨n, hn, rfl⟩) _ (by simp [e, Node.id_mem_ids]) rfl

theorem isolate (h : d.Between p n m) (hi : i = n.id) :
    ∃ (ns : List Node) (own : Node) (s : Seat), (d.isolate i).1 = own.id ∧
      (d.isolate i).2.At (s.prepend (ns ++ [own])) m ∧ ns.flatMap Node.pieces = p.lead ∧
      own.pieces ++ s.lead ++ s.seated [m] = p.inner n m ∧ s.rest = p.rest ∧
      d.Grows (d.isolate i).2 := by
  have ⟨hi, hc, hg⟩ := h.first.isolate hi
  rw [p.tail_first] at hc
  refine ⟨(p.first [m]).head, (p.first [m]).own d.next n, p.tail d.next, hi,
    ⟨h.sound.of_grows hg, by simp [hc], h.lastIsText⟩, ?_, ?_, p.rest_tail _, hg⟩
  · rw [Seat.pieces_head, p.lead_first]
  · rw [Seat.pieces_own h.firstIsText, p.lead_tail]
    simp [Stretch.inner, Seat.seated]

end Between

end Draft

end RichText
