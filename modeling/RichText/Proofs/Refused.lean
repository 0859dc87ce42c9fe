import RichText.Proofs.Narrowed

namespace RichText

namespace Seat

variable {s : Seat} {b n : Node} {before after left right : List Node} {i : NodeId} {styles : StyleSet}

theorem isStyleable_spot_iff : (s.spot b n k).isStyleable ↔ n.isText :=
  ⟨isText_of_isStyleable, isStyleable_spot⟩

theorem not_isStyleable_of_empty {d : Spot → Spot} (hd : Spot.Descent d) :
    (d ((bare before after).spot b (.mk i (.wrapper styles) []) k)).isStyleable = false := by
  obtain h | ⟨j, h⟩ := hd.child ((bare before after).spot b (.mk i (.wrapper styles) []) k)
  case inl =>
    rw [h, Bool.eq_false_iff]
    exact fun hs => Bool.false_ne_true (isText_of_isStyleable hs)
  case inr => simp [spot, location, Location.child?] at h

end Seat

namespace Tree

variable {t : Tree} {block : NodeId} {b n : Node} {p : Position} {o : Nat}

def Starts (t : Tree) (b : Node) (p : Position) : Prop :=
  ∃ u v, t.spot b p = .ok u ∧ u.toStart = .ok v ∧ v.isStyleable

def Stops (t : Tree) (b : Node) (p : Position) : Prop :=
  ∃ u v, t.spot b p = .ok u ∧ u.toStop = .ok v ∧ v.isStyleable

theorem endpoints_isOk_iff {span : Span} (hb : t.node? block = some b) :
    (∃ e, t.endpoints block span = .ok e) ↔ t.Starts b span.start ∧ t.Stops b span.stop := by
  constructor
  case mp =>
    rintro ⟨e, h⟩
    rw [endpoints, hb] at h
    obtain ⟨start, hstart, h⟩ := bind_eq_ok.mp h
    obtain ⟨stop, hstop, h⟩ := bind_eq_ok.mp h
    obtain ⟨u, v, hu, hv, hus, hvs, -⟩ := Endpoints.moves_of_ofSpots (mapError_eq_ok.mp h)
    exact ⟨⟨start, u, hstart, hu, hus⟩, stop, v, hstop, hv, hvs⟩
  case mpr =>
    rintro ⟨⟨start, u, hstart, hu, hus⟩, stop, v, hstop, hv, hvs⟩
    have h := Endpoints.ofSpots_of hu hv hus hvs
    refine ⟨⟨u.position, v.position⟩, ?_⟩
    simp [endpoints, hb, hstart, hstop, h, bind, Except.bind, Except.mapError]

theorem starts_iff (hs : t.spot b p = .ok u) (hu : u.toStart = .ok v) :
    t.Starts b p ↔ v.isStyleable := by
  refine ⟨?_, fun h => ⟨u, v, hs, hu, h⟩⟩
  rintro ⟨_, _, hs', hu', h⟩
  cases hs.symm.trans hs'
  cases hu.symm.trans hu'
  exact h

theorem stops_iff (hs : t.spot b p = .ok u) (hu : u.toStop = .ok v) :
    t.Stops b p ↔ v.isStyleable := by
  refine ⟨?_, fun h => ⟨u, v, hs, hu, h⟩⟩
  rintro ⟨_, _, hs', hu', h⟩
  cases hs.symm.trans hs'
  cases hu.symm.trans hu'
  exact h

-- A start that meets a break or an embed at the edge of a wrapper, or that is on a block in an embed.
def isStartBarred (t : Tree) (block : NodeId) (p : Position) : Bool :=
  if p.node = block then
    let next? := ((t.children block).drop p.offset).find? (!·.kind.isAtomic)
    (t.embedBelow? block block).isSome ||
      next?.any fun n => n.isWrapper && !n.children.head?.any Node.isText
  else
    let next? := (t.children p.node)[p.offset]?.or (t.children p.node).getLast?
    (t.kind? p.node).any Kind.isWrapper && !next?.any Node.isText

def isStopBarred (t : Tree) (block : NodeId) (p : Position) : Bool :=
  if p.node = block then
    let last? := ((t.children block).take p.offset).reverse.find? (!·.kind.isAtomic)
    (t.embedBelow? block block).isSome ||
      last?.any fun n => n.isWrapper && !n.children.getLast?.any Node.isText
  else
    let last? := ((t.children p.node).take p.offset).getLast?.or (t.children p.node).head?
    (t.kind? p.node).any Kind.isWrapper && !last?.any Node.isText

section Block

variable (wf : t.WellFormed) (hb : t.node? block = some b)

include wf hb

theorem bars_text (h : Perch b p s n) : t.Starts b p ∧ t.isStartBarred block p = false ∧
    t.Stops b p ∧ t.isStopBarred block p = false := by
  have hn := wf.node?_of_mem_preorder hb h.mem_preorder
  have hi : p.node ≠ block := by
    rw [h.node, ← id_of_node? hb]
    exact Seat.id_ne (wf.nodup_ids hb) h.children
  have hw : n.kind.isWrapper = false := Node.not_isWrapper_of_isText h.isText
  have hs := wf.spot_seat hb h.children (Node.extent_of_isText h.isText ▸ h.le)
  rw [← h.node] at hs
  refine ⟨(starts_iff hs (Seat.toStart_spot h.isText)).mpr (Seat.isStyleable_spot h.isText), ?_,
    (stops_iff hs (Seat.toStop_spot h.isText)).mpr (Seat.isStyleable_spot h.isText), ?_⟩
  · rw [isStartBarred, if_neg hi, kind?, h.node, hn]
    simp [hw]
  · rw [isStopBarred, if_neg hi, kind?, h.node, hn]
    simp [hw]

section Wrapper

variable {before left right after : List Node} {i : NodeId} {styles : StyleSet}
  (hc : b.children = before ++ .mk i (.wrapper styles) (left ++ right) :: after)

include hc

theorem spot_wrapper : t.spot b ⟨i, left.length⟩ = .ok ((Seat.bare before after).spot b
    (.mk i (.wrapper styles) (left ++ right)) left.length) :=
  wf.spot_seat (s := .bare before after) (n := .mk i (.wrapper styles) (left ++ right)) hb
    (by simpa using hc) (by simp [Node.extent, Node.isText, Kind.isText])

theorem bars_wrapper : i ≠ block ∧ t.node? i = some (.mk i (.wrapper styles) (left ++ right)) := by
  have hc' : b.children =
      (Seat.bare before after).plug [.mk i (.wrapper styles) (left ++ right)] := by simpa using hc
  exact ⟨id_of_node? hb ▸ Seat.id_ne (wf.nodup_ids hb) hc',
    wf.node?_of_mem_preorder hb (Seat.mem_preorder hc')⟩

theorem starts_wrapper :
    t.Starts b ⟨i, left.length⟩ ↔ t.isStartBarred block ⟨i, left.length⟩ = false := by
  have ⟨hi, hn⟩ := bars_wrapper wf hb hc
  have hs := spot_wrapper wf hb hc
  rw [isStartBarred, if_neg hi, kind?, children, hn]
  cases right with
  | cons m right =>
    rw [starts_iff hs Seat.toStart_held, Seat.isStyleable_spot_iff]
    simp [Kind.isWrapper]
  | nil =>
    obtain rfl | ⟨left, m, rfl⟩ := left.eq_nil_or_concat
    case inl =>
      rw [starts_iff hs (Spot.toStart_of rfl rfl)]
      simp [Seat.not_isStyleable_of_empty Spot.descent_startInWrapper, Kind.isWrapper]
    case inr =>
      simp only [List.concat_eq_append, List.append_nil] at hs ⊢
      rw [starts_iff hs Seat.toStart_end, Seat.isStyleable_spot_iff]
      simp [Kind.isWrapper]

theorem stops_wrapper :
    t.Stops b ⟨i, left.length⟩ ↔ t.isStopBarred block ⟨i, left.length⟩ = false := by
  have ⟨hi, hn⟩ := bars_wrapper wf hb hc
  have hs := spot_wrapper wf hb hc
  rw [isStopBarred, if_neg hi, kind?, children, hn]
  obtain rfl | ⟨left, m, rfl⟩ := left.eq_nil_or_concat
  case inr =>
    simp only [List.concat_eq_append, List.append_assoc, List.singleton_append, List.length_append,
      List.length_singleton] at hs ⊢
    rw [stops_iff hs Seat.toStop_held, Seat.isStyleable_spot_iff]
    have e : (left ++ m :: right).take (left.length + 1) = left ++ [m] := by simp [List.take_append]
    simp [Kind.isWrapper, e]
  case inl =>
    cases right with
    | nil =>
      rw [stops_iff hs (Spot.toStop_of rfl rfl)]
      simp [Seat.not_isStyleable_of_empty Spot.descent_stopInWrapper, Kind.isWrapper]
    | cons m right =>
      rw [stops_iff hs Seat.toStop_front, Seat.isStyleable_spot_iff]
      simp [Kind.isWrapper]

end Wrapper

end Block

section Here

variable {before after : List Node} (hb : t.node? block = some b) (hk : b.kind.isLeaf = false)
  (hf : Node.Flat b.children) (hc : b.children = before ++ after)

include hb

theorem embedBelow?_eq_none_of_spot {u : Spot} (h : t.spot b ⟨block, k⟩ = .ok u) :
    t.embedBelow? block block = none := by
  rw [spot, id_of_node? hb] at h
  split at h
  case h_1 => contradiction
  case h_2 =>
    split at h
    case isTrue => contradiction
    case isFalse he => simpa using he

include hk hf hc

theorem starts_block (hne : ∃ n ∈ after, n.kind.isAtomic = false) :
    t.Starts b ⟨block, before.length⟩ ↔ t.isStartBarred block ⟨block, before.length⟩ = false := by
  obtain ⟨n, hfind⟩ : ∃ n, after.find? (!·.kind.isAtomic) = some n :=
    Option.isSome_iff_exists.mp (by simpa using hne)
  have ⟨hn, as, bs, e, ha⟩ := List.find?_eq_some_iff_append.mp hfind
  have hn : n.kind.isAtomic = false := by simpa using hn
  have ha : ∀ a ∈ as, a.kind.isAtomic := by simpa using ha
  rw [isStartBarred, if_pos rfl, children_of_node? hb, hc, List.drop_left, hfind]
  cases he : t.embedBelow? block block with
  | some i =>
    refine iff_of_false ?_ (by simp)
    rintro ⟨u, v, hu, -⟩
    simp [embedBelow?_eq_none_of_spot hb hu] at he
  | none =>
    have hs := spot_of_block hb (Node.not_isText_of_not_isLeaf hk) he (k := before.length)
      (by simp [hc])
    have hc : b.children = before ++ as ++ n :: bs := by simp [hc, e]
    cases hw : n.isWrapper
    case false =>
      have ht : n.isText := by
        have hs := (hf.child n (by simp [hc])).resolve_right (by simp [hw])
        exact (Node.solid_iff.mp hs).resolve_right (by simp [hn])
      rw [starts_iff hs (Seat.toStart_block_bare ha ht hc), Seat.isStyleable_spot_iff]
      simp [ht, hw]
    case true =>
      obtain ⟨i, k, cs⟩ := n
      cases k <;> try contradiction
      case wrapper styles =>
        cases cs with
        | nil =>
          rw [starts_iff hs (Seat.toStart_block ha hn hc)]
          simp [Seat.not_isStyleable_of_empty Spot.descent_startInWrapper, hw]
        | cons m right =>
          rw [starts_iff hs (Seat.toStart_block_held ha hc), Seat.isStyleable_spot_iff]
          simp [hw]

theorem stops_block (hne : ∃ n ∈ before, n.kind.isAtomic = false) :
    t.Stops b ⟨block, before.length⟩ ↔ t.isStopBarred block ⟨block, before.length⟩ = false := by
  obtain ⟨n, hfind⟩ : ∃ n, before.reverse.find? (!·.kind.isAtomic) = some n :=
    Option.isSome_iff_exists.mp (by simpa using hne)
  have ⟨hn, as, bs, e, ha⟩ := List.find?_eq_some_iff_append.mp hfind
  have hn : n.kind.isAtomic = false := by simpa using hn
  have ha : ∀ a ∈ as.reverse, a.kind.isAtomic := by simpa using ha
  have e : before = bs.reverse ++ n :: as.reverse := by simpa using congrArg List.reverse e
  rw [isStopBarred, if_pos rfl, children_of_node? hb, hc, List.take_left, hfind]
  cases he : t.embedBelow? block block with
  | some i =>
    refine iff_of_false ?_ (by simp)
    rintro ⟨u, v, hu, -⟩
    simp [embedBelow?_eq_none_of_spot hb hu] at he
  | none =>
    have hs := spot_of_block hb (Node.not_isText_of_not_isLeaf hk) he (k := before.length)
      (by simp [hc])
    rw [e] at hs hc
    rw [e]
    cases hw : n.isWrapper
    case false =>
      have ht : n.isText := by
        have hs := (hf.child n (by simp [hc])).resolve_right (by simp [hw])
        exact (Node.solid_iff.mp hs).resolve_right (by simp [hn])
      rw [stops_iff hs (Seat.toStop_block_bare ha ht hc), Seat.isStyleable_spot_iff]
      simp [ht, hw]
    case true =>
      obtain ⟨i, k, cs⟩ := n
      cases k with
      | wrapper styles =>
        obtain rfl | ⟨left, m, rfl⟩ := cs.eq_nil_or_concat
        case inl =>
          rw [stops_iff hs (Seat.toStop_block ha hn hc)]
          have h : (Spot.atEnd ((Seat.bare bs.reverse (as.reverse ++ after)).location b
            (.mk i (.wrapper styles) []))).stopInWrapper.isStyleable = false :=
              Seat.not_isStyleable_of_empty Spot.descent_stopInWrapper
          simp [h, hw]
        case inr =>
          rw [List.concat_eq_append] at hs hc ⊢
          rw [stops_iff hs (Seat.toStop_block_held ha hc), Seat.isStyleable_spot_iff]
          simp [Node.isWrapper, Kind.isWrapper]
      | _ => contradiction

end Here

section Shown

variable {before after : List Node} (hb : t.node? block = some b)
  (hc : b.children = before ++ after) (ho : t.showsCharAt block o)

include hb ho

theorem lt_of_showsCharAt : o < (b.children.map Node.charCount).sum := by
  rw [showsCharAt, children_of_node? hb] at ho
  cases hi : itemAt? Item.width (Node.sightsAll b.children) o with
  | none => simp [hi] at ho
  | some i => exact Node.sum_width_sightsAll b.children ▸ lt_of_itemAt? hi

include hc

theorem exists_not_isAtomic_after (hle : Piece.total (before.flatMap Node.pieces) ≤ o) :
    ∃ n ∈ after, n.kind.isAtomic = false := by
  by_contra h
  have ha : ∀ n ∈ after, n.kind.isAtomic := by simpa using h
  have hcl := charless_of_isAtomic hb (s := .bare before []) (by simpa using hc) ha
  have hlt := lt_of_showsCharAt hb ho
  rw [hc, List.map_append, List.sum_append, ← Node.total_pieces] at hlt
  exact absurd ho (by simp [hcl o hle hlt])

theorem exists_not_isAtomic_before (hlt : o < Piece.total (before.flatMap Node.pieces)) :
    ∃ n ∈ before, n.kind.isAtomic = false := by
  by_contra h
  have ha : ∀ n ∈ before, n.kind.isAtomic := by simpa using h
  have hcl := charless_of_isAtomic hb (s := .bare [] after) (by simpa using hc) ha
  rw [Node.total_pieces] at hlt
  exact absurd ho (by simp [hcl o (Nat.zero_le _) (by simpa using hlt)])

end Shown

section Flat

variable (wf : t.WellFormed) (hb : t.node? block = some b) (hk : b.kind.isLeaf = false)
  (hf : Node.Flat b.children)

include wf hb hk hf

theorem starts_iff_of_footing (h : Footing b p o') (hle : o' ≤ o) (ho : t.showsCharAt block o) :
    t.Starts b p ↔ t.isStartBarred block p = false := by
  cases h with
  | text hp =>
    have ⟨h, h', _, _⟩ := bars_text wf hb hp
    exact iff_of_true h h'
  | wrapper hc => exact starts_wrapper wf hb hc
  | block hc =>
    obtain rfl := id_of_node? hb
    exact starts_block hb hk hf hc (exists_not_isAtomic_after hb hc ho hle)

theorem stops_iff_of_footing (h : Footing b p o') (hlt : o < o') (ho : t.showsCharAt block o) :
    t.Stops b p ↔ t.isStopBarred block p = false := by
  cases h with
  | text hp =>
    have ⟨_, _, h, h'⟩ := bars_text wf hb hp
    exact iff_of_true h h'
  | wrapper hc => exact stops_wrapper wf hb hc
  | block hc =>
    obtain rfl := id_of_node? hb
    exact stops_block hb hk hf hc (exists_not_isAtomic_before hb hc ho hlt)

-- Offsets with a char between them are refused only if one of them is barred, and otherwise they are
-- moved over no char.
theorem endpoints_span (hr : b.Readable) {start stop : Nat} (hs : t.Unenclosed block start)
    (hu : t.Unenclosed block stop) (hle : stop ≤ b.charCount)
    (hc : ∃ o, start ≤ o ∧ o < stop ∧ t.showsCharAt block o) :
    ((∃ e, t.endpoints block (t.span block start stop) = .ok e) ↔
      t.isStartBarred block (t.resolve block start) = false ∧
        t.isStopBarred block (t.resolve block stop) = false) ∧
    ∀ e, t.endpoints block (t.span block start stop) = .ok e →
      let (left, right) := e.offsets t block
      ∀ o, t.showsCharAt block o → (left ≤ o ∧ o < right ↔ start ≤ o ∧ o < stop) := by
  have hn := navigable_of_readable wf hb hk hr
  have ⟨o, hso, hou, ho⟩ := hc
  have hse : start ≤ b.charCount := by omega
  have hfs := footing_resolve wf hb hk hf hn hs hse
  have hfu := footing_resolve wf hb hk hf hn hu hle
  refine ⟨?_, fun e h o ho => ?_⟩
  case refine_1 =>
    rw [endpoints_isOk_iff hb]
    exact and_congr (starts_iff_of_footing wf hb hk hf hfs hso ho)
      (stops_iff_of_footing wf hb hk hf hfu hou ho)
  case refine_2 =>
    have ⟨hl, hr'⟩ := forth_back_of_endpoints wf hb (hr.leavesEmpty hk) hk h
    have hs := offsetOf_resolve_of_unenclosed wf hb hk hn hs hse
    have hu := offsetOf_resolve_of_unenclosed wf hb hk hn hu hle
    have hle := hl.le
    have hle' := hr'.le
    simp only [span, hs, hu] at hle hle'
    constructor
    case mp => exact fun h => ⟨by omega, by omega⟩
    case mpr =>
      refine fun h => ⟨?_, ?_⟩
      · by_contra hlt
        exact absurd ho (by simp [hl.charless o (by simpa [span, hs] using h.left) (by omega)])
      · by_contra hge
        exact absurd ho (by simp [hr'.charless o (by omega) (by simpa [span, hu] using h.right)])

end Flat

end Tree

-- An embed in front, one inside a wrapper, and a break on either side of the last text.
def Node.fringed : Node :=
  .mk ⟨0⟩ (.block "p" 0 true) [
    .mk ⟨1⟩ (.embed "math") [.mk ⟨2⟩ (.text "x") []],
    .mk ⟨3⟩ (.wrapper (.single "i")) [
      .mk ⟨4⟩ (.text "a") [],
      .mk ⟨5⟩ (.embed "math") [.mk ⟨6⟩ (.text "y") []],
      .mk ⟨7⟩ (.text "b") []],
    .mk ⟨8⟩ (.lineBreak false) [],
    .mk ⟨9⟩ (.text "c") [],
    .mk ⟨10⟩ (.lineBreak true) []]

def Tree.fringed : Tree where
  roots := [.fringed]
  made := 11

-- The place right after the embed in the wrapper will do for a start, but not for a stop.
theorem Tree.endpoints_span_fringed :
    fringed.WellFormed ∧ fringed.node? ⟨0⟩ = some .fringed ∧ Node.fringed.kind.isLeaf = false ∧
      Node.Flat Node.fringed.children ∧ Node.fringed.Readable ∧
      (∀ o ∈ [1, 3, 6], fringed.Unenclosed ⟨0⟩ o) ∧ 6 ≤ Node.fringed.charCount ∧
      fringed.showsCharAt ⟨0⟩ 1 ∧ fringed.showsCharAt ⟨0⟩ 3 ∧
      (∃ e, fringed.endpoints ⟨0⟩ (fringed.span ⟨0⟩ 3 6) = .ok e ∧
        let (left, right) := e.offsets fringed ⟨0⟩
        ∀ o, fringed.showsCharAt ⟨0⟩ o → (left ≤ o ∧ o < right ↔ 3 ≤ o ∧ o < 6)) ∧
      ¬∃ e, fringed.endpoints ⟨0⟩ (fringed.span ⟨0⟩ 1 3) = .ok e := by
  have wf : fringed.WellFormed := by decide
  have hb : fringed.node? ⟨0⟩ = some .fringed := rfl
  have hf : Node.Flat Node.fringed.children := ⟨by decide, by decide⟩
  have hr : Node.fringed.Readable := by decide
  have hu : ∀ o ∈ [1, 3, 6], fringed.Unenclosed ⟨0⟩ o := by decide
  have hle : 6 ≤ Node.fringed.charCount := by decide
  have ho : fringed.showsCharAt ⟨0⟩ 1 := by decide
  have ho' : fringed.showsCharAt ⟨0⟩ 3 := by decide
  have ⟨hok, hin⟩ := endpoints_span wf hb rfl hf hr (hu 3 (by simp)) (hu 6 (by simp)) hle
    ⟨3, by decide, by decide, ho'⟩
  have ⟨hno, _⟩ := endpoints_span wf hb rfl hf hr (hu 1 (by simp)) (hu 3 (by simp))
    (by decide : 3 ≤ Node.fringed.charCount) ⟨1, by decide, by decide, ho⟩
  have ⟨e, h⟩ := hok.mpr (by decide)
  exact ⟨wf, hb, rfl, hf, hr, hu, hle, ho, ho', ⟨e, h, hin e h⟩, hno.not.mpr (by decide)⟩

end RichText
