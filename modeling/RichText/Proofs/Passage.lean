import RichText.Proofs.Landmark

namespace RichText

-- Where a walk through leaves comes to a halt: in a text, or beside a place among siblings, which
-- may not be known.
inductive Halt where
  | text (id : NodeId) (offset : Nat)
  | before (site? : Option Site)
  | after (site? : Option Site)

namespace Halt

def position (stop : Position) : Halt → Position
  | text id offset => ⟨id, offset⟩
  | before site? => (site?.map Site.before).getD stop
  | after site? => (site?.map Site.after).getD stop

def place (site : Site) : Halt → Halt
  | text id offset => text id offset
  | before site? => before (some (site?.getD site))
  | after site? => after (some (site?.getD site))

-- The halt is beside a place, and not in a text. If the place is known, it is a child of one of the
-- nodes.
def Among (ids : List NodeId) : Halt → Prop
  | text _ _ => False
  | before site? | after site? => ∀ s ∈ site?, s.parent ∈ ids

end Halt

namespace Island

def place (site : Site) (i : Island) : Island :=
  { i with site? := some (i.site?.getD site) }

end Island

namespace Leaf

def place (site : Site) (l : Leaf) : Leaf :=
  { l with site? := some (l.site?.getD site), islands := l.islands.map (Island.place site) }

-- How far a walk has come: the embed that it has passed over, if it is in one, and the offsets that
-- remain.
abbrev Progress : Type :=
  Option NodeId × Nat

def step (p : Progress) (l : Leaf) : Except Halt Progress :=
  if l.islands.any (some ·.id = p.1) then .ok p
  else match l.kind, l.islands with
    | .text _, island :: _ =>
      if p.2 = 0 then .error (.before island.site?)
      else if p.2 ≤ island.length then .error (.after island.site?)
      else .ok (some island.id, p.2 - island.length)
    | .text content, [] =>
      if p.2 ≤ content.length then .error (.text l.id p.2) else .ok (none, p.2 - content.length)
    | .lineBreak true, _ => .error (.before l.site?)
    | .lineBreak false, _ => if p.2 = 0 then .error (.before l.site?) else .ok (none, p.2 - 1)
    | _, _ => .ok (none, p.2)

def pass (p : Progress) (ls : List Leaf) : Except Halt Progress :=
  ls.foldlM step p

theorem pass_cons (p : Progress) (l : Leaf) (ls : List Leaf) :
    pass p (l :: ls) = (l.step p).bind (pass · ls) :=
  List.foldlM_cons ..

variable {p : Progress}

theorem seek_cons (stop : Position) (l : Leaf) (ls : List Leaf) :
    seek stop p.1 p.2 (l :: ls) = match l.step p with
      | .error h => h.position stop
      | .ok p => seek stop p.1 p.2 ls := by
  have ⟨i, k, site?, islands⟩ := l
  rw [seek, step]
  cases k <;> split
  case text.isFalse => cases islands <;> simp only <;> split_ifs <;> rfl
  case lineBreak.isFalse trailing _ =>
    cases trailing
    case false => simp only; split_ifs <;> rfl
    case true => rfl
  all_goals rfl

-- A walk through a block is a walk through its first leaves, and from there through the others.
theorem seek_append (stop : Position) (ls rest : List Leaf) :
    seek stop p.1 p.2 (ls ++ rest) = match pass p ls with
      | .error h => h.position stop
      | .ok p => seek stop p.1 p.2 rest := by
  induction ls generalizing p with
  | nil => rfl
  | cons l ls ih =>
    rw [List.cons_append, seek_cons, pass_cons]
    cases l.step p with
    | error => rfl
    | ok => exact ih

theorem step_place (site : Site) (l : Leaf) :
    (l.place site).step p = (l.step p).mapError (Halt.place site) := by
  have ⟨i, k, site?, islands⟩ := l
  have ha : (islands.map (Island.place site)).any (some ·.id = p.1) =
      islands.any (some ·.id = p.1) := List.any_map
  rw [place, step, step]
  simp only [ha]
  split
  case isTrue => rfl
  case isFalse =>
    cases k
    case text => cases islands <;> simp only [apply_ite (Except.mapError (Halt.place site))] <;> rfl
    case lineBreak trailing =>
      cases trailing
      case false => simp only [apply_ite (Except.mapError (Halt.place site))]; rfl
      case true => rfl
    all_goals rfl

theorem pass_place (site : Site) (ls : List Leaf) :
    pass p (ls.map (place site)) = (pass p ls).mapError (Halt.place site) := by
  induction ls generalizing p with
  | nil => rfl
  | cons l ls ih =>
    rw [List.map_cons, pass_cons, pass_cons, step_place]
    cases l.step p with
    | error => rfl
    | ok => exact ih

-- The leaf is one of the nodes, and it and its embeds are children of them, as far as is known.
structure Placed (ids : List NodeId) (l : Leaf) : Prop where
  id : l.id ∈ ids
  site : ∀ s ∈ l.site?, s.parent ∈ ids
  islands : ∀ i ∈ l.islands, ∀ s ∈ i.site?, s.parent ∈ ids

variable {ids : List NodeId} {halt : Halt}

theorem Placed.position_mem {l : Leaf} {stop : Position} (hl : l.Placed ids)
    (h : l.step p = .error halt) (hs : stop.node ∈ ids) : (halt.position stop).node ∈ ids := by
  have place {site? : Option Site} (hp : ∀ s ∈ site?, s.parent ∈ ids) :
      ((Halt.before site?).position stop).node ∈ ids ∧
        ((Halt.after site?).position stop).node ∈ ids := by
    cases site? with
    | none => exact ⟨hs, hs⟩
    | some s => exact ⟨hp s rfl, hp s rfl⟩
  have ⟨i, k, site?, islands⟩ := l
  rw [step] at h
  split at h
  case isTrue => contradiction
  case isFalse =>
    cases k
    case text =>
      cases islands with
      | nil =>
        simp only at h
        split_ifs at h
        cases h
        exact hl.id
      | cons island islands =>
        have hi := place (hl.islands island (.head _))
        simp only at h
        split_ifs at h <;> cases h
        case pos => exact hi.left
        case pos => exact hi.right
    case lineBreak trailing _ =>
      cases trailing <;> simp only at h
      case false =>
        split_ifs at h
        cases h
        exact (place hl.site).left
      case true =>
        cases h
        exact (place hl.site).left
    all_goals contradiction

theorem seek_mem {ls : List Leaf} {stop : Position} (hl : ∀ l ∈ ls, l.Placed ids)
    (hs : stop.node ∈ ids) (p : Progress) : (seek stop p.1 p.2 ls).node ∈ ids := by
  induction ls generalizing p with
  | nil => exact hs
  | cons l ls ih =>
    rw [List.forall_mem_cons] at hl
    rw [seek_cons]
    cases h : l.step p with
    | error halt => exact hl.left.position_mem h hs
    | ok p => exact ih hl.right p

structure Within (ids : List NodeId) (l : Leaf) : Prop extends l.Placed ids where
  text : l.kind.isText → l.islands ≠ []

theorem Within.among {l : Leaf} (hl : l.Within ids) (h : l.step p = .error halt) :
    halt.Among ids := by
  have ⟨i, k, site?, islands⟩ := l
  rw [step] at h
  split at h
  case isTrue => contradiction
  case isFalse =>
    cases k
    case text =>
      cases islands with
      | nil => exact absurd rfl (hl.text rfl)
      | cons island islands =>
        have hs := hl.islands island (.head _)
        simp only at h
        split_ifs at h <;> cases h <;> exact hs
    case lineBreak trailing _ =>
      cases trailing <;> simp only at h
      case false =>
        split_ifs at h
        cases h
        exact hl.site
      case true =>
        cases h
        exact hl.site
    all_goals contradiction

theorem among_of_pass {ls : List Leaf} (hl : ∀ l ∈ ls, l.Within ids)
    (h : pass p ls = .error halt) : halt.Among ids := by
  induction ls generalizing p with
  | nil => contradiction
  | cons l ls ih =>
    rw [pass_cons] at h
    cases hs : l.step p with
    | error e =>
      rw [hs] at h
      cases h
      exact (hl l (.head _)).among hs
    | ok p =>
      rw [hs] at h
      exact ih (fun m hm => hl m (.tail _ hm)) h

end Leaf

namespace Node

mutual

theorem leaves_place (site : Site) (site? : Option Site) (islands : List Island) (n : Node) :
    (n.leaves site? islands).map (Leaf.place site) =
      n.leaves (some (site?.getD site)) (islands.map (Island.place site)) := by
  have ⟨i, k, cs⟩ := n
  rw [leaves, leaves]
  split
  case isTrue => rfl
  case isFalse =>
    rw [leavesAmong_place]
    split <;> rfl

theorem leavesAmong_place (site : Site) (parent : NodeId) (index : Nat) (islands : List Island)
    (ns : List Node) : (leavesAmong parent index islands ns).map (Leaf.place site) =
      leavesAmong parent index (islands.map (Island.place site)) ns := by
  match ns with
  | [] => rfl
  | n :: ns =>
    rw [leavesAmong, leavesAmong, List.map_append, leaves_place, leavesAmong_place]
    rfl

end

mutual

theorem placed_leaves {ids : List NodeId} {islands : List Island} {site? : Option Site}
    (hi : ∀ i ∈ islands, ∀ s ∈ i.site?, s.parent ∈ ids) (hs : ∀ s ∈ site?, s.parent ∈ ids)
    (n : Node) (hn : n.ids ⊆ ids) (hl : l ∈ n.leaves site? islands) : l.Placed ids := by
  have ⟨i, k, cs⟩ := n
  rw [ids_mk, List.cons_subset] at hn
  rw [leaves] at hl
  split at hl
  case isTrue =>
    rw [List.mem_singleton.mp hl]
    exact ⟨hn.left, hs, hi⟩
  case isFalse =>
    simp only at hl
    split at hl
    case isTrue =>
      exact placed_leavesAmong (List.forall_mem_cons.mpr ⟨hs, hi⟩) hn.left cs hn.right hl
    case isFalse => exact placed_leavesAmong hi hn.left cs hn.right hl

theorem placed_leavesAmong {ids : List NodeId} {islands : List Island} {parent : NodeId}
    (hi : ∀ i ∈ islands, ∀ s ∈ i.site?, s.parent ∈ ids) (hp : parent ∈ ids)
    (ns : List Node) (hn : idsAll ns ⊆ ids) (hl : l ∈ leavesAmong parent index islands ns) :
    l.Placed ids := by
  match ns with
  | [] => contradiction
  | n :: ns =>
    rw [idsAll_cons, List.append_subset] at hn
    cases List.mem_append.mp hl
    case inl hl => exact placed_leaves hi (by simpa using hp) n hn.left hl
    case inr hl => exact placed_leavesAmong hi hp ns hn.right hl

end

mutual

theorem islands_ne_nil_leaves {islands : List Island} (hne : islands ≠ []) (n : Node)
    (hl : l ∈ n.leaves site? islands) : l.islands ≠ [] := by
  have ⟨i, k, cs⟩ := n
  rw [leaves] at hl
  split at hl
  case isTrue => exact List.mem_singleton.mp hl ▸ hne
  case isFalse =>
    simp only at hl
    split at hl
    case isTrue => exact islands_ne_nil_leavesAmong (List.cons_ne_nil _ _) cs hl
    case isFalse => exact islands_ne_nil_leavesAmong hne cs hl

theorem islands_ne_nil_leavesAmong {islands : List Island} (hne : islands ≠ []) (ns : List Node)
    (hl : l ∈ leavesAmong parent index islands ns) : l.islands ≠ [] := by
  match ns with
  | [] => contradiction
  | n :: ns =>
    cases List.mem_append.mp hl
    case inl hl => exact islands_ne_nil_leaves hne n hl
    case inr hl => exact islands_ne_nil_leavesAmong hne ns hl

end

section Atomic

variable {n : Node} (hk : n.kind.isAtomic) (he : n.kind.isLeaf → n.children = [])

include hk he

theorem within_leaves_of_isAtomic (hl : l ∈ n.leaves none []) : l.Within n.ids := by
  refine ⟨placed_leaves (by simp) (by simp) n (List.Subset.refl _) hl, fun ht => ?_⟩
  have ⟨i, k, cs⟩ := n
  rw [leaves] at hl
  split at hl
  case isTrue =>
    rw [List.mem_singleton.mp hl] at ht
    cases k <;> contradiction
  case isFalse hc =>
    have hk : k.isEmbed := by
      cases hb : k.isBreak
      case false => simpa [Kind.isAtomic, hb] using hk
      case true =>
        have hcs : cs = [] := he (by simp [Kind.isLeaf, hb])
        simp [hcs] at hc
    simp only [hk, if_true] at hl
    exact islands_ne_nil_leavesAmong (List.cons_ne_nil _ _) cs hl

theorem among_of_pass (h : Leaf.pass p (n.leaves none []) = .error halt) : halt.Among n.ids :=
  Leaf.among_of_pass (fun _ hl => within_leaves_of_isAtomic hk he hl) h

end Atomic

-- The way through the leaves of a node does not depend on where it is.
theorem pass_leaves (p : Leaf.Progress) (site : Site) (n : Node) :
    Leaf.pass p (n.leaves (some site) []) =
      (Leaf.pass p (n.leaves none [])).mapError (Halt.place site) := by
  rw [← Leaf.pass_place, leaves_place]
  rfl

end Node

end RichText
