namespace RichText

-- A finite set of style tags, kept in code-point order without repetition.
structure StyleSet where
  tags : List String
  sorted : tags.Pairwise (· < ·)
deriving DecidableEq

namespace StyleSet

theorem ext_tags {s₁ s₂ : StyleSet} (h : s₁.tags = s₂.tags) : s₁ = s₂ := by
  cases s₁; cases s₂; simp_all

instance : Membership String StyleSet where
  mem s tag := tag ∈ s.tags

theorem mem_def {s : StyleSet} {tag : String} : tag ∈ s ↔ tag ∈ s.tags :=
  Iff.rfl

instance (tag : String) (s : StyleSet) : Decidable (tag ∈ s) :=
  decidable_of_iff (tag ∈ s.tags) mem_def.symm

def empty : StyleSet where
  tags := []
  sorted := .nil

instance : EmptyCollection StyleSet := ⟨empty⟩

instance : Inhabited StyleSet := ⟨∅⟩

@[simp]
theorem tags_empty : (∅ : StyleSet).tags = [] :=
  rfl

@[simp]
theorem not_mem_empty {tag : String} : tag ∉ (∅ : StyleSet) := by
  simp [mem_def]

def isEmpty (s : StyleSet) : Bool :=
  s.tags.isEmpty

@[simp]
theorem isEmpty_iff {s : StyleSet} : s.isEmpty ↔ s = ∅ := by
  rw [isEmpty, List.isEmpty_iff]
  exact ⟨fun h => ext_tags h, (· ▸ rfl)⟩

def size (s : StyleSet) : Nat :=
  s.tags.length

def insertTag (tag : String) : List String → List String
  | [] => [tag]
  | t :: ts =>
    if tag < t then tag :: t :: ts
    else if tag = t then t :: ts
    else t :: insertTag tag ts

@[simp]
theorem mem_insertTag {tag t : String} {ts : List String} :
    t ∈ insertTag tag ts ↔ t = tag ∨ t ∈ ts := by
  induction ts with
  | nil => simp [insertTag]
  | cons hd tl ih =>
    simp only [insertTag]
    split
    case isTrue => simp
    case isFalse =>
      split
      case isTrue h => subst h; simp
      case isFalse => simp [ih]; grind

theorem insertTag_sorted {tag : String} {ts : List String} (h : ts.Pairwise (· < ·)) :
    (insertTag tag ts).Pairwise (· < ·) := by
  induction ts with
  | nil => simp [insertTag]
  | cons hd tl ih =>
    have ⟨hh, ht⟩ := List.pairwise_cons.mp h
    simp only [insertTag]
    split
    case isTrue hl =>
      refine List.pairwise_cons.mpr ⟨fun t m => ?_, h⟩
      cases List.mem_cons.mp m
      case inl e => exact e ▸ hl
      case inr m => exact String.lt_trans hl (hh t m)
    case isFalse hl =>
      split
      case isTrue => exact h
      case isFalse hn =>
        refine List.pairwise_cons.mpr ⟨fun t m => ?_, ih ht⟩
        cases mem_insertTag.mp m
        case inl e =>
          subst e
          apply String.not_le.mp
          exact fun hle => hn (String.le_antisymm hle (String.not_lt.mp hl))
        case inr m => exact hh t m

def insert (s : StyleSet) (tag : String) : StyleSet where
  tags := insertTag tag s.tags
  sorted := insertTag_sorted s.sorted

@[simp]
theorem mem_insert {s : StyleSet} {tag t : String} : t ∈ s.insert tag ↔ t = tag ∨ t ∈ s :=
  mem_insertTag

def erase (s : StyleSet) (tag : String) : StyleSet where
  tags := s.tags.filter (· ≠ tag)
  sorted := s.sorted.filter _

@[simp]
theorem mem_erase {s : StyleSet} {tag t : String} : t ∈ s.erase tag ↔ t ∈ s ∧ t ≠ tag := by
  simp [mem_def, erase]

def single (tag : String) : StyleSet :=
  insert ∅ tag

@[simp]
theorem mem_single {tag t : String} : t ∈ single tag ↔ t = tag := by
  simp [single]

def ofList (tags : List String) : StyleSet :=
  tags.foldl insert ∅

def filter (s : StyleSet) (p : String → Bool) : StyleSet where
  tags := s.tags.filter p
  sorted := s.sorted.filter _

@[simp]
theorem mem_filter {s : StyleSet} {p : String → Bool} {t : String} :
    t ∈ s.filter p ↔ t ∈ s ∧ p t := by
  simp [mem_def, filter]

instance : Inter StyleSet where
  inter s₁ s₂ := s₁.filter (· ∈ s₂)

@[simp]
theorem mem_inter {s₁ s₂ : StyleSet} {t : String} : t ∈ s₁ ∩ s₂ ↔ t ∈ s₁ ∧ t ∈ s₂ := by
  simp [Inter.inter]

instance : Union StyleSet where
  union s₁ s₂ := s₂.tags.foldl insert s₁

theorem mem_foldl_insert {s : StyleSet} {ts : List String} {t : String} :
    t ∈ ts.foldl insert s ↔ t ∈ s ∨ t ∈ ts := by
  induction ts generalizing s with
  | nil => simp
  | cons hd tl ih => simp [ih]; grind

@[simp]
theorem mem_union {s₁ s₂ : StyleSet} {t : String} : t ∈ s₁ ∪ s₂ ↔ t ∈ s₁ ∨ t ∈ s₂ :=
  mem_foldl_insert

@[simp]
theorem mem_ofList {ts : List String} {t : String} : t ∈ ofList ts ↔ t ∈ ts := by
  simp [ofList, mem_foldl_insert]

def classes (s : StyleSet) : String :=
  String.intercalate " " s.tags

theorem ext {s₁ s₂ : StyleSet} (h : ∀ t, t ∈ s₁ ↔ t ∈ s₂) : s₁ = s₂ := by
  apply ext_tags
  simp only [mem_def] at h
  have h₁ := s₁.sorted
  have h₂ := s₂.sorted
  revert h h₁ h₂
  generalize s₁.tags = l₁
  generalize s₂.tags = l₂
  induction l₁ generalizing l₂ with
  | nil =>
    intro h _ _
    cases l₂ with
    | nil => rfl
    | cons hd _ => simpa using h hd
  | cons a l₁ ih =>
    intro h h₁ h₂
    cases l₂ with
    | nil => simpa using h a
    | cons b l₂ =>
      have ⟨ha, p₁⟩ := List.pairwise_cons.mp h₁
      have ⟨hb, p₂⟩ := List.pairwise_cons.mp h₂
      have hab : a = b := by
        cases List.mem_cons.mp ((h a).mp (by simp))
        case inl e => exact e
        case inr m =>
          cases List.mem_cons.mp ((h b).mpr (by simp))
          case inl e => exact e.symm
          case inr m' => exact absurd (ha b m') (String.lt_asymm (hb a m))
      subst hab
      congr 1
      refine ih _ (fun t => ⟨fun m => ?_, fun m => ?_⟩) p₁ p₂
      · cases List.mem_cons.mp ((h t).mp (by simp [m]))
        case inl e => exact absurd (e ▸ ha t m) (String.lt_irrefl _)
        case inr m => exact m
      · cases List.mem_cons.mp ((h t).mpr (by simp [m]))
        case inl e => exact absurd (e ▸ hb t m) (String.lt_irrefl _)
        case inr m => exact m

end RichText.StyleSet
