import RichText.Restyle.Shared

namespace RichText.Tree

-- Adds a style to a span. A span that cannot be styled comes back as it is.
def apply (t : Tree) (block : NodeId) (span : Span) (tag : String) : Span × Tree :=
  let (r, t') := t.tryApply block span tag
  (r.toOption.getD span, t')

-- Takes a style from a span. A span that cannot be styled comes back as it is.
def clear (t : Tree) (block : NodeId) (span : Span) (tag : String) : Span × Tree :=
  let (r, t') := t.tryClear block span tag
  (r.toOption.getD span, t')

theorem apply_eq (t : Tree) (block : NodeId) (span : Span) (tag : String) :
    t.apply block span tag = (t.applyStyle block span tag).toOption.getD (span, t) := by
  rw [apply, tryApply_eq]
  cases t.applyStyle block span tag <;> rfl

theorem clear_eq (t : Tree) (block : NodeId) (span : Span) (tag : String) :
    t.clear block span tag = (t.clearStyle block span tag).toOption.getD (span, t) := by
  rw [clear, tryClear_eq]
  cases t.clearStyle block span tag <;> rfl

-- The styles that every char in a span has, none if the span cannot be styled.
def styles (t : Tree) (block : NodeId) (span : Span) : StyleSet :=
  (t.stylesIn block span).toOption.getD ∅

def toggle (t : Tree) (block : NodeId) (span : Span) (tag : String) : Span × Tree :=
  if tag ∈ t.styles block span then t.clear block span tag else t.apply block span tag

end RichText.Tree
