import RichText.Proofs.PastedRuns

namespace RichText

namespace Run

end Run

namespace Node

theorem textContent_eq (n : Node) : n.textContent.toList =
    n.text.toList ++ n.children.flatMap (·.textContent.toList) := by
  obtain ⟨i, k, cs⟩ := n
  have hc (n : Node) : n.textContent.toList = n.preorder.flatMap (·.text.toList) := by
    rw [textContent, String.toList_join, List.flatMap_map]
  simp [hc, preorder, preorderAll_eq_flatMap, List.flatMap_assoc]

theorem text_of_not_isText {n : Node} (h : n.isText = false) : n.text = "" := by
  have ⟨i, k, cs⟩ := n
  cases k <;> first | contradiction | rfl

end Node

namespace Paste

variable {c : PasteConfig} {held : Run} {n : Node}

def fragment (markup : String) : Node :=
  .mk ⟨0⟩ (.element "fragment") (Markup.parseAfter [] 1 markup).1.nodes

def kept (c : PasteConfig) (n : Node) : StyleSet :=
  match n.kind with
  | .wrapper own => own.filter c.allows
  | _ => ∅

example : sanitize {} "<html><body>x<span class=\"edt-b k\">y&nbsp;z</span></body></html>" =
    [⟨"x", ∅⟩, ⟨"y z", .single "edt-b"⟩] := by
  decide +kernel

end Paste

end RichText
