import RichText.Embed
import RichText.Markup.Entity
import RichText.Text.Blank
import RichText.Text.Digit

namespace RichText.Diagram

def hex (s : String) : List Char :=
  (s.toList.flatMap String.utf8EncodeChar).flatMap fun b =>
    [Text.hexDigit (b.toNat / 16), Text.hexDigit (b.toNat % 16)]

def url (base source : String) : String :=
  base ++ String.ofList ('~' :: 'h' :: hex source)

def image (url : String) : String :=
  "<img class=\"diagram\" src=\"" ++ String.ofList (Markup.escapeQuoted url.toList) ++
    "\" alt=\"diagram\">"

-- An image served by a diagram server. A source of nothing but blanks has none.
def render (base source : String) : Rendering :=
  if source.toList.all Text.isBlank then ⟨"", some "diagram source is empty"⟩
  else ⟨image (url base source), none⟩

end RichText.Diagram
