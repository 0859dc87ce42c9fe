namespace RichText

-- The markup of an embed. With an error, the markup stands in for what could not be rendered.
structure Rendering where
  markup : String
  error? : Option String

namespace Rendering

def appendTo (r : Rendering) (written : String) : String :=
  written ++ r.markup

end Rendering

end RichText
