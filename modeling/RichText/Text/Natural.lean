import RichText.Text.Digit

namespace RichText.Text

def naturalBound : Nat :=
  UInt64.size

-- Reads ASCII digits, with at most one plus sign before them, as a number of 64 bits.
def natural? (cs : List Char) : Option Nat :=
  let digits := match cs with
    | '+' :: ds => ds
    | ds => ds
  (digits? 10 digits).filter (· < naturalBound)

end RichText.Text
