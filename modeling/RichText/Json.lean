namespace RichText

-- A JSON value as it was written. A string is `none` if its escapes leave half of a surrogate pair:
-- such a string may be passed over but not read.
inductive Json where
  | null
  | bool (b : Bool)
  | number (literal : String)
  | string (s : Option String)
  | array (items : List Json)
  -- In the order written, with keys that occur twice.
  | object (members : List (Option String × Json))
deriving Inhabited

end RichText
