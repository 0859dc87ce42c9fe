import RichText.Embed.Diagram
import RichText.Proofs.Reread

namespace RichText

open Markup

namespace Text

def IsHexDigit (c : Char) : Prop :=
  c.isDigit ∨ 'a' ≤ c ∧ c ≤ 'f'

instance (c : Char) : Decidable (IsHexDigit c) :=
  inferInstanceAs (Decidable (_ ∨ _))

theorem isHexDigit_hexDigit {n : Nat} (h : n < 16) : IsHexDigit (hexDigit n) := by
  revert n
  decide

def bytes? : List Char → Option (List UInt8)
  | [] => some []
  | [_] => none
  | c :: d :: cs => do
    let high ← digit? 16 c
    let low ← digit? 16 d
    return .ofNat (16 * high + low) :: (← bytes? cs)

theorem bytes?_pairs (bs : List UInt8) :
    bytes? (bs.flatMap fun b => [hexDigit (b.toNat / 16), hexDigit (b.toNat % 16)]) = some bs := by
  induction bs with
  | nil => rfl
  | cons b bs ih =>
    have hb : b.toNat < 256 := b.toNat_lt
    have hh : b.toNat / 16 < 16 := by omega
    have hl : b.toNat % 16 < 16 := by omega
    have he : UInt8.ofNat (16 * (b.toNat / 16) + b.toNat % 16) = b := by
      rw [Nat.div_add_mod, UInt8.ofNat_toNat]
    rw [List.flatMap_cons, List.cons_append, List.singleton_append, bytes?, digit?_hexDigit hh,
      digit?_hexDigit hl, ih]
    exact congrArg (some <| · :: bs) he

end Text

namespace Diagram

theorem isHexDigit_of_mem_hex {source : String} {c : Char} (h : c ∈ hex source) :
    Text.IsHexDigit c := by
  have ⟨b, _, hc⟩ := List.mem_flatMap.mp h
  have hb : b.toNat < 256 := b.toNat_lt
  obtain rfl | rfl : c = _ ∨ c = _ := by simpa using hc
  · exact Text.isHexDigit_hexDigit (by omega)
  · exact Text.isHexDigit_hexDigit (by omega)

theorem bytes?_hex (source : String) :
    Text.bytes? (hex source) = some source.toUTF8.data.toList := by
  rw [hex, Text.bytes?_pairs, String.toUTF8_eq_toByteArray, ← String.utf8Encode_toList,
    List.utf8Encode, List.data_toByteArray]

theorem toList_url (base source : String) :
    (url base source).toList = base.toList ++ '~' :: 'h' :: hex source := by
  rw [url, String.toList_append, String.toList_ofList]

theorem url_inj {base source source' : String} (h : url base source = url base source') :
    source = source' := by
  have hx : hex source = hex source' := by simpa [toList_url] using congrArg String.toList h
  have hb := congrArg Text.bytes? hx
  rw [bytes?_hex, bytes?_hex, Option.some_inj] at hb
  exact String.toByteArray_inj.mp (ByteArray.ext (Array.toList_inj.mp hb))

def attributes (url : String) : List (String × String) :=
  [("class", "diagram"), ("src", url), ("alt", "diagram")]

theorem toList_image (url : String) : (image url).toList =
    "<img class=\"diagram\" src=\"".toList ++ escapeQuoted url.toList ++
      "\" alt=\"diagram\">".toList := by
  unfold image
  rw [String.toList_append, String.toList_append, String.toList_ofList (l := escapeQuoted url.toList)]

theorem image_eq_startTag (url : String) :
    (image url).toList = startTag "img" (attributes url) := by
  rw [toList_image, startTag_eq]
  simp only [attributes, List.flatMap_cons, writeAttribute, List.flatMap_nil, List.append_assoc,
    List.cons_append]
  rfl

theorem ofText_image (url : String) : Token.ofText (image url).toList =
    ([.start "img".toList ((attributes url).map .ofText) false], none) := by
  have ht : IsTag "img" := by simp [IsTag]
  have hk : ∀ a ∈ attributes url, IsKey a.1 := by simp [attributes, IsKey, isSpace]
  have hd : ((attributes url).map (·.1)).Nodup := by simp [attributes]
  have hs := Token.readStep_startTag ht hk hd []
  rw [List.append_nil, startTag_eq, List.cons_append] at hs
  rw [image_eq_startTag, startTag_eq, List.cons_append, Token.ofText]
  · simp only [List.length_cons, Token.readAll, hs, Token.readAll_nil]
    rfl
  · exact fun _ e => absurd (List.cons.inj e).left (by decide)

-- The tag of an image. Its address is a base and then the bytes of a source, in digits.
structure Tells (base source : String) (tag value pairs : List Char) : Prop where
  written : tag = "<img class=\"diagram\" src=\"".toList ++ value ++ "\" alt=\"diagram\">".toList
  read : Token.ofText tag = ([.start "img".toList [⟨"class".toList, "diagram".toList⟩,
    ⟨"src".toList, value⟩, ⟨"alt".toList, "diagram".toList⟩] false], none)
  quote : '"' ∉ value
  address : decode value = base.toList ++ '~' :: 'h' :: pairs
  digits : ∀ c ∈ pairs, Text.IsHexDigit c
  bytes : Text.bytes? pairs = some source.toUTF8.data.toList

theorem tells_image (base source : String) :
    Tells base source (image (url base source)).toList (escapeQuoted (url base source).toList)
      (hex source) where
  written := toList_image _
  read := by
    have he : escapeQuoted "diagram".toList = "diagram".toList := rfl
    simp only [ofText_image, attributes, List.map_cons, List.map_nil, Attribute.ofText, he]
  quote := not_mem_escapeQuoted _
  address := by rw [decode_escapeQuoted, toList_url]
  digits _ := isHexDigit_of_mem_hex
  bytes := bytes?_hex source

-- Whatever shows something becomes an image that it can be told from. The rest leaves no trace.
theorem render_tells (base source written : String) :
    ((∃ c ∈ source.toList, Text.isBlank c = false) → (render base source).error? = none ∧
      ∃ tag value pairs, ((render base source).appendTo written).toList = written.toList ++ tag ∧
        Tells base source tag value pairs) ∧
    ((∀ c ∈ source.toList, Text.isBlank c = true) →
      (render base source).error? = some "diagram source is empty" ∧
        (render base source).appendTo written = written) ∧
    ∀ source', url base source = url base source' → source = source' := by
  refine ⟨fun h => ?shown, fun h => ?blank, fun _ => url_inj⟩
  case shown =>
    have hr : render base source = ⟨image (url base source), none⟩ := if_neg (by simpa using h)
    rw [hr]
    exact ⟨rfl, _, _, _, String.toList_append, tells_image base source⟩
  case blank =>
    have hr : render base source = ⟨"", some "diagram source is empty"⟩ := if_pos (by simpa using h)
    rw [hr]
    exact ⟨rfl, String.append_empty⟩

-- A base that looks like the end of its attribute, and like a reference.
theorem render_tells_quoted :
    (∃ c ∈ "é".toList, Text.isBlank c = false) ∧
      (∃ tag value pairs, ((render "/\"&amp;/" "é").appendTo "<p>").toList = "<p>".toList ++ tag ∧
        Tells "/\"&amp;/" "é" tag value pairs) ∧
      (url "/\"&amp;/" "é").toList = "/\"&amp;/~hc3a9".toList ∧
      (∀ c ∈ "\u3000".toList, Text.isBlank c = true) ∧
      (render "/\"&amp;/" "\u3000").appendTo "<p>" = "<p>" := by
  have h : ∃ c ∈ "é".toList, Text.isBlank c = false := ⟨'é', by simp, by decide⟩
  have hb : ∀ c ∈ "\u3000".toList, Text.isBlank c = true := by simp [Text.isBlank]
  have hs := (render_tells "/\"&amp;/" "é" "<p>").left h
  have he := (render_tells "/\"&amp;/" "\u3000" "<p>").right.left hb
  exact ⟨h, hs.right, rfl, hb, he.right⟩

end Diagram

end RichText
