/-! # Text as bytes -/

namespace Brisk.Text

/-- The bytes of a text in UTF-8. -/
def bytes (s : String) : List UInt8 := s.toUTF8.data.toList

/-- The text that bytes are in UTF-8, if they are any. -/
def ofBytes? (bytes : List UInt8) : Option String := String.fromUTF8? ⟨bytes.toArray⟩

end Brisk.Text
