/-!
Texts as bytes, with one to four bytes for a character. Every text has bytes, and no other bytes
have a text.
-/

namespace Chronicle.Text

/-- The bytes of a text. -/
def toBytes (content : String) : List UInt8 := content.toUTF8.data.toList

/-- The text that has the bytes, if there is one. -/
def ofBytes (bytes : List UInt8) : Option String := String.fromUTF8? bytes.toByteArray

theorem toByteArray_toBytes (content : String) :
    (toBytes content).toByteArray = content.toUTF8 := by
  apply ByteArray.ext
  simp [toBytes]

@[simp] theorem ofBytes_toBytes (content : String) : ofBytes (toBytes content) = some content := by
  rw [ofBytes, toByteArray_toBytes, String.fromUTF8?, String.toUTF8_eq_toByteArray,
    dif_pos content.isValidUTF8]
  rfl

/-- Bytes that are read as a text are the bytes of that text. -/
theorem toBytes_of_ofBytes {bytes : List UInt8} {content : String}
    (read : ofBytes bytes = some content) : bytes = toBytes content := by
  rw [ofBytes, String.fromUTF8?] at read
  split at read
  case isTrue valid =>
    cases read
    simp [toBytes, String.fromUTF8]
  case isFalse => cases read

end Chronicle.Text
