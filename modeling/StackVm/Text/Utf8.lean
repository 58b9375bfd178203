/-!
# UTF-8

Texts as byte strings. Encoding and decoding are inverse to each other
(`Utf8.decode?_eq_some_iff`): a byte string is the form of one text at most,
and decoding refuses those that are the form of none.
-/

namespace StackVm.Utf8

/-- The UTF-8 form of a text. -/
def encode (text : String) : List UInt8 :=
  text.toUTF8.data.toList

/-- The text of which a byte string is the UTF-8 form. -/
def decode? (bytes : List UInt8) : Option String :=
  String.fromUTF8? ⟨bytes.toArray⟩

theorem decode?_eq_some_iff {bytes : List UInt8} {text : String} :
    decode? bytes = some text ↔ bytes = encode text := by
  simp only [decode?, String.fromUTF8?, encode]
  constructor
  · intro h
    split at h
    · cases h
      rfl
    · cases h
  · rintro rfl
    exact dif_pos text.isValidUTF8

@[simp] theorem decode?_encode (text : String) : decode? (encode text) = some text :=
  decode?_eq_some_iff.2 rfl

end StackVm.Utf8
