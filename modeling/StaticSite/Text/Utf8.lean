/-!
The bytes of a text in UTF-8, and the text of bytes. Each text has one form in bytes, and reading
accepts nothing else.
-/

namespace StaticSite.Text

def utf8 (cs : List Char) : List UInt8 :=
  cs.flatMap String.utf8EncodeChar

def ofUtf8? (bytes : List UInt8) : Option (List Char) :=
  (String.fromUTF8? bytes.toByteArray).map String.toList

@[simp]
theorem utf8_nil : utf8 [] = [] := rfl

@[simp]
theorem utf8_cons (c : Char) (cs : List Char) :
    utf8 (c :: cs) = String.utf8EncodeChar c ++ utf8 cs := by
  simp [utf8]

@[simp]
theorem utf8_append (cs ds : List Char) : utf8 (cs ++ ds) = utf8 cs ++ utf8 ds := by
  simp [utf8]

theorem toByteArray_utf8 (cs : List Char) :
    (utf8 cs).toByteArray = (String.ofList cs).toByteArray := by
  rw [String.toByteArray_ofList]
  rfl

theorem ofUtf8?_eq_some_iff {bytes : List UInt8} {cs : List Char} :
    ofUtf8? bytes = some cs ↔ bytes = utf8 cs := by
  have hread : ofUtf8? bytes = some cs ↔ bytes.toByteArray = (utf8 cs).toByteArray := by
    rw [toByteArray_utf8]
    constructor
    · intro h
      simp only [ofUtf8?, String.fromUTF8?, Option.map_eq_some_iff] at h
      obtain ⟨s, hs, rfl⟩ := h
      split at hs
      · simp only [Option.some.injEq] at hs
        simp [← hs, String.fromUTF8]
      · simp at hs
    · intro h
      have hvalid : bytes.toByteArray.IsValidUTF8 := h ▸ (String.ofList cs).isValidUTF8
      have hs : String.fromUTF8 bytes.toByteArray hvalid = String.ofList cs :=
        String.toByteArray_inj.1 h
      simp [ofUtf8?, String.fromUTF8?, hvalid, hs]
  rw [hread]
  constructor
  · intro h
    have := congrArg (fun b : ByteArray => b.data.toList) h
    simpa using this
  · rintro rfl
    rfl

theorem ofUtf8?_utf8 (cs : List Char) : ofUtf8? (utf8 cs) = some cs :=
  ofUtf8?_eq_some_iff.2 rfl

end StaticSite.Text
