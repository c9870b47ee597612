import StaticSite.Text.Digit
import StaticSite.Text.Utf8

namespace StaticSite.Text.Percent

def bytes : List Char → List UInt8
  | '%' :: high :: low :: cs =>
    match hexDigit? high, hexDigit? low with
    | some h, some l => UInt8.ofNat (16 * h + l) :: bytes cs
    | _, _ => String.utf8EncodeChar '%' ++ bytes (high :: low :: cs)
  | c :: cs => String.utf8EncodeChar c ++ bytes cs
  | [] => []

def decode? (cs : List Char) : Option (List Char) :=
  ofUtf8? (bytes cs)

def isPlain (c : Char) : Bool :=
  c.isAlphanum || c == '-' || c == '.' || c == '_' || c == '~' || c == '/'

def escape (b : UInt8) : List Char :=
  ['%', upperHexDigit (b.toNat / 16), upperHexDigit (b.toNat % 16)]

def encode (cs : List Char) : List Char :=
  cs.flatMap fun c => if isPlain c then [c] else (String.utf8EncodeChar c).flatMap escape

theorem bytes_cons_of_ne {c : Char} (h : c ≠ '%') (cs : List Char) :
    bytes (c :: cs) = String.utf8EncodeChar c ++ bytes cs := by
  rw [bytes]
  rintro _ _ _ rfl
  exact absurd rfl h

theorem bytes_escape (b : UInt8) (cs : List Char) : bytes (escape b ++ cs) = b :: bytes cs := by
  have hb : b.toNat < 256 := b.toNat_lt
  simp only [escape, List.cons_append, List.nil_append, bytes,
    hexDigit?_upperHexDigit _ (show b.toNat / 16 < 16 by omega),
    hexDigit?_upperHexDigit _ (show b.toNat % 16 < 16 by omega)]
  rw [show 16 * (b.toNat / 16) + b.toNat % 16 = b.toNat by omega]
  simp

theorem bytes_flatMap_escape (bs : List UInt8) (cs : List Char) :
    bytes (bs.flatMap escape ++ cs) = bs ++ bytes cs := by
  induction bs with
  | nil => rfl
  | cons b bs ih => rw [List.flatMap_cons, List.append_assoc, bytes_escape, ih, List.cons_append]

theorem bytes_encode (cs : List Char) : bytes (encode cs) = utf8 cs := by
  induction cs with
  | nil => rfl
  | cons c cs ih =>
    have hsplit : encode (c :: cs) =
        (if isPlain c then [c] else (String.utf8EncodeChar c).flatMap escape) ++ encode cs := by
      simp [encode]
    rw [hsplit, utf8_cons]
    split
    · rename_i h
      rw [List.singleton_append, bytes_cons_of_ne, ih]
      rintro rfl
      simp [isPlain, Char.isAlphanum] at h
    · rw [bytes_flatMap_escape, ih]

theorem decode?_encode (cs : List Char) : decode? (encode cs) = some cs := by
  rw [decode?, bytes_encode, ofUtf8?_utf8]

end StaticSite.Text.Percent
