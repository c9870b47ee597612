import StaticSite.Text.Utf8

namespace StaticSite
open StaticSite.Text

/-- Text, or bytes that are not UTF-8. -/
inductive Content where
  | text (chars : List Char)
  | binary (bytes : List UInt8)
  deriving DecidableEq, Repr

namespace Content

def ofBytes (bytes : List UInt8) : Content :=
  match ofUtf8? bytes with
  | some chars => .text chars
  | none => .binary bytes

def toBytes : Content → List UInt8
  | .text chars => utf8 chars
  | .binary bytes => bytes

end Content

end StaticSite
