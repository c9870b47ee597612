import StaticSite.Text.Digit
import StaticSite.Text.Search
import StaticSite.Xml.Error

namespace StaticSite.Xml
open StaticSite.Text

def entityOf? : Char → Option (List Char)
  | '<' => some "lt".toList
  | '>' => some "gt".toList
  | '&' => some "amp".toList
  | '\'' => some "apos".toList
  | '"' => some "quot".toList
  | _ => none

def predefined? (name : List Char) : Option Char :=
  if name = "lt".toList then some '<'
  else if name = "gt".toList then some '>'
  else if name = "amp".toList then some '&'
  else if name = "apos".toList then some '\''
  else if name = "quot".toList then some '"'
  else none

theorem predefined?_of_entityOf? {c : Char} {name : List Char} (h : entityOf? c = some name) :
    predefined? name = some c := by
  unfold entityOf? at h
  split at h <;> first | (cases h; decide) | simp at h

def escapeChar (c : Char) : List Char :=
  match entityOf? c with
  | some name => '&' :: (name ++ [';'])
  | none => [c]

def escape (cs : List Char) : List Char :=
  cs.flatMap escapeChar

def readDigits (base : Nat) (code : Nat) : List Char → Except CodeError Nat
  | [] => .ok code
  | c :: cs =>
    match digit? base c with
    | none => .error .badDigit
    | some d =>
      if code * base + d < 4294967296 then readDigits base (code * base + d) cs
      else .error .tooLarge

def readNumber (base : Nat) (cs : List Char) : Except CodeError Nat :=
  match cs with
  | [] => .error .empty
  | '+' :: _ => .error .signed
  | '-' :: _ => .error .signed
  | _ => readDigits base 0 cs

def readCode (cs : List Char) : Except CodeError Char :=
  let number := match cs with
    | 'x' :: digits => readNumber 16 digits
    | _ => readNumber 10 cs
  match number with
  | .error e => .error e
  | .ok code =>
    if code = 0 then .error .zero
    else if code.isValidChar then .ok (Char.ofNat code)
    else .error (.notScalar code)

def resolve (start : Nat) (name : List Char) : Except ReferenceError Char :=
  match name with
  | '#' :: code => (readCode code).mapError .badCode
  | _ =>
    match predefined? name with
    | some c => .ok c
    | none => .error (.unknown (start + 1) (start + 1 + byteCount name) name)

/-- Reads on at an offset of a value of `total` bytes. A reference ends at its `;`, and no `&` may
stand before that. -/
def unescapeFrom (total : Nat) (offset : Nat) (cs : List Char) : Except ReferenceError (List Char) :=
  match cs with
  | [] => .ok []
  | c :: cs =>
    if c = '&' then
      let inName (c : Char) : Bool := c != ';' && c != '&'
      let name := cs.takeWhile inName
      match h : cs.dropWhile inName with
      | ';' :: rest => do
        let c ← resolve offset name
        let others ← unescapeFrom total (offset + 2 + byteCount name) rest
        .ok (c :: others)
      | _ => .error (.unterminated offset total)
    else (unescapeFrom total (offset + c.utf8Size) cs).map (c :: ·)
termination_by cs.length
decreasing_by
  · have hd := length_dropWhile_le (fun c => c != ';' && c != '&') cs
    rw [h, List.length_cons] at hd
    simp only [List.length_cons]
    omega
  · simp

def unescape (value : List Char) : Except ReferenceError (List Char) :=
  unescapeFrom (byteCount value) 0 value

end StaticSite.Xml
