import StaticSite.Toml.Scalar

namespace StaticSite.Toml
open StaticSite.Text

def isBareKeyChar (c : Char) : Bool :=
  c.isAlphanum || c == '_' || c == '-'

def keyPart? (cs : List Char) : Option (Key × List Char) :=
  match cs with
  | c :: _ =>
    if c = '"' ∨ c = '\'' then quoted? true cs
    else
      match cs.takeWhile isBareKeyChar with
      | [] => none
      | key => some (key, cs.dropWhile isBareKeyChar)
  | [] => none

def skipSpaces (cs : List Char) : List Char := cs.dropWhile isSpace

def key? (cs : List Char) : Option (List Key × List Char) :=
  go cs.length (skipSpaces cs)
where
  go : Nat → List Char → Option (List Key × List Char)
    | 0, _ => none
    | n + 1, cs => do
      let (part, rest) ← keyPart? cs
      match skipSpaces rest with
      | '.' :: rest => do
        let (parts, rest) ← go n (skipSpaces rest)
        some (part :: parts, rest)
      | rest => some ([part], rest)

def skipComment? (cs : List Char) : Option (List Char) :=
  match cs with
  | '#' :: cs =>
    match cs.dropWhile isTextChar with
    | [] => some []
    | rest => (newline? rest).map fun _ => rest
  | _ => some cs

def skipBlanks? (cs : List Char) : Option (List Char) :=
  go (cs.length + 1) cs
where
  go : Nat → List Char → Option (List Char)
    | 0, cs => some cs
    | n + 1, cs => do
      let rest ← skipComment? (skipSpaces cs)
      match newline? rest with
      | some rest => go n rest
      | none => some rest

def assignment? (value? : List Char → Option (Value × List Char)) (cs : List Char) :
    Option ((List Key × Value) × List Char) := do
  let (parts, rest) ← key? cs
  match rest with
  | '=' :: rest => do
    let (v, rest) ← value? (skipSpaces rest)
    some ((parts, v), rest)
  | _ => none

def items? (item? : List Char → Option (α × List Char)) (closing : Char) :
    Nat → List Char → Option (List α × List Char)
  | 0, _ => none
  | n + 1, cs => do
    let cs ← skipBlanks? cs
    if cs.head? = some closing then some ([], cs.tail)
    else
      let (a, cs) ← item? cs
      let cs ← skipBlanks? cs
      match cs with
      | ',' :: cs => do
        let (others, cs) ← items? item? closing n cs
        some (a :: others, cs)
      | c :: cs => if c = closing then some ([a], cs) else none
      | [] => none

def assignAll (pairs : List (List Key × Value)) (entries : Entries) : Option Entries :=
  pairs.foldlM (fun es (parts, v) => do
    let k ← parts.getLast?
    es.assign parts.dropLast k v) entries

def value? (depth : Nat) (cs : List Char) : Option (Value × List Char) :=
  match depth, cs with
  | 0, _ => none
  | depth + 1, '[' :: cs => do
    let (vs, cs) ← items? (value? depth) ']' (cs.length + 1) cs
    some (.array vs, cs)
  | depth + 1, '\x7b' :: cs => do
    let (pairs, cs) ← items? (assignment? (value? depth)) '\x7d' (cs.length + 1) cs
    let entries ← assignAll pairs []
    some (.table .inline entries, cs)
  | _, c :: cs =>
    if c = '"' ∨ c = '\'' then (quoted? false (c :: cs)).map fun (s, rest) => (.string s, rest)
    else scalar? (c :: cs)
  | _, [] => none

def maxDepth : Nat := 80

structure Progress where
  entries : Entries
  header : List Key

def line? (p : Progress) (cs : List Char) : Option (Progress × List Char) :=
  match cs with
  | '[' :: '[' :: cs => do
    let (parts, cs) ← key? cs
    let cs ← after? "]]".toList cs
    let entries ← p.entries.openElement parts.dropLast (← parts.getLast?)
    some (⟨entries, parts⟩, cs)
  | '[' :: cs => do
    let (parts, cs) ← key? cs
    let cs ← after? "]".toList cs
    let entries ← p.entries.openTable parts.dropLast (← parts.getLast?)
    some (⟨entries, parts⟩, cs)
  | c :: _ =>
    if c = '#' ∨ (newline? cs).isSome then some (p, cs)
    else do
      let ((parts, v), cs) ← assignment? (value? maxDepth) cs
      let k ← parts.getLast?
      let entries ← p.entries.atHeader (·.assign parts.dropLast k v) p.header
      some (⟨entries, p.header⟩, cs)
  | [] => some (p, [])

def lines? : Nat → Progress → List Char → Option Entries
  | 0, _, _ => none
  | n + 1, p, cs => do
    let (p, cs) ← line? p (skipSpaces cs)
    match ← skipComment? (skipSpaces cs) with
    | [] => some p.entries
    | cs => lines? n p (← newline? cs)

def parse? (source : List Char) : Option Entries :=
  let source := match source with
    | '\ufeff' :: cs => cs
    | cs => cs
  lines? (source.length + 1) ⟨[], []⟩ source

end StaticSite.Toml
