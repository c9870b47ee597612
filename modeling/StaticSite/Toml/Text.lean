import StaticSite.Text.Digit
import StaticSite.Text.Search

namespace StaticSite.Toml
open StaticSite.Text

def isTextChar (c : Char) : Bool :=
  c == '\t' || (' ' ≤ c && c != '\x7f')

def codePoint? (count : Nat) (cs : List Char) : Option (Char × List Char) := do
  let digits ← (cs.take count).mapM hexDigit?
  let code := digits.foldl (16 * · + ·) 0
  if digits.length = count ∧ code.isValidChar then some (Char.ofNat code, cs.drop count)
  else none

def escape? : List Char → Option (Char × List Char)
  | 'b' :: cs => some ('\x08', cs)
  | 't' :: cs => some ('\t', cs)
  | 'n' :: cs => some ('\n', cs)
  | 'f' :: cs => some ('\x0c', cs)
  | 'r' :: cs => some ('\r', cs)
  | 'e' :: cs => some ('\x1b', cs)
  | '"' :: cs => some ('"', cs)
  | '\\' :: cs => some ('\\', cs)
  | 'x' :: cs => codePoint? 2 cs
  | 'u' :: cs => codePoint? 4 cs
  | 'U' :: cs => codePoint? 8 cs
  | _ => none

theorem length_of_codePoint? {count : Nat} {cs rest : List Char} {c : Char}
    (h : codePoint? count cs = some (c, rest)) : rest.length ≤ cs.length := by
  simp only [codePoint?, bind, Option.bind_eq_some_iff] at h
  obtain ⟨_, _, h⟩ := h
  split at h
  · simp only [Option.some.injEq, Prod.mk.injEq] at h
    rw [← h.2, List.length_drop]
    omega
  · simp at h

theorem length_of_escape? {cs rest : List Char} {c : Char} (h : escape? cs = some (c, rest)) :
    rest.length < cs.length := by
  unfold escape? at h
  split at h
  case h_12 => simp at h
  case h_9 | h_10 | h_11 =>
    have := length_of_codePoint? h
    simp only [List.length_cons]
    omega
  all_goals
    simp only [Option.some.injEq, Prod.mk.injEq] at h
    simp [h.2]

def literal? : List Char → Option (List Char × List Char)
  | [] => none
  | c :: cs =>
    if c = '\'' then some ([], cs)
    else if isTextChar c then (literal? cs).map fun (s, rest) => (c :: s, rest)
    else none

def basic? (cs : List Char) : Option (List Char × List Char) :=
  match cs with
  | [] => none
  | c :: cs =>
    if c = '"' then some ([], cs)
    else if c = '\\' then
      match _h : escape? cs with
      | none => none
      | some (e, rest) => (basic? rest).map fun (s, rest) => (e :: s, rest)
    else if isTextChar c then (basic? cs).map fun (s, rest) => (c :: s, rest)
    else none
termination_by cs.length
decreasing_by
  · have := length_of_escape? _h
    simp only [List.length_cons]
    omega
  · simp

def isSpace (c : Char) : Bool := c == ' ' || c == '\t'

def newline? : List Char → Option (List Char)
  | '\n' :: cs => some cs
  | '\r' :: '\n' :: cs => some cs
  | _ => none

theorem length_of_newline? {cs rest : List Char} (h : newline? cs = some rest) :
    rest.length < cs.length := by
  unfold newline? at h
  split at h
  · simp only [Option.some.injEq] at h
    simp [h]
  · simp only [Option.some.injEq] at h
    simp only [h, List.length_cons]
    omega
  · simp at h

def closing? (quote : Char) (cs : List Char) : Option (List Char × List Char) :=
  let run := cs.takeWhile (· == quote)
  if 3 ≤ run.length then some (run.drop 3, cs.dropWhile (· == quote)) else none

def multiLiteral? : List Char → Option (List Char × List Char)
  | [] => none
  | c :: cs =>
    match closing? '\'' (c :: cs) with
    | some (quotes, rest) => if quotes.length ≤ 2 then some (quotes, rest) else none
    | none =>
      if isTextChar c || (newline? (c :: cs)).isSome then
        (multiLiteral? cs).map fun (s, rest) => (c :: s, rest)
      else none

def lineJoin? (cs : List Char) : Option (List Char) :=
  (newline? (cs.dropWhile isSpace)).map
    (·.dropWhile fun c => isSpace c || c == '\n' || c == '\r')

theorem length_of_lineJoin? {cs rest : List Char} (h : lineJoin? cs = some rest) :
    rest.length < cs.length := by
  simp only [lineJoin?, Option.map_eq_some_iff] at h
  obtain ⟨r, hr, rfl⟩ := h
  have h1 := length_of_newline? hr
  have h2 := length_dropWhile_le isSpace cs
  have h3 := length_dropWhile_le (fun c => isSpace c || c == '\n' || c == '\r') r
  omega

def multiBasic? (cs : List Char) : Option (List Char × List Char) :=
  match cs with
  | [] => none
  | c :: cs =>
    match closing? '"' (c :: cs) with
    | some (quotes, rest) => if quotes.length ≤ 2 then some (quotes, rest) else none
    | none =>
      if c = '\\' then
        match _h : lineJoin? cs with
        | some rest => multiBasic? rest
        | none =>
          match _h : escape? cs with
          | none => none
          | some (e, rest) => (multiBasic? rest).map fun (s, rest) => (e :: s, rest)
      else if isTextChar c || (newline? (c :: cs)).isSome then
        (multiBasic? cs).map fun (s, rest) => (c :: s, rest)
      else none
termination_by cs.length
decreasing_by
  · have := length_of_lineJoin? _h
    simp only [List.length_cons]
    omega
  · have := length_of_escape? _h
    simp only [List.length_cons]
    omega
  · simp

def withoutFirstNewline (cs : List Char) : List Char :=
  (newline? cs).getD cs

def quoted? (oneLine : Bool) (cs : List Char) : Option (List Char × List Char) :=
  match oneLine, cs with
  | false, '"' :: '"' :: '"' :: cs => multiBasic? (withoutFirstNewline cs)
  | false, '\'' :: '\'' :: '\'' :: cs => multiLiteral? (withoutFirstNewline cs)
  | _, '"' :: cs => basic? cs
  | _, '\'' :: cs => literal? cs
  | _, _ => none

end StaticSite.Toml
