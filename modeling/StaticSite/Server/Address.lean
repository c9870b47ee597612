import StaticSite.Text.Digit

namespace StaticSite.Server
open StaticSite.Text

inductive Host where
  | v4 (octets : List Nat)
  | v6 (groups : List Nat) (scope : Nat)
  deriving DecidableEq, Repr

structure SocketAddress where
  host : Host
  port : Nat
  deriving DecidableEq, Repr

namespace Address

structure NumberFormat where
  base : Nat
  maxDigits : Option Nat
  leadingZeros : Bool
  bound : Nat

def octet : NumberFormat := ⟨10, some 3, false, 256⟩

def group : NumberFormat := ⟨16, some 4, true, 65536⟩

def scope : NumberFormat := ⟨10, none, true, 4294967296⟩

def port : NumberFormat := ⟨10, none, true, 65536⟩

def number? (f : NumberFormat) (cs : List Char) : Option (Nat × List Char) :=
  let digits := (cs.takeWhile fun c => (digit? f.base c).isSome).filterMap (digit? f.base)
  let value := digits.foldl (f.base * · + ·) 0
  if digits = [] ∨ f.maxDigits.any (· < digits.length) ∨ f.bound ≤ value ∨
      (!f.leadingZeros ∧ digits.head? = some 0 ∧ 1 < digits.length) then none
  else some (value, cs.drop digits.length)

def char? (c : Char) : List Char → Option (List Char)
  | d :: cs => if c = d then some cs else none
  | [] => none

def octets? : Nat → List Char → Option (List Nat × List Char)
  | 0, cs => some ([], cs)
  | 1, cs => (number? octet cs).map fun (n, cs) => ([n], cs)
  | count + 1, cs => do
    let (n, cs) ← number? octet cs
    let (ns, cs) ← octets? count (← char? '.' cs)
    some (n :: ns, cs)

def embedded? (cs : List Char) : Option (List Nat × List Char) :=
  match octets? 4 cs with
  | some ([a, b, c, d], cs) => some ([256 * a + b, 256 * c + d], cs)
  | _ => none

structure Groups where
  values : List Nat
  embedded : Bool
  rest : List Char

def groups : Nat → (first : Bool) → List Char → Groups
  | 0, _, cs => ⟨[], false, cs⟩
  | most + 1, first, cs =>
    let start := if first then some cs else char? ':' cs
    match if most = 0 then none else start.bind embedded?, start.bind (number? group) with
    | some (values, rest), _ => ⟨values, true, rest⟩
    | none, some (n, rest) =>
      let others := groups most false rest
      ⟨n :: others.values, others.embedded, others.rest⟩
    | none, none => ⟨[], false, cs⟩

def v6Groups? (cs : List Char) : Option (List Nat × List Char) :=
  let front := groups 8 true cs
  let count := front.values.length
  if count = 8 then some (front.values, front.rest)
  else if front.embedded then none
  else do
    let rest ← char? ':' (← char? ':' front.rest)
    let back := groups (7 - count) true rest
    some (front.values ++ List.replicate (8 - count - back.values.length) 0 ++ back.values,
      back.rest)

def v4? (cs : List Char) : Option (Host × List Char) :=
  (octets? 4 cs).map fun (octets, cs) => (.v4 octets, cs)

def v6? (cs : List Char) : Option (Host × List Char) := do
  let (groups, cs) ← v6Groups? (← char? '[' cs)
  let (zone, cs) := ((char? '%' cs).bind (number? scope)).getD (0, cs)
  some (.v6 groups zone, ← char? ']' cs)

def port? (cs : List Char) : Option Nat := do
  match ← number? port (← char? ':' cs) with
  | (n, []) => some n
  | _ => none

end Address

def SocketAddress.ofText? (text : List Char) : Option SocketAddress := do
  let (host, cs) ← Address.v4? text <|> Address.v6? text
  some ⟨host, ← Address.port? cs⟩

end StaticSite.Server
