namespace StaticSite.Toml

abbrev Key := List Char

inductive TableKind where
  | header
  | implied
  | dotted
  | inline
  deriving DecidableEq, Repr

/-- Numbers with a fraction and moments keep their spelling. The tables of an array that was built
from headers stand last first. -/
inductive Value where
  | string (chars : List Char)
  | integer (value : Int)
  | float (spelling : List Char)
  | boolean (value : Bool)
  | moment (spelling : List Char)
  | array (items : List Value)
  | tables (entries : List (List (Key × Value)))
  | table (kind : TableKind) (entries : List (Key × Value))
  deriving Repr

abbrev Entries := List (Key × Value)

namespace Entries

def get? (entries : Entries) (k : Key) : Option Value :=
  entries.lookup k

def set (k : Key) (v : Value) : Entries → Entries
  | [] => [(k, v)]
  | (j, w) :: rest => if j = k then (k, v) :: rest else (j, w) :: set k v rest

/-- Changes the entries that a path of table names leads to, tables on the way created as `kind`.
Of an array of tables the last is meant. Inline tables are closed, and dotted keys enter no table
that has a header of its own. -/
def within (kind : TableKind) (change : TableKind → Entries → Option Entries) :
    List Key → TableKind → Entries → Option Entries
  | [], here, entries => change here entries
  | k :: path, _, entries => do
    let next ← match entries.get? k with
      | none => (within kind change path kind []).map (.table kind)
      | some (.table inner es) =>
        if inner = .inline || (kind = .dotted && inner = .header) then none
        else (within kind change path inner es).map (.table inner)
      | some (.tables (last :: others)) =>
        (within kind change path .header last).map fun es => .tables (es :: others)
      | some _ => none
    some (entries.set k next)

def assign (path : List Key) (k : Key) (v : Value) (entries : Entries) : Option Entries :=
  entries.within .dotted (fun kind es =>
    if path ≠ [] ∧ kind ≠ .dotted then none
    else if (es.get? k).isSome then none
    else some (es.set k v)) path .header

def openTable (path : List Key) (k : Key) (entries : Entries) : Option Entries :=
  entries.within .implied (fun _ es =>
    match es.get? k with
    | none => some (es.set k (.table .header []))
    | some (.table .implied inner) => some (es.set k (.table .header inner))
    | some _ => none) path .header

def openElement (path : List Key) (k : Key) (entries : Entries) : Option Entries :=
  entries.within .implied (fun _ es =>
    match es.get? k with
    | none => some (es.set k (.tables [[]]))
    | some (.tables others) => some (es.set k (.tables ([] :: others)))
    | some _ => none) path .header

def atHeader (change : Entries → Option Entries) : List Key → Entries → Option Entries
  | [], entries => change entries
  | k :: path, entries => do
    let next ← match entries.get? k with
      | some (.table kind es) => (atHeader change path es).map (.table kind)
      | some (.tables (last :: others)) =>
        (atHeader change path last).map fun es => .tables (es :: others)
      | _ => none
    some (entries.set k next)

end Entries

end StaticSite.Toml
