import StaticSite.Xml.Error
import StaticSite.Xml.Event

namespace StaticSite.Xml
open StaticSite.Text

structure Attribute where
  key : List Char
  value : List Char
  deriving DecidableEq, Repr

def Attribute.render (a : Attribute) : List Char :=
  ' ' :: (a.key ++ '=' :: '"' :: (a.value ++ ['"']))

structure AttributeReading where
  attributes : List Attribute
  failure : Option AttributeError
  deriving DecidableEq, Repr

structure Place where
  offset : Nat
  rest : List Char

namespace Place

def skip (p : Char → Bool) (at' : Place) : Place :=
  ⟨at'.offset + byteCount (at'.rest.takeWhile p), at'.rest.dropWhile p⟩

theorem length_skip_le (p : Char → Bool) (at' : Place) :
    (at'.skip p).rest.length ≤ at'.rest.length :=
  length_dropWhile_le p at'.rest

end Place

def readValue (start : Place) : Except AttributeError (List Char × Place) :=
  let start := start.skip isBlank
  match start.rest with
  | [] => .error (.missingValue start.offset)
  | q :: cs =>
    if q = '"' ∨ q = '\'' then
      match splitAt? [q] cs with
      | some (value, rest) => .ok (value, ⟨start.offset + 2 + byteCount value, rest⟩)
      | none => .error (.unclosedQuote (start.offset + byteCount start.rest) q)
    else .error (.unquotedValue start.offset)

def keyOf (cs : List Char) : List Char :=
  match cs with
  | [] => []
  | c :: cs => c :: cs.takeWhile fun c => c != '=' && !isBlank c

def readAttribute (seen : List (List Char × Nat)) (start : Place) :
    Except AttributeError (Option (Attribute × Nat × Place)) :=
  let start := start.skip isBlank
  match start.rest with
  | [] => .ok none
  | cs =>
    let key := keyOf cs
    let afterKey : Place := ⟨start.offset + byteCount key, cs.drop key.length⟩
    let atEquals := afterKey.skip isBlank
    match atEquals.rest with
    | '=' :: rest =>
      match seen.find? (·.1 = key) with
      | some (_, first) => .error (.repeated start.offset first)
      | none =>
        match readValue ⟨atEquals.offset + 1, rest⟩ with
        | .error e => .error e
        | .ok (value, next) => .ok (some (⟨key, value⟩, start.offset, next))
    | _ => .error (.missingEquals atEquals.offset)

theorem length_of_readValue {start next : Place} {value : List Char}
    (h : readValue start = .ok (value, next)) : next.rest.length < start.rest.length := by
  have hskip := Place.length_skip_le isBlank start
  simp only [readValue] at h
  split at h
  · simp at h
  · rename_i q cs hcs
    split at h
    · split at h
      · rename_i hs
        simp only [Except.ok.injEq, Prod.mk.injEq] at h
        have := length_of_splitAt?_eq_some hs
        rw [hcs, List.length_cons] at hskip
        rw [← h.2]
        simp only
        omega
      · simp at h
    · simp at h

theorem length_of_readAttribute {seen : List (List Char × Nat)} {start next : Place}
    {a : Attribute} {offset : Nat}
    (h : readAttribute seen start = .ok (some (a, offset, next))) :
    next.rest.length < start.rest.length := by
  have hstart := Place.length_skip_le isBlank start
  simp only [readAttribute] at h
  split at h
  · simp at h
  · rename_i cs hcs
    split at h
    · rename_i rest hrest
      split at h
      · simp at h
      · split at h
        · simp at h
        · rename_i hv
          simp only [Except.ok.injEq, Option.some.injEq, Prod.mk.injEq] at h
          have hvalue := length_of_readValue hv
          have hkey := Place.length_skip_le isBlank
            ⟨(start.skip isBlank).offset + byteCount (keyOf (start.skip isBlank).rest),
              (start.skip isBlank).rest.drop (keyOf (start.skip isBlank).rest).length⟩
          rw [hrest, List.length_cons, List.length_drop] at hkey
          rw [← h.2.2]
          simp only at hvalue
          omega
    · simp at h

def readAttributes (unique : Bool) (seen : List (List Char × Nat)) (start : Place) :
    AttributeReading :=
  match _h : readAttribute seen start with
  | .error e => ⟨[], some e⟩
  | .ok none => ⟨[], none⟩
  | .ok (some (a, offset, next)) =>
    let others := readAttributes unique (if unique then seen ++ [(a.key, offset)] else seen) next
    ⟨a :: others.attributes, others.failure⟩
termination_by start.rest.length
decreasing_by exact length_of_readAttribute _h

namespace Tag

def place (t : Tag) : Place := ⟨byteCount t.name, t.attributeText⟩

def attributes (t : Tag) : AttributeReading :=
  readAttributes true [] t.place

def allAttributes (t : Tag) : AttributeReading :=
  readAttributes false [] t.place

def ofAttributes (name : List Char) (as : List Attribute) : Tag :=
  ⟨name, as.flatMap Attribute.render⟩

end Tag

end StaticSite.Xml
