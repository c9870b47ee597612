import StaticSite.Text.Search

namespace StaticSite.Text

structure CharSet where
  negated : Bool
  ranges : List (Char × Char)
  deriving DecidableEq, Repr

namespace CharSet

def all : CharSet := ⟨true, []⟩

def single (c : Char) : CharSet := ⟨false, [(c, c)]⟩

def contains (s : CharSet) (c : Char) : Bool :=
  s.negated != s.ranges.any fun (first, last) => first ≤ c && c ≤ last

def rangesOf : List Char → List (Char × Char)
  | first :: '-' :: last :: cs => (first, last) :: rangesOf cs
  | c :: cs => (c, c) :: rangesOf cs
  | [] => []

def read? : List Char → Option (CharSet × List Char)
  | '!' :: c :: cs =>
    (splitAt? [']'] cs).map fun (inside, rest) => (⟨true, rangesOf (c :: inside)⟩, rest)
  | ['!'] => none
  | c :: cs =>
    (splitAt? [']'] cs).map fun (inside, rest) => (⟨false, rangesOf (c :: inside)⟩, rest)
  | [] => none

theorem length_of_read?_eq_some {cs rest : List Char} {s : CharSet}
    (h : read? cs = some (s, rest)) : rest.length ≤ cs.length := by
  unfold read? at h
  split at h
  · obtain ⟨⟨inside, r⟩, hs, he⟩ := Option.map_eq_some_iff.1 h
    obtain ⟨-, rfl⟩ := Prod.mk.inj he
    have := length_of_splitAt?_eq_some hs
    simp only [List.length_cons]
    omega
  · simp at h
  · obtain ⟨⟨inside, r⟩, hs, he⟩ := Option.map_eq_some_iff.1 h
    obtain ⟨-, rfl⟩ := Prod.mk.inj he
    have := length_of_splitAt?_eq_some hs
    simp only [List.length_cons]
    omega
  · simp at h

end CharSet

namespace Glob

inductive Token where
  | one (set : CharSet)
  | many
  | components
  deriving DecidableEq, Repr

/-- Two stars must be a component of their own, and more than two mean nothing. `fresh` says that a
component begins. -/
def tokens? (fresh : Bool) (pattern : List Char) : Option (List Token) :=
  match pattern with
  | [] => some []
  | '*' :: '*' :: '*' :: _ => none
  | ['*', '*'] => if fresh then some [.components] else none
  | '*' :: '*' :: '/' :: cs => if fresh then (tokens? true cs).map (.components :: ·) else none
  | '*' :: '*' :: _ => none
  | '*' :: cs => (tokens? false cs).map (.many :: ·)
  | '?' :: cs => (tokens? false cs).map (.one .all :: ·)
  | '[' :: cs =>
    match _hread : CharSet.read? cs with
    | some (set, rest) => (tokens? false rest).map (.one set :: ·)
    | none => none
  | c :: cs => (tokens? (c == '/') cs).map (.one (.single c) :: ·)
termination_by pattern.length
decreasing_by
  all_goals simp only [List.length_cons]
  all_goals try omega
  have := CharSet.length_of_read?_eq_some _hread
  omega

def suffixes : List Char → List (List Char)
  | [] => [[]]
  | c :: cs => (c :: cs) :: suffixes cs

def behindSlashes : List Char → List (List Char)
  | [] => [[]]
  | c :: cs => if c = '/' then cs :: behindSlashes cs else behindSlashes cs

def accepts : List Token → List Char → Bool
  | [], cs => cs.isEmpty
  | .one _ :: _, [] => false
  | .one set :: ts, c :: cs => set.contains c && accepts ts cs
  | .many :: ts, cs => (suffixes cs).any (accepts ts)
  | .components :: ts, cs => (cs :: behindSlashes cs).any (accepts ts)

end Glob

structure Glob where
  tokens : List Glob.Token
  deriving DecidableEq, Repr

namespace Glob

def ofPattern? (pattern : List Char) : Option Glob :=
  (tokens? true pattern).map Glob.mk

def matchesText (g : Glob) (text : List Char) : Bool :=
  accepts g.tokens text

end Glob

end StaticSite.Text
