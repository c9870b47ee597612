import StaticSite.Proofs.Path.Names

/-!
Normalization as a stack of names: a name is pushed, and `..` takes one off as long as there is one.
It does not matter whether a path is normalized before another is joined to it.
-/

namespace StaticSite.Path

variable {here : Location}

def push (stack : Location) (segment : List Char) : Location :=
  if segment = [] ∨ segment = ['.'] then stack
  else if segment = ['.', '.'] then stack.dropLast
  else stack ++ [segment]

def stackOf (here : Location) (p : Path) : Location :=
  p.segments.foldl push (if p.isAbsolute then [] else here)

theorem walk_componentOf? (stack : Location) (segment : List Char) :
    walk stack.reverse (componentOf? segment).toList = (push stack segment).reverse := by
  by_cases hsilent : segment = [] ∨ segment = ['.']
  · have hnone : componentOf? segment = none := if_pos (decide_eq_true hsilent)
    rw [hnone, push, if_pos hsilent]
    rfl
  · rw [componentOf?, isSilent, decide_eq_false hsilent, if_neg Bool.false_ne_true, push,
      if_neg hsilent]
    split
    · exact List.tail_reverse
    · rw [List.reverse_append]
      rfl

theorem walk_filterMap (stack : Location) (segments : List (List Char)) :
    walk stack.reverse (segments.filterMap componentOf?) = (segments.foldl push stack).reverse := by
  induction segments generalizing stack with
  | nil => rfl
  | cons segment segments ih =>
    have hfirst : (segment :: segments).filterMap componentOf? =
        (componentOf? segment).toList ++ segments.filterMap componentOf? := by
      rw [List.filterMap_cons]
      cases componentOf? segment <;> rfl
    rw [hfirst, walk_append, walk_componentOf?, ih, List.foldl_cons]

theorem location_eq_stackOf (here : Location) (p : Path) : p.location here = stackOf here p := by
  rw [location_eq_walk, walk_filterMap, List.reverse_reverse, stackOf]

theorem isName_of_mem_stackOf (hhere : ∀ name ∈ here, IsName name) (p : Path) :
    ∀ name ∈ stackOf here p, IsName name := by
  rw [← location_eq_stackOf]
  exact isName_of_mem_location hhere p

theorem normalize_normalize (hhere : ∀ name ∈ here, IsName name) (p : Path) :
    (p.normalize here).normalize here = p.normalize here := by
  by_cases hp : p.chars = []
  · rw [normalize_of_nil hp]
    rfl
  · have hspelled : p.normalize here = ofLocation (p.location here) := if_neg hp
    rw [hspelled, normalize_ofLocation here (isName_of_mem_location hhere p)]

theorem location_normalize (hhere : ∀ name ∈ here, IsName name) (p : Path) :
    (p.normalize here).location here = p.location here := by
  by_cases hp : p.chars = []
  · rw [normalize, if_pos hp]
  · have hspelled : p.normalize here = ofLocation (p.location here) := if_neg hp
    rw [hspelled, location_ofLocation here (isName_of_mem_location hhere p)]

theorem chars_join_eq_nil_iff {p q : Path} : (p.join q).chars = [] ↔ p.chars = [] ∧ q.chars = [] := by
  unfold join
  split
  · rename_i habsolute
    constructor
    · intro hq
      rw [isAbsolute, hq] at habsolute
      cases habsolute
    · exact And.right
  · split
    · exact List.append_eq_nil_iff
    · rename_i hp
      simp only [List.append_eq_nil_iff, List.cons_ne_nil, and_false, false_iff, not_and]
      intro hnil
      exact absurd (.inl hnil) hp

theorem location_join_normalize (hhere : ∀ name ∈ here, IsName name) (p q : Path) :
    ((p.normalize here).join q).location here = (p.join q).location here := by
  cases hq : q.isAbsolute with
  | true => rw [join, join, hq, if_pos rfl, if_pos rfl]
  | false =>
    rw [location_join_of_relative here _ hq, location_join_of_relative here _ hq,
      location_normalize hhere]

theorem normalize_join_normalize (hhere : ∀ name ∈ here, IsName name) (p q : Path) :
    ((p.normalize here).join q).normalize here = (p.join q).normalize here := by
  by_cases hp : p.chars = []
  · have hsame : p.normalize here = p := if_pos hp
    rw [hsame]
  · have hplace := location_join_normalize hhere p q
    have hspelled : p.normalize here = ofLocation (p.location here) := if_neg hp
    rw [hspelled] at hplace ⊢
    have hleft : (p.join q).chars ≠ [] := fun hnil => hp (chars_join_eq_nil_iff.mp hnil).1
    have hright : ((ofLocation (p.location here)).join q).chars ≠ [] := fun hnil =>
      List.cons_ne_nil _ _ (chars_join_eq_nil_iff.mp hnil).1
    rw [normalize, normalize, if_neg hleft, if_neg hright, hplace]

/-- Normalization leaves normalized paths alone, and a path may be normalized before another is
joined to it. What it gives is spelled from the root on, by the names that the path leaves on the
stack, which are all that it spells. -/
theorem normalize_congruence (hhere : ∀ name ∈ here, IsName name) (p q : Path) :
    (p.normalize here).normalize here = p.normalize here ∧
      (p.join q).normalize here = ((p.normalize here).join q).normalize here ∧
      (p.chars ≠ [] →
        (p.normalize here).isAbsolute = true ∧
          (p.normalize here).chars = '/' :: joinSlash (stackOf here p) ∧
          (stackOf here p ≠ [] → (p.normalize here).segments = stackOf here p) ∧
          ∀ name ∈ stackOf here p, name ≠ [] ∧ '/' ∉ name ∧ name ≠ ['.'] ∧ name ≠ ['.', '.']) := by
  refine ⟨normalize_normalize hhere p, (normalize_join_normalize hhere p q).symm, fun hp => ?_⟩
  have hspelled : p.normalize here = ofLocation (stackOf here p) := by
    rw [normalize, if_neg hp, location_eq_stackOf]
  have hnames := isName_of_mem_stackOf hhere p
  rw [hspelled]
  exact ⟨isAbsolute_ofLocation _, rfl, fun hne => segments_ofLocation hne hnames, hnames⟩

theorem normalize_congruence_above :
    (∀ name ∈ ["work".toList], IsName name) ∧ (ofString "../.././/x/a/../").chars ≠ [] ∧
      ((ofString "../.././/x/a/../").normalize ["work".toList]).segments = ["x".toList] ∧
      ((ofString "../.././/x/a/../").join (ofString "../b.html")).normalize ["work".toList] =
        (((ofString "../.././/x/a/../").normalize ["work".toList]).join
          (ofString "../b.html")).normalize ["work".toList] := by
  have hhere : ∀ name ∈ ["work".toList], IsName name := by decide
  have hne : (ofString "../.././/x/a/../").chars ≠ [] := by decide
  have hstack : stackOf ["work".toList] (ofString "../.././/x/a/../") = ["x".toList] := by decide
  obtain ⟨-, hjoin, hspelled⟩ :=
    normalize_congruence hhere (ofString "../.././/x/a/../") (ofString "../b.html")
  obtain ⟨-, -, hsegments, -⟩ := hspelled hne
  rw [hstack] at hsegments
  exact ⟨hhere, hne, hsegments (by decide), hjoin⟩

end StaticSite.Path
