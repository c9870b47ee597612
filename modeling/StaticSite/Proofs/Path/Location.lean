import Mathlib.Data.List.Infix
import Mathlib.Data.List.TakeWhile
import StaticSite.Path

namespace StaticSite.Path

def IsName (name : List Char) : Prop :=
  name ≠ [] ∧ '/' ∉ name ∧ name ≠ ['.'] ∧ name ≠ ['.', '.']

instance (name : List Char) : Decidable (IsName name) :=
  inferInstanceAs (Decidable (_ ∧ _ ∧ _ ∧ _))

theorem slash_notMem_of_mem_splitSlash {cs s : List Char} (h : s ∈ splitSlash cs) : '/' ∉ s := by
  induction cs generalizing s with
  | nil => simp_all [splitSlash]
  | cons c cs ih =>
    simp only [splitSlash] at h
    split at h
    · rcases List.mem_cons.mp h with rfl | h
      · simp
      · exact ih h
    · rename_i hc
      cases hs : splitSlash cs with
      | nil => exact absurd hs (splitSlash_ne_nil cs)
      | cons first others =>
        simp only [hs, List.mem_cons] at h
        rcases h with rfl | h
        · have hfirst : '/' ∉ first := ih (by simp [hs])
          simp [Ne.symm hc, hfirst]
        · exact ih (by simp [hs, h])

theorem splitSlash_of_notMem {s : List Char} (h : '/' ∉ s) : splitSlash s = [s] := by
  induction s with
  | nil => rfl
  | cons c cs ih =>
    simp only [List.mem_cons, not_or] at h
    simp [splitSlash, Ne.symm h.1, ih h.2]

theorem splitSlash_append_slash {s : List Char} (h : '/' ∉ s) (cs : List Char) :
    splitSlash (s ++ '/' :: cs) = s :: splitSlash cs := by
  induction s with
  | nil => simp [splitSlash]
  | cons c s ih =>
    simp only [List.mem_cons, not_or] at h
    simp [splitSlash, Ne.symm h.1, ih h.2]

theorem splitSlash_joinSlash {l : List (List Char)} (hl : l ≠ []) (h : ∀ s ∈ l, '/' ∉ s) :
    splitSlash (joinSlash l) = l := by
  induction l with
  | nil => exact absurd rfl hl
  | cons s l ih =>
    cases l with
    | nil => exact splitSlash_of_notMem (h s (by simp))
    | cons s' l =>
      rw [joinSlash, splitSlash_append_slash (h s (by simp)),
        ih (by simp) fun x hx => h x (List.mem_cons_of_mem _ hx)]
      simp

theorem segments_ne_nil (p : Path) : p.segments ≠ [] := by
  unfold segments
  split <;> exact splitSlash_ne_nil _

theorem slash_notMem_of_mem_segments {p : Path} {s : List Char} (h : s ∈ p.segments) : '/' ∉ s := by
  unfold segments at h
  split at h <;> exact slash_notMem_of_mem_splitSlash h

theorem not_isSilent_of_isName {name : List Char} (h : IsName name) : isSilent name = false := by
  simp [isSilent, h.1, h.2.2.1]

theorem componentOf?_of_isName {name : List Char} (h : IsName name) :
    componentOf? name = some (.normal name) := by
  simp [componentOf?, not_isSilent_of_isName h, h.2.2.2]

theorem isName_of_componentOf? {s name : List Char} (hs : '/' ∉ s)
    (h : componentOf? s = some (.normal name)) : IsName name := by
  simp only [componentOf?] at h
  split at h
  · simp at h
  · rename_i hsilent
    split at h
    · simp at h
    · rename_i hparent
      simp only [Option.some.injEq, Component.normal.injEq] at h
      subst h
      simp only [isSilent, decide_eq_true_eq, not_or] at hsilent
      exact ⟨hsilent.1, hs, hsilent.2, hparent⟩

theorem isName_of_normal_mem_components {p : Path} {name : List Char}
    (h : .normal name ∈ p.components) : IsName name := by
  simp only [components, List.mem_append, List.mem_filterMap] at h
  rcases h with h | ⟨s, hs, hname⟩
  · unfold lead at h
    split at h
    · simp at h
    · split at h <;> simp at h
  · exact isName_of_componentOf? (slash_notMem_of_mem_segments hs) hname

theorem segments_ofLocation {l : Location} (hl : l ≠ []) (h : ∀ name ∈ l, IsName name) :
    (ofLocation l).segments = l := by
  simp only [ofLocation, ofSegments, if_true, segments]
  exact splitSlash_joinSlash hl fun name hn => (h name hn).2.1

theorem filterMap_componentOf? {l : Location} (h : ∀ name ∈ l, IsName name) :
    l.filterMap componentOf? = l.map .normal := by
  induction l with
  | nil => rfl
  | cons name l ih =>
    rw [List.filterMap_cons, componentOf?_of_isName (h name (by simp)),
      ih fun x hx => h x (List.mem_cons_of_mem _ hx), List.map_cons]

theorem isAbsolute_ofLocation (l : Location) : (ofLocation l).isAbsolute = true := by
  simp [ofLocation, ofSegments, isAbsolute]

theorem components_ofLocation {l : Location} (h : ∀ name ∈ l, IsName name) :
    (ofLocation l).components = .root :: l.map .normal := by
  have hlead : (ofLocation l).lead = [.root] := by simp [lead, isAbsolute_ofLocation]
  cases l with
  | nil => decide
  | cons name l =>
    rw [components, hlead, segments_ofLocation (by simp) h, filterMap_componentOf? h]
    rfl

theorem map_normal_injective {l m : Location}
    (h : l.map Component.normal = m.map Component.normal) : l = m :=
  List.map_injective_iff.mpr (fun _ _ hab => Component.normal.inj hab) h

theorem same_ofLocation_iff {l m : Location} (hl : ∀ name ∈ l, IsName name)
    (hm : ∀ name ∈ m, IsName name) : (ofLocation l).same (ofLocation m) = true ↔ l = m := by
  simp only [same, decide_eq_true_eq, components_ofLocation hl, components_ofLocation hm,
    List.cons.injEq, true_and]
  constructor
  · exact map_normal_injective
  · rintro rfl
    rfl

theorem walk_map_normal (stack l : List (List Char)) :
    walk stack (l.map .normal) = l.reverse ++ stack := by
  induction l generalizing stack with
  | nil => rfl
  | cons name l ih => simp [walk, ih]

theorem location_ofLocation (here : Location) {l : Location} (h : ∀ name ∈ l, IsName name) :
    (ofLocation l).location here = l := by
  simp [location, components_ofLocation h, walk, walk_map_normal]

theorem isName_of_mem_walk {stack : List (List Char)} {cs : List Component}
    (hstack : ∀ name ∈ stack, IsName name) (hcs : ∀ name, .normal name ∈ cs → IsName name) :
    ∀ name ∈ walk stack cs, IsName name := by
  induction cs generalizing stack with
  | nil => exact hstack
  | cons c cs ih =>
    have htail : ∀ name, .normal name ∈ cs → IsName name :=
      fun name hn => hcs name (List.mem_cons_of_mem _ hn)
    cases c with
    | root => exact ih (by simp) htail
    | current => exact ih hstack htail
    | parent => exact ih (fun name hn => hstack name (List.mem_of_mem_tail hn)) htail
    | normal name =>
      refine ih (fun x hx => ?_) htail
      rcases List.mem_cons.mp hx with rfl | hx
      · exact hcs x (by simp)
      · exact hstack x hx

theorem isName_of_mem_location {here : Location} (hhere : ∀ name ∈ here, IsName name) (p : Path) :
    ∀ name ∈ p.location here, IsName name := by
  intro name hn
  refine isName_of_mem_walk ?_ (fun x hx => isName_of_normal_mem_components hx) name
    (List.mem_reverse.mp hn)
  intro x hx
  exact hhere x (List.mem_reverse.mp hx)

theorem normalize_ofLocation (here : Location) {l : Location} (h : ∀ name ∈ l, IsName name) :
    (ofLocation l).normalize here = ofLocation l := by
  have hne : (ofLocation l).chars ≠ [] := by simp [ofLocation, ofSegments]
  rw [normalize, if_neg hne, location_ofLocation here h]

theorem normalize_of_nil {here : Location} {p : Path} (hp : p.chars = []) :
    p.normalize here = ⟨[]⟩ := by
  rw [normalize, if_pos hp]
  exact congrArg Path.mk hp

theorem components_normalize {here : Location} {p : Path} (hhere : ∀ name ∈ here, IsName name)
    (hp : p.chars ≠ []) : (p.normalize here).components = .root :: (p.location here).map .normal := by
  rw [normalize, if_neg hp, components_ofLocation (isName_of_mem_location hhere p)]

theorem same_normalize_iff {here : Location} (hhere : ∀ name ∈ here, IsName name) (p q : Path) :
    (p.normalize here).same (q.normalize here) = true ↔ p.normalize here = q.normalize here := by
  constructor
  · intro h
    have heq : (p.normalize here).components = (q.normalize here).components := of_decide_eq_true h
    by_cases hp : p.chars = []
    · by_cases hq : q.chars = []
      · rw [normalize_of_nil hp, normalize_of_nil hq]
      · rw [normalize_of_nil hp, components_normalize hhere hq] at heq
        cases heq
    · by_cases hq : q.chars = []
      · rw [components_normalize hhere hp, normalize_of_nil hq] at heq
        cases heq
      · rw [components_normalize hhere hp, components_normalize hhere hq] at heq
        rw [normalize, normalize, if_neg hp, if_neg hq, map_normal_injective (List.cons.inj heq).2]
  · intro h
    simp [same, h]

theorem dropSilentEnd_of_isName {l : Location} (h : ∀ name ∈ l, IsName name) :
    dropSilentEnd l = l := by
  have hkeep : l.reverse.dropWhile isSilent = l.reverse := by
    apply List.dropWhile_eq_self_iff.mpr
    intro hlen
    have hmem : l.reverse[0] ∈ l := List.mem_reverse.mp (List.getElem_mem hlen)
    exact Bool.eq_false_iff.mp (not_isSilent_of_isName (h _ hmem))
  rw [dropSilentEnd, hkeep, List.reverse_reverse]

theorem trimmedSegments_ofLocation {l : Location} (h : ∀ name ∈ l, IsName name) :
    (ofLocation l).trimmedSegments = l := by
  rw [trimmedSegments, isAbsolute_ofLocation]
  cases l with
  | nil => decide
  | cons name l =>
    rw [segments_ofLocation (by simp) h]
    exact dropSilentEnd_of_isName h

theorem parent?_ofLocation {l : Location} (hl : l ≠ []) (h : ∀ name ∈ l, IsName name) :
    (ofLocation l).parent? = some (ofLocation l.dropLast) := by
  have hinit : ∀ name ∈ l.dropLast, IsName name := fun name hn => h name (List.mem_of_mem_dropLast hn)
  rw [parent?, trimmedSegments_ofLocation h, isAbsolute_ofLocation]
  cases l with
  | nil => exact absurd rfl hl
  | cons name l =>
    change some (ofSegments true (ofLocation _).trimmedSegments) = _
    rw [trimmedSegments_ofLocation hinit]
    rfl

end StaticSite.Path
