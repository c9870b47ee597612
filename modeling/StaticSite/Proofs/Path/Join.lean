import StaticSite.Proofs.FileTree.Complete
import StaticSite.Proofs.Path.Normalize

namespace StaticSite.Path
open StaticSite.FileTree

variable {names : Location} {name : List Char}

theorem exists_join_eq (p : Path) : ∃ front : List Char,
    (front = [] ∨ front.getLast? = some '/') ∧
      ∀ x, (Path.mk x).isAbsolute = false → p.join ⟨x⟩ = ⟨front ++ x⟩ := by
  by_cases hend : p.chars = [] ∨ p.chars.getLast? = some '/'
  · refine ⟨p.chars, hend, fun x hx => ?_⟩
    rw [join, hx, if_neg (by simp), if_pos hend]
  · refine ⟨p.chars ++ ['/'], .inr List.getLast?_concat, fun x hx => ?_⟩
    rw [join, hx, if_neg (by simp), if_neg hend, List.append_assoc]
    rfl

theorem join_join (p : Path) (hnames : ∀ name ∈ names, IsName name) (hname : IsName name) :
    (p.join ⟨joinSlash names⟩).join ⟨name⟩ = p.join ⟨joinSlash (names ++ [name])⟩ := by
  have hall : ∀ x ∈ names ++ [name], IsName x := by
    simpa [or_imp, forall_and] using ⟨hnames, hname⟩
  have hrelative : (Path.mk name).isAbsolute = false :=
    @isAbsolute_joinSlash [name] (by simpa using hname)
  obtain ⟨front, hfront, hjoin⟩ := exists_join_eq p
  rw [hjoin _ (isAbsolute_joinSlash hnames), hjoin _ (isAbsolute_joinSlash hall), join, hrelative,
    if_neg (by simp)]
  by_cases hnil : names = []
  · subst hnil
    simp only [joinSlash, List.append_nil, List.nil_append, if_pos hfront]
  · obtain ⟨hslash, hne⟩ := getLast?_names hnil hnames
    rw [if_neg, joinSlash_concat hnil, List.append_assoc]
    rw [List.getLast?_append_of_ne_nil _ hne, not_or]
    exact ⟨fun h => hne (List.append_eq_nil_iff.mp h).2, hslash⟩

theorem lead_eq_nil {p : Path} (h : p.components = names.map .normal) : p.lead = [] := by
  rcases lead_cases p with hlead | ⟨hlead, -⟩ | hlead
  · rw [components, hlead] at h
    cases names <;> cases h
  · rw [components, hlead] at h
    cases names <;> cases h
  · exact hlead

theorem isAbsolute_of_lead {p : Path} (h : p.lead = []) : p.isAbsolute = false := by
  rw [← Bool.not_eq_true, isAbsolute_iff_lead, h]
  simp

theorem components_join_normal (p : Path) {q : Path} (h : q.components = names.map .normal) :
    (p.join q).components = p.components ++ names.map .normal := by
  have hlead := lead_eq_nil h
  have hrelative := isAbsolute_of_lead hlead
  rw [← h]
  by_cases hp : p.chars = []
  · obtain rfl : p = ⟨[]⟩ := congrArg Path.mk hp
    rw [join, hrelative, if_neg (by simp), if_pos (.inl rfl)]
    rfl
  · rw [components_join hp hrelative, components, components, hlead]
    rfl

theorem isName_of_components {p : Path} (h : p.components = names.map .normal) :
    ∀ name ∈ names, IsName name := by
  intro name hname
  apply isName_of_normal_mem_components (p := p)
  rw [h]
  exact List.mem_map_of_mem hname

theorem exists_segments_join (p : Path) (hnil : names ≠ []) (h : ∀ name ∈ names, IsName name) :
    ∃ outer, (p.join ⟨joinSlash names⟩).segments = outer ++ names := by
  have hrelative := isAbsolute_joinSlash h
  have hsplit : splitSlash (joinSlash names) = names :=
    splitSlash_joinSlash hnil fun name hname => (h name hname).2.1
  obtain ⟨front, hfront, hjoin⟩ := exists_join_eq p
  rw [hjoin _ hrelative]
  rcases hfront with rfl | hslash
  · exact ⟨[], (segments_of_relative hrelative).trans hsplit⟩
  · obtain ⟨x, rfl⟩ := List.getLast?_eq_some_iff.mp hslash
    rw [List.append_assoc]
    by_cases hx : x = []
    · subst hx
      exact ⟨[], hsplit⟩
    · exact ⟨_, by rw [List.singleton_append, segments_append_slash hx, hsplit]⟩

theorem startsWith_ofLocation_concat (l : Location) (name : List Char) :
    (ofLocation (l ++ [name])).startsWith (ofLocation l) = true := by
  apply startsWith_iff.mpr
  by_cases hnil : l = []
  · subst hnil
    exact ⟨_, components_of_isAbsolute (isAbsolute_ofLocation _)⟩
  · have hchars : ofLocation (l ++ [name]) = ⟨'/' :: joinSlash l ++ '/' :: name⟩ := by
      rw [ofLocation, ofSegments, if_pos rfl, joinSlash_concat hnil]
      rfl
    rw [hchars, components_slash, components_concat_slash (by simp)]
    exact ⟨_, rfl⟩

theorem startsWith_ofLocation (l names : Location) :
    (ofLocation (l ++ names)).startsWith (ofLocation l) = true := by
  induction names using List.reverseRecOn with
  | nil =>
    rw [List.append_nil]
    exact startsWith_iff.mpr ⟨[], (List.append_nil _).symm⟩
  | append_singleton names name ih =>
    rw [← List.append_assoc]
    exact startsWith_trans (startsWith_ofLocation_concat _ _) ih

theorem startsWith_normalize (here : Location) {p q : Path}
    (h : q.components = p.components ++ names.map .normal) :
    (q.normalize here).startsWith (p.normalize here) = true := by
  by_cases hp : p.chars = []
  · rw [normalize_of_nil hp]
    rfl
  · have hq : q.chars ≠ [] := by
      intro hnil
      obtain rfl : q = ⟨[]⟩ := congrArg Path.mk hnil
      exact components_ne_nil hp (List.append_eq_nil_iff.mp h.symm).1
    rw [normalize, normalize, if_neg hp, if_neg hq, location_of_components here h]
    exact startsWith_ofLocation _ _

end StaticSite.Path
