import StaticSite.Proofs.Path.Names

namespace StaticSite.Path

variable {here : Location} {p root : Path} {rest : List Char}

def spoken (cs : List Char) : List (List Char) :=
  (splitSlash cs).filter (!isSilent ·)

theorem filterMap_splitSlash (h : ['.', '.'] ∉ splitSlash rest) :
    (splitSlash rest).filterMap componentOf? = (spoken rest).map .normal := by
  unfold spoken
  generalize splitSlash rest = ss at h
  induction ss with
  | nil => rfl
  | cons s ss ih =>
    obtain ⟨hs, hss⟩ := not_or.mp (List.mem_cons.not.mp h)
    by_cases hsilent : isSilent s = true
    · have hnone : componentOf? s = none := if_pos hsilent
      rw [List.filterMap_cons_none hnone, List.filter_cons_of_neg (by simp [hsilent]), ih hss]
    · have hsome : componentOf? s = some (.normal s) := by
        rw [componentOf?, if_neg hsilent, if_neg (Ne.symm hs)]
      rw [List.filterMap_cons_some hsome, List.filter_cons_of_pos (by simp [hsilent]), ih hss,
        List.map_cons]

theorem components_of_isAbsolute (h : p.isAbsolute = true) :
    p.components = .root :: (splitSlash p.chars).filterMap componentOf? := by
  obtain ⟨chars⟩ := p
  obtain ⟨cs, rfl⟩ := List.head?_eq_some_iff.mp (of_decide_eq_true h)
  rw [components, (isAbsolute_iff_lead _).mp h]
  rfl

theorem components_normalize_eq_root_iff (hhere : ∀ name ∈ here, IsName name) :
    (p.normalize here).components = [.root] ↔ p.normalize here = ofLocation [] := by
  have hroot : (ofLocation []).normalize here = ofLocation [] := normalize_ofLocation here (by simp)
  have hsame := same_normalize_iff hhere p (ofLocation [])
  rw [hroot, same, decide_eq_true_eq] at hsame
  exact hsame

theorem components_normalize_eq_names_iff (hhere : ∀ name ∈ here, IsName name) {names : Location} :
    (p.normalize here).components = names.map .normal ↔ p.chars = [] ∧ names = [] := by
  constructor
  · intro h
    by_cases hp : p.chars = []
    · rw [normalize_of_nil hp] at h
      exact ⟨hp, List.map_eq_nil_iff.mp h.symm⟩
    · have hroot : .root ∈ names.map Component.normal := by
        rw [← h, components_normalize hhere hp]
        exact List.mem_cons_self ..
      obtain ⟨name, -, hname⟩ := List.mem_map.mp hroot
      cases hname
  · rintro ⟨hp, rfl⟩
    rw [normalize_of_nil hp]
    rfl

theorem components_normalize_absolute (hhere : ∀ name ∈ here, IsName name)
    (hrest : (Path.mk rest).isAbsolute = true) (hparent : ['.', '.'] ∉ splitSlash rest) :
    ((Path.mk rest).normalize here).components = .root :: (spoken rest).map .normal := by
  have hne : rest ≠ [] := by
    rintro rfl
    cases hrest
  rw [components_normalize hhere hne, location, components_of_isAbsolute hrest,
    filterMap_splitSlash hparent, walk, walk_map_normal, List.append_nil, List.reverse_reverse]

theorem components_normalize_join (hhere : ∀ name ∈ here, IsName name) (hroot : root.chars ≠ [])
    (hrest : (Path.mk rest).isAbsolute = false) (hparent : ['.', '.'] ∉ splitSlash rest) :
    ((root.join ⟨rest⟩).normalize here).components =
      (root.normalize here).components ++ (spoken rest).map .normal := by
  have hcomponents : (root.join ⟨rest⟩).components =
      root.components ++ (spoken rest).map .normal := by
    rw [components_join hroot hrest, segments_of_relative hrest, filterMap_splitSlash hparent]
  have hne : (root.join ⟨rest⟩).chars ≠ [] := by
    intro hnil
    have hempty : root.join ⟨rest⟩ = ⟨[]⟩ := congrArg Path.mk hnil
    rw [hempty] at hcomponents
    exact components_ne_nil hroot (List.append_eq_nil_iff.mp hcomponents.symm).1
  rw [components_normalize hhere hne, components_normalize hhere hroot,
    location_of_components here hcomponents, List.map_append, List.cons_append]

end StaticSite.Path
