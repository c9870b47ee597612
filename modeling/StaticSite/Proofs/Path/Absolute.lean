import StaticSite.Proofs.Path.Normalize

namespace StaticSite.Path

variable {here : Location} {p q : Path} {ss outer : List (List Char)} {s : List Char}

theorem chars_ofLocation_ne_nil (l : Location) : (ofLocation l).chars ≠ [] := by
  simp [ofLocation, ofSegments]

def origin (here : Location) (p : Path) : List Component :=
  if p.isAbsolute then [.root] else (ofLocation here).components

theorem components_join_ofLocation (here : Location) (p : Path) :
    ((ofLocation here).join p).components =
      p.origin here ++ p.segments.filterMap componentOf? := by
  by_cases hp : p.isAbsolute = true
  · rw [join, origin, if_pos hp, if_pos hp, components, (isAbsolute_iff_lead p).mp hp]
  · rw [components_join (chars_ofLocation_ne_nil here) (Bool.eq_false_iff.mpr hp), origin, if_neg hp]

theorem filterMap_filter_not_isSilent (ss : List (List Char)) :
    (ss.filter (!isSilent ·)).filterMap componentOf? = ss.filterMap componentOf? := by
  induction ss with
  | nil => rfl
  | cons s ss ih =>
    by_cases hs : isSilent s = true
    · have hnone : componentOf? s = none := if_pos hs
      rw [List.filter_cons_of_neg (by simp [hs]), ih, List.filterMap_cons_none hnone]
    · rw [List.filter_cons_of_pos (by simp [hs]), List.filterMap_cons, List.filterMap_cons, ih]

theorem filterMap_segments_ofSegments (absolute : Bool) (hslash : ∀ s ∈ ss, '/' ∉ s)
    (hhead : absolute = false → ∀ s ∈ ss.head?, s ≠ []) :
    (ofSegments absolute ss).segments.filterMap componentOf? = ss.filterMap componentOf? := by
  by_cases hss : ss = []
  · subst hss
    cases absolute <;> decide
  · rw [segments_ofSegments hss hslash hhead]

theorem joinSlash_append (hss : ss ≠ []) (houter : outer ≠ []) :
    joinSlash (outer ++ ss) = joinSlash outer ++ '/' :: joinSlash ss := by
  induction outer with
  | nil => exact absurd rfl houter
  | cons s outer ih =>
    cases outer with
    | nil =>
      obtain ⟨s', ss, rfl⟩ := List.exists_cons_of_ne_nil hss
      rfl
    | cons s' outer =>
      have hrest : joinSlash (s' :: (outer ++ ss)) = _ := ih (by simp)
      change s ++ '/' :: joinSlash (s' :: (outer ++ ss)) = _
      rw [hrest, ← List.cons_append, ← List.append_assoc]
      rfl

theorem components_ofLocation_append (here : Location) (hslash : ∀ s ∈ ss, '/' ∉ s) :
    (ofLocation (here ++ ss)).components =
      (ofLocation here).components ++ ss.filterMap componentOf? := by
  by_cases hss : ss = []
  · subst hss
    rw [List.append_nil, List.filterMap_nil, List.append_nil]
  · by_cases hhere : here = []
    · subst hhere
      have hroot : (ofLocation []).components = [.root] := by decide
      have hsegments : (ofLocation ss).segments = ss := segments_ofSegments hss hslash nofun
      rw [List.nil_append, hroot, components, hsegments,
        (isAbsolute_iff_lead _).mp (isAbsolute_ofLocation ss)]
    · have hchars : ofLocation (here ++ ss) =
          ⟨(ofLocation here).chars ++ '/' :: joinSlash ss⟩ := by
        rw [ofLocation, ofSegments, if_pos rfl, joinSlash_append hss hhere]
        rfl
      rw [hchars, components_slash, components_concat_slash (chars_ofLocation_ne_nil here),
        splitSlash_joinSlash hss hslash]

theorem components_doubled (hp : p.isAbsolute = true) :
    (Path.mk ('/' :: p.chars)).components = p.components := by
  rw [components_of_isAbsolute (p := ⟨'/' :: p.chars⟩) rfl, components_of_isAbsolute hp]
  rfl

theorem components_join_nil (hp : p.chars ≠ []) : (p.join ⟨[]⟩).components = p.components := by
  have hnone : (Path.mk []).segments.filterMap componentOf? = [] := by decide
  rw [components_join hp rfl, hnone, List.append_nil]

theorem components_absolute (here : Location) (p : Path) :
    (p.absolute here).components = ((ofLocation here).join p).components := by
  have hslash : ∀ s ∈ p.segments.filter (!isSilent ·), '/' ∉ s := fun s hs =>
    slash_notMem_of_mem_segments (List.mem_of_mem_filter hs)
  have hwhole : (ofLocation (if p.isAbsolute then p.segments.filter (!isSilent ·)
      else here ++ p.segments.filter (!isSilent ·))).components =
        ((ofLocation here).join p).components := by
    have hroot : (ofLocation []).components = [.root] := by decide
    rw [components_join_ofLocation, origin, ← filterMap_filter_not_isSilent]
    split
    · rw [← hroot]
      exact components_ofLocation_append [] hslash
    · exact components_ofLocation_append here hslash
  rw [← hwhole]
  unfold absolute
  extract_lets names whole doubled whole'
  have hdoubled : whole'.components = whole.components := by
    unfold whole'
    split
    · exact components_doubled (isAbsolute_ofLocation _)
    · rfl
  change (if _ then whole'.join ⟨[]⟩ else whole').components = whole.components
  split
  · have hchars : whole'.chars ≠ [] := by
      unfold whole'
      split
      · exact List.cons_ne_nil _ _
      · exact chars_ofLocation_ne_nil _
    rw [components_join_nil hchars, hdoubled]
  · exact hdoubled

theorem isAbsolute_eq_of_components (h : p.components = q.components) :
    p.isAbsolute = q.isAbsolute := by
  rw [Bool.eq_iff_iff, isAbsolute_iff_lead, isAbsolute_iff_lead, (lead_eq_of_components h).1]

theorem isAbsolute_join_ofLocation (here : Location) (p : Path) :
    ((ofLocation here).join p).isAbsolute = true := by
  unfold join
  split
  · assumption
  · split <;> rfl

theorem filterMap_trimmedSegments (p : Path) :
    p.trimmedSegments.filterMap componentOf? = p.segments.filterMap componentOf? := by
  rcases trimmedSegments_cases p with h | ⟨rest, -, hsegments, h⟩
  · rw [h, filterMap_dropSilentEnd]
  · rw [h, hsegments, List.filterMap_cons, List.filterMap_cons, filterMap_dropSilentEnd]

theorem dropSilentEnd_concat (ss : List (List Char)) (hs : isSilent s = false) :
    dropSilentEnd (ss ++ [s]) = ss ++ [s] := by
  rw [dropSilentEnd, List.reverse_concat, List.dropWhile_cons_of_neg (by simp [hs]),
    List.reverse_cons, List.reverse_reverse]

theorem trimmedSegments_of_concat (hs : isSilent s = false) (h : p.segments = outer ++ [s]) :
    p.trimmedSegments = outer ++ [s] := by
  rcases trimmedSegments_cases p with htrimmed | ⟨rest, -, hsegments, htrimmed⟩
  · rw [htrimmed, h, dropSilentEnd_concat _ hs]
  · rw [htrimmed]
    rcases List.cons_eq_append_iff.mp (hsegments.symm.trans h) with ⟨-, hlast⟩ | ⟨outer, rfl, rfl⟩
    · obtain rfl := (List.cons.inj hlast).1
      cases hs
    · rw [dropSilentEnd_concat _ hs]
      rfl

theorem head_trimmedSegments (hp : p.isAbsolute = false) :
    ∀ s ∈ p.trimmedSegments.head?, s ≠ [] := by
  intro s hs
  by_cases hchars : p.chars = []
  · obtain rfl : p = ⟨[]⟩ := congrArg Path.mk hchars
    cases hs
  · apply head_segments hp hchars
    obtain ⟨more, hmore⟩ := prefix_trimmedSegments p
    rw [← hmore]
    exact List.mem_head?_append_of_mem_head? hs

theorem exists_parent?_of_concat (hs : isSilent s = false) (h : p.segments = outer ++ [s])
    (hp : p.chars ≠ []) : ∃ q, p.parent? = some q ∧ q.isAbsolute = p.isAbsolute ∧
      q.segments.filterMap componentOf? = outer.filterMap componentOf? := by
  have hslash : ∀ s ∈ outer, '/' ∉ s := fun s hs =>
    slash_notMem_of_mem_segments (h ▸ List.mem_append_left _ hs)
  have hhead (hrelative : p.isAbsolute = false) : ∀ s ∈ outer.head?, s ≠ [] := fun s hs =>
    head_segments hrelative hp s (h ▸ List.mem_head?_append_of_mem_head? hs)
  set q := ofSegments p.isAbsolute outer with hq
  have habsolute : q.isAbsolute = p.isAbsolute := by
    rw [hq]
    cases hcase : p.isAbsolute with
    | true => rfl
    | false => exact isAbsolute_ofSegments hslash (hhead hcase)
  have hslash' : ∀ s ∈ q.trimmedSegments, '/' ∉ s := fun s hs =>
    slash_notMem_of_mem_segments ((prefix_trimmedSegments q).subset hs)
  have hhead' (hrelative : p.isAbsolute = false) : ∀ s ∈ q.trimmedSegments.head?, s ≠ [] :=
    head_trimmedSegments (habsolute.trans hrelative)
  refine ⟨ofSegments p.isAbsolute q.trimmedSegments, ?_, ?_, ?_⟩
  · unfold parent?
    rw [trimmedSegments_of_concat hs h]
    split
    · rename_i hnil
      simp at hnil
    · rw [List.dropLast_concat]
  · cases hcase : p.isAbsolute with
    | true => rfl
    | false => exact isAbsolute_ofSegments hslash' (hhead' hcase)
  · rw [filterMap_segments_ofSegments _ hslash' hhead', filterMap_trimmedSegments, hq,
      filterMap_segments_ofSegments _ hslash hhead]

theorem components_join_parent (here : Location) (hs : isSilent s = false)
    (h : p.segments = outer ++ [s]) (hp : p.chars ≠ []) : ∃ q c, p.parent? = some q ∧
      ((ofLocation here).join p).components = ((ofLocation here).join q).components ++ [c] := by
  obtain ⟨q, hparent, habsolute, hq⟩ := exists_parent?_of_concat hs h hp
  obtain ⟨c, hc⟩ := exists_componentOf? (Bool.eq_false_iff.mp hs)
  refine ⟨q, c, hparent, ?_⟩
  have hlast : [s].filterMap componentOf? = [c] := by rw [List.filterMap_cons_some hc]; rfl
  rw [components_join_ofLocation, components_join_ofLocation, origin, origin, habsolute, hq, h,
    List.filterMap_append, hlast, List.append_assoc]

end StaticSite.Path
