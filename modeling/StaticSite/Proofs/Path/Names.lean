import StaticSite.Proofs.Path.Inside

namespace StaticSite.Path

theorem components_concat_slash {x : List Char} (hx : x ≠ []) :
    (Path.mk (x ++ ['/'])).components = (Path.mk x).components := by
  obtain ⟨c, cs, rfl⟩ := List.exists_cons_of_ne_nil hx
  obtain ⟨s, ss, hsegments⟩ := List.exists_cons_of_ne_nil (segments_ne_nil ⟨c :: cs⟩)
  have hempty : (splitSlash []).filterMap componentOf? = [] := by decide
  have hlead : (Path.mk (c :: cs ++ ['/'])).lead = (Path.mk (c :: cs)).lead := by
    rw [lead, lead, segments_append_slash hx, hsegments]
    rfl
  rw [components, components, hlead, segments_append_slash hx, List.filterMap_append, hempty,
    List.append_nil]

theorem components_join {p q : Path} (hp : p.chars ≠ []) (hq : q.isAbsolute = false) :
    (p.join q).components = p.components ++ q.segments.filterMap componentOf? := by
  rw [join, hq, if_neg (by simp), segments_of_relative hq]
  split
  · rename_i hslash
    obtain ⟨x, hx⟩ := List.getLast?_eq_some_iff.mp (hslash.resolve_left hp)
    obtain ⟨chars⟩ := p
    subst hx
    rw [List.append_assoc]
    exact components_slash x q.chars
  · rw [components_slash, components_concat_slash hp]

theorem isAbsolute_joinSlash {names : Location} (h : ∀ name ∈ names, IsName name) :
    (Path.mk (joinSlash names)).isAbsolute = false := by
  change (ofSegments false names).isAbsolute = false
  apply isAbsolute_ofSegments
  · intro name hname
    exact (h name hname).2.1
  · intro name hname
    exact (h name (List.mem_of_mem_head? hname)).1

theorem components_joinSlash {names : Location} (h : ∀ name ∈ names, IsName name) :
    (Path.mk (joinSlash names)).components = names.map .normal := by
  rw [← filterMap_componentOf? h]
  apply components_ofSegments
  · intro name hname
    exact (h name hname).2.1
  · intro name hname
    exact not_isSilent_of_isName (h name (List.mem_of_mem_head? hname))

theorem eq_of_joinSlash {names names' : Location} (h : ∀ name ∈ names, IsName name)
    (h' : ∀ name ∈ names', IsName name) (heq : joinSlash names = joinSlash names') :
    names = names' := by
  apply map_normal_injective
  rw [← components_joinSlash h, heq, components_joinSlash h']

theorem components_join_names {p : Path} (hp : p.chars ≠ []) {names : Location}
    (h : ∀ name ∈ names, IsName name) :
    (p.join ⟨joinSlash names⟩).components = p.components ++ names.map .normal := by
  have hrelative := isAbsolute_joinSlash h
  rw [components_join hp hrelative, segments_of_relative hrelative, filterMap_splitSlash_joinSlash h]

theorem walk_append (stack : List (List Char)) (cs ds : List Component) :
    walk stack (cs ++ ds) = walk (walk stack cs) ds := by
  induction cs generalizing stack with
  | nil => rfl
  | cons c cs ih => cases c <;> exact ih _

theorem location_of_components (here : Location) {p q : Path} {names : Location}
    (h : q.components = p.components ++ names.map .normal) :
    q.location here = p.location here ++ names := by
  rw [location, location, h, walk_append, walk_map_normal, List.reverse_append, List.reverse_reverse]

theorem location_join (here : Location) {p q : Path} (hp : p.chars ≠ [])
    (hq : q.isAbsolute = false) : (p.join q).location here =
      (walk (p.location here).reverse (q.segments.filterMap componentOf?)).reverse := by
  rw [location, location, components_join hp hq, walk_append, List.reverse_reverse]

theorem mem_lead {p : Path} {c : Component} (hc : c ∈ p.lead) : c = .root ∨ c = .current := by
  rcases lead_cases p with h | ⟨h, -⟩ | h
  · rw [h] at hc
    exact .inl (List.mem_singleton.mp hc)
  · rw [h] at hc
    exact .inr (List.mem_singleton.mp hc)
  · rw [h] at hc
    cases hc

theorem mem_filterMap_componentOf? {ss : List (List Char)} {c : Component}
    (hc : c ∈ ss.filterMap componentOf?) : c ≠ .root ∧ c ≠ .current := by
  obtain ⟨s, -, hs⟩ := List.mem_filterMap.mp hc
  exact componentOf?_cases hs

theorem filter_append {front : List Component} (hfront : ∀ c ∈ front, c = .root ∨ c = .current)
    (ss : List (List Char)) :
    (front ++ ss.filterMap componentOf?).filter (fun c => c = .root ∨ c = .current) = front := by
  rw [List.filter_append, List.filter_eq_self.mpr, List.filter_eq_nil_iff.mpr, List.append_nil]
  · intro c hc
    simpa using mem_filterMap_componentOf? hc
  · intro c hc
    simpa using hfront c hc

theorem lead_eq_of_append {p : Path} {front : List Component} {ss : List (List Char)}
    (hfront : ∀ c ∈ front, c = .root ∨ c = .current)
    (h : p.components = front ++ ss.filterMap componentOf?) :
    p.lead = front ∧ p.segments.filterMap componentOf? = ss.filterMap componentOf? := by
  have hlead : p.lead = front := by
    rw [← filter_append hfront ss, ← h, components, filter_append fun c => mem_lead]
  refine ⟨hlead, ?_⟩
  rw [components, hlead] at h
  exact List.append_cancel_left h

theorem lead_eq_of_components {p q : Path} (h : p.components = q.components) :
    p.lead = q.lead ∧
      p.segments.filterMap componentOf? = q.segments.filterMap componentOf? :=
  lead_eq_of_append (fun _ => mem_lead) h

theorem current_mem_components_iff {p : Path} : .current ∈ p.components ↔ p.lead = [.current] := by
  rw [components, List.mem_append]
  constructor
  · rintro (hlead | hmem)
    · rcases lead_cases p with h | ⟨h, -⟩ | h
      · simp [h] at hlead
      · exact h
      · simp [h] at hlead
    · exact absurd rfl (mem_filterMap_componentOf? hmem).2
  · intro hlead
    rw [hlead]
    exact .inl (List.mem_singleton_self _)

theorem isAbsolute_iff_lead (p : Path) : p.isAbsolute = true ↔ p.lead = [.root] := by
  unfold lead
  split
  · simpa using ‹_›
  · rename_i h
    split
    · simp [h]
    · simp [h]

theorem location_eq_walk (here : Location) (p : Path) : p.location here =
    (walk (if p.isAbsolute then [] else here).reverse (p.segments.filterMap componentOf?)).reverse := by
  rw [location, components, walk_append]
  rcases lead_cases p with hlead | ⟨hlead, -⟩ | hlead
  · rw [(isAbsolute_iff_lead p).mpr hlead, hlead]
    rfl
  · have hrelative : ¬ p.isAbsolute = true := by simp [isAbsolute_iff_lead, hlead]
    rw [if_neg hrelative, hlead]
    rfl
  · have hrelative : ¬ p.isAbsolute = true := by simp [isAbsolute_iff_lead, hlead]
    rw [if_neg hrelative, hlead]
    rfl

theorem location_join_of_relative (here : Location) (p : Path) {q : Path}
    (hq : q.isAbsolute = false) :
    (p.join q).location here = (walk (p.location here).reverse q.components).reverse := by
  by_cases hp : p.chars = []
  · obtain ⟨chars⟩ := p
    subst hp
    have hjoin : (Path.mk []).join q = q := by
      rw [join, hq]
      rfl
    have hempty : (Path.mk []).location here = here := List.reverse_reverse here
    rw [hjoin, hempty]
    rfl
  · rw [location_join here hp hq, components]
    rcases lead_cases q with hlead | ⟨hlead, -⟩ | hlead
    · rw [(isAbsolute_iff_lead q).mpr hlead] at hq
      cases hq
    · rw [hlead]
      rfl
    · rw [hlead]
      rfl

theorem not_leading_of_mem_tail {p : Path} {c : Component} (hc : c ∈ p.components.tail) :
    c ≠ .root ∧ c ≠ .current := by
  suffices hmem : c ∈ p.segments.filterMap componentOf? from mem_filterMap_componentOf? hmem
  rw [components] at hc
  rcases lead_cases p with hlead | ⟨hlead, -⟩ | hlead
  · rwa [hlead] at hc
  · rwa [hlead] at hc
  · rw [hlead] at hc
    exact List.mem_of_mem_tail hc

theorem exists_map_normal {cs : List Component}
    (h : ∀ c ∈ cs, ∃ name, IsName name ∧ c = .normal name) :
    ∃ names : Location, (∀ name ∈ names, IsName name) ∧ cs = names.map .normal := by
  induction cs with
  | nil => exact ⟨[], by simp, rfl⟩
  | cons c cs ih =>
    obtain ⟨name, hname, rfl⟩ := h c (List.mem_cons_self ..)
    obtain ⟨names, hnames, rfl⟩ := ih fun c hc => h c (List.mem_cons_of_mem _ hc)
    exact ⟨name :: names, List.forall_mem_cons.mpr ⟨hname, hnames⟩, rfl⟩

theorem namesOf_map_normal (names : Location) : namesOf (names.map .normal) = names := by
  induction names with
  | nil => rfl
  | cons name names ih => exact congrArg (name :: ·) ih

theorem exists_names {p : Path} {front rest : List Component} (h : p.components = front ++ rest)
    (hfront : front ≠ []) (hparent : .parent ∉ p.components) :
    ∃ names : Location, (∀ name ∈ names, IsName name) ∧ rest = names.map .normal := by
  have htail : rest ⊆ p.components.tail := by
    rw [h, List.tail_append_of_ne_nil hfront]
    exact List.subset_append_right _ _
  apply exists_map_normal
  intro c hc
  have hmem : c ∈ p.components := List.mem_of_mem_tail (htail hc)
  obtain ⟨hroot, hcurrent⟩ := not_leading_of_mem_tail (htail hc)
  cases c with
  | root => exact absurd rfl hroot
  | current => exact absurd rfl hcurrent
  | parent => exact absurd hmem hparent
  | normal name => exact ⟨name, isName_of_normal_mem_components hmem, rfl⟩

theorem exists_names_of_isAbsolute {p : Path} (hp : p.isAbsolute = true)
    (hparent : .parent ∉ p.components) : ∃ names : Location, (∀ name ∈ names, IsName name) ∧
      p.components = .root :: names.map .normal := by
  have hroot : p.components = [.root] ++ p.segments.filterMap componentOf? := by
    rw [components, (isAbsolute_iff_lead p).mp hp]
  obtain ⟨names, hnames, hrest⟩ := exists_names hroot (by simp) hparent
  exact ⟨names, hnames, by rw [hroot, hrest]; rfl⟩

theorem location_of_isName (here : Location) {p : Path} {names : Location}
    (hnames : ∀ name ∈ names, IsName name) (h : p.components = .root :: names.map .normal) :
    p.location here = names := by
  rw [← location_ofLocation here hnames, location, location, components_ofLocation hnames, h]

theorem startsWith_iff {p base : Path} :
    p.startsWith base = true ↔ ∃ rest, p.components = base.components ++ rest := by
  rw [startsWith, List.isPrefixOf_iff_prefix]
  exact exists_congr fun rest => eq_comm

theorem startsWith_of_relativeTo? {p base r : Path} (h : p.relativeTo? base = some r) :
    p.startsWith base = true := by
  by_contra hstarts
  simp [relativeTo?, hstarts] at h

theorem startsWith_trans {p q r : Path} (hpq : p.startsWith q = true)
    (hqr : q.startsWith r = true) : p.startsWith r = true := by
  rw [startsWith, List.isPrefixOf_iff_prefix] at *
  exact hqr.trans hpq

def Component.segment : Component → List Char
  | .normal name => name
  | .parent => ['.', '.']
  | _ => ['.']

theorem segment_of_componentOf? {s : List Char} {c : Component} (h : componentOf? s = some c) :
    c.segment = s := by
  unfold componentOf? at h
  split at h
  · cases h
  · split at h
    · rename_i hparent
      obtain rfl := Option.some.inj h
      exact hparent.symm
    · obtain rfl := Option.some.inj h
      rfl

theorem map_segment_filterMap (ss : List (List Char)) :
    (ss.filterMap componentOf?).map Component.segment = ss.filter (!isSilent ·) := by
  induction ss with
  | nil => rfl
  | cons s ss ih =>
    by_cases hs : isSilent s = true
    · have hnone : componentOf? s = none := if_pos hs
      rw [List.filterMap_cons_none hnone, ih, List.filter_cons_of_neg (by simp [hs])]
    · obtain ⟨c, hc⟩ := exists_componentOf? hs
      rw [List.filterMap_cons_some hc, List.map_cons, ih, List.filter_cons_of_pos (by simp [hs]),
        segment_of_componentOf? hc]

theorem sublist_joinSlash {ss ss' : List (List Char)} (h : ss.Sublist ss') :
    (joinSlash ss).Sublist (joinSlash ss') := by
  induction h with
  | slnil => exact List.Sublist.slnil
  | @cons ss ss' s hss ih =>
    cases ss' with
    | nil =>
      rw [List.sublist_nil.mp hss]
      exact List.nil_sublist _
    | cons s' ss' => exact ih.trans ((List.sublist_cons_self _ _).trans (List.sublist_append_right _ _))
  | @cons_cons ss ss' s hss ih =>
    cases ss with
    | nil =>
      cases ss' with
      | nil => exact List.Sublist.refl _
      | cons s' ss' => exact List.sublist_append_left _ _
    | cons s₁ ss =>
      cases ss' with
      | nil => cases hss
      | cons s' ss' => exact (List.Sublist.refl s).append (ih.cons_cons '/')

theorem sublist_ofLocation {p : Path} {names : Location} (hp : p.isAbsolute = true)
    (h : p.components = .root :: names.map .normal) : (ofLocation names).chars.Sublist p.chars := by
  have hsegments : p.segments.filter (!isSilent ·) = names := by
    rw [components, (isAbsolute_iff_lead p).mp hp] at h
    have hrest : p.segments.filterMap componentOf? = names.map .normal := (List.cons.inj h).2
    rw [← map_segment_filterMap, hrest, List.map_map]
    exact List.map_id _
  have hchars : p.chars = '/' :: joinSlash p.segments := by
    conv_lhs => rw [← ofSegments_segments p, hp]
    rfl
  rw [hchars, ← hsegments]
  exact (sublist_joinSlash List.filter_sublist).cons_cons '/'

theorem dropWhile_isSilent_names {names : Location} (h : ∀ name ∈ names, IsName name) :
    names.dropWhile isSilent = names := by
  apply List.dropWhile_eq_self_iff.mpr
  intro hlength
  exact Bool.eq_false_iff.mp (not_isSilent_of_isName (h _ (List.getElem_mem hlength)))

theorem dropWhile_append_names (ss : List (List Char)) {names : Location}
    (h : ∀ name ∈ names, IsName name) :
    (ss ++ names).dropWhile isSilent = ss.dropWhile isSilent ++ names := by
  rw [List.dropWhile_append]
  split
  · rename_i hnil
    rw [List.isEmpty_iff.mp hnil, List.nil_append, dropWhile_isSilent_names h]
  · rfl

theorem dropComponents_append {cs : List Component} {ss : List (List Char)} {names : Location}
    (hnames : ∀ name ∈ names, IsName name) (h : ss.filterMap componentOf? = cs)
    (hhead : ∀ s ∈ ss.head?, isSilent s = false) : dropComponents cs (ss ++ names) = names := by
  induction cs generalizing ss with
  | nil =>
    cases ss with
    | nil => rfl
    | cons s ss =>
      obtain ⟨c, hc⟩ := exists_componentOf? (Bool.eq_false_iff.mp (hhead s rfl))
      rw [List.filterMap_cons_some hc] at h
      cases h
  | cons c cs ih =>
    cases ss with
    | nil => cases h
    | cons s ss =>
      have hs : ¬ isSilent s = true := Bool.eq_false_iff.mp (hhead s rfl)
      obtain ⟨d, hd⟩ := exists_componentOf? hs
      rw [List.filterMap_cons_some hd] at h
      obtain ⟨rfl, hss⟩ := List.cons.inj h
      obtain ⟨hroot, hcurrent⟩ := componentOf?_cases hd
      rw [dropComponents_cons hroot hcurrent, List.cons_append, List.dropWhile_cons_of_neg hs,
        List.tail_cons, dropWhile_append_names ss hnames]
      apply ih
      · rw [filterMap_dropWhile_isSilent, hss]
      · exact head_dropWhile_isSilent ss

theorem exists_mem_of_mem_joinSlash {ss : List (List Char)} {c : Char} (h : c ∈ joinSlash ss)
    (hc : c ≠ '/') : ∃ s ∈ ss, c ∈ s := by
  induction ss with
  | nil => cases h
  | cons s ss ih =>
    cases ss with
    | nil => exact ⟨s, List.mem_singleton_self s, h⟩
    | cons s' ss =>
      change c ∈ s ++ '/' :: joinSlash (s' :: ss) at h
      rw [List.mem_append, List.mem_cons] at h
      rcases h with h | rfl | h
      · exact ⟨s, List.mem_cons_self .., h⟩
      · exact absurd rfl hc
      · obtain ⟨x, hx, hmem⟩ := ih h
        exact ⟨x, List.mem_cons_of_mem _ hx, hmem⟩

theorem mem_joinSlash {ss : List (List Char)} {s : List Char} {c : Char} (hs : s ∈ ss)
    (hc : c ∈ s) : c ∈ joinSlash ss := by
  induction ss with
  | nil => cases hs
  | cons first ss ih =>
    cases ss with
    | nil =>
      rw [List.mem_singleton.mp hs] at hc
      exact hc
    | cons second ss =>
      rcases List.mem_cons.mp hs with rfl | hs
      · exact List.mem_append_left _ hc
      · exact List.mem_append_right _ (List.mem_cons_of_mem _ (ih hs))

theorem mem_chars_iff {p : Path} {c : Char} (hslash : c ≠ '/') (hdot : c ≠ '.') :
    c ∈ p.chars ↔ ∃ name, .normal name ∈ p.components ∧ c ∈ name := by
  have hchars : c ∈ p.chars ↔ c ∈ joinSlash p.segments := by
    conv_lhs => rw [← ofSegments_segments p]
    cases p.isAbsolute with
    | true =>
      change c ∈ '/' :: joinSlash p.segments ↔ _
      rw [List.mem_cons, or_iff_right hslash]
    | false => exact Iff.rfl
  rw [hchars]
  constructor
  · intro h
    obtain ⟨s, hs, hmem⟩ := exists_mem_of_mem_joinSlash h hslash
    have hname : componentOf? s = some (.normal s) := by
      rw [componentOf?, if_neg, if_neg]
      · rintro rfl
        simp [hdot] at hmem
      · intro hsilent
        rcases of_decide_eq_true hsilent with rfl | rfl
        · cases hmem
        · simp [hdot] at hmem
    exact ⟨s, List.mem_append_right _ (List.mem_filterMap.mpr ⟨s, hs, hname⟩), hmem⟩
  · rintro ⟨name, hname, hmem⟩
    rcases List.mem_append.mp hname with hlead | hname
    · rcases mem_lead hlead with h | h
      · cases h
      · cases h
    · obtain ⟨s, hs, hcomponent⟩ := List.mem_filterMap.mp hname
      have hsame := segment_of_componentOf? hcomponent
      change name = s at hsame
      exact mem_joinSlash hs (hsame ▸ hmem)

theorem fileName?_of_components {p : Path} {front : List Component} {names : Location}
    {name : List Char} (h : p.components = front ++ names.map .normal)
    (hname : names.getLast? = some name) : p.fileName? = some name := by
  obtain ⟨init, rfl⟩ := List.getLast?_eq_some_iff.mp hname
  rw [fileName?, h, List.map_append, ← List.append_assoc]
  simp

theorem splitName_eq_iff {name stem ext : List Char} :
    splitName name = (stem, some ext) ↔ stem ≠ [] ∧ name = stem ++ '.' :: ext ∧ '.' ∉ ext := by
  have hsplit := List.takeWhile_append_dropWhile (p := (· != '.')) (l := name.reverse)
  constructor
  · intro h
    unfold splitName at h
    dsimp only at h
    split at h
    · cases h
    · cases h
    · rename_i d reversed hnil hdrop
      obtain ⟨rfl, hext⟩ := Prod.mk.inj h
      obtain rfl := Option.some.inj hext
      have hdot : d = '.' := by
        have hhead := List.head?_dropWhile_not (· != '.') name.reverse
        rw [hdrop] at hhead
        simpa using hhead
      rw [hdrop, hdot] at hsplit
      refine ⟨by simpa using hnil, ?_, ?_⟩
      · calc
          name = name.reverse.reverse := (List.reverse_reverse name).symm
          _ = (name.reverse.takeWhile (· != '.') ++ '.' :: reversed).reverse := by rw [hsplit]
          _ = reversed.reverse ++ '.' :: (name.reverse.takeWhile (· != '.')).reverse := by simp
      · intro hmem
        have hother := List.mem_takeWhile_imp (List.mem_reverse.mp hmem)
        simp at hother
  · rintro ⟨hstem, rfl, hdot⟩
    have hreverse : (stem ++ '.' :: ext).reverse = ext.reverse ++ '.' :: stem.reverse := by simp
    have hext : ∀ c ∈ ext.reverse, (c != '.') = true := by
      intro c hc
      rw [bne_iff_ne]
      rintro rfl
      exact hdot (List.mem_reverse.mp hc)
    obtain ⟨c, cs, hcs⟩ := List.exists_cons_of_ne_nil (List.reverse_eq_nil_iff.not.mpr hstem)
    have hback : stem = (c :: cs).reverse := by rw [← hcs, List.reverse_reverse]
    rw [splitName, hreverse, List.dropWhile_append_of_pos hext, List.takeWhile_append_of_pos hext,
      hcs, hback]
    simp

theorem splitName_eq_some_iff {name ext : List Char} :
    (splitName name).2 = some ext ↔ ∃ stem, stem ≠ [] ∧ name = stem ++ '.' :: ext ∧ '.' ∉ ext := by
  simp only [← splitName_eq_iff]
  constructor
  · intro h
    exact ⟨_, Prod.ext rfl h⟩
  · rintro ⟨stem, h⟩
    rw [h]

theorem relativeTo?_names {p q : Path} {ss : List (List Char)} {names : Location}
    (hp : p.components ≠ []) (hcurrent : .current ∉ p.components)
    (hnames : ∀ name ∈ names, IsName name) (hsegments : q.segments = ss ++ names)
    (h : q.components = p.components ++ names.map .normal) :
    q.relativeTo? p = some ⟨joinSlash names⟩ := by
  have hstarts : q.startsWith p = true := by
    rw [startsWith, List.isPrefixOf_iff_prefix, h]
    exact List.prefix_append _ _
  have hsplit : q.lead ++ ss.filterMap componentOf? = p.components := by
    rw [components, hsegments, List.filterMap_append, filterMap_componentOf? hnames,
      ← List.append_assoc] at h
    exact List.append_cancel_right h
  obtain ⟨c, cs, hcs⟩ := List.exists_cons_of_ne_nil hp
  have hdrop : dropComponents (c :: cs) q.segments = names := by
    rw [hcs] at hsplit
    rcases lead_cases q with hlead | ⟨hlead, -⟩ | hlead
    · rw [hlead] at hsplit
      obtain ⟨rfl, hss⟩ := List.cons.inj hsplit
      change dropComponents cs (q.segments.dropWhile isSilent) = names
      rw [hsegments, dropWhile_append_names ss hnames]
      apply dropComponents_append hnames
      · rw [filterMap_dropWhile_isSilent]
        exact hss
      · exact head_dropWhile_isSilent ss
    · rw [hlead] at hsplit
      obtain ⟨rfl, -⟩ := List.cons.inj hsplit
      rw [hcs] at hcurrent
      exact absurd (List.mem_cons_self ..) hcurrent
    · rw [hlead, List.nil_append] at hsplit
      have hmem : c ∈ ss.filterMap componentOf? := by
        rw [hsplit]
        exact List.mem_cons_self ..
      obtain ⟨hroot, hcur⟩ := mem_filterMap_componentOf? hmem
      rw [← dropComponents_dropWhile hroot hcur, hsegments, dropWhile_append_names ss hnames]
      apply dropComponents_append hnames
      · rw [filterMap_dropWhile_isSilent, hsplit]
      · exact head_dropWhile_isSilent ss
  rw [relativeTo?, hstarts, hcs]
  change some (ofSegments false (dropSilentEnd (dropComponents (c :: cs) q.segments))) = _
  rw [hdrop, dropSilentEnd_of_isName hnames]
  rfl

end StaticSite.Path
