import StaticSite.Proofs.FileTree.Below
import StaticSite.Proofs.FileTree.Create
import StaticSite.Proofs.Path.Names

namespace StaticSite.FileTree
open StaticSite.Text

variable {t : FileTree}

def searched (p : Path) : List Path.Component :=
  if p.chars = ['.'] then [] else p.components

theorem segments_of_notMem {s : List Char} (hs : '/' ∉ s) :
    (Path.mk s).isAbsolute = false ∧ (Path.mk s).segments = [s] := by
  have hrelative : (Path.mk s).isAbsolute = false := by
    cases s with
    | nil => rfl
    | cons c s =>
      apply Path.isAbsolute_cons
      rintro rfl
      exact hs (List.mem_cons_self ..)
  refine ⟨hrelative, ?_⟩
  rw [Path.segments_of_relative hrelative, Path.splitSlash_of_notMem hs]

theorem filterMap_singleton {s : List Char} :
    [s].filterMap Path.componentOf? = (Path.componentOf? s).toList := by
  cases h : Path.componentOf? s <;> simp [h]

theorem components_segment {s : List Char} (hs : '/' ∉ s) (hdot : s ≠ ['.']) :
    (Path.mk s).components = (Path.componentOf? s).toList := by
  obtain ⟨hrelative, hsegments⟩ := segments_of_notMem hs
  have hhead : [s].head? ≠ some ['.'] := by simpa using hdot
  rw [Path.components, Path.lead, hrelative, hsegments, if_neg (by simp), if_neg hhead,
    filterMap_singleton]
  rfl

theorem ne_nil_of_leads {p : Path} {s : List Char} (h : spell?.leads t p s = true)
    (hdot : p.chars = ['.']) : s ≠ [] := by
  rintro rfl
  obtain rfl : p = ⟨['.']⟩ := by rw [← hdot]
  rw [not_leads_nil] at h
  cases h

theorem entry_eq_join {p : Path} (hp : p.chars ≠ []) {s : List Char}
    (hs : (Path.mk s).isAbsolute = false) : entry p s = p.join ⟨s⟩ := by
  rw [entry, Path.join, hs]
  simp only [Bool.false_eq_true, ↓reduceIte, hp, false_or]

theorem extend_eq {p : Path} {s : List Char} (hp : p.chars ≠ []) (hs : '/' ∉ s) :
    spell?.extend p s = topEntry p s := by
  unfold spell?.extend topEntry
  split
  · rfl
  · exact (entry_eq_join hp (segments_of_notMem hs).1).symm

theorem entry_ne_dot (p : Path) (s : List Char) : (entry p s).chars ≠ ['.'] := by
  obtain ⟨x, hx⟩ := exists_entry_eq p
  intro hdot
  have hslash : '/' ∈ (entry p s).chars := by simp [hx]
  rw [hdot] at hslash
  cases List.mem_singleton.mp hslash

theorem searched_extend {p : Path} {s : List Char} (hp : p.chars ≠ []) (hs : '/' ∉ s)
    (hne : p.chars = ['.'] → s ≠ []) :
    (spell?.extend p s).chars ≠ [] ∧
      searched (spell?.extend p s) = searched p ++ (Path.componentOf? s).toList := by
  rw [extend_eq hp hs]
  by_cases hdot : p.chars = ['.']
  · have hsearched : searched p = [] := if_pos hdot
    rw [topEntry, if_pos hdot, hsearched, List.nil_append]
    refine ⟨hne hdot, ?_⟩
    unfold searched
    split
    · rename_i hsdot
      change s = ['.'] at hsdot
      subst hsdot
      rfl
    · rename_i hsdot
      exact components_segment hs hsdot
  · obtain ⟨hrelative, hsegments⟩ := segments_of_notMem hs
    obtain ⟨x, hx⟩ := exists_entry_eq p
    rw [topEntry, searched, searched, if_neg hdot, if_neg hdot, if_neg (entry_ne_dot p s)]
    constructor
    · simp [hx]
    · rw [entry_eq_join hp hrelative, Path.components_join hp hrelative, hsegments,
        filterMap_singleton]

theorem searched_go {p q : Path} {segments : List (List Char)} (hp : p.chars ≠ [])
    (hslash : ∀ s ∈ segments, '/' ∉ s) (h : spell?.go t p segments = some q) :
    q.chars ≠ [] ∧ searched q = searched p ++ segments.filterMap Path.componentOf? := by
  induction segments generalizing p with
  | nil =>
    obtain rfl := Option.some.inj h
    exact ⟨hp, (List.append_nil _).symm⟩
  | cons s rest ih =>
    rw [spell?.go] at h
    split at h
    · rename_i hleads
      obtain ⟨hne, hextend⟩ :=
        searched_extend hp (hslash s (List.mem_cons_self ..)) (ne_nil_of_leads hleads)
      obtain ⟨hq, hrest⟩ := ih hne (fun x hx => hslash x (List.mem_cons_of_mem _ hx)) h
      refine ⟨hq, ?_⟩
      rw [hrest, hextend, List.append_assoc, ← filterMap_singleton, ← List.filterMap_append]
      rfl
    · cases h

theorem searched_spell? {root p : Path} (h : t.spell? root = some p) :
    p.chars ≠ [] ∧ searched p = (if root.isAbsolute then [.root] else []) ++
      root.segments.filterMap Path.componentOf? := by
  have hslash : ∀ s ∈ root.segments, '/' ∉ s := fun s hs => Path.slash_notMem_of_mem_segments hs
  have hroot : searched ⟨['/']⟩ = [.root] := by decide
  have hdot : searched ⟨['.']⟩ = [] := by decide
  unfold spell? at h
  split at h
  · rename_i habsolute
    rw [if_pos habsolute, ← hroot]
    exact searched_go (by simp) hslash h
  · rename_i hrelative
    rw [if_neg hrelative, ← hdot]
    exact searched_go (by simp) hslash h

theorem segments_entry (p : Path) {names : Location} (hne : names ≠ [])
    (hslash : ∀ name ∈ names, '/' ∉ name) :
    ∃ ss, (entry p (Path.joinSlash names)).segments = ss ++ names := by
  have hsplit := Path.splitSlash_joinSlash hne hslash
  obtain ⟨x, hx⟩ := exists_entry_eq p
  rw [hx]
  by_cases hnil : x = []
  · subst hnil
    exact ⟨[], hsplit⟩
  · exact ⟨_, by rw [Path.segments_append_slash hnil, hsplit]⟩

theorem components_topEntry {p : Path} (hp : p.chars ≠ []) {names : Location} (hne : names ≠ [])
    (hnames : ∀ name ∈ names, Path.IsName name) :
    (topEntry p (Path.joinSlash names)).components = searched p ++ names.map .normal ∧
      ∃ ss, (topEntry p (Path.joinSlash names)).segments = ss ++ names := by
  have hslash : ∀ name ∈ names, '/' ∉ name := fun name hname => (hnames name hname).2.1
  have hrelative := Path.isAbsolute_joinSlash hnames
  by_cases hdot : p.chars = ['.']
  · rw [topEntry, if_pos hdot, searched, if_pos hdot]
    constructor
    · exact Path.components_joinSlash hnames
    · refine ⟨[], ?_⟩
      rw [Path.segments_of_relative hrelative, Path.splitSlash_joinSlash hne hslash]
      rfl
  · rw [topEntry, if_neg hdot, searched, if_neg hdot]
    refine ⟨?_, segments_entry p hne hslash⟩
    rw [entry_eq_join hp hrelative, Path.components_join_names hp hnames]

theorem Proper.eq_of_components (h : t.Proper) {root q r : Path} (hq : q ∈ t.below root)
    (hr : r ∈ t.below root) (hqr : q.components = r.components) : q = r := by
  cases hp : t.spell? root with
  | none =>
    rw [FileTree.below, hp] at hq
    cases hq
  | some p =>
    obtain ⟨hp', -⟩ := searched_spell? hp
    obtain ⟨names, hne, hnames, rfl⟩ := h.behind_of_mem_below hp hq
    obtain ⟨names', hne', hnames', rfl⟩ := h.behind_of_mem_below hp hr
    rw [(components_topEntry hp' hne hnames).1, (components_topEntry hp' hne' hnames').1] at hqr
    rw [Path.map_normal_injective (List.append_cancel_left hqr)]

theorem Proper.current_notMem_of_mem_below (h : t.Proper) {root q : Path} (hq : q ∈ t.below root) :
    .current ∉ q.components := by
  cases hp : t.spell? root with
  | none =>
    rw [below, hp] at hq
    cases hq
  | some p =>
    obtain ⟨hne, hsearched⟩ := searched_spell? hp
    obtain ⟨names, hnil, hnames, rfl⟩ := h.behind_of_mem_below hp hq
    rw [(components_topEntry hne hnil hnames).1, hsearched]
    intro hmem
    rcases List.mem_append.mp hmem with hmem | hmem
    · rcases List.mem_append.mp hmem with hmem | hmem
      · split at hmem <;> simp at hmem
      · exact (Path.mem_filterMap_componentOf? hmem).2 rfl
    · simp at hmem

theorem root_ne_nil_of_mem_below {root q : Path} (hq : q ∈ t.below root) : root.chars ≠ [] := by
  intro hnil
  obtain rfl : root = ⟨[]⟩ := by rw [← hnil]
  rw [below, spell?_nil] at hq
  cases hq

theorem lead_eq_of_not_current {root : Path} (h : root.lead ≠ [.current]) :
    (if root.isAbsolute then [Path.Component.root] else []) = root.lead := by
  rcases Path.lead_cases root with hlead | ⟨hlead, -⟩ | hlead
  · rw [if_pos ((Path.isAbsolute_iff_lead root).mpr hlead), hlead]
  · exact absurd hlead h
  · rw [if_neg, hlead]
    rw [Path.isAbsolute_iff_lead, hlead]
    simp

theorem searched_eq_components {root p : Path} (hp : t.spell? root = some p)
    (h : root.lead ≠ [.current]) : searched p = root.components := by
  rw [(searched_spell? hp).2, lead_eq_of_not_current h]
  rfl

section names

variable {root p : Path} {names : Location} (hp : t.spell? root = some p)
  (hlead : root.lead ≠ [.current]) (hne : names ≠ []) (hnames : ∀ name ∈ names, Path.IsName name)

include hp hlead hne hnames

theorem components_topEntry_of_spell? :
    (topEntry p (Path.joinSlash names)).components = root.components ++ names.map .normal ∧
      ∃ ss, (topEntry p (Path.joinSlash names)).segments = ss ++ names := by
  rw [← searched_eq_components hp hlead]
  exact components_topEntry (searched_spell? hp).1 hne hnames

theorem relativeTo?_topEntry (hroot : root.chars ≠ []) :
    (topEntry p (Path.joinSlash names)).relativeTo? root = some ⟨Path.joinSlash names⟩ := by
  obtain ⟨hcomponents, ss, hsegments⟩ := components_topEntry_of_spell? hp hlead hne hnames
  exact Path.relativeTo?_names (Path.components_ne_nil hroot)
    (Path.current_mem_components_iff.not.mpr hlead) hnames hsegments hcomponents

end names

theorem Proper.current_notMem_of_relativeTo? (h : t.Proper) {root q r : Path}
    (hq : q ∈ t.below root) (hr : q.relativeTo? root = some r) : .current ∉ root.components := by
  intro hmem
  apply h.current_notMem_of_mem_below hq
  rw [Path.components_relativeTo? (Path.components_ne_nil (root_ne_nil_of_mem_below hq)) hr]
  exact List.mem_append_left _ hmem

theorem Proper.names_of_mem_below (h : t.Proper) {root q r : Path} (hq : q ∈ t.below root)
    (hr : q.relativeTo? root = some r) :
    root.chars ≠ [] ∧ ∃ names, names ≠ [] ∧ (∀ name ∈ names, Path.IsName name) ∧
      r = ⟨Path.joinSlash names⟩ ∧ q.components = root.components ++ names.map .normal := by
  have hroot := root_ne_nil_of_mem_below hq
  have hcurrent := h.current_notMem_of_relativeTo? hq hr
  cases hp : t.spell? root with
  | none =>
    rw [below, hp] at hq
    cases hq
  | some p =>
    have hlead := Path.current_mem_components_iff.not.mp hcurrent
    obtain ⟨names, hne, hnames, rfl⟩ := h.behind_of_mem_below hp hq
    rw [relativeTo?_topEntry hp hlead hne hnames hroot] at hr
    exact ⟨hroot, names, hne, hnames, (Option.some.inj hr).symm,
      (components_topEntry_of_spell? hp hlead hne hnames).1⟩

theorem Leads.filter_silent {links : Nat} {l m : Location} {segments : List (List Char)}
    (h : t.Leads .followed links l segments m) (outer inner : List (List Char))
    (hsegments : segments = outer ++ inner) :
    t.Leads .followed links l (outer ++ inner.filter (!Path.isSilent ·)) m := by
  induction h generalizing outer inner with
  | done =>
    obtain ⟨rfl, rfl⟩ := List.append_eq_nil_iff.mp hsegments.symm
    exact .done
  | silent hdir hsilent _ ih =>
    rcases List.cons_eq_append_iff.mp hsegments with ⟨rfl, rfl⟩ | ⟨outer, rfl, rfl⟩
    · rw [List.filter_cons_of_neg (by simp [hsilent])]
      exact ih [] _ rfl
    · exact .silent hdir hsilent (ih outer inner rfl)
  | parent hdir _ ih =>
    rcases List.cons_eq_append_iff.mp hsegments with ⟨rfl, rfl⟩ | ⟨outer, rfl, rfl⟩
    · rw [List.filter_cons_of_pos (by decide)]
      exact .parent hdir (ih [] _ rfl)
    · exact .parent hdir (ih outer inner rfl)
  | name hdir henter hnot _ ih =>
    rcases List.cons_eq_append_iff.mp hsegments with ⟨rfl, rfl⟩ | ⟨outer, rfl, rfl⟩
    · rw [List.filter_cons_of_pos (by simp [henter.not_silent])]
      exact .name hdir (henter.of_rest (by simp)) hnot (ih [] _ rfl)
    · exact .name hdir (henter.of_rest (by simp)) hnot (ih outer inner rfl)
  | itself _ _ _ hitself => cases hitself
  | @link _ _ _ _ _ target hdir henter hlink _ _ ih =>
    rcases List.cons_eq_append_iff.mp hsegments with ⟨rfl, rfl⟩ | ⟨outer, rfl, rfl⟩
    · rw [List.filter_cons_of_pos (by simp [henter.not_silent])]
      exact .link hdir (henter.of_rest (by simp)) hlink (by simp) (ih target.segments _ rfl)
    · -- The segments of the link come in front and are kept.
      have hrest := ih (target.segments ++ outer) inner (List.append_assoc ..).symm
      rw [List.append_assoc] at hrest
      exact .link hdir (henter.of_rest (by simp)) hlink (by simp) hrest

theorem start_eq_of_lead {p q : Path} (h : p.lead = q.lead) : t.start p = t.start q := by
  have habsolute : p.isAbsolute = q.isAbsolute := by
    apply Bool.eq_iff_iff.mpr
    rw [Path.isAbsolute_iff_lead, Path.isAbsolute_iff_lead, h]
  rw [start, start, habsolute]

theorem find_eq_of_components {p q : Path} {l k : Location} {n m : Node}
    (hp : t.find p = .ok (l, n)) (hq : t.find q = .ok (k, m))
    (h : p.components = q.components) : l = k ∧ n = m := by
  obtain ⟨hpl, hn⟩ := find_eq_ok_iff.mp hp
  obtain ⟨hqk, hm⟩ := find_eq_ok_iff.mp hq
  obtain ⟨-, -, -, hpleads⟩ := locate_eq_ok_iff_leads.mp hpl
  obtain ⟨-, -, -, hqleads⟩ := locate_eq_ok_iff_leads.mp hqk
  obtain ⟨hlead, hsegments⟩ := Path.lead_eq_of_components h
  have hfilter : p.segments.filter (!Path.isSilent ·) = q.segments.filter (!Path.isSilent ·) := by
    rw [← Path.map_segment_filterMap, hsegments, Path.map_segment_filterMap]
  have hstart := @start_eq_of_lead t _ _ hlead
  have hpthin := hpleads.filter_silent [] p.segments rfl
  have hqthin := hqleads.filter_silent [] q.segments rfl
  rw [hfilter, hstart] at hpthin
  obtain rfl := hpthin.eq hqthin
  rw [hn] at hm
  exact ⟨rfl, Option.some.inj hm⟩

end StaticSite.FileTree
