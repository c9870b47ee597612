import StaticSite.Proofs.FileTree.Spelling

namespace StaticSite.FileTree
open StaticSite.Text

variable {t : FileTree}

theorem Leads.insert_silent {links : Nat} {l m : Location} {outer inner : List (List Char)}
    {s : List Char} (h : t.Leads .followed links l (outer ++ inner) m)
    (hs : Path.isSilent s = true) (hm : inner = [] → t.get? m = some .directory) :
    t.Leads .followed links l (outer ++ s :: inner) m := by
  generalize hsegments : outer ++ inner = segments at h
  have hfirst {links : Nat} {l m : Location} (h : t.Leads .followed links l inner m)
      (hm : inner = [] → t.get? m = some .directory) :
      t.Leads .followed links l (s :: inner) m := by
    apply Leads.silent _ hs h
    by_cases hnil : inner = []
    · subst hnil
      cases h
      exact hm rfl
    · exact h.directory_of_ne_nil hnil
  induction h generalizing outer with
  | done =>
    obtain ⟨rfl, rfl⟩ := List.append_eq_nil_iff.mp hsegments
    exact hfirst .done hm
  | silent hdir hsilent hrest ih =>
    rcases List.append_eq_cons_iff.mp hsegments with ⟨rfl, rfl⟩ | ⟨outer, rfl, rfl⟩
    · exact hfirst (.silent hdir hsilent hrest) hm
    · exact .silent hdir hsilent (ih hm rfl)
  | parent hdir hrest ih =>
    rcases List.append_eq_cons_iff.mp hsegments with ⟨rfl, rfl⟩ | ⟨outer, rfl, rfl⟩
    · exact hfirst (.parent hdir hrest) hm
    · exact .parent hdir (ih hm rfl)
  | name hdir henter hnot hrest ih =>
    rcases List.append_eq_cons_iff.mp hsegments with ⟨rfl, rfl⟩ | ⟨outer, rfl, rfl⟩
    · exact hfirst (.name hdir henter hnot hrest) hm
    · exact .name hdir (henter.of_rest (by simp)) hnot (ih hm rfl)
  | itself _ _ _ hitself => cases hitself
  | link hdir henter hlink hmore hrest ih =>
    rcases List.append_eq_cons_iff.mp hsegments with ⟨rfl, rfl⟩ | ⟨outer, rfl, rfl⟩
    · exact hfirst (.link hdir henter hlink hmore hrest) hm
    · have hinner := ih hm (List.append_assoc ..)
      rw [List.append_assoc] at hinner
      exact .link hdir (henter.of_rest (by simp)) hlink (by simp) hinner

theorem Leads.of_filter_silent {links : Nat} {l m : Location} {outer inner : List (List Char)}
    (h : t.Leads .followed links l (outer ++ inner.filter (!Path.isSilent ·)) m)
    (hm : ∀ s ∈ inner.getLast?, Path.isSilent s = true → t.get? m = some .directory) :
    t.Leads .followed links l (outer ++ inner) m := by
  induction inner generalizing outer with
  | nil => exact h
  | cons s inner ih =>
    have hmore : ∀ x ∈ inner.getLast?, Path.isSilent x = true → t.get? m = some .directory := by
      intro x hx
      apply hm
      rw [List.getLast?_cons_of_ne_nil (by rintro rfl; cases hx)]
      exact hx
    by_cases hs : Path.isSilent s = true
    · rw [List.filter_cons_of_neg (by simp [hs])] at h
      apply (ih h hmore).insert_silent hs
      rintro rfl
      exact hm s rfl hs
    · rw [List.filter_cons_of_pos (by simp [hs]), List.append_cons] at h
      rw [List.append_cons]
      exact ih h hmore

theorem Leads.respell {links : Nat} {l m : Location} {ss ss' : List (List Char)}
    (h : t.Leads .followed links l ss m)
    (hsame : ss'.filterMap Path.componentOf? = ss.filterMap Path.componentOf?)
    (hm : ∀ s ∈ ss'.getLast?, Path.isSilent s = true → t.get? m = some .directory) :
    t.Leads .followed links l ss' m := by
  have hthin := h.filter_silent [] ss rfl
  rw [← Path.map_segment_filterMap, ← hsame, Path.map_segment_filterMap] at hthin
  exact hthin.of_filter_silent hm

theorem find_of_leads {p : Path} {l : Location} {n : Node} {ss : List (List Char)}
    (h : t.Leads .followed maxLinks (t.start p) ss l) (hn : t.get? l = some n)
    (hsame : p.segments.filterMap Path.componentOf? = ss.filterMap Path.componentOf?)
    (hend : ∀ s ∈ p.segments.getLast?, Path.isSilent s = true → n = .directory)
    (hne : p.chars ≠ []) (hnul : '\x00' ∉ p.chars) (hlong : byteCount p.chars ≤ maxPath) :
    t.find p = .ok (l, n) := by
  apply find_eq_ok_iff.mpr ⟨locate_eq_ok_iff_leads.mpr ⟨hnul, hne, hlong, _⟩, hn⟩
  apply h.respell hsame
  intro s hs hsilent
  rw [hn, hend s hs hsilent]

theorem find_of_components {p q : Path} {l : Location} {n : Node} (h : t.find p = .ok (l, n))
    (hcomponents : q.components = p.components)
    (hend : ∀ s ∈ q.segments.getLast?, Path.isSilent s = true → n = .directory)
    (hlong : byteCount q.chars ≤ maxPath) : t.find q = .ok (l, n) := by
  obtain ⟨hlocate, hn⟩ := find_eq_ok_iff.mp h
  obtain ⟨hnul, hne, -, hleads⟩ := locate_eq_ok_iff_leads.mp hlocate
  obtain ⟨hlead, hsame⟩ := Path.lead_eq_of_components hcomponents
  rw [← start_eq_of_lead hlead] at hleads
  refine find_of_leads hleads hn hsame hend ?_ ?_ hlong
  · intro hnil
    obtain rfl : q = ⟨[]⟩ := by rw [← hnil]
    exact Path.components_ne_nil hne hcomponents.symm
  · rw [Path.mem_chars_iff (by decide) (by decide)] at hnul ⊢
    rwa [hcomponents]

theorem topEntry_append (p : Path) (s x : List Char) :
    (topEntry p (s ++ x)).chars = (topEntry p s).chars ++ x := by
  unfold topEntry
  split
  · rfl
  · obtain ⟨y, hy⟩ := exists_entry_eq p
    rw [hy, hy, List.append_assoc]
    rfl

theorem sublist_entry (p : Path) (x : List Char) : p.chars.Sublist (entry p x).chars := by
  unfold entry
  split
  · exact List.sublist_append_left ..
  · exact List.sublist_append_left ..

theorem sublist_topEntry (p : Path) (s x : List Char) :
    (topEntry (topEntry p s) x).chars.Sublist (topEntry p (s ++ '/' :: x)).chars := by
  rw [topEntry_append]
  generalize hq : topEntry p s = q
  unfold topEntry entry
  split
  · exact ((List.Sublist.refl x).cons '/').trans (List.sublist_append_right ..)
  · split
    · exact (List.Sublist.refl q.chars).append ((List.Sublist.refl x).cons '/')
    · exact List.Sublist.refl _

theorem sublist_go {p q : Path} {segments : List (List Char)} (hne : segments ≠ [])
    (hp : p.chars ≠ []) (hslash : ∀ s ∈ segments, '/' ∉ s) (h : spell?.go t p segments = some q) :
    q.chars.Sublist (topEntry p (Path.joinSlash segments)).chars := by
  induction segments generalizing p with
  | nil => exact absurd rfl hne
  | cons s rest ih =>
    have hs := hslash s (List.mem_cons_self ..)
    rw [spell?.go] at h
    split at h
    · rename_i hleads
      have hextend := (searched_extend hp hs (ne_nil_of_leads hleads)).1
      rw [extend_eq hp hs] at h hextend
      by_cases hnil : rest = []
      · subst hnil
        obtain rfl := Option.some.inj h
        exact List.Sublist.refl _
      · rw [joinSlash_cons hnil]
        exact (ih hnil hextend (fun x hx => hslash x (List.mem_cons_of_mem _ hx)) h).trans
          (sublist_topEntry p s _)
    · cases h

theorem topEntry_segments (root : Path) :
    topEntry (if root.isAbsolute then ⟨['/']⟩ else ⟨['.']⟩) (Path.joinSlash root.segments) = root := by
  have hroot := Path.ofSegments_segments root
  split
  · rename_i habsolute
    rw [habsolute] at hroot
    exact hroot
  · rename_i hrelative
    rw [Bool.eq_false_iff.mpr hrelative] at hroot
    exact hroot

theorem sublist_spell? {root p : Path} (h : t.spell? root = some p) :
    p.chars.Sublist root.chars := by
  have hsublist := sublist_go (Path.segments_ne_nil root) (by split <;> simp)
    (fun s hs => Path.slash_notMem_of_mem_segments hs) h
  rwa [topEntry_segments] at hsublist

theorem getLast?_go {p q : Path} {segments : List (List Char)} (hp : p.chars ≠ [])
    (hslash : ∀ s ∈ segments, '/' ∉ s) (h : spell?.go t p segments = some q)
    (hlast : segments.getLast? = some []) : q.chars.getLast? = some '/' := by
  induction segments generalizing p with
  | nil => cases hlast
  | cons s rest ih =>
    have hs := hslash s (List.mem_cons_self ..)
    rw [spell?.go] at h
    split at h
    · rename_i hleads
      have hne := ne_nil_of_leads hleads
      have hextend := (searched_extend hp hs hne).1
      rw [extend_eq hp hs] at h hextend
      by_cases hnil : rest = []
      · subst hnil
        obtain rfl := Option.some.inj hlast
        obtain rfl := Option.some.inj h
        obtain ⟨x, hx⟩ := exists_entry_eq p
        rw [topEntry, if_neg fun hdot => hne hdot rfl, hx]
        exact List.getLast?_concat
      · rw [List.getLast?_cons_of_ne_nil hnil] at hlast
        exact ih hextend (fun x hx => hslash x (List.mem_cons_of_mem _ hx)) h hlast
    · cases h

theorem getLast?_segments {p : Path} (h : p.chars.getLast? = some '/') :
    p.segments.getLast? = some [] := by
  obtain ⟨x, hx⟩ := List.getLast?_eq_some_iff.mp h
  obtain rfl : p = ⟨x ++ ['/']⟩ := by rw [← hx]
  by_cases hnil : x = []
  · subst hnil
    rfl
  · rw [Path.segments_append_slash hnil]
    exact List.getLast?_concat

theorem sublist_join {root p : Path} (hp : t.spell? root = some p) (hroot : root.chars ≠ [])
    {x : List Char} (hx : (Path.mk x).isAbsolute = false) :
    (topEntry p x).chars.Sublist (root.join ⟨x⟩).chars := by
  have hsublist := sublist_spell? hp
  have hlast (h : root.chars.getLast? = some '/') : p.chars.getLast? = some '/' :=
    getLast?_go (by split <;> simp) (fun s hs => Path.slash_notMem_of_mem_segments hs) hp
      (getLast?_segments h)
  rw [← entry_eq_join hroot hx, topEntry]
  split
  · obtain ⟨y, hy⟩ := exists_entry_eq root
    rw [hy]
    exact ((List.Sublist.refl x).cons '/').trans (List.sublist_append_right ..)
  · unfold entry
    split
    · split
      · exact hsublist.append (List.Sublist.refl x)
      · exact hsublist.append ((List.Sublist.refl x).cons '/')
    · rename_i hnot
      rw [if_neg fun h => hnot (hlast h)]
      exact hsublist.append (List.Sublist.refl _)

theorem same_of_searched {root p : Path} {outer : List (List Char)}
    (h : searched p = root.lead ++ outer.filterMap Path.componentOf?) :
    t.start p = t.start root ∧
      p.segments.filterMap Path.componentOf? = outer.filterMap Path.componentOf? := by
  by_cases hdot : p.chars = ['.']
  · obtain rfl : p = ⟨['.']⟩ := by rw [← hdot]
    obtain ⟨hlead, houter⟩ := List.append_eq_nil_iff.mp h.symm
    have hrelative : root.isAbsolute = false := by
      apply Bool.eq_false_iff.mpr
      rw [ne_eq, Path.isAbsolute_iff_lead, hlead]
      simp
    rw [start, start, hrelative, houter]
    exact ⟨rfl, rfl⟩
  · rw [searched, if_neg hdot] at h
    obtain ⟨hlead, hsame⟩ := Path.lead_eq_of_append (fun c => Path.mem_lead) h
    exact ⟨start_eq_of_lead hlead, hsame⟩

structure SpellsTo (root : Path) (outer : List (List Char)) (p : Path) : Prop where
  ne_nil : p.chars ≠ []
  searched : searched p = root.lead ++ outer.filterMap Path.componentOf?
  dot : p.chars = ['.'] → outer = []

theorem SpellsTo.next {root p : Path} {l : Location} (hfind : t.find root = .ok (l, .directory))
    (hroot : root.lead ≠ [.current]) {outer rest : List (List Char)} {s : List Char}
    (hsegments : root.segments = outer ++ s :: rest) (h : SpellsTo root outer p)
    (hsublist : (topEntry p (Path.joinSlash (s :: rest))).chars.Sublist root.chars) :
    SpellsTo root (outer ++ [s]) (topEntry p s) ∧ t.isDirectory (topEntry p s) = true := by
  obtain ⟨hlocate, hl⟩ := find_eq_ok_iff.mp hfind
  obtain ⟨hnul, hchars, hlong, hleads⟩ := locate_eq_ok_iff_leads.mp hlocate
  have hs : '/' ∉ s := by
    apply Path.slash_notMem_of_mem_segments (p := root)
    rw [hsegments]
    simp
  -- Only the beginning of a relative path is spelled `.`, and no empty segment follows it.
  have hrelative (hdot : p.chars = ['.']) : outer = [] ∧ root.isAbsolute = false := by
    have hsearched := h.searched
    rw [FileTree.searched, if_pos hdot, h.dot hdot, List.filterMap_nil, List.append_nil] at hsearched
    refine ⟨h.dot hdot, Bool.eq_false_iff.mpr ?_⟩
    rw [ne_eq, Path.isAbsolute_iff_lead, ← hsearched]
    simp
  have hfirst (hdot : p.chars = ['.']) : s ≠ [] ∧ s ≠ ['.'] := by
    obtain ⟨rfl, habsolute⟩ := hrelative hdot
    have hhead : root.segments.head? = some s := by
      rw [hsegments]
      rfl
    refine ⟨Path.head_segments habsolute hchars s hhead, ?_⟩
    rintro rfl
    apply hroot
    rw [Path.lead, habsolute, if_neg (by simp), if_pos hhead]
  obtain ⟨hne, hsearched⟩ := searched_extend h.ne_nil hs fun hdot => (hfirst hdot).1
  rw [extend_eq h.ne_nil hs] at hne hsearched
  have hnext : SpellsTo root (outer ++ [s]) (topEntry p s) := by
    refine ⟨hne, ?_, ?_⟩
    · rw [hsearched, h.searched, List.filterMap_append, filterMap_singleton, List.append_assoc]
    · intro hdot
      unfold topEntry at hdot
      split at hdot
      · rename_i hp
        exact absurd hdot (hfirst hp).2
      · exact absurd hdot (entry_ne_dot p s)
  refine ⟨hnext, ?_⟩
  rw [hsegments, List.append_cons] at hleads
  obtain ⟨more, k, houter, hrest⟩ := hleads.split
  have hk : t.get? k = some .directory := by
    by_cases hnil : rest = []
    · subst hnil
      cases hrest
      exact hl
    · exact hrest.directory_of_ne_nil hnil
  have hbegin : (topEntry p s).chars.Sublist root.chars := by
    refine List.Sublist.trans ?_ hsublist
    obtain ⟨x, hx⟩ := Path.prefix_joinSlash [s] rest
    change s ++ x = _ at hx
    rw [List.singleton_append] at hx
    rw [← hx, topEntry_append]
    exact List.sublist_append_left ..
  obtain ⟨hstart, hsame⟩ := same_of_searched (t := t) hnext.searched
  rw [← hstart] at houter
  exact isDirectory_iff.mpr ⟨k, find_of_leads houter hk hsame (fun _ _ _ => rfl) hne
    (fun hmem => hnul (hbegin.subset hmem)) ((byteCount_mono hbegin).trans hlong)⟩

theorem exists_go {root p : Path} {l : Location} (hfind : t.find root = .ok (l, .directory))
    (hroot : root.lead ≠ [.current]) {outer rest : List (List Char)}
    (hsegments : root.segments = outer ++ rest) (h : SpellsTo root outer p)
    (hp : t.isDirectory p = true)
    (hsublist : rest ≠ [] → (topEntry p (Path.joinSlash rest)).chars.Sublist root.chars) :
    ∃ q, spell?.go t p rest = some q := by
  induction rest generalizing outer p with
  | nil => exact ⟨p, rfl⟩
  | cons s rest ih =>
    have hbegin := hsublist (by simp)
    obtain ⟨hnext, hdir⟩ := h.next hfind hroot hsegments hbegin
    have hs : '/' ∉ s := by
      apply Path.slash_notMem_of_mem_segments (p := root)
      rw [hsegments]
      simp
    have hleads : spell?.leads t p s = true := by
      unfold spell?.leads
      split
      · exact hp
      · obtain ⟨k, hk⟩ := isDirectory_iff.mp hdir
        rw [extend_eq h.ne_nil hs, pathExists_iff.mpr ⟨k, _, hk⟩, Bool.true_or]
    rw [spell?.go, if_pos hleads, extend_eq h.ne_nil hs]
    apply ih (by rw [hsegments, List.append_assoc]; rfl) hnext hdir
    intro hrest
    rw [joinSlash_cons hrest] at hbegin
    exact (sublist_topEntry p s _).trans hbegin

theorem exists_spell? {root : Path} {l : Location} (hfind : t.find root = .ok (l, .directory))
    (hroot : root.lead ≠ [.current]) : ∃ p, t.spell? root = some p := by
  obtain ⟨hlocate, hl⟩ := find_eq_ok_iff.mp hfind
  obtain ⟨-, -, -, hleads⟩ := locate_eq_ok_iff_leads.mp hlocate
  have hbegin : SpellsTo root [] (if root.isAbsolute then ⟨['/']⟩ else ⟨['.']⟩) := by
    refine ⟨by split <;> simp, ?_, fun _ => rfl⟩
    rw [← lead_eq_of_not_current hroot]
    split <;> rfl
  have hdir : t.isDirectory (if root.isAbsolute then ⟨['/']⟩ else ⟨['.']⟩) = true := by
    have hstart := hleads.directory_of_ne_nil (Path.segments_ne_nil root)
    obtain ⟨hsame, hsegments⟩ := same_of_searched (t := t) hbegin.searched
    rw [← hsame] at hstart
    refine isDirectory_iff.mpr ⟨_, find_of_leads .done hstart hsegments (fun _ _ _ => rfl)
      hbegin.ne_nil ?_ ?_⟩
    · split <;> decide
    · split <;> decide
  exact @exists_go _ _ _ _ hfind hroot [] root.segments rfl hbegin hdir
    fun _ => by rw [topEntry_segments]

theorem mem_descend_entry {p q : Path} {name : List Char} (hq : q ∈ t.descend p)
    (hname : name ∈ t.entryNames q) : entry q name ∈ t.descend p := by
  induction p using descend.induct t with
  | case1 p hdir ih =>
    obtain ⟨first, hfirst, hq⟩ := mem_descend_iff.mp hq
    apply mem_descend_iff.mpr
    refine ⟨first, hfirst, .inr ?_⟩
    rcases hq with rfl | hq
    · exact mem_descend_iff.mpr ⟨name, hname, .inl rfl⟩
    · exact ih first hfirst hq
  | case2 p hnot =>
    rw [FileTree.descend, dif_neg hnot] at hq
    cases hq

theorem mem_below_entry {root q : Path} {name : List Char} (hq : q ∈ t.below root)
    (hname : name ∈ t.entryNames q) : entry q name ∈ t.below root := by
  cases hp : t.spell? root with
  | none =>
    rw [FileTree.below, hp] at hq
    cases hq
  | some p =>
    rw [below_eq hp] at hq ⊢
    obtain ⟨first, hfirst, hq⟩ := List.mem_flatMap.mp hq
    refine List.mem_flatMap.mpr ⟨first, hfirst, List.mem_cons_of_mem _ ?_⟩
    rcases List.mem_cons.mp hq with rfl | hq
    · exact mem_descend_iff.mpr ⟨name, hname, .inl rfl⟩
    · exact mem_descend_entry hq hname

theorem Leads.entry_ne_none {links : Nat} {l m : Location} {name : List Char}
    (h : t.Leads .followed links l [name] m) (hname : Path.IsName name) (hm : t.get? m ≠ none) :
    t.get? (l ++ [name]) ≠ none := by
  cases h with
  | silent _ hsilent _ =>
    rw [Path.not_isSilent_of_isName hname] at hsilent
    cases hsilent
  | parent => exact absurd rfl hname.2.2.2
  | name _ _ _ hrest =>
    cases hrest
    exact hm
  | itself _ _ _ hitself => cases hitself
  | link _ _ hlink => simp [hlink]

theorem joinSlash_concat {names : Location} (hne : names ≠ []) (name : List Char) :
    Path.joinSlash (names ++ [name]) = Path.joinSlash names ++ '/' :: name := by
  induction names with
  | nil => exact absurd rfl hne
  | cons first names ih =>
    by_cases hnil : names = []
    · subst hnil
      rfl
    · rw [List.cons_append, joinSlash_cons (by simp), joinSlash_cons hnil, ih hnil,
        List.append_assoc]
      rfl

theorem getLast?_names {names : Location} (hne : names ≠ [])
    (hnames : ∀ name ∈ names, Path.IsName name) :
    (Path.joinSlash names).getLast? ≠ some '/' ∧ Path.joinSlash names ≠ [] := by
  have hlast := List.getLast?_eq_some_getLast hne
  have hname := hnames _ (List.getLast_mem hne)
  have hjoin := getLast?_joinSlash hlast hname.1
  constructor
  · rw [hjoin]
    intro hslash
    exact hname.2.1 (List.mem_of_getLast? hslash)
  · intro hnil
    rw [hnil] at hjoin
    exact hname.1 (List.getLast?_eq_none_iff.mp hjoin.symm)

theorem topEntry_ne_nil (p : Path) {names : Location} (hne : names ≠ [])
    (hnames : ∀ name ∈ names, Path.IsName name) :
    (topEntry p (Path.joinSlash names)).chars ≠ [] := by
  have happend := topEntry_append p [] (Path.joinSlash names)
  rw [List.nil_append] at happend
  rw [happend]
  exact fun hnil => (getLast?_names hne hnames).2 (List.append_eq_nil_iff.mp hnil).2

theorem entry_topEntry_names (p : Path) {names : Location} (hne : names ≠ [])
    (hnames : ∀ name ∈ names, Path.IsName name) (name : List Char) :
    entry (topEntry p (Path.joinSlash names)) name =
      topEntry p (Path.joinSlash (names ++ [name])) := by
  obtain ⟨hslash, hjoin⟩ := getLast?_names hne hnames
  have hlast : (topEntry p (Path.joinSlash names)).chars.getLast? ≠ some '/' := by
    have happend := topEntry_append p [] (Path.joinSlash names)
    rw [List.nil_append] at happend
    rw [happend, List.getLast?_append_of_ne_nil _ hjoin]
    exact hslash
  rw [entry, if_neg hlast, joinSlash_concat hne, ← topEntry_append]

theorem not_silent_of_getLast? {outer : List (List Char)} {names : Location} (hne : names ≠ [])
    (hnames : ∀ name ∈ names, Path.IsName name) :
    ∀ s ∈ (outer ++ names).getLast?, ¬ Path.isSilent s = true := by
  intro s hs
  rw [List.getLast?_append_of_ne_nil _ hne] at hs
  rw [Path.not_isSilent_of_isName (hnames s (List.mem_of_getLast? hs))]
  simp

theorem lead_of_names {root q : Path} {names : Location} (hnames : ∀ name ∈ names, Path.IsName name)
    (hcomponents : q.components = root.components ++ names.map .normal) :
    q.lead = root.lead ∧ q.segments.filterMap Path.componentOf? =
      (root.segments ++ names).filterMap Path.componentOf? := by
  apply Path.lead_eq_of_append fun c => Path.mem_lead
  rw [hcomponents, List.filterMap_append, Path.filterMap_componentOf? hnames, ← List.append_assoc]
  rfl

theorem leads_of_find_names {root q : Path} {names : Location} (hne : names ≠ [])
    (hnames : ∀ name ∈ names, Path.IsName name)
    (hcomponents : q.components = root.components ++ names.map .normal) {l : Location} {n : Node}
    (h : t.find q = .ok (l, n)) :
    t.Leads .followed maxLinks (t.start root) (root.segments ++ names) l := by
  obtain ⟨-, -, -, hleads⟩ := locate_eq_ok_iff_leads.mp (find_eq_ok_iff.mp h).1
  obtain ⟨hlead, hsame⟩ := lead_of_names hnames hcomponents
  rw [start_eq_of_lead hlead] at hleads
  apply hleads.respell hsame.symm
  intro s hs hsilent
  exact absurd hsilent (not_silent_of_getLast? hne hnames s hs)

theorem find_topEntry {root p : Path} (hp : t.spell? root = some p)
    (hlead : root.lead ≠ [.current]) (hroot : root.chars ≠ []) {names : Location}
    (hne : names ≠ []) (hnames : ∀ name ∈ names, Path.IsName name) {l : Location} {n : Node}
    (h : t.find (root.join ⟨Path.joinSlash names⟩) = .ok (l, n)) :
    t.find (topEntry p (Path.joinSlash names)) = .ok (l, n) := by
  obtain ⟨-, -, hlong, -⟩ := locate_eq_ok_iff_leads.mp (find_eq_ok_iff.mp h).1
  have hsublist := sublist_join hp hroot (Path.isAbsolute_joinSlash hnames)
  obtain ⟨hcomponents, ss, hsegments⟩ := components_topEntry_of_spell? hp hlead hne hnames
  apply find_of_components h _ _ ((byteCount_mono hsublist).trans hlong)
  · rw [hcomponents, Path.components_join_names hroot hnames]
  · rw [hsegments]
    intro s hs hsilent
    exact absurd hsilent (not_silent_of_getLast? hne hnames s hs)

theorem find_of_prefix {p q : Path} {l k : Location} {n : Node} {ss : List (List Char)}
    (h : t.find q = .ok (l, n)) (hleads : t.Leads .followed maxLinks (t.start p) ss k)
    (hk : t.get? k = some .directory)
    (hsame : p.segments.filterMap Path.componentOf? = ss.filterMap Path.componentOf?)
    (hne : p.chars ≠ []) (hp : p.chars = ['.'] ∨ p.chars.Sublist q.chars) :
    t.find p = .ok (k, .directory) := by
  obtain ⟨hnul, -, hlong, -⟩ := locate_eq_ok_iff_leads.mp (find_eq_ok_iff.mp h).1
  apply find_of_leads hleads hk hsame (fun _ _ _ => rfl) hne
  · rcases hp with hdot | hsublist
    · simp [hdot]
    · exact fun hmem => hnul (hsublist.subset hmem)
  · rcases hp with hdot | hsublist
    · rw [hdot]
      decide
    · exact (byteCount_mono hsublist).trans hlong

theorem mem_below_of_find {root p : Path} (hp : t.spell? root = some p)
    (hlead : root.lead ≠ [.current]) {names : Location} (hne : names ≠ [])
    (hnames : ∀ name ∈ names, Path.IsName name) {l : Location} {n : Node}
    (h : t.find (topEntry p (Path.joinSlash names)) = .ok (l, n)) :
    topEntry p (Path.joinSlash names) ∈ t.below root := by
  obtain ⟨hchars, hsearched⟩ := searched_spell? hp
  rw [lead_eq_of_not_current hlead] at hsearched
  have hcomponents {names : Location} (hne : names ≠ [])
      (hnames : ∀ name ∈ names, Path.IsName name) :=
    (components_topEntry_of_spell? hp hlead hne hnames).1
  -- The names before the last lead to a directory, and the last is one of its entries.
  induction names using List.reverseRecOn generalizing l n with
  | nil => exact absurd rfl hne
  | append_singleton init name ih =>
    have hinit : ∀ name ∈ init, Path.IsName name :=
      fun other hother => hnames other (List.mem_append_left _ hother)
    have hname : Path.IsName name := hnames name (by simp)
    have hsome : t.get? l ≠ none := by simp [(find_eq_ok_iff.mp h).2]
    have hleads := leads_of_find_names hne hnames (hcomponents hne hnames) h
    rw [← List.append_assoc] at hleads
    obtain ⟨more, k, houter, hinner⟩ := hleads.split
    have hdir := hinner.directory_of_ne_nil (by simp)
    have hentry := hinner.entry_ne_none hname hsome
    by_cases hnil : init = []
    · subst hnil
      obtain ⟨hstart, hsame⟩ := same_of_searched (t := t) hsearched
      rw [List.append_nil, ← hstart] at houter
      have hbegin : p.chars = ['.'] ∨ p.chars.Sublist (topEntry p name).chars := by
        unfold topEntry
        split
        · exact .inl ‹_›
        · exact .inr (sublist_entry p name)
      have hfound := find_of_prefix h houter hdir hsame hchars hbegin
      rw [below_eq hp]
      apply List.mem_flatMap.mpr
      exact ⟨name, mem_entryNames_iff.mpr ⟨k, hfound, hname.1, hentry⟩, List.mem_cons_self ..⟩
    · obtain ⟨hsameLead, hsame⟩ := lead_of_names hinit (hcomponents hnil hinit)
      rw [← start_eq_of_lead hsameLead] at houter
      rw [← entry_topEntry_names p hnil hinit] at h ⊢
      have hfound := find_of_prefix h houter hdir hsame (topEntry_ne_nil p hnil hinit)
        (.inr (sublist_entry _ name))
      apply mem_below_entry (ih hnil hinit hfound)
      exact mem_entryNames_iff.mpr ⟨k, hfound, hname.1, hentry⟩

end StaticSite.FileTree
