import StaticSite.Proofs.FileTree.Follow
import StaticSite.Proofs.Path.Inside

namespace StaticSite.FileTree
open StaticSite.Text

variable {t : FileTree}

theorem Enterable.of_ending {ending other : Ending} {s : List Char} {rest : List (List Char)}
    (h : Enterable ending s rest) (hother : other ≠ .created) : Enterable other s rest :=
  ⟨h.not_silent, h.not_parent, fun hcreated => hother hcreated.1, h.not_long⟩

theorem Enterable.of_rest {ending : Ending} {s : List Char} {rest others : List (List Char)}
    (h : Enterable ending s rest) (hending : ending ≠ .created) : Enterable ending s others :=
  ⟨h.not_silent, h.not_parent, fun hcreated => hending hcreated.1, h.not_long⟩

theorem Leads.followed_of_created {links : Nat} {l m : Location} {segments : List (List Char)}
    (h : t.Leads .created links l segments m) : t.Leads .followed links l segments m := by
  induction h with
  | done => exact .done
  | silent hdir hsilent _ ih => exact .silent hdir hsilent ih
  | parent hdir _ ih => exact .parent hdir ih
  | name hdir henter hnot _ ih => exact .name hdir (henter.of_ending (by simp)) hnot ih
  | itself _ _ _ hitself => cases hitself
  | link hdir henter hlink _ _ ih => exact .link hdir (henter.of_ending (by simp)) hlink (by simp) ih

theorem Leads.itself_of_followed {links : Nat} {l m : Location} {segments : List (List Char)}
    (h : t.Leads .followed links l segments m) (hm : t.get? m ≠ none) :
    ∃ k, t.Leads .itself links l segments k ∧ t.get? k ≠ none := by
  induction h with
  | done => exact ⟨_, .done, hm⟩
  | silent hdir hsilent _ ih =>
    obtain ⟨k, hk, hsome⟩ := ih hm
    exact ⟨k, .silent hdir hsilent hk, hsome⟩
  | parent hdir _ ih =>
    obtain ⟨k, hk, hsome⟩ := ih hm
    exact ⟨k, .parent hdir hk, hsome⟩
  | name hdir henter hnot _ ih =>
    obtain ⟨k, hk, hsome⟩ := ih hm
    exact ⟨k, .name hdir (henter.of_ending (by simp)) hnot hk, hsome⟩
  | itself _ _ _ hitself => cases hitself
  | @link links l m s rest target hdir henter hlink _ _ ih =>
    by_cases hrest : rest = []
    · subst hrest
      exact ⟨l ++ [s], .itself hdir (henter.of_ending (by simp)) hlink rfl, by simp [hlink]⟩
    · obtain ⟨k, hk, hsome⟩ := ih hm
      refine ⟨k, .link hdir (henter.of_ending (by simp)) hlink ?_ hk, hsome⟩
      rintro ⟨-, hnil⟩
      exact hrest hnil

theorem Leads.split {links : Nat} {l m : Location} {outer inner : List (List Char)}
    (h : t.Leads .followed links l (outer ++ inner) m) :
    ∃ more k, t.Leads .followed links l outer k ∧ t.Leads .followed more k inner m := by
  generalize hsegments : outer ++ inner = segments at h
  induction h generalizing outer with
  | done =>
    obtain ⟨rfl, rfl⟩ := List.append_eq_nil_iff.mp hsegments
    exact ⟨0, _, .done, .done⟩
  | silent hdir hsilent hrest ih =>
    cases outer with
    | nil =>
      subst hsegments
      exact ⟨_, _, .done, .silent hdir hsilent hrest⟩
    | cons s outer =>
      obtain ⟨rfl, rfl⟩ := List.cons.inj hsegments
      obtain ⟨more, k, houter, hinner⟩ := ih rfl
      exact ⟨more, k, .silent hdir hsilent houter, hinner⟩
  | parent hdir hrest ih =>
    cases outer with
    | nil =>
      subst hsegments
      exact ⟨_, _, .done, .parent hdir hrest⟩
    | cons s outer =>
      obtain ⟨rfl, rfl⟩ := List.cons.inj hsegments
      obtain ⟨more, k, houter, hinner⟩ := ih rfl
      exact ⟨more, k, .parent hdir houter, hinner⟩
  | name hdir henter hnot hrest ih =>
    cases outer with
    | nil =>
      subst hsegments
      exact ⟨_, _, .done, .name hdir henter hnot hrest⟩
    | cons s outer =>
      obtain ⟨rfl, rfl⟩ := List.cons.inj hsegments
      obtain ⟨more, k, houter, hinner⟩ := ih rfl
      exact ⟨more, k, .name hdir (henter.of_rest (by simp)) hnot houter, hinner⟩
  | itself _ _ _ hitself => cases hitself
  | @link links l m s rest target hdir henter hlink hmore hrest ih =>
    cases outer with
    | nil =>
      subst hsegments
      exact ⟨_, _, .done, .link hdir henter hlink hmore hrest⟩
    | cons s outer =>
      obtain ⟨rfl, rfl⟩ := List.cons.inj hsegments
      obtain ⟨more, k, houter, hinner⟩ := ih (List.append_assoc ..)
      exact ⟨more, k, .link hdir (henter.of_rest (by simp)) hlink (by simp) houter, hinner⟩

theorem Leads.eq {ending : Ending} {links : Nat} {l m m' : Location}
    {segments : List (List Char)} (h : t.Leads ending links l segments m)
    (h' : t.Leads ending links l segments m') : m = m' :=
  Except.ok.inj ((follow_eq_of_leads h).symm.trans (follow_eq_of_leads h'))

theorem Leads.directory_of_ne_nil {ending : Ending} {links : Nat} {l m : Location}
    {segments : List (List Char)} (h : t.Leads ending links l segments m)
    (hsegments : segments ≠ []) : t.get? l = some .directory := by
  cases h with
  | done => exact absurd rfl hsegments
  | silent hdir => exact hdir
  | parent hdir => exact hdir
  | name hdir => exact hdir
  | itself hdir => exact hdir
  | link hdir => exact hdir

theorem not_silent_of_find {p : Path} {l : Location} {n : Node} {outer : List (List Char)}
    {s : List Char} (h : t.find p = .ok (l, n)) (hn : n ≠ .directory)
    (hsegments : p.segments = outer ++ [s]) : Path.isSilent s = false := by
  obtain ⟨hlocate, hl⟩ := find_eq_ok_iff.mp h
  obtain ⟨-, -, -, hleads⟩ := locate_eq_ok_iff_leads.mp hlocate
  rw [hsegments] at hleads
  obtain ⟨more, k, -, hlast⟩ := hleads.split
  cases hlast with
  | silent hdir _ hdone =>
    cases hdone
    rw [hl, Option.some.injEq] at hdir
    exact absurd hdir hn
  | parent => exact isSilent_parent
  | name _ henter => exact Bool.eq_false_iff.mpr henter.not_silent
  | itself _ henter => exact Bool.eq_false_iff.mpr henter.not_silent
  | link _ henter => exact Bool.eq_false_iff.mpr henter.not_silent

theorem getLast?_joinSlash {segments : List (List Char)} {s : List Char}
    (h : segments.getLast? = some s) (hs : s ≠ []) :
    (Path.joinSlash segments).getLast? = s.getLast? := by
  induction segments with
  | nil => cases h
  | cons first segments ih =>
    cases segments with
    | nil =>
      obtain rfl := Option.some.inj h
      rfl
    | cons second segments =>
      have hlast := ih h
      have hne : Path.joinSlash (second :: segments) ≠ [] := by
        intro hnil
        rw [hnil] at hlast
        exact hs (List.getLast?_eq_none_iff.mp hlast.symm)
      rw [Path.joinSlash, List.getLast?_append_of_ne_nil _ (by simp), List.getLast?_cons_of_ne_nil hne]
      · exact hlast
      · simp

theorem withoutEndSlashes_eq {p : Path} (h : p.chars.getLast? ≠ some '/') :
    withoutEndSlashes p = p := by
  have hkeep : p.chars.reverse.dropWhile (· == '/') = p.chars.reverse := by
    apply List.dropWhile_eq_self_iff.mpr
    intro hlength
    rw [beq_eq_false_iff_ne.mpr]
    · simp
    · intro hslash
      apply h
      rw [← List.head?_reverse, List.head?_eq_getElem?, List.getElem?_eq_getElem hlength, hslash]
  unfold withoutEndSlashes
  rw [hkeep, List.reverse_reverse]
  split
  · rfl
  · rfl

theorem byteCount_mono {cs ds : List Char} (h : cs.Sublist ds) : byteCount cs ≤ byteCount ds := by
  induction h with
  | slnil => exact Nat.le_refl _
  | cons c _ ih =>
    rw [byteCount_cons]
    omega
  | cons_cons c _ ih =>
    rw [byteCount_cons, byteCount_cons]
    omega

theorem withoutEndSlashes_parent {p q : Path} (hq : p.parent? = some q) (hne : q.chars ≠ []) :
    withoutEndSlashes q = q := by
  obtain ⟨inner, outer, hsegments, -, rfl, hlast⟩ := Path.parent?_eq_some hq
  by_cases houter : outer = []
  · subst houter
    cases habsolute : p.isAbsolute with
    | true => decide
    | false =>
      rw [habsolute] at hne
      exact absurd rfl hne
  · apply withoutEndSlashes_eq
    have hs := List.getLast?_eq_some_getLast houter
    have hjoin := getLast?_joinSlash hs (hlast _ hs)
    have hslash : (outer.getLast houter).getLast? ≠ some '/' := by
      intro h
      apply Path.slash_notMem_of_mem_segments (p := p) _ (List.mem_of_getLast? h)
      rw [hsegments]
      exact List.mem_append_left _ (List.getLast_mem houter)
    have hnil : Path.joinSlash outer ≠ [] := by
      intro hnil
      rw [hnil] at hjoin
      exact hlast _ hs (List.getLast?_eq_none_iff.mp hjoin.symm)
    cases p.isAbsolute with
    | true =>
      change ('/' :: Path.joinSlash outer).getLast? ≠ some '/'
      rw [List.getLast?_cons_of_ne_nil hnil, hjoin]
      exact hslash
    | false =>
      change (Path.joinSlash outer).getLast? ≠ some '/'
      rw [hjoin]
      exact hslash

theorem find_parent {p q : Path} {l : Location} {n : Node} (h : t.find p = .ok (l, n))
    (hq : p.parent? = some q) (hne : q.chars ≠ []) : ∃ k, t.find q = .ok (k, .directory) := by
  obtain ⟨hnul, hchars, hlong, hleads⟩ := locate_eq_ok_iff_leads.mp (find_eq_ok_iff.mp h).1
  obtain ⟨inner, outer, hsegments, hinner, rfl, -⟩ := Path.parent?_eq_some hq
  have hbegin := Path.chars_prefix_of_segments hsegments
  rw [hsegments] at hleads
  obtain ⟨more, k, houter, hrest⟩ := hleads.split
  have hslash : ∀ s ∈ outer, '/' ∉ s := by
    intro s hs
    apply Path.slash_notMem_of_mem_segments (p := p)
    rw [hsegments]
    exact List.mem_append_left _ hs
  have hhead : p.isAbsolute = false → ∀ s ∈ outer.head?, s ≠ [] := by
    intro habsolute s hs
    apply Path.head_segments habsolute hchars s
    rw [hsegments]
    exact List.mem_head?_append_of_mem_head? hs
  have hstart : t.start (Path.ofSegments p.isAbsolute outer) = t.start p := by
    cases habsolute : p.isAbsolute with
    | true =>
      have hq : (Path.ofSegments true outer).isAbsolute = true := rfl
      rw [start, start, habsolute, hq]
    | false => rw [start, start, habsolute, Path.isAbsolute_ofSegments hslash (hhead habsolute)]
  refine ⟨k, find_eq_ok_iff.mpr ⟨?_, hrest.directory_of_ne_nil hinner⟩⟩
  apply locate_eq_ok_iff_leads.mpr
  refine ⟨fun hmem => hnul (hbegin.subset hmem), hne, ?_, ?_⟩
  · exact (byteCount_mono hbegin.sublist).trans hlong
  · rw [hstart]
    by_cases hnil : outer = []
    · subst hnil
      have hroot : (Path.ofSegments p.isAbsolute []).segments = [[]] := by
        cases p.isAbsolute <;> rfl
      rw [hroot]
      cases houter
      exact .silent (hrest.directory_of_ne_nil hinner) (by decide) .done
    · rw [Path.segments_ofSegments hnil hslash hhead]
      exact houter

theorem createDirectories_of_find {p : Path} {l : Location}
    (h : t.find p = .ok (l, .directory)) (hp : withoutEndSlashes p = p) :
    t.createDirectories p = (t, .ok ()) := by
  obtain ⟨hlocate, hl⟩ := find_eq_ok_iff.mp h
  obtain ⟨hnul, hne, hlong, hleads⟩ := locate_eq_ok_iff_leads.mp hlocate
  obtain ⟨k, hk, hsome⟩ := hleads.itself_of_followed (by simp [hl])
  obtain ⟨n, hn⟩ := Option.ne_none_iff_exists'.mp hsome
  have hitself : t.locate .itself p = .ok k := locate_eq_ok_iff_leads.mpr ⟨hnul, hne, hlong, hk⟩
  have hexists : t.createDirectory p = .error .alreadyExists := by
    simp only [createDirectory, hp, hitself, hn, bind, Except.bind]
  obtain ⟨c, cs, hcs⟩ := List.exists_cons_of_ne_nil hne
  rw [createDirectories, hcs, List.length_cons, createDirectories.go, hexists]
  simp only [createDirectories.orReuse, isDirectory_iff.mpr ⟨l, h⟩, ↓reduceIte]

theorem createParent_of_find {p : Path} {l : Location} {n : Node} (h : t.find p = .ok (l, n)) :
    t.createParent p = (t, .ok ()) := by
  unfold createParent
  split
  · rfl
  · rename_i q hq
    split
    · rfl
    · rename_i hne
      obtain ⟨k, hk⟩ := find_parent h hq hne
      rw [createDirectories_of_find hk (withoutEndSlashes_parent hq hne)]

theorem write_of_find {u : FileTree} {p : Path} {l : Location} {n : Node} {content : Content}
    (h : t.find p = .ok (l, n)) (hwrite : t.write p content = .ok u) :
    u = t.set l (.file content) := by
  obtain ⟨k, hk, -, rfl⟩ := write_eq_ok_iff.mp hwrite
  obtain ⟨-, -, -, hcreated⟩ := locate_eq_ok_iff_leads.mp hk
  obtain ⟨-, -, -, hfollowed⟩ := locate_eq_ok_iff_leads.mp (find_eq_ok_iff.mp h).1
  rw [hcreated.followed_of_created.eq hfollowed]

end StaticSite.FileTree
