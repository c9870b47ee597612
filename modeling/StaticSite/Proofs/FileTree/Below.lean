import StaticSite.FileTree.Walk
import StaticSite.Proofs.FileTree.Proper
import StaticSite.Proofs.Path.Inside

namespace StaticSite.FileTree

variable {t : FileTree}

theorem mem_entryNames_iff {p : Path} {name : List Char} : name ∈ t.entryNames p ↔
    ∃ l, t.find p = .ok (l, .directory) ∧ name ≠ [] ∧ t.get? (l ++ [name]) ≠ none := by
  unfold entryNames
  split
  · rename_i l hl
    rw [mem_names_iff, hl]
    constructor
    · intro h
      exact ⟨l, rfl, h⟩
    · rintro ⟨m, hm, h⟩
      obtain ⟨rfl, -⟩ := Prod.mk.inj (Except.ok.inj hm)
      exact h
  · rename_i hnot
    constructor
    · intro h
      cases h
    · rintro ⟨l, hl, -⟩
      exact absurd hl (hnot l)

theorem descend_eq (t : FileTree) (p : Path) : t.descend p =
    (t.entryNames p).flatMap fun name => entry p name :: t.descend (entry p name) := by
  rw [descend]
  split
  · simp
  · rename_i hp
    have hnone : t.entryNames p = [] := by
      apply List.eq_nil_iff_forall_not_mem.mpr
      intro name hname
      obtain ⟨l, hl, -⟩ := mem_entryNames_iff.mp hname
      exact hp (isDirectory_iff.mpr ⟨l, hl⟩)
    rw [hnone, List.flatMap_nil]

theorem mem_descend_iff {p q : Path} : q ∈ t.descend p ↔
    ∃ name ∈ t.entryNames p, q = entry p name ∨ q ∈ t.descend (entry p name) := by
  rw [descend_eq, List.mem_flatMap]
  constructor <;> rintro ⟨name, hname, hq⟩
  · exact ⟨name, hname, List.mem_cons.mp hq⟩
  · exact ⟨name, hname, List.mem_cons.mpr hq⟩

def topEntry (p : Path) (name : List Char) : Path :=
  if p.chars = ['.'] then ⟨name⟩ else entry p name

theorem below_eq {root p : Path} (hp : t.spell? root = some p) : t.below root =
    (t.entryNames p).flatMap fun name => topEntry p name :: t.descend (topEntry p name) := by
  rw [below, hp]
  dsimp only
  split
  · rename_i hdot
    simp only [topEntry, if_pos hdot]
  · rename_i hdot
    simp only [topEntry, if_neg hdot]
    exact descend_eq t p

theorem exists_spell?_of_mem_below {root q : Path} (h : q ∈ t.below root) :
    ∃ p, t.spell? root = some p ∧ t.isDirectory p = true := by
  cases hp : t.spell? root with
  | none =>
    rw [below, hp] at h
    cases h
  | some p =>
    rw [below_eq hp] at h
    obtain ⟨name, hname, -⟩ := List.mem_flatMap.mp h
    obtain ⟨l, hl, -⟩ := mem_entryNames_iff.mp hname
    exact ⟨p, rfl, isDirectory_iff.mpr ⟨l, hl⟩⟩

theorem not_leads_nil (t : FileTree) : spell?.leads t ⟨['.']⟩ [] = false := by
  have hlocate (ending : Ending) : t.locate ending ⟨[]⟩ = .error .notFound := rfl
  have hextend : spell?.extend ⟨['.']⟩ [] = ⟨[]⟩ := rfl
  rw [spell?.leads, if_neg (by decide), hextend, pathExists, FileTree.find, hlocate, hlocate]
  rfl

theorem spell?_nil (t : FileTree) : t.spell? ⟨[]⟩ = none := by
  change spell?.go t ⟨['.']⟩ [[]] = none
  rw [spell?.go, if_neg (by simp [not_leads_nil])]

theorem joinSlash_cons {name : List Char} {names : Location} (h : names ≠ []) :
    Path.joinSlash (name :: names) = name ++ '/' :: Path.joinSlash names := by
  obtain ⟨s, ss, rfl⟩ := List.exists_cons_of_ne_nil h
  rfl

theorem exists_entry_eq (p : Path) : ∃ x, ∀ s, entry p s = ⟨x ++ '/' :: s⟩ := by
  by_cases h : p.chars.getLast? = some '/'
  · obtain ⟨x, hx⟩ := List.getLast?_eq_some_iff.mp h
    refine ⟨x, fun s => ?_⟩
    rw [entry, if_pos h, hx, List.append_assoc]
    rfl
  · exact ⟨p.chars, fun s => if_neg h⟩

theorem entry_injective (p : Path) : Function.Injective (entry p) := by
  obtain ⟨x, hx⟩ := exists_entry_eq p
  intro s s' h
  rw [hx, hx] at h
  exact (List.cons.inj (List.append_cancel_left (Path.mk.inj h))).2

theorem topEntry_injective (p : Path) : Function.Injective (topEntry p) := by
  intro s s' h
  unfold topEntry at h
  split at h
  · exact Path.mk.inj h
  · exact entry_injective p h

theorem entry_of_name {cs name : List Char} (h : Path.IsName name) (s : List Char) :
    entry ⟨cs ++ name⟩ s = ⟨cs ++ (name ++ '/' :: s)⟩ := by
  have hlast : (cs ++ name).getLast? ≠ some '/' := by
    intro hlast
    rw [List.getLast?_append_of_ne_nil _ h.1] at hlast
    exact h.2.1 (List.mem_of_getLast? hlast)
  rw [entry, if_neg hlast, List.append_assoc]

theorem entry_entry {p : Path} {name : List Char} (h : Path.IsName name) (s : List Char) :
    entry (entry p name) s = entry p (name ++ '/' :: s) := by
  obtain ⟨x, hx⟩ := exists_entry_eq p
  rw [hx, hx]
  have hentry := @entry_of_name (x ++ ['/']) name h s
  simpa using hentry

theorem entry_topEntry {p : Path} {name : List Char} (h : Path.IsName name) (s : List Char) :
    entry (topEntry p name) s = topEntry p (name ++ '/' :: s) := by
  unfold topEntry
  split
  · exact @entry_of_name [] name h s
  · exact entry_entry h s

theorem Proper.isName_of_mem_entryNames (h : t.Proper) {p : Path} {name : List Char}
    (hname : name ∈ t.entryNames p) : Path.IsName name := by
  obtain ⟨l, -, -, hsome⟩ := mem_entryNames_iff.mp hname
  obtain ⟨n, hn⟩ := Option.ne_none_iff_exists'.mp hsome
  exact h.isName_of_get? hn name (by simp)

theorem Proper.nodup_entryNames (h : t.Proper) (p : Path) : (t.entryNames p).Nodup := by
  unfold FileTree.entryNames
  split
  · exact h.nodup_names _
  · exact List.nodup_nil

def Behind (place : List Char → Path) (q : Path) : Prop :=
  ∃ names, names ≠ [] ∧ (∀ name ∈ names, Path.IsName name) ∧ q = place (Path.joinSlash names)

theorem Behind.cons {place : List Char → Path} {p q : Path} {name : List Char}
    (hname : Path.IsName name) (hp : ∀ s, entry p s = place (name ++ '/' :: s))
    (hq : Behind (entry p) q) : Behind place q := by
  obtain ⟨names, hne, hnames, rfl⟩ := hq
  refine ⟨name :: names, List.cons_ne_nil _ _, ?_, ?_⟩
  · intro other hother
    rcases List.mem_cons.mp hother with rfl | hother
    · exact hname
    · exact hnames other hother
  · rw [hp, joinSlash_cons hne]

theorem behind_single {place : List Char → Path} {name : List Char} (h : Path.IsName name) :
    Behind place (place name) :=
  ⟨[name], List.cons_ne_nil _ _, by simpa using h, rfl⟩

theorem Proper.behind_of_mem_descend (h : t.Proper) {p q : Path} (hq : q ∈ t.descend p) :
    Behind (entry p) q := by
  induction p using descend.induct t with
  | case1 p hdir ih =>
    obtain ⟨name, hname, rfl | hq⟩ := mem_descend_iff.mp hq
    · exact behind_single (h.isName_of_mem_entryNames hname)
    · have hisName := h.isName_of_mem_entryNames hname
      exact (ih name hname hq).cons hisName (entry_entry hisName)
  | case2 p hnot =>
    rw [FileTree.descend, dif_neg hnot] at hq
    cases hq

theorem Proper.behind_of_mem_below (h : t.Proper) {root p q : Path} (hp : t.spell? root = some p)
    (hq : q ∈ t.below root) : Behind (topEntry p) q := by
  rw [below_eq hp] at hq
  obtain ⟨name, hname, hq⟩ := List.mem_flatMap.mp hq
  have hisName := h.isName_of_mem_entryNames hname
  rcases List.mem_cons.mp hq with rfl | hq
  · exact behind_single hisName
  · exact (h.behind_of_mem_descend hq).cons hisName (entry_topEntry hisName)

theorem takeWhile_of_isName {name : List Char} (h : Path.IsName name) {s : List Char}
    (hs : ∀ c ∈ s.head?, c = '/') : (name ++ s).takeWhile (· != '/') = name := by
  have hname : ∀ c ∈ name, (c != '/') = true := by
    intro c hc
    rw [bne_iff_ne]
    rintro rfl
    exact h.2.1 hc
  rw [List.takeWhile_append_of_pos hname]
  cases s with
  | nil => exact List.append_nil name
  | cons c s =>
    obtain rfl := hs c rfl
    exact List.append_nil name

theorem nodup_entries {place : List Char → Path} (hplace : Function.Injective place)
    {names : List (List Char)} (hnodup : names.Nodup) (hnames : ∀ name ∈ names, Path.IsName name)
    {inside : List Char → List Path} (hinside : ∀ name ∈ names, (inside name).Nodup)
    (hplaced : ∀ name ∈ names, ∀ q ∈ inside name, ∃ s, q = place (name ++ '/' :: s)) :
    (names.flatMap fun name => place name :: inside name).Nodup := by
  have hfirst : ∀ name ∈ names, ∀ q ∈ place name :: inside name,
      ∃ s, q = place s ∧ s.takeWhile (· != '/') = name := by
    intro name hname q hq
    rcases List.mem_cons.mp hq with rfl | hq
    · refine ⟨name ++ [], by rw [List.append_nil], takeWhile_of_isName (hnames name hname) ?_⟩
      simp
    · obtain ⟨s, rfl⟩ := hplaced name hname q hq
      refine ⟨_, rfl, takeWhile_of_isName (hnames name hname) ?_⟩
      simp
  apply List.nodup_flatMap.mpr
  constructor
  · intro name hname
    apply List.nodup_cons.mpr ⟨_, hinside name hname⟩
    intro hmem
    obtain ⟨s, hs⟩ := hplaced name hname _ hmem
    have hlength := congrArg List.length (hplace hs)
    rw [List.length_append, List.length_cons] at hlength
    omega
  · apply hnodup.imp_of_mem
    intro name name' hname hname' hne q hq hq'
    obtain ⟨s, rfl, hs⟩ := hfirst name hname q hq
    obtain ⟨s', heq, hs'⟩ := hfirst name' hname' _ hq'
    apply hne
    rw [← hs, ← hs', hplace heq]

theorem Proper.nodup_descend (h : t.Proper) (p : Path) : (t.descend p).Nodup := by
  induction p using descend.induct t with
  | case1 p hdir ih =>
    rw [descend_eq]
    apply nodup_entries (entry_injective p) (h.nodup_entryNames p)
    · intro name hname
      exact h.isName_of_mem_entryNames hname
    · exact ih
    · intro name hname q hq
      obtain ⟨names, -, -, rfl⟩ := h.behind_of_mem_descend hq
      exact ⟨_, entry_entry (h.isName_of_mem_entryNames hname) _⟩
  | case2 p hnot =>
    rw [FileTree.descend, dif_neg hnot]
    exact List.nodup_nil

theorem Proper.nodup_below (h : t.Proper) (root : Path) : (t.below root).Nodup := by
  cases hp : t.spell? root with
  | none =>
    rw [FileTree.below, hp]
    exact List.nodup_nil
  | some p =>
    rw [below_eq hp]
    apply nodup_entries (topEntry_injective p) (h.nodup_entryNames p)
    · intro name hname
      exact h.isName_of_mem_entryNames hname
    · intro name hname
      exact h.nodup_descend _
    · intro name hname q hq
      obtain ⟨names, -, -, rfl⟩ := h.behind_of_mem_descend hq
      exact ⟨_, entry_topEntry (h.isName_of_mem_entryNames hname) _⟩

end StaticSite.FileTree
