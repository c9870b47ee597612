import StaticSite.Proofs.FileTree.Below
import StaticSite.Proofs.FileTree.Create

namespace StaticSite.FileTree

/-- What is in `t` is in `u`, though a file may hold something else. -/
structure Keeps (t u : FileTree) : Prop where
  here : u.here = t.here
  directory : ∀ l, t.get? l = some .directory → u.get? l = some .directory
  link : ∀ l target, t.get? l = some (.link target) → u.get? l = some (.link target)
  file : ∀ l content, t.get? l = some (.file content) → ∃ other, u.get? l = some (.file other)

variable {t u v : FileTree}

theorem Keeps.refl (t : FileTree) : t.Keeps t :=
  ⟨rfl, fun _ hl => hl, fun _ _ hl => hl, fun _ content hl => ⟨content, hl⟩⟩

theorem Keeps.trans (h : t.Keeps u) (h' : u.Keeps v) : t.Keeps v := by
  refine ⟨h'.here.trans h.here, fun l hl => h'.directory l (h.directory l hl),
    fun l target hl => h'.link l target (h.link l target hl), ?_⟩
  intro l content hl
  obtain ⟨other, hother⟩ := h.file l content hl
  exact h'.file l other hother

theorem Keeps.get?_ne_none (h : t.Keeps u) {l : Location} (hl : t.get? l ≠ none) :
    u.get? l ≠ none := by
  obtain ⟨n, hn⟩ := Option.ne_none_iff_exists'.mp hl
  cases n with
  | file content =>
    obtain ⟨other, hother⟩ := h.file l content hn
    simp [hother]
  | directory => simp [h.directory l hn]
  | link target => simp [h.link l target hn]

theorem Leads.kept {ending : Ending} {links : Nat} {l m : Location} {segments : List (List Char)}
    (hleads : t.Leads ending links l segments m) (h : t.Keeps u) (hm : t.get? m ≠ none) :
    u.Leads ending links l segments m := by
  induction hleads with
  | done => exact .done
  | silent hdir hsilent _ ih => exact .silent (h.directory _ hdir) hsilent (ih hm)
  | parent hdir _ ih => exact .parent (h.directory _ hdir) (ih hm)
  | @name links l m s rest hdir henter hnot hrest ih =>
    refine .name (h.directory _ hdir) henter (fun target hlink => ?_) (ih hm)
    -- What the walk goes on from is there already, so it has not become a link.
    cases hn : t.get? (l ++ [s]) with
    | none =>
      by_cases hnil : rest = []
      · subst hnil
        cases hrest
        exact hm hn
      · rw [hrest.directory_of_ne_nil hnil] at hn
        cases hn
    | some n =>
      cases n with
      | file content =>
        obtain ⟨other, hother⟩ := h.file _ content hn
        rw [hother] at hlink
        cases hlink
      | directory =>
        rw [h.directory _ hn] at hlink
        cases hlink
      | link other => exact hnot other hn
  | itself hdir henter hlink hitself =>
    exact .itself (h.directory _ hdir) henter (h.link _ _ hlink) hitself
  | link hdir henter hlink hmore _ ih =>
    exact .link (h.directory _ hdir) henter (h.link _ _ hlink) hmore (ih hm)

theorem Keeps.locate (h : t.Keeps u) {ending : Ending} {p : Path} {l : Location}
    (hl : t.locate ending p = .ok l) (hsome : t.get? l ≠ none) : u.locate ending p = .ok l := by
  obtain ⟨hnul, hne, hlong, hleads⟩ := locate_eq_ok_iff_leads.mp hl
  have hstart : u.start p = t.start p := by rw [start, start, h.here]
  apply locate_eq_ok_iff_leads.mpr
  rw [hstart]
  exact ⟨hnul, hne, hlong, hleads.kept h hsome⟩

theorem Keeps.find (h : t.Keeps u) {p : Path} {l : Location} {n : Node}
    (hfind : t.find p = .ok (l, n)) : ∃ m, u.find p = .ok (l, m) := by
  obtain ⟨hl, hn⟩ := find_eq_ok_iff.mp hfind
  have hsome : t.get? l ≠ none := by simp [hn]
  obtain ⟨m, hm⟩ := Option.ne_none_iff_exists'.mp (h.get?_ne_none hsome)
  exact ⟨m, find_eq_ok_iff.mpr ⟨h.locate hl hsome, hm⟩⟩

theorem Keeps.find_directory (h : t.Keeps u) {p : Path} {l : Location}
    (hfind : t.find p = .ok (l, .directory)) : u.find p = .ok (l, .directory) := by
  obtain ⟨hl, hn⟩ := find_eq_ok_iff.mp hfind
  exact find_eq_ok_iff.mpr ⟨h.locate hl (by simp [hn]), h.directory l hn⟩

theorem Keeps.find_file (h : t.Keeps u) {p : Path} {l : Location} {content : Content}
    (hfind : t.find p = .ok (l, .file content)) : ∃ other, u.find p = .ok (l, .file other) := by
  obtain ⟨hl, hn⟩ := find_eq_ok_iff.mp hfind
  obtain ⟨other, hother⟩ := h.file l content hn
  exact ⟨other, find_eq_ok_iff.mpr ⟨h.locate hl (by simp [hn]), hother⟩⟩

theorem Keeps.isDirectory (h : t.Keeps u) {p : Path} (hp : t.isDirectory p = true) :
    u.isDirectory p = true := by
  obtain ⟨l, hl⟩ := isDirectory_iff.mp hp
  exact isDirectory_iff.mpr ⟨l, h.find_directory hl⟩

theorem Keeps.isFile (h : t.Keeps u) {p : Path} (hp : t.isFile p = true) :
    u.isFile p = true := by
  obtain ⟨l, content, hl⟩ := isFile_iff.mp hp
  obtain ⟨other, hother⟩ := h.find_file hl
  exact isFile_iff.mpr ⟨l, other, hother⟩

theorem Keeps.leads (h : t.Keeps u) {p : Path} {s : List Char}
    (hleads : spell?.leads t p s = true) : spell?.leads u p s = true := by
  unfold spell?.leads at hleads ⊢
  split
  · rename_i hdots
    rw [if_pos hdots] at hleads
    exact h.isDirectory hleads
  · rename_i hname
    rw [if_neg hname] at hleads
    rw [Bool.or_eq_true] at hleads ⊢
    rcases hleads with hexists | hitself
    · obtain ⟨l, n, hl⟩ := pathExists_iff.mp hexists
      obtain ⟨m, hm⟩ := h.find hl
      exact .inl (pathExists_iff.mpr ⟨l, m, hm⟩)
    · cases hl : t.locate .itself (spell?.extend p s) with
      | error e =>
        rw [hl] at hitself
        cases hitself
      | ok l =>
        rw [hl] at hitself
        have hsome := Option.isSome_iff_ne_none.mp hitself
        apply Or.inr
        rw [h.locate hl hsome]
        exact Option.isSome_iff_ne_none.mpr (h.get?_ne_none hsome)

theorem Keeps.spell? (h : t.Keeps u) {p q : Path} (hp : t.spell? p = some q) :
    u.spell? p = some q := by
  have hgo (segments : List (List Char)) (r : Path) (hr : spell?.go t r segments = some q) :
      spell?.go u r segments = some q := by
    induction segments generalizing r with
    | nil => exact hr
    | cons s rest ih =>
      simp only [spell?.go] at hr ⊢
      split at hr
      · rename_i hs
        rw [if_pos (h.leads hs)]
        exact ih _ hr
      · cases hr
  exact hgo _ _ hp

theorem Keeps.entryNames (h : t.Keeps u) {p : Path} {name : List Char}
    (hname : name ∈ t.entryNames p) : name ∈ u.entryNames p := by
  obtain ⟨l, hl, hne, hsome⟩ := mem_entryNames_iff.mp hname
  exact mem_entryNames_iff.mpr ⟨l, h.find_directory hl, hne, h.get?_ne_none hsome⟩

theorem Keeps.descend (h : t.Keeps u) {p q : Path} (hq : q ∈ t.descend p) :
    q ∈ u.descend p := by
  induction p using descend.induct t with
  | case1 p hdir ih =>
    obtain ⟨name, hname, hq⟩ := mem_descend_iff.mp hq
    apply mem_descend_iff.mpr
    exact ⟨name, h.entryNames hname, hq.imp_right (ih name hname)⟩
  | case2 p hnot =>
    rw [FileTree.descend, dif_neg hnot] at hq
    cases hq

theorem Keeps.below (h : t.Keeps u) {root q : Path} (hq : q ∈ t.below root) :
    q ∈ u.below root := by
  cases hp : t.spell? root with
  | none =>
    rw [FileTree.below, hp] at hq
    cases hq
  | some p =>
    rw [below_eq hp] at hq
    rw [below_eq (h.spell? hp)]
    obtain ⟨name, hname, hq⟩ := List.mem_flatMap.mp hq
    apply List.mem_flatMap.mpr
    refine ⟨name, h.entryNames hname, ?_⟩
    rcases List.mem_cons.mp hq with rfl | hq
    · exact List.mem_cons_self ..
    · exact List.mem_cons_of_mem _ (h.descend hq)

end StaticSite.FileTree
