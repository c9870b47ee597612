import StaticSite.Proofs.FileTree.Kept

/-!
Writing files and creating directories takes nothing away: what was found is found in the same
place, though a file may hold something else.
-/

namespace StaticSite.FileTree

structure Grows (t u : FileTree) : Prop extends Keeps t u where
  proper : u.Proper

variable {t u v : FileTree}

theorem Grows.refl (h : t.Proper) : t.Grows t :=
  ⟨.refl t, h⟩

theorem Grows.trans (h : t.Grows u) (h' : u.Grows v) : t.Grows v :=
  ⟨h.toKeeps.trans h'.toKeeps, h'.proper⟩

theorem grows_set (ht : t.Proper) {l : Location} {n : Node}
    (hname : ∀ name ∈ l, Path.IsName name) (hparent : t.get? l.dropLast = some .directory)
    (hl : t.get? l = none ∨ (∃ content, t.get? l = some (.file content)) ∧ ∃ other, n = .file other) :
    t.Grows (t.set l n) := by
  have hdirectory : t.get? l ≠ some .directory := by
    rcases hl with hl | ⟨⟨content, hl⟩, -⟩ <;> simp [hl]
  have hroot := ne_nil_of_not_directory hdirectory
  refine ⟨⟨rfl, ?_, ?_, ?_⟩, ht.set_node hname hparent hdirectory n⟩
  · intro k hk
    rw [get?_set hroot, if_neg, hk]
    rintro rfl
    exact hdirectory hk
  · intro k target hk
    rw [get?_set hroot, if_neg, hk]
    rintro rfl
    rcases hl with hl | ⟨⟨content, hl⟩, -⟩ <;> rw [hl] at hk <;> cases hk
  · intro k content hk
    rw [get?_set hroot]
    split
    · rename_i heq
      subst heq
      rcases hl with hl | ⟨-, other, rfl⟩
      · rw [hl] at hk
        cases hk
      · exact ⟨other, rfl⟩
    · exact ⟨content, hk⟩

theorem Leads.new_entry {ending : Ending} {links : Nat} {l m : Location}
    {segments : List (List Char)} (h : t.Leads ending links l segments m) (ht : t.Proper)
    (hm : t.get? m = none) (hsegments : segments ≠ []) (hslash : ∀ s ∈ segments, '/' ∉ s) :
    ∃ k s, m = k ++ [s] ∧ t.get? k = some .directory ∧ Path.IsName s := by
  induction h with
  | done => exact absurd rfl hsegments
  | @silent links l m s rest hdir _ hrest ih =>
    refine ih hm ?_ fun s hs => hslash s (List.mem_cons_of_mem _ hs)
    rintro rfl
    cases hrest
    rw [hm] at hdir
    cases hdir
  | @parent links l m rest hdir hrest ih =>
    refine ih hm ?_ fun s hs => hslash s (List.mem_cons_of_mem _ hs)
    rintro rfl
    cases hrest
    rw [ht.directory_of_prefix hdir (List.dropLast_prefix l)] at hm
    cases hm
  | @name links l m s rest hdir henter _ hrest ih =>
    by_cases hnil : rest = []
    · subst hnil
      cases hrest
      have hs := henter.not_silent
      simp only [Path.isSilent, decide_eq_true_eq, not_or] at hs
      exact ⟨l, s, rfl, hdir, hs.1, hslash s (List.mem_cons_self ..), hs.2, henter.not_parent⟩
    · exact ih hm hnil fun s hs => hslash s (List.mem_cons_of_mem _ hs)
  | itself _ _ hlink _ =>
    rw [hm] at hlink
    cases hlink
  | @link links l m s rest target _ _ _ _ _ ih =>
    refine ih hm (by simp [Path.segments_ne_nil]) ?_
    intro s hs
    rcases List.mem_append.mp hs with hs | hs
    · exact Path.slash_notMem_of_mem_segments hs
    · exact hslash s (List.mem_cons_of_mem _ hs)

theorem new_entry_of_locate (ht : t.Proper) {ending : Ending} {p : Path} {l : Location}
    (h : t.locate ending p = .ok l) (hl : t.get? l = none) :
    (∀ name ∈ l, Path.IsName name) ∧ t.get? l.dropLast = some .directory := by
  obtain ⟨-, -, -, hleads⟩ := locate_eq_ok_iff_leads.mp h
  obtain ⟨k, s, rfl, hk, hs⟩ := hleads.new_entry ht hl (Path.segments_ne_nil p)
    fun s hs => Path.slash_notMem_of_mem_segments hs
  rw [List.dropLast_concat]
  refine ⟨?_, hk⟩
  intro name hname
  rcases List.mem_append.mp hname with hname | hname
  · exact ht.isName_of_get? hk name hname
  · rw [List.mem_singleton.mp hname]
    exact hs

theorem not_link_of_locate (ht : t.Proper) {ending : Ending} (hending : ending ≠ .itself)
    {p : Path} {l : Location} (h : t.locate ending p = .ok l) (target : Path) :
    t.get? l ≠ some (.link target) := by
  intro hl
  obtain ⟨-, -, -, hleads⟩ := locate_eq_ok_iff_leads.mp h
  have hsegments := Path.segments_ne_nil p
  have hbegin := hleads.prefix_of_link hending hl hsegments
  have hdir := ht.directory_of_prefix (hleads.directory_of_ne_nil hsegments) hbegin
  rw [hl] at hdir
  cases hdir

/-- A tree after files were written at some of the paths. What else is new are directories. -/
structure Writes (paths : List Path) (t u : FileTree) : Prop extends Grows t u where
  only : ∀ l n, u.get? l = some n →
    t.get? l = some n ∨ n = .directory ∨ ∃ path ∈ paths, u.find path = .ok (l, n)

variable {paths : List Path}

theorem Writes.refl (h : t.Proper) : Writes paths t t :=
  ⟨.refl h, fun _ _ hl => .inl hl⟩

theorem Writes.mono (h : Writes paths t u) {more : List Path} (hmore : paths ⊆ more) :
    Writes more t u := by
  refine ⟨h.toGrows, fun l n hl => ?_⟩
  rcases h.only l n hl with hold | hdir | ⟨path, hpath, hfind⟩
  · exact .inl hold
  · exact .inr (.inl hdir)
  · exact .inr (.inr ⟨path, hmore hpath, hfind⟩)

theorem Writes.trans (h : Writes paths t u) (h' : Writes paths u v) :
    Writes paths t v := by
  refine ⟨h.toGrows.trans h'.toGrows, fun l n hl => ?_⟩
  rcases h'.only l n hl with hold | hdir | hfound
  · rcases h.only l n hold with hold | hdir | ⟨path, hpath, hfind⟩
    · exact .inl hold
    · exact .inr (.inl hdir)
    · cases n with
      | file content =>
        obtain ⟨other, hother⟩ := h'.find_file hfind
        have hsame := (find_eq_ok_iff.mp hother).2
        rw [hl] at hsame
        rw [← Option.some.inj hsame] at hother
        exact .inr (.inr ⟨path, hpath, hother⟩)
      | directory => exact .inr (.inl rfl)
      | link target =>
        have hlocate := (find_eq_ok_iff.mp hfind).1
        exact absurd hold (not_link_of_locate h.proper (by simp) hlocate target)
  · exact .inr (.inl hdir)
  · exact .inr (.inr hfound)

/-- Nothing is changed at a place, except that a directory may be where nothing was. -/
def Untouched (t u : FileTree) (l : Location) : Prop :=
  u.get? l = t.get? l ∨ (t.get? l = none ∧ u.get? l = some .directory)

theorem Untouched.file_iff {l : Location} {content : Content} (h : Untouched t u l) :
    u.get? l = some (.file content) ↔ t.get? l = some (.file content) := by
  rcases h with heq | ⟨hnone, hdir⟩
  · rw [heq]
  · simp [hnone, hdir]

theorem Writes.untouched {l : Location} (h : Writes paths t u)
    (hl : ∀ path ∈ paths, ∀ n, u.find path ≠ .ok (l, n)) : Untouched t u l := by
  cases hn : u.get? l with
  | none =>
    by_contra hnot
    have hsome : t.get? l ≠ none := fun hnone => hnot (.inl (hn.trans hnone.symm))
    exact h.get?_ne_none hsome hn
  | some n =>
    rcases h.only l n hn with hold | rfl | ⟨path, hpath, hfind⟩
    · exact .inl (hn.trans hold.symm)
    · cases hm : t.get? l with
      | none => exact .inr ⟨hm, hn⟩
      | some m =>
        cases m with
        | file content =>
          obtain ⟨other, hother⟩ := h.file l content hm
          rw [hn] at hother
          cases hother
        | directory => exact .inl (hn.trans hm.symm)
        | link target =>
          have hlink := h.link l target hm
          rw [hn] at hlink
          cases hlink
    · exact absurd hfind (hl path hpath n)

theorem Untouched.find_file {l : Location} {content : Content} (h : Untouched t u l)
    (hkeeps : t.Keeps u) {p : Path} (hfind : t.find p = .ok (l, .file content)) :
    u.find p = .ok (l, .file content) := by
  obtain ⟨hlocate, hl⟩ := find_eq_ok_iff.mp hfind
  exact find_eq_ok_iff.mpr ⟨hkeeps.locate hlocate (by simp [hl]), h.file_iff.mpr hl⟩

theorem writes_write (ht : t.Proper) {p : Path} {content : Content}
    (h : t.write p content = .ok u) : Writes [p] t u := by
  obtain ⟨l, hlocate, rfl, hfind⟩ := find_of_write h
  obtain ⟨k, hk, hl, -⟩ := write_eq_ok_iff.mp h
  obtain rfl := Except.ok.inj (hlocate.symm.trans hk)
  have hgrows : t.Grows (t.set l (.file content)) := by
    cases hn : t.get? l with
    | none =>
      obtain ⟨hname, hparent⟩ := new_entry_of_locate ht hlocate hn
      exact grows_set ht hname hparent (.inl hn)
    | some n =>
      cases n with
      | file old =>
        exact grows_set ht (ht.isName_of_get? hn) (ht.parent_of_get? hn)
          (.inr ⟨⟨old, hn⟩, content, rfl⟩)
      | directory => exact absurd hn hl
      | link target => exact absurd hn (not_link_of_locate ht (by simp) hlocate target)
  refine ⟨hgrows, fun m n hm => ?_⟩
  rw [get?_set (ne_nil_of_not_directory hl)] at hm
  split at hm
  · rename_i heq
    obtain rfl := Option.some.inj hm
    exact .inr (.inr ⟨p, List.mem_singleton_self p, heq ▸ hfind⟩)
  · exact .inl hm

theorem writes_createDirectory (ht : t.Proper) {p : Path} (h : t.createDirectory p = .ok u) :
    Writes paths t u := by
  rw [createDirectory, bind_eq_ok_iff] at h
  obtain ⟨l, hlocate, hl⟩ := h
  split at hl
  · cases hl
  · rename_i hnone
    obtain rfl := Except.ok.inj hl
    obtain ⟨hname, hparent⟩ := new_entry_of_locate ht hlocate hnone
    have hroot : l ≠ [] := by
      rintro rfl
      rw [get?_nil] at hnone
      cases hnone
    refine ⟨grows_set ht hname hparent (.inl hnone), fun m n hm => ?_⟩
    rw [get?_set hroot] at hm
    split at hm
    · exact .inr (.inl (Option.some.inj hm).symm)
    · exact .inl hm

theorem writes_go (ht : t.Proper) (p : Path) (n : Nat) :
    Writes paths t (createDirectories.go t p n).1 := by
  induction n generalizing t p with
  | zero => exact .refl ht
  | succ n ih =>
    rw [createDirectories.go]
    split
    · rename_i hcreate
      exact writes_createDirectory ht hcreate
    · exact .refl ht
    · rename_i parent _ _
      have hparent := ih ht parent
      split
      · rename_i hgo
        rw [hgo] at hparent
        exact hparent
      · rename_i hgo
        rw [hgo] at hparent
        split
        · rename_i hcreate
          exact hparent.trans (writes_createDirectory hparent.proper hcreate)
        · exact hparent
    · exact .refl ht

theorem writes_createParent (ht : t.Proper) {p : Path} {result : Except (Path × FileError) Unit}
    (h : t.createParent p = (u, result)) : Writes paths t u := by
  unfold createParent at h
  split at h
  · obtain ⟨rfl, -⟩ := Prod.mk.inj h
    exact .refl ht
  · rename_i parent _
    split at h
    · obtain ⟨rfl, -⟩ := Prod.mk.inj h
      exact .refl ht
    · have hparent : Writes paths t (t.createDirectories parent).1 := writes_go ht parent _
      split at h
      · rename_i hcreate
        obtain ⟨rfl, -⟩ := Prod.mk.inj h
        rw [hcreate] at hparent
        exact hparent
      · rename_i hcreate
        obtain ⟨rfl, -⟩ := Prod.mk.inj h
        rw [hcreate] at hparent
        exact hparent

def Puts (t : FileTree) (p : Path) (content : Content) (u : FileTree) : Prop :=
  ∃ v, t.createParent p = (v, .ok ()) ∧ v.write p content = .ok u

theorem Puts.writes {p : Path} {content : Content} (h : t.Puts p content u) (ht : t.Proper) :
    Writes [p] t u := by
  obtain ⟨v, hcreate, hwrite⟩ := h
  have hparent : Writes [p] t v := writes_createParent ht hcreate
  exact hparent.trans (writes_write hparent.proper hwrite)

theorem Puts.find {p : Path} {content : Content} (h : t.Puts p content u) :
    ∃ l, u.find p = .ok (l, .file content) := by
  obtain ⟨v, -, hwrite⟩ := h
  obtain ⟨l, -, -, hfind⟩ := find_of_write hwrite
  exact ⟨l, hfind⟩

theorem puts_iff_of_find {p : Path} {content : Content} {l : Location} {n : Node}
    (h : t.find p = .ok (l, n)) : t.Puts p content u ↔ t.write p content = .ok u := by
  unfold Puts
  rw [createParent_of_find h]
  constructor
  · rintro ⟨v, hv, hwrite⟩
    obtain ⟨rfl, -⟩ := Prod.mk.inj hv
    exact hwrite
  · intro hwrite
    exact ⟨t, rfl, hwrite⟩

end StaticSite.FileTree
