import StaticSite.Proofs.FileTree.Kept

namespace StaticSite.FileTree

structure SameWays (t u : FileTree) : Prop where
  here : u.here = t.here
  directory : ∀ l, t.get? l = some .directory ↔ u.get? l = some .directory
  link : ∀ l target, t.get? l = some (.link target) ↔ u.get? l = some (.link target)

structure Within (t u : FileTree) : Prop extends SameWays t u where
  file : ∀ l content, t.get? l = some (.file content) → ∃ other, u.get? l = some (.file other)

variable {t u v : FileTree}

theorem SameWays.refl (t : FileTree) : t.SameWays t := by
  constructor
  · rfl
  · intro l
    exact Iff.rfl
  · intro l target
    exact Iff.rfl

theorem SameWays.symm (h : t.SameWays u) : u.SameWays t := by
  constructor
  · exact h.here.symm
  · intro l
    exact (h.directory l).symm
  · intro l target
    exact (h.link l target).symm

theorem SameWays.trans (h : t.SameWays u) (h' : u.SameWays v) : t.SameWays v := by
  constructor
  · exact h'.here.trans h.here
  · intro l
    exact (h.directory l).trans (h'.directory l)
  · intro l target
    exact (h.link l target).trans (h'.link l target)

theorem SameWays.file (h : t.SameWays u) {l : Location}
    (hl : ∀ n, t.get? l = some n → ∃ content, n = .file content) :
    ∀ n, u.get? l = some n → ∃ content, n = .file content := by
  intro n hn
  cases n with
  | file content => exact ⟨content, rfl⟩
  | directory => exact hl _ ((h.directory l).mpr hn)
  | link target => exact hl _ ((h.link l target).mpr hn)

theorem sameWays_of_get? {l : Location} (hhere : u.here = t.here)
    (hother : ∀ k, k ≠ l → u.get? k = t.get? k)
    (ht : ∀ n, t.get? l = some n → ∃ content, n = .file content)
    (hu : ∀ n, u.get? l = some n → ∃ content, n = .file content) : t.SameWays u := by
  constructor
  · exact hhere
  · intro k
    by_cases hk : k = l
    · subst hk
      constructor
      · intro hdir
        obtain ⟨content, hcontent⟩ := ht _ hdir
        cases hcontent
      · intro hdir
        obtain ⟨content, hcontent⟩ := hu _ hdir
        cases hcontent
    · rw [hother k hk]
  · intro k target
    by_cases hk : k = l
    · subst hk
      constructor
      · intro hlink
        obtain ⟨content, hcontent⟩ := ht _ hlink
        cases hcontent
      · intro hlink
        obtain ⟨content, hcontent⟩ := hu _ hlink
        cases hcontent
    · rw [hother k hk]

theorem within_of_get? (hhere : u.here = t.here) (h : ∀ l, u.get? l = t.get? l) : t.Within u := by
  refine ⟨⟨hhere, ?_, ?_⟩, ?_⟩
  · intro l
    rw [h]
  · intro l target
    rw [h]
  · intro l content hl
    exact ⟨content, (h l).trans hl⟩

theorem Within.keeps (h : t.Within u) : t.Keeps u :=
  ⟨h.here, fun l => (h.directory l).mp, fun l target => (h.link l target).mp, h.file⟩

theorem Leads.sameWays {ending : Ending} {links : Nat} {l m : Location} {segments : List (List Char)}
    (hleads : t.Leads ending links l segments m) (h : t.SameWays u) :
    u.Leads ending links l segments m := by
  induction hleads with
  | done => exact .done
  | silent hdir hsilent _ ih => exact .silent ((h.directory _).mp hdir) hsilent ih
  | parent hdir _ ih => exact .parent ((h.directory _).mp hdir) ih
  | name hdir henter hnot _ ih =>
    apply Leads.name ((h.directory _).mp hdir) henter _ ih
    intro target htarget
    exact hnot target ((h.link _ target).mpr htarget)
  | itself hdir henter hlink hitself =>
    exact .itself ((h.directory _).mp hdir) henter ((h.link _ _).mp hlink) hitself
  | link hdir henter hlink hmore _ ih =>
    exact .link ((h.directory _).mp hdir) henter ((h.link _ _).mp hlink) hmore ih

theorem SameWays.locate (h : t.SameWays u) {ending : Ending} {p : Path} {l : Location}
    (hl : t.locate ending p = .ok l) : u.locate ending p = .ok l := by
  obtain ⟨hnul, hne, hlong, hleads⟩ := locate_eq_ok_iff_leads.mp hl
  have hstart : u.start p = t.start p := by rw [start, start, h.here]
  apply locate_eq_ok_iff_leads.mpr
  rw [hstart]
  exact ⟨hnul, hne, hlong, hleads.sameWays h⟩

end StaticSite.FileTree
