import Mathlib
import StaticSite.LiveReload.Scope
import StaticSite.Proofs.FileTree.Unlinked
import StaticSite.Proofs.Sprite.Scan

namespace StaticSite.LiveReload
open StaticSite.Text StaticSite.Sprite StaticSite.FileTree StaticSite.Path

variable {t : FileTree} {dir : Path}

namespace Scope

theorem components_canonical (ht : t.Unlinked) (habsolute : dir.isAbsolute = true)
    (hparent : .parent ∉ dir.components) : (canonical t dir).components = dir.components := by
  rw [canonical, canonical?]
  cases hfind : t.find dir with
  | error e => rfl
  | ok found =>
    obtain ⟨l, n⟩ := found
    obtain ⟨names, hnames, hcomponents⟩ := exists_names_of_isAbsolute habsolute hparent
    rw [ht.location_of_find hfind, location_of_isName t.here hnames hcomponents]
    exact (components_ofLocation hnames).trans hcomponents.symm

theorem isDirectory_canonical (ht : t.Unlinked) (habsolute : dir.isAbsolute = true)
    (hparent : .parent ∉ dir.components) (hdir : t.isDirectory dir = true) :
    t.isDirectory (canonical t dir) = true := by
  obtain ⟨l, hfind⟩ := isDirectory_iff.mp hdir
  obtain ⟨names, hnames, hcomponents⟩ := exists_names_of_isAbsolute habsolute hparent
  have hsame := components_canonical ht habsolute hparent
  have hcanonical : canonical t dir = .ofLocation l := by
    rw [canonical, canonical?, hfind]
    rfl
  have hl : l = names := by
    rw [ht.location_of_find hfind, location_of_isName t.here hnames hcomponents]
  have hlong : byteCount (canonical t dir).chars ≤ maxPath := by
    rw [hcanonical, hl]
    exact (byteCount_mono (sublist_ofLocation habsolute hcomponents)).trans
      (byteCount_le_of_isDirectory hdir)
  exact isDirectory_iff.mpr ⟨l, find_of_components hfind hsame (fun _ _ _ => rfl) hlong⟩

end Scope

def LiesUnder (here : Location) (path root : Path) : Prop :=
  path.startsWith root = true ∧
    (.parent ∉ path.components → root.location here <+: path.location here)

theorem liesUnder_of_startsWith {path root : Path} (here : Location) (hroot : root.chars ≠ [])
    (h : path.startsWith root = true) : LiesUnder here path root := by
  refine ⟨h, ?_⟩
  intro hparent
  obtain ⟨rest, hrest⟩ := startsWith_iff.mp h
  obtain ⟨names, -, rfl⟩ := exists_names hrest (components_ne_nil hroot) hparent
  rw [location_of_components here hrest]
  exact List.prefix_append _ _

namespace Scope

theorem startsWith_of_classify {s : Scope} {path : Path} (h : s.classify path ≠ none) :
    path.startsWith s.sourceDir = true ∨ path.startsWith s.iconsDir = true := by
  unfold classify at h
  split at h
  · rename_i hicon
    exact .inr (Bool.and_eq_true_iff.mp hicon).2
  · cases hrelative : path.relativeTo? s.sourceDir with
    | none =>
      rw [hrelative] at h
      exact absurd rfl h
    | some r => exact .inl (startsWith_of_relativeTo? hrelative)

theorem exists_root {s : Scope} {path : Path} (hicons : t.isDirectory s.iconsDir = true)
    (h : path.startsWith s.sourceDir = true ∨ path.startsWith s.iconsDir = true) :
    ∃ root ∈ s.roots t, path.startsWith root = true := by
  unfold roots
  rcases h with hsource | hicon
  · exact ⟨s.sourceDir, by split <;> simp, hsource⟩
  · by_cases hnested : s.iconsDir.startsWith s.sourceDir = true
    · exact ⟨s.sourceDir, by simp [hnested], startsWith_trans hicon hnested⟩
    · exact ⟨s.iconsDir, by simp [hicons, hnested], hicon⟩

theorem mem_roots {s : Scope} {root : Path} (h : root ∈ s.roots t) :
    root = s.sourceDir ∨ root = s.iconsDir := by
  unfold roots at h
  split at h
  · simpa using h
  · exact .inl (List.mem_singleton.mp h)

theorem chars_ne_nil (ht : t.Unlinked) (habsolute : dir.isAbsolute = true)
    (hparent : .parent ∉ dir.components) : (canonical t dir).chars ≠ [] := by
  intro hnil
  have hempty : canonical t dir = ⟨[]⟩ := by rw [← hnil]
  have hcomponents := components_canonical ht habsolute hparent
  obtain ⟨names, -, hnames⟩ := exists_names_of_isAbsolute habsolute hparent
  rw [hempty, hnames] at hcomponents
  cases hcomponents

/-- Every icon of the icons directory is told from other files by its path, and whatever is told so,
or by a pattern, lies under a directory that is watched. -/
theorem watched_of_classify (ht : t.Proper) (hlinks : t.Unlinked) {source icons : Path}
    (hsource : source.isAbsolute = true) (hsourceParent : .parent ∉ source.components)
    (hicons : icons.isAbsolute = true) (hiconsParent : .parent ∉ icons.components)
    (hdir : t.isDirectory icons = true) (patterns : List (List Char)) :
    let s := ofDirectories t source icons patterns
    (∀ icon ∈ Icon.scan t icons, s.classify icon.path = some .icon ∧
        .parent ∉ icon.path.components ∧ ∃ root ∈ s.roots t, LiesUnder t.here icon.path root) ∧
      ∀ path, s.classify path ≠ none → ∃ root ∈ s.roots t, LiesUnder t.here path root := by
  intro s
  have hunder : ∀ path, s.classify path ≠ none → ∃ root ∈ s.roots t, LiesUnder t.here path root := by
    intro path hpath
    have hiconsDir : t.isDirectory s.iconsDir = true :=
      isDirectory_canonical hlinks hicons hiconsParent hdir
    obtain ⟨root, hroot, hstarts⟩ := exists_root hiconsDir (startsWith_of_classify hpath)
    refine ⟨root, hroot, liesUnder_of_startsWith t.here ?_ hstarts⟩
    rcases mem_roots hroot with rfl | rfl
    · exact chars_ne_nil hlinks hsource hsourceParent
    · exact chars_ne_nil hlinks hicons hiconsParent
  refine ⟨?_, hunder⟩
  intro icon hicon
  obtain ⟨p, hp, hofPath⟩ := Icon.mem_scan_iff.mp hicon
  obtain ⟨hbelow, hextension, -⟩ := Icon.mem_files_iff.mp hp
  obtain ⟨rfl, hrelative⟩ := Icon.path_of_ofPath? hofPath
  have hcomponents : s.iconsDir.components = icons.components :=
    components_canonical hlinks hicons hiconsParent
  have hstarts : icon.path.startsWith s.iconsDir = true := by
    rw [startsWith, hcomponents]
    exact startsWith_of_relativeTo? hrelative
  have hclass : s.classify icon.path = some .icon := by
    rw [classify, if_pos (by rw [hextension, hstarts]; rfl)]
  refine ⟨hclass, ?_, hunder _ (by rw [hclass]; simp)⟩
  obtain ⟨-, names, -, -, -, hnames⟩ := ht.names_of_mem_below hbelow hrelative
  rw [hnames, List.mem_append, not_or]
  exact ⟨hiconsParent, by simp⟩

def separate : FileTree :=
  ⟨[(["site".toList], .directory), (["site".toList, "src".toList], .directory),
    (["site".toList, "src".toList, "index.html".toList], .file (.text [])),
    (["site".toList, "icons".toList], .directory),
    (["site".toList, "icons".toList, "Star.SVG".toList], .file (.text []))], ["work".toList]⟩

theorem watched_separate :
    separate.Proper ∧ separate.Unlinked ∧ separate.isDirectory (.ofString "/site//icons") = true ∧
      let s := ofDirectories separate (.ofString "/site/src") (.ofString "/site//icons")
        defaultPatterns
      s.roots separate = [.ofString "/site/src", .ofString "/site/icons"] ∧
        (∀ icon ∈ Icon.scan separate (.ofString "/site//icons"),
          s.classify icon.path = some .icon ∧ .parent ∉ icon.path.components ∧
            ∃ root ∈ s.roots separate, LiesUnder separate.here icon.path root) ∧
          ∃ root ∈ s.roots separate,
            LiesUnder separate.here (.ofString "/site/src/index.html") root := by
  have hproper : separate.Proper := by
    constructor
    · decide
    · decide
    · decide
    · decide
  have hunlinked : separate.Unlinked := by
    apply unlinked_of_nodes
    simp [separate]
  have hdir : separate.isDirectory (.ofString "/site//icons") = true := by cbv
  have hsource : (Path.ofString "/site/src").isAbsolute = true ∧
      .parent ∉ (Path.ofString "/site/src").components := by decide
  have hicons : (Path.ofString "/site//icons").isAbsolute = true ∧
      .parent ∉ (Path.ofString "/site//icons").components := by decide
  obtain ⟨hscan, hpath⟩ := watched_of_classify hproper hunlinked hsource.1 hsource.2 hicons.1
    hicons.2 hdir defaultPatterns
  have hpage : (ofDirectories separate (.ofString "/site/src") (.ofString "/site//icons")
      defaultPatterns).classify (.ofString "/site/src/index.html") =
        some (.page "/index.html".toList) := by cbv
  exact ⟨hproper, hunlinked, hdir, by cbv, hscan, hpath _ (by rw [hpage]; simp)⟩

end Scope

end StaticSite.LiveReload
