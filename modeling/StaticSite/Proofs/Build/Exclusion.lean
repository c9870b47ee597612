import Mathlib
import StaticSite.Proofs.Build.Pages

/-!
Which pages a build leaves out. It compares spellings, so that it leaves out a directory if that is
spelled as the source directory is, and can miss one that is spelled in another way.
-/

namespace StaticSite.Path

def Inside (here : Location) (path dir : Path) : Prop :=
  dir.location here <+: path.location here

instance (here : Location) (path dir : Path) : Decidable (Inside here path dir) :=
  inferInstanceAs (Decidable (_ <+: _))

def SpelledFrom (source dir : Path) : Prop :=
  ∃ names : Location, (∀ name ∈ names, IsName name) ∧
    dir.components <+: source.components ++ names.map .normal

def Apart (here : Location) (source dir : Path) : Prop :=
  ¬ Inside here source dir ∧ ¬ Inside here dir source

/-- The spelling of a directory tells what in the source directory lies in it. -/
def Told (here : Location) (source dir : Path) : Prop :=
  SpelledFrom source dir ∨ Apart here source dir

variable {here : Location} {source dir file : Path}

theorem SpelledFrom.startsWith {names : Location} (h : SpelledFrom source dir)
    (hfile : file.components = source.components ++ names.map .normal)
    (hinside : Inside here file dir) : file.startsWith dir = true := by
  obtain ⟨others, -, hbegin⟩ := h
  rw [Path.startsWith, List.isPrefixOf_iff_prefix, hfile]
  rcases List.prefix_or_prefix_of_prefix hbegin (List.prefix_append _ _) with hdir | ⟨rest, hdir⟩
  · exact hdir.trans (List.prefix_append _ _)
  · rw [← hdir, List.prefix_append_right_inj] at hbegin
    obtain ⟨front, -, rfl⟩ := List.prefix_map_iff.mp hbegin
    unfold Inside at hinside
    rw [location_of_components here hdir.symm, location_of_components here hfile,
      List.prefix_append_right_inj] at hinside
    rw [← hdir, List.prefix_append_right_inj]
    exact hinside.map _

theorem Apart.not_inside {names : Location} (h : Apart here source dir)
    (hfile : file.components = source.components ++ names.map .normal) : ¬ Inside here file dir := by
  intro hinside
  unfold Inside at hinside
  rw [location_of_components here hfile] at hinside
  rcases List.prefix_or_prefix_of_prefix hinside (List.prefix_append _ names) with hdir | hdir
  · exact h.1 hdir
  · exact h.2 hdir

theorem spelledFrom_of_startsWith {names : Location} (hnames : ∀ name ∈ names, IsName name)
    (hfile : file.components = source.components ++ names.map .normal)
    (h : file.startsWith dir = true) : SpelledFrom source dir := by
  rw [Path.startsWith, List.isPrefixOf_iff_prefix, hfile] at h
  exact ⟨names, hnames, h⟩

theorem told_ofLocation (here : Location) {l m : Location} (hl : ∀ name ∈ l, IsName name)
    (hm : ∀ name ∈ m, IsName name) : Told here (ofLocation l) (ofLocation m) := by
  by_cases hbelow : l <+: m
  · left
    obtain ⟨names, rfl⟩ := hbelow
    refine ⟨names, fun name hname => hm name (List.mem_append_right _ hname), ?_⟩
    rw [components_ofLocation hl, components_ofLocation hm, List.map_append]
    exact List.prefix_refl _
  · by_cases habove : m <+: l
    · left
      refine ⟨[], by simp, ?_⟩
      rw [components_ofLocation hl, components_ofLocation hm, List.map_nil, List.append_nil,
        List.prefix_cons_inj]
      exact habove.map _
    · right
      unfold Apart Inside
      rw [location_ofLocation here hl, location_ofLocation here hm]
      exact ⟨habove, hbelow⟩

end StaticSite.Path

namespace StaticSite.Build
open StaticSite.FileTree StaticSite.Page StaticSite.Path

variable {p : Plan} {t u : FileTree}

theorem not_inside_iff {here : Location} {source dir other : Path} (ht : t.Proper) :
    (∀ file page, PageFile t source file page → file.startsWith other = false →
        file.startsWith dir = false → ¬ Inside here file dir) ↔
      Told here source dir ∨
        ∀ file page, PageFile t source file page → Inside here file dir →
          file.startsWith other = true := by
  constructor
  · intro h
    by_cases htold : Told here source dir
    · exact .inl htold
    · refine .inr fun file page hfile hinside => ?_
      obtain ⟨names, -, hnames, -, hcomponents, -⟩ := hfile.names ht
      by_contra hother
      refine h file page hfile (Bool.eq_false_iff.mpr hother) (Bool.eq_false_iff.mpr ?_) hinside
      intro hstarts
      exact htold (.inl (spelledFrom_of_startsWith hnames hcomponents hstarts))
  · rintro htold file page hfile hother hdir hinside
    obtain ⟨names, -, -, -, hcomponents, -⟩ := hfile.names ht
    rcases htold with (hspelled | hapart) | hfound
    · rw [hspelled.startsWith hcomponents hinside] at hdir
      cases hdir
    · exact hapart.not_inside hcomponents hinside
    · rw [hfound file page hfile hinside] at hother
      cases hother

theorem location_componentsRoot {here : Location} (hhere : ∀ name ∈ here, IsName name)
    {source : Path} (hsource : source.chars ≠ []) (componentsDir : List Char) :
    ((source.normalize here).join ⟨componentsDir⟩).location here =
      (source.join ⟨componentsDir⟩).location here := by
  cases habsolute : (Path.mk componentsDir).isAbsolute with
  | true => rw [join, join, habsolute, if_pos rfl, if_pos rfl]
  | false =>
    have hnames := isName_of_mem_location hhere source
    have hnormal : source.normalize here = ofLocation (source.location here) := if_neg hsource
    have hne : (ofLocation (source.location here)).chars ≠ [] := List.cons_ne_nil _ _
    rw [hnormal, location_join here hne habsolute, location_join here hsource habsolute,
      location_ofLocation here hnames]

/-- The pages that a build reports keep out of the output and of the components if and only if the
spelling of either directory tells what lies in it, save for files that the other one leaves out. -/
theorem pages_outside_iff {report : Report} (ht : t.Proper)
    (hhere : ∀ name ∈ t.here, IsName name) (h : build t p = (u, .ok report)) :
    (∀ page ∈ report.pages, ¬ Inside t.here (p.sourceDir.join page) p.outDir ∧
        ∀ root ∈ (p.resolver t).componentsRoot, ¬ Inside t.here (p.sourceDir.join page) root) ↔
      (Told t.here p.sourceDir p.outDir ∨
        ∀ file page, PageFile (p.compiler.compile t).1 p.sourceDir file page →
          Inside t.here file p.outDir → file.startsWith p.componentsRoot = true) ∧
      (Told t.here p.sourceDir p.componentsRoot ∨
        ∀ file page, PageFile (p.compiler.compile t).1 p.sourceDir file page →
          Inside t.here file p.componentsRoot → file.startsWith p.outDir = true) := by
  obtain ⟨-, v, sprite, diagnostics, hcompile, -, rfl⟩ := build_eq_ok_iff.mp h
  have hv : v.Proper := (Sprite.Compiler.grows_compile ht hcompile).proper
  rw [hcompile, ← not_inside_iff hv, ← not_inside_iff hv]
  have hinside {file page : Path} (hfile : PageFile v p.sourceDir file page) (dir : Path) :
      Inside t.here (p.sourceDir.join page) dir ↔ Inside t.here file dir := by
    obtain ⟨names, -, -, -, -, hjoin⟩ := hfile.names hv
    unfold Inside location
    rw [hjoin]
  have hroot {file page : Path} (hfile : PageFile v p.sourceDir file page) :
      (∀ root ∈ (p.resolver t).componentsRoot, ¬ Inside t.here (p.sourceDir.join page) root) ↔
        ¬ Inside t.here file p.componentsRoot := by
    obtain ⟨hsource, -⟩ := hv.names_of_mem_below hfile.mem_below hfile.relativeTo?
    change (∀ root ∈ some ((p.sourceDir.normalize t.here).join ⟨p.componentsDir⟩), _) ↔ _
    simp only [Option.mem_def, Option.some.injEq, forall_eq', hinside hfile]
    unfold Inside
    rw [location_componentsRoot hhere hsource]
    rfl
  constructor
  · intro hout
    constructor
    · intro file page hfile hcomponents hdir
      have hpage := hout page (mem_findPages_iff.mpr ⟨file, hfile, hcomponents, hdir⟩)
      exact (hinside hfile _).not.mp hpage.1
    · intro file page hfile hdir hcomponents
      have hpage := hout page (mem_findPages_iff.mpr ⟨file, hfile, hcomponents, hdir⟩)
      exact (hroot hfile).mp hpage.2
  · rintro ⟨hout, hcomponents⟩ page hpage
    obtain ⟨file, hfile, hstarts, hdir⟩ := mem_findPages_iff.mp hpage
    exact ⟨(hinside hfile _).not.mpr (hout file page hfile hstarts hdir),
      (hroot hfile).mpr (hcomponents file page hfile hdir hstarts)⟩

def rebuilt : FileTree :=
  ⟨[(["work".toList], .directory), (["work".toList, "src".toList], .directory),
    (["work".toList, "src".toList, "index.html".toList], .file (.text "new".toList)),
    (["work".toList, "src".toList, "dist".toList], .directory),
    (["work".toList, "src".toList, "dist".toList, "old.html".toList], .file (.text "old".toList))],
    ["work".toList]⟩

def rebuiltInto (outDir : String) : Plan :=
  ⟨.ofString "/work/src", "components".toList, .ofString outDir, .ofString "/work/src/icons",
    "/sprite.svg".toList, []⟩

theorem proper_rebuilt : rebuilt.Proper := by
  constructor
  · decide
  · decide
  · decide
  · decide

theorem build_rebuilt : ∃ u report,
    build rebuilt (rebuiltInto "/work/src/dist") = (u, .ok report) ∧
      report.pages = [.ofString "index.html"] := by
  obtain ⟨u, hpages⟩ : ∃ u, buildPages (rebuiltInto "/work/src/dist") rebuilt
      [.ofString "index.html"] = (u, .ok []) := by
    refine ⟨_, @buildPages_cons_of_notMem _ _ _ _ _ "new".toList _ _ ?_ (by decide)
      (Prod.ext rfl ?_) rfl⟩
    · cbv
    · cbv
  exact ⟨u, _, build_of_findPages (by cbv) (by cbv) (by cbv) hpages, rfl⟩

theorem build_rebuilt_relative : ∃ u report,
    build rebuilt (rebuiltInto "src/dist") = (u, .ok report) ∧
      report.pages = [.ofString "dist/old.html", .ofString "index.html"] := by
  obtain ⟨u, hpages⟩ : ∃ u, buildPages (rebuiltInto "src/dist") rebuilt
      [.ofString "dist/old.html", .ofString "index.html"] = (u, .ok []) := by
    refine ⟨_, @buildPages_cons_of_notMem _ _ _ _ _ "old".toList _ _ ?_ (by decide)
      (Prod.ext rfl ?_) (@buildPages_cons_of_notMem _ _ _ _ _ "new".toList _ _ ?_ (by decide)
        (Prod.ext rfl ?_) rfl)⟩
    · cbv
    · cbv
    · cbv
    · cbv
  exact ⟨u, _, build_of_findPages (by cbv) (by cbv) (by cbv) hpages, rfl⟩

theorem pages_outside_rebuilt :
    rebuilt.Proper ∧ (∀ name ∈ rebuilt.here, IsName name) ∧
      ∃ u report, build rebuilt (rebuiltInto "/work/src/dist") = (u, .ok report) ∧
        report.pages = [.ofString "index.html"] ∧
        ∀ page ∈ report.pages,
          ¬ Inside rebuilt.here ((rebuiltInto "/work/src/dist").sourceDir.join page)
              (rebuiltInto "/work/src/dist").outDir ∧
            ∀ root ∈ ((rebuiltInto "/work/src/dist").resolver rebuilt).componentsRoot,
              ¬ Inside rebuilt.here ((rebuiltInto "/work/src/dist").sourceDir.join page) root := by
  have hhere : ∀ name ∈ rebuilt.here, IsName name := by decide
  obtain ⟨u, report, hbuild, hpages⟩ := build_rebuilt
  refine ⟨proper_rebuilt, hhere, u, report, hbuild, hpages, ?_⟩
  apply (pages_outside_iff proper_rebuilt hhere hbuild).mpr
  constructor
  · exact .inl (@told_ofLocation _ ["work".toList, "src".toList]
      ["work".toList, "src".toList, "dist".toList] (by decide) (by decide))
  · exact .inl (@told_ofLocation _ ["work".toList, "src".toList]
      ["work".toList, "src".toList, "components".toList] (by decide) (by decide))

theorem page_inside_outDir :
    ∃ u report, build rebuilt (rebuiltInto "src/dist") = (u, .ok report) ∧
      ∃ page ∈ report.pages, Inside rebuilt.here ((rebuiltInto "src/dist").sourceDir.join page)
        (rebuiltInto "src/dist").outDir := by
  obtain ⟨u, report, hbuild, hpages⟩ := build_rebuilt_relative
  refine ⟨u, report, hbuild, .ofString "dist/old.html", ?_, by decide⟩
  rw [hpages]
  exact List.mem_cons_self ..

end StaticSite.Build
