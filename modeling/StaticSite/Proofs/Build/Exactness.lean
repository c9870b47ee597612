import Mathlib
import StaticSite.Proofs.Build.Coverage
import StaticSite.Proofs.FileTree.Outside
import StaticSite.Proofs.Page.Partial

/-!
A build writes each page once, as the page expands in the tree that was there before the build. The
sprite and the pages are written while sources are still read, but into a directory that nothing is
read from, so that every tree on the way has the same sources.
-/

namespace StaticSite.Build
open StaticSite.FileTree StaticSite.Page StaticSite.Path Relation

variable {p : Plan} {t u v w : FileTree} {source out names : Location}

/-- Names that are spelled as those of a page in the source directory: the last one has the ending of
a page, and they lead neither among the components, as those are spelled, nor into the output. -/
structure PageNames (p : Plan) (source out names : Location) : Prop where
  ne_nil : names ≠ []
  isName : ∀ name ∈ names, IsName name
  ending : ∃ stem, names.getLast? = some (stem ++ ".html".toList)
  component : (p.sourceDir.join ⟨joinSlash names⟩).startsWith p.componentsRoot = false
  output : ¬ out <+: source ++ names

def PagePath (p : Plan) (source out : Location) (page : Path) : Prop :=
  ∃ names, PageNames p source out names ∧ page = ⟨joinSlash names⟩

structure IsPage (t : FileTree) (p : Plan) (source out names : Location) : Prop
    extends PageNames p source out names where
  isFile : t.isFile (p.sourceDir.join ⟨joinSlash names⟩) = true

def expansionOf (t : FileTree) (p : Plan) (page : Path) : Expansion :=
  (expandFile t (p.resolver t) (p.sourceDir.join page)).toOption.getD ⟨[], []⟩

/-- Source and output directory are given by their places. The sprite is written into the output, and
no page has an import that leads there, directly or through other files. -/
structure Separated (t : FileTree) (p : Plan) (source out : Location) : Prop where
  proper : t.Proper
  unlinked : t.Unlinked
  here : ∀ name ∈ t.here, IsName name
  isName_source : ∀ name ∈ source, IsName name
  isName_out : ∀ name ∈ out, IsName name
  sourceDir : p.sourceDir = ofLocation source
  outDir : p.outDir = ofLocation out
  sprite : out <+: p.spriteOutput.location t.here
  imports : ∀ names, IsPage t p source out names → ∀ g,
    TransGen (Imports t (p.resolver t)) (p.sourceDir.join ⟨joinSlash names⟩) g →
      ¬ out <+: g.location t.here

theorem resolver_here (t : FileTree) (p : Plan) : (p.resolver t).here = t.here := rfl

theorem hasPageName_join_iff {dir : Path} (hdir : dir.chars ≠ []) (hne : names ≠ [])
    (hnames : ∀ name ∈ names, IsName name) :
    hasPageName (dir.join ⟨joinSlash names⟩) = true ↔
      ∃ stem, names.getLast? = some (stem ++ ".html".toList) := by
  obtain ⟨name, hlast⟩ := Option.ne_none_iff_exists'.mp (List.getLast?_eq_none_iff.not.mpr hne)
  rw [hasPageName, fileName?_of_components (components_join_names hdir hnames) hlast, hlast]
  simp only [List.isSuffixOf_iff_suffix, Option.some.injEq]
  exact exists_congr fun stem => eq_comm

namespace Separated

variable (h : Separated t p source out) (hw : WritesInto out t w)

include h

theorem join_source (hn : PageNames p source out names) :
    p.sourceDir.join ⟨joinSlash names⟩ = ofLocation (source ++ names) := by
  rw [h.sourceDir, join_ofLocation h.isName_source hn.ne_nil hn.isName]

theorem isName_page (hn : PageNames p source out names) : ∀ name ∈ source ++ names, IsName name :=
  List.forall_mem_append.mpr ⟨h.isName_source, hn.isName⟩

theorem location_join_out (hn : PageNames p source out names) :
    (p.outDir.join ⟨joinSlash names⟩).location t.here = out ++ names := by
  have hout : p.outDir.chars ≠ [] := by
    rw [h.outDir]
    exact chars_ofLocation_ne_nil out
  rw [location_of_components t.here (components_join_names hout hn.isName), h.outDir,
    location_ofLocation t.here h.isName_out]

theorem startsWith_outDir_iff (hne : names ≠ []) (hnames : ∀ name ∈ names, IsName name) :
    (p.sourceDir.join ⟨joinSlash names⟩).startsWith p.outDir = true ↔ out <+: source ++ names := by
  have hall := List.forall_mem_append.mpr ⟨h.isName_source, hnames⟩
  rw [h.sourceDir, h.outDir, join_ofLocation h.isName_source hne hnames,
    startsWith_iff_inside t.here hall h.isName_out (components_ofLocation hall), Inside,
    location_ofLocation t.here hall, location_ofLocation t.here h.isName_out]

theorem writesInto_compile {result : Except Sprite.SpriteError Sprite.Report}
    (hcompile : p.compiler.compile t = (w, result)) : WritesInto out t w := by
  refine ⟨_, Sprite.Compiler.writes_compile h.proper hcompile, ?_⟩
  intro path hpath
  rw [List.mem_singleton.mp hpath]
  exact h.sprite

include hw

theorem readText_iff {g : Path} (hg : ∃ q : Path, g = q.normalize t.here)
    (hout : ¬ out <+: g.location t.here) {text : List Char} :
    w.readText g = .ok text ↔ t.readText g = .ok text := by
  obtain ⟨q, rfl⟩ := hg
  by_cases hq : q.chars = []
  · rw [normalize_of_nil hq, readText_eq_ok_iff, readText_eq_ok_iff]
    exact exists_congr fun l => iff_of_false find_empty find_empty
  · have hspelled : q.normalize t.here = ofLocation (q.location t.here) := if_neg hq
    have hnames := isName_of_mem_location h.here q
    rw [hspelled, location_ofLocation t.here hnames] at hout
    rw [hspelled]
    exact hw.readText_iff h.proper h.unlinked hnames hout

theorem expandFile_eq_ok {e : Expansion} (hn : PageNames p source out names)
    (hexpand : expandFile w (p.resolver w) (p.sourceDir.join ⟨joinSlash names⟩) = .ok e) :
    IsPage t p source out names ∧
      expandFile t (p.resolver t) (p.sourceDir.join ⟨joinSlash names⟩) = .ok e := by
  have hresolver : p.resolver w = p.resolver t := by rw [Plan.resolver, Plan.resolver, hw.grows.here]
  have hnormal : (p.sourceDir.join ⟨joinSlash names⟩).normalize t.here =
      p.sourceDir.join ⟨joinSlash names⟩ := by
    rw [h.join_source hn, normalize_ofLocation t.here (h.isName_page hn)]
  have hplace : (p.sourceDir.join ⟨joinSlash names⟩).location t.here = source ++ names := by
    rw [h.join_source hn, location_ofLocation t.here (h.isName_page hn)]
  rw [hresolver] at hexpand
  obtain ⟨text, htext⟩ := readable_of_expandFile hexpand
  have hread : t.readText (p.sourceDir.join ⟨joinSlash names⟩) = .ok text := by
    rw [resolver_here, hnormal] at htext
    exact (h.readText_iff hw ⟨_, hnormal.symm⟩ (hplace ▸ hn.output)).mp htext
  have hpage : IsPage t p source out names := by
    obtain ⟨l, hfind⟩ := readText_eq_ok_iff.mp hread
    exact ⟨hn, isFile_iff.mpr ⟨l, _, hfind⟩⟩
  have hsame := @expandFile_of_reads t (p.resolver t) h.here w (p.sourceDir.join ⟨joinSlash names⟩)
  rw [resolver_here, hnormal] at hsame
  refine ⟨hpage, ?_⟩
  rw [← hexpand, hsame ⟨text, hread⟩]
  intro g hg text
  -- The page and all that it leads to are normalized, and none of it lies in the output.
  rcases reflTransGen_iff_eq_or_transGen.mp hg with rfl | hwalk
  · exact h.readText_iff hw ⟨_, hnormal.symm⟩ (hplace ▸ hn.output)
  · obtain ⟨f, -, hlast⟩ := TransGen.tail'_iff.mp hwalk
    exact h.readText_iff hw (isNormal_of_imports hlast) (h.imports names hpage g hwalk)

theorem read_of_buildPages {pages : List Path} {content : Content}
    {result : Except BuildError (List PageDiagnostic)} (hn : PageNames p source out names)
    (hpages : ∀ page ∈ pages, PagePath p source out page)
    (hnot : ⟨joinSlash names⟩ ∉ pages)
    (hread : w.read (p.outDir.join ⟨joinSlash names⟩) = .ok content)
    (hbuild : buildPages p w pages = (u, result)) :
    u.read (p.outDir.join ⟨joinSlash names⟩) = .ok content := by
  have hwrites := writes_buildPages hw.grows.proper hbuild
  have hlinks := hw.unlinked h.unlinked
  obtain ⟨l, hfind⟩ := read_eq_ok_iff.mp hread
  have hl : l = out ++ names := by
    rw [hlinks.location_of_find hfind, hw.grows.here, h.location_join_out hn]
  have huntouched : Untouched w u l := by
    apply hwrites.untouched_of_location hlinks
    intro path hpath hsame
    obtain ⟨page, hpage, rfl⟩ := List.mem_map.mp hpath
    obtain ⟨others, hothers, rfl⟩ := hpages page hpage
    rw [hw.grows.here, h.location_join_out hothers, hl, List.append_cancel_left_eq] at hsame
    exact hnot (hsame ▸ hpage)
  exact read_eq_ok_iff.mpr ⟨l, huntouched.find_file hwrites.toKeeps hfind⟩

theorem buildPages_eq_ok {pages : List Path} {diagnostics : List PageDiagnostic}
    (hpages : ∀ page ∈ pages, PagePath p source out page)
    (hnodup : pages.Nodup) (hbuild : buildPages p w pages = (u, .ok diagnostics)) :
    (∀ page ∈ pages, (∃ names, IsPage t p source out names ∧ page = ⟨joinSlash names⟩) ∧
      expandFile t (p.resolver t) (p.sourceDir.join page) = .ok (expansionOf t p page) ∧
      u.read (p.outDir.join page) = .ok (.text (expansionOf t p page).html)) ∧
    diagnostics =
      pages.flatMap fun page => (expansionOf t p page).diagnostics.map (⟨page, ·⟩) := by
  induction pages generalizing w diagnostics with
  | nil =>
    obtain ⟨-, hdiagnostics⟩ := Prod.mk.inj hbuild
    exact ⟨by simp, (Except.ok.inj hdiagnostics).symm⟩
  | cons page pages ih =>
    obtain ⟨e, v, others, hexpand, hwrite, hrest, rfl⟩ := buildPages_cons_eq_ok_iff.mp hbuild
    obtain ⟨names, hn, rfl⟩ := hpages page (List.mem_cons_self ..)
    obtain ⟨hpage, he⟩ := h.expandFile_eq_ok hw hn hexpand
    have hexpansion : expansionOf t p ⟨joinSlash names⟩ = e := by
      rw [expansionOf, he]
      rfl
    -- The page goes into the output, and the sources are left as they are for the pages behind it.
    have hv : WritesInto out t v := by
      refine hw.trans ⟨_, writes_writePage hw.grows.proper hwrite, ?_⟩
      intro path hpath
      rw [List.mem_singleton.mp hpath, hw.grows.here, h.location_join_out hn]
      exact List.prefix_append _ _
    have hbehind : ∀ page ∈ pages, PagePath p source out page :=
      fun page hmem => hpages page (List.mem_cons_of_mem _ hmem)
    obtain ⟨hnot, hnodup⟩ := List.nodup_cons.mp hnodup
    obtain ⟨hothers, rfl⟩ := ih hv hbehind hnodup hrest
    constructor
    · intro page hmem
      rcases List.mem_cons.mp hmem with rfl | hmem
      · rw [hexpansion]
        exact ⟨⟨names, hpage, rfl⟩, he,
          h.read_of_buildPages hv hn hbehind hnot (read_of_writePage hwrite) hrest⟩
      · exact hothers page hmem
    · rw [List.flatMap_cons, hexpansion]

theorem pagePath_of_mem_findPages {page : Path} (hpage : page ∈ findPages w p) :
    PagePath p source out page := by
  obtain ⟨file, hfile, hcomponents, hout⟩ := mem_findPages_iff.mp hpage
  obtain ⟨names, hne, hnames, rfl, -, hjoin⟩ := hfile.names hw.grows.proper
  have hroot := root_ne_nil_of_mem_below hfile.mem_below
  refine ⟨names, ⟨hne, hnames, ?_, ?_, ?_⟩, rfl⟩
  · rw [← hasPageName_join_iff hroot hne hnames, hasPageName_eq hjoin, hfile.hasPageName]
  · rw [startsWith_eq hjoin, hcomponents]
  · rw [← h.startsWith_outDir_iff hne hnames, startsWith_eq hjoin, hout]
    exact Bool.false_ne_true

theorem mem_findPages (hsource : t.isDirectory p.sourceDir = true)
    (hpage : IsPage t p source out names) : ⟨joinSlash names⟩ ∈ findPages w p := by
  have hfile : FileBelow w p.sourceDir names :=
    ⟨hpage.ne_nil, hpage.isName, hw.grows.isFile hpage.isFile⟩
  have hroot : p.sourceDir.chars ≠ [] := by
    rw [h.sourceDir]
    exact chars_ofLocation_ne_nil source
  rw [mem_findPages_names_iff hw.grows.proper (hw.grows.isDirectory hsource) hfile,
    hasPageName_join_iff hroot hpage.ne_nil hpage.isName]
  refine ⟨hpage.ending, ?_⟩
  rintro (hlead | hstarts | hstarts)
  · have hroot := isAbsolute_ofLocation source
    rw [isAbsolute_iff_lead, ← h.sourceDir, hlead] at hroot
    cases hroot
  · rw [hpage.component] at hstarts
    cases hstarts
  · exact hpage.output ((h.startsWith_outDir_iff hpage.ne_nil hpage.isName).mp hstarts)

theorem writesInto_buildPages {pages : List Path} {result : Except BuildError (List PageDiagnostic)}
    (hpages : ∀ page ∈ pages, PagePath p source out page)
    (hbuild : buildPages p w pages = (u, result)) : WritesInto out t u := by
  refine hw.trans ⟨_, writes_buildPages hw.grows.proper hbuild, ?_⟩
  intro path hpath
  obtain ⟨page, hpage, rfl⟩ := List.mem_map.mp hpath
  obtain ⟨names, hn, rfl⟩ := hpages page hpage
  rw [hw.grows.here, h.location_join_out hn]
  exact List.prefix_append _ _

end Separated

/-- A build that succeeds reports the pages in order and each of them once, namely all the files of the
source directory that are named as pages and lie neither among the components nor in the output. What
it writes for one is what the page expanded to before the build, it reports the diagnostics of these
expansions page by page, and outside of the output every file is as it was. -/
theorem build_exact {report : Report} (h : Separated t p source out)
    (hbuild : build t p = (u, .ok report)) :
    report.pages.Pairwise (fun a b => a.before b = true) ∧
      (∀ page, page ∈ report.pages ↔
        ∃ names, IsPage t p source out names ∧ page = ⟨joinSlash names⟩) ∧
      (∀ page ∈ report.pages,
        expandFile t (p.resolver t) (p.sourceDir.join page) = .ok (expansionOf t p page) ∧
        u.read (p.outDir.join page) = .ok (.text (expansionOf t p page).html)) ∧
      report.diagnostics =
        (report.pages.flatMap fun page => (expansionOf t p page).diagnostics.map (⟨page, ·⟩)) ∧
      ∀ l content, ¬ out <+: l →
        (u.get? l = some (.file content) ↔ t.get? l = some (.file content)) := by
  obtain ⟨hsource, v, sprite, diagnostics, hcompile, hpages, rfl⟩ := build_eq_ok_iff.mp hbuild
  have hv := h.writesInto_compile hcompile
  have hnames : ∀ page ∈ findPages v p, PagePath p source out page :=
    fun page => h.pagePath_of_mem_findPages hv
  have hordered := pairwise_findPages (p := p) hv.grows.proper
  have hnodup : (findPages v p).Nodup := by
    apply hordered.imp
    rintro a b hbefore rfl
    exact components_ne_of_before hbefore rfl
  obtain ⟨hwritten, hdiagnostics⟩ := h.buildPages_eq_ok hv hnames hnodup hpages
  refine ⟨hordered, fun page => ⟨fun hpage => (hwritten page hpage).1, ?_⟩,
    fun page hpage => (hwritten page hpage).2, hdiagnostics, ?_⟩
  · rintro ⟨names, hpage, rfl⟩
    exact h.mem_findPages hv hsource hpage
  · intro l content hl
    exact ((h.writesInto_buildPages hv hnames hpages).untouched h.unlinked hl).file_iff

section navigation

def navigation : FileTree :=
  ⟨[(["work".toList], .directory), (["work".toList, "src".toList], .directory),
    (["work".toList, "src".toList, "index.html".toList],
      .file (.text "<!--@import:@components/nav.html-->".toList)),
    (["work".toList, "src".toList, "components".toList], .directory),
    (["work".toList, "src".toList, "components".toList, "nav.html".toList],
      .file (.text "nav".toList)),
    (["work".toList, "src".toList, "dist".toList], .directory),
    (["work".toList, "src".toList, "dist".toList, "index.html".toList],
      .file (.text "old".toList))],
    ["work".toList]⟩

def navigationPlan : Plan := rebuiltInto "/work/src/dist"

def navigationFile : Path := .ofString "/work/src/components/nav.html"

theorem proper_navigation : navigation.Proper := by
  constructor
  · decide
  · decide
  · decide
  · decide

theorem pieces_navigation : pieces "<!--@import:@components/nav.html-->".toList =
    [.directive "<!--@import:@components/nav.html-->".toList "@components/nav.html".toList] :=
  @pieces_directive "@components/nav.html".toList (by decide) (by decide)

theorem readText_navigation : navigation.readText (.ofString "/work/src/index.html") =
    .ok "<!--@import:@components/nav.html-->".toList := by
  cbv

theorem readText_navigationFile : navigation.readText navigationFile = .ok "nav".toList := by
  cbv

theorem unlinked_navigation : navigation.Unlinked := by
  apply unlinked_of_nodes
  simp [navigation]

theorem names_of_navigation (h : IsPage navigation navigationPlan ["work".toList, "src".toList]
    ["work".toList, "src".toList, "dist".toList] names) : names = ["index.html".toList] := by
  obtain ⟨⟨content, hfile⟩, -⟩ := (proper_navigation.isFile_join_iff unlinked_navigation
    (l := ["work".toList, "src".toList]) (by decide) h.ne_nil h.isName).mp h.isFile
  have hmem := exists_mem_of_get? hfile (by simp)
  simp only [navigation, List.mem_cons, Prod.mk.injEq, List.cons_append, List.nil_append,
    List.cons.injEq, true_and, reduceCtorEq, and_false, false_or, List.not_mem_nil, or_false] at hmem
  rcases hmem with ⟨rfl, -⟩ | ⟨rfl, -⟩ | ⟨rfl, -⟩
  · rfl
  · exact absurd h.component (by decide)
  · exact absurd ⟨_, rfl⟩ h.output

theorem eq_of_imports_navigation {g : Path}
    (h : TransGen (Imports navigation (navigationPlan.resolver navigation))
      (.ofString "/work/src/index.html") g) : g = navigationFile := by
  induction h with
  | single hedge =>
    obtain ⟨marker, path, hmem, rfl⟩ := exists_piece_of_imports readText_navigation hedge
    rw [pieces_navigation, List.mem_singleton] at hmem
    obtain ⟨-, rfl⟩ := Piece.directive.inj hmem
    decide
  | tail _ hedge ih =>
    subst ih
    obtain ⟨marker, path, hmem, -⟩ := exists_piece_of_imports readText_navigationFile hedge
    rw [pieces_of_no_comment (by decide)] at hmem
    simp at hmem

theorem separated_navigation : Separated navigation navigationPlan ["work".toList, "src".toList]
    ["work".toList, "src".toList, "dist".toList] := by
  refine ⟨proper_navigation, unlinked_navigation, by decide, by decide, by decide, rfl, rfl,
    by decide, ?_⟩
  intro names hpage g hg
  obtain rfl := names_of_navigation hpage
  obtain rfl := eq_of_imports_navigation hg
  decide

theorem expandFile_navigation : expandFile navigation (navigationPlan.resolver navigation)
    (.ofString "/work/src/index.html") = .ok ⟨"nav".toList, []⟩ := by
  have hinside : Takes navigation (navigationPlan.resolver navigation)
      (.ofString "/work/src/components") [navigationFile, .ofString "/work/src/index.html"]
      (pieces "nav".toList) (.kept 'n' (.kept 'a' (.kept 'v' .done))) := by
    rw [pieces_of_no_comment (by decide)]
    exact .kept _ (.kept _ (.kept _ .done))
  have hcourse : Takes navigation (navigationPlan.resolver navigation) (.ofString "/work/src")
      [.ofString "/work/src/index.html"] (pieces "<!--@import:@components/nav.html-->".toList)
      (.opened navigationFile (.kept 'n' (.kept 'a' (.kept 'v' .done))) .done) := by
    rw [pieces_navigation]
    exact .opened _ (by decide) readText_navigationFile hinside .done
  have hfile : (Path.ofString "/work/src/index.html").normalize
      (navigationPlan.resolver navigation).here = .ofString "/work/src/index.html" := by decide
  have hbase : (baseOf (.ofString "/work/src/index.html")).normalize
      (navigationPlan.resolver navigation).here = .ofString "/work/src" := by decide
  simp only [expandFile, hfile, readText_navigation]
  rw [expand, hbase, hcourse.expandPieces_eq]
  rfl

theorem build_navigation : ∃ u report, build navigation navigationPlan = (u, .ok report) ∧
    report.pages = [.ofString "index.html"] := by
  obtain ⟨u, hwrite⟩ : ∃ u, writePage navigation
      (navigationPlan.outDir.join (.ofString "index.html")) "nav".toList = (u, .ok ()) :=
    ⟨_, Prod.ext rfl (by cbv)⟩
  have hpages : buildPages navigationPlan navigation [.ofString "index.html"] = (u, .ok []) :=
    buildPages_cons_eq_ok_iff.mpr ⟨_, u, [], expandFile_navigation, hwrite, rfl, rfl⟩
  exact ⟨u, _, build_of_findPages (by cbv) (by cbv) (by cbv) hpages, rfl⟩

theorem build_exact_navigation :
    Separated navigation navigationPlan ["work".toList, "src".toList]
        ["work".toList, "src".toList, "dist".toList] ∧
      ∃ u report, build navigation navigationPlan = (u, .ok report) ∧
        report.pages = [.ofString "index.html"] ∧
        u.read (.ofString "/work/src/dist/index.html") = .ok (.text "nav".toList) := by
  obtain ⟨u, report, hbuild, hpages⟩ := build_navigation
  obtain ⟨-, -, hwritten, -⟩ := build_exact separated_navigation hbuild
  obtain ⟨hexpand, hread⟩ := hwritten (.ofString "index.html") (by simp [hpages])
  have hexpansion := Except.ok.inj (hexpand.symm.trans expandFile_navigation)
  rw [hexpansion] at hread
  exact ⟨separated_navigation, u, report, hbuild, hpages, hread⟩

end navigation

end StaticSite.Build
