import StaticSite.Proofs.Build.Containment
import StaticSite.Proofs.Build.Exclusion
import StaticSite.Proofs.FileTree.Complete
import StaticSite.Proofs.Server.Pages

namespace StaticSite.Build
open StaticSite.FileTree StaticSite.Path StaticSite.Text

variable {p : Plan} {t u : FileTree} {names : Location}

structure FileBelow (t : FileTree) (dir : Path) (names : Location) : Prop where
  ne_nil : names ≠ []
  isName : ∀ name ∈ names, IsName name
  isFile : t.isFile (dir.join ⟨joinSlash names⟩) = true

def Excluded (here : Location) (p : Plan) (file : Path) : Prop :=
  Inside here file p.componentsRoot ∨ Inside here file p.outDir

def IsServed (t : FileTree) (p : Plan) (page : Path) : Prop :=
  (∃ names, FileBelow t p.sourceDir names ∧ page = ⟨joinSlash names⟩) ∧
    Server.isPage (p.sourceDir.join page) = true ∧ ¬ Excluded t.here p (p.sourceDir.join page)

def LeftOut (p : Plan) (file : Path) : Prop :=
  p.sourceDir.lead = [.current] ∨ file.startsWith p.componentsRoot = true ∨
    file.startsWith p.outDir = true

/-- A build and a server agree on a file: one that is only an ending is not found, one that is named
as a build has it is left out if it is excluded, and one with another extension is excluded. -/
structure Agreed (here : Location) (p : Plan) (file : Path) : Prop where
  ending : file.fileName? = some ".html".toList → LeftOut p file
  page : file.extension? = some "html".toList → (LeftOut p file ↔ Excluded here p file)
  other : ∀ e, file.extension? = some e → e ≠ "html".toList →
    sameLetters "html".toList e = true ∨ sameLetters "htm".toList e = true → Excluded here p file

theorem hasPageName_iff {file : Path} : hasPageName file = true ↔
    file.fileName? = some ".html".toList ∨ file.extension? = some "html".toList := by
  unfold hasPageName extension?
  cases file.fileName? with
  | none => simp
  | some name =>
    rw [Option.bind_some, splitName_eq_some_iff, Option.some.injEq, List.isSuffixOf_iff_suffix]
    constructor
    · rintro ⟨stem, rfl⟩
      by_cases hstem : stem = []
      · subst hstem
        exact .inl rfl
      · exact .inr ⟨stem, hstem, rfl, by decide⟩
    · rintro (rfl | ⟨stem, -, rfl, -⟩)
      · exact List.suffix_refl _
      · exact List.suffix_append ..

theorem extension?_of_ending {file : Path} (h : file.fileName? = some ".html".toList) :
    file.extension? = none := by
  rw [extension?, h]
  rfl

theorem agreed_iff {here : Location} {file : Path} : Agreed here p file ↔
    ((hasPageName file = true ∧ ¬ LeftOut p file) ↔
      (Server.isPage file = true ∧ ¬ Excluded here p file)) := by
  rw [hasPageName_iff, Server.isPage_iff]
  have hsame : sameLetters "html".toList "html".toList = true := by decide
  constructor
  · rintro ⟨hending, hpage, hother⟩
    constructor
    · rintro ⟨hname | hextension, hleft⟩
      · exact absurd (hending hname) hleft
      · exact ⟨⟨_, hextension, .inl hsame⟩, (hpage hextension).not.mp hleft⟩
    · rintro ⟨⟨e, hextension, hletters⟩, hexcluded⟩
      by_cases he : e = "html".toList
      · subst he
        exact ⟨.inr hextension, (hpage hextension).not.mpr hexcluded⟩
      · exact absurd (hother e hextension he hletters) hexcluded
  · intro h
    constructor
    · intro hname
      by_contra hleft
      obtain ⟨⟨e, hextension, -⟩, -⟩ := h.mp ⟨.inl hname, hleft⟩
      rw [extension?_of_ending hname] at hextension
      cases hextension
    · intro hextension
      apply not_iff_not.mp
      constructor
      · intro hleft
        exact (h.mp ⟨.inr hextension, hleft⟩).2
      · intro hexcluded
        exact (h.mpr ⟨⟨_, hextension, .inl hsame⟩, hexcluded⟩).2
    · intro e hextension he hletters
      by_contra hexcluded
      rcases (h.mpr ⟨⟨e, hextension, hletters⟩, hexcluded⟩).1 with hname | hhtml
      · rw [extension?_of_ending hname] at hextension
        cases hextension
      · rw [hextension] at hhtml
        exact he (Option.some.inj hhtml)

theorem hasPageName_eq {a b : Path} (h : a.components = b.components) :
    hasPageName a = hasPageName b := by
  rw [hasPageName, hasPageName, fileName?, fileName?, h]

theorem startsWith_eq {a b : Path} (h : a.components = b.components) (dir : Path) :
    a.startsWith dir = b.startsWith dir := by
  rw [startsWith, startsWith, h]

theorem mem_findPages_names_iff (ht : t.Proper) (hsource : t.isDirectory p.sourceDir = true)
    (h : FileBelow t p.sourceDir names) : ⟨joinSlash names⟩ ∈ findPages t p ↔
      hasPageName (p.sourceDir.join ⟨joinSlash names⟩) = true ∧
        ¬ LeftOut p (p.sourceDir.join ⟨joinSlash names⟩) := by
  constructor
  · intro hpage
    obtain ⟨file, hfile, hcomponents, hout⟩ := mem_findPages_iff.mp hpage
    obtain ⟨-, -, -, -, -, hjoin⟩ := hfile.names ht
    refine ⟨by rw [hasPageName_eq hjoin, hfile.hasPageName], ?_⟩
    rintro (hlead | hstarts | hstarts)
    · apply ht.current_notMem_of_relativeTo? hfile.mem_below hfile.relativeTo?
      exact current_mem_components_iff.mpr hlead
    · rw [startsWith_eq hjoin, hcomponents] at hstarts
      cases hstarts
    · rw [startsWith_eq hjoin, hout] at hstarts
      cases hstarts
  · rintro ⟨hname, hleft⟩
    obtain ⟨l, hl⟩ := isDirectory_iff.mp hsource
    obtain ⟨k, content, hk⟩ := isFile_iff.mp h.isFile
    have hlead : p.sourceDir.lead ≠ [.current] := fun hlead => hleft (.inl hlead)
    obtain ⟨q, hq⟩ := exists_spell? hl hlead
    have hroot : p.sourceDir.chars ≠ [] := by
      intro hnil
      obtain hempty : p.sourceDir = ⟨[]⟩ := by rw [← hnil]
      rw [hempty] at hl
      exact find_empty hl
    have hfound := find_topEntry hq hlead hroot h.ne_nil h.isName hk
    have hcomponents := (components_topEntry_of_spell? hq hlead h.ne_nil h.isName).1
    have hjoin := hcomponents.trans (components_join_names hroot h.isName).symm
    refine mem_findPages_iff.mpr ⟨_, ⟨mem_below_of_find hq hlead h.ne_nil h.isName hfound, ?_,
      isFile_iff.mpr ⟨k, content, hfound⟩, ?_⟩, ?_, ?_⟩
    · rw [hasPageName_eq hjoin, hname]
    · exact relativeTo?_topEntry hq hlead h.ne_nil h.isName hroot
    · rw [startsWith_eq hjoin]
      exact Bool.eq_false_iff.mpr fun hstarts => hleft (.inr (.inl hstarts))
    · rw [startsWith_eq hjoin]
      exact Bool.eq_false_iff.mpr fun hstarts => hleft (.inr (.inr hstarts))

theorem exists_names_of_mem_findPages (ht : t.Proper) {page : Path} (h : page ∈ findPages t p) :
    ∃ names, page = ⟨joinSlash names⟩ ∧
      (byteCount (p.sourceDir.join page).chars ≤ maxPath → FileBelow t p.sourceDir names) := by
  obtain ⟨file, hfile, -, -⟩ := mem_findPages_iff.mp h
  obtain ⟨names, hne, hnames, rfl, -, hjoin⟩ := hfile.names ht
  -- A search drops doubled slashes, so that the path it finds can be shorter than the joined one.
  refine ⟨names, rfl, fun hlong => ⟨hne, hnames, ?_⟩⟩
  obtain ⟨l, content, hl⟩ := isFile_iff.mp hfile.isFile
  refine isFile_iff.mpr ⟨l, content, find_of_components hl hjoin ?_ hlong⟩
  have hroot := root_ne_nil_of_mem_below hfile.mem_below
  obtain ⟨ss, hsegments⟩ := segments_entry p.sourceDir hne fun name hname => (hnames name hname).2.1
  rw [entry_eq_join hroot (isAbsolute_joinSlash hnames)] at hsegments
  rw [hsegments]
  intro s hs hsilent
  exact absurd hsilent (not_silent_of_getLast? hne hnames s hs)

def Covers (t : FileTree) (p : Plan) (report : Report) : Prop :=
  ∀ page, page ∈ report.pages ↔ IsServed t p page

/-- A build covers what is served if and only if it agrees with the server on every file in the
source directory, and none of its pages has a path that is too long. -/
theorem covers_iff {report : Report} (ht : t.Proper) (h : build t p = (u, .ok report)) :
    Covers (p.compiler.compile t).1 p report ↔
      (∀ page ∈ report.pages, byteCount (p.sourceDir.join page).chars ≤ maxPath) ∧
        ∀ names, FileBelow (p.compiler.compile t).1 p.sourceDir names →
          Agreed t.here p (p.sourceDir.join ⟨joinSlash names⟩) := by
  obtain ⟨hsource, v, sprite, diagnostics, hcompile, -, rfl⟩ := build_eq_ok_iff.mp h
  have hgrows := Sprite.Compiler.grows_compile ht hcompile
  have hdir := hgrows.isDirectory hsource
  have hserved {names : Location} (hfile : FileBelow v p.sourceDir names) :
      IsServed v p ⟨joinSlash names⟩ ↔
        Server.isPage (p.sourceDir.join ⟨joinSlash names⟩) = true ∧
          ¬ Excluded t.here p (p.sourceDir.join ⟨joinSlash names⟩) := by
    rw [IsServed, hgrows.here]
    exact and_iff_right ⟨names, hfile, rfl⟩
  rw [hcompile]
  constructor
  · intro hcovers
    constructor
    · intro page hpage
      obtain ⟨⟨names, hfile, rfl⟩, -⟩ := (hcovers page).mp hpage
      obtain ⟨l, content, hl⟩ := isFile_iff.mp hfile.isFile
      exact (locate_eq_ok_iff_leads.mp (find_eq_ok_iff.mp hl).1).2.2.1
    · intro names hfile
      rw [agreed_iff, ← mem_findPages_names_iff hgrows.proper hdir hfile, ← hserved hfile]
      exact hcovers _
  · rintro ⟨hlong, hagreed⟩ page
    have hiff {names : Location} (hfile : FileBelow v p.sourceDir names) :
        ⟨joinSlash names⟩ ∈ findPages v p ↔ IsServed v p ⟨joinSlash names⟩ := by
      rw [mem_findPages_names_iff hgrows.proper hdir hfile, hserved hfile]
      exact agreed_iff.mp (hagreed names hfile)
    constructor
    · intro hpage
      obtain ⟨names, rfl, hfile⟩ := exists_names_of_mem_findPages hgrows.proper hpage
      exact (hiff (hfile (hlong _ hpage))).mp hpage
    · intro hpage
      obtain ⟨⟨names, hfile, rfl⟩, -⟩ := id hpage
      exact (hiff hfile).mpr hpage

theorem startsWith_iff_inside (here : Location) {l k : Location} (hl : ∀ name ∈ l, IsName name)
    (hk : ∀ name ∈ k, IsName name) {file : Path} (hfile : file.components = .root :: l.map .normal) :
    file.startsWith (ofLocation k) = true ↔ Inside here file (ofLocation k) := by
  rw [Inside, location_of_isName here hl hfile, location_ofLocation here hk, startsWith,
    List.isPrefixOf_iff_prefix, hfile, components_ofLocation hk, List.prefix_cons_inj]
  constructor
  · intro hbegin
    obtain ⟨front, hfront, hsame⟩ := List.prefix_map_iff.mp hbegin
    rwa [map_normal_injective hsame]
  · intro hbegin
    exact hbegin.map _

theorem leftOut_iff_excluded (here : Location) {l k m : Location} (hl : ∀ name ∈ l, IsName name)
    (hk : ∀ name ∈ k, IsName name) (hm : ∀ name ∈ m, IsName name)
    (hsource : p.sourceDir = ofLocation l) (hcomponents : p.componentsRoot = ofLocation k)
    (hout : p.outDir = ofLocation m) (hnames : ∀ name ∈ names, IsName name) :
    LeftOut p (p.sourceDir.join ⟨joinSlash names⟩) ↔
      Excluded here p (p.sourceDir.join ⟨joinSlash names⟩) := by
  have hroot : p.sourceDir.chars ≠ [] := by
    rw [hsource]
    exact List.cons_ne_nil _ _
  have hfile : (p.sourceDir.join ⟨joinSlash names⟩).components =
      .root :: (l ++ names).map .normal := by
    rw [components_join_names hroot hnames, hsource, components_ofLocation hl, List.map_append,
      List.cons_append]
  have hall := List.forall_mem_append.mpr ⟨hl, hnames⟩
  have hlead : p.sourceDir.lead = [.root] := by
    rw [hsource, ← isAbsolute_iff_lead, isAbsolute_ofLocation]
  rw [LeftOut, Excluded, hcomponents, hout, startsWith_iff_inside here hall hk hfile,
    startsWith_iff_inside here hall hm hfile, hlead]
  simp

theorem unlinked_rebuilt : rebuilt.Unlinked := by
  apply unlinked_of_nodes
  simp [rebuilt]

theorem names_of_fileBelow_rebuilt (h : FileBelow rebuilt (.ofString "/work/src") names) :
    names = ["index.html".toList] ∨ names = ["dist".toList, "old.html".toList] := by
  obtain ⟨l, content, hl⟩ := isFile_iff.mp h.isFile
  have hfile := (find_eq_ok_iff.mp hl).2
  have hsource : (Path.ofString "/work/src").location rebuilt.here =
      ["work".toList, "src".toList] := by decide
  rw [unlinked_rebuilt.location_of_find hl, location_of_components _
    (components_join_names (by decide) h.isName), hsource] at hfile
  have hmem := exists_mem_of_get? hfile (by simp)
  simp [rebuilt] at hmem
  exact hmem.imp And.left And.left

theorem covers_rebuilt : rebuilt.Proper ∧ ∃ u report,
    build rebuilt (rebuiltInto "/work/src/dist") = (u, .ok report) ∧
      report.pages = [.ofString "index.html"] ∧
      Covers ((rebuiltInto "/work/src/dist").compiler.compile rebuilt).1
        (rebuiltInto "/work/src/dist") report := by
  obtain ⟨u, report, hbuild, hpages⟩ := build_rebuilt
  have hcompile : ((rebuiltInto "/work/src/dist").compiler.compile rebuilt).1 = rebuilt := by cbv
  refine ⟨proper_rebuilt, u, report, hbuild, hpages, (covers_iff proper_rebuilt hbuild).mpr ?_⟩
  rw [hcompile, hpages]
  constructor
  · decide
  · intro names hfile
    have hsame := @leftOut_iff_excluded (rebuiltInto "/work/src/dist") names rebuilt.here
      ["work".toList, "src".toList] ["work".toList, "src".toList, "components".toList]
      ["work".toList, "src".toList, "dist".toList] (by decide) (by decide) (by decide) rfl rfl rfl
      hfile.isName
    have hextension : ((rebuiltInto "/work/src/dist").sourceDir.join
        ⟨joinSlash names⟩).extension? = some "html".toList := by
      rcases names_of_fileBelow_rebuilt hfile with rfl | rfl
      · decide
      · decide
    constructor
    · intro hending
      rw [extension?_of_ending hending] at hextension
      cases hextension
    · intro _
      exact hsame
    · intro e he hne _
      exact absurd (Option.some.inj (he.symm.trans hextension)) hne

def legacy : FileTree :=
  ⟨[(["site".toList], .directory), (["site".toList, "src".toList], .directory),
    (["site".toList, "src".toList, "index.html".toList], .file (.text "x".toList)),
    (["site".toList, "src".toList, "LEGACY.HTM".toList], .file (.text "y".toList))], []⟩

def legacyPlan : Plan :=
  ⟨.ofString "/site/src", "components".toList, .ofString "/site/dist", .ofString "/site/src/icons",
    "/sprite.svg".toList, ["data-name".toList]⟩

theorem not_covers_legacy : ∃ u report, build legacy legacyPlan = (u, .ok report) ∧
    report.pages = [.ofString "index.html"] ∧
    IsServed (legacyPlan.compiler.compile legacy).1 legacyPlan (.ofString "LEGACY.HTM") ∧
    ¬ Covers (legacyPlan.compiler.compile legacy).1 legacyPlan report := by
  have hserved : IsServed (legacyPlan.compiler.compile legacy).1 legacyPlan
      (.ofString "LEGACY.HTM") := by
    have hcompile : (legacyPlan.compiler.compile legacy).1 = legacy := by cbv
    rw [hcompile]
    refine ⟨⟨["LEGACY.HTM".toList], ⟨by simp, by decide, ?_⟩, rfl⟩, by decide, ?_⟩
    · cbv
    · unfold Excluded
      decide
  obtain ⟨u, hpages⟩ : ∃ u, buildPages legacyPlan legacy [.ofString "index.html"] = (u, .ok []) := by
    refine ⟨_, @buildPages_cons_of_notMem _ _ _ _ _ "x".toList _ _ ?_ (by decide)
      (Prod.ext rfl ?_) rfl⟩
    · cbv
    · cbv
  refine ⟨u, _, build_of_findPages (by cbv) (by cbv) (by cbv) hpages, rfl, hserved, ?_⟩
  intro hcovers
  have hpage := (hcovers _).mpr hserved
  exact absurd (List.mem_singleton.mp hpage) (by decide)

end StaticSite.Build
