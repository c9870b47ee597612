import Mathlib
import StaticSite.Proofs.Build.Pages
import StaticSite.Proofs.Server.Routes

namespace StaticSite.Text.Percent

theorem bytes_of_not_escape {c : Char} {cs : List Char}
    (h : ∀ high low rest n m, c = '%' → cs = high :: low :: rest → hexDigit? high = some n →
      hexDigit? low = some m → False) :
    bytes (c :: cs) = String.utf8EncodeChar c ++ bytes cs := by
  by_cases hc : c = '%'
  · subst hc
    cases cs with
    | nil => rfl
    | cons high cs =>
      cases cs with
      | nil => rfl
      | cons low rest =>
        rw [bytes]
        split
        · rename_i n m hhigh hlow
          exact (h high low rest n m rfl rfl hhigh hlow).elim
        · rfl
  · exact bytes_cons_of_ne hc cs

theorem bytes_concat (cs : List Char) {c : Char} (hc : hexDigit? c = none) :
    bytes (cs ++ [c]) = bytes cs ++ String.utf8EncodeChar c := by
  fun_induction bytes cs with
  | case1 high low cs n m hhigh hlow ih =>
    simp only [List.cons_append, bytes, hhigh, hlow, ih]
  | case2 high low cs hnot ih =>
    rw [List.append_assoc, ← ih]
    apply bytes_of_not_escape
    rintro _ _ _ n m - ⟨⟩ hhigh hlow
    exact hnot n m hhigh hlow
  | case3 d cs hnot ih =>
    rw [List.append_assoc, ← ih]
    apply bytes_of_not_escape
    rintro high low rest n m rfl hcs hhigh hlow
    cases cs with
    | nil => cases hcs
    | cons x cs =>
      cases cs with
      | nil =>
        cases hcs
        rw [hc] at hlow
        cases hlow
      | cons y cs => exact hnot x y cs rfl rfl
  | case4 =>
    have hlast : bytes [c] = String.utf8EncodeChar c ++ bytes [] := by
      apply bytes_of_not_escape
      rintro _ _ _ _ _ - ⟨⟩
    have hnil : bytes [] = [] := by rw [bytes]
    rwa [hnil, List.append_nil] at hlast

theorem mem_encode {c : Char} {cs : List Char} (h : c ∈ encode cs) : c = '%' ∨ isPlain c = true := by
  obtain ⟨d, -, hd⟩ := List.mem_flatMap.mp h
  split at hd
  · rename_i hplain
    rw [List.mem_singleton.mp hd]
    exact .inr hplain
  · obtain ⟨b, -, hb⟩ := List.mem_flatMap.mp hd
    have hdigit : ∀ n < 16, isPlain (upperHexDigit n) = true := by decide
    have hsmall : b.toNat < 256 := b.toNat_lt
    simp only [escape, List.mem_cons, List.not_mem_nil, or_false] at hb
    rcases hb with rfl | rfl | rfl
    · exact .inl rfl
    · exact .inr (hdigit _ (by omega))
    · exact .inr (hdigit _ (by omega))

theorem decode?_eq_some_iff {cs text : List Char} : decode? cs = some text ↔ bytes cs = utf8 text :=
  ofUtf8?_eq_some_iff

end StaticSite.Text.Percent

namespace StaticSite.Server
open StaticSite.Build StaticSite.Page StaticSite.Path StaticSite.Text

theorem not_svg_of_decode? {url text : List Char} (h : Percent.decode? url = some text)
    (htext : text.getLast? = some 'l') : ¬ ".svg".toList.isSuffixOf url = true := by
  intro hsvg
  obtain ⟨front, rfl⟩ := List.isSuffixOf_iff_suffix.mp hsvg
  obtain ⟨init, rfl⟩ := List.getLast?_eq_some_iff.mp htext
  have hsplit : front ++ ".svg".toList = (front ++ ['.', 's', 'v']) ++ ['g'] := by simp
  have hg : String.utf8EncodeChar 'g' = [0x67] := by decide
  have hl : utf8 ['l'] = [0x6c] := by decide
  rw [Percent.decode?_eq_some_iff, hsplit, Percent.bytes_concat _ (by decide), utf8_append, hg,
    hl] at h
  have hlast := (List.append_inj' h rfl).2
  revert hlast
  decide

theorem decode?_path {r : Request} {text : List Char} (h : r.uri = Percent.encode text) :
    Percent.decode? r.path = some text := by
  have hplain : ∀ c ∈ Percent.encode text, (c != '?' && c != '#') = true := by
    intro c hc
    rw [Bool.and_eq_true, bne_iff_ne, bne_iff_ne]
    rcases Percent.mem_encode hc with rfl | hc
    · decide
    · constructor
      · rintro rfl
        cases hc
      · rintro rfl
        cases hc
  rw [Request.path, h, List.takeWhile_eq_self_iff.mpr hplain, Percent.decode?_encode]

theorem namesIn_cons {names : Location} (hne : names ≠ []) (h : ∀ name ∈ names, IsName name) :
    namesIn ('/' :: joinSlash names) = names := by
  have hsplit : splitSlash ('/' :: joinSlash names) = [] :: names := by
    rw [splitSlash, if_pos rfl, splitSlash_joinSlash hne fun name hname => (h name hname).2.1]
  rw [namesIn, hsplit, List.filter_cons_of_neg (by simp), List.filter_eq_self]
  intro name hname
  simpa using (h name hname).1

theorem getLast?_names {names : Location} {name stem : List Char}
    (hname : names.getLast? = some name) (hstem : stem ++ ".html".toList = name) :
    ('/' :: joinSlash names).getLast? = some 'l' := by
  have hne : name ≠ [] := by
    rw [← hstem]
    simp
  have hlast := FileTree.getLast?_joinSlash hname hne
  rw [← hstem] at hlast
  have hjoin : joinSlash names ≠ [] := by
    intro hnil
    rw [hnil] at hlast
    simp at hlast
  rw [List.getLast?_cons_of_ne_nil hjoin, hlast, List.getLast?_append_of_ne_nil _ (by simp)]
  rfl

theorem isPage_iff {file : Path} : isPage file = true ↔
    ∃ e, file.extension? = some e ∧
      (sameLetters "html".toList e = true ∨ sameLetters "htm".toList e = true) := by
  rw [isPage]
  cases file.extension? with
  | none => simp
  | some e => simp

theorem isPage_of_fileName? {p : Path} {name stem : List Char} (h : p.fileName? = some name)
    (hstem : stem ++ ".html".toList = name) (hne : name ≠ ".html".toList) : isPage p = true := by
  have hfront : stem ≠ [] := by
    rintro rfl
    exact hne hstem.symm
  have hextension : p.extension? = some "html".toList := by
    rw [extension?, h, Option.bind_some]
    exact splitName_eq_some_iff.mpr ⟨stem, hfront, hstem.symm, by decide⟩
  exact isPage_iff.mpr ⟨_, hextension, .inl (by decide)⟩

theorem fileOf?_eq {t : FileTree} {source : Path} {url : List Char} {names : Location}
    (hurl : Percent.decode? url = some ('/' :: joinSlash names)) (hne : names ≠ [])
    (hnames : ∀ name ∈ names, IsName name) (hslash : '\\' ∉ joinSlash names)
    (hlast : ('/' :: joinSlash names).getLast? ≠ some '/')
    (hfile : t.isDirectory (source.join ⟨joinSlash names⟩) = false) :
    fileOf? t source url = some (source.join ⟨joinSlash names⟩) := by
  have hdown : names.all leadsDown = true := by
    apply List.all_eq_true.mpr
    intro name hname
    obtain ⟨-, -, hdot, hparent⟩ := hnames name hname
    simp only [leadsDown, decide_eq_true_eq]
    exact ⟨hdot, hparent, fun hmem => hslash (mem_joinSlash hname hmem)⟩
  rw [fileOf?, hurl]
  simp only [namesIn_cons hne hnames, hdown, ↓reduceIte, hlast, hfile, Bool.false_eq_true, or_self]

theorem page_of_url {t u : FileTree} {source file page : Path} {url : List Char} (ht : t.Proper)
    (hgrows : t.Grows u) (hfile : PageFile t source file page) (hslash : '\\' ∉ page.chars)
    (hname : page.fileName? ≠ some ".html".toList)
    (hurl : Percent.decode? url = some ('/' :: page.chars)) :
    fileOf? u source url = some (source.join page) ∧ isPage (source.join page) = true ∧
      ¬ ".svg".toList.isSuffixOf url = true := by
  have hdirectory := hfile.not_isDirectory ht hgrows
  obtain ⟨names, hne, hnames, rfl, hcomponents, hjoin⟩ := hfile.names ht
  obtain ⟨name, hlast⟩ := Option.ne_none_iff_exists'.mp (List.getLast?_eq_none_iff.not.mpr hne)
  obtain ⟨stem, hstem⟩ : ".html".toList <:+ name := by
    have hnamed := hfile.hasPageName
    rw [hasPageName, fileName?_of_components hcomponents hlast] at hnamed
    exact List.isSuffixOf_iff_suffix.mp hnamed
  have hnot : name ≠ ".html".toList := by
    rintro rfl
    exact hname (@fileName?_of_components _ [] _ _ (components_joinSlash hnames) hlast)
  have hend := getLast?_names hlast hstem
  have hjoined := fileName?_of_components (hjoin.trans hcomponents) hlast
  exact ⟨fileOf?_eq hurl hne hnames hslash (by simp [hend]) hdirectory,
    isPage_of_fileName? hjoined hstem hnot, not_svg_of_decode? hurl hend⟩

/-- A server shows the site that a configuration describes, as it is without live reload. -/
structure Shows (o : Options) (c : Config.Configuration) : Prop where
  sourceDir : o.sourceDir = c.project.sourceDir
  componentsDir : o.componentsDir = c.project.componentsDir
  spriteUrlPath : o.spriteUrlPath = c.sprite.urlPath
  liveReload : o.liveReload = false

variable {c : Config.Configuration} {o : Options} {t u : FileTree}

theorem isSuffixOf_of_problem? (hc : c.problem? = none) :
    ".svg".toList.isSuffixOf c.sprite.urlPath = true := by
  unfold Config.Configuration.problem? at hc
  by_contra hsvg
  rw [if_pos hsvg] at hc
  split_ifs at hc

theorem routes_of_shows (ho : Shows o c) : (Site.ofOptions t o).routes = [c.sprite.urlPath] := by
  rw [Site.routes, Site.ofOptions, ho.spriteUrlPath, ho.liveReload]
  rfl

theorem isSome_create? {router : Router} (hrouter : router.Lawful) (ho : Shows o c)
    (hliteral : isLiteral c.sprite.urlPath = true) :
    ((Site.ofOptions t o).create? router).isSome = true := by
  have haccepts : router.accepts (Site.ofOptions t o).routes = true := by
    rw [routes_of_shows ho]
    exact hrouter.accepts (List.forall_mem_singleton.mpr hliteral) (List.nodup_singleton _)
  rw [Site.create?_eq_some_iff.mpr ⟨haccepts, rfl⟩, Option.isSome_some]

theorem fallsBack_of_not_svg {router : Router} {request : Request} (hrouter : router.Lawful)
    (hc : c.problem? = none) (ho : Shows o c)
    (hurl : ¬ ".svg".toList.isSuffixOf request.path = true) :
    (Site.ofOptions t o).FallsBack router request := by
  intro route hroute
  rw [routes_of_shows ho] at hroute
  obtain rfl := List.mem_singleton.mp hroute
  apply Bool.eq_false_iff.mpr
  intro hcovers
  apply hurl
  have hsvg := List.isSuffixOf_iff_suffix.mp (isSuffixOf_of_problem? hc)
  exact List.isSuffixOf_iff_suffix.mpr (hrouter.ending hcovers hsvg (by decide) (by decide))

theorem respond_shown {router : Router} {request : Request} {file : Path} {e : Expansion}
    (ho : Shows o c) (hmethod : request.method = "GET")
    (hfall : (Site.ofOptions t o).FallsBack router request)
    (hfile : fileOf? t c.project.sourceDir request.path = some file) (hpage : isPage file = true)
    (hexpand : expandFile t ((Plan.ofConfiguration c).resolver t) file = .ok e) :
    (Site.ofOptions t o).respond t request router =
      Served.response ⟨Site.pageMedia, .text e.html⟩ := by
  have hresolver : (Site.ofOptions t o).resolver = (Plan.ofConfiguration c).resolver t := by
    simp only [Site.ofOptions, ho.sourceDir, ho.componentsDir]
    rfl
  have hplain : (Site.ofOptions t o).liveReload = false := ho.liveReload
  rw [← ho.sourceDir] at hfile
  rw [← hresolver] at hexpand
  rw [Site.respond_page hfall hfile hpage hmethod hexpand, hplain, if_neg Bool.false_ne_true]

/-- The site is there if the route of its sprite is literal. If it is there, with whatever route, it
answers the URL of a page that was built with what the build has written. -/
theorem respond_eq_of_build {router : Router} {report : Report} {before after : List Path}
    {page : Path} {request : Request} (hrouter : router.Lawful) (ht : t.Proper)
    (hc : c.problem? = none) (ho : Shows o c)
    (h : build t (.ofConfiguration c) = (u, .ok report))
    (hpages : report.pages = before ++ page :: after) (hslash : '\\' ∉ page.chars)
    (hname : page.fileName? ≠ some ".html".toList) (hmethod : request.method = "GET")
    (hurl : Percent.decode? request.path = some ('/' :: page.chars)) :
    let p := Plan.ofConfiguration c
    let compiled := (p.compiler.compile t).1
    let state := (buildPages p compiled before).1
    let site := Site.ofOptions state o
    (isLiteral c.sprite.urlPath = true → (site.create? router).isSome = true) ∧
      ∀ respond, site.create? router = some respond →
        (respond state request).status = 200 ∧
        (respond state request).headers.lookup "content-type" = some "text/html; charset=utf-8" ∧
        (buildPages p compiled (before ++ [page])).1.read (p.outDir.join page) =
          .ok (respond state request).body := by
  intro p compiled state site
  obtain ⟨-, v, sprite, diagnostics, hcompile, hbuild, rfl⟩ := build_eq_ok_iff.mp h
  change findPages v p = _ at hpages
  rw [hpages] at hbuild
  obtain ⟨w, first, others, hbefore, hafter, -⟩ := buildPages_append_eq_ok_iff.mp hbuild
  obtain ⟨e, x, rest, hexpand, hwrite, -, -⟩ := buildPages_cons_eq_ok_iff.mp hafter
  have hcompiled : compiled = v := by simp only [compiled, p, hcompile]
  have hstate : state = w := by simp only [state, hcompiled, p, hbefore]
  have hwritten : buildPages p v (before ++ [page]) = (x, .ok (first ++ (_ ++ []))) :=
    buildPages_append_eq_ok_iff.mpr ⟨w, first, _, hbefore,
      buildPages_cons_eq_ok_iff.mpr ⟨e, x, [], hexpand, hwrite, rfl, rfl⟩, rfl⟩
  have hv := (Sprite.Compiler.grows_compile ht hcompile).proper
  have hmem : page ∈ findPages v p := by
    rw [hpages]
    exact List.mem_append_right _ (List.mem_cons_self ..)
  obtain ⟨file, hfile, -, -⟩ := mem_findPages_iff.mp hmem
  -- The file was found before any page was built, and the pages built since took nothing away.
  have hgrows := grows_buildPages hv hbefore
  obtain ⟨hmeans, hpage, hnotSvg⟩ := page_of_url hv hgrows hfile hslash hname hurl
  refine ⟨isSome_create? hrouter ho, fun respond hcreate => ?_⟩
  obtain ⟨-, rfl⟩ := Site.create?_eq_some_iff.mp hcreate
  have hfall := fallsBack_of_not_svg hrouter hc ho (t := w) hnotSvg
  have hresponse := respond_shown ho hmethod hfall hmeans hpage hexpand
  simp only [site, hstate, hresponse, hcompiled, hwritten]
  exact ⟨rfl, rfl, read_of_writePage hwrite⟩

def twoPages : FileTree :=
  ⟨[(["s".toList], .directory), (["s".toList, "a.html".toList], .file (.text "first".toList)),
    (["s".toList, "é b.html".toList], .file (.text "second".toList))], []⟩

def twoPagesConfiguration : Config.Configuration :=
  ⟨⟨"localhost".toList, 80⟩, ⟨.ofString "/s", "parts".toList, .ofString "/o", .ofString "/"⟩,
    ⟨.ofString "/s/icons", .ofString "/o/sprite.svg", "/sprite.svg".toList, []⟩, ⟨true, none⟩, none⟩

def twoPagesOptions : Options :=
  { Options.ofConfiguration twoPagesConfiguration false with liveReload := false }

def escapedRequest : Request :=
  ⟨"GET", Percent.encode "/é b.html".toList, []⟩

theorem proper_twoPages : twoPages.Proper := by
  constructor
  · decide
  · decide
  · decide
  · decide

theorem build_twoPages : ∃ u report, build twoPages (.ofConfiguration twoPagesConfiguration) =
      (u, .ok report) ∧ report.pages = [.ofString "a.html"] ++ .ofString "é b.html" :: [] := by
  obtain ⟨u, hpages⟩ : ∃ u, buildPages (.ofConfiguration twoPagesConfiguration) twoPages
      [.ofString "a.html", .ofString "é b.html"] = (u, .ok []) := by
    refine ⟨_, @buildPages_cons_of_notMem _ _ _ _ _ "first".toList _ _ ?_ (by decide)
      (Prod.ext rfl ?_) (@buildPages_cons_of_notMem _ _ _ _ _ "second".toList _ _ ?_ (by decide)
        (Prod.ext rfl ?_) rfl)⟩
    · cbv
    · cbv
    · cbv
    · cbv
  exact ⟨u, _, build_of_findPages (by cbv) (by cbv) (by cbv) hpages, rfl⟩

theorem respond_twoPages :
    Router.literal.Lawful ∧ twoPages.Proper ∧ twoPagesConfiguration.problem? = none ∧
      Shows twoPagesOptions twoPagesConfiguration ∧
      '\\' ∉ (Path.ofString "é b.html").chars ∧
      (Path.ofString "é b.html").fileName? ≠ some ".html".toList ∧
      Percent.decode? escapedRequest.path = some ('/' :: (Path.ofString "é b.html").chars) ∧
      ∃ u report, build twoPages (.ofConfiguration twoPagesConfiguration) = (u, .ok report) ∧
        report.pages = [.ofString "a.html"] ++ .ofString "é b.html" :: [] ∧
        let p := Plan.ofConfiguration twoPagesConfiguration
        let compiled := (p.compiler.compile twoPages).1
        let state := (buildPages p compiled [.ofString "a.html"]).1
        ∃ respond, (Site.ofOptions state twoPagesOptions).create? .literal = some respond ∧
          (respond state escapedRequest).status = 200 ∧
          (respond state escapedRequest).headers.lookup "content-type" =
            some "text/html; charset=utf-8" ∧
          (buildPages p compiled [.ofString "a.html", .ofString "é b.html"]).1.read
            (p.outDir.join (.ofString "é b.html")) = .ok (respond state escapedRequest).body := by
  have hc : twoPagesConfiguration.problem? = none := by decide
  have ho : Shows twoPagesOptions twoPagesConfiguration := ⟨rfl, rfl, rfl, rfl⟩
  have hslash : '\\' ∉ (Path.ofString "é b.html").chars := by decide
  have hname : (Path.ofString "é b.html").fileName? ≠ some ".html".toList := by decide
  have hurl : Percent.decode? escapedRequest.path =
      some ('/' :: (Path.ofString "é b.html").chars) := decode?_path rfl
  obtain ⟨u, report, hbuild, hpages⟩ := build_twoPages
  obtain ⟨hcreated, hserved⟩ := respond_eq_of_build Router.lawful_literal proper_twoPages hc ho
    hbuild hpages hslash hname rfl hurl
  obtain ⟨respond, hrespond⟩ := Option.isSome_iff_exists.mp (hcreated (by decide))
  exact ⟨Router.lawful_literal, proper_twoPages, hc, ho, hslash, hname, hurl, u, report, hbuild,
    hpages, respond, hrespond, hserved respond hrespond⟩

end StaticSite.Server
