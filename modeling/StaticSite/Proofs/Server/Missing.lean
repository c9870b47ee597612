import Mathlib
import StaticSite.Proofs.FileTree.Absent
import StaticSite.Proofs.Server.Routes

namespace StaticSite.FileTree

variable {t : FileTree} {p : Path}

theorem find_of_not_pathExists (h : t.pathExists p = false) : ∃ e, t.find p = .error e := by
  cases hfind : t.find p with
  | error e => exact ⟨e, rfl⟩
  | ok r => simp [pathExists, hfind, Except.toOption] at h

theorem readText_eq_notFound_iff : t.readText p = .error .notFound ↔ t.Absent p := by
  rw [← find_eq_notFound_iff, readText, read]
  cases t.find p with
  | error e => simp [bind, Except.bind]
  | ok r =>
    obtain ⟨l, n⟩ := r
    cases n with
    | file content => cases content <;> simp [bind, Except.bind]
    | directory => simp [bind, Except.bind]
    | link target => simp [bind, Except.bind]

end StaticSite.FileTree

namespace StaticSite.Server
open StaticSite.FileTree StaticSite.Page

variable {s : Site} {t : FileTree} {r : Request} {router : Router} {file : Path}

namespace Site

/-- The path under which a file is opened. That of a page is collapsed before. -/
def opened (s : Site) (file : Path) : Path :=
  if isPage file then file.normalize s.resolver.here else file

def statusOf : Except ServeError Served → Nat
  | .ok _ => 200
  | .error e => e.status

theorem status_respond (hget : r.method = "GET") (hfall : s.FallsBack router r) :
    (s.respond t r router).status = statusOf (s.serveSource t r.path) := by
  rw [respond, if_pos hget, get, serve_of_fallsBack hfall]
  cases s.serveSource t r.path <;> rfl

theorem status_page (path : Path) (e : FileError) :
    ServeError.status (.page ⟨path, e⟩) = if e = .notFound then 404 else 500 := by
  cases e <;> rfl

theorem status_respond_page {e : FileError} (hget : r.method = "GET") (hfall : s.FallsBack router r)
    (hfile : fileOf? t s.sourceDir r.path = some file) (hpage : isPage file = true)
    (h : t.find (file.normalize s.resolver.here) = .error e) :
    (s.respond t r router).status = if e = .notFound then 404 else 500 := by
  have hread : t.readText (file.normalize s.resolver.here) = .error e := by
    rw [readText, FileTree.read, h]
    rfl
  have hexpand : expandFile t s.resolver file = .error ⟨file.normalize s.resolver.here, e⟩ := by
    rw [expandFile, hread]
  rw [respond_page_error hfall hfile hpage hget hexpand]
  exact status_page _ e

theorem statusOf_serveFile {e : FileError} (h : t.find file = .error e) (url : List Char)
    (mediaType : String) :
    statusOf (serveFile t file url mediaType) = if e = .notFound then 404 else 500 := by
  have hread : t.read file = .error e := by
    rw [FileTree.read, h]
    rfl
  rw [serveFile, hread]
  cases e <;> rfl

theorem statusOf_serveFile_iff (h : t.pathExists file = false) (url : List Char)
    (mediaType : String) :
    (statusOf (serveFile t file url mediaType) = 404 ↔ t.Absent file) ∧
      (statusOf (serveFile t file url mediaType) = 500 ↔ ¬ t.Absent file) := by
  obtain ⟨e, he⟩ := find_of_not_pathExists h
  rw [statusOf_serveFile he, ← find_eq_notFound_iff, he, Except.error.injEq]
  by_cases hnone : e = .notFound <;> simp [hnone]

theorem statusOf_servePage_iff :
    (statusOf (s.servePage t file) = 404 ↔ t.Absent (file.normalize s.resolver.here)) ∧
      (statusOf (s.servePage t file) = 500 ↔ ¬ t.Absent (file.normalize s.resolver.here) ∧
        ∀ text, t.readText (file.normalize s.resolver.here) ≠ .ok text) := by
  rw [servePage, expandFile, ← readText_eq_notFound_iff]
  cases t.readText (file.normalize s.resolver.here) with
  | error e =>
    change (ServeError.status (.page ⟨_, e⟩) = 404 ↔ _) ∧
      (ServeError.status (.page ⟨_, e⟩) = 500 ↔ _)
    rw [status_page, Except.error.injEq]
    by_cases hnone : e = .notFound <;> simp [hnone]
  | ok document => simp [statusOf]

/-- With nothing to serve, the response is that nothing was found exactly if the path that is opened
is absent. The server fails if something else than absence stands in the way, and that is so for a
page only if collapsing its path does not lead to a text. -/
theorem status_iff_absent (hget : r.method = "GET") (hfall : s.FallsBack router r)
    (hnothing : ∀ file, fileOf? t s.sourceDir r.path = some file → t.pathExists file = false) :
    ((s.respond t r router).status = 404 ↔
      ∀ file, fileOf? t s.sourceDir r.path = some file → t.Absent (s.opened file)) ∧
    ((s.respond t r router).status = 500 ↔
      ∃ file, fileOf? t s.sourceDir r.path = some file ∧ ¬ t.Absent (s.opened file) ∧
        (isPage file = true → ∀ text, t.readText (s.opened file) ≠ .ok text)) := by
  rw [status_respond hget hfall, serveSource]
  cases hfile : fileOf? t s.sourceDir r.path with
  | none => simp [statusOf, ServeError.status]
  | some file =>
    simp only [Option.some.injEq, forall_eq', exists_eq_left', opened]
    by_cases hpage : isPage file = true
    · simpa only [hpage, ↓reduceIte, forall_const] using statusOf_servePage_iff
    · simpa only [hpage, Bool.false_eq_true, ↓reduceIte, false_implies, and_true] using
        statusOf_serveFile_iff (hnothing file hfile) r.path (mediaTypeOf file)

section styleSheet

def styleTree : FileTree :=
  ⟨[(["s".toList], .directory), (["s".toList, "a.css".toList], .file (.text "body".toList))], []⟩

def styleSite : Site :=
  ⟨.ofString "/s", .ofRoot [] (some (.ofString "/s")) Resolver.defaultComponentsDir,
    .ofString "/o.svg", "/sprite.svg".toList, false⟩

def styleRequest (below : String) : Request :=
  ⟨"GET", "/a.css/".toList ++ below.toList, []⟩

theorem fallsBack_style : styleSite.FallsBack .literal (styleRequest "b.png") :=
  (fallsBack_iff Router.lawful_literal (by decide)).mpr (by decide)

theorem fileOf?_style : fileOf? styleTree styleSite.sourceDir (styleRequest "b.png").path =
    some (.ofString "/s/a.css/b.png") := by
  cbv

theorem find_style : styleTree.find (.ofString "/s/a.css/b.png") = .error .notDirectory := by
  cbv

theorem status_style : (styleRequest "b.png").method = "GET" ∧
    styleSite.FallsBack .literal (styleRequest "b.png") ∧
    (∀ file, fileOf? styleTree styleSite.sourceDir (styleRequest "b.png").path = some file →
      styleTree.pathExists file = false) ∧
    (styleSite.respond styleTree (styleRequest "b.png")).status = 500 := by
  have hnothing : ∀ file,
      fileOf? styleTree styleSite.sourceDir (styleRequest "b.png").path = some file →
        styleTree.pathExists file = false := by
    intro file h
    obtain rfl := Option.some.inj (fileOf?_style.symm.trans h)
    rw [pathExists, find_style]
    rfl
  refine ⟨rfl, fallsBack_style, hnothing,
    (status_iff_absent rfl fallsBack_style hnothing).2.mpr ⟨_, fileOf?_style, ?_, ?_⟩⟩
  · change ¬ styleTree.Absent (.ofString "/s/a.css/b.png")
    rw [← find_eq_notFound_iff, find_style]
    nofun
  · intro hpage
    cases hpage

theorem status_below_file : (styleRequest "").method = "GET" ∧
    styleSite.FallsBack .literal (styleRequest "") ∧
    ∃ file, fileOf? styleTree styleSite.sourceDir (styleRequest "").path = some file ∧
      styleTree.pathExists file = false ∧
      (styleSite.respond styleTree (styleRequest "")).status = 500 := by
  have hfall : styleSite.FallsBack .literal (styleRequest "") := by decide
  have hfile : fileOf? styleTree styleSite.sourceDir (styleRequest "").path =
      some (.ofString "/s/a.css/index.html") := by cbv
  have hfind : styleTree.find (.ofString "/s/a.css/index.html") = .error .notDirectory := by cbv
  refine ⟨rfl, hfall, _, hfile, ?_, status_respond_page rfl hfall hfile (by decide) hfind⟩
  rw [pathExists, hfind]
  rfl

end styleSheet

end Site

end StaticSite.Server
