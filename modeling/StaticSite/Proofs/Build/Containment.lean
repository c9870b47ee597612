import Mathlib.Data.Set.Finite.Basic
import StaticSite.Config.Load
import StaticSite.Proofs.Build.Pages
import StaticSite.Proofs.FileTree.Unlinked
import StaticSite.Proofs.Sprite.Compiled

namespace StaticSite.Path

def Below (here : Location) (path dir : Path) : Prop :=
  ∃ names : Location, names ≠ [] ∧ path.location here = dir.location here ++ names

def staysInside : Nat → List Component → Bool
  | _, [] => true
  | depth, .normal _ :: cs => staysInside (depth + 1) cs
  | depth + 1, .parent :: cs => staysInside depth cs
  | 0, .parent :: _ => false
  | depth, .current :: cs => staysInside depth cs
  | _, .root :: _ => false

variable {here : Location}

theorem walk_of_staysInside {inner outer : List (List Char)} {cs : List Component}
    (h : staysInside inner.length cs = true) : walk (inner ++ outer) cs = walk inner cs ++ outer := by
  induction cs generalizing inner with
  | nil => rfl
  | cons c cs ih =>
    cases c with
    | root => cases inner <;> cases h
    | current =>
      apply ih
      cases inner <;> exact h
    | parent =>
      cases inner with
      | nil => cases h
      | cons name inner => exact ih h
    | normal name =>
      apply @ih (name :: inner)
      cases inner <;> exact h

theorem notMem_walk {stack : List (List Char)} {cs : List Component} {name : List Char}
    (hstack : name ∉ stack) (hcs : .normal name ∉ cs) : name ∉ walk stack cs := by
  induction cs generalizing stack with
  | nil => exact hstack
  | cons c cs ih =>
    rw [List.mem_cons, not_or] at hcs
    obtain ⟨hc, hcs⟩ := hcs
    cases c with
    | root => exact ih List.not_mem_nil hcs
    | current => exact ih hstack hcs
    | parent => exact ih (fun hmem => hstack (List.mem_of_mem_tail hmem)) hcs
    | normal other =>
      apply ih _ hcs
      rw [List.mem_cons, not_or]
      exact ⟨fun heq => hc (by rw [heq]), hstack⟩

theorem notMem_walk_of_leaves {inner : List (List Char)} {cs : List Component} {name : List Char}
    (h : staysInside inner.length cs = false) (hinner : name ∉ inner) (hcs : .normal name ∉ cs) :
    name ∉ walk (inner ++ [name]) cs := by
  induction cs generalizing inner with
  | nil => cases inner <;> cases h
  | cons c cs ih =>
    rw [List.mem_cons, not_or] at hcs
    obtain ⟨hc, hrest⟩ := hcs
    cases c with
    | root => exact @notMem_walk [] cs name List.not_mem_nil hrest
    | current =>
      apply ih _ hinner hrest
      cases inner <;> exact h
    | parent =>
      cases inner with
      | nil => exact @notMem_walk [] cs name List.not_mem_nil hrest
      | cons top inner => exact ih h (fun hmem => hinner (List.mem_cons_of_mem _ hmem)) hrest
    | normal other =>
      apply @ih (other :: inner) _ _ hrest
      · cases inner <;> exact h
      · rw [List.mem_cons, not_or]
        exact ⟨fun heq => hc (by rw [heq]), hinner⟩

theorem below_join_names (dir : Path) {names : Location} (hne : names ≠ [])
    (hnames : ∀ name ∈ names, IsName name) : Below here (dir.join ⟨joinSlash names⟩) dir := by
  refine ⟨names, hne, ?_⟩
  rw [location_join_of_relative here dir (isAbsolute_joinSlash hnames), components_joinSlash hnames,
    walk_map_normal, List.reverse_append, List.reverse_reverse, List.reverse_reverse]

theorem splitSlash_append_plain (cs : List Char) {ending : List Char} (h : '/' ∉ ending) :
    ∃ front s, splitSlash (cs ++ ending) = front ++ [s ++ ending] := by
  induction cs with
  | nil => exact ⟨[], [], splitSlash_of_notMem h⟩
  | cons c cs ih =>
    obtain ⟨front, s, hsplit⟩ := ih
    by_cases hc : c = '/'
    · refine ⟨[] :: front, s, ?_⟩
      rw [List.cons_append, splitSlash, if_pos hc, hsplit]
      rfl
    · rw [List.cons_append, splitSlash, if_neg hc, hsplit]
      cases front with
      | nil => exact ⟨[], c :: s, rfl⟩
      | cons first front => exact ⟨(c :: first) :: front, s, rfl⟩

theorem exists_components_svg {p : Path} (hp : p.isAbsolute = false)
    (hsvg : ".svg".toList <:+ p.chars) :
    ∃ front name, p.components = front ++ [.normal name] := by
  obtain ⟨cs, hcs⟩ := hsvg
  obtain ⟨front, s, hsplit⟩ := splitSlash_append_plain cs (show '/' ∉ ".svg".toList by decide)
  have hname : componentOf? (s ++ ".svg".toList) = some (.normal (s ++ ".svg".toList)) := by
    have hlength : (s ++ ".svg".toList).length = s.length + 4 := List.length_append
    have hlong {short : List Char} (hshort : short.length < 4) : s ++ ".svg".toList ≠ short := by
      intro heq
      rw [heq] at hlength
      omega
    have hsilent : isSilent (s ++ ".svg".toList) = false :=
      decide_eq_false (not_or.mpr ⟨hlong (by decide), hlong (by decide)⟩)
    rw [componentOf?, hsilent, if_neg Bool.false_ne_true, if_neg (hlong (by decide))]
  refine ⟨p.lead ++ front.filterMap componentOf?, s ++ ".svg".toList, ?_⟩
  rw [components, segments_of_relative hp, ← hcs, hsplit, List.filterMap_append,
    List.filterMap_cons_some hname, List.append_assoc]
  rfl

theorem exists_isName_notMem (cs : List Component) :
    ∃ name, IsName name ∧ .normal name ∉ cs := by
  have hnames (n : Nat) : IsName (List.replicate (n + 1) 'a') := by
    refine ⟨List.cons_ne_nil _ _, fun hmem => ?_, ?_, ?_⟩
    · exact absurd (List.eq_of_mem_replicate hmem) (by decide)
    · rintro h
      cases h
    · rintro h
      cases h
  by_contra hall
  push Not at hall
  have hinjective : Function.Injective fun n : Nat => Component.normal (List.replicate (n + 1) 'a') := by
    intro m n heq
    have hlength := congrArg List.length (Component.normal.inj heq)
    simpa using hlength
  exact Set.infinite_of_injective_forall_mem hinjective (fun n => hall _ (hnames n))
    (List.finite_toSet cs)

end StaticSite.Path

namespace StaticSite.Config

/-- An address whose path, read as one inside a directory, does not leave it on the way. -/
def isConfined (urlPath : List Char) : Bool :=
  Path.staysInside 0 (Path.mk (urlPath.dropWhile (· == '/'))).components

end StaticSite.Config

namespace StaticSite.Build
open StaticSite.Config StaticSite.FileTree StaticSite.Path

variable {p : Plan} {t u : FileTree}

structure Contained (t : FileTree) (p : Plan) : Prop where
  outputs : ∀ path ∈ outputs t p, Below t.here path p.outDir
  changed : ∀ e ∈ t.changedFiles (build t p).1,
    ∃ path ∈ Build.outputs t p, (build t p).1.find path = .ok (e.1, .file e.2)
  unlinked : t.Unlinked → ∀ e ∈ t.changedFiles (build t p).1,
    ∃ names, names ≠ [] ∧ e.1 = p.outDir.location t.here ++ names

theorem contained_of_below (ht : t.Proper) (h : Below t.here p.spriteOutput p.outDir) :
    Contained t p := by
  have houtputs : ∀ path ∈ outputs t p, Below t.here path p.outDir := by
    intro path hpath
    rcases List.mem_cons.mp hpath with rfl | hpath
    · exact h
    · obtain ⟨page, hpage, rfl⟩ := List.mem_map.mp hpath
      have hcompiled := (Sprite.Compiler.writes_compile (c := p.compiler) ht rfl).proper
      obtain ⟨file, hfile, -, -⟩ := mem_findPages_iff.mp hpage
      obtain ⟨names, hne, hnames, rfl, -⟩ := hfile.names hcompiled
      exact below_join_names p.outDir hne hnames
  have hwrites : Writes (outputs t p) t (build t p).1 := writes_build ht rfl
  have hchanged : ∀ e ∈ t.changedFiles (build t p).1,
      ∃ path ∈ outputs t p, (build t p).1.find path = .ok (e.1, .file e.2) := by
    intro e he
    obtain ⟨hafter, hbefore⟩ := (mem_changedFiles_iff hwrites.proper).mp he
    rcases hwrites.only _ _ hafter with hold | hdir | hfound
    · exact absurd hold hbefore
    · cases hdir
    · exact hfound
  refine ⟨houtputs, hchanged, fun hunlinked e he => ?_⟩
  obtain ⟨path, hpath, hfind⟩ := hchanged e he
  obtain ⟨names, hne, hlocation⟩ := houtputs path hpath
  refine ⟨names, hne, ?_⟩
  rw [(hwrites.unlinked hunlinked).location_of_find hfind, hwrites.here, hlocation]

theorem isAbsolute_dropWhile (url : List Char) :
    (Path.mk (url.dropWhile (· == '/'))).isAbsolute = false := by
  have hhead := List.head?_dropWhile_not (· == '/') url
  rw [isAbsolute, decide_eq_false_iff_not]
  intro hslash
  rw [hslash] at hhead
  cases hhead

theorem svg_suffix_dropWhile {url : List Char} (hsvg : ".svg".toList.isSuffixOf url = true) :
    ".svg".toList <:+ url.dropWhile (· == '/') := by
  obtain ⟨front, rfl⟩ := List.isSuffixOf_iff_suffix.mp hsvg
  have hdot : ".svg".toList.dropWhile (· == '/') = ".svg".toList := by decide
  rw [List.dropWhile_append]
  split
  · rw [hdot]
  · exact List.suffix_append _ _

theorem below_of_isConfined (here : Location) (outDir : Path) {url : List Char}
    (hsvg : ".svg".toList.isSuffixOf url = true) (h : isConfined url = true) :
    Below here (outputFor outDir url) outDir := by
  have hrelative := isAbsolute_dropWhile url
  obtain ⟨front, name, hcomponents⟩ := exists_components_svg hrelative (svg_suffix_dropWhile hsvg)
  have hwalk := @walk_of_staysInside [] (outDir.location here).reverse _ h
  refine ⟨(walk [] (Path.mk (url.dropWhile (· == '/'))).components).reverse, ?_, ?_⟩
  · rw [hcomponents, walk_append]
    simp [walk]
  · rw [outputFor, location_join_of_relative here outDir hrelative]
    rw [List.nil_append] at hwalk
    rw [hwalk, List.reverse_append, List.reverse_reverse]

theorem exists_not_below {url : List Char} (h : isConfined url = false) :
    ∃ outDir, ∀ here, ¬ Below here (outputFor outDir url) outDir := by
  obtain ⟨name, hname, hother⟩ := exists_isName_notMem (Path.mk (url.dropWhile (· == '/'))).components
  refine ⟨.ofLocation [name], ?_⟩
  rintro here ⟨names, -, hlocation⟩
  have hdir : (Path.ofLocation [name]).location here = [name] :=
    location_ofLocation here (by simpa using hname)
  rw [outputFor, location_join_of_relative here _ (isAbsolute_dropWhile url), hdir] at hlocation
  have hout := @notMem_walk_of_leaves [] _ name h List.not_mem_nil hother
  apply hout
  rw [List.nil_append, ← List.mem_reverse]
  change name ∈ (walk [name].reverse _).reverse
  rw [hlocation]
  exact List.mem_append_left _ (List.mem_singleton_self name)

def configuredWith (outDir : Path) (url : List Char) : Configuration :=
  ⟨⟨['h'], 80⟩, ⟨.ofString "/i", ['p'], outDir, .ofString "/"⟩,
    ⟨.ofString "/i", .ofString "/o.svg", url, []⟩, ⟨false, none⟩, none⟩

theorem validate_configuredWith (outDir : Path) {url : List Char} (hroot : url.head? = some '/')
    (hsvg : ".svg".toList.isSuffixOf url = true) :
    (configuredWith outDir url).validate = .ok (configuredWith outDir url) := by
  have hproblem : (configuredWith outDir url).problem? = none := by
    simpa [configuredWith, Configuration.problem?, hroot] using hsvg
  rw [Configuration.validate, hproblem]

/-- An address keeps every build in its output directory, whatever is configured beside it, if and
only if its path does not leave the directory on the way. -/
theorem contained_iff {url : List Char} (hroot : url.head? = some '/')
    (hsvg : ".svg".toList.isSuffixOf url = true) :
    (∀ c : Configuration, c.validate = .ok c → c.sprite.urlPath = url → ∀ t : FileTree, t.Proper →
        Below t.here (c.sprite.buildOutput c.project.outDir) c.project.outDir ∧
          Contained t (.ofConfiguration c)) ↔
      isConfined url = true := by
  constructor
  · intro hall
    apply Bool.of_not_eq_false
    intro hleaves
    obtain ⟨outDir, hout⟩ := exists_not_below hleaves
    have hempty : (FileTree.empty []).Proper := ⟨.nil, by simp [FileTree.empty],
      by simp [FileTree.empty], by simp [FileTree.empty]⟩
    have hvalid := validate_configuredWith outDir hroot hsvg
    obtain ⟨hbelow, -⟩ := hall (configuredWith outDir url) hvalid rfl _ hempty
    exact hout _ hbelow
  · rintro hconfined c - rfl t ht
    have hbelow := below_of_isConfined t.here c.project.outDir hsvg hconfined
    exact ⟨hbelow, contained_of_below ht hbelow⟩

def detour : Configuration :=
  configuredWith (.ofString "/dist") "//img/../a.svg".toList

theorem contained_detour :
    detour.sprite.urlPath.head? = some '/' ∧
      ".svg".toList.isSuffixOf detour.sprite.urlPath = true ∧ detour.validate = .ok detour ∧
      Sprite.Compiler.dotTree.Proper ∧
      Below Sprite.Compiler.dotTree.here (detour.sprite.buildOutput detour.project.outDir)
        detour.project.outDir ∧
      Contained Sprite.Compiler.dotTree (.ofConfiguration detour) := by
  have hroot : detour.sprite.urlPath.head? = some '/' := by decide
  have hsvg : ".svg".toList.isSuffixOf detour.sprite.urlPath = true := by decide
  have hvalid : detour.validate = .ok detour := validate_configuredWith _ hroot hsvg
  exact ⟨hroot, hsvg, hvalid, Sprite.Compiler.proper_dotTree,
    (contained_iff hroot hsvg).mpr (by decide) detour hvalid rfl _ Sprite.Compiler.proper_dotTree⟩

def leakingPlan : Plan :=
  .ofConfiguration (configuredWith (.ofString "/dist") "/../leak.svg".toList)

def leaked (sprite : List Char) : FileTree :=
  ⟨Sprite.Compiler.dotTree.nodes ++
    [(["dist".toList], .directory), (["leak.svg".toList], .file (.text sprite))], []⟩

theorem compile_leaking : ∃ report sprite,
    leakingPlan.compiler.compile Sprite.Compiler.dotTree = (leaked sprite, .ok report) := by
  let t := Sprite.Compiler.dotTree
  have hscan : Sprite.Icon.scan t leakingPlan.compiler.iconsDir ≠ [] :=
    Sprite.Compiler.scan_dotTree.trans_ne (List.cons_ne_nil _ _)
  have hparent : t.createParent leakingPlan.compiler.output =
      (⟨t.nodes ++ [(["dist".toList], .directory)], []⟩, .ok ()) := by
    cbv
  have hlocate : FileTree.locate ⟨t.nodes ++ [(["dist".toList], .directory)], []⟩ .created
      leakingPlan.compiler.output = .ok ["leak.svg".toList] := by
    cbv
  have hputs : t.Puts leakingPlan.compiler.output (.text (leakingPlan.compiler.sheetOf t))
      (leaked (leakingPlan.compiler.sheetOf t)) :=
    ⟨_, hparent, write_eq_ok_iff.mpr ⟨_, hlocate, by decide, rfl⟩⟩
  exact ⟨_, _, Sprite.Compiler.compile_eq_ok_iff.mpr (.inr ⟨hscan, hputs, rfl⟩)⟩

theorem findPages_leaked (sprite : List Char) : findPages (leaked sprite) leakingPlan = [] := by
  cbv

theorem not_contained_leaking :
    (configuredWith (.ofString "/dist") "/../leak.svg".toList).validate =
        .ok (configuredWith (.ofString "/dist") "/../leak.svg".toList) ∧
      Sprite.Compiler.dotTree.Proper ∧ Sprite.Compiler.dotTree.Unlinked ∧
      (∃ u report sprite, build Sprite.Compiler.dotTree leakingPlan = (u, .ok report) ∧
        (["leak.svg".toList], .text sprite) ∈ Sprite.Compiler.dotTree.changedFiles u) ∧
      ¬ Below [] leakingPlan.spriteOutput leakingPlan.outDir ∧
      ¬ Contained Sprite.Compiler.dotTree leakingPlan := by
  have hnot : ¬ Below [] leakingPlan.spriteOutput leakingPlan.outDir := by
    rintro ⟨names, -, hlocation⟩
    have hpath : leakingPlan.spriteOutput.location [] = ["leak.svg".toList] := by decide
    have hdir : leakingPlan.outDir.location [] = ["dist".toList] := by decide
    rw [hpath, hdir] at hlocation
    exact absurd (List.cons.inj hlocation).1 (by decide)
  refine ⟨validate_configuredWith _ (by decide) (by decide), Sprite.Compiler.proper_dotTree,
    Sprite.Compiler.unlinked_dotTree, ?_, hnot, fun h => hnot (h.outputs _ (List.mem_cons_self ..))⟩
  obtain ⟨report, sprite, hcompile⟩ := compile_leaking
  have hnew : Sprite.Compiler.dotTree.get? ["leak.svg".toList] = none := by decide
  refine ⟨leaked sprite, _, sprite, build_of_findPages (by cbv) hcompile
    (findPages_leaked sprite) rfl, ?_⟩
  apply List.mem_filterMap.mpr
  refine ⟨(["leak.svg".toList], .file (.text sprite)), ?_, if_neg ?_⟩
  · exact List.mem_append_right _ (List.mem_cons_of_mem _ (List.mem_singleton_self _))
  · rw [hnew]
    simp

end StaticSite.Build
