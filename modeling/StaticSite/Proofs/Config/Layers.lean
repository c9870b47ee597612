import Mathlib
import StaticSite.Config.Load
import StaticSite.Proofs.FileTree.Create
import StaticSite.Proofs.Path.Absolute

namespace StaticSite.Config
open StaticSite.FileTree

variable {t : FileTree} {env : Environment} {named used : Option Path} {dir file : Path}
  {o : Overrides} {raw s : Stated} {c : Configuration}

section search

variable {l m : Location} {q : Location → Bool}

theorem upwards_concat (l : Location) (name : List Char) :
    upwards (l ++ [name]) = (l ++ [name]) :: upwards l := by
  have hlength : (l ++ [name]).length = l.length + 1 := by simp
  rw [upwards, upwards, hlength, List.range_succ_eq_map, List.map_cons, List.map_map]
  congr 1
  · rw [Nat.sub_zero, ← hlength, List.take_length]
  · apply List.map_congr_left
    intro n _
    rw [Function.comp_apply, Nat.succ_eq_add_one, Nat.add_sub_add_right,
      List.take_append_of_le_length (by omega)]

theorem upwards_nil : upwards [] = [[]] := rfl

theorem mem_upwards (h : m <+: l) : m ∈ upwards l := by
  refine List.mem_map.mpr ⟨l.length - m.length, List.mem_range.mpr (by omega), ?_⟩
  rw [Nat.sub_sub_self h.length_le, ← List.prefix_iff_eq_take.mp h]

theorem find?_upwards : (upwards l).find? q = some m ↔
    m <+: l ∧ q m = true ∧ ∀ k, m <+: k → k <+: l → q k = true → k = m := by
  induction l using List.reverseRecOn with
  | nil =>
    rw [upwards_nil, List.find?_singleton, Option.ite_none_right_eq_some, List.prefix_nil]
    constructor
    · rintro ⟨hq, hm⟩
      obtain rfl := Option.some.inj hm
      exact ⟨rfl, hq, fun k _ hk _ => List.prefix_nil.mp hk⟩
    · rintro ⟨rfl, hq, -⟩
      exact ⟨hq, rfl⟩
  | append_singleton l name ih =>
    rw [upwards_concat]
    by_cases hq : q (l ++ [name]) = true
    · rw [List.find?_cons_of_pos hq]
      constructor
      · rintro hm
        obtain rfl := Option.some.inj hm
        exact ⟨List.prefix_refl _, hq, fun k hk hk' _ => hk'.eq_of_length_le hk.length_le⟩
      · rintro ⟨hm, -, hnearest⟩
        rw [hnearest _ hm (List.prefix_refl _) hq]
    · rw [List.find?_cons_of_neg hq, ih]
      have hne {k : Location} (hk : q k = true) : k ≠ l ++ [name] := fun h => hq (h ▸ hk)
      constructor
      · rintro ⟨hm, hqm, hnearest⟩
        refine ⟨hm.trans (List.prefix_append _ _), hqm, fun k hk hk' hqk => ?_⟩
        exact hnearest k hk ((List.prefix_concat_iff.mp hk').resolve_left (hne hqk)) hqk
      · rintro ⟨hm, hqm, hnearest⟩
        refine ⟨(List.prefix_concat_iff.mp hm).resolve_left (hne hqm), hqm, fun k hk hk' hqk => ?_⟩
        exact hnearest k hk (hk'.trans (List.prefix_append _ _)) hqk

end search

def HasFile (t : FileTree) (l : Location) : Prop :=
  t.pathExists ((Path.ofLocation l).join fileName) = true

/-- The file that is used is the one that is named, else that of the nearest directory that has one,
from the working directory up. -/
inductive Used (t : FileTree) : Option Path → Option Path → Prop where
  | named (file : Path) : t.pathExists file = true → Used t (some file) (some file)
  | nearest (l : Location) : l <+: t.here → HasFile t l →
    (∀ k, l <+: k → k <+: t.here → HasFile t k → k = l) →
      Used t none (some ((Path.ofLocation l).join fileName))
  | nowhere : (∀ l, l <+: t.here → ¬ HasFile t l) → Used t none none

structure Expanded (env : Environment) (raw s : Stated) : Prop where
  host : Option.Rel (expandVariables env · = .ok ·) raw.host s.host
  sourceDir : Option.Rel (expandVariables env · = .ok ·) raw.sourceDir s.sourceDir
  outDir : Option.Rel (expandVariables env · = .ok ·) raw.outDir s.outDir
  iconsDir : Option.Rel (expandVariables env · = .ok ·) raw.iconsDir s.iconsDir
  output : Option.Rel (expandVariables env · = .ok ·) raw.output s.output
  others : s = { raw with
    host := s.host, sourceDir := s.sourceDir, outDir := s.outDir, iconsDir := s.iconsDir,
    output := s.output }

inductive States (t : FileTree) (env : Environment) : Option Path → Stated → Path → Prop where
  | nothing : States t env none .nothing (.ofLocation t.here)
  | file {file : Path} {source : List Char} {raw s : Stated} :
    t.readText file = .ok source → Stated.parse? source = some raw → Expanded env raw s →
      States t env (some file) s (baseOf t file)

structure Layered (o : Overrides) (s : Stated) (dir : Path) (used : Option Path)
    (c : Configuration) : Prop where
  host : c.server.host = (o.host.or s.host).getD "127.0.0.1".toList
  port : c.server.port = (o.port.or s.port).getD 5173
  sourceDir : c.project.sourceDir =
    (o.sourceDir.or (s.sourceDir.map fun path => dir.join ⟨path⟩)).getD (dir.join (.ofString "src"))
  componentsDir : c.project.componentsDir = s.componentsDir.getD "components".toList
  outDir : c.project.outDir =
    (o.outDir.or (s.outDir.map fun path => dir.join ⟨path⟩)).getD (dir.join (.ofString "dist"))
  projectDir : c.project.projectDir = dir.join (.ofString ".weft")
  iconsDir : c.sprite.iconsDir =
    (s.iconsDir.map fun path => dir.join ⟨path⟩).getD (dir.join (.ofString "src/icons"))
  output : c.sprite.output = (o.spriteOutput.or (s.output.map fun path => dir.join ⟨path⟩)).getD
    ((dir.join (.ofString ".weft")).join (.ofString "sprite.svg"))
  urlPath : c.sprite.urlPath = s.urlPath.getD "/sprite.svg".toList
  stripAttributes : c.sprite.stripAttributes = s.stripAttributes.getD ["data-name".toList]
  enabled : c.liveReload.enabled = (o.liveReload.or s.liveReload).getD true
  watchPatterns : c.liveReload.watchPatterns = s.watchPatterns
  configPath : c.configPath = used

theorem join_getD (dir : Path) (path : Option (List Char)) (default : String) :
    (path.map fun path => dir.join ⟨path⟩).getD (dir.join (.ofString default)) =
      dir.join ⟨path.getD default.toList⟩ := by
  cases path <;> rfl

theorem layered_apply (o : Overrides) (s : Stated) (dir : Path) (used : Option Path) :
    Layered o s dir used (o.apply { s.resolve dir with configPath := used }) where
  host := by rw [Option.getD_or]; rfl
  port := by rw [Option.getD_or]; rfl
  sourceDir := by rw [Option.getD_or, join_getD]; rfl
  componentsDir := rfl
  outDir := by rw [Option.getD_or, join_getD]; rfl
  projectDir := rfl
  iconsDir := by rw [join_getD]; rfl
  output := by
    rw [Option.getD_or, Overrides.apply, Stated.resolve]
    cases s.output <;> rfl
  urlPath := rfl
  stripAttributes := rfl
  enabled := by rw [Option.getD_or]; rfl
  watchPatterns := rfl
  configPath := rfl

theorem Layered.eq {c' : Configuration} (h : Layered o s dir used c)
    (h' : Layered o s dir used c') : c = c' := by
  obtain ⟨⟨host, port⟩, ⟨sourceDir, componentsDir, outDir, projectDir⟩,
    ⟨iconsDir, output, urlPath, stripAttributes⟩, ⟨enabled, watchPatterns⟩, configPath⟩ := c
  obtain ⟨⟨host', port'⟩, ⟨sourceDir', componentsDir', outDir', projectDir'⟩,
    ⟨iconsDir', output', urlPath', stripAttributes'⟩, ⟨enabled', watchPatterns'⟩, configPath'⟩ := c'
  simp only [Configuration.mk.injEq, ServerSettings.mk.injEq, ProjectSettings.mk.injEq,
    SpriteSettings.mk.injEq, LiveReloadSettings.mk.injEq]
  exact ⟨⟨h.host.trans h'.host.symm, h.port.trans h'.port.symm⟩,
    ⟨h.sourceDir.trans h'.sourceDir.symm, h.componentsDir.trans h'.componentsDir.symm,
      h.outDir.trans h'.outDir.symm, h.projectDir.trans h'.projectDir.symm⟩,
    ⟨h.iconsDir.trans h'.iconsDir.symm, h.output.trans h'.output.symm,
      h.urlPath.trans h'.urlPath.symm, h.stripAttributes.trans h'.stripAttributes.symm⟩,
    ⟨h.enabled.trans h'.enabled.symm, h.watchPatterns.trans h'.watchPatterns.symm⟩,
    h.configPath.trans h'.configPath.symm⟩

theorem layered_iff : Layered o s dir used c ↔
    c = o.apply { s.resolve dir with configPath := used } := by
  constructor
  · exact fun h => h.eq (layered_apply o s dir used)
  · rintro rfl
    exact layered_apply o s dir used

theorem expandField_eq_ok_iff {field : String} {value value' : Option (List Char)} :
    Stated.expandField env field value = .ok value' ↔
      Option.Rel (expandVariables env · = .ok ·) value value' := by
  cases value with
  | none =>
    constructor
    · rintro ⟨⟩
      exact .none
    · rintro ⟨⟩
      rfl
  | some cs =>
    rw [Stated.expandField, map_eq_ok_iff]
    constructor
    · rintro ⟨ds, hds, rfl⟩
      exact .some (mapError_eq_ok_iff.mp hds)
    · rintro ⟨⟩
      exact ⟨_, mapError_eq_ok_iff.mpr ‹_›, rfl⟩

theorem expand_eq_ok_iff : raw.expand env = .ok s ↔ Expanded env raw s := by
  simp only [Stated.expand, bind_eq_ok_iff, expandField_eq_ok_iff]
  constructor
  · rintro ⟨host, hhost, sourceDir, hsource, outDir, hout, iconsDir, hicons, output, houtput, hs⟩
    obtain rfl := Except.ok.inj hs
    exact ⟨hhost, hsource, hout, hicons, houtput, rfl⟩
  · intro h
    exact ⟨_, h.host, _, h.sourceDir, _, h.outDir, _, h.iconsDir, _, h.output,
      congrArg Except.ok h.others.symm⟩

theorem validate_eq_ok_iff {c' : Configuration} :
    c.validate = .ok c' ↔ c.problem? = none ∧ c = c' := by
  unfold Configuration.validate
  cases c.problem? with
  | none => simp
  | some e => simp

theorem validate_of_problem {e : ValidationError} (h : c.problem? = some e) :
    c.validate = .error (.invalid e) := by
  rw [Configuration.validate, h]

theorem problem?_defaults (dir : Path) : (defaults dir).problem? = none := by
  rfl

theorem ofFile_of_parse {source : List Char} (hread : t.readText file = .ok source)
    (hparse : Stated.parse? source = some raw) :
    ofFile t env file = (raw.expand env).mapError .unsetVariable >>= fun s =>
      Configuration.validate { s.resolve (baseOf t file) with configPath := some file } := by
  have hsource : (t.readText file).mapError ConfigError.unreadable = .ok source :=
    mapError_eq_ok_iff.mpr hread
  simp only [ofFile, hsource, hparse, bind, Except.bind]

theorem ofFile_eq_ok_iff : ofFile t env file = .ok c ↔ ∃ s dir, States t env (some file) s dir ∧
    c = { s.resolve dir with configPath := some file } ∧ c.problem? = none := by
  constructor
  · intro h
    obtain ⟨source, hread, h⟩ := bind_eq_ok_iff.mp h
    rw [mapError_eq_ok_iff] at hread
    cases hparse : Stated.parse? source with
    | none =>
      rw [hparse] at h
      cases h
    | some raw =>
      rw [hparse, bind_eq_ok_iff] at h
      obtain ⟨s, hexpand, h⟩ := h
      obtain ⟨hproblem, rfl⟩ := validate_eq_ok_iff.mp h
      exact ⟨s, _, .file hread hparse (expand_eq_ok_iff.mp (mapError_eq_ok_iff.mp hexpand)), rfl,
        hproblem⟩
  · rintro ⟨s, dir, hstates, rfl, hproblem⟩
    cases hstates with
    | file hread hparse hexpanded =>
      rw [ofFile_of_parse hread hparse, bind_eq_ok_iff]
      exact ⟨s, mapError_eq_ok_iff.mpr (expand_eq_ok_iff.mpr hexpanded),
        validate_eq_ok_iff.mpr ⟨hproblem, rfl⟩⟩

theorem used_none_iff : Used t none used ↔ discover? t = used := by
  rw [discover?, List.find?_map]
  constructor
  · intro h
    cases h with
    | nearest l hl hfile hnearest =>
      have hfound : (upwards t.here).find?
          (t.pathExists ∘ fun l => (Path.ofLocation l).join fileName) = some l :=
        find?_upwards.mpr ⟨hl, hfile, hnearest⟩
      rw [hfound, Option.map_some]
    | nowhere hnone =>
      rw [Option.map_eq_none_iff]
      cases hfind : (upwards t.here).find? _ with
      | none => rfl
      | some l =>
        obtain ⟨hl, hfile, -⟩ := find?_upwards.mp hfind
        exact absurd hfile (hnone l hl)
  · rintro rfl
    cases hfind : (upwards t.here).find? _ with
    | none => exact .nowhere fun l hl => List.find?_eq_none.mp hfind l (mem_upwards hl)
    | some l =>
      obtain ⟨hl, hfile, hnearest⟩ := find?_upwards.mp hfind
      exact .nearest l hl hfile hnearest

theorem base_of_used (h : Used t named (some file)) : base t env named = ofFile t env file := by
  cases named with
  | some named =>
    cases h with
    | named file hexists => rw [base, if_pos hexists]
  | none => rw [base, used_none_iff.mp h]

theorem base_eq_ok_iff : base t env named = .ok c ↔ ∃ used s dir, Used t named used ∧
    States t env used s dir ∧ c = { s.resolve dir with configPath := used } ∧
      c.problem? = none := by
  constructor
  · intro h
    cases named with
    | some file =>
      by_cases hexists : t.pathExists file = true
      · rw [base, if_pos hexists] at h
        obtain ⟨s, dir, hstates, hc⟩ := ofFile_eq_ok_iff.mp h
        exact ⟨some file, s, dir, .named file hexists, hstates, hc⟩
      · rw [base, if_neg hexists] at h
        cases h
    | none =>
      rw [base] at h
      cases hfound : discover? t with
      | some file =>
        rw [hfound] at h
        obtain ⟨s, dir, hstates, hc⟩ := ofFile_eq_ok_iff.mp h
        exact ⟨some file, s, dir, used_none_iff.mpr hfound, hstates, hc⟩
      | none =>
        rw [hfound] at h
        obtain rfl := Except.ok.inj h
        exact ⟨none, _, _, used_none_iff.mpr hfound, .nothing, rfl, problem?_defaults _⟩
  · rintro ⟨used, s, dir, hused, hstates, rfl, hproblem⟩
    cases used with
    | some file =>
      rw [base_of_used hused]
      exact ofFile_eq_ok_iff.mpr ⟨s, dir, hstates, rfl, hproblem⟩
    | none =>
      cases hused with
      | nowhere hnone =>
        rw [base, used_none_iff.mp (.nowhere hnone)]
        cases hstates
        rfl

def DirectoryOf (t : FileTree) (used : Option Path) (dir : Path) : Prop :=
  match used with
  | none => dir = .ofLocation t.here
  | some file => dir.isAbsolute = true ∧
    ∃ c, ((Path.ofLocation t.here).join file).components = dir.components ++ [c]

theorem components_baseOf {parent : Path} (h : file.parent? = some parent) :
    (baseOf t file).components = ((Path.ofLocation t.here).join parent).components := by
  unfold baseOf
  rw [h]
  by_cases hparent : parent.chars = []
  · obtain rfl : parent = ⟨[]⟩ := congrArg Path.mk hparent
    exact (Path.components_join_nil (Path.chars_ofLocation_ne_nil _)).symm
  · simp only [if_neg hparent]
    exact Path.components_absolute _ _

theorem directoryOf_states (h : States t env used s dir) : DirectoryOf t used dir := by
  cases h with
  | nothing => rfl
  | @file file _ _ _ hread =>
    obtain ⟨l, hfind⟩ := readText_eq_ok_iff.mp hread
    obtain ⟨outer, segment, hsegments⟩ :=
      (List.eq_nil_or_concat' file.segments).resolve_left (Path.segments_ne_nil file)
    obtain ⟨parent, c, hparent, hcomponents⟩ := Path.components_join_parent t.here
      (not_silent_of_find hfind nofun hsegments) hsegments (chars_ne_nil_of_find hfind)
    have hbase := components_baseOf (t := t) hparent
    refine ⟨?_, c, ?_⟩
    · rw [Path.isAbsolute_eq_of_components hbase, Path.isAbsolute_join_ofLocation]
    · rw [hcomponents, hbase]

theorem load_eq_ok_iff {overrides : Option Overrides} : load t env named overrides = .ok c ↔
    ∃ own, base t env named = .ok own ∧ c = (overrides.getD .none).apply own ∧
      c.problem? = none := by
  rw [load, bind_eq_ok_iff]
  refine exists_congr fun own => and_congr_right fun hbase => ?_
  cases overrides with
  | none =>
    obtain ⟨_, _, _, _, _, _, hproblem⟩ := base_eq_ok_iff.mp hbase
    constructor
    · intro h
      obtain rfl := Except.ok.inj h
      exact ⟨rfl, hproblem⟩
    · rintro ⟨rfl, -⟩
      rfl
  | some o =>
    rw [validate_eq_ok_iff]
    constructor
    · rintro ⟨hproblem, rfl⟩
      exact ⟨rfl, hproblem⟩
    · rintro ⟨rfl, hproblem⟩
      exact ⟨hproblem, rfl⟩

theorem load_of_base_error {e : ConfigError} (h : base t env named = .error e)
    (overrides : Option Overrides) : load t env named overrides = .error e := by
  rw [load, h]
  rfl

/-- What is loaded lies over the file that is used, or over nothing but the defaults, and neither what
the file comes to nor the outcome has a problem. A file with a variable that is not set, or with a
problem of its own, is an error whatever the caller sets. -/
theorem load_layered (t : FileTree) (env : Environment) (named : Option Path)
    (overrides : Option Overrides) :
    (∀ c, load t env named overrides = .ok c ↔ ∃ used s dir own, Used t named used ∧
      States t env used s dir ∧ DirectoryOf t used dir ∧
      Layered .none s dir used own ∧ own.problem? = none ∧
      Layered (overrides.getD .none) s dir used c ∧ c.problem? = none) ∧
    (∀ file source raw, Used t named (some file) → t.readText file = .ok source →
      Stated.parse? source = some raw →
      ((∀ s, ¬ Expanded env raw s) →
        ∃ cause, load t env named overrides = .error (.unsetVariable cause)) ∧
      ∀ s own e, Expanded env raw s → Layered .none s (baseOf t file) (some file) own →
        own.problem? = some e → load t env named overrides = .error (.invalid e)) := by
  refine ⟨fun c => ?_, fun file source raw hused hread hparse => ⟨fun hnone => ?_, ?_⟩⟩
  · simp only [load_eq_ok_iff, base_eq_ok_iff, layered_iff]
    constructor
    · rintro ⟨own, ⟨used, s, dir, hused, hstates, rfl, hown⟩, rfl, hproblem⟩
      exact ⟨used, s, dir, _, hused, hstates, directoryOf_states hstates, rfl, hown, rfl, hproblem⟩
    · rintro ⟨used, s, dir, own, hused, hstates, -, rfl, hown, rfl, hproblem⟩
      exact ⟨_, ⟨used, s, dir, hused, hstates, rfl, hown⟩, rfl, hproblem⟩
  · cases hexpand : raw.expand env with
    | ok s => exact absurd (expand_eq_ok_iff.mp hexpand) (hnone s)
    | error cause =>
      refine ⟨cause, load_of_base_error ?_ overrides⟩
      rw [base_of_used hused, ofFile_of_parse hread hparse, hexpand]
      rfl
  · intro s own e hexpanded hown hproblem
    obtain rfl := layered_iff.mp hown
    apply load_of_base_error
    rw [base_of_used hused, ofFile_of_parse hread hparse, expand_eq_ok_iff.mpr hexpanded]
    exact validate_of_problem hproblem

section above

def aboveText : List Char :=
  "[server]\nhost = \"$\x7bH\x7d\"\nport = 80\n[project]\nsource_dir = \"web\"\n".toList

def aboveTree : FileTree :=
  ⟨[(["p".toList], .directory), (["p".toList, "weft.toml".toList], .file (.text aboveText)),
    (["p".toList, "a".toList], .directory)], ["p".toList, "a".toList]⟩

def aboveEnvironment : Environment := fun _ => some (.text "h".toList)

def aboveStated (host : String) : Stated :=
  { Stated.nothing with
    host := some host.toList, port := some 80, sourceDir := some "web".toList }

theorem parse?_above : Stated.parse? aboveText = some (aboveStated "$\x7bH\x7d") := by
  decide +kernel

theorem hasFile_above : HasFile aboveTree ["p".toList] := by
  unfold HasFile
  cbv

theorem not_hasFile_above : ¬ HasFile aboveTree (["p".toList] ++ ["a".toList]) := by
  unfold HasFile
  cbv
  simp

theorem used_above : Used aboveTree none (some (.ofString "/p/weft.toml")) := by
  apply Used.nearest ["p".toList] ⟨["a".toList], rfl⟩ hasFile_above
  intro k hk hk' hfile
  change k <+: ["p".toList] ++ ["a".toList] at hk'
  rcases List.prefix_concat_iff.mp hk' with rfl | hle
  · exact absurd hfile not_hasFile_above
  · exact hle.eq_of_length_le hk.length_le

theorem readText_above :
    aboveTree.readText (.ofString "/p/weft.toml") = .ok aboveText := by
  cbv

theorem states_above : States aboveTree aboveEnvironment (some (.ofString "/p/weft.toml"))
    (aboveStated "h") (.ofString "/p") := by
  have hhost : expandVariables aboveEnvironment "$\x7bH\x7d".toList = .ok "h".toList := by cbv
  have hsource : expandVariables aboveEnvironment "web".toList = .ok "web".toList := by cbv
  have hexpanded : Expanded aboveEnvironment (aboveStated "$\x7bH\x7d") (aboveStated "h") :=
    ⟨.some hhost, .some hsource, .none, .none, .none, rfl⟩
  have hbase : baseOf aboveTree (.ofString "/p/weft.toml") = .ofString "/p" := by cbv
  rw [← hbase]
  exact .file readText_above parse?_above hexpanded

theorem load_above : load aboveTree aboveEnvironment none
    (some { Overrides.none with port := some 81 }) = .ok
      { server := ⟨"h".toList, 81⟩
        project := ⟨.ofString "/p/web", "components".toList, .ofString "/p/dist", .ofString "/p/.weft"⟩
        sprite := ⟨.ofString "/p/src/icons", .ofString "/p/.weft/sprite.svg", "/sprite.svg".toList,
          ["data-name".toList]⟩
        liveReload := ⟨true, none⟩
        configPath := some (.ofString "/p/weft.toml") } :=
  ((load_layered aboveTree aboveEnvironment none _).1 _).mpr
    ⟨_, _, _, _, used_above, states_above, directoryOf_states states_above,
      layered_apply .none _ _ _, by decide, layered_iff.mpr (by decide), by decide⟩

end above

end StaticSite.Config
