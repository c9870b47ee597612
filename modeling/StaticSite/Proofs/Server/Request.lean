import Mathlib
import StaticSite.Proofs.Path.Join
import StaticSite.Server.Request

namespace StaticSite.Server
open StaticSite.FileTree StaticSite.Path StaticSite.Text

variable {t : FileTree} {source file rel : Path} {url text : List Char}

def askedNames (t : FileTree) (source : Path) (text : List Char) : Location :=
  if text.getLast? = some '/' ∨ t.isDirectory (source.join ⟨joinSlash (namesIn text)⟩) = true then
    namesIn text ++ ["index.html".toList]
  else namesIn text

theorem mem_namesIn_iff {name : List Char} :
    name ∈ namesIn text ↔ name ∈ splitSlash text ∧ name ≠ [] := by
  simp [namesIn]

theorem leadsDown_iff {name : List Char} : leadsDown name = true ↔
    ¬ (name = ['.'] ∨ name = ['.', '.'] ∨ '\\' ∈ name) := by
  simp [leadsDown]

theorem isName_of_mem_namesIn {name : List Char} (h : name ∈ namesIn text)
    (hdown : leadsDown name = true) : IsName name := by
  obtain ⟨hsplit, hne⟩ := mem_namesIn_iff.mp h
  simp only [leadsDown_iff, not_or] at hdown
  exact ⟨hne, slash_notMem_of_mem_splitSlash hsplit, hdown.1, hdown.2.1⟩

theorem fileOf?_eq_some_iff : fileOf? t source url = some file ↔
    ∃ text, Percent.decode? url = some text ∧ (∀ name ∈ namesIn text, leadsDown name = true) ∧
      file = source.join ⟨joinSlash (askedNames t source text)⟩ := by
  rw [fileOf?]
  cases Percent.decode? url with
  | none => simp
  | some text =>
    have hindex (hdown : ∀ name ∈ namesIn text, leadsDown name = true) :
        (source.join ⟨joinSlash (namesIn text)⟩).join indexFile =
          source.join ⟨joinSlash (namesIn text ++ ["index.html".toList])⟩ :=
      join_join source (fun name h => isName_of_mem_namesIn h (hdown name h)) (by decide)
    simp only [Option.some.injEq, exists_eq_left', List.all_eq_true]
    split
    · rename_i hdown
      rw [and_iff_right hdown, askedNames]
      split
      · rw [hindex hdown, Option.some.injEq, eq_comm]
      · rw [Option.some.injEq, eq_comm]
    · rename_i hdown
      exact iff_of_false nofun fun h => hdown h.1

theorem fileOf?_eq_none_iff : fileOf? t source url = none ↔
    ofUtf8? (Percent.bytes url) = none ∨ ∃ text, Percent.decode? url = some text ∧
      ∃ s ∈ splitSlash text, s ≠ [] ∧ (s = ['.'] ∨ s = ['.', '.'] ∨ '\\' ∈ s) := by
  change _ ↔ Percent.decode? url = none ∨ _
  rw [Option.eq_none_iff_forall_ne_some]
  simp only [ne_eq, fileOf?_eq_some_iff, mem_namesIn_iff, leadsDown_iff]
  cases Percent.decode? url with
  | none => simp
  | some text =>
    simp only [Option.some.injEq, exists_eq_left', reduceCtorEq, false_or]
    constructor
    · intro h
      by_contra hdown
      refine h _ ⟨?_, rfl⟩
      rintro s ⟨hs, hne⟩ hrefused
      exact hdown ⟨s, hs, hne, hrefused⟩
    · rintro ⟨s, hs, hne, hrefused⟩ file ⟨hdown, -⟩
      exact hdown s ⟨hs, hne⟩ hrefused

theorem isName_of_mem_askedNames (h : ∀ name ∈ namesIn text, IsName name) :
    ∀ name ∈ askedNames t source text, IsName name := by
  rw [askedNames]
  split
  · simpa [or_imp, forall_and] using ⟨h, by decide⟩
  · exact h

theorem components_fileOf? (htext : Percent.decode? url = some text)
    (h : fileOf? t source url = some file) : (∀ name ∈ namesIn text, IsName name) ∧
      file.components = source.components ++ (askedNames t source text).map .normal := by
  obtain ⟨_, htext', hdown, rfl⟩ := fileOf?_eq_some_iff.mp h
  obtain rfl := Option.some.inj (htext.symm.trans htext')
  have hnames : ∀ name ∈ namesIn text, IsName name := fun name hname =>
    isName_of_mem_namesIn hname (hdown name hname)
  exact ⟨hnames, components_join_normal source (components_joinSlash (isName_of_mem_askedNames hnames))⟩

theorem startsWith_of_fileOf? (h : fileOf? t source url = some file) :
    (t.normalize file).startsWith (t.normalize source) = true := by
  obtain ⟨text, htext, -, -⟩ := fileOf?_eq_some_iff.mp h
  exact startsWith_normalize t.here (components_fileOf? htext h).2

theorem decode?_cons_slash (text : List Char) :
    Percent.decode? ('/' :: Percent.encode text) = some ('/' :: text) :=
  Percent.decode?_encode ('/' :: text)

theorem namesIn_cons_slash (text : List Char) : namesIn ('/' :: text) = namesIn text := by
  simp [namesIn, splitSlash]

theorem namesIn_chars {names : Location} (h : rel.components = names.map .normal)
    (hdot : ['.'] ∉ rel.segments) : namesIn rel.chars = names := by
  have hlead := lead_eq_nil h
  have hspoken : rel.segments.filter (· ≠ []) = rel.segments.filter (!isSilent ·) := by
    apply List.filter_congr
    intro s hs
    have hne : s ≠ ['.'] := ne_of_mem_of_not_mem hs hdot
    simp [isSilent, hne]
  rw [components, hlead, List.nil_append] at h
  rw [namesIn, ← segments_of_relative (isAbsolute_of_lead hlead), hspoken,
    ← map_segment_filterMap, h, List.map_map]
  exact List.map_id _

theorem getLast?_of_isFile {p : Path} (h : t.isFile p = true) : p.chars.getLast? ≠ some '/' := by
  intro hslash
  obtain ⟨l, content, hfind⟩ := isFile_iff.mp h
  obtain ⟨outer, houter⟩ := List.getLast?_eq_some_iff.mp (getLast?_segments hslash)
  cases not_silent_of_find hfind nofun houter

theorem getLast?_of_join (h : t.isFile (source.join rel) = true) (hrelative : rel.isAbsolute = false) :
    rel.chars ≠ [] ∧ rel.chars.getLast? ≠ some '/' := by
  have hslash := getLast?_of_isFile h
  obtain ⟨front, hfront, hjoin⟩ := exists_join_eq source
  rw [hjoin _ hrelative] at h hslash
  have hne : rel.chars ≠ [] := by
    intro hnil
    rw [hnil, List.append_nil] at h hslash
    rcases hfront with rfl | hend
    · obtain ⟨l, content, hfind⟩ := isFile_iff.mp h
      exact find_empty hfind
    · exact hslash hend
  rw [List.getLast?_append_of_ne_nil _ hne] at hslash
  exact ⟨hne, hslash⟩

theorem find_join_names {names : Location} {l : Location} {n : Node}
    (hrel : rel.components = names.map .normal) (hdot : ['.'] ∉ rel.segments) (hnil : names ≠ [])
    (h : t.find (source.join rel) = .ok (l, n)) :
    t.find (source.join ⟨joinSlash names⟩) = .ok (l, n) := by
  have hnames := isName_of_components hrel
  have hrelative := isAbsolute_of_lead (lead_eq_nil hrel)
  obtain ⟨outer, houter⟩ := exists_segments_join source hnil hnames
  obtain ⟨-, -, hlong, -⟩ := locate_eq_ok_iff.mp (find_eq_ok_iff.mp h).1
  apply find_of_components h
  · rw [components_join_normal source hrel, components_join_normal source (components_joinSlash hnames)]
  · intro s hs hsilent
    rw [houter] at hs
    exact absurd hsilent (not_silent_of_getLast? hnil hnames s hs)
  · refine Nat.le_trans (byteCount_mono ?_) hlong
    obtain ⟨front, -, hjoin⟩ := exists_join_eq source
    rw [hjoin _ (isAbsolute_joinSlash hnames), hjoin _ hrelative, ← namesIn_chars hrel hdot]
    apply List.Sublist.append_left
    conv_rhs => rw [← joinSlash_splitSlash rel.chars]
    exact sublist_joinSlash List.filter_sublist

theorem fileOf?_of_isFile {names : Location} (hrel : rel.components = names.map .normal)
    (hdot : ['.'] ∉ rel.segments) (hslash : '\\' ∉ rel.chars)
    (hfile : t.isFile (source.join rel) = true)
    (htext : Percent.decode? url = some rel.chars ∨ Percent.decode? url = some ('/' :: rel.chars)) :
    ∃ file, fileOf? t source url = some file ∧ file.same (source.join rel) = true ∧
      t.find file = t.find (source.join rel) := by
  have hnames := isName_of_components hrel
  have hin := namesIn_chars hrel hdot
  obtain ⟨hne, hend⟩ := getLast?_of_join hfile (isAbsolute_of_lead (lead_eq_nil hrel))
  obtain ⟨l, content, hfind⟩ := isFile_iff.mp hfile
  have hnil : names ≠ [] := by
    rintro rfl
    exact components_ne_nil hne hrel
  have hfound := find_join_names hrel hdot hnil hfind
  have hdirectory : t.isDirectory (source.join ⟨joinSlash names⟩) = false := by
    simp [isDirectory, hfound]
  obtain ⟨text, hdecode, htextNames, hlast⟩ : ∃ text, Percent.decode? url = some text ∧
      namesIn text = names ∧ text.getLast? ≠ some '/' := by
    rcases htext with h | h
    · exact ⟨_, h, hin, hend⟩
    · refine ⟨_, h, (namesIn_cons_slash _).trans hin, ?_⟩
      rwa [List.getLast?_cons_of_ne_nil hne]
  have hasked : askedNames t source text = names := by
    rw [askedNames, htextNames, if_neg]
    simp [hlast, hdirectory]
  refine ⟨_, fileOf?_eq_some_iff.mpr ⟨text, hdecode, ?_, rfl⟩, ?_, ?_⟩
  · rw [htextNames]
    intro name hname
    obtain ⟨-, -, hdot, hparent⟩ := hnames name hname
    rw [leadsDown_iff]
    simp only [not_or]
    refine ⟨hdot, hparent, fun hmem => hslash ?_⟩
    rw [mem_chars_iff (by decide) (by decide), hrel]
    exact ⟨name, List.mem_map_of_mem hname, hmem⟩
  · rw [hasked, same, decide_eq_true_eq, components_join_normal source hrel,
      components_join_normal source (components_joinSlash hnames)]
  · rw [hasked, hfound, hfind]

/-- A path is refused exactly if it is no text or one of its segments does not lead down. Any other
means the file at its names below the source directory, an index where a directory is asked for, and
that is inside the source directory however the paths are spelled. All files below it can be asked
for, except through `.` segments, which say nothing in a path but are refused in a URL. -/
theorem fileOf?_exact (t : FileTree) (source : Path) (url : List Char) :
    (fileOf? t source url = none ↔ ofUtf8? (Percent.bytes url) = none ∨
      ∃ text, Percent.decode? url = some text ∧
        ∃ s ∈ splitSlash text, s ≠ [] ∧ (s = ['.'] ∨ s = ['.', '.'] ∨ '\\' ∈ s)) ∧
    (∀ text file, Percent.decode? url = some text → fileOf? t source url = some file →
      (∀ name ∈ namesIn text, IsName name) ∧
        file = source.join ⟨joinSlash (askedNames t source text)⟩ ∧
        file.components = source.components ++ (askedNames t source text).map .normal) ∧
    (∀ file, fileOf? t source url = some file →
      (t.normalize file).startsWith (t.normalize source) = true) ∧
    ∀ (rel : Path) (names : Location), rel.components = names.map .normal →
      ['.'] ∉ rel.segments → '\\' ∉ rel.chars → t.isFile (source.join rel) = true →
      url = Percent.encode rel.chars ∨ url = '/' :: Percent.encode rel.chars →
      ∃ file, fileOf? t source url = some file ∧ file.same (source.join rel) = true ∧
        t.find file = t.find (source.join rel) := by
  refine ⟨fileOf?_eq_none_iff, ?_, fun _ => startsWith_of_fileOf?, ?_⟩
  · intro text file htext h
    obtain ⟨hnames, hcomponents⟩ := components_fileOf? htext h
    obtain ⟨_, htext', -, hfile⟩ := fileOf?_eq_some_iff.mp h
    obtain rfl := Option.some.inj (htext.symm.trans htext')
    exact ⟨hnames, hfile, hcomponents⟩
  · intro rel names hrel hdot hslash hfile hurl
    apply fileOf?_of_isFile hrel hdot hslash hfile
    rcases hurl with rfl | rfl
    · exact .inl (Percent.decode?_encode _)
    · exact .inr (decode?_cons_slash _)

def nestedSite : FileTree :=
  ⟨[(["s".toList], .directory), (["s".toList, "a b".toList], .directory),
    (["s".toList, "a b".toList, "é.html".toList], .file (.text "page".toList))], []⟩

theorem isFile_nestedSite :
    nestedSite.isFile ((Path.ofString "/s").join (.ofString "a b//é.html")) = true := by
  cbv

theorem fileOf?_nested :
    let source := Path.ofString "/s"
    let rel := Path.ofString "a b//é.html"
    let names := ["a b".toList, "é.html".toList]
    let url := '/' :: Percent.encode rel.chars
    rel.components = names.map .normal ∧ ['.'] ∉ rel.segments ∧ '\\' ∉ rel.chars ∧
      nestedSite.isFile (source.join rel) = true ∧ Percent.decode? url = some ('/' :: rel.chars) ∧
      ∃ file, fileOf? nestedSite source url = some file ∧ file.same (source.join rel) = true ∧
        file.components =
          source.components ++ (askedNames nestedSite source ('/' :: rel.chars)).map .normal ∧
        (nestedSite.normalize file).startsWith (nestedSite.normalize source) = true := by
  intro source rel names url
  have hrel : rel.components = names.map .normal := by decide
  have hdot : ['.'] ∉ rel.segments := by decide
  have hslash : '\\' ∉ rel.chars := by decide
  have hfile : nestedSite.isFile (source.join rel) = true := isFile_nestedSite
  have htext : Percent.decode? url = some ('/' :: rel.chars) := decode?_cons_slash rel.chars
  obtain ⟨-, hnames, hinside, hasked⟩ := fileOf?_exact nestedSite source url
  obtain ⟨file, h, hsame, -⟩ := hasked rel names hrel hdot hslash hfile (.inr rfl)
  exact ⟨hrel, hdot, hslash, hfile, htext, file, h, hsame, (hnames _ _ htext h).2.2, hinside _ h⟩

end StaticSite.Server
