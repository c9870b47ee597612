import Mathlib
import StaticSite.Page.Expansion
import StaticSite.Proofs.FileTree.Find
import StaticSite.Proofs.Page.Marker
import StaticSite.Proofs.Path.Location

namespace StaticSite.Page
open StaticSite.Text Relation

variable {t : FileTree} {r : Resolver}

def Imports (t : FileTree) (r : Resolver) (f g : Path) : Prop :=
  ∃ text, t.readText f = .ok text ∧ ∃ d ∈ directives text, r.target d.path (baseOf f) = g

def Readable (t : FileTree) (f : Path) : Prop :=
  ∃ text, t.readText f = .ok text

theorem mem_located_iff {offset : Nat} {ps : List Piece} {path : List Char} :
    (∃ d ∈ located offset ps, d.path = path) ↔ ∃ marker, .directive marker path ∈ ps := by
  induction ps generalizing offset with
  | nil => simp [located]
  | cons p ps ih =>
    cases p with
    | literal c => simp [located, ih]
    | directive marker other =>
      simp only [located, List.mem_cons, exists_eq_or_imp, ih, Piece.directive.injEq]
      constructor
      · rintro (rfl | ⟨m, hm⟩)
        · exact ⟨marker, Or.inl ⟨rfl, rfl⟩⟩
        · exact ⟨m, Or.inr hm⟩
      · rintro ⟨m, ⟨rfl, rfl⟩ | hm⟩
        · exact Or.inl rfl
        · exact Or.inr ⟨m, hm⟩

theorem mem_directives_iff {text path : List Char} :
    (∃ d ∈ directives text, d.path = path) ↔ ∃ marker, .directive marker path ∈ pieces text :=
  mem_located_iff

theorem documents_read_eq_some_iff {f : Path} {text : List Char} :
    (documents t).read f = some text ↔ t.readText f = .ok text := by
  simp only [documents]
  cases t.readText f <;> simp [Except.toOption]

theorem imports_of_mem_pieces {f : Path} {text marker path : List Char}
    (htext : t.readText f = .ok text) (h : .directive marker path ∈ pieces text) :
    Imports t r f (r.target path (baseOf f)) := by
  obtain ⟨d, hd, rfl⟩ := mem_directives_iff.mpr ⟨marker, h⟩
  exact ⟨text, htext, d, hd, rfl⟩

theorem exists_piece_of_imports {f g : Path} {text : List Char} (htext : t.readText f = .ok text)
    (h : Imports t r f g) :
    ∃ marker path, .directive marker path ∈ pieces text ∧ r.target path (baseOf f) = g := by
  obtain ⟨other, hother, d, hd, hg⟩ := h
  rw [htext] at hother
  cases hother
  obtain ⟨marker, hm⟩ := mem_directives_iff.mp ⟨d, hd, rfl⟩
  exact ⟨marker, d.path, hm, hg⟩

theorem paths_located (offset : Nat) (ps : List Piece) :
    (located offset ps).map (·.path) = (located 0 ps).map (·.path) := by
  induction ps generalizing offset with
  | nil => rfl
  | cons p ps ih =>
    cases p with
    | literal c => rw [located, located, ih, ih (0 + _)]
    | directive marker path =>
      rw [located, located, List.map_cons, List.map_cons, ih, ih (0 + _)]

theorem paths_directives_cons {cs path rest : List Char} (h : directive? cs = some (path, rest)) :
    (directives cs).map (·.path) = path :: (directives rest).map (·.path) := by
  obtain ⟨marker, hmarker, rfl⟩ := directive?_eq_some_iff.mp h
  rw [directives, pieces_marker hmarker, located, List.map_cons, paths_located, directives]

theorem imports_iff {f g : Path} {text : List Char} (htext : t.readText f = .ok text) :
    Imports t r f g ↔
      ∃ path ∈ (directives text).map (·.path), r.target path (baseOf f) = g := by
  constructor
  · rintro ⟨other, hother, d, hd, htarget⟩
    rw [htext] at hother
    obtain rfl := Except.ok.inj hother
    exact ⟨d.path, List.mem_map_of_mem hd, htarget⟩
  · rintro ⟨path, hpath, htarget⟩
    obtain ⟨d, hd, rfl⟩ := List.mem_map.mp hpath
    exact ⟨text, htext, d, hd, htarget⟩

theorem imports_eq {f g : Path} {text path : List Char} (htext : t.readText f = .ok text)
    (hdirective : directive? text = some (path, [])) (h : Imports t r f g) :
    g = r.target path (baseOf f) := by
  obtain ⟨other, hother, rfl⟩ := (imports_iff htext).mp h
  rw [paths_directives_cons hdirective, directives, pieces_nil] at hother
  rw [List.mem_singleton.mp hother]

theorem exists_target_eq (r : Resolver) (path : List Char) (base : Path) :
    ∃ p : Path, r.target path base = p.normalize r.here := by
  unfold Resolver.target
  split
  · exact ⟨_, rfl⟩
  · exact ⟨_, rfl⟩

theorem isNormal_of_imports {f g : Path} (h : Imports t r f g) : ∃ p : Path, g = p.normalize r.here := by
  obtain ⟨_, _, d, _, rfl⟩ := h
  exact exists_target_eq r d.path (baseOf f)

theorem diagnostics_expandPieces_eq_nil_iff {d : Documents} {base : Path} {ancestry : List Path}
    {ps : List Piece} :
    (expandPieces d r base ancestry ps).diagnostics = [] ↔
      ∀ marker path, .directive marker path ∈ ps →
        isAncestor ancestry (r.target path base) = false ∧
        ∃ text, d.read (r.target path base) = some text ∧
          (expandPieces d r ((r.target path base).parent?.getD base)
            (r.target path base :: ancestry) (pieces text)).diagnostics = [] := by
  induction ps with
  | nil => simp [expandPieces]
  | cons p ps ih =>
    cases p with
    | literal c =>
      rw [expandPieces]
      change [] ++ (expandPieces d r base ancestry ps).diagnostics = [] ↔ _
      simp [ih]
    | directive marker path =>
      have hsplit (a b : Expansion) : (a ++ b).diagnostics = [] ↔
          a.diagnostics = [] ∧ b.diagnostics = [] := List.append_eq_nil_iff
      rw [expandPieces, hsplit, ih]
      simp only [List.mem_cons, Piece.directive.injEq]
      constructor
      · rintro ⟨hfirst, hothers⟩ m q (⟨rfl, rfl⟩ | hm)
        · split at hfirst
          · simp [Expansion.ofProblem] at hfirst
          · rename_i hnew
            split at hfirst
            · simp [Expansion.ofProblem] at hfirst
            · rename_i text hread
              exact ⟨Bool.eq_false_iff.mpr hnew, text, hread, hfirst⟩
        · exact hothers m q hm
      · intro h
        refine ⟨?_, fun m q hm => h m q (Or.inr hm)⟩
        obtain ⟨hnew, text, hread, hclean⟩ := h marker path (Or.inl ⟨rfl, rfl⟩)
        rw [dif_neg (Bool.eq_false_iff.mp hnew)]
        split
        · rename_i hnone
          simp [hread] at hnone
        · rename_i other hother
          rw [hread] at hother
          cases hother
          exact hclean

theorem exists_location_of_readable {here : Location} (hhere : ∀ name ∈ here, Path.IsName name)
    {p : Path} (h : Readable t (p.normalize here)) :
    ∃ l : Location, l ≠ [] ∧ (∀ name ∈ l, Path.IsName name) ∧
      p.normalize here = Path.ofLocation l := by
  obtain ⟨text, htext⟩ := h
  obtain ⟨l, hl⟩ := FileTree.readText_eq_ok_iff.mp htext
  by_cases hp : p.chars = []
  · obtain ⟨cs⟩ := p
    subst hp
    exact absurd hl FileTree.find_empty
  · have hspelled : p.normalize here = Path.ofLocation (p.location here) := if_neg hp
    refine ⟨p.location here, ?_, Path.isName_of_mem_location hhere p, hspelled⟩
    intro hroot
    rw [hspelled, hroot] at hl
    cases (FileTree.find_root hl).2

theorem parent?_of_readable {here : Location} (hhere : ∀ name ∈ here, Path.IsName name) {p : Path}
    (h : Readable t (p.normalize here)) (base : Path) :
    (p.normalize here).parent?.getD base = baseOf (p.normalize here) := by
  obtain ⟨l, hl, hnames, hspelled⟩ := exists_location_of_readable hhere h
  rw [baseOf, hspelled, Path.parent?_ofLocation hl hnames]
  rfl

theorem normalize_baseOf {here : Location} (hhere : ∀ name ∈ here, Path.IsName name) {p : Path}
    (h : Readable t (p.normalize here)) :
    (baseOf (p.normalize here)).normalize here = baseOf (p.normalize here) := by
  obtain ⟨l, hl, hnames, hspelled⟩ := exists_location_of_readable hhere h
  rw [baseOf, hspelled, Path.parent?_ofLocation hl hnames, Option.getD_some]
  exact Path.normalize_ofLocation here fun x hx => hnames x (List.mem_of_mem_dropLast hx)

theorem clean_pieces_iff (hhere : ∀ name ∈ r.here, Path.IsName name) {f : Path} {text : List Char}
    {ancestry : List Path} (htext : t.readText f = .ok text) :
    (expandPieces (documents t) r (baseOf f) ancestry (pieces text)).diagnostics = [] ↔
      ∀ g, Imports t r f g → isAncestor ancestry g = false ∧ ∃ other, t.readText g = .ok other ∧
        (expandPieces (documents t) r (baseOf g) (g :: ancestry) (pieces other)).diagnostics = [] := by
  have hbase {g : Path} {other : List Char} (hg : Imports t r f g) (hother : t.readText g = .ok other) :
      g.parent?.getD (baseOf f) = baseOf g := by
    obtain ⟨p, rfl⟩ := isNormal_of_imports hg
    exact parent?_of_readable hhere ⟨other, hother⟩ (baseOf f)
  rw [diagnostics_expandPieces_eq_nil_iff]
  constructor
  · intro h g hg
    obtain ⟨marker, path, hpiece, rfl⟩ := exists_piece_of_imports htext hg
    obtain ⟨hnew, other, hread, hclean⟩ := h marker path hpiece
    have hother := documents_read_eq_some_iff.mp hread
    rw [hbase hg hother] at hclean
    exact ⟨hnew, other, hother, hclean⟩
  · intro h marker path hpiece
    have hg := imports_of_mem_pieces (r := r) htext hpiece
    obtain ⟨hnew, other, hother, hclean⟩ := h _ hg
    refine ⟨hnew, other, documents_read_eq_some_iff.mpr hother, ?_⟩
    rw [hbase hg hother]
    exact hclean

theorem Readable.remaining_lt {f : Path} (hf : Readable t f) {ancestry : List Path}
    (hnew : isAncestor ancestry f = false) :
    (documents t).remaining (f :: ancestry) < (documents t).remaining ancestry := by
  obtain ⟨text, htext⟩ := hf
  apply Documents.remaining_lt _ _ hnew
  exact Option.isSome_iff_exists.mpr ⟨text, documents_read_eq_some_iff.mpr htext⟩

theorem reaches_new_readable (hhere : ∀ name ∈ r.here, Path.IsName name) {f : Path}
    {text : List Char} {ancestry : List Path} (htext : t.readText f = .ok text)
    (hclean : (expandPieces (documents t) r (baseOf f) ancestry (pieces text)).diagnostics = [])
    {g : Path} (h : TransGen (Imports t r) f g) : g ∉ ancestry ∧ Readable t g := by
  induction hn : (documents t).remaining ancestry using Nat.strongRecOn
    generalizing f text ancestry with
  | ind n ih =>
    obtain ⟨first, hfirst, hrest⟩ := TransGen.head'_iff.mp h
    obtain ⟨hnew, other, hother, hbelow⟩ := (clean_pieces_iff hhere htext).mp hclean first hfirst
    have hnotMem : first ∉ ancestry := by
      intro hmem
      have hself : isAncestor ancestry first = true :=
        List.any_eq_true.mpr ⟨first, hmem, by simp [Path.same]⟩
      rw [hnew] at hself
      cases hself
    rcases reflTransGen_iff_eq_or_transGen.mp hrest with rfl | hrest
    · exact ⟨hnotMem, other, hother⟩
    · have hless := Readable.remaining_lt ⟨other, hother⟩ hnew
      obtain ⟨hfar, hreadable⟩ := ih _ (hn ▸ hless) hother hbelow hrest rfl
      exact ⟨fun hmem => hfar (List.mem_cons_of_mem _ hmem), hreadable⟩

theorem exists_chain_of_reaches (hhere : ∀ name ∈ r.here, Path.IsName name) {p : Path}
    {text : List Char} (htext : t.readText p = .ok text)
    (hclean : (expandPieces (documents t) r (baseOf p) [p] (pieces text)).diagnostics = [])
    {q : Path} (h : ReflTransGen (Imports t r) p q) :
    ∃ other ancestry, t.readText q = .ok other ∧ q ∈ ancestry ∧
      (expandPieces (documents t) r (baseOf q) ancestry (pieces other)).diagnostics = [] := by
  induction h with
  | refl => exact ⟨text, [p], htext, by simp, hclean⟩
  | @tail f g _ hfg ih =>
    obtain ⟨ftext, ancestry, hftext, _, hfclean⟩ := ih
    obtain ⟨_, other, hother, hbelow⟩ := (clean_pieces_iff hhere hftext).mp hfclean g hfg
    exact ⟨other, g :: ancestry, hother, List.mem_cons_self .., hbelow⟩

theorem clean_of_reaches (hhere : ∀ name ∈ r.here, Path.IsName name) {f : Path} {text : List Char}
    {ancestry : List Path} (htext : t.readText f = .ok text)
    (hchain : ∀ a ∈ ancestry, (∃ p : Path, a = p.normalize r.here) ∧ ReflTransGen (Imports t r) a f)
    (hgood : ∀ q, ReflTransGen (Imports t r) f q →
      Readable t q ∧ ¬ TransGen (Imports t r) q q) :
    (expandPieces (documents t) r (baseOf f) ancestry (pieces text)).diagnostics = [] := by
  induction hn : (documents t).remaining ancestry using Nat.strongRecOn
    generalizing f text ancestry with
  | ind n ih =>
    apply (clean_pieces_iff hhere htext).mpr
    intro g hedge
    obtain ⟨p, hp⟩ := isNormal_of_imports hedge
    obtain ⟨⟨other, hother⟩, hacyclic⟩ := hgood g (.single hedge)
    have hnew : isAncestor ancestry g = false := by
      apply Bool.eq_false_iff.mpr
      intro hanc
      obtain ⟨a, ha, hsame⟩ := List.any_eq_true.mp hanc
      obtain ⟨⟨q, rfl⟩, hreach⟩ := hchain a ha
      rw [hp, Path.same_normalize_iff hhere, ← hp] at hsame
      exact hacyclic (TransGen.tail' (hsame ▸ hreach) hedge)
    have hless := Readable.remaining_lt ⟨other, hother⟩ hnew
    refine ⟨hnew, other, hother, ?_⟩
    refine ih _ (hn ▸ hless) hother ?_ (fun q hq => hgood q (.head hedge hq)) rfl
    intro a ha
    rcases List.mem_cons.mp ha with rfl | ha
    · exact ⟨⟨p, hp⟩, .refl⟩
    · exact ⟨(hchain a ha).1, (hchain a ha).2.tail hedge⟩

/-- The diagnostics of a page tell whether what it imports, directly or not, is complete and
without cycles. -/
theorem expandFile_isClean_iff (hhere : ∀ name ∈ r.here, Path.IsName name) {p : Path}
    (hp : Readable t (p.normalize r.here)) :
    ∃ e, expandFile t r p = .ok e ∧
      (e.isClean = true ↔ ∀ q, ReflTransGen (Imports t r) (p.normalize r.here) q →
        Readable t q ∧ ¬ TransGen (Imports t r) q q) := by
  have hbase := normalize_baseOf hhere hp
  obtain ⟨text, htext⟩ := hp
  refine ⟨_, by rw [expandFile, htext], ?_⟩
  rw [expand, hbase, Expansion.isClean, List.isEmpty_iff]
  constructor
  · intro hclean q hq
    obtain ⟨other, ancestry, hother, hmem, hbelow⟩ :=
      exists_chain_of_reaches hhere htext hclean hq
    refine ⟨⟨other, hother⟩, fun hcycle => ?_⟩
    exact (reaches_new_readable hhere hother hbelow hcycle).1 hmem
  · intro hgood
    apply clean_of_reaches hhere htext _ hgood
    intro a ha
    rw [List.mem_singleton.mp ha]
    exact ⟨⟨p, rfl⟩, .refl⟩

def sharedFooter : FileTree :=
  ⟨[(["s".toList], .directory),
    (["s".toList, "page".toList], .file (.text "<!--@import:a--><!-- @import: ./b -->".toList)),
    (["s".toList, "a".toList], .file (.text "<!-- @import: foot -->".toList)),
    (["s".toList, "b".toList], .file (.text "<!-- @import: @components/../foot -->".toList)),
    (["s".toList, "foot".toList], .file (.text "end".toList))], ["s".toList]⟩

def sharedFooterResolver : Resolver :=
  .ofRoot ["s".toList] (some ⟨".".toList⟩) "parts".toList

def footerFiles : List Path :=
  [.ofString "/s/page", .ofString "/s/a", .ofString "/s/b", .ofString "/s/foot"]

theorem readText_page : sharedFooter.readText (.ofString "/s/page") =
    .ok "<!--@import:a--><!-- @import: ./b -->".toList := by
  cbv

theorem readText_beside : sharedFooter.readText (.ofString "/s/a") =
    .ok "<!-- @import: foot -->".toList := by
  cbv

theorem readText_aliased : sharedFooter.readText (.ofString "/s/b") =
    .ok "<!-- @import: @components/../foot -->".toList := by
  cbv

theorem readText_foot : sharedFooter.readText (.ofString "/s/foot") = .ok "end".toList := by
  cbv

theorem imports_page {g : Path}
    (h : Imports sharedFooter sharedFooterResolver (.ofString "/s/page") g) :
    g = .ofString "/s/a" ∨ g = .ofString "/s/b" := by
  have hfirst : directive? "<!--@import:a--><!-- @import: ./b -->".toList =
      some ("a".toList, "<!-- @import: ./b -->".toList) := by
    cbv
  have hsecond : directive? "<!-- @import: ./b -->".toList =
      some ("./b".toList, []) := by
    cbv
  obtain ⟨path, hpath, rfl⟩ := (imports_iff readText_page).mp h
  rw [paths_directives_cons hfirst, paths_directives_cons hsecond, directives, pieces_nil]
    at hpath
  rcases List.mem_cons.mp hpath with rfl | hpath
  · exact .inl (by cbv)
  · rw [List.mem_singleton.mp hpath]
    exact .inr (by cbv)

theorem imports_sharedFooter {f g : Path} (hf : f ∈ footerFiles)
    (h : Imports sharedFooter sharedFooterResolver f g) :
    g ∈ footerFiles ∧ footerFiles.idxOf f < footerFiles.idxOf g := by
  simp only [footerFiles, List.mem_cons, List.not_mem_nil, or_false] at hf
  rcases hf with rfl | rfl | rfl | rfl
  · rcases imports_page h with rfl | rfl <;> decide
  · obtain rfl : g = .ofString "/s/foot" := (imports_eq readText_beside (by cbv) h).trans (by cbv)
    decide
  · obtain rfl : g = .ofString "/s/foot" := (imports_eq readText_aliased (by cbv) h).trans (by cbv)
    decide
  · obtain ⟨path, hpath, -⟩ := (imports_iff readText_foot).mp h
    rw [directives, pieces_of_no_comment (by decide)] at hpath
    cases hpath

theorem readable_footerFiles {f : Path} (hf : f ∈ footerFiles) : Readable sharedFooter f := by
  simp only [footerFiles, List.mem_cons, List.not_mem_nil, or_false] at hf
  rcases hf with rfl | rfl | rfl | rfl
  · exact ⟨_, readText_page⟩
  · exact ⟨_, readText_beside⟩
  · exact ⟨_, readText_aliased⟩
  · exact ⟨_, readText_foot⟩

theorem reaches_sharedFooter {f g : Path} (hf : f ∈ footerFiles)
    (h : TransGen (Imports sharedFooter sharedFooterResolver) f g) :
    g ∈ footerFiles ∧ footerFiles.idxOf f < footerFiles.idxOf g := by
  induction h with
  | single h => exact imports_sharedFooter hf h
  | tail _ h ih =>
    obtain ⟨hmem, hless⟩ := imports_sharedFooter ih.1 h
    exact ⟨hmem, ih.2.trans hless⟩

theorem expandFile_sharedFooter :
    (∀ name ∈ sharedFooterResolver.here, Path.IsName name) ∧
      Readable sharedFooter ((Path.ofString "page").normalize sharedFooterResolver.here) ∧
      ∃ e, expandFile sharedFooter sharedFooterResolver (.ofString "page") = .ok e ∧
        e.isClean = true := by
  have hhere : ∀ name ∈ sharedFooterResolver.here, Path.IsName name := by decide
  have hnormal : (Path.ofString "page").normalize sharedFooterResolver.here =
      .ofString "/s/page" := by
    cbv
  have hstart : Path.ofString "/s/page" ∈ footerFiles := List.mem_cons_self ..
  have hp := readable_footerFiles hstart
  rw [← hnormal] at hp
  obtain ⟨e, he, hclean⟩ := expandFile_isClean_iff hhere hp
  refine ⟨hhere, hp, e, he, hclean.mpr ?_⟩
  intro q hq
  rw [hnormal] at hq
  have hmem : q ∈ footerFiles := by
    rcases reflTransGen_iff_eq_or_transGen.mp hq with rfl | hq
    · exact hstart
    · exact (reaches_sharedFooter hstart hq).1
  exact ⟨readable_footerFiles hmem, fun hcycle =>
    (reaches_sharedFooter hmem hcycle).2.ne rfl⟩

end StaticSite.Page
