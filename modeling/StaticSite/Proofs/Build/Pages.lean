import StaticSite.Build
import StaticSite.Proofs.FileTree.Spelling
import StaticSite.Proofs.Page.Splice
import StaticSite.Proofs.Path.Order
import StaticSite.Proofs.Sprite.Compile

namespace StaticSite.Build
open StaticSite.FileTree StaticSite.Page

variable {p : Plan} {t u : FileTree}

theorem writePage_eq_ok_iff {path : Path} {html : List Char} :
    writePage t path html = (u, .ok ()) ↔ t.Puts path (.text html) u := by
  unfold writePage Puts
  split
  · rename_i hcreate
    simp [hcreate]
  · rename_i v _ hcreate
    rw [hcreate]
    split
    · rename_i hwrite
      simp [hwrite]
    · rename_i hwrite
      simp [hwrite]

theorem read_of_writePage {path : Path} {html : List Char}
    (h : writePage t path html = (u, .ok ())) : u.read path = .ok (.text html) :=
  read_eq_ok_iff.mpr (writePage_eq_ok_iff.mp h).find

theorem buildPages_cons_eq_ok_iff {page : Path} {pages : List Path}
    {diagnostics : List PageDiagnostic} :
    buildPages p t (page :: pages) = (u, .ok diagnostics) ↔
      ∃ e v others, expandFile t (p.resolver t) (p.sourceDir.join page) = .ok e ∧
        writePage t (p.outDir.join page) e.html = (v, .ok ()) ∧
        buildPages p v pages = (u, .ok others) ∧
        diagnostics = e.diagnostics.map (⟨page, ·⟩) ++ others := by
  rw [buildPages]
  constructor
  · intro h
    split at h
    · cases h
    · rename_i e hexpand
      split at h
      · cases h
      · rename_i v _ hwrite
        split at h
        · cases h
        · rename_i hrest
          obtain ⟨rfl, hdiagnostics⟩ := Prod.mk.inj h
          exact ⟨e, v, _, hexpand, hwrite, hrest, (Except.ok.inj hdiagnostics).symm⟩
  · rintro ⟨e, v, others, hexpand, hwrite, hrest, rfl⟩
    simp only [hexpand, hwrite, hrest]

theorem buildPages_append_eq_ok_iff {before after : List Path}
    {diagnostics : List PageDiagnostic} :
    buildPages p t (before ++ after) = (u, .ok diagnostics) ↔
      ∃ v first others, buildPages p t before = (v, .ok first) ∧
        buildPages p v after = (u, .ok others) ∧ diagnostics = first ++ others := by
  induction before generalizing t diagnostics with
  | nil =>
    constructor
    · intro h
      exact ⟨t, [], diagnostics, rfl, h, rfl⟩
    · rintro ⟨v, first, others, hbefore, hafter, rfl⟩
      obtain ⟨rfl, hfirst⟩ := Prod.mk.inj hbefore
      obtain rfl := Except.ok.inj hfirst
      exact hafter
  | cons page before ih =>
    rw [List.cons_append, buildPages_cons_eq_ok_iff]
    constructor
    · rintro ⟨e, v, rest, hexpand, hwrite, hrest, rfl⟩
      obtain ⟨w, first, others, hbefore, hafter, rfl⟩ := ih.mp hrest
      refine ⟨w, _, others, ?_, hafter, (List.append_assoc ..).symm⟩
      exact buildPages_cons_eq_ok_iff.mpr ⟨e, v, first, hexpand, hwrite, hbefore, rfl⟩
    · rintro ⟨w, first, others, hbefore, hafter, rfl⟩
      obtain ⟨e, v, rest, hexpand, hwrite, hrest, rfl⟩ := buildPages_cons_eq_ok_iff.mp hbefore
      refine ⟨e, v, rest ++ others, hexpand, hwrite, ?_, List.append_assoc ..⟩
      exact ih.mpr ⟨w, rest, others, hrest, hafter, rfl⟩

theorem buildPages_cons_of_notMem {page : Path} {pages : List Path} {text : List Char}
    {v : FileTree} {others : List PageDiagnostic}
    (hread : t.readText ((p.sourceDir.join page).normalize t.here) = .ok text) (htext : '<' ∉ text)
    (hwrite : writePage t (p.outDir.join page) text = (v, .ok ()))
    (hrest : buildPages p v pages = (u, .ok others)) :
    buildPages p t (page :: pages) = (u, .ok others) :=
  buildPages_cons_eq_ok_iff.mpr
    ⟨⟨text, []⟩, v, others, expandFile_of_notMem hread htext, hwrite, hrest, rfl⟩

theorem writes_writePage {path : Path} {html : List Char} {result : Except BuildError Unit}
    (ht : t.Proper) (h : writePage t path html = (u, result)) : Writes [path] t u := by
  unfold writePage at h
  split at h
  · rename_i hcreate
    obtain ⟨rfl, -⟩ := Prod.mk.inj h
    exact writes_createParent ht hcreate
  · rename_i v _ hcreate
    have hparent : Writes [path] t v := writes_createParent ht hcreate
    split at h
    · rename_i hwrite
      obtain ⟨rfl, -⟩ := Prod.mk.inj h
      exact hparent.trans (writes_write hparent.proper hwrite)
    · obtain ⟨rfl, -⟩ := Prod.mk.inj h
      exact hparent

theorem writes_buildPages {pages : List Path} {result : Except BuildError (List PageDiagnostic)}
    (ht : t.Proper) (h : buildPages p t pages = (u, result)) :
    Writes (pages.map p.outDir.join) t u := by
  induction pages generalizing t u result with
  | nil =>
    obtain ⟨rfl, -⟩ := Prod.mk.inj h
    exact .refl ht
  | cons page pages ih =>
    rw [buildPages] at h
    split at h
    · obtain ⟨rfl, -⟩ := Prod.mk.inj h
      exact .refl ht
    · rename_i e _
      have hfirst {v : FileTree} {first : Except BuildError Unit}
          (hwrite : writePage t (p.outDir.join page) e.html = (v, first)) :
          Writes ((page :: pages).map p.outDir.join) t v :=
        (writes_writePage ht hwrite).mono (by simp)
      split at h
      · rename_i hwrite
        obtain ⟨rfl, -⟩ := Prod.mk.inj h
        exact hfirst hwrite
      · rename_i v _ hwrite
        have hothers {w : FileTree} {others : Except BuildError (List PageDiagnostic)}
            (hrest : buildPages p v pages = (w, others)) :
            Writes ((page :: pages).map p.outDir.join) t w :=
          (hfirst hwrite).trans ((ih (hfirst hwrite).proper hrest).mono (by simp))
        split at h
        · rename_i hrest
          obtain ⟨rfl, -⟩ := Prod.mk.inj h
          exact hothers hrest
        · rename_i hrest
          obtain ⟨rfl, -⟩ := Prod.mk.inj h
          exact hothers hrest

theorem grows_buildPages {pages : List Path} {diagnostics : List PageDiagnostic} (ht : t.Proper)
    (h : buildPages p t pages = (u, .ok diagnostics)) : t.Grows u :=
  (writes_buildPages ht h).toGrows

def outputs (t : FileTree) (p : Plan) : List Path :=
  p.spriteOutput :: (findPages (p.compiler.compile t).1 p).map p.outDir.join

theorem writes_build {result : Except BuildError Report} (ht : t.Proper)
    (h : build t p = (u, result)) : Writes (outputs t p) t u := by
  unfold build at h
  split at h
  · obtain ⟨rfl, -⟩ := Prod.mk.inj h
    exact .refl ht
  · have hsprite {v : FileTree} {sprite : Except Sprite.SpriteError Sprite.Report}
        (hcompile : p.compiler.compile t = (v, sprite)) : Writes (outputs t p) t v :=
      (Sprite.Compiler.writes_compile ht hcompile).mono (by simp [outputs, Plan.compiler])
    split at h
    · rename_i hcompile
      obtain ⟨rfl, -⟩ := Prod.mk.inj h
      exact hsprite hcompile
    · rename_i v sprite hcompile
      have hpages {w : FileTree} {pages : Except BuildError (List PageDiagnostic)}
          (hbuild : buildPages p v (findPages v p) = (w, pages)) : Writes (outputs t p) t w := by
        refine (hsprite hcompile).trans ((writes_buildPages (hsprite hcompile).proper hbuild).mono ?_)
        rw [outputs, hcompile]
        exact List.subset_cons_self ..
      dsimp only at h
      split at h
      · rename_i hbuild
        obtain ⟨rfl, -⟩ := Prod.mk.inj h
        exact hpages hbuild
      · rename_i hbuild
        obtain ⟨rfl, -⟩ := Prod.mk.inj h
        exact hpages hbuild

theorem build_eq_ok_iff {report : Report} : build t p = (u, .ok report) ↔
    t.isDirectory p.sourceDir = true ∧ ∃ v sprite diagnostics,
      p.compiler.compile t = (v, .ok sprite) ∧
      buildPages p v (findPages v p) = (u, .ok diagnostics) ∧
      report = ⟨findPages v p, sprite, diagnostics⟩ := by
  unfold build
  constructor
  · intro h
    split at h
    · cases h
    · rename_i hsource
      split at h
      · cases h
      · rename_i v sprite hcompile
        dsimp only at h
        split at h
        · cases h
        · rename_i hpages
          obtain ⟨rfl, hreport⟩ := Prod.mk.inj h
          exact ⟨by simpa using hsource, v, sprite, _, hcompile, hpages,
            (Except.ok.inj hreport).symm⟩
  · rintro ⟨hsource, v, sprite, diagnostics, hcompile, hpages, rfl⟩
    simp only [hsource, hcompile, hpages, Bool.not_true, Bool.false_eq_true, ↓reduceIte]

theorem build_of_findPages {v : FileTree} {sprite : Sprite.Report} {pages : List Path}
    {diagnostics : List PageDiagnostic} (hsource : t.isDirectory p.sourceDir = true)
    (hcompile : p.compiler.compile t = (v, .ok sprite)) (hfound : findPages v p = pages)
    (hpages : buildPages p v pages = (u, .ok diagnostics)) :
    build t p = (u, .ok ⟨pages, sprite, diagnostics⟩) := by
  subst hfound
  exact build_eq_ok_iff.mpr ⟨hsource, v, sprite, diagnostics, hcompile, hpages, rfl⟩

structure PageFile (t : FileTree) (source file page : Path) : Prop where
  mem_below : file ∈ t.below source
  hasPageName : hasPageName file = true
  isFile : t.isFile file = true
  relativeTo? : file.relativeTo? source = some page

theorem mem_findPages_iff {page : Path} : page ∈ findPages t p ↔
    ∃ file, PageFile t p.sourceDir file page ∧ file.startsWith p.componentsRoot = false ∧
      file.startsWith p.outDir = false := by
  unfold findPages Path.sort
  rw [List.mem_mergeSort, List.mem_filterMap]
  constructor
  · rintro ⟨file, hfile, hrelative⟩
    obtain ⟨hbelow, hpage⟩ := List.mem_filter.mp hfile
    simp only [Bool.and_eq_true, Bool.not_eq_true'] at hpage
    obtain ⟨⟨⟨hname, hfile⟩, hcomponents⟩, hout⟩ := hpage
    exact ⟨file, ⟨hbelow, hname, hfile, hrelative⟩, hcomponents, hout⟩
  · rintro ⟨file, hfile, hcomponents, hout⟩
    refine ⟨file, List.mem_filter.mpr ⟨hfile.mem_below, ?_⟩, hfile.relativeTo?⟩
    simp only [Bool.and_eq_true, Bool.not_eq_true']
    exact ⟨⟨⟨hfile.hasPageName, hfile.isFile⟩, hcomponents⟩, hout⟩

theorem pairwise_findPages (ht : t.Proper) :
    (findPages t p).Pairwise fun a b => a.before b = true := by
  have hsorted : (findPages t p).Pairwise fun a b => Path.inOrder id a b = true :=
    Path.pairwise_mergeSort _
  have hdifferent : (findPages t p).Pairwise fun a b => a.components ≠ b.components := by
    apply ((List.mergeSort_perm _ _).pairwise_iff fun h => h.symm).mpr
    rw [List.pairwise_filterMap]
    apply ((ht.nodup_below p.sourceDir).filter _).imp_of_mem
    intro f g hf hg hne a ha b hb hsame
    have hbelow := (List.mem_filter.mp hf).1
    have hroot := Path.components_ne_nil (root_ne_nil_of_mem_below hbelow)
    apply hne
    apply ht.eq_of_components hbelow (List.mem_filter.mp hg).1
    rw [Path.components_relativeTo? hroot ha, hsame, ← Path.components_relativeTo? hroot hb]
  exact (hsorted.and hdifferent).imp fun h => Path.before_of_inOrder h.1 h.2

theorem PageFile.names {source file page : Path} (h : PageFile t source file page)
    (ht : t.Proper) : ∃ names, names ≠ [] ∧ (∀ name ∈ names, Path.IsName name) ∧
      page = ⟨Path.joinSlash names⟩ ∧
      file.components = source.components ++ names.map .normal ∧
      (source.join page).components = file.components := by
  obtain ⟨hroot, names, hne, hnames, rfl, hcomponents⟩ :=
    ht.names_of_mem_below h.mem_below h.relativeTo?
  refine ⟨names, hne, hnames, rfl, hcomponents, ?_⟩
  rw [Path.components_join_names hroot hnames, hcomponents]

theorem PageFile.not_isDirectory {source file page : Path} (h : PageFile t source file page)
    (ht : t.Proper) (hgrows : t.Grows u) : u.isDirectory (source.join page) = false := by
  obtain ⟨l, content, hfile⟩ := isFile_iff.mp h.isFile
  obtain ⟨other, hother⟩ := hgrows.find_file hfile
  obtain ⟨names, -, -, -, -, hjoin⟩ := h.names ht
  apply Bool.eq_false_iff.mpr
  intro hdir
  obtain ⟨k, hk⟩ := isDirectory_iff.mp hdir
  cases (find_eq_of_components hk hother hjoin).2

end StaticSite.Build
