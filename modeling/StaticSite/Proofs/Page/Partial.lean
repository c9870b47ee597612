import StaticSite.Proofs.Page.Course
import StaticSite.Proofs.Page.Occurrence

namespace StaticSite.Page
open StaticSite.Text Relation

variable {t : FileTree} {r : Resolver} {base : Path} {ancestry other : List Path} {ps : List Piece}

def LeadsTo (t : FileTree) (r : Resolver) (base : Path) (ps : List Piece) (f : Path) : Prop :=
  ∃ marker path, .directive marker path ∈ ps ∧
    ReflTransGen (Imports t r) (r.target path base) f

theorem LeadsTo.cons {f : Path} (h : LeadsTo t r base ps f) (p : Piece) :
    LeadsTo t r base (p :: ps) f := by
  obtain ⟨marker, path, hmem, hwalk⟩ := h
  exact ⟨marker, path, List.mem_cons_of_mem _ hmem, hwalk⟩

theorem leadsTo_target (marker path : List Char) :
    LeadsTo t r base (.directive marker path :: ps) (r.target path base) :=
  ⟨marker, path, List.mem_cons_self .., .refl⟩

theorem LeadsTo.transGen {f g : Path} {text : List Char} (htext : t.readText f = .ok text)
    (h : LeadsTo t r (baseOf f) (pieces text) g) : TransGen (Imports t r) f g := by
  obtain ⟨marker, path, hmem, hwalk⟩ := h
  exact TransGen.head' (imports_of_mem_pieces htext hmem) hwalk

theorem baseOf_target (hhere : ∀ name ∈ r.here, Path.IsName name) {path : List Char}
    (h : Readable t (r.target path base)) :
    (r.target path base).parent?.getD base = baseOf (r.target path base) := by
  obtain ⟨p, hp⟩ := exists_target_eq r path base
  rw [hp] at h ⊢
  exact parent?_of_readable hhere h base

theorem isAncestor_cons (f : Path) (ancestry : List Path) (g : Path) :
    isAncestor (f :: ancestry) g = (g.same f || isAncestor ancestry g) :=
  rfl

theorem Takes.of_agree (hhere : ∀ name ∈ r.here, Path.IsName name) {course : Course}
    (h : Takes t r base ancestry ps course)
    (hagree : ∀ g, LeadsTo t r base ps g → isAncestor other g = isAncestor ancestry g) :
    Takes t r base other ps course := by
  induction h generalizing other with
  | done => exact .done
  | kept c _ ih => exact .kept c (ih fun g hg => hagree g (hg.cons _))
  | circular marker hold _ ih =>
    rw [← hagree _ (leadsTo_target ..)] at hold
    exact .circular marker hold (ih fun g hg => hagree g (hg.cons _))
  | missing marker hnew hread _ ih =>
    rw [← hagree _ (leadsTo_target ..)] at hnew
    exact .missing marker hnew hread (ih fun g hg => hagree g (hg.cons _))
  | @opened base ancestry ps inside rest path text marker hnew hread _ _ ihInside ihRest =>
    have hbase := baseOf_target hhere ⟨text, hread⟩
    rw [← hagree _ (leadsTo_target ..)] at hnew
    refine .opened marker hnew hread (ihInside ?_) (ihRest fun g hg => hagree g (hg.cons _))
    -- The file is open on both sides then, and what it leads to its directive leads to.
    intro g hg
    rw [hbase] at hg
    have hwalk : ReflTransGen (Imports t r) (r.target path base) g :=
      (hg.transGen hread).to_reflTransGen
    rw [isAncestor_cons, isAncestor_cons, hagree g ⟨marker, path, List.mem_cons_self .., hwalk⟩]

theorem Takes.of_reads (hhere : ∀ name ∈ r.here, Path.IsName name) {u : FileTree} {course : Course}
    (h : Takes t r base ancestry ps course)
    (hreads : ∀ g, LeadsTo t r base ps g → ∀ text, u.readText g = .ok text ↔ t.readText g = .ok text) :
    Takes u r base ancestry ps course := by
  induction h with
  | done => exact .done
  | kept c _ ih => exact .kept c (ih fun g hg => hreads g (hg.cons _))
  | circular marker hold _ ih => exact .circular marker hold (ih fun g hg => hreads g (hg.cons _))
  | missing marker hnew hread _ ih =>
    have hsame := hreads _ (leadsTo_target ..)
    refine .missing marker hnew ?_ (ih fun g hg => hreads g (hg.cons _))
    rintro ⟨text, htext⟩
    exact hread ⟨text, (hsame text).mp htext⟩
  | @opened base ancestry ps inside rest path text marker hnew hread _ _ ihInside ihRest =>
    have hbase := baseOf_target hhere ⟨text, hread⟩
    have hsame := hreads _ (leadsTo_target ..)
    refine .opened marker hnew ((hsame text).mpr hread) (ihInside ?_)
      (ihRest fun g hg => hreads g (hg.cons _))
    intro g hg
    rw [hbase] at hg
    have hwalk : ReflTransGen (Imports t r) (r.target path base) g :=
      (hg.transGen hread).to_reflTransGen
    exact hreads g ⟨marker, path, List.mem_cons_self .., hwalk⟩

theorem readable_of_expandFile {f : Path} {e : Expansion} (h : expandFile t r f = .ok e) :
    Readable t (f.normalize r.here) := by
  rw [expandFile] at h
  cases htext : t.readText (f.normalize r.here) with
  | error cause =>
    simp only [htext] at h
    cases h
  | ok text => exact ⟨text, htext⟩

theorem expandFile_of_reads (hhere : ∀ name ∈ r.here, Path.IsName name) {u : FileTree} {f : Path}
    (hf : Readable t (f.normalize r.here))
    (hreads : ∀ g, ReflTransGen (Imports t r) (f.normalize r.here) g →
      ∀ text, u.readText g = .ok text ↔ t.readText g = .ok text) :
    expandFile u r f = expandFile t r f := by
  have hbase := normalize_baseOf hhere hf
  obtain ⟨text, htext⟩ := hf
  obtain ⟨course, hcourse⟩ :=
    exists_course t r (baseOf (f.normalize r.here)) [f.normalize r.here] (pieces text)
  have hother := hcourse.of_reads hhere fun g hg => hreads g (hg.transGen htext).to_reflTransGen
  simp only [expandFile, htext, (hreads _ .refl text).mpr htext]
  rw [expand, expand, hbase, hcourse.expandPieces_eq, hother.expandPieces_eq]

theorem Takes.of_fresh (hhere : ∀ name ∈ r.here, Path.IsName name) {f : Path} {text : List Char}
    {course : Course} (htext : t.readText f = .ok text)
    (h : Takes t r (baseOf f) [f] (pieces text) course)
    (hfresh : ∀ g, ReflTransGen (Imports t r) f g → isAncestor ancestry g = false) :
    Takes t r (baseOf f) (f :: ancestry) (pieces text) course := by
  apply h.of_agree hhere
  intro g hg
  rw [isAncestor_cons, isAncestor_cons, hfresh g (hg.transGen htext).to_reflTransGen]
  rfl

theorem expand_of_mem_directives {document : List Char} {d : Directive}
    (h : d ∈ directives document) : ∃ before marker after, document = before ++ (marker ++ after) ∧
      Marker d.path marker ∧ d.start = byteCount before ∧ d.stop = d.start + byteCount marker ∧
      expand t r document base ancestry = expand t r before base ancestry ++
        (expandPieces (documents t) r (base.normalize r.here) ancestry [.directive marker d.path] ++
          expand t r after base ancestry) := by
  obtain ⟨before, marker, after, rfl, hmarker, hstart, hstop⟩ :=
    occurs_iff.mp (mem_directives_iff_occurs.mp h)
  refine ⟨before, marker, after, rfl, hmarker, hstart, hstop, ?_⟩
  have hpieces : pieces (before ++ (marker ++ after)) =
      pieces before ++ ([.directive marker d.path] ++ pieces after) := by
    obtain ⟨tail, htail, -⟩ := hmarker.exists_tail
    have hcut := pieces_append_bracket before (tail ++ after)
    rw [← List.cons_append, ← htail, pieces_marker hmarker] at hcut
    exact hcut
  rw [expand, hpieces, expandPieces_append, expandPieces_append]
  rfl

/-- What takes the place of a directive is what the file that it names expands to on its own, if no
open file can be reached from that one. Neither the document nor its directory matters, nor how the
directive spells the file, nor which other files are open. -/
theorem expand_partial (hhere : ∀ name ∈ r.here, Path.IsName name) {f : Path}
    (hf : Readable t (f.normalize r.here)) :
    ∃ e, expandFile t r f = .ok e ∧
      ∀ (document : List Char) (base : Path) (ancestry : List Path), ∀ d ∈ directives document,
        r.target d.path (base.normalize r.here) = f.normalize r.here →
        (∀ g, ReflTransGen (Imports t r) (f.normalize r.here) g → isAncestor ancestry g = false) →
        ∃ before marker after, document = before ++ (marker ++ after) ∧
          d.start = byteCount before ∧ d.stop = d.start + byteCount marker ∧
          (expand t r document base ancestry).html = (expand t r before base ancestry).html ++
            (e.html ++ (expand t r after base ancestry).html) ∧
          (expand t r document base ancestry).diagnostics =
            (expand t r before base ancestry).diagnostics ++
              (e.diagnostics ++ (expand t r after base ancestry).diagnostics) := by
  have hbase := normalize_baseOf hhere hf
  obtain ⟨text, htext⟩ := hf
  obtain ⟨course, hcourse⟩ :=
    exists_course t r (baseOf (f.normalize r.here)) [f.normalize r.here] (pieces text)
  refine ⟨course.expansion, ?_, ?_⟩
  · simp only [expandFile, htext]
    rw [expand, hbase, hcourse.expandPieces_eq]
  · intro document base ancestry d hd htarget hfresh
    obtain ⟨before, marker, after, hdocument, -, hstart, hstop, hexpand⟩ :=
      @expand_of_mem_directives t r base ancestry document d hd
    have hinside := hcourse.of_fresh hhere htext hfresh
    have hopened : Takes t r (base.normalize r.here) ancestry [.directive marker d.path]
        (.opened (f.normalize r.here) course .done) := by
      rw [← htarget] at htext hinside hfresh ⊢
      rw [← baseOf_target hhere ⟨text, htext⟩] at hinside
      exact .opened marker (hfresh _ .refl) htext hinside .done
    rw [hopened.expandPieces_eq, Course.expansion, Course.expansion, Expansion.append_empty] at hexpand
    refine ⟨before, marker, after, hdocument, hstart, hstop, ?_, ?_⟩
    · rw [hexpand]
      rfl
    · rw [hexpand]
      rfl

section cycle

def cycleStart : Path := .ofString "/s/c/a"

def cyclePage : List Char := "x<!--@import:c/a-->".toList

theorem directives_cyclePage : directives cyclePage = [⟨1, 19, "c/a".toList⟩] := by
  have hmarker : Marker "c/a".toList "<!--@import:c/a-->".toList :=
    @marker_of_path "c/a".toList (by decide) (by decide)
  have hsplit : cyclePage = 'x' :: ("<!--@import:c/a-->".toList ++ []) := rfl
  rw [directives, hsplit, pieces_literal (by decide), pieces_marker hmarker, pieces_nil]
  decide

theorem reaches_cycleStart {g : Path}
    (h : ReflTransGen (Imports aliasCycle aliasCycleResolver) cycleStart g) :
    g = cycleStart ∨ g = .ofString "/s/c/b" := by
  have hstart : aliasCycle.readText cycleStart = .ok "<!--@import:b-->".toList := by cbv
  have hback : aliasCycle.readText (.ofString "/s/c/b") =
      .ok "<!--@import:@components/a-->".toList := by cbv
  induction h with
  | refl => exact .inl rfl
  | @tail f g _ hedge ih =>
    rcases ih with rfl | rfl
    · obtain ⟨marker, path, hmem, rfl⟩ := exists_piece_of_imports hstart hedge
      rw [pieces_beside, List.mem_singleton] at hmem
      obtain ⟨-, rfl⟩ := Piece.directive.inj hmem
      exact .inr (by decide)
    · obtain ⟨marker, path, hmem, rfl⟩ := exists_piece_of_imports hback hedge
      rw [pieces_alias, List.mem_singleton] at hmem
      obtain ⟨-, rfl⟩ := Piece.directive.inj hmem
      exact .inl (by decide)

theorem expand_cyclePage :
    (∀ name ∈ aliasCycleResolver.here, Path.IsName name) ∧
      Readable aliasCycle (cycleStart.normalize aliasCycleResolver.here) ∧
      ⟨1, 19, "c/a".toList⟩ ∈ directives cyclePage ∧
      (∀ g, ReflTransGen (Imports aliasCycle aliasCycleResolver)
        (cycleStart.normalize aliasCycleResolver.here) g →
          isAncestor [.ofString "/s/page"] g = false) ∧
      ∃ e before after, expandFile aliasCycle aliasCycleResolver cycleStart = .ok e ∧
        (expand aliasCycle aliasCycleResolver cyclePage (.ofString "/s")
          [.ofString "/s/page"]).html = before ++ (e.html ++ after) := by
  have hhere : ∀ name ∈ aliasCycleResolver.here, Path.IsName name := by decide
  have hread : Readable aliasCycle (cycleStart.normalize aliasCycleResolver.here) :=
    ⟨"<!--@import:b-->".toList, by cbv⟩
  have hmem : ⟨1, 19, "c/a".toList⟩ ∈ directives cyclePage := by
    rw [directives_cyclePage]
    exact List.mem_singleton_self _
  have hfresh : ∀ g, ReflTransGen (Imports aliasCycle aliasCycleResolver)
      (cycleStart.normalize aliasCycleResolver.here) g →
        isAncestor [.ofString "/s/page"] g = false := by
    intro g hg
    rcases reaches_cycleStart hg with rfl | rfl <;> decide
  obtain ⟨e, hfile, hplace⟩ := expand_partial hhere hread
  obtain ⟨_, _, _, -, -, -, hhtml, -⟩ := hplace cyclePage (.ofString "/s") [.ofString "/s/page"]
    _ hmem (by decide) hfresh
  exact ⟨hhere, hread, hmem, hfresh, e, _, _, hfile, hhtml⟩

end cycle

end StaticSite.Page
