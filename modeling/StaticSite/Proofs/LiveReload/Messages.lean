import StaticSite.Proofs.LiveReload.Freshness
import StaticSite.Proofs.LiveReload.History

namespace StaticSite.LiveReload
open StaticSite.Sprite StaticSite.Path

def recordAll (s : Scope) (d : Debouncer) (notices : List (Nat × Notice)) : Debouncer :=
  notices.foldl (fun d e => recordNotice s e.1 d e.2) d

def acceptedOf (s : Scope) (e : Nat × Notice) : List Record :=
  match e.2.kind with
  | none => []
  | some kind =>
    (e.2.paths.filter fun path => (s.classify path).isSome).map fun path => ⟨e.1, path, kind⟩

def accepted (s : Scope) (notices : List (Nat × Notice)) : List Record :=
  notices.flatMap (acceptedOf s)

def pageUrl? (s : Scope) (change : Change) : Option (List Char) :=
  match s.classify change.path with
  | some (.page url) => some url
  | _ => none

variable {s : Scope} {d : Debouncer} {notices : List (Nat × Notice)}

theorem mem_accepted_iff {r : Record} : r ∈ accepted s notices ↔
    ∃ n, (r.time, n) ∈ notices ∧ n.kind = some r.kind ∧ r.path ∈ n.paths ∧
      s.classify r.path ≠ none := by
  obtain ⟨time, path, kind⟩ := r
  rw [accepted, List.mem_flatMap]
  constructor
  · rintro ⟨⟨at', n⟩, hn, hr⟩
    cases hkind : n.kind with
    | none => simp [acceptedOf, hkind] at hr
    | some kind' =>
      simp only [acceptedOf, hkind, List.mem_map, List.mem_filter, Record.mk.injEq] at hr
      obtain ⟨path', ⟨hpath, hclass⟩, rfl, rfl, rfl⟩ := hr
      exact ⟨n, hn, hkind, hpath, Option.isSome_iff_ne_none.mp hclass⟩
  · rintro ⟨n, hn, hkind, hpath, hclass⟩
    refine ⟨(time, n), hn, ?_⟩
    simp only [acceptedOf, hkind, List.mem_map, List.mem_filter]
    exact ⟨path, ⟨hpath, Option.isSome_iff_ne_none.mpr hclass⟩, rfl⟩

theorem recordNotice_eq_run (s : Scope) (d : Debouncer) (e : Nat × Notice) :
    recordNotice s e.1 d e.2 = d.run ((acceptedOf s e).map .record) := by
  unfold recordNotice acceptedOf
  cases e.2.kind with
  | none => rfl
  | some kind =>
    rw [Debouncer.run, List.map_map, List.foldl_map]
    rfl

theorem recordAll_eq_run (s : Scope) (d : Debouncer) (notices : List (Nat × Notice)) :
    recordAll s d notices = d.run ((accepted s notices).map .record) := by
  induction notices generalizing d with
  | nil => rfl
  | cons e notices ih =>
    calc recordAll s d (e :: notices)
        = recordAll s (recordNotice s e.1 d e.2) notices := rfl
      _ = (d.run ((acceptedOf s e).map .record)).run ((accepted s notices).map .record) := by
        rw [ih, recordNotice_eq_run]
      _ = d.run ((accepted s (e :: notices)).map .record) := by
        rw [← Debouncer.run_append, ← List.map_append]
        rfl

open Debouncer

theorem exists_relative_of_page {path : Path} {url : List Char}
    (h : s.classify path = some (.page url)) :
    ∃ relative, path.relativeTo? s.sourceDir = some relative ∧ url = Scope.urlOf relative := by
  unfold Scope.classify at h
  split at h
  · cases h
  · obtain ⟨relative, hrelative, heffect⟩ := Option.bind_eq_some_iff.mp h
    split at heffect
    · exact ⟨relative, hrelative, (Effect.page.inj (Option.some.inj heffect)).symm⟩
    · cases heffect

theorem names_of_page {path : Path} {url : List Char} (hsource : s.sourceDir.chars ≠ [])
    (hparent : .parent ∉ path.components) (h : s.classify path = some (.page url)) :
    ∃ names : Location, (∀ name ∈ names, IsName name) ∧ url = '/' :: joinSlash names ∧
      path.components = s.sourceDir.components ++ names.map .normal := by
  obtain ⟨relative, hrelative, rfl⟩ := exists_relative_of_page h
  have hne := components_ne_nil hsource
  have hcomponents := components_relativeTo? hne hrelative
  obtain ⟨names, hnames, hrest⟩ := exists_names hcomponents hne hparent
  rw [hrest] at hcomponents
  refine ⟨names, hnames, ?_, hcomponents⟩
  rw [Scope.urlOf, hrest, namesOf_map_normal]

theorem components_eq_of_page {p q : Path} {url : List Char} (hsource : s.sourceDir.chars ≠ [])
    (hp : .parent ∉ p.components) (hq : .parent ∉ q.components)
    (hpage : s.classify p = some (.page url)) (hpage' : s.classify q = some (.page url)) :
    p.components = q.components := by
  obtain ⟨names, hnames, rfl, hcomponents⟩ := names_of_page hsource hp hpage
  obtain ⟨names', hnames', hurl, hcomponents'⟩ := names_of_page hsource hq hpage'
  obtain rfl := eq_of_joinSlash hnames hnames' (List.cons.inj hurl).2
  rw [hcomponents, hcomponents']

section handle

variable {c : Compiler} {now : Nat} {t : FileTree} {changes : List Change}

theorem mem_effects_icon :
    .icon ∈ effects s changes ↔ ∃ change ∈ changes, s.classify change.path = some .icon :=
  List.mem_filterMap

theorem reloads_effects :
    reloads (effects s changes) = (changes.filterMap (pageUrl? s)).map .reload := by
  rw [reloads, effects, List.filterMap_filterMap, List.map_filterMap]
  congr 1
  funext change
  rw [pageUrl?]
  cases s.classify change.path with
  | none => rfl
  | some effect => cases effect <;> rfl

theorem messages_handle : (handle s c now t changes).2 =
    (if .icon ∈ effects s changes ∧ (c.compile t).2.isOk = true then [.sprite now] else []) ++
      reloads (effects s changes) := by
  unfold handle
  by_cases hicon : .icon ∈ effects s changes
  · simp only [hicon, if_true, true_and]
    obtain ⟨u, result⟩ := c.compile t
    cases result with
    | ok report => rfl
    | error e => rfl
  · simp only [hicon, if_false, false_and]
    rfl

end handle

theorem urls_nodup {changes : List Change} (hsource : s.sourceDir.chars ≠ [])
    (hparent : ∀ change ∈ changes, .parent ∉ change.path.components)
    (hdistinct : changes.Pairwise fun a b => a.path.components ≠ b.path.components) :
    (changes.filterMap (pageUrl? s)).Nodup := by
  have hpage {change : Change} {url : List Char} (h : pageUrl? s change = some url) :
      s.classify change.path = some (.page url) := by
    unfold pageUrl? at h
    split at h
    · rename_i url' hclass
      rw [hclass, Option.some.inj h]
    · cases h
  apply List.pairwise_filterMap.mpr
  apply hdistinct.imp_of_mem
  intro a b ha hb hne url hurl url' hurl' heq
  subst heq
  exact hne (components_eq_of_page hsource (hparent a ha) (hparent b hb) (hpage hurl) (hpage hurl'))

section ready

variable {window now : Nat} (hready : ∀ e ∈ notices, e.1 + window ≤ now)

theorem mem_accepted_of_step {r : Record} (h : .record r ∈ (accepted s notices).map Step.record) :
    r ∈ accepted s notices := by
  obtain ⟨r', hr, heq⟩ := List.mem_map.mp h
  obtain rfl := Step.record.inj heq
  exact hr

include hready

theorem ready_of_step {r : Record} (h : .record r ∈ (accepted s notices).map Step.record) :
    r.time + window ≤ now := by
  obtain ⟨n, hn, -⟩ := mem_accepted_iff.mp (mem_accepted_of_step h)
  exact hready _ hn

theorem exists_notice_of_mem_drain {change : Change}
    (h : change ∈ (((empty window).run ((accepted s notices).map .record)).drain now).2) :
    ∃ e ∈ notices, change.path ∈ e.2.paths ∧ s.classify change.path ≠ none := by
  have hsteps := fun r => ready_of_step (s := s) (r := r) hready
  obtain ⟨first, hfirst, hpath, -⟩ := (mem_drain_run_iff_of_ready hsteps).mp h
  have hmem := mem_of_mem_history (List.mem_of_head? hfirst)
  obtain ⟨n, hn, -, hpaths, hclass⟩ := mem_accepted_iff.mp (mem_accepted_of_step hmem)
  rw [hpath] at hpaths hclass
  exact ⟨_, hn, hpaths, hclass⟩

end ready

/-- Notices come down to the records of classified paths. Once these are ready, one drain takes them
all: it tells in the order of paths what is left of each path's own records. An icon among them has
the sprite compiled, which is told if it succeeds, and then one reload is told for each page. -/
theorem messages_of_notices (s : Scope) (c : Compiler) (t : FileTree) {window now : Nat}
    (stamp : Nat) {notices : List (Nat × Notice)} (hready : ∀ e ∈ notices, e.1 + window ≤ now)
    (hparent : ∀ e ∈ notices, ∀ path ∈ e.2.paths, .parent ∉ path.components) :
    let d := recordAll s (.empty window) notices
    let steps := (accepted s notices).map Step.record
    let changes := (d.drain now).2
    let urls := changes.filterMap (pageUrl? s)
    let outcome := handle s c stamp t changes
    d = (empty window).run steps ∧ (d.drain now).1.pending = [] ∧
      (∀ change, change ∈ changes ↔ ∃ first,
        (history window change.path steps).head? = some first ∧ first.path = change.path ∧
          ChangeKind.net ((history window change.path steps).map (·.kind)) = some change.kind) ∧
      (changes.Pairwise fun a b => a.path.before b.path = true) ∧
      (∀ change ∈ changes, s.classify change.path ≠ none) ∧
      (outcome.1 = if ∃ change ∈ changes, s.classify change.path = some .icon then (c.compile t).1
        else t) ∧
      (outcome.2 = (if (∃ change ∈ changes, s.classify change.path = some .icon) ∧
          (c.compile t).2.isOk = true then [.sprite stamp] else []) ++ urls.map .reload) ∧
      (s.sourceDir.chars ≠ [] → urls.Nodup) := by
  intro d steps changes urls outcome
  have hrun : d = (empty window).run steps := recordAll_eq_run s _ notices
  have hsteps : ∀ r, .record r ∈ steps → r.time + window ≤ now := fun r => ready_of_step hready
  have hnotice : ∀ change ∈ changes, ∃ e ∈ notices, change.path ∈ e.2.paths ∧
      s.classify change.path ≠ none := by
    intro change hchange
    apply exists_notice_of_mem_drain hready
    rw [← hrun]
    exact hchange
  have hordered : changes.Pairwise fun a b => a.path.before b.path = true := by
    apply pairwise_before_drain
    rw [hrun]
    exact distinct_run_empty window steps
  refine ⟨hrun, ?_, ?_, hordered, ?_, ?_, ?_, ?_⟩
  · rw [hrun]
    exact pending_drain_eq_nil hsteps
  · intro change
    have hmem : change ∈ (((empty window).run steps).drain now).2 ↔ _ :=
      mem_drain_run_iff_of_ready hsteps
    rw [← hrun] at hmem
    exact hmem
  · intro change hchange
    obtain ⟨-, -, -, hclass⟩ := hnotice change hchange
    exact hclass
  · simp only [← mem_effects_icon]
    exact Session.handle_eq
  · simp only [← mem_effects_icon]
    rw [← reloads_effects]
    exact messages_handle
  · intro hsource
    apply urls_nodup hsource
    · intro change hchange
      obtain ⟨e, he, hpath, -⟩ := hnotice change hchange
      exact hparent e he _ hpath
    · exact hordered.imp components_ne_of_before

section saved

def siteScope : Scope :=
  .ofDirectories (Session.twoIconTree []) (.ofString "/") (.ofString "/i") Scope.defaultPatterns

def editing : List (Nat × Notice) :=
  [(0, ⟨some .modified, [.ofString "/i/a.svg", .ofString "/index.html"]⟩),
    (1, ⟨some .created, [.ofString "/draft.html", .ofString "/i/b.svg", .ofString "/notes.txt"]⟩),
    (1, ⟨none, [.ofString "/other.html"]⟩),
    (2, ⟨some .removed, [.ofString "/draft.html"]⟩),
    (2, ⟨some .modified, [.ofString "/about.html", .ofString "//./index.html"]⟩)]

theorem messages_editing : (∀ e ∈ editing, e.1 + 2 ≤ 4) ∧
    (∀ e ∈ editing, ∀ path ∈ e.2.paths, .parent ∉ path.components) ∧
      let d := recordAll siteScope (.empty 2) editing
      (d.drain 4).1.pending = [] ∧
        (handle siteScope Compiler.dotCompiler 5 (Session.twoIconTree []) (d.drain 4).2).2 =
          [.sprite 5, .reload "/about.html".toList, .reload "/index.html".toList] := by
  have hready : ∀ e ∈ editing, e.1 + 2 ≤ 4 := by decide
  have hparent : ∀ e ∈ editing, ∀ path ∈ e.2.paths, .parent ∉ path.components := by decide
  obtain ⟨report, hcompile⟩ := Session.compile_twoIconTree []
  obtain ⟨-, hpending, -, -, -, -, hmessages, -⟩ :=
    messages_of_notices siteScope Compiler.dotCompiler (Session.twoIconTree []) 5 hready hparent
  have hchanges : ((recordAll siteScope (.empty 2) editing).drain 4).2 =
      [⟨.ofString "/about.html", .modified⟩, ⟨.ofString "/i/a.svg", .modified⟩,
        ⟨.ofString "/i/b.svg", .created⟩, ⟨.ofString "/index.html", .modified⟩] := by
    cbv
  have hicon : ∃ change ∈ ((recordAll siteScope (.empty 2) editing).drain 4).2,
      siteScope.classify change.path = some .icon := by
    rw [hchanges]
    exact ⟨⟨.ofString "/i/a.svg", .modified⟩, by simp, by cbv⟩
  have hurls : ((recordAll siteScope (.empty 2) editing).drain 4).2.filterMap (pageUrl? siteScope) =
      ["/about.html".toList, "/index.html".toList] := by
    rw [hchanges]
    cbv
  refine ⟨hready, hparent, hpending, ?_⟩
  rw [hmessages, hurls, hcompile, if_pos ⟨hicon, rfl⟩]
  rfl

/-- The empty path leads nowhere and stays as it is. A dot in front of a page makes another one below
it, with the same URL. -/
def placeless : Scope :=
  .ofDirectories (Session.twoIconTree []) (.ofString "") (.ofString "/i") Scope.defaultPatterns

def dotted : List (Nat × Notice) :=
  [(0, ⟨some .modified, [.ofString "a.html", .ofString "./a.html"]⟩)]

theorem reloaded_twice : (∀ e ∈ dotted, e.1 + 2 ≤ 2) ∧
    (∀ e ∈ dotted, ∀ path ∈ e.2.paths, .parent ∉ path.components) ∧
      (handle placeless Compiler.dotCompiler 3 (Session.twoIconTree [])
        ((recordAll placeless (.empty 2) dotted).drain 2).2).2 =
          [.reload "/a.html".toList, .reload "/a.html".toList] := by
  refine ⟨by decide, by decide, ?_⟩
  cbv

end saved

end StaticSite.LiveReload
