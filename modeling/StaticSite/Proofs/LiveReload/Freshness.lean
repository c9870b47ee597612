import StaticSite.Proofs.LiveReload.Session
import StaticSite.Proofs.Sprite.Compiled

namespace StaticSite.LiveReload.Session
open StaticSite.Sprite StaticSite.FileTree StaticSite.Svg StaticSite.Sprite.Compiler

variable {c : Compiler} {scope : Scope} {sprite : Location} {s : Session}

theorem tracks_start {t : FileTree} {content : Content} (ht : t.Proper)
    (hfind : t.find c.output = .ok (sprite, .file content))
    (htext : t.readText c.output = .ok (c.sheetOf t)) (window now : Nat) :
    Tracks c scope sprite (start t window now) := by
  constructor
  case tree | read => exact ht
  case ways => exact .refl t
  case found => exact ⟨content, hfind⟩
  case distinct => exact List.nodup_nil
  case icons | unnoticed | gone =>
    intro p hp
    cases hp
  case agrees =>
    intro l _ _
    rfl
  case text =>
    intro _
    exact htext

section withFiles

variable {t r : FileTree} {files : List (Location × Content)}
variable (hfiles : ∀ e ∈ files, r.get? e.1 = some (.file e.2))
include hfiles

theorem get?_withFiles_of_mem {l : Location} (hl : l ∈ files.map (·.1)) :
    (t.withFiles files).get? l = r.get? l := by
  induction files with
  | nil => cases hl
  | cons e files ih =>
    have he := hfiles e (List.mem_cons_self ..)
    rw [withFiles, get?_set (ne_nil_of_get?_file he)]
    by_cases hle : l = e.1
    · rw [if_pos hle, hle, he]
    · rw [if_neg hle]
      apply ih fun e' he' => hfiles e' (List.mem_cons_of_mem _ he')
      exact (List.mem_cons.mp hl).resolve_left hle

theorem get?_withFiles_of_notMem {l : Location} (hl : l ∉ files.map (·.1)) :
    (t.withFiles files).get? l = t.get? l := by
  induction files with
  | nil => rfl
  | cons e files ih =>
    obtain ⟨hle, hl⟩ := not_or.mp (fun h => hl (List.mem_cons.mpr h))
    rw [withFiles, get?_set (ne_nil_of_get?_file (hfiles e (List.mem_cons_self ..))), if_neg hle]
    exact ih (fun e' he' => hfiles e' (List.mem_cons_of_mem _ he')) hl

theorem within_withFiles (ht : t.Proper) (hr : r.Proper) (hways : t.SameWays r) :
    (t.withFiles files).Proper ∧ t.Within (t.withFiles files) := by
  induction files with
  | nil => exact ⟨ht, within_of_get? rfl fun _ => rfl⟩
  | cons e files ih =>
    have he := hfiles e (List.mem_cons_self ..)
    obtain ⟨hproper, hwithin⟩ := ih fun e' he' => hfiles e' (List.mem_cons_of_mem _ he')
    have hback := hwithin.toSameWays.symm.trans hways
    have hbefore : ∀ n, (t.withFiles files).get? e.1 = some n → ∃ content, n = .file content :=
      hback.symm.file fun n hn => ⟨e.2, Option.some.inj (hn.symm.trans he)⟩
    have hreplaces : Replaces e.1 .modified (t.withFiles files) _ :=
      replaces_set hproper (hr.isName_of_get? he) ((hback.directory _).mpr (hr.parent_of_get? he))
        hbefore (by simp) e.2
    have hsame := sameWays_of_get? hreplaces.here hreplaces.other hreplaces.before hreplaces.after
    refine ⟨hreplaces.proper, hwithin.toSameWays.trans hsame, ?_⟩
    intro l content hl
    by_cases hle : l = e.1
    · exact ⟨e.2, by rw [withFiles, get?_set (ne_nil_of_get?_file he), if_pos hle]⟩
    · obtain ⟨other, hother⟩ := hwithin.file l content hl
      exact ⟨other, (hreplaces.other l hle).trans hother⟩

end withFiles

theorem Tracks.get?_asRead (h : Tracks c scope sprite s) (hquiet : s.debouncer.pending = [])
    (l : Location) : s.asRead.get? l = s.read.get? l := by
  by_cases hl : l ∈ s.unnoticed.map (·.1)
  · exact get?_withFiles_of_mem h.unnoticed hl
  · rw [asRead, get?_withFiles_of_notMem h.unnoticed hl]
    apply h.agrees l hl
    intro _
    exact Debouncer.kindOf?_of_nil hquiet

theorem Tracks.readText_of_quiet (h : Tracks c scope sprite s)
    (hquiet : s.debouncer.pending = []) (hicons : Icon.scan s.tree c.iconsDir ≠ []) :
    s.tree.readText c.output = .ok (c.sheetOf s.asRead) := by
  obtain ⟨hproper, hwithin⟩ := within_withFiles h.unnoticed h.tree h.read h.ways
  have hhere : s.read.here = s.asRead.here := h.ways.here.trans hwithin.here.symm
  have hto : s.asRead.Within s.read := within_of_get? hhere fun l => (h.get?_asRead hquiet l).symm
  have hfrom : s.read.Within s.asRead := within_of_get? hhere.symm (h.get?_asRead hquiet)
  have hsheet : c.sheetOf s.asRead = c.sheetOf s.read := by
    apply Compiler.sheetOf_eq h.read hproper hfrom hto
    intro _ _ l _ _
    exact h.get?_asRead hquiet l
  rw [hsheet]
  apply h.text
  intro hnone
  apply hicons
  apply List.eq_nil_iff_forall_not_mem.mpr
  intro icon hicon
  have hread := Icon.scan_subset hto _ (Icon.scan_subset hwithin _ hicon)
  rw [hnone] at hread
  cases hread

theorem Tracks.sheetOf_asRead (h : Tracks c scope sprite s)
    (hunnoticed : ∀ e ∈ s.unnoticed, e.1 = sprite)
    (hicons : ∀ icon ∈ Icon.scan s.tree c.iconsDir, ∀ n, s.tree.find icon.path ≠ .ok (sprite, n)) :
    c.sheetOf s.asRead = c.sheetOf s.tree := by
  obtain ⟨hproper, hwithin⟩ := within_withFiles h.unnoticed h.tree h.read h.ways
  have hother : ∀ l, l ≠ sprite → s.asRead.get? l = s.tree.get? l := by
    intro l hl
    apply get?_withFiles_of_notMem h.unnoticed
    intro hmem
    obtain ⟨e, he, rfl⟩ := List.mem_map.mp hmem
    exact hl (hunnoticed e he)
  have hback : s.asRead.Within s.tree := by
    refine ⟨hwithin.toSameWays.symm, ?_⟩
    intro l content hl
    by_cases hsprite : l = sprite
    · obtain ⟨other, hfind⟩ := h.found
      rw [hsprite]
      exact ⟨other, (find_eq_ok_iff.mp hfind).2⟩
    · exact ⟨content, (hother l hsprite).symm.trans hl⟩
  apply Compiler.sheetOf_eq h.tree hproper hwithin hback
  intro icon hicon l n hfind
  apply hother
  rintro rfl
  exact hicons icon hicon n hfind

def Fresh (c : Compiler) (t : FileTree) : Prop :=
  t.readText c.output = .ok (c.sheetOf t)

/-- A run from a fresh sprite outside the icons ends with a fresh one, when nothing is pending and
icons are there, exactly if what went unnoticed makes no difference to the sheet. That is the
sprite itself and icons that are gone; without them, and without icons that lead to the sprite, it
is fresh. -/
theorem fresh_iff {t : FileTree} {content : Content} {window now : Nat} {actions : List Action}
    (ht : t.Proper) (hsprite : t.find c.output = .ok (sprite, .file content))
    (houtside : scope.classify (.ofLocation sprite) ≠ some .icon) (hfresh : Fresh c t)
    (hrun : run? c scope (start t window now) actions = some s)
    (hquiet : s.debouncer.pending = []) (hicons : Icon.scan s.tree c.iconsDir ≠ []) :
    (∀ e ∈ s.unnoticed, e.1 = sprite ∨ IsIcon scope e.1 ∧ s.tree.get? e.1 = none) ∧
      (Fresh c s.tree ↔ c.sheetOf s.asRead = c.sheetOf s.tree) ∧
      ((∀ e ∈ s.unnoticed, e.1 = sprite) →
        (∀ icon ∈ Icon.scan s.tree c.iconsDir, ∀ n, s.tree.find icon.path ≠ .ok (sprite, n)) →
          Fresh c s.tree) := by
  have hnot : ¬ IsIcon scope sprite := fun hicon => houtside hicon.2
  have h : Tracks c scope sprite s := (tracks_start ht hsprite hfresh window now).run hnot hrun
  have htext := h.readText_of_quiet hquiet hicons
  have hiff : Fresh c s.tree ↔ c.sheetOf s.asRead = c.sheetOf s.tree := by
    rw [Fresh, htext, Except.ok.injEq]
  refine ⟨?_, hiff, ?_⟩
  · intro e he
    by_cases hne : e.1 = sprite
    · exact .inl hne
    · obtain ⟨hicon, hgone⟩ := h.gone e he hne
      exact .inr ⟨hicon, hgone (Debouncer.kindOf?_of_nil hquiet)⟩
  · intro hunnoticed hothers
    exact hiff.mpr (h.sheetOf_asRead hunnoticed hothers)

section watched

def aPlace : Location := ["i".toList, "a.svg".toList]

def bPlace : Location := ["i".toList, "b.svg".toList]

def spritePlace : Location := ["o.svg".toList]

def dotFile : Content := .text dotSource

def bIcon : Icon := ⟨.ofString "/i/b.svg", .ofString "b.svg", "b".toList⟩

def iconTree (sprite : List Char) : FileTree :=
  ⟨[(["i".toList], .directory), (aPlace, .file dotFile), (spritePlace, .file (.text sprite))], []⟩

def twoIconTree (sprite : List Char) : FileTree :=
  ⟨[(["i".toList], .directory), (aPlace, .file dotFile), (spritePlace, .file (.text sprite)),
    (bPlace, .file dotFile)], []⟩

def oneIconSheet : List Char :=
  sheet [dotSymbol "a".toList]

def twoIconSheet : List Char :=
  sheet [dotSymbol "a".toList, dotSymbol "b".toList]

def dotScope : Scope := ⟨.ofString "/", .ofString "/i", []⟩

variable (sprite : List Char)

theorem scan_iconTree : Icon.scan (iconTree sprite) dotCompiler.iconsDir = [dotIcon] := by
  cbv

theorem scan_twoIconTree :
    Icon.scan (twoIconTree sprite) dotCompiler.iconsDir = [dotIcon, bIcon] := by
  cbv

theorem find_dotIcon :
    (twoIconTree sprite).find dotIcon.path = .ok (aPlace, .file dotFile) := by
  cbv

theorem find_bIcon : (twoIconTree sprite).find bIcon.path = .ok (bPlace, .file dotFile) := by
  cbv

theorem sheetOf_iconTree : dotCompiler.sheetOf (iconTree sprite) = oneIconSheet := by
  have hread : (iconTree sprite).readText dotIcon.path = .ok dotSource := by
    cbv
  have hbuild : build dotCompiler.optimizer (iconTree sprite) dotIcon = _ :=
    build_dot checkTag_dot rfl hread
  simp only [sheetOf, collection, scan_iconTree, collect, hbuild]
  rfl

theorem sheetOf_twoIconTree : dotCompiler.sheetOf (twoIconTree sprite) = twoIconSheet := by
  have hread : (twoIconTree sprite).readText dotIcon.path = .ok dotSource := by
    cbv
  have hread' : (twoIconTree sprite).readText bIcon.path = .ok dotSource := by
    cbv
  have htag : checkTag sheetScope (dotSymbol "b".toList).tag = .ok sheetScope := by
    cbv
  have hbuild : build dotCompiler.optimizer (twoIconTree sprite) dotIcon = _ :=
    build_dot checkTag_dot rfl hread
  have hbuild' : build dotCompiler.optimizer (twoIconTree sprite) bIcon = _ :=
    build_dot htag rfl hread'
  simp only [sheetOf, collection, scan_twoIconTree, collect, hbuild, hbuild']
  rfl

theorem compile_twoIconTree : ∃ report, dotCompiler.compile (twoIconTree sprite) =
    (twoIconTree twoIconSheet, .ok report) := by
  have hfind : (twoIconTree sprite).find dotCompiler.output =
      .ok (spritePlace, .file (.text sprite)) := by
    cbv
  have hlocate : (twoIconTree sprite).locate .created dotCompiler.output = .ok spritePlace := by
    cbv
  apply exists_compile_eq hfind
  · rw [scan_twoIconTree]
    simp
  · rw [sheetOf_twoIconTree]
    apply write_eq_ok_iff.mpr
    refine ⟨spritePlace, hlocate, ?_, rfl⟩
    rw [(find_eq_ok_iff.mp hfind).2]
    simp

theorem proper_iconTree : (iconTree sprite).Proper := by
  have hkeys : (iconTree sprite).nodes.map (·.1) = [["i".toList], aPlace, spritePlace] := rfl
  have hkey {e : Location × Node} (he : e ∈ (iconTree sprite).nodes) :
      e.1 ∈ [["i".toList], aPlace, spritePlace] := by
    rw [← hkeys]
    exact List.mem_map_of_mem he
  constructor
  · rw [hkeys]
    decide
  · intro e he
    have hne : ∀ l ∈ [["i".toList], aPlace, spritePlace], l ≠ [] := by decide
    exact hne e.1 (hkey he)
  · intro e he
    have hname : ∀ l ∈ [["i".toList], aPlace, spritePlace], ∀ name ∈ l, Path.IsName name := by
      decide
    exact hname e.1 (hkey he)
  · intro e he
    rcases List.mem_cons.mp (hkey he) with h | h
    · rw [h]
      rfl
    · rcases List.mem_cons.mp h with h | h
      · rw [h]
        rfl
      · rw [List.mem_singleton.mp h]
        rfl

theorem proper_twoIconTree : (twoIconTree sprite).Proper :=
  have hnone : (iconTree sprite).get? bPlace ≠ some .directory := by
    rw [show (iconTree sprite).get? bPlace = none from rfl]
    simp
  (proper_iconTree sprite).set_file (l := bPlace) (by decide) rfl hnone dotFile

theorem sheet_ne (s s' : Symbol) : sheet [s, s'] ≠ sheet [s] := by
  intro h
  unfold sheet at h
  have hmarkup := List.append_cancel_left (List.append_cancel_right h)
  rw [List.flatMap_cons, List.flatMap_cons, List.flatMap_cons, List.append_cancel_left_eq] at hmarkup
  have hnil := (List.append_eq_nil_iff.mp hmarkup).1
  unfold Symbol.markup at hnil
  simp at hnil

def watched : Session :=
  start (iconTree oneIconSheet) 2 0

theorem readText_iconTree : (iconTree sprite).readText dotCompiler.output = .ok sprite := by
  cbv

theorem fresh_watched : Fresh dotCompiler watched.tree :=
  (readText_iconTree _).trans (congrArg Except.ok (sheetOf_iconTree _).symm)

theorem find_sprite :
    (iconTree sprite).find dotCompiler.output = .ok (spritePlace, .file (.text sprite)) := by
  cbv

theorem classify_sprite : dotScope.classify (.ofLocation spritePlace) ≠ some .icon := by
  decide

def passing : List Action :=
  [.modify aPlace dotFile, .wait 1, .create bPlace dotFile, .wait 1, .batch, .remove bPlace]

def arriving : List Action :=
  [.create bPlace dotFile, .wait 2, .batch]

theorem batch_twoIconTree {d : Debouncer} {now : Nat} {read : FileTree}
    {unnoticed : List (Location × Content)} (hicon : .icon ∈ effects dotScope (d.drain now).2) :
    act? dotCompiler dotScope ⟨twoIconTree sprite, d, now, read, unnoticed⟩ .batch =
      some ⟨twoIconTree twoIconSheet, (d.drain now).1, now, twoIconTree sprite,
        (twoIconTree twoIconSheet).changedFiles (twoIconTree sprite)⟩ := by
  obtain ⟨report, hcompile⟩ := compile_twoIconTree sprite
  simp only [act?, batch?, handle_eq, if_pos hicon, hcompile]

theorem run_passing : ∃ unnoticed, run? dotCompiler dotScope watched passing =
    some ⟨iconTree twoIconSheet, ⟨2, []⟩, 2, twoIconTree oneIconSheet, unnoticed⟩ := by
  have hmodify (text : List Char) :
      act? dotCompiler dotScope (start (iconTree text) 2 0) (.modify aPlace dotFile) =
        some ⟨iconTree text, ⟨2, [⟨.ofLocation aPlace, .modified, 2⟩]⟩, 0, iconTree text, []⟩ := by
    cbv
  have hcreate (text : List Char) :
      act? dotCompiler dotScope ⟨iconTree text, ⟨2, [⟨.ofLocation aPlace, .modified, 2⟩]⟩, 1,
        iconTree text, []⟩ (.create bPlace dotFile) = some ⟨twoIconTree text,
          ⟨2, [⟨.ofLocation aPlace, .modified, 2⟩, ⟨.ofLocation bPlace, .created, 3⟩]⟩, 1,
          iconTree text, []⟩ := by
    cbv
  have hremove (text text' : List Char) (unnoticed : List (Location × Content)) :
      act? dotCompiler dotScope ⟨twoIconTree text, ⟨2, [⟨.ofLocation bPlace, .created, 3⟩]⟩, 2,
        twoIconTree text', unnoticed⟩ (.remove bPlace) = some ⟨iconTree text, ⟨2, []⟩, 2,
          twoIconTree text', (bPlace, dotFile) :: unnoticed⟩ := by
    cbv
  have hdrain : (Debouncer.mk 2 [⟨.ofLocation aPlace, .modified, 2⟩,
      ⟨.ofLocation bPlace, .created, 3⟩]).drain 2 =
        (⟨2, [⟨.ofLocation bPlace, .created, 3⟩]⟩, [⟨.ofLocation aPlace, .modified⟩]) := by
    cbv
  have hicon : Effect.icon ∈ effects dotScope [⟨.ofLocation aPlace, .modified⟩] := by
    decide
  have hbatch := @batch_twoIconTree oneIconSheet (Debouncer.mk 2
    [⟨.ofLocation aPlace, .modified, 2⟩, ⟨.ofLocation bPlace, .created, 3⟩]) 2
    (iconTree oneIconSheet) [] (by rw [hdrain]; exact hicon)
  rw [hdrain] at hbatch
  exact ⟨_, (run?_cons (hmodify _)).trans ((run?_cons rfl).trans ((run?_cons (hcreate _)).trans
    ((run?_cons rfl).trans ((run?_cons hbatch).trans (run?_cons (hremove _ _ _))))))⟩

theorem not_fresh_passing : Fresh dotCompiler watched.tree ∧
    ∃ s, run? dotCompiler dotScope watched passing = some s ∧ s.debouncer.pending = [] ∧
      Icon.scan s.tree dotCompiler.iconsDir ≠ [] ∧ ¬ Fresh dotCompiler s.tree := by
  obtain ⟨unnoticed, hrun⟩ := run_passing
  refine ⟨fresh_watched, _, hrun, rfl, ?_, ?_⟩
  · rw [scan_iconTree]
    simp
  · intro hfresh
    have hread : (iconTree twoIconSheet).readText dotCompiler.output = .ok twoIconSheet :=
      readText_iconTree _
    have heq := hread.symm.trans hfresh
    rw [sheetOf_iconTree] at heq
    exact sheet_ne _ _ (Except.ok.inj heq)

theorem run_arriving : run? dotCompiler dotScope watched arriving =
    some ⟨twoIconTree twoIconSheet, ⟨2, []⟩, 2, twoIconTree oneIconSheet,
      (twoIconTree twoIconSheet).changedFiles (twoIconTree oneIconSheet)⟩ := by
  have hcreate (text : List Char) :
      act? dotCompiler dotScope (start (iconTree text) 2 0) (.create bPlace dotFile) =
        some ⟨twoIconTree text, ⟨2, [⟨.ofLocation bPlace, .created, 2⟩]⟩, 0, iconTree text, []⟩ := by
    cbv
  have hdrain : (Debouncer.mk 2 [⟨.ofLocation bPlace, .created, 2⟩]).drain 2 =
      (⟨2, []⟩, [⟨.ofLocation bPlace, .created⟩]) := by
    cbv
  have hicon : Effect.icon ∈ effects dotScope [⟨.ofLocation bPlace, .created⟩] := by
    decide
  have hbatch := @batch_twoIconTree oneIconSheet (Debouncer.mk 2
    [⟨.ofLocation bPlace, .created, 2⟩]) 2 (iconTree oneIconSheet) [] (by rw [hdrain]; exact hicon)
  rw [hdrain] at hbatch
  exact (run?_cons (hcreate _)).trans ((run?_cons rfl).trans (run?_cons hbatch))

theorem eq_spritePlace_of_mem (text : List Char) :
    ∀ e ∈ (twoIconTree text).changedFiles (twoIconTree sprite), e.1 = spritePlace := by
  intro e he
  by_contra hne
  obtain ⟨hbefore, hafter⟩ := (mem_changedFiles_iff (proper_twoIconTree sprite)).mp he
  have hset : twoIconTree text = (twoIconTree sprite).set spritePlace (.file (.text text)) := rfl
  apply hafter
  rw [hset, get?_set (by decide), if_neg hne, hbefore]

theorem fresh_arriving : ∃ s, run? dotCompiler dotScope watched arriving = some s ∧
    s.debouncer.pending = [] ∧ Icon.scan s.tree dotCompiler.iconsDir ≠ [] ∧
      Fresh dotCompiler s.tree := by
  have hicons : Icon.scan (twoIconTree twoIconSheet) dotCompiler.iconsDir ≠ [] := by
    rw [scan_twoIconTree]
    simp
  obtain ⟨-, -, hfresh⟩ := fresh_iff (proper_iconTree _) (find_sprite _) classify_sprite fresh_watched
    run_arriving rfl hicons
  dsimp only at hfresh
  refine ⟨_, run_arriving, rfl, hicons, hfresh (eq_spritePlace_of_mem oneIconSheet twoIconSheet) ?_⟩
  · have ha : (twoIconTree twoIconSheet).find dotIcon.path = .ok (aPlace, .file dotFile) :=
      find_dotIcon _
    have hb : (twoIconTree twoIconSheet).find bIcon.path = .ok (bPlace, .file dotFile) :=
      find_bIcon _
    intro icon hicon n hfind
    rw [scan_twoIconTree] at hicon
    rcases List.mem_cons.mp hicon with rfl | hicon
    · exact absurd (Prod.mk.inj (Except.ok.inj (ha.symm.trans hfind))).1 (by decide)
    · rw [List.mem_singleton.mp hicon] at hfind
      exact absurd (Prod.mk.inj (Except.ok.inj (hb.symm.trans hfind))).1 (by decide)

end watched

end StaticSite.LiveReload.Session
