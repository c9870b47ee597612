import StaticSite.LiveReload.Batch
import StaticSite.Proofs.LiveReload.Pending
import StaticSite.Proofs.Sprite.Scan

/-!
Icons come, change and go while time passes and batches are handled. Beside what is there, a session
keeps what the last compile read, to tell what has changed since.
-/

namespace StaticSite

def FileTree.hasFile (t : FileTree) (l : Location) : Bool :=
  match t.get? l with
  | some (.file _) => true
  | _ => false

def FileTree.withFiles (t : FileTree) : List (Location × Content) → FileTree
  | [] => t
  | (l, content) :: files => (t.withFiles files).set l (.file content)

namespace LiveReload
open StaticSite.Sprite StaticSite.FileTree

inductive Action where
  | wait (time : Nat)
  | create (l : Location) (content : Content)
  | modify (l : Location) (content : Content)
  | remove (l : Location)
  | batch

/-- `read` is what the last compile read, and `unnoticed` what it read of the files that have
changed since without a change that tells of it. -/
structure Session where
  tree : FileTree
  debouncer : Debouncer
  now : Nat
  read : FileTree
  unnoticed : List (Location × Content)

def IsIcon (scope : Scope) (l : Location) : Prop :=
  (∀ name ∈ l, Path.IsName name) ∧ scope.classify (.ofLocation l) = some .icon

instance (scope : Scope) (l : Location) : Decidable (IsIcon scope l) :=
  inferInstanceAs (Decidable (_ ∧ _))

namespace Session

def start (t : FileTree) (window now : Nat) : Session :=
  ⟨t, .empty window, now, t, []⟩

def asRead (s : Session) : FileTree :=
  s.tree.withFiles s.unnoticed

def overlooked (s : Session) (d : Debouncer) (l : Location) : List (Location × Content) :=
  match d.kindOf? (.ofLocation l), s.read.get? l with
  | none, some (.file content) => [(l, content)]
  | _, _ => []

def change (s : Session) (l : Location) (kind : ChangeKind) (t : FileTree) : Session :=
  let d := s.debouncer.record s.now (.ofLocation l) kind
  { s with tree := t, debouncer := d, unnoticed := s.overlooked d l ++ s.unnoticed }

def batch? (c : Compiler) (scope : Scope) (s : Session) : Option Session :=
  let (d, changes) := s.debouncer.drain s.now
  let t := (handle scope c s.now s.tree changes).1
  if .icon ∈ effects scope changes then
    match (c.compile s.tree).2 with
    | .ok _ => some ⟨t, d, s.now, s.tree, t.changedFiles s.tree⟩
    | .error _ => none
  else some { s with tree := t, debouncer := d }

def act? (c : Compiler) (scope : Scope) (s : Session) : Action → Option Session
  | .wait time => some { s with now := s.now + time }
  | .create l content =>
    if IsIcon scope l ∧ s.tree.get? l = none ∧ s.tree.get? l.dropLast = some .directory then
      some (s.change l .created (s.tree.set l (.file content)))
    else none
  | .modify l content =>
    if IsIcon scope l ∧ s.tree.hasFile l then
      some (s.change l .modified (s.tree.set l (.file content)))
    else none
  | .remove l =>
    if IsIcon scope l ∧ s.tree.hasFile l then some (s.change l .removed (s.tree.erase l)) else none
  | .batch => s.batch? c scope

def run? (c : Compiler) (scope : Scope) : Session → List Action → Option Session
  | s, [] => some s
  | s, a :: as => (s.act? c scope a).bind fun next => run? c scope next as

theorem run?_cons {c : Compiler} {scope : Scope} {s next : Session} {a : Action}
    {actions : List Action} (h : s.act? c scope a = some next) :
    run? c scope s (a :: actions) = run? c scope next actions := by
  rw [run?, h, Option.bind_some]

/-- What is pending tells of every icon that is not as the last compile read it, but for those that
went unnoticed. -/
structure Tracks (c : Compiler) (scope : Scope) (sprite : Location) (s : Session) : Prop where
  tree : s.tree.Proper
  read : s.read.Proper
  ways : s.tree.SameWays s.read
  found : ∃ content, s.tree.find c.output = .ok (sprite, .file content)
  distinct : Debouncer.Distinct s.debouncer.pending
  icons : ∀ p ∈ s.debouncer.pending, ∃ l, IsIcon scope l ∧ p.path = .ofLocation l
  unnoticed : ∀ e ∈ s.unnoticed, s.read.get? e.1 = some (.file e.2)
  gone : ∀ e ∈ s.unnoticed, e.1 ≠ sprite → IsIcon scope e.1 ∧
    (s.debouncer.kindOf? (.ofLocation e.1) = none → s.tree.get? e.1 = none)
  agrees : ∀ l, l ∉ s.unnoticed.map (·.1) →
    (IsIcon scope l → s.debouncer.kindOf? (.ofLocation l) = none) → s.tree.get? l = s.read.get? l
  text : Icon.scan s.read c.iconsDir ≠ [] → s.tree.readText c.output = .ok (c.sheetOf s.read)

variable {c : Compiler} {scope : Scope} {sprite : Location} {s : Session}

theorem mem_overlooked {d : Debouncer} {l : Location} {e : Location × Content}
    (h : e ∈ s.overlooked d l) : e.1 = l ∧ s.read.get? e.1 = some (.file e.2) := by
  unfold overlooked at h
  split at h
  · rename_i content _ hread
    rw [List.mem_singleton.mp h]
    exact ⟨rfl, hread⟩
  · cases h

theorem Tracks.kindOf?_change (h : Tracks c scope sprite s) {l k : Location} {kind : ChangeKind}
    (hl : IsIcon scope l) (hk : IsIcon scope k) :
    (s.debouncer.record s.now (.ofLocation l) kind).kindOf? (.ofLocation k) =
      if l = k then Debouncer.after (s.debouncer.kindOf? (.ofLocation l)) kind
      else s.debouncer.kindOf? (.ofLocation k) := by
  rw [Debouncer.kindOf?_record h.distinct]
  by_cases hlk : l = k
  · rw [if_pos hlk, if_pos ((Path.same_ofLocation_iff hl.1 hk.1).mpr hlk)]
  · rw [if_neg hlk, if_neg]
    intro hsame
    exact hlk ((Path.same_ofLocation_iff hl.1 hk.1).mp hsame)

structure Replaces (l : Location) (kind : ChangeKind) (t u : FileTree) : Prop where
  proper : u.Proper
  here : u.here = t.here
  other : ∀ k, k ≠ l → u.get? k = t.get? k
  before : ∀ n, t.get? l = some n → ∃ content, n = .file content
  after : ∀ n, u.get? l = some n → ∃ content, n = .file content
  removed : kind = .removed → u.get? l = none

theorem Tracks.change (h : Tracks c scope sprite s) (hsprite : ¬ IsIcon scope sprite)
    {l : Location} {kind : ChangeKind} {t : FileTree} (hl : IsIcon scope l)
    (ht : Replaces l kind s.tree t) : Tracks c scope sprite (s.change l kind t) := by
  have hways : s.tree.SameWays t := sameWays_of_get? ht.here ht.other ht.before ht.after
  have hne : sprite ≠ l := by
    rintro rfl
    exact hsprite hl
  obtain ⟨content, hfind⟩ := h.found
  have hfind' : t.find c.output = .ok (sprite, .file content) := by
    obtain ⟨hlocate, hcontent⟩ := find_eq_ok_iff.mp hfind
    rw [← ht.other sprite hne] at hcontent
    exact find_eq_ok_iff.mpr ⟨hways.locate hlocate, hcontent⟩
  have hgone : (s.change l kind t).debouncer.kindOf? (.ofLocation l) = none → t.get? l = none := by
    intro hnone
    apply ht.removed
    rw [Session.change, h.kindOf?_change hl hl, if_pos rfl] at hnone
    exact (Debouncer.eq_removed_of_after hnone).2
  constructor
  case tree => exact ht.proper
  case read => exact h.read
  case ways => exact hways.symm.trans h.ways
  case found => exact ⟨content, hfind'⟩
  case distinct => exact Debouncer.distinct_merge h.distinct
  case icons =>
    intro p hp
    rcases Debouncer.path_of_mem_merge hp with hpath | ⟨old, hold, hpath⟩
    · exact ⟨l, hl, hpath⟩
    · obtain ⟨k, hk, hold⟩ := h.icons old hold
      exact ⟨k, hk, hpath.trans hold⟩
  case unnoticed =>
    intro e he
    rcases List.mem_append.mp he with he | he
    · exact (mem_overlooked he).2
    · exact h.unnoticed e he
  case gone =>
    intro e he hne'
    by_cases hel : e.1 = l
    · rw [hel]
      exact ⟨hl, hgone⟩
    · rcases List.mem_append.mp he with he | he
      · exact absurd (mem_overlooked he).1 hel
      · obtain ⟨hicon, hnone⟩ := h.gone e he hne'
        refine ⟨hicon, ?_⟩
        rw [Session.change, h.kindOf?_change hl hicon, if_neg (Ne.symm hel), ht.other _ hel]
        exact hnone
  case agrees =>
    intro k hk hquiet
    simp only [Session.change, List.map_append, List.mem_append, not_or] at hk hquiet ⊢
    by_cases hkl : k = l
    · subst hkl
      -- Nothing is told of the file, so it is gone, and the last compile did not read it either.
      rw [hgone (hquiet hl)]
      cases hread : s.read.get? k with
      | none => rfl
      | some n =>
        obtain ⟨old, rfl⟩ := h.ways.file ht.before n hread
        exfalso
        apply hk.1
        rw [overlooked, hquiet hl, hread]
        exact List.mem_singleton.mpr rfl
    · rw [ht.other k hkl]
      apply h.agrees k hk.2
      intro hicon
      have hnone := hquiet hicon
      rw [h.kindOf?_change hl hicon, if_neg (Ne.symm hkl)] at hnone
      exact hnone
  case text =>
    intro hscan
    exact (Compiler.readText_eq_of_find hfind hfind').trans (h.text hscan)

theorem replaces_set {t : FileTree} {l : Location} {kind : ChangeKind} (h : t.Proper)
    (hname : ∀ name ∈ l, Path.IsName name) (hparent : t.get? l.dropLast = some .directory)
    (hl : ∀ n, t.get? l = some n → ∃ content, n = .file content) (hkind : kind ≠ .removed)
    (content : Content) : Replaces l kind t (t.set l (.file content)) := by
  have hdirectory : t.get? l ≠ some .directory := by
    intro hdir
    obtain ⟨old, hold⟩ := hl _ hdir
    cases hold
  have hroot := ne_nil_of_not_directory hdirectory
  constructor
  · exact h.set_file hname hparent hdirectory content
  · rfl
  · intro k hk
    rw [get?_set hroot, if_neg hk]
  · exact hl
  · intro n hn
    rw [get?_set hroot, if_pos rfl] at hn
    exact ⟨content, (Option.some.inj hn).symm⟩
  · intro hremoved
    exact absurd hremoved hkind

theorem replaces_erase {t : FileTree} {l : Location} {content : Content} (h : t.Proper)
    (hl : t.get? l = some (.file content)) : Replaces l .removed t (t.erase l) := by
  have hnone : (t.erase l).get? l = none := by rw [h.get?_erase hl, if_pos rfl]
  constructor
  · exact h.erase hl
  · rfl
  · intro k hk
    rw [h.get?_erase hl, if_neg hk]
  · intro n hn
    exact ⟨content, Option.some.inj (hn.symm.trans hl)⟩
  · intro n hn
    rw [hnone] at hn
    cases hn
  · intro _
    exact hnone

theorem exists_of_hasFile {t : FileTree} {l : Location} (h : t.hasFile l = true) :
    ∃ content, t.get? l = some (.file content) := by
  unfold hasFile at h
  split at h
  · rename_i content hcontent
    exact ⟨content, hcontent⟩
  · cases h

theorem handle_eq {changes : List Change} {now : Nat} {t : FileTree} :
    (handle scope c now t changes).1 =
      if .icon ∈ effects scope changes then (c.compile t).1 else t := by
  unfold handle
  dsimp only
  split
  · split
    · rename_i hcompile
      rw [hcompile]
    · rename_i hcompile
      rw [hcompile]
  · rfl

theorem Tracks.mem_effects (h : Tracks c scope sprite s) {p : Pending}
    (hp : p ∈ s.debouncer.ready s.now) :
    .icon ∈ effects scope (s.debouncer.drain s.now).2 := by
  obtain ⟨l, hl, hpath⟩ := h.icons p (Debouncer.mem_ready_iff.mp hp).1
  apply List.mem_filterMap.mpr
  refine ⟨⟨p.path, p.kind⟩, List.mem_map.mpr ⟨p, hp, rfl⟩, ?_⟩
  rw [hpath]
  exact hl.2

structure Compiles (c : Compiler) (sprite : Location) (t u : FileTree) : Prop where
  proper : u.Proper
  ways : u.SameWays t
  found : ∃ content, u.find c.output = .ok (sprite, .file content)
  other : ∀ l, l ≠ sprite → u.get? l = t.get? l
  text : Icon.scan t c.iconsDir ≠ [] → u.readText c.output = .ok (c.sheetOf t)

theorem compiles_of_find {t u : FileTree} {content : Content} {report : Report} (ht : t.Proper)
    (hfind : t.find c.output = .ok (sprite, .file content))
    (hcompile : c.compile t = (u, .ok report)) : Compiles c sprite t u := by
  obtain ⟨hlocate, hcontent⟩ := find_eq_ok_iff.mp hfind
  rcases Compiler.compile_of_find hfind hcompile with ⟨hnone, rfl⟩ | ⟨-, rfl, htext⟩
  · exact ⟨ht, .refl _, ⟨content, hfind⟩, fun l _ => rfl, fun hsome => absurd hnone hsome⟩
  · have hreplaces : Replaces sprite .modified t _ := replaces_set ht (ht.isName_of_get? hcontent)
      (ht.parent_of_get? hcontent) (fun n hn => ⟨content, Option.some.inj (hn.symm.trans hcontent)⟩)
      (by simp) (.text (c.sheetOf t))
    have hways := sameWays_of_get? hreplaces.here hreplaces.other hreplaces.before hreplaces.after
    have hnew : (t.set sprite (.file (.text (c.sheetOf t)))).get? sprite =
        some (.file (.text (c.sheetOf t))) := by
      rw [get?_set (ne_nil_of_get?_file hcontent), if_pos rfl]
    exact ⟨hreplaces.proper, hways.symm, ⟨_, find_eq_ok_iff.mpr ⟨hways.locate hlocate, hnew⟩⟩,
      hreplaces.other, fun _ => htext⟩

theorem Tracks.compiled (h : Tracks c scope sprite s) {t : FileTree} {report : Report}
    (hcompile : c.compile s.tree = (t, .ok report)) :
    Tracks c scope sprite
      ⟨t, (s.debouncer.drain s.now).1, s.now, s.tree, t.changedFiles s.tree⟩ := by
  obtain ⟨content, hfind⟩ := h.found
  have hcontent := (find_eq_ok_iff.mp hfind).2
  obtain ⟨hproper, hways, hsprite, hother, htext⟩ := compiles_of_find h.tree hfind hcompile
  constructor
  case tree => exact hproper
  case read => exact h.tree
  case ways => exact hways
  case found => exact hsprite
  case distinct => exact h.distinct.sublist (List.filter_sublist.map _)
  case icons =>
    intro p hp
    exact h.icons p (List.mem_filter.mp hp).1
  case unnoticed =>
    intro e he
    exact ((mem_changedFiles_iff h.tree).mp he).1
  case gone =>
    intro e he hne
    obtain ⟨hbefore, hafter⟩ := (mem_changedFiles_iff h.tree).mp he
    rw [hother _ hne] at hafter
    exact absurd hbefore hafter
  case agrees =>
    intro l hl _
    by_cases hne : l = sprite
    · subst hne
      rw [hcontent]
      by_contra hdiffer
      apply hl
      exact List.mem_map.mpr ⟨(l, content), (mem_changedFiles_iff h.tree).mpr ⟨hcontent, hdiffer⟩, rfl⟩
    · exact hother l hne
  case text => exact htext

theorem Tracks.batch (h : Tracks c scope sprite s) {next : Session}
    (hbatch : s.batch? c scope = some next) : Tracks c scope sprite next := by
  simp only [batch?, handle_eq] at hbatch
  split at hbatch
  · cases hcompile : c.compile s.tree with
    | mk t result =>
      rw [hcompile] at hbatch
      cases result with
      | error e => cases hbatch
      | ok report =>
        obtain rfl := Option.some.inj hbatch
        exact h.compiled hcompile
  · rename_i hnone
    obtain rfl := Option.some.inj hbatch
    have hready : s.debouncer.ready s.now = [] := by
      apply List.eq_nil_iff_forall_not_mem.mpr
      intro p hp
      exact hnone (h.mem_effects hp)
    rw [Debouncer.drain_of_ready_nil hready]
    exact h

theorem Tracks.act (h : Tracks c scope sprite s) (hsprite : ¬ IsIcon scope sprite) {a : Action}
    {next : Session} (ha : s.act? c scope a = some next) : Tracks c scope sprite next := by
  cases a with
  | wait time =>
    obtain rfl := Option.some.inj ha
    exact ⟨h.tree, h.read, h.ways, h.found, h.distinct, h.icons, h.unnoticed, h.gone,
      h.agrees, h.text⟩
  | create l content =>
    simp only [act?] at ha
    split at ha
    · rename_i hguard
      obtain ⟨hl, hnone, hparent⟩ := hguard
      obtain rfl := Option.some.inj ha
      apply h.change hsprite hl
      apply replaces_set h.tree hl.1 hparent _ (by simp)
      intro n hn
      rw [hnone] at hn
      cases hn
    · cases ha
  | modify l content =>
    simp only [act?] at ha
    split at ha
    · rename_i hguard
      obtain ⟨hl, hfile⟩ := hguard
      obtain rfl := Option.some.inj ha
      obtain ⟨old, hold⟩ := exists_of_hasFile hfile
      apply h.change hsprite hl
      apply replaces_set h.tree hl.1 (h.tree.parent_of_get? hold) _ (by simp)
      intro n hn
      exact ⟨old, Option.some.inj (hn.symm.trans hold)⟩
    · cases ha
  | remove l =>
    simp only [act?] at ha
    split at ha
    · rename_i hguard
      obtain ⟨hl, hfile⟩ := hguard
      obtain rfl := Option.some.inj ha
      obtain ⟨old, hold⟩ := exists_of_hasFile hfile
      exact h.change hsprite hl (replaces_erase h.tree hold)
    · cases ha
  | batch => exact h.batch ha

theorem Tracks.run (hsprite : ¬ IsIcon scope sprite) {actions : List Action} {next : Session}
    (h : Tracks c scope sprite s) (hrun : run? c scope s actions = some next) :
    Tracks c scope sprite next := by
  induction actions generalizing s with
  | nil =>
    obtain rfl := Option.some.inj hrun
    exact h
  | cons a actions ih =>
    obtain ⟨middle, ha, hrest⟩ := Option.bind_eq_some_iff.mp hrun
    exact ih (h.act hsprite ha) hrest

end Session

end LiveReload

end StaticSite
