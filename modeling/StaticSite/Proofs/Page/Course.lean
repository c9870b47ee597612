import Mathlib.Data.Set.Card
import StaticSite.Proofs.Page.ImportGraph
import StaticSite.Proofs.Page.Splice

/-!
The course that an expansion takes, file by file. Each comes to an end, since the files that are open
at a directive differ, and what is reported there depends on these files alone.
-/

namespace StaticSite.Page
open StaticSite.Text

/-- What became of a text: characters that were kept, directives that were not followed, and files
that were opened in place of one. -/
inductive Course where
  | done
  | kept (c : Char) (rest : Course)
  | problem (d : Diagnostic) (rest : Course)
  | opened (file : Path) (inside rest : Course)
  deriving DecidableEq, Repr

inductive Takes (t : FileTree) (r : Resolver) : Path → List Path → List Piece → Course → Prop where
  | done {base : Path} {ancestry : List Path} : Takes t r base ancestry [] .done
  | kept {base : Path} {ancestry : List Path} {ps : List Piece} {rest : Course} (c : Char) :
    Takes t r base ancestry ps rest → Takes t r base ancestry (.literal c :: ps) (.kept c rest)
  | circular {base : Path} {ancestry : List Path} {ps : List Piece} {rest : Course}
    {path : List Char} (marker : List Char) :
    isAncestor ancestry (r.target path base) = true → Takes t r base ancestry ps rest →
      Takes t r base ancestry (.directive marker path :: ps)
        (.problem (.circular (r.target path base)) rest)
  | missing {base : Path} {ancestry : List Path} {ps : List Piece} {rest : Course}
    {path : List Char} (marker : List Char) :
    isAncestor ancestry (r.target path base) = false → ¬ Readable t (r.target path base) →
      Takes t r base ancestry ps rest →
      Takes t r base ancestry (.directive marker path :: ps)
        (.problem (.missing (r.target path base)) rest)
  | opened {base : Path} {ancestry : List Path} {ps : List Piece} {inside rest : Course}
    {path text : List Char} (marker : List Char) :
    isAncestor ancestry (r.target path base) = false →
      t.readText (r.target path base) = .ok text →
      Takes t r ((r.target path base).parent?.getD base) (r.target path base :: ancestry)
        (pieces text) inside →
      Takes t r base ancestry ps rest →
      Takes t r base ancestry (.directive marker path :: ps)
        (.opened (r.target path base) inside rest)

namespace Course

def expansion : Course → Expansion
  | .done => ⟨[], []⟩
  | .kept c rest => .ofLiteral c ++ rest.expansion
  | .problem d rest => .ofProblem d ++ rest.expansion
  | .opened _ inside rest => inside.expansion ++ rest.expansion

structure Site where
  chain : List Path
  target : Path
  diagnostic : Option Diagnostic
  deriving DecidableEq, Repr

def Site.files (s : Site) : List Path :=
  if s.diagnostic = none then s.target :: s.chain else s.chain

def sites (chain : List Path) : Course → List Site
  | .done => []
  | .kept _ rest => rest.sites chain
  | .problem d rest => ⟨chain, d.path, some d⟩ :: rest.sites chain
  | .opened file inside rest =>
    ⟨chain, file, none⟩ :: (inside.sites (file :: chain) ++ rest.sites chain)

theorem diagnostics_expansion (course : Course) (chain : List Path) :
    course.expansion.diagnostics = (course.sites chain).filterMap (·.diagnostic) := by
  induction course generalizing chain with
  | done => rfl
  | kept c rest ih =>
    rw [expansion, sites, ← ih]
    rfl
  | problem d rest ih =>
    rw [expansion, sites, Expansion.diagnostics_append, ih chain]
    rfl
  | opened file inside rest ihInside ihRest =>
    rw [expansion, sites, Expansion.diagnostics_append, ihInside (file :: chain), ihRest chain,
      ← List.filterMap_append]
    rfl

end Course

variable {t : FileTree} {r : Resolver} {base : Path} {ancestry seed : List Path} {ps : List Piece}

theorem exists_course (t : FileTree) (r : Resolver) (base : Path) (ancestry : List Path)
    (ps : List Piece) : ∃ course, Takes t r base ancestry ps course := by
  induction base, ancestry, ps using expandPieces.induct (documents t) r with
  | case1 base ancestry => exact ⟨_, .done⟩
  | case2 base ancestry c ps ih =>
    obtain ⟨rest, hrest⟩ := ih
    exact ⟨_, .kept c hrest⟩
  | case3 base ancestry marker path ps target ihInside ihRest =>
    obtain ⟨rest, hrest⟩ := ihRest
    by_cases hnew : isAncestor ancestry target = true
    · exact ⟨_, .circular marker hnew hrest⟩
    · by_cases hread : Readable t target
      · obtain ⟨text, htext⟩ := hread
        obtain ⟨inside, hinside⟩ := ihInside hnew text (documents_read_eq_some_iff.mpr htext)
        exact ⟨_, .opened marker (Bool.eq_false_iff.mpr hnew) htext hinside hrest⟩
      · exact ⟨_, .missing marker (Bool.eq_false_iff.mpr hnew) hread hrest⟩

theorem Takes.expandPieces_eq {course : Course} (h : Takes t r base ancestry ps course) :
    expandPieces (documents t) r base ancestry ps = course.expansion := by
  induction h with
  | done => rw [expandPieces, Course.expansion]
  | kept c _ ih => rw [expandPieces, ih, Course.expansion]
  | circular marker hold _ ih => rw [expandPieces, dif_pos hold, ih, Course.expansion]
  | missing marker hnew hread _ ih =>
    rw [expandPieces, dif_neg (Bool.eq_false_iff.mp hnew), ih, Course.expansion]
    split
    · rfl
    · rename_i text htext
      exact absurd ⟨text, documents_read_eq_some_iff.mp htext⟩ hread
  | opened marker hnew hread _ _ ihInside ihRest =>
    have htext := documents_read_eq_some_iff.mpr hread
    rw [expandPieces, dif_neg (Bool.eq_false_iff.mp hnew), ihRest, Course.expansion]
    split
    · rename_i hnone
      rw [htext] at hnone
      cases hnone
    · rename_i other hother
      rw [htext] at hother
      obtain rfl := Option.some.inj hother
      rw [ihInside]

def Unread (t : FileTree) (r : Resolver) (seed : List Path) : Set Path :=
  {f | (∃ p : Path, f = p.normalize r.here) ∧ Readable t f ∧ isAncestor seed f = false}

theorem finite_unread (t : FileTree) (r : Resolver) (seed : List Path) : (Unread t r seed).Finite := by
  obtain ⟨paths, hpaths⟩ := (documents t).finite
  apply paths.finite_toSet.subset
  rintro f ⟨-, ⟨text, htext⟩, -⟩
  apply hpaths
  rw [documents_read_eq_some_iff.mpr htext]
  rfl

structure Chain (t : FileTree) (r : Resolver) (seed chain : List Path) : Prop where
  different : chain.Pairwise fun f g => f.same g = false
  unread : ∀ f ∈ chain, f ∈ Unread t r seed

theorem Chain.nil (t : FileTree) (r : Resolver) (seed : List Path) : Chain t r seed [] :=
  ⟨List.Pairwise.nil, by simp⟩

theorem isAncestor_append (chain seed : List Path) (f : Path) :
    isAncestor (chain ++ seed) f = (isAncestor chain f || isAncestor seed f) :=
  List.any_append

theorem Chain.cons {chain : List Path} (h : Chain t r seed chain) {path text : List Char}
    (hnew : isAncestor (chain ++ seed) (r.target path base) = false)
    (hread : t.readText (r.target path base) = .ok text) :
    Chain t r seed (r.target path base :: chain) := by
  rw [isAncestor_append, Bool.or_eq_false_iff] at hnew
  constructor
  · apply List.pairwise_cons.mpr ⟨?_, h.different⟩
    intro f hf
    exact Bool.eq_false_iff.mpr (List.any_eq_false.mp hnew.1 f hf)
  · intro f hf
    rcases List.mem_cons.mp hf with rfl | hf
    · exact ⟨exists_target_eq r path base, ⟨text, hread⟩, hnew.2⟩
    · exact h.unread f hf

theorem Chain.length_le {chain : List Path} (h : Chain t r seed chain) :
    chain.length ≤ (Unread t r seed).ncard := by
  have hnodup : chain.Nodup := by
    apply h.different.imp
    rintro f g hsame rfl
    simp [Path.same] at hsame
  have hsub : (chain.toFinset : Set Path) ⊆ Unread t r seed := by
    intro f hf
    exact h.unread f (by simpa using hf)
  rw [← List.toFinset_card_of_nodup hnodup, ← Set.ncard_coe_finset]
  exact Set.ncard_le_ncard hsub (finite_unread t r seed)

namespace Course.Site

def OnChain (seed : List Path) (s : Site) : Prop :=
  isAncestor seed s.target = true ∨ isAncestor s.chain s.target = true

/-- The files that are open at a directive tell what is reported there. -/
structure Told (t : FileTree) (r : Resolver) (seed : List Path) (s : Site) : Prop where
  chain : Chain t r seed s.files
  circular : s.diagnostic = some (.circular s.target) ↔ s.OnChain seed
  missing : s.diagnostic = some (.missing s.target) ↔ ¬ s.OnChain seed ∧ ¬ Readable t s.target

theorem told_circular {chain : List Path} (h : Chain t r seed chain) {target : Path}
    (hold : isAncestor (chain ++ seed) target = true) :
    Told t r seed ⟨chain, target, some (.circular target)⟩ := by
  rw [isAncestor_append, Bool.or_eq_true, or_comm] at hold
  refine ⟨h, iff_of_true rfl hold, iff_of_false (by simp) ?_⟩
  rintro ⟨hnot, -⟩
  exact hnot hold

theorem not_onChain {chain : List Path} {target : Path} {d : Option Diagnostic}
    (hnew : isAncestor (chain ++ seed) target = false) :
    ¬ OnChain seed ⟨chain, target, d⟩ := by
  rw [isAncestor_append, Bool.or_eq_false_iff] at hnew
  simp [OnChain, hnew.1, hnew.2]

theorem told_missing {chain : List Path} (h : Chain t r seed chain) {target : Path}
    (hnew : isAncestor (chain ++ seed) target = false) (hread : ¬ Readable t target) :
    Told t r seed ⟨chain, target, some (.missing target)⟩ :=
  ⟨h, iff_of_false (by simp) (not_onChain hnew), iff_of_true rfl ⟨not_onChain hnew, hread⟩⟩

theorem told_opened {chain : List Path} {target : Path} (h : Chain t r seed (target :: chain))
    (hnew : isAncestor (chain ++ seed) target = false) (hread : Readable t target) :
    Told t r seed ⟨chain, target, none⟩ :=
  ⟨h, iff_of_false (by simp) (not_onChain hnew), iff_of_false (by simp) fun hnot => hnot.2 hread⟩

end Course.Site

theorem Takes.told {course : Course} {chain : List Path}
    (h : Takes t r base (chain ++ seed) ps course) (hchain : Chain t r seed chain) :
    ∀ s ∈ course.sites chain, s.Told t r seed := by
  generalize hancestry : chain ++ seed = ancestry at h
  induction h generalizing chain with
  | done => simp [Course.sites]
  | kept c _ ih => exact ih hchain hancestry
  | circular marker hold _ ih =>
    subst hancestry
    intro s hs
    rcases List.mem_cons.mp hs with rfl | hs
    · exact Course.Site.told_circular hchain hold
    · exact ih hchain rfl s hs
  | missing marker hnew hread _ ih =>
    subst hancestry
    intro s hs
    rcases List.mem_cons.mp hs with rfl | hs
    · exact Course.Site.told_missing hchain hnew hread
    · exact ih hchain rfl s hs
  | opened marker hnew hread _ _ ihInside ihRest =>
    subst hancestry
    have hinside := hchain.cons hnew hread
    intro s hs
    rcases List.mem_cons.mp hs with rfl | hs
    · exact Course.Site.told_opened hinside hnew ⟨_, hread⟩
    rcases List.mem_append.mp hs with hs | hs
    · exact ihInside hinside rfl s hs
    · exact ihRest hchain rfl s hs

/-- Every expansion takes a course that ends. The files that are open at a directive differ, can be
read and are not of the seed, so that they are never more than there are such files. An import is
circular exactly if its target is one of them or of the seed, and missing exactly if it is neither
nor a text. -/
theorem expand_course (t : FileTree) (r : Resolver) (document : List Char) (base : Path)
    (seed : List Path) :
    (Unread t r seed).Finite ∧
      (∃ course, Takes t r (base.normalize r.here) seed (pieces document) course) ∧
      ∀ course, Takes t r (base.normalize r.here) seed (pieces document) course →
        expand t r document base seed = course.expansion ∧
        (expand t r document base seed).diagnostics =
          (course.sites []).filterMap (·.diagnostic) ∧
        ∀ s ∈ course.sites [],
          (s.files.Pairwise fun f g => f.same g = false) ∧
          (∀ f ∈ s.files, f ∈ Unread t r seed) ∧
          s.files.length ≤ (Unread t r seed).ncard ∧
          (s.diagnostic = some (.circular s.target) ↔
            isAncestor seed s.target = true ∨ isAncestor s.chain s.target = true) ∧
          (s.diagnostic = some (.missing s.target) ↔
            ¬ (isAncestor seed s.target = true ∨ isAncestor s.chain s.target = true) ∧
              ¬ ∃ text, t.readText s.target = .ok text) := by
  refine ⟨finite_unread t r seed, exists_course .., ?_⟩
  intro course hcourse
  have hexpand : expand t r document base seed = course.expansion := hcourse.expandPieces_eq
  refine ⟨hexpand, ?_, ?_⟩
  · rw [hexpand, course.diagnostics_expansion []]
  · intro s hs
    have hempty : Takes t r (base.normalize r.here) ([] ++ seed) (pieces document) course := hcourse
    have htold := hempty.told (Chain.nil t r seed) s hs
    exact ⟨htold.chain.different, htold.chain.unread, htold.chain.length_le, htold.circular,
      htold.missing⟩

def aliasCycle : FileTree :=
  ⟨[(["s".toList], .directory), (["s".toList, "c".toList], .directory),
    (["s".toList, "c".toList, "a".toList], .file (.text "<!--@import:b-->".toList)),
    (["s".toList, "c".toList, "b".toList], .file (.text "<!--@import:@components/a-->".toList))], []⟩

def aliasCycleResolver : Resolver :=
  .ofRoot [] (some ⟨"/s".toList⟩) "c".toList

def aliasCycleCourse : Course :=
  .opened ⟨"/s/c/a".toList⟩ (.opened ⟨"/s/c/b".toList⟩
    (.problem (.circular ⟨"/s/c/a".toList⟩) .done) .done) .done

theorem pieces_alias : pieces "<!--@import:@components/a-->".toList =
    [.directive "<!--@import:@components/a-->".toList "@components/a".toList] :=
  @pieces_directive "@components/a".toList (by decide) (by decide)

theorem pieces_beside : pieces "<!--@import:b-->".toList =
    [.directive "<!--@import:b-->".toList "b".toList] :=
  @pieces_directive "b".toList (by decide) (by decide)

theorem takes_aliasCycle : Takes aliasCycle aliasCycleResolver ⟨"/s".toList⟩ []
    (pieces "<!--@import:@components/a-->".toList) aliasCycleCourse := by
  have hcircular : Takes aliasCycle aliasCycleResolver ⟨"/s/c".toList⟩
      [⟨"/s/c/b".toList⟩, ⟨"/s/c/a".toList⟩] (pieces "<!--@import:@components/a-->".toList)
      (.problem (.circular ⟨"/s/c/a".toList⟩) .done) := by
    rw [pieces_alias]
    exact Takes.circular _ (by decide) .done
  have hinside : Takes aliasCycle aliasCycleResolver ⟨"/s/c".toList⟩ [⟨"/s/c/a".toList⟩]
      (pieces "<!--@import:b-->".toList)
      (.opened ⟨"/s/c/b".toList⟩ (.problem (.circular ⟨"/s/c/a".toList⟩) .done) .done) := by
    rw [pieces_beside]
    exact Takes.opened _ (by decide) (by cbv) hcircular .done
  rw [pieces_alias]
  exact Takes.opened _ (by decide) (by cbv) hinside .done

theorem expand_aliasCycle :
    Takes aliasCycle aliasCycleResolver ⟨"/s".toList⟩ []
        (pieces "<!--@import:@components/a-->".toList) aliasCycleCourse ∧
      (expand aliasCycle aliasCycleResolver "<!--@import:@components/a-->".toList ⟨"/s".toList⟩
        []).diagnostics = [.circular ⟨"/s/c/a".toList⟩] := by
  refine ⟨takes_aliasCycle, ?_⟩
  obtain ⟨-, -, hcourse⟩ := expand_course aliasCycle aliasCycleResolver
    "<!--@import:@components/a-->".toList ⟨"/s".toList⟩ []
  rw [(hcourse aliasCycleCourse takes_aliasCycle).2.1]
  rfl

end StaticSite.Page
