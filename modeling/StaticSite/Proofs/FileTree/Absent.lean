import StaticSite.Proofs.FileTree.Follow

/-!
Paths to nothing: the way to them comes to a place where there is nothing, and no obstacle is met
before. Any other path that does not exist is refused for what it is or for what is on its way.
-/

namespace StaticSite.FileTree
open StaticSite.Text

inductive Comes (t : FileTree) : Nat → Location → List (List Char) → Location → Prop where
  | here {links : Nat} {l : Location} {segments : List (List Char)} : Comes t links l segments l
  | silent {links : Nat} {l m : Location} {s : List Char} {rest : List (List Char)} :
    t.get? l = some .directory → Path.isSilent s = true → Comes t links l rest m →
      Comes t links l (s :: rest) m
  | parent {links : Nat} {l m : Location} {rest : List (List Char)} :
    t.get? l = some .directory → Comes t links l.dropLast rest m →
      Comes t links l (['.', '.'] :: rest) m
  | name {links : Nat} {l m : Location} {s : List Char} {rest : List (List Char)} :
    t.get? l = some .directory → Enterable .followed s rest →
      (∀ target, t.get? (l ++ [s]) ≠ some (.link target)) → Comes t links (l ++ [s]) rest m →
      Comes t links l (s :: rest) m
  | link {links : Nat} {l m : Location} {s : List Char} {rest : List (List Char)} {target : Path} :
    t.get? l = some .directory → Enterable .followed s rest →
      t.get? (l ++ [s]) = some (.link target) →
      Comes t links (if target.isAbsolute then [] else l) (target.segments ++ rest) m →
      Comes t (links + 1) l (s :: rest) m

/-- The way to a path comes to a place where there is nothing. -/
def Absent (t : FileTree) (p : Path) : Prop :=
  '\x00' ∉ p.chars ∧ (p.chars ≠ [] → byteCount p.chars ≤ maxPath ∧
    ∃ l, t.Comes maxLinks (t.start p) p.segments l ∧ t.get? l = none)

variable {t : FileTree}

def Lost (t : FileTree) (result : Except FileError Location) : Prop :=
  result = .error .notFound ∨ ∃ l, result = .ok l ∧ t.get? l = none

theorem lost_error_iff {e : FileError} : t.Lost (.error e) ↔ e = .notFound := by
  simp [Lost]

theorem lost_ok_iff {l : Location} : t.Lost (.ok l) ↔ t.get? l = none := by
  simp [Lost]

theorem lost_of_comes {links : Nat} {l m : Location} {segments : List (List Char)}
    (h : t.Comes links l segments m) (hm : t.get? m = none) :
    t.Lost (t.follow .followed links l segments) := by
  induction h with
  | @here links l segments =>
    cases segments with
    | nil =>
      rw [follow_nil]
      exact lost_ok_iff.mpr hm
    | cons s rest =>
      rw [follow, hm]
      exact lost_error_iff.mpr rfl
  | silent hdir hsilent _ ih =>
    rw [follow, hdir]
    simpa only [hsilent, ↓reduceIte] using ih hm
  | parent hdir _ ih =>
    rw [follow, hdir]
    simpa only [isSilent_parent, Bool.false_eq_true, ↓reduceIte] using ih hm
  | name hdir henter hnot _ ih =>
    rw [follow, hdir]
    simp only [if_neg henter.not_silent, if_neg henter.not_parent, if_neg henter.not_directory,
      if_neg henter.not_long]
    exact ih hm
  | link hdir henter hlink _ ih =>
    rw [follow, hdir]
    simp only [if_neg henter.not_silent, if_neg henter.not_parent, if_neg henter.not_long, hlink,
      reduceCtorEq, false_and, ↓reduceIte]
    exact ih hm

theorem comes_of_lost {links : Nat} {l : Location} {segments : List (List Char)}
    (h : t.Lost (t.follow .followed links l segments)) :
    ∃ m, t.Comes links l segments m ∧ t.get? m = none := by
  generalize hending : Ending.followed = ending at h
  fun_induction follow t ending links l segments with
  | case1 links l => exact ⟨l, .here, lost_ok_iff.mp h⟩
  | case2 links l s rest hnone => exact ⟨l, .here, hnone⟩
  | case3 | case4 | case7 | case8 | case10 => cases lost_error_iff.mp h
  | case5 links l s rest hdir hsilent ih =>
    obtain ⟨m, hcomes, hm⟩ := ih h
    exact ⟨m, .silent hdir hsilent hcomes, hm⟩
  | case6 links l rest hdir hnot ih =>
    obtain ⟨m, hcomes, hm⟩ := ih h
    exact ⟨m, .parent hdir hcomes, hm⟩
  | case9 links l s rest hdir hsilent hparent hdirectory hlong target hlink hlast =>
    cases hending.trans hlast.1
  | case11 l s rest hdir hsilent hparent hdirectory hlong target hlink hmore links ih =>
    obtain ⟨m, hcomes, hm⟩ := ih h
    subst hending
    exact ⟨m, .link hdir ⟨hsilent, hparent, hdirectory, hlong⟩ hlink hcomes, hm⟩
  | case12 links l s rest hdir hsilent hparent hdirectory hlong hnot ih =>
    obtain ⟨m, hcomes, hm⟩ := ih h
    subst hending
    exact ⟨m, .name hdir ⟨hsilent, hparent, hdirectory, hlong⟩ (fun target => hnot target) hcomes,
      hm⟩

theorem lost_follow_iff {links : Nat} {l : Location} {segments : List (List Char)} :
    t.Lost (t.follow .followed links l segments) ↔
      ∃ m, t.Comes links l segments m ∧ t.get? m = none :=
  ⟨comes_of_lost, fun ⟨_, h, hm⟩ => lost_of_comes h hm⟩

theorem lost_iff_find {p : Path} : t.Lost (t.locate .followed p) ↔ t.find p = .error .notFound := by
  unfold find
  cases t.locate .followed p with
  | error e => simp [lost_error_iff, bind, Except.bind]
  | ok l =>
    rw [lost_ok_iff]
    cases h : t.get? l <;> simp [bind, Except.bind, h]

theorem find_eq_notFound_iff {p : Path} : t.find p = .error .notFound ↔ t.Absent p := by
  rw [← lost_iff_find, Absent, ← lost_follow_iff, locate]
  split
  · rename_i hnul
    rw [lost_error_iff]
    exact iff_of_false nofun fun h => h.1 (List.contains_iff_mem.mp hnul)
  · rename_i hnul
    rw [and_iff_right fun hmem => hnul (List.contains_iff_mem.mpr hmem)]
    split
    · rename_i hnil
      exact iff_of_true (lost_error_iff.mpr rfl) fun hne => absurd hnil hne
    · rename_i hne
      rw [forall_prop_of_true hne]
      split
      · rename_i hlong
        rw [lost_error_iff]
        exact iff_of_false nofun fun h => by omega
      · rename_i hlong
        rw [and_iff_right (by omega), start]

end StaticSite.FileTree
