import StaticSite.FileTree
import StaticSite.Proofs.Except

namespace StaticSite.FileTree
open StaticSite.Text

variable {t : FileTree}

def start (t : FileTree) (p : Path) : Location :=
  if p.isAbsolute then [] else t.here

@[simp]
theorem get?_nil : t.get? [] = some .directory := if_pos rfl

theorem locate_eq_ok_iff {ending : Ending} {p : Path} {l : Location} :
    t.locate ending p = .ok l ↔
      '\x00' ∉ p.chars ∧ p.chars ≠ [] ∧ byteCount p.chars ≤ maxPath ∧
        t.follow ending maxLinks (t.start p) p.segments = .ok l := by
  unfold locate
  split
  · rename_i h
    simp only [reduceCtorEq, false_iff, not_and]
    intro hnul
    exact absurd (List.contains_iff_mem.mp h) hnul
  · rename_i hnul
    split
    · rename_i h
      simp [h]
    · rename_i hne
      split
      · rename_i h
        simp only [reduceCtorEq, false_iff, not_and]
        intro _ _ hle
        omega
      · rename_i hle
        constructor
        · intro h
          exact ⟨fun hmem => hnul (List.contains_iff_mem.mpr hmem), hne, by omega, h⟩
        · exact fun h => h.2.2.2

theorem find_eq_ok_iff {p : Path} {l : Location} {n : Node} :
    t.find p = .ok (l, n) ↔ t.locate .followed p = .ok l ∧ t.get? l = some n := by
  rw [find, bind_eq_ok_iff]
  constructor
  · rintro ⟨k, hlocate, hnode⟩
    split at hnode
    · rename_i m hm
      obtain ⟨rfl, rfl⟩ := Prod.mk.inj (Except.ok.inj hnode)
      exact ⟨hlocate, hm⟩
    · cases hnode
  · rintro ⟨hlocate, hnode⟩
    refine ⟨l, hlocate, ?_⟩
    simp only [hnode]

theorem read_eq_ok_iff {p : Path} {content : Content} :
    t.read p = .ok content ↔ ∃ l, t.find p = .ok (l, .file content) := by
  simp only [read, bind, Except.bind]
  cases t.find p with
  | error e => simp
  | ok r =>
    obtain ⟨l, n⟩ := r
    cases n <;> simp

theorem readText_eq_ok_iff {p : Path} {text : List Char} :
    t.readText p = .ok text ↔ ∃ l, t.find p = .ok (l, .file (.text text)) := by
  simp only [readText, read, bind, Except.bind]
  cases t.find p with
  | error e => simp
  | ok r =>
    obtain ⟨l, n⟩ := r
    cases n with
    | file content => cases content <;> simp
    | directory => simp
    | link target => simp

theorem isFile_iff {p : Path} :
    t.isFile p = true ↔ ∃ l content, t.find p = .ok (l, .file content) := by
  unfold isFile
  split
  · rename_i l content h
    simp [h]
  · rename_i h
    simp only [Bool.false_eq_true, false_iff, not_exists]
    exact fun l content => h l content

theorem isDirectory_iff {p : Path} :
    t.isDirectory p = true ↔ ∃ l, t.find p = .ok (l, .directory) := by
  unfold isDirectory
  split
  · rename_i l h
    simp [h]
  · rename_i h
    simp only [Bool.false_eq_true, false_iff, not_exists]
    exact fun l => h l

theorem pathExists_iff {p : Path} : t.pathExists p = true ↔ ∃ l n, t.find p = .ok (l, n) := by
  unfold pathExists
  cases t.find p with
  | error e => simp [Except.toOption]
  | ok r =>
    obtain ⟨l, n⟩ := r
    simp [Except.toOption]

theorem follow_nil (ending : Ending) (links : Nat) (l : Location) :
    t.follow ending links l [] = .ok l := by
  rw [follow]

theorem find_root {l : Location} {n : Node} (h : t.find (.ofLocation []) = .ok (l, n)) :
    l = [] ∧ n = .directory := by
  obtain ⟨hl, hn⟩ := find_eq_ok_iff.mp h
  obtain ⟨_, _, _, hfollow⟩ := locate_eq_ok_iff.mp hl
  have hsegments : (Path.ofLocation []).segments = [[]] := by decide
  rw [hsegments, start, if_pos (by decide), follow] at hfollow
  simp only [get?_nil, Path.isSilent, true_or, decide_true, ↓reduceIte, follow_nil,
    Except.ok.injEq] at hfollow
  subst hfollow
  exact ⟨rfl, by simpa using hn.symm⟩

theorem chars_ne_nil_of_find {p : Path} {l : Location} {n : Node} (h : t.find p = .ok (l, n)) :
    p.chars ≠ [] :=
  (locate_eq_ok_iff.mp (find_eq_ok_iff.mp h).1).2.1

theorem find_empty {l : Location} {n : Node} : t.find ⟨[]⟩ ≠ .ok (l, n) := by
  intro h
  exact chars_ne_nil_of_find h rfl

end StaticSite.FileTree
