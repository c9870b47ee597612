import StaticSite.FileTree

namespace StaticSite.FileTree
open StaticSite.Text

/-- The spelling of a directory whose entries are looked for. It is joined name by name as long as
the names lead somewhere, so that a leading `.` and doubled slashes leave no trace. -/
def spell? (t : FileTree) (p : Path) : Option Path :=
  go (if p.isAbsolute then ⟨['/']⟩ else ⟨['.']⟩) p.segments
where
  extend (p : Path) (s : List Char) : Path :=
    if p.chars = ['.'] then ⟨s⟩ else p.join ⟨s⟩
  leads (p : Path) (s : List Char) : Bool :=
    if s = ['.'] ∨ s = ['.', '.'] then t.isDirectory p
    else t.pathExists (extend p s) || (t.locate .itself (extend p s)).toOption.any
      fun l => (t.get? l).isSome
  go (p : Path) : List (List Char) → Option Path
    | [] => some p
    | s :: rest => if leads p s then go (extend p s) rest else none

def entry (p : Path) (name : List Char) : Path :=
  if p.chars.getLast? = some '/' then ⟨p.chars ++ name⟩ else ⟨p.chars ++ '/' :: name⟩

def entryNames (t : FileTree) (p : Path) : List (List Char) :=
  match t.find p with
  | .ok (l, .directory) => t.names l
  | _ => []

theorem byteCount_lt_entry (p : Path) {name : List Char} (h : name ≠ []) :
    byteCount p.chars < byteCount (entry p name).chars := by
  have hname : 0 < byteCount name := by
    cases name with
    | nil => exact absurd rfl h
    | cons c cs =>
      have := c.utf8Size_pos
      simp only [byteCount_cons]
      omega
  unfold entry
  split
  · simp only [byteCount_append]
    omega
  · simp only [byteCount_append, byteCount_cons]
    omega

theorem ne_nil_of_mem_names {t : FileTree} {l : Location} {name : List Char}
    (h : name ∈ t.names l) : name ≠ [] := by
  simp only [names, List.mem_filterMap] at h
  obtain ⟨e, _, he⟩ := h
  split at he
  · simpa using (Option.filter_eq_some_iff.1 he).2
  · simp at he

theorem ne_nil_of_mem_entryNames {t : FileTree} {p : Path} {name : List Char}
    (h : name ∈ t.entryNames p) : name ≠ [] := by
  unfold entryNames at h
  split at h
  · exact ne_nil_of_mem_names h
  · simp at h

def descend (t : FileTree) (p : Path) : List Path :=
  if _h : t.isDirectory p then
    (t.entryNames p).attach.flatMap fun ⟨name, _hname⟩ => entry p name :: descend t (entry p name)
  else []
termination_by maxPath + 1 - byteCount p.chars
decreasing_by
  have := byteCount_le_of_isDirectory _h
  have := byteCount_lt_entry p (ne_nil_of_mem_entryNames _hname)
  omega

def below (t : FileTree) (root : Path) : List Path :=
  match t.spell? root with
  | none => []
  | some p =>
    if p.chars = ['.'] then
      (t.entryNames p).flatMap fun name => ⟨name⟩ :: t.descend ⟨name⟩
    else t.descend p

end StaticSite.FileTree
