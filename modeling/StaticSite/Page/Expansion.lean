import StaticSite.FileTree
import StaticSite.Page.Diagnostic
import StaticSite.Page.Directive
import StaticSite.Page.Resolver

/-!
The text of a page with every import replaced by the text that it names, imports in that text
included. No file is imported into itself, so expansion ends: along a chain of imports the files
differ, and only finitely many can be read.
-/

namespace StaticSite.Page
open StaticSite.Text

structure Documents where
  read : Path → Option (List Char)
  finite : ∃ paths : List Path, ∀ p, (read p).isSome → p ∈ paths

theorem exists_texts (n : Nat) :
    ∃ texts : List (List Char), ∀ cs : List Char, cs.length ≤ n → cs ∈ texts := by
  induction n with
  | zero => exact ⟨[[]], fun cs h => by simp [List.length_eq_zero_iff.1 (Nat.le_zero.1 h)]⟩
  | succ n ih =>
    obtain ⟨texts, htexts⟩ := ih
    refine ⟨[] :: ((List.range 0x110000).map Char.ofNat).flatMap fun c => texts.map (c :: ·), ?_⟩
    intro cs h
    cases cs with
    | nil => simp
    | cons c cs =>
      refine List.mem_cons_of_mem _ (List.mem_flatMap.2 ⟨c, ?_, ?_⟩)
      · refine List.mem_map.2 ⟨c.toNat, List.mem_range.2 ?_, Char.ofNat_toNat c⟩
        have := c.valid
        simp only [UInt32.isValidChar, Nat.isValidChar] at this
        simp only [Char.toNat]
        omega
      · exact List.mem_map_of_mem (htexts cs (by simpa using h))

theorem length_le_byteCount (cs : List Char) : cs.length ≤ byteCount cs := by
  induction cs with
  | nil => simp
  | cons c cs ih =>
    have := c.utf8Size_pos
    simp only [List.length_cons, byteCount_cons]
    omega

def documents (t : FileTree) : Documents where
  read p := (t.readText p).toOption
  finite := by
    obtain ⟨texts, htexts⟩ := exists_texts FileTree.maxPath
    refine ⟨texts.map Path.mk, fun p h => List.mem_map.2 ⟨p.chars, htexts _ ?_, rfl⟩⟩
    refine Nat.le_trans (length_le_byteCount _) ?_
    simp only [FileTree.readText, FileTree.read, FileTree.find, FileTree.locate] at h
    split at h
    · simp [bind, Except.bind, Except.toOption] at h
    · split at h
      · simp [bind, Except.bind, Except.toOption] at h
      · split at h
        · simp [bind, Except.bind, Except.toOption] at h
        · omega

structure Expansion where
  html : List Char
  diagnostics : List Diagnostic
  deriving DecidableEq, Repr

namespace Expansion

def ofLiteral (c : Char) : Expansion := ⟨[c], []⟩

def ofProblem (d : Diagnostic) : Expansion := ⟨d.comment, [d]⟩

def append (a b : Expansion) : Expansion :=
  ⟨a.html ++ b.html, a.diagnostics ++ b.diagnostics⟩

instance : Append Expansion := ⟨append⟩

def isClean (e : Expansion) : Bool := e.diagnostics.isEmpty

end Expansion

def isAncestor (ancestry : List Path) (p : Path) : Bool :=
  ancestry.any p.same

noncomputable def Documents.remaining (d : Documents) (ancestry : List Path) : Nat :=
  ((Classical.choose d.finite).filter (!isAncestor ancestry ·)).length

theorem Documents.remaining_lt (d : Documents) {ancestry : List Path} {p : Path}
    (hread : (d.read p).isSome) (hnew : isAncestor ancestry p = false) :
    d.remaining (p :: ancestry) < d.remaining ancestry := by
  have hmem := Classical.choose_spec d.finite p hread
  unfold Documents.remaining
  generalize Classical.choose d.finite = paths at hmem
  have hsub : ∀ q, isAncestor ancestry q = true → isAncestor (p :: ancestry) q = true := by
    intro q hq
    simp only [isAncestor, List.any_cons, Bool.or_eq_true]
    exact Or.inr hq
  have hself : isAncestor (p :: ancestry) p = true := by
    simp [isAncestor, Path.same]
  simp only [← List.countP_eq_length_filter]
  have hle : ∀ qs : List Path, qs.countP (!isAncestor (p :: ancestry) ·) ≤
      qs.countP (!isAncestor ancestry ·) := fun qs =>
    List.countP_mono_left fun q _ hq => by
      cases h : isAncestor ancestry q with
      | true => simp [hsub q h] at hq
      | false => rfl
  induction paths with
  | nil => simp at hmem
  | cons q qs ih =>
    simp only [List.countP_cons]
    rcases List.mem_cons.1 hmem with rfl | hq
    · have := hle qs
      simp only [hself, hnew]
      simp
      omega
    · have := ih hq
      cases h : isAncestor ancestry q with
      | true => simp [hsub q h]; omega
      | false => cases isAncestor (p :: ancestry) q <;> simp <;> omega

/-- Expands pieces of a file in the directory `base`, reached through the files of `ancestry`. -/
def expandPieces (d : Documents) (r : Resolver) (base : Path) (ancestry : List Path) :
    List Piece → Expansion
  | [] => ⟨[], []⟩
  | .literal c :: ps => .ofLiteral c ++ expandPieces d r base ancestry ps
  | .directive _ path :: ps =>
    let target := r.target path base
    let replacement :=
      if _hnew : isAncestor ancestry target then .ofProblem (.circular target)
      else
        match _hread : d.read target with
        | none => .ofProblem (.missing target)
        | some text =>
          expandPieces d r (target.parent?.getD base) (target :: ancestry) (pieces text)
    replacement ++ expandPieces d r base ancestry ps
termination_by ps => (d.remaining ancestry, ps.length)
decreasing_by
  · exact Prod.Lex.right _ (by simp)
  · exact Prod.Lex.left _ _ (d.remaining_lt (Option.isSome_iff_exists.2 ⟨_, _hread⟩) (Bool.eq_false_iff.2 _hnew))
  · exact Prod.Lex.right _ (by simp)

def expand (t : FileTree) (r : Resolver) (document : List Char) (base : Path)
    (ancestry : List Path) : Expansion :=
  expandPieces (documents t) r (base.normalize r.here) ancestry (pieces document)

structure ReadFailure where
  path : Path
  cause : FileError
  deriving DecidableEq, Repr

def ReadFailure.message (e : ReadFailure) : String :=
  "Failed to read " ++ e.path.display ++ ": " ++ e.cause.message

def baseOf (file : Path) : Path :=
  file.parent?.getD ⟨['/']⟩

def expandFile (t : FileTree) (r : Resolver) (path : Path) : Except ReadFailure Expansion :=
  let path := path.normalize r.here
  match t.readText path with
  | .error e => .error ⟨path, e⟩
  | .ok document => .ok (expand t r document (baseOf path) [path])

end StaticSite.Page
