import Mathlib.Data.List.TakeWhile
import StaticSite.Page.Directive

/-!
What a directive looks like. A text begins with one exactly if it begins with a marker, whatever
follows, so that a text has the directives of its parts, unless one part ends within a marker.
-/

namespace StaticSite.Page
open StaticSite.Text

def Blank (cs : List Char) : Prop :=
  ∀ c ∈ cs, isWhiteSpace c = true

inductive PathEnd (path : List Char) : List Char → Prop where
  | intro {blanks : List Char} : path ≠ [] → (∀ c ∈ path, isPathChar c = true) → Blank blanks →
    PathEnd path (path ++ (blanks ++ "-->".toList))

/-- A comment that imports a path. -/
inductive Marker (path : List Char) : List Char → Prop where
  | intro {before after pathEnd : List Char} : Blank before → Blank after → PathEnd path pathEnd →
    Marker path ("<!--".toList ++ (before ++ ("@import:".toList ++ (after ++ pathEnd))))

theorem not_isWhiteSpace_of_isPathChar {c : Char} (h : isPathChar c = true) :
    isWhiteSpace c = false := by
  have hrange : 0x2d ≤ c.toNat ∧ c.toNat ≤ 0x7a := by
    unfold isPathChar Char.isAlphanum Char.isAlpha Char.isUpper Char.isLower Char.isDigit at h
    simp only [Bool.or_eq_true, Bool.and_eq_true, decide_eq_true_eq, beq_iff_eq, ge_iff_le,
      UInt32.le_iff_toNat_le] at h
    have hc : c.toNat = c.val.toNat := rfl
    rcases h with (((((((h | h) | h) | rfl) | rfl) | rfl) | rfl) | rfl)
    · have hlow : 65 ≤ c.val.toNat := h.1
      have hhigh : c.val.toNat ≤ 90 := h.2
      omega
    · have hlow : 97 ≤ c.val.toNat := h.1
      have hhigh : c.val.toNat ≤ 122 := h.2
      omega
    · have hlow : 48 ≤ c.val.toNat := h.1
      have hhigh : c.val.toNat ≤ 57 := h.2
      omega
    all_goals decide
  simp only [isWhiteSpace, whiteSpaceRanges, List.any_cons, List.any_nil, Bool.or_false,
    Bool.or_eq_false_iff, Bool.and_eq_false_iff, decide_eq_false_iff_not]
  omega

theorem takeWhile_run {p : Char → Bool} {run rest : List Char} (h : ∀ c ∈ run, p c = true)
    (hrest : ∀ c ∈ rest.head?, p c = false) : (run ++ rest).takeWhile p = run := by
  rw [List.takeWhile_append_of_pos h]
  cases rest with
  | nil => exact List.append_nil run
  | cons c rest => rw [List.takeWhile_cons_of_neg (by simp [hrest c rfl]), List.append_nil]

theorem dropWhile_run {p : Char → Bool} {run rest : List Char} (h : ∀ c ∈ run, p c = true)
    (hrest : ∀ c ∈ rest.head?, p c = false) : (run ++ rest).dropWhile p = rest := by
  rw [List.dropWhile_append_of_pos h]
  cases rest with
  | nil => rfl
  | cons c rest => exact List.dropWhile_cons_of_neg (by simp [hrest c rfl])

theorem exists_run (p : Char → Bool) (cs : List Char) :
    ∃ run, (∀ c ∈ run, p c = true) ∧ cs = run ++ cs.dropWhile p :=
  ⟨cs.takeWhile p, fun _ hc => List.mem_takeWhile_imp hc, List.takeWhile_append_dropWhile.symm⟩

theorem pathAndRest?_of_pathEnd {path pathEnd : List Char} (h : PathEnd path pathEnd)
    (rest : List Char) : pathAndRest? (pathEnd ++ rest) = some (path, rest) := by
  obtain @⟨blanks, hne, hpath, hblanks⟩ := h
  cases blanks with
  | nil =>
    have hrun : ∀ c ∈ path ++ ['-', '-'], isPathChar c = true := by
      intro c hc
      rcases List.mem_append.mp hc with hc | hc
      · exact hpath c hc
      · simp only [List.mem_cons, List.not_mem_nil, or_false, or_self] at hc
        subst hc
        decide
    have hstop : ∀ c ∈ ('>' :: rest).head?, isPathChar c = false := by
      rintro c ⟨⟩
      decide
    have hsplit : path ++ ([] ++ "-->".toList) ++ rest = (path ++ ['-', '-']) ++ '>' :: rest := by
      simp
    have hblank : ('>' :: rest).dropWhile isWhiteSpace = '>' :: rest :=
      List.dropWhile_cons_of_neg (by decide)
    rw [hsplit, pathAndRest?, takeWhile_run hrun hstop, dropWhile_run hrun hstop, hblank]
    simp [after?, hne]
  | cons b blanks =>
    have hstop : ∀ c ∈ (b :: blanks ++ "-->".toList ++ rest).head?, isPathChar c = false := by
      rintro c ⟨⟩
      by_contra hchar
      have hblank := hblanks b (List.mem_cons_self ..)
      rw [not_isWhiteSpace_of_isPathChar (by simpa using hchar)] at hblank
      cases hblank
    have hend : ∀ c ∈ ("-->".toList ++ rest).head?, isWhiteSpace c = false := by
      rintro c ⟨⟩
      decide
    rw [List.append_assoc, pathAndRest?, takeWhile_run hpath hstop, dropWhile_run hpath hstop,
      List.append_assoc, dropWhile_run hblanks hend, if_neg hne, after?_eq_some_iff.mpr rfl]

theorem exists_pathEnd {cs path rest : List Char} (h : pathAndRest? cs = some (path, rest)) :
    ∃ pathEnd, PathEnd path pathEnd ∧ cs = pathEnd ++ rest := by
  have hrun : ∀ c ∈ cs.takeWhile isPathChar, isPathChar c = true :=
    fun c hc => List.mem_takeWhile_imp hc
  have hsplit : cs.takeWhile isPathChar ++ cs.dropWhile isPathChar = cs :=
    List.takeWhile_append_dropWhile
  obtain ⟨blanks, hblanks, hrest⟩ := exists_run isWhiteSpace (cs.dropWhile isPathChar)
  simp only [pathAndRest?] at h
  split at h
  · cases h
  rename_i hne
  split at h
  · rename_i hafter
    obtain ⟨rfl, rfl⟩ := Prod.mk.inj (Option.some.inj h)
    refine ⟨_, .intro hne hrun hblanks, ?_⟩
    rw [after?_eq_some_iff.mp hafter] at hrest
    rw [List.append_assoc, List.append_assoc, ← hrest, hsplit]
  · rename_i other hclose
    split at h
    · rename_i reversed hreversed
      split at h
      · cases h
      rename_i hpath
      obtain ⟨rfl, rfl⟩ := Prod.mk.inj (Option.some.inj h)
      have heq : cs.takeWhile isPathChar = reversed.reverse ++ ['-', '-'] := by
        rw [← List.reverse_reverse (cs.takeWhile isPathChar), hreversed]
        simp
      rw [heq, hclose] at hsplit
      have hnone : Blank [] := by simp [Blank]
      refine ⟨_, .intro (by simpa using hpath) ?_ hnone, ?_⟩
      · intro c hc
        apply hrun
        rw [heq]
        exact List.mem_append_left _ hc
      · rw [← hsplit]
        simp
    · cases h
  · cases h

theorem directive?_eq_some_iff {cs path rest : List Char} :
    directive? cs = some (path, rest) ↔ ∃ marker, Marker path marker ∧ cs = marker ++ rest := by
  simp only [directive?, bind, Option.bind_eq_some_iff, after?_eq_some_iff]
  constructor
  · rintro ⟨afterOpen, rfl, afterWord, hword, hpath⟩
    obtain ⟨pathEnd, hpathEnd, hafter⟩ := exists_pathEnd hpath
    obtain ⟨before, hbefore, heq⟩ := exists_run isWhiteSpace afterOpen
    obtain ⟨after, hblank, heq'⟩ := exists_run isWhiteSpace afterWord
    refine ⟨_, .intro hbefore hblank hpathEnd, ?_⟩
    rw [heq, hword, heq', hafter]
    simp only [List.append_assoc]
  · rintro ⟨marker, ⟨hbefore, hafter, hpathEnd⟩, rfl⟩
    rename_i before after pathEnd
    refine ⟨before ++ ("@import:".toList ++ (after ++ (pathEnd ++ rest))), ?_,
      after ++ (pathEnd ++ rest), ?_, ?_⟩
    · simp only [List.append_assoc]
    · apply dropWhile_run hbefore
      rintro c ⟨⟩
      decide
    · rw [dropWhile_run hafter, pathAndRest?_of_pathEnd hpathEnd]
      obtain ⟨hne, hpath, -⟩ := hpathEnd
      obtain ⟨d, ds, rfl⟩ := List.exists_cons_of_ne_nil hne
      rintro c ⟨⟩
      exact not_isWhiteSpace_of_isPathChar (hpath d (List.mem_cons_self ..))

theorem ne_marker_append {cs path marker : List Char} (hnone : directive? cs = none)
    (h : Marker path marker) (rest : List Char) : cs ≠ marker ++ rest := by
  intro heq
  rw [directive?_eq_some_iff.mpr ⟨marker, h, heq⟩] at hnone
  cases hnone

theorem Marker.ne_nil {path marker : List Char} (h : Marker path marker) : marker ≠ [] := by
  obtain ⟨-, -, -⟩ := h
  simp

theorem pieces_marker {path marker : List Char} (h : Marker path marker) (rest : List Char) :
    pieces (marker ++ rest) = .directive marker path :: pieces rest := by
  have hdirective := directive?_eq_some_iff.mpr ⟨marker, h, rfl (a := marker ++ rest)⟩
  obtain ⟨c, cs, rfl⟩ := List.exists_cons_of_ne_nil h.ne_nil
  have hlength : (c :: (cs ++ rest)).length - rest.length = (c :: cs).length := by
    simp only [List.length_cons, List.length_append]
    omega
  rw [List.cons_append] at hdirective ⊢
  rw [pieces]
  split
  · rename_i heq
    rw [hdirective] at heq
    obtain ⟨rfl, rfl⟩ := Prod.mk.inj (Option.some.inj heq)
    rw [hlength, ← List.cons_append, List.take_left]
  · rename_i heq
    rw [hdirective] at heq
    cases heq

theorem pieces_literal {c : Char} {cs : List Char} (h : directive? (c :: cs) = none) :
    pieces (c :: cs) = .literal c :: pieces cs := by
  rw [pieces]
  split
  · rename_i heq
    rw [h] at heq
    cases heq
  · rfl

@[elab_as_elim]
theorem text_induction {motive : List Char → Prop} (cs : List Char) (nil : motive [])
    (marker : ∀ path marker rest, Marker path marker → motive rest → motive (marker ++ rest))
    (literal : ∀ c rest, directive? (c :: rest) = none → motive rest → motive (c :: rest)) :
    motive cs := by
  induction hn : cs.length using Nat.strongRecOn generalizing cs with
  | ind n ih =>
    subst hn
    cases cs with
    | nil => exact nil
    | cons c rest =>
      cases h : directive? (c :: rest) with
      | none => exact literal c rest h (ih rest.length (Nat.lt_succ_self _) rest rfl)
      | some found =>
        have hless := length_of_directive? h
        obtain ⟨m, hmarker, heq⟩ := directive?_eq_some_iff.mp h
        rw [heq]
        exact marker found.1 m found.2 hmarker (ih found.2.length hless found.2 rfl)

theorem pieces_nil : pieces [] = [] := by
  rw [pieces]

theorem pieces_append_of_notMem {cs : List Char} (h : '<' ∉ cs) (ds : List Char) :
    pieces (cs ++ ds) = cs.map .literal ++ pieces ds := by
  induction cs with
  | nil => rfl
  | cons c cs ih =>
    obtain ⟨hc, hcs⟩ := not_or.mp (List.mem_cons.not.mp h)
    have hopen : after? "<!--".toList (c :: (cs ++ ds)) = none := if_neg hc
    have hnone : directive? (c :: (cs ++ ds)) = none := by
      rw [directive?, hopen]
      rfl
    rw [List.cons_append, pieces_literal hnone, ih hcs, List.map_cons, List.cons_append]

theorem pieces_of_no_comment {cs : List Char} (h : ¬ "<!--".toList <:+: cs) :
    pieces cs = cs.map .literal := by
  induction cs with
  | nil => exact pieces_nil
  | cons c cs ih =>
    have hopen : after? "<!--".toList (c :: cs) = none := by
      apply Option.eq_none_iff_forall_ne_some.mpr
      intro rest hrest
      rw [after?_eq_some_iff] at hrest
      exact h ⟨[], rest, by rw [hrest, List.nil_append]⟩
    have hnone : directive? (c :: cs) = none := by
      rw [directive?, hopen]
      rfl
    rw [pieces_literal hnone, ih fun hinside => h (List.infix_cons hinside), List.map_cons]

theorem marker_of_path {path : List Char} (hne : path ≠ [])
    (hpath : path.all isPathChar = true) :
    Marker path ("<!--@import:".toList ++ path ++ "-->".toList) :=
  @Marker.intro path [] [] _ (by simp [Blank]) (by simp [Blank])
    (@PathEnd.intro path [] hne (List.all_eq_true.mp hpath) (by simp [Blank]))

theorem pieces_directive {path : List Char} (hne : path ≠ [])
    (hpath : path.all isPathChar = true) :
    pieces ("<!--@import:".toList ++ path ++ "-->".toList) =
      [.directive ("<!--@import:".toList ++ path ++ "-->".toList) path] := by
  have hpieces := pieces_marker (marker_of_path hne hpath) []
  rwa [List.append_nil, pieces_nil] at hpieces

theorem sources_pieces (cs : List Char) : (pieces cs).flatMap Piece.source = cs := by
  induction cs using text_induction with
  | nil => rw [pieces_nil, List.flatMap_nil]
  | marker path marker rest hmarker ih =>
    rw [pieces_marker hmarker, List.flatMap_cons, ih]
    rfl
  | literal c rest hnone ih =>
    rw [pieces_literal hnone, List.flatMap_cons, ih]
    rfl

theorem marker_of_mem_pieces {cs path marker : List Char}
    (h : .directive marker path ∈ pieces cs) : Marker path marker := by
  induction cs using text_induction with
  | nil =>
    rw [pieces_nil] at h
    cases h
  | marker path' marker' rest hmarker ih =>
    rw [pieces_marker hmarker] at h
    rcases List.mem_cons.mp h with heq | h
    · cases heq
      exact hmarker
    · exact ih h
  | literal c rest hnone ih =>
    rw [pieces_literal hnone] at h
    rcases List.mem_cons.mp h with heq | h
    · cases heq
    · exact ih h

end StaticSite.Page
