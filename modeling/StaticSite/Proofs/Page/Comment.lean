import StaticSite.Page.Diagnostic
import StaticSite.Proofs.Page.Occurrence

namespace StaticSite.Page
open StaticSite.Text

namespace Directive

def shift (n : Nat) (d : Directive) : Directive :=
  ⟨n + d.start, n + d.stop, d.path⟩

end Directive

theorem located_add (n offset : Nat) (ps : List Piece) :
    located (n + offset) ps = (located offset ps).map (Directive.shift n) := by
  induction ps generalizing offset with
  | nil => rfl
  | cons p ps ih =>
    rw [located_cons, located_cons offset, List.map_append, Nat.add_assoc, ih]
    cases p with
    | literal c => rfl
    | directive marker path =>
      simp only [located, Directive.shift, List.map_cons, List.map_nil, Nat.add_assoc]

theorem located_append (offset : Nat) (ps qs : List Piece) : located offset (ps ++ qs) =
    located offset ps ++ located (offset + byteCount (ps.flatMap Piece.source)) qs := by
  induction ps generalizing offset with
  | nil => rfl
  | cons p ps ih =>
    rw [List.cons_append, located_cons, ih, located_cons offset p ps, List.append_assoc,
      List.flatMap_cons, byteCount_append, Nat.add_assoc]

theorem directives_append {cs ds : List Char} (h : pieces (cs ++ ds) = pieces cs ++ pieces ds) :
    directives (cs ++ ds) =
      directives cs ++ (directives ds).map (Directive.shift (byteCount cs)) := by
  rw [directives, h, located_append, sources_pieces, Nat.add_comm 0, located_add]
  rfl

theorem located_literals (offset : Nat) (cs : List Char) :
    located offset (cs.map .literal) = [] := by
  induction cs generalizing offset with
  | nil => rfl
  | cons c cs ih => exact ih _

theorem after?_eq_none {word cs : List Char} {c : Char} (hc : c ∉ word) (h : ¬ word <+: cs)
    (ds : List Char) : after? word (cs ++ c :: ds) = none := by
  by_contra hsome
  obtain ⟨rest, hrest⟩ := Option.ne_none_iff_exists'.mp hsome
  have hword : word <+: cs ++ c :: ds := ⟨rest, (after?_eq_some_iff.mp hrest).symm⟩
  rcases List.prefix_or_prefix_of_prefix hword (List.prefix_append _ _) with hprefix | ⟨more, rfl⟩
  · exact h hprefix
  · cases more with
    | nil => exact h (by simp)
    | cons d more =>
      obtain ⟨rfl, -⟩ := List.cons_prefix_cons.mp ((List.prefix_append_right_inj _).mp hword)
      exact hc (List.mem_append_right _ (List.mem_cons_self ..))

namespace Diagnostic

theorem breakHyphens_cons {c : Char} {cs : List Char} (h : ∀ rest, c = '-' → cs = '-' :: rest → False) :
    breakHyphens (c :: cs) = c :: breakHyphens cs := by
  rw [breakHyphens]
  exact h

theorem head?_breakHyphens (cs : List Char) : (breakHyphens cs).head? = cs.head? := by
  induction cs using breakHyphens.induct with
  | case1 cs ih => rfl
  | case2 c cs hnot ih =>
    rw [breakHyphens_cons hnot]
    rfl
  | case3 => rfl

theorem not_infix_breakHyphens (cs : List Char) : ¬ "--".toList <:+: breakHyphens cs := by
  induction cs using breakHyphens.induct with
  | case1 cs ih =>
    rw [breakHyphens, List.infix_cons_iff, List.infix_cons_iff]
    rintro (hstart | hstart | hinside)
    · simp at hstart
    · simp at hstart
    · exact ih hinside
  | case2 c cs hnot ih =>
    rw [breakHyphens_cons hnot, List.infix_cons_iff]
    rintro (hstart | hinside)
    · -- The rest keeps its first character, so the second hyphen stood there before.
      obtain ⟨hc, more, hmore⟩ := List.cons_prefix_cons.mp hstart
      have hhead := head?_breakHyphens cs
      rw [← hmore] at hhead
      obtain ⟨rest, hrest⟩ := List.head?_eq_some_iff.mp hhead.symm
      exact hnot rest hc.symm hrest
    · exact ih hinside
  | case3 => simp [breakHyphens]

theorem filter_breakHyphens (cs : List Char) :
    (breakHyphens cs).filter (· ≠ ' ') = cs.filter (· ≠ ' ') := by
  induction cs using breakHyphens.induct with
  | case1 cs ih =>
    rw [breakHyphens]
    simpa [List.filter_cons] using ih
  | case2 c cs hnot ih => rw [breakHyphens_cons hnot, List.filter_cons, List.filter_cons, ih]
  | case3 => rfl

section message

variable {cs : List Char} (h : ¬ "--".toList <:+: cs)
include h

theorem not_prefix_open : ¬ "<!--".toList <+: cs := by
  rintro ⟨rest, rfl⟩
  exact h ⟨"<!".toList, rest, rfl⟩

theorem not_prefix_close : ¬ "-->".toList <+: cs := by
  rintro ⟨rest, rfl⟩
  exact h ⟨[], '>' :: rest, rfl⟩

theorem splitAt?_message (rest : List Char) :
    splitAt? "-->".toList (cs ++ ' ' :: ("-->".toList ++ rest)) = some (cs ++ [' '], rest) := by
  induction cs with
  | nil => rfl
  | cons c cs ih =>
    have hclose := after?_eq_none (c := ' ') (by decide) (not_prefix_close h) ("-->".toList ++ rest)
    rw [List.cons_append] at hclose ⊢
    rw [splitAt?, hclose]
    dsimp only
    rw [ih fun hinside => h (List.infix_cons hinside)]
    rfl

theorem pieces_message (rest : List Char) :
    pieces (cs ++ ' ' :: rest) = cs.map .literal ++ pieces (' ' :: rest) := by
  induction cs with
  | nil => rfl
  | cons c cs ih =>
    have hopen := after?_eq_none (c := ' ') (by decide) (not_prefix_open h) rest
    have hnone : directive? (c :: cs ++ ' ' :: rest) = none := by
      rw [directive?, hopen]
      rfl
    rw [List.cons_append] at hnone ⊢
    rw [pieces_literal hnone, ih fun hinside => h (List.infix_cons hinside), List.map_cons,
      List.cons_append]

end message

theorem exists_breakHyphens_text (d : Diagnostic) :
    ∃ c cs, breakHyphens d.text = c :: cs ∧ isWhiteSpace c = false ∧ c ≠ '@' := by
  have hhead := head?_breakHyphens d.text
  cases d with
  | missing p =>
    obtain ⟨cs, hcs⟩ := List.head?_eq_some_iff.mp (hhead.trans rfl)
    exact ⟨_, cs, hcs, by decide, by decide⟩
  | circular p =>
    obtain ⟨cs, hcs⟩ := List.head?_eq_some_iff.mp (hhead.trans rfl)
    exact ⟨_, cs, hcs, by decide, by decide⟩

theorem pieces_comment (d : Diagnostic) (rest : List Char) :
    pieces (d.comment ++ rest) = d.comment.map .literal ++ pieces rest := by
  have hcomment : d.comment ++ rest = '<' :: ("!-- ".toList ++
      (breakHyphens d.text ++ ' ' :: ("-->".toList ++ rest))) := by
    simp [comment]
  have hnone : directive? ('<' :: ("!-- ".toList ++
      (breakHyphens d.text ++ ' ' :: ("-->".toList ++ rest)))) = none := by
    obtain ⟨c, cs, hcs, hblank, hat⟩ := d.exists_breakHyphens_text
    have hopen (ds : List Char) : after? "<!--".toList ('<' :: ("!-- ".toList ++ ds)) =
        some (' ' :: ds) := rfl
    have hskip (ds : List Char) : (' ' :: c :: ds).dropWhile isWhiteSpace = c :: ds := by
      rw [List.dropWhile_cons_of_pos (by decide), List.dropWhile_cons_of_neg (by simp [hblank])]
    have hword (ds : List Char) : after? "@import:".toList (c :: ds) = none := if_neg (Ne.symm hat)
    rw [hcs, directive?, hopen, List.cons_append]
    simp only [bind, Option.bind_some, hskip, hword, Option.bind_none]
  rw [hcomment, pieces_literal hnone, pieces_append_of_notMem (by decide),
    pieces_message (not_infix_breakHyphens _)]
  change _ :: (_ ++ (_ ++ pieces (" -->".toList ++ rest))) = _
  rw [pieces_append_of_notMem (by decide)]
  simp [comment]

theorem pieces_append_comment (d : Diagnostic) (pre post : List Char) :
    pieces (pre ++ (d.comment ++ post)) = pieces pre ++ (d.comment.map .literal ++ pieces post) := by
  rw [← pieces_comment]
  exact pieces_append_bracket pre _

theorem pieces_concat_comment (d : Diagnostic) (pre : List Char) :
    pieces (pre ++ d.comment) = pieces pre ++ d.comment.map .literal := by
  have hpieces := d.pieces_append_comment pre []
  rwa [List.append_nil, pieces_nil, List.append_nil] at hpieces

theorem directives_concat_comment (d : Diagnostic) (pre : List Char) :
    directives (pre ++ d.comment) = directives pre := by
  rw [directives, pieces_concat_comment, located_append, located_literals, List.append_nil]
  rfl

/-- The comment of a diagnostic shows its text, with no two hyphens side by side, and ends behind it,
whatever follows. It has no directive, ends none that is begun before it and begins none, so that the
directives around it are those of the two texts that it stands between. -/
theorem comment_inert (d : Diagnostic) :
    ∃ shown, d.comment = "<!-- ".toList ++ (shown ++ " -->".toList) ∧
      shown.filter (· ≠ ' ') = d.text.filter (· ≠ ' ') ∧
      ¬ "--".toList <:+: shown ∧
      (∀ post, (after? "<!--".toList (d.comment ++ post)).bind (splitAt? "-->".toList) =
        some (' ' :: (shown ++ [' ']), post)) ∧
      ∀ pre post, directives (pre ++ (d.comment ++ post)) = directives pre ++
        (directives post).map (Directive.shift (byteCount (pre ++ d.comment))) := by
  have hbroken := not_infix_breakHyphens d.text
  have hcomment : d.comment = "<!-- ".toList ++ (breakHyphens d.text ++ " -->".toList) :=
    List.append_assoc ..
  refine ⟨breakHyphens d.text, hcomment, filter_breakHyphens d.text, hbroken, ?_, ?_⟩
  · intro post
    have hspaced : ¬ "--".toList <:+: ' ' :: breakHyphens d.text := by
      rw [List.infix_cons_iff]
      rintro (hstart | hinside)
      · simp at hstart
      · exact hbroken hinside
    have hopen : after? "<!--".toList (d.comment ++ post) =
        some (' ' :: breakHyphens d.text ++ ' ' :: ("-->".toList ++ post)) := by
      rw [after?_eq_some_iff, hcomment]
      simp
    rw [hopen, Option.bind_some, splitAt?_message hspaced]
    rfl
  · intro pre post
    have hpieces : pieces (pre ++ d.comment ++ post) = pieces (pre ++ d.comment) ++ pieces post := by
      rw [pieces_concat_comment, List.append_assoc, List.append_assoc, pieces_append_comment]
    rw [← List.append_assoc, directives_append hpieces, directives_concat_comment]

end Diagnostic

end StaticSite.Page
