import StaticSite.Proofs.Page.Splice
import StaticSite.Proofs.Text.Utf8

/-!
The directives of a document are the markers among its bytes: all of them, in order, and none that
overlap. A marker has one angle bracket that opens, with which it begins, so that no other marker
begins within it.
-/

namespace StaticSite.Page
open StaticSite.Text

def Occurs (document : List Char) (d : Directive) : Prop :=
  ∃ before marker after, utf8 document = before ++ (utf8 marker ++ after) ∧ Marker d.path marker ∧
    d.start = before.length ∧ d.stop = d.start + (utf8 marker).length

def IsBoundary (document : List Char) (n : Nat) : Prop :=
  ∃ before after, document = before ++ after ∧ n = byteCount before

variable {path path' marker marker' before rest rest' document : List Char} {d d' : Directive}

theorem Marker.exists_tail (h : Marker path marker) :
    ∃ tail, marker = '<' :: tail ∧ '<' ∉ tail := by
  obtain @⟨before, after, _, hbefore, hafter, hend⟩ := h
  obtain @⟨blanks, -, hpath, hblanks⟩ := hend
  have hblank {cs : List Char} (hcs : Blank cs) : '<' ∉ cs := fun hmem =>
    absurd (hcs _ hmem) (by decide)
  have hchar : '<' ∉ path := fun hmem => absurd (hpath _ hmem) (by decide)
  refine ⟨"!--".toList ++ (before ++ ("@import:".toList ++ (after ++
    (path ++ (blanks ++ "-->".toList))))), rfl, ?_⟩
  simp only [List.mem_append, hblank hbefore, hblank hafter, hblank hblanks, hchar, false_or]
  decide

theorem Marker.unique (h : Marker path marker) (h' : Marker path' marker')
    (heq : marker ++ rest = marker' ++ rest') : path = path' ∧ marker = marker' ∧ rest = rest' := by
  have hfound := directive?_eq_some_iff.mpr ⟨marker, h, rfl (a := marker ++ rest)⟩
  rw [directive?_eq_some_iff.mpr ⟨marker', h', heq⟩] at hfound
  obtain ⟨rfl, rfl⟩ := Prod.mk.inj (Option.some.inj hfound)
  exact ⟨rfl, List.append_cancel_right heq, rfl⟩

theorem Marker.exists_between {ds : List Char} (h : Marker path marker)
    (heq : marker ++ rest = before ++ '<' :: ds) (hne : before ≠ []) :
    ∃ between, before = marker ++ between ∧ rest = between ++ '<' :: ds := by
  rcases List.append_eq_append_iff.mp heq with ⟨between, hbefore, hrest⟩ | ⟨more, hmarker, hmore⟩
  · exact ⟨between, hbefore, hrest⟩
  · obtain ⟨tail, rfl, hnot⟩ := h.exists_tail
    obtain ⟨c, before, rfl⟩ := List.exists_cons_of_ne_nil hne
    obtain ⟨-, rfl⟩ := List.cons.inj hmarker
    cases more with
    | nil => exact ⟨[], by rw [hmarker]; simp, by simpa using hmore.symm⟩
    | cons c more =>
      obtain ⟨rfl, -⟩ := List.cons.inj hmore
      exact absurd (List.mem_append_right _ (List.mem_cons_self ..)) hnot

theorem pieces_append_bracket (cs ds : List Char) :
    pieces (cs ++ '<' :: ds) = pieces cs ++ pieces ('<' :: ds) := by
  induction cs using text_induction with
  | nil => rw [pieces_nil, List.nil_append, List.nil_append]
  | marker path marker rest hmarker ih =>
    rw [List.append_assoc, pieces_marker hmarker, pieces_marker hmarker, ih, List.cons_append]
  | literal c rest hnone ih =>
    have hmore : directive? (c :: (rest ++ '<' :: ds)) = none := by
      by_contra hsome
      obtain ⟨⟨path, others⟩, hfound⟩ := Option.ne_none_iff_exists'.mp hsome
      obtain ⟨marker, hmarker, heq⟩ := directive?_eq_some_iff.mp hfound
      rw [← List.cons_append] at heq
      obtain ⟨more, hrest, -⟩ := hmarker.exists_between heq.symm (List.cons_ne_nil _ _)
      exact ne_marker_append hnone hmarker more hrest
    rw [List.cons_append, pieces_literal hmore, pieces_literal hnone, ih, List.cons_append]

theorem mem_located_pieces_iff {cs : List Char} {offset : Nat} :
    d ∈ located offset (pieces cs) ↔ ∃ before marker after, cs = before ++ (marker ++ after) ∧
      Marker d.path marker ∧ d.start = offset + byteCount before ∧
        d.stop = d.start + byteCount marker := by
  induction cs using text_induction generalizing offset with
  | nil =>
    simp only [pieces_nil, located, List.not_mem_nil, false_iff, not_exists, not_and]
    intro before marker after hnil hmarker
    have hnone := (List.append_eq_nil_iff.mp (List.append_eq_nil_iff.mp hnil.symm).2).1
    exact absurd hnone hmarker.ne_nil
  | marker path marker rest hmarker ih =>
    rw [pieces_marker hmarker, located, List.mem_cons, ih]
    constructor
    · rintro (rfl | ⟨before, marker', after, rfl, hmarker', hstart, hstop⟩)
      · exact ⟨[], marker, rest, rfl, hmarker, rfl, rfl⟩
      · refine ⟨marker ++ before, marker', after, by simp, hmarker', ?_, hstop⟩
        rw [hstart, byteCount_append, Nat.add_assoc]
    · rintro ⟨before, marker', after, heq, hmarker', hstart, hstop⟩
      by_cases hbefore : before = []
      · subst hbefore
        obtain ⟨hpath, rfl, rfl⟩ := hmarker.unique hmarker' heq
        obtain ⟨start, stop, path'⟩ := d
        obtain rfl : start = offset := hstart
        obtain rfl : stop = start + byteCount marker := hstop
        rw [hpath]
        exact .inl rfl
      · obtain ⟨tail, rfl, -⟩ := hmarker'.exists_tail
        obtain ⟨between, rfl, hrest⟩ := hmarker.exists_between heq hbefore
        rw [byteCount_append, ← Nat.add_assoc] at hstart
        exact .inr ⟨between, '<' :: tail, after, hrest, hmarker', hstart, hstop⟩
  | literal c rest hnone ih =>
    rw [pieces_literal hnone, located, ih]
    constructor
    · rintro ⟨before, marker, after, rfl, hmarker, hstart, hstop⟩
      refine ⟨c :: before, marker, after, rfl, hmarker, ?_, hstop⟩
      rw [hstart, byteCount_cons, Nat.add_assoc]
    · rintro ⟨before, marker, after, heq, hmarker, hstart, hstop⟩
      cases before with
      | nil => exact absurd heq (ne_marker_append hnone hmarker _)
      | cons c' before =>
        obtain ⟨rfl, rfl⟩ := List.cons.inj heq
        rw [byteCount_cons, ← Nat.add_assoc] at hstart
        exact ⟨before, marker, after, rfl, hmarker, hstart, hstop⟩

theorem occurs_iff : Occurs document d ↔ ∃ before marker after,
    document = before ++ (marker ++ after) ∧ Marker d.path marker ∧
      d.start = byteCount before ∧ d.stop = d.start + byteCount marker := by
  constructor
  · rintro ⟨bytes, marker, others, hbytes, hmarker, hstart, hstop⟩
    obtain ⟨before, after, rfl, rfl, -⟩ := exists_texts_of_utf8_eq hmarker.ne_nil hbytes
    rw [length_utf8] at hstart hstop
    exact ⟨before, marker, after, rfl, hmarker, hstart, hstop⟩
  · rintro ⟨before, marker, after, rfl, hmarker, hstart, hstop⟩
    rw [← length_utf8] at hstart hstop
    refine ⟨utf8 before, marker, utf8 after, ?_, hmarker, hstart, hstop⟩
    rw [utf8_append, utf8_append]

theorem mem_directives_iff_occurs : d ∈ directives document ↔ Occurs document d := by
  rw [directives, mem_located_pieces_iff, occurs_iff]
  simp only [Nat.zero_add]

theorem le_start_of_mem_located {offset : Nat} {ps : List Piece} (h : d ∈ located offset ps) :
    offset ≤ d.start := by
  induction ps generalizing offset with
  | nil => cases h
  | cons p ps ih =>
    cases p with
    | literal c => exact (Nat.le_add_right _ _).trans (ih h)
    | directive marker path =>
      rcases List.mem_cons.mp h with rfl | h
      · exact Nat.le_refl _
      · exact (Nat.le_add_right _ _).trans (ih h)

theorem pairwise_located (offset : Nat) (ps : List Piece) :
    (located offset ps).Pairwise fun a b => a.stop ≤ b.start := by
  induction ps generalizing offset with
  | nil => exact .nil
  | cons p ps ih =>
    cases p with
    | literal c => exact ih _
    | directive marker path =>
      exact List.pairwise_cons.mpr ⟨fun d hd => le_start_of_mem_located hd, ih _⟩

theorem Occurs.start_lt_stop (h : Occurs document d) : d.start < d.stop := by
  obtain ⟨before, marker, after, -, hmarker, hstart, hstop⟩ := occurs_iff.mp h
  rw [hstop]
  exact Nat.lt_add_of_pos_right (byteCount_pos hmarker.ne_nil)

theorem Occurs.eq_or_apart (h : Occurs document d) (h' : Occurs document d') :
    d = d' ∨ d.stop ≤ d'.start ∨ d'.stop ≤ d.start := by
  have hordered := pairwise_located 0 (pieces document)
  have hapart : ∀ a ∈ directives document, ∀ b ∈ directives document,
      a = b ∨ a.stop ≤ b.start ∨ b.stop ≤ a.start :=
    List.Pairwise.forall_of_forall_of_flip (fun _ _ => .inl rfl)
      (hordered.imp fun hle => .inr (.inl hle)) (hordered.imp fun hle => .inr (.inr hle))
  exact hapart _ (mem_directives_iff_occurs.mpr h) _ (mem_directives_iff_occurs.mpr h')

/-- The directives of a document are all that occur in it, from left to right. None overlap, a start
has one stop and one path, and between the two, which are boundaries, stands the marker. -/
theorem directives_exact (document : List Char) :
    (∀ d, d ∈ directives document ↔ Occurs document d) ∧
      ((directives document).Pairwise fun a b => a.start < a.stop ∧ a.stop ≤ b.start) ∧
      (∀ a b, Occurs document a → Occurs document b →
        a = b ∨ a.stop ≤ b.start ∨ b.stop ≤ a.start) ∧
      (∀ a b, Occurs document a → Occurs document b → a.start = b.start → a = b) ∧
      ∀ d ∈ directives document, d.start < d.stop ∧ IsBoundary document d.start ∧
        IsBoundary document d.stop ∧ Marker d.path (between document d.start d.stop) := by
  refine ⟨fun d => mem_directives_iff_occurs, ?_, fun a b => Occurs.eq_or_apart, ?_, ?_⟩
  · apply (pairwise_located 0 _).imp_of_mem
    intro a b ha _ hle
    exact ⟨(mem_directives_iff_occurs.mp ha).start_lt_stop, hle⟩
  · intro a b ha hb hstart
    have hlt := ha.start_lt_stop
    have hlt' := hb.start_lt_stop
    rcases ha.eq_or_apart hb with heq | hle | hle
    · exact heq
    · omega
    · omega
  · intro d hd
    have hoccurs := mem_directives_iff_occurs.mp hd
    obtain ⟨before, marker, after, rfl, hmarker, hstart, hstop⟩ := occurs_iff.mp hoccurs
    refine ⟨hoccurs.start_lt_stop, ⟨before, marker ++ after, rfl, hstart⟩,
      ⟨before ++ marker, after, (List.append_assoc ..).symm, ?_⟩, ?_⟩
    · rw [hstop, hstart, byteCount_append]
    · rw [hstop, hstart, between_append]
      exact hmarker

def nestedComment : List Char := "<!--<!--@import:a---->".toList

theorem directives_nested : directives nestedComment = [⟨4, 22, "a--".toList⟩] := by
  have hmarker : Marker "a--".toList "<!--@import:a---->".toList :=
    @marker_of_path "a--".toList (by decide) (by decide)
  have hsplit : nestedComment = '<' :: '!' :: '-' :: '-' :: ("<!--@import:a---->".toList ++ []) := rfl
  rw [directives, hsplit, pieces_literal (by decide), pieces_literal (by decide),
    pieces_literal (by decide), pieces_literal (by decide), pieces_marker hmarker, pieces_nil]
  decide

theorem occurs_nested : Occurs nestedComment ⟨4, 22, "a--".toList⟩ ∧
    ∀ d, Occurs nestedComment d → d.start = 4 → d = ⟨4, 22, "a--".toList⟩ := by
  obtain ⟨hall, -, -, hunique, -⟩ := directives_exact nestedComment
  have hoccurs : Occurs nestedComment ⟨4, 22, "a--".toList⟩ := by
    rw [← hall, directives_nested]
    exact List.mem_singleton_self _
  exact ⟨hoccurs, fun d hd hstart => hunique _ _ hd hoccurs hstart⟩

end StaticSite.Page
