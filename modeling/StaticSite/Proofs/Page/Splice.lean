import StaticSite.Page.Expansion
import StaticSite.Proofs.Page.Marker

namespace StaticSite.Page
open StaticSite.Text

variable {t : FileTree} {r : Resolver} {base : Path} {ancestry : List Path}

def takeBytes : Nat → List Char → List Char
  | _, [] => []
  | n, c :: cs => if n = 0 then [] else c :: takeBytes (n - c.utf8Size) cs

def dropBytes : Nat → List Char → List Char
  | _, [] => []
  | n, c :: cs => if n = 0 then c :: cs else dropBytes (n - c.utf8Size) cs

def between (cs : List Char) (start stop : Nat) : List Char :=
  takeBytes (stop - start) (dropBytes start cs)

theorem takeBytes_append (cs ds : List Char) : takeBytes (byteCount cs) (cs ++ ds) = cs := by
  induction cs with
  | nil => cases ds <;> rfl
  | cons c cs ih =>
    have hpos := c.utf8Size_pos
    rw [List.cons_append, byteCount_cons, takeBytes, if_neg (by omega), Nat.add_sub_cancel_left, ih]

theorem dropBytes_append (cs ds : List Char) : dropBytes (byteCount cs) (cs ++ ds) = ds := by
  induction cs with
  | nil => cases ds <;> rfl
  | cons c cs ih =>
    have hpos := c.utf8Size_pos
    rw [List.cons_append, byteCount_cons, dropBytes, if_neg (by omega), Nat.add_sub_cancel_left, ih]

theorem between_append (before cs after : List Char) :
    between (before ++ (cs ++ after)) (byteCount before) (byteCount before + byteCount cs) = cs := by
  rw [between, dropBytes_append, Nat.add_sub_cancel_left, takeBytes_append]

def spliced (document : List Char) (replacement : Directive → Expansion) :
    Nat → List Directive → Expansion
  | cursor, [] => ⟨dropBytes cursor document, []⟩
  | cursor, d :: ds =>
    ⟨between document cursor d.start, []⟩ ++
      (replacement d ++ spliced document replacement d.stop ds)

attribute [ext] Expansion

namespace Expansion

@[simp]
theorem html_append (a b : Expansion) : (a ++ b).html = a.html ++ b.html := rfl

@[simp]
theorem diagnostics_append (a b : Expansion) :
    (a ++ b).diagnostics = a.diagnostics ++ b.diagnostics := rfl

theorem append_assoc (a b c : Expansion) : a ++ b ++ c = a ++ (b ++ c) := by
  ext <;> simp

theorem empty_append (a : Expansion) : ⟨[], []⟩ ++ a = a := rfl

theorem append_empty (a : Expansion) : a ++ ⟨[], []⟩ = a := by
  ext <;> simp

end Expansion

theorem byteCount_pos {cs : List Char} (h : cs ≠ []) : 0 < byteCount cs :=
  Nat.lt_of_lt_of_le (List.length_pos_iff.mpr h) (length_le_byteCount cs)

theorem located_cons (offset : Nat) (p : Piece) (ps : List Piece) :
    located offset (p :: ps) = located offset [p] ++ located (offset + byteCount p.source) ps := by
  cases p with
  | literal c => rfl
  | directive marker path => rfl

theorem mem_located_cons {offset : Nat} {p : Piece} {ps : List Piece} {d : Directive}
    (h : d ∈ located (offset + byteCount p.source) ps) : d ∈ located offset (p :: ps) := by
  rw [located_cons]
  exact List.mem_append_right _ h

theorem byteCount_lt_of_marker {cs ds path marker rest : List Char} (hnone : directive? cs = none)
    (hmarker : Marker path marker) (heq : cs ++ ds = marker ++ rest) :
    byteCount cs < byteCount marker := by
  have hbegin : cs <+: marker ++ rest := ⟨ds, heq⟩
  have hnot : ∀ x, marker ++ x ≠ cs := fun x => (ne_marker_append hnone hmarker x).symm
  rcases List.prefix_or_prefix_of_prefix hbegin (List.prefix_append _ _) with ⟨x, rfl⟩ | ⟨x, hx⟩
  · have hx : x ≠ [] := by
      rintro rfl
      exact hnot [] (by simp)
    have := byteCount_pos hx
    rw [byteCount_append]
    omega
  · exact absurd hx (hnot x)

theorem pieces_append {cs ds : List Char} (offset : Nat)
    (h : ∀ d ∈ located offset (pieces (cs ++ ds)),
      ¬ (d.start < offset + byteCount cs ∧ offset + byteCount cs < d.stop)) :
    pieces (cs ++ ds) = pieces cs ++ pieces ds := by
  induction cs using text_induction generalizing offset with
  | nil => rw [pieces_nil, List.nil_append, List.nil_append]
  | marker path marker rest hmarker ih =>
    rw [List.append_assoc, pieces_marker hmarker] at h
    rw [List.append_assoc, pieces_marker hmarker, pieces_marker hmarker, List.cons_append]
    congr 1
    apply ih (offset + byteCount marker)
    intro d hd
    rw [Nat.add_assoc, ← byteCount_append]
    exact h d (mem_located_cons hd)
  | literal c rest hnone ih =>
    have hmore : directive? (c :: (rest ++ ds)) = none := by
      by_contra hsome
      obtain ⟨⟨path, others⟩, hfound⟩ := Option.ne_none_iff_exists'.mp hsome
      obtain ⟨marker, hmarker, heq⟩ := directive?_eq_some_iff.mp hfound
      have hlong : byteCount (c :: rest) < byteCount marker :=
        byteCount_lt_of_marker hnone hmarker heq
      have hpos := byteCount_pos (List.cons_ne_nil c rest)
      rw [List.cons_append, heq, pieces_marker hmarker] at h
      exact h _ (List.mem_cons_self ..) ⟨Nat.lt_add_of_pos_right hpos, Nat.add_lt_add_left hlong _⟩
    rw [List.cons_append, pieces_literal hmore] at h
    rw [List.cons_append, pieces_literal hmore, pieces_literal hnone, List.cons_append]
    congr 1
    apply ih (offset + c.utf8Size)
    intro d hd
    rw [Nat.add_assoc, ← byteCount_cons]
    exact h d (mem_located_cons hd)

theorem expandPieces_append {d : Documents} {ps qs : List Piece} :
    expandPieces d r base ancestry (ps ++ qs) =
      expandPieces d r base ancestry ps ++ expandPieces d r base ancestry qs := by
  induction ps with
  | nil => rw [List.nil_append, expandPieces, Expansion.empty_append]
  | cons p ps ih =>
    cases p with
    | literal c =>
      rw [List.cons_append, expandPieces, expandPieces, ih, Expansion.append_assoc]
    | directive marker path =>
      rw [List.cons_append, expandPieces, expandPieces, ih, Expansion.append_assoc]

theorem expandPieces_literals (d : Documents) (cs : List Char) :
    expandPieces d r base ancestry (cs.map .literal) = ⟨cs, []⟩ := by
  induction cs with
  | nil => rw [List.map_nil, expandPieces]
  | cons c cs ih =>
    rw [List.map_cons, expandPieces, ih]
    rfl

theorem expandFile_of_no_comment {path : Path} {text : List Char}
    (htext : t.readText (path.normalize r.here) = .ok text) (h : ¬ "<!--".toList <:+: text) :
    expandFile t r path = .ok ⟨text, []⟩ := by
  simp only [expandFile, htext]
  rw [expand, pieces_of_no_comment h, expandPieces_literals]

theorem expandFile_of_notMem {path : Path} {text : List Char}
    (htext : t.readText (path.normalize r.here) = .ok text) (h : '<' ∉ text) :
    expandFile t r path = .ok ⟨text, []⟩ :=
  expandFile_of_no_comment htext fun hopen => h (hopen.subset (List.mem_cons_self ..))

theorem spliced_located {document : List Char} {ps : List Piece}
    (hps : ∀ marker path, .directive marker path ∈ ps → Marker path marker)
    (before kept : List Char) (h : document = before ++ (kept ++ ps.flatMap Piece.source)) :
    spliced document (fun d => expand t r (between document d.start d.stop) base ancestry)
        (byteCount before) (located (byteCount before + byteCount kept) ps) =
      ⟨kept, []⟩ ++
        expandPieces (documents t) r (base.normalize r.here) ancestry ps := by
  induction ps generalizing before kept with
  | nil =>
    rw [located, spliced, expandPieces, h, dropBytes_append, Expansion.append_empty,
      List.flatMap_nil, List.append_nil]
  | cons p ps ih =>
    have htail : ∀ marker path, .directive marker path ∈ ps → Marker path marker :=
      fun marker path hmem => hps marker path (List.mem_cons_of_mem _ hmem)
    cases p with
    | literal c =>
      have hnext := ih htail before (kept ++ [c]) (by rw [h]; simp [Piece.source])
      rw [byteCount_append, byteCount_cons, byteCount_nil, ← Nat.add_assoc, Nat.add_zero] at hnext
      rw [located, hnext, expandPieces]
      ext <;> simp [Expansion.ofLiteral]
    | directive marker path =>
      have hmarker := hps marker path (List.mem_cons_self ..)
      have hnext := ih htail (before ++ (kept ++ marker)) []
        (by rw [h]; simp [Piece.source])
      rw [byteCount_append, byteCount_append, byteCount_nil, Nat.add_zero, ← Nat.add_assoc] at hnext
      have hkept : between document (byteCount before) (byteCount before + byteCount kept) = kept := by
        rw [h, between_append]
      have hspan : between document (byteCount before + byteCount kept)
          (byteCount before + byteCount kept + byteCount marker) = marker := by
        rw [h, List.flatMap_cons, ← byteCount_append, ← List.append_assoc before]
        exact between_append _ _ _
      have halone : expand t r marker base ancestry = expandPieces (documents t) r
          (base.normalize r.here) ancestry [.directive marker path] := by
        rw [expand, ← List.append_nil marker, pieces_marker hmarker, pieces_nil, List.append_nil]
      rw [located, spliced, hnext, hkept, hspan, halone, Expansion.empty_append,
        ← expandPieces_append, List.singleton_append]

/-- What a document expands to, cut anywhere but inside a directive, is what its parts expand to; and
a document keeps its bytes outside of the directives, each of which expands as if it stood alone. -/
theorem expand_append :
    (∀ cs ds : List Char,
      (∀ d ∈ directives (cs ++ ds), ¬ (d.start < byteCount cs ∧ byteCount cs < d.stop)) →
        (expand t r (cs ++ ds) base ancestry).html =
            (expand t r cs base ancestry).html ++ (expand t r ds base ancestry).html ∧
          (expand t r (cs ++ ds) base ancestry).diagnostics =
            (expand t r cs base ancestry).diagnostics ++
              (expand t r ds base ancestry).diagnostics) ∧
      ∀ document : List Char, expand t r document base ancestry =
        spliced document (fun d => expand t r (between document d.start d.stop) base ancestry) 0
          (directives document) := by
  constructor
  · intro cs ds h
    have hpieces : pieces (cs ++ ds) = pieces cs ++ pieces ds := by
      apply pieces_append 0
      simp only [Nat.zero_add]
      exact h
    have hexpand : expand t r (cs ++ ds) base ancestry =
        expand t r cs base ancestry ++ expand t r ds base ancestry := by
      rw [expand, hpieces, expandPieces_append]
      rfl
    rw [hexpand]
    exact ⟨rfl, rfl⟩
  · intro document
    have hsources : document = [] ++ ([] ++ (pieces document).flatMap Piece.source) :=
      (sources_pieces document).symm
    have hmarkers : ∀ marker path, .directive marker path ∈ pieces document → Marker path marker :=
      fun marker path hmem => marker_of_mem_pieces hmem
    exact (spliced_located hmarkers [] [] hsources).symm

def oneFile : FileTree :=
  ⟨[(["a".toList], .file (.text "A".toList))], []⟩

def oneFileResolver : Resolver :=
  .ofRoot [] none "parts".toList

theorem marker_oneFile : Marker ['a'] "<!--@import:a-->".toList :=
  @marker_of_path ['a'] (by decide) (by decide)

theorem directives_closedTwice :
    directives ("é<!--@import:a-->".toList ++ "-->".toList) = [⟨2, 18, ['a']⟩] := by
  have hsplit : "é<!--@import:a-->".toList ++ "-->".toList =
      'é' :: ("<!--@import:a-->".toList ++ ['-', '-', '>']) := rfl
  rw [directives, hsplit, pieces_literal (by decide), pieces_marker marker_oneFile,
    pieces_literal (by decide), pieces_literal (by decide), pieces_literal (by decide), pieces_nil]
  decide

theorem expand_closedTwice :
    (∀ d ∈ directives ("é<!--@import:a-->".toList ++ "-->".toList),
      ¬ (d.start < byteCount "é<!--@import:a-->".toList ∧
        byteCount "é<!--@import:a-->".toList < d.stop)) ∧
      (expand oneFile oneFileResolver ("é<!--@import:a-->".toList ++ "-->".toList) ⟨['/']⟩ []).html =
        (expand oneFile oneFileResolver "é<!--@import:a-->".toList ⟨['/']⟩ []).html ++
          (expand oneFile oneFileResolver "-->".toList ⟨['/']⟩ []).html := by
  have hcut : ∀ d ∈ directives ("é<!--@import:a-->".toList ++ "-->".toList),
      ¬ (d.start < byteCount "é<!--@import:a-->".toList ∧
        byteCount "é<!--@import:a-->".toList < d.stop) := by
    rw [directives_closedTwice]
    decide
  exact ⟨hcut, (expand_append.1 _ _ hcut).1⟩

end StaticSite.Page
