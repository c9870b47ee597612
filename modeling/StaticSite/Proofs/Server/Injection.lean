import Mathlib
import StaticSite.Proofs.Page.Splice
import StaticSite.Proofs.Server.Missing
import StaticSite.Proofs.Text.Utf8

/-!
The tag that brings the client into a page is one splice. It comes in front of the last end tag of the
body, in whatever case that is written, or behind a page without one. The end tag is looked for in a
copy in small letters. The copy gives every character the width that it has in the page, so what
begins at an offset of the copy begins at the same offset of the page, and no character is cut.
-/

namespace StaticSite.Text

theorem utf8Size_toLower (c : Char) : c.toLower.utf8Size = c.utf8Size := by
  by_cases hupper : c.val ≥ 'A'.val ∧ c.val ≤ 'Z'.val
  · have hsize {d : Char} (h : d.val ≤ 127) : d.utf8Size = 1 := if_pos h
    have hfirst : (65 : UInt32) ≤ c.val := hupper.1
    have hlast : c.val ≤ (90 : UInt32) := hupper.2
    have hlower : c.toLower.val ≤ 127 := by
      rw [Char.toLower, dif_pos hupper]
      change c.val + 32 ≤ 127
      grind
    rw [hsize hlower, hsize (by grind)]
  · rw [Char.toLower, dif_neg hupper]

theorem byteCount_lowerAscii (cs : List Char) : byteCount (lowerAscii cs) = byteCount cs := by
  induction cs with
  | nil => rfl
  | cons c cs ih =>
    change c.toLower.utf8Size + byteCount (lowerAscii cs) = c.utf8Size + byteCount cs
    rw [utf8Size_toLower, ih]

theorem lowerAscii_append (cs ds : List Char) :
    lowerAscii (cs ++ ds) = lowerAscii cs ++ lowerAscii ds :=
  List.map_append

theorem length_lowerAscii (cs : List Char) : (lowerAscii cs).length = cs.length :=
  List.length_map ..

end StaticSite.Text

namespace StaticSite.Server
open StaticSite.Page StaticSite.Text

def ClosesBody (cs : List Char) : Prop :=
  ∃ tag rest, cs = tag ++ rest ∧ lowerAscii tag = bodyClose

def ClosesAt (html : List Char) (i : Nat) : Prop :=
  utf8 bodyClose <+: (utf8 (lowerAscii html)).drop i

/-- A document is cut in front of the last end tag of its body, or at its end if it has none. -/
structure Cut (html before after : List Char) : Prop where
  append : html = before ++ after
  last : (ClosesBody after ∧ ∀ more rest, after = more ++ rest → ClosesBody rest → more = []) ∨
    after = [] ∧ ∀ front rest, html = front ++ rest → ¬ ClosesBody rest

def Spliced (tag html html' : List Char) : Prop :=
  ∃ before after, Cut html before after ∧ html' = before ++ (tag ++ after)

variable {html before after : List Char}

theorem startsWithBodyClose_iff {cs : List Char} :
    startsWithBodyClose cs = true ↔ ClosesBody cs := by
  have hclose : lowerAscii bodyClose = bodyClose := by decide
  rw [startsWithBodyClose, sameLetters, beq_iff_eq, hclose]
  constructor
  · intro h
    exact ⟨_, _, (List.take_append_drop bodyClose.length cs).symm, h.symm⟩
  · rintro ⟨tag, rest, rfl, h⟩
    rw [← h, length_lowerAscii, List.take_left]

theorem not_closesBody_nil : ¬ ClosesBody [] := by
  rintro ⟨tag, rest, hnil, h⟩
  rw [(List.append_eq_nil_iff.mp hnil.symm).1] at h
  cases h

theorem cut_nil : Cut [] [] [] := by
  refine ⟨rfl, .inr ⟨rfl, ?_⟩⟩
  intro front rest h
  rw [(List.append_eq_nil_iff.mp h.symm).2]
  exact not_closesBody_nil

theorem Cut.cons (h : Cut html before after) (hafter : after ≠ []) (c : Char) :
    Cut (c :: html) (c :: before) after := by
  obtain ⟨rfl, hlast | ⟨hnil, -⟩⟩ := h
  · exact ⟨rfl, .inl hlast⟩
  · exact absurd hnil hafter

theorem Cut.first {c : Char} (h : Cut html before []) (hclose : ClosesBody (c :: html)) :
    Cut (c :: html) [] (c :: html) := by
  obtain ⟨-, ⟨hnil, -⟩ | ⟨-, hnone⟩⟩ := h
  · exact absurd hnil not_closesBody_nil
  · refine ⟨rfl, .inl ⟨hclose, ?_⟩⟩
    intro more rest heq hrest
    cases more with
    | nil => rfl
    | cons d more => exact absurd hrest (hnone more rest (List.cons.inj heq).2)

theorem Cut.none {c : Char} (h : Cut html before []) (hclose : ¬ ClosesBody (c :: html)) :
    Cut (c :: html) (c :: before) [] := by
  obtain ⟨rfl, ⟨hnil, -⟩ | ⟨-, hnone⟩⟩ := h
  · exact absurd hnil not_closesBody_nil
  · refine ⟨rfl, .inr ⟨rfl, ?_⟩⟩
    intro front rest heq hrest
    cases front with
    | nil => exact hclose (heq ▸ hrest)
    | cons d front => exact hnone front rest (List.cons.inj heq).2 hrest

theorem cut_splitBody (html : List Char) : Cut html (splitBody html).1 (splitBody html).2 := by
  induction html with
  | nil => exact cut_nil
  | cons c cs ih =>
    rw [splitBody]
    split
    · rename_i before hsplit
      rw [hsplit] at ih
      split
      · rename_i hclose
        exact ih.first (startsWithBodyClose_iff.mp hclose)
      · rename_i hclose
        exact ih.none fun h => hclose (startsWithBodyClose_iff.mpr h)
    · rename_i before after hafter hsplit
      rw [hsplit] at ih
      exact ih.cons hafter c

theorem closesAt_iff {i : Nat} : ClosesAt html i ↔
    ∃ front rest, html = front ++ rest ∧ byteCount front = i ∧ ClosesBody rest := by
  constructor
  · rintro ⟨as, has⟩
    have hlength : i ≤ (utf8 (lowerAscii html)).length := by
      by_contra hlong
      rw [List.drop_eq_nil_of_le (by omega), List.append_eq_nil_iff] at has
      exact absurd has.1 (by decide)
    have hbytes : utf8 (lowerAscii html) =
        (utf8 (lowerAscii html)).take i ++ (utf8 bodyClose ++ as) := by
      rw [has, List.take_append_drop]
    obtain ⟨front', rest', hcopy, hfront, -⟩ := exists_texts_of_utf8_eq (by decide) hbytes
    obtain ⟨front, rest, rfl, rfl, hrest⟩ := List.map_eq_append_iff.mp hcopy
    obtain ⟨tag, more, rfl, htag, -⟩ := List.map_eq_append_iff.mp hrest
    refine ⟨front, tag ++ more, rfl, ?_, tag, more, rfl, htag⟩
    -- The small letters in front are as wide as what they stand for.
    have hwidth := congrArg List.length hfront
    change (utf8 (lowerAscii front)).length = _ at hwidth
    rwa [length_utf8, byteCount_lowerAscii, List.length_take_of_le hlength] at hwidth
  · rintro ⟨front, rest, rfl, rfl, tag, more, rfl, htag⟩
    have hwidth : (utf8 (lowerAscii front)).length = byteCount front := by
      rw [length_utf8, byteCount_lowerAscii]
    rw [ClosesAt, lowerAscii_append, utf8_append, lowerAscii_append, utf8_append, htag,
      List.drop_left' hwidth]
    exact List.prefix_append _ _

theorem Cut.closesAt (h : Cut html before after) :
    IsGreatest {i | ClosesAt html i} (byteCount before) ∨
      after = [] ∧ ∀ i, ¬ ClosesAt html i := by
  obtain ⟨rfl, ⟨hclose, hlast⟩ | ⟨rfl, hnone⟩⟩ := h
  · refine .inl ⟨closesAt_iff.mpr ⟨before, after, rfl, rfl, hclose⟩, ?_⟩
    intro i hi
    obtain ⟨front, rest, heq, rfl, hrest⟩ := closesAt_iff.mp hi
    rcases List.append_eq_append_iff.mp heq with ⟨more, rfl, hafter⟩ | ⟨more, rfl, -⟩
    · rw [hlast more rest hafter hrest, List.append_nil]
    · rw [byteCount_append]
      exact Nat.le_add_right ..
  · refine .inr ⟨rfl, ?_⟩
    intro i hi
    obtain ⟨front, rest, heq, -, hrest⟩ := closesAt_iff.mp hi
    exact hnone front rest heq hrest

theorem Cut.bytes (h : Cut html before after) :
    utf8 before = (utf8 html).take (byteCount before) ∧
      utf8 after = (utf8 html).drop (byteCount before) := by
  rw [h.append, utf8_append, ← length_utf8, List.take_left, List.drop_left]
  exact ⟨rfl, rfl⟩

theorem Cut.unique {before' after' : List Char} (h : Cut html before after)
    (h' : Cut html before' after') : before = before' ∧ after = after' := by
  have hcount : byteCount before = byteCount before' := by
    rcases h.closesAt with hgreatest | ⟨hnil, hnone⟩
    · rcases h'.closesAt with hgreatest' | ⟨-, hnone⟩
      · exact hgreatest.unique hgreatest'
      · exact absurd hgreatest.1 (hnone _)
    · rcases h'.closesAt with hgreatest' | ⟨hnil', -⟩
      · exact absurd hgreatest'.1 (hnone _)
      · have hbefore := h.append
        have hbefore' := h'.append
        rw [hnil, List.append_nil] at hbefore
        rw [hnil', List.append_nil] at hbefore'
        rw [← hbefore, ← hbefore']
  have hfront : before = before' := by
    calc before
        = takeBytes (byteCount before) html := by rw [h.append, takeBytes_append]
      _ = takeBytes (byteCount before') html := by rw [hcount]
      _ = before' := by rw [h'.append, takeBytes_append]
  subst hfront
  exact ⟨rfl, List.append_cancel_left (h.append.symm.trans h'.append)⟩

theorem spliced_injectClient (html script spriteUrl : List Char) :
    Spliced ("<script src=\"".toList ++ script ++ "\" data-sprite=\"".toList ++ spriteUrl ++
      "\"></script>".toList) html (injectClient html script spriteUrl) :=
  ⟨_, _, cut_splitBody html, List.append_assoc ..⟩

namespace Site

def withLiveReload (s : Site) (liveReload : Bool) : Site := { s with liveReload }

theorem FallsBack.withLiveReload_false {s : Site} {router : Router} {r : Request}
    (h : (s.withLiveReload true).FallsBack router r) :
    (s.withLiveReload false).FallsBack router r := by
  intro route hroute
  rcases mem_routes_iff.mp hroute with rfl | ⟨hlive, -⟩
  · exact h _ (mem_routes_iff.mpr (.inl rfl))
  · cases hlive

end Site

/-- Bringing in the client splits the text in two and puts its tag between them: in front of the last
end tag of the body, counted in bytes of a copy in small letters, or behind a text that has none. With
live reload, a page is served with this tag and is otherwise as it is without. -/
theorem injectClient_splice :
    (∀ html script spriteUrl : List Char,
      Spliced ("<script src=\"".toList ++ script ++ "\" data-sprite=\"".toList ++ spriteUrl ++
        "\"></script>".toList) html (injectClient html script spriteUrl)) ∧
    (∀ html before after : List Char, Cut html before after →
      (IsGreatest {i | ClosesAt html i} (byteCount before) ∨
        after = [] ∧ ∀ i, ¬ ClosesAt html i) ∧
      utf8 before = (utf8 html).take (byteCount before) ∧
      utf8 after = (utf8 html).drop (byteCount before)) ∧
    ∀ (s : Site) (router : Router) (t : FileTree) (r : Request) (file : Path),
      r.method = "GET" → (s.withLiveReload true).FallsBack router r →
      fileOf? t s.sourceDir r.path = some file → isPage file = true →
      (∀ e, expandFile t s.resolver file = .error e →
        (s.withLiveReload true).respond t r router =
          (s.withLiveReload false).respond t r router) ∧
      ∀ e, expandFile t s.resolver file = .ok e → ∃ html,
        Spliced ("<script src=\"/__weft/live-reload.js\" data-sprite=\"".toList ++
          s.spriteUrlPath ++ "\"></script>".toList) e.html html ∧
        (s.withLiveReload false).respond t r router =
          Served.response ⟨Site.pageMedia, .text e.html⟩ ∧
        (s.withLiveReload true).respond t r router =
          Served.response ⟨Site.pageMedia, .text html⟩ := by
  refine ⟨spliced_injectClient, fun html before after h => ⟨h.closesAt, h.bytes⟩, ?_⟩
  intro s router t r file hget hfall hfile hpage
  have hoff := hfall.withLiveReload_false
  constructor
  · intro e he
    rw [Site.respond_page_error hfall hfile hpage hget he,
      Site.respond_page_error hoff hfile hpage hget he]
  · intro e he
    refine ⟨_, spliced_injectClient e.html clientPath s.spriteUrlPath, ?_, ?_⟩
    · rw [Site.respond_page hoff hfile hpage hget he]
      rfl
    · rw [Site.respond_page hfall hfile hpage hget he]
      rfl

section greeting

def greetingText : List Char := "İ</body>ẞ</BoDy>é".toList

def greetingTree : FileTree :=
  ⟨[(["s".toList], .directory), (["s".toList, "index.html".toList], .file (.text greetingText))], []⟩

def greetingSite : Site :=
  ⟨.ofString "/s", .ofRoot [] (some (.ofString "/s")) Resolver.defaultComponentsDir,
    .ofString "/o.svg", "/sprite.svg".toList, true⟩

def greetingRequest : Request := ⟨"GET", "/".toList, []⟩

theorem expandFile_greeting :
    expandFile greetingTree greetingSite.resolver (.ofString "/s/index.html") =
      .ok ⟨greetingText, []⟩ :=
  expandFile_of_no_comment (by cbv) (by decide)

theorem injectClient_splice_greeting :
    Cut greetingText "İ</body>ẞ".toList "</BoDy>é".toList ∧
      IsGreatest {i | ClosesAt greetingText i} 12 ∧
      greetingRequest.method = "GET" ∧
      (greetingSite.withLiveReload true).FallsBack .literal greetingRequest ∧
      fileOf? greetingTree greetingSite.sourceDir greetingRequest.path =
        some (.ofString "/s/index.html") ∧
      isPage (.ofString "/s/index.html") = true ∧
      (greetingSite.withLiveReload false).respond greetingTree greetingRequest =
        Served.response ⟨Site.pageMedia, .text "İ</body>ẞ</BoDy>é".toList⟩ ∧
      (greetingSite.withLiveReload true).respond greetingTree greetingRequest =
        Served.response ⟨Site.pageMedia, .text ("İ</body>ẞ".toList ++
          ("<script src=\"/__weft/live-reload.js\" data-sprite=\"/sprite.svg\"></script>".toList ++
            "</BoDy>é".toList))⟩ := by
  have hcut : Cut greetingText "İ</body>ẞ".toList "</BoDy>é".toList := cut_splitBody greetingText
  have hgreatest := (injectClient_splice.2.1 _ _ _ hcut).1.resolve_right fun h => nomatch h.1
  have hfall : (greetingSite.withLiveReload true).FallsBack .literal greetingRequest := by decide
  have hfile : fileOf? greetingTree greetingSite.sourceDir greetingRequest.path =
      some (.ofString "/s/index.html") := by cbv
  have hpage : isPage (.ofString "/s/index.html") = true := by decide
  obtain ⟨html, ⟨before, after, hcut', rfl⟩, hoff, hon⟩ := (injectClient_splice.2.2 greetingSite
    .literal greetingTree greetingRequest _ rfl hfall hfile hpage).2 _ expandFile_greeting
  obtain ⟨rfl, rfl⟩ := hcut'.unique hcut
  exact ⟨hcut, hgreatest, rfl, hfall, hfile, hpage, hoff, hon⟩

end greeting

end StaticSite.Server
