import Mathlib
import StaticSite.Proofs.Svg.Root
import StaticSite.Proofs.Xml.Forest

namespace StaticSite.Svg
open StaticSite.Text StaticSite.Xml

namespace Root

structure ElementFree (text : List Char) : Prop where
  readable : (Reading.ofText text).failure = none
  free : ∀ e ∈ (Reading.ofText text).events, isElement e = false

def document (front : List Char) (t : Tag) (content tail : List Char) : List Char :=
  front ++ '<' :: (t.name ++ (t.attributeText ++ '>' ::
    (content ++ '<' :: '/' :: (t.name ++ '>' :: tail))))

structure ShowsViewBox (as : List Attribute) (viewBox : Option (List Char)) : Prop where
  read : ∀ a ∈ as, a.key = viewBoxKey → ∀ value, unescape a.value = .ok value →
    viewBox = some value
  unread : ∀ a ∈ as, a.key = viewBoxKey → ∀ e, unescape a.value = .error e → viewBox = some a.value
  absent : (∀ a ∈ as, a.key ≠ viewBoxKey) → viewBox = none

inductive Declares : List Attribute → List (List Char × List Char) → Prop where
  | nil : Declares [] []
  | binding {a : Attribute} {as : List Attribute} {name uri : List Char}
    {namespaces : List (List Char × List Char)} : a.key = "xmlns:".toList ++ name →
    unescape a.value = .ok uri → Declares as namespaces →
    Declares (a :: as) ((name, uri) :: namespaces)
  | other {a : Attribute} {as : List Attribute} {namespaces : List (List Char × List Char)} :
    (∀ name uri, a.key = "xmlns:".toList ++ name → unescape a.value ≠ .ok uri) →
    Declares as namespaces → Declares (a :: as) namespaces

theorem document_eq (front : List Char) (t : Tag) (content tail : List Char) :
    document front t content tail = front ++ ((Event.opening t).render ++
      (content ++ ((Event.closing t.name).render ++ tail))) := by
  simp [document, Event.render_opening, Event.render_closing, Tag.content]

theorem ElementFree.openNames_eq {text : List Char} (h : ElementFree text) :
    openNames [] (Reading.ofText text).events = some [] := by
  obtain ⟨out, hout⟩ := exists_openNames_ofText text
  have hfree := h.free
  generalize (Reading.ofText text).events = es at hout hfree
  induction es with
  | nil => rfl
  | cons e es ih =>
    obtain ⟨he, hes⟩ := List.forall_mem_cons.mp hfree
    cases e with
    | opening | empty => cases he
    | closing => cases hout
    | _ => exact ih hout hes

section Document

variable {t : Tag} (hopening : (Event.opening t).ReadsBack)
  (hclosing : (Event.closing t.name).ReadsBack)

include hopening hclosing

theorem scan_document {front content : List Char} (hfront : (Reading.scan front).failure = none)
    (hcontent : (Reading.scan content).failure = none) (tail : List Char) :
    Reading.scan (document front t content tail) =
      ⟨(Reading.scan front).events ++ .opening t :: ((Reading.scan content).events ++
        .closing t.name :: (Reading.scan tail).events), (Reading.scan tail).failure⟩ := by
  rw [document_eq, scan_append_event hfront rfl hopening, scan_append_event hcontent rfl hclosing]

theorem ofText_document {front content : List Char} {f : Forest} (hfront : ElementFree front)
    (hcontent : Reading.scan content = ⟨f.events, none⟩) (tail : List Char) :
    ∃ rest failure, Reading.ofText (document front t content tail) =
      ⟨(Reading.ofText front).events ++ .opening t :: (f.events ++ .closing t.name :: rest),
        failure⟩ := by
  obtain ⟨hscan, hevents, -⟩ := ofText_eq_of_failure hfront.readable
  have hmark : Reading.withoutMark (document front t content tail) =
      document (Reading.withoutMark front) t content tail := withoutMark_append_cons (by decide) ..
  -- Nothing is open behind the root, so the tail is read as if it stood alone.
  have hnested : openNames [] ((Reading.ofText front).events ++
      .opening t :: (f.events ++ [.closing t.name])) = some [] := by
    rw [openNames_append, hfront.openNames_eq, Option.bind_some, openNames, openNames_forest,
      openNames, if_pos rfl, openNames]
  have hsplit (rest : List Event) : (Reading.ofText front).events ++
      .opening t :: (f.events ++ .closing t.name :: rest) = ((Reading.ofText front).events ++
        .opening t :: (f.events ++ [.closing t.name])) ++ rest := by
    simp
  refine ⟨(Reading.nest (Reading.scan tail).failure [] (Reading.scan tail).events).events,
    (Reading.nest (Reading.scan tail).failure [] (Reading.scan tail).events).failure, ?_⟩
  rw [Reading.ofText, hmark, scan_document hopening hclosing hscan (by rw [hcontent]), ← hevents,
    hcontent, hsplit, nest_append hnested, ← hsplit]

theorem ofText?_document {front content : List Char} {f : Forest} (hfront : ElementFree front)
    (hcontent : Reading.scan content = ⟨f.events, none⟩) (hsvg : isSvg t = true)
    {viewBox : Option (List Char)} {namespaces : List (List Char × List Char)}
    (hviewBox : viewBoxOf t = .ok viewBox) (hnamespaces : namespacesOf t = .ok namespaces)
    (tail : List Char) : ofText? (document front t content tail) =
      .ok (some ⟨viewBox, render f.events, namespaces⟩) := by
  obtain ⟨rest, failure, hread⟩ := ofText_document hopening hclosing hfront hcontent tail
  have hfirst : (Reading.ofText (document front t content tail)).events.dropWhile (!isElement ·) =
      .opening t :: (f.events ++ .closing t.name :: rest) := by
    rw [hread, List.dropWhile_append_of_pos fun e he => by simp [hfront.free e he]]
    rfl
  exact ofText?_of_dropWhile hfirst (exists_forest_iff.mp ⟨f, rfl⟩) hsvg hviewBox hnamespaces

end Document

theorem find?_key {as : List Attribute} (hdistinct : (as.map (·.key)).Nodup) {a : Attribute}
    (ha : a ∈ as) {key : List Char} (hkey : a.key = key) : as.find? (·.key = key) = some a := by
  induction as with
  | nil => cases ha
  | cons b as ih =>
    obtain ⟨hnew, hrest⟩ := List.nodup_cons.mp hdistinct
    rcases List.mem_cons.mp ha with rfl | ha
    · rw [List.find?_cons_of_pos (by simpa using hkey)]
    · have hne : b.key ≠ key := fun heq =>
        hnew (List.mem_map.mpr ⟨a, ha, hkey.trans heq.symm⟩)
      rw [List.find?_cons_of_neg (by simpa using hne)]
      exact ih hrest ha

theorem showsViewBox_find {as : List Attribute} (hdistinct : (as.map (·.key)).Nodup) :
    ShowsViewBox as ((as.find? (·.key = viewBoxKey)).map fun a =>
      (unescape a.value).toOption.getD a.value) := by
  constructor
  · intro a ha hkey value hvalue
    rw [find?_key hdistinct ha hkey, Option.map_some, hvalue]
    rfl
  · intro a ha hkey e hvalue
    rw [find?_key hdistinct ha hkey, Option.map_some, hvalue]
    rfl
  · intro habsent
    rw [List.find?_eq_none.mpr fun a ha => by simpa using habsent a ha]
    rfl

theorem viewBoxOf_eq {t : Tag} {as : List Attribute} (has : t.attributes = ⟨as, none⟩) :
    viewBoxOf t = .ok ((as.find? (·.key = viewBoxKey)).map fun a =>
      (unescape a.value).toOption.getD a.value) := by
  simp only [viewBoxOf, has]
  cases as.find? (·.key = viewBoxKey) <;> rfl

theorem declares_iff {as : List Attribute} {namespaces : List (List Char × List Char)} :
    Declares as namespaces ↔ namespaces = as.filterMap namespaceOf := by
  constructor
  · intro h
    induction h with
    | nil => rfl
    | binding hkey huri _ ih =>
      rw [List.filterMap_cons_some (namespaceOf_eq_some_iff.mpr ⟨hkey, huri⟩), ih]
    | @other a as namespaces hnot _ ih =>
      have hnone : namespaceOf a = none := by
        cases h : namespaceOf a with
        | none => rfl
        | some p =>
          obtain ⟨hkey, huri⟩ := namespaceOf_eq_some_iff.mp h
          exact absurd huri (hnot p.1 p.2 hkey)
      rw [List.filterMap_cons_none hnone, ih]
  · rintro rfl
    induction as with
    | nil => exact .nil
    | cons a as ih =>
      rw [List.filterMap_cons]
      split
      · rename_i hnone
        refine .other (fun name uri hkey huri => ?_) ih
        rw [namespaceOf_eq_some_iff.mpr ⟨hkey, huri⟩] at hnone
        cases hnone
      · rename_i p hsome
        obtain ⟨hkey, huri⟩ := namespaceOf_eq_some_iff.mp hsome
        exact .binding hkey huri ih

theorem namespacesOf_eq {t : Tag} {as : List Attribute} (has : t.attributes = ⟨as, none⟩) :
    namespacesOf t = .ok (as.filterMap namespaceOf) := by
  rw [namespacesOf, has]

/-- A root is taken whole, its content up to its own closing tag, and nothing else is read. -/
theorem extraction_takes_root {t : Tag} {as : List Attribute} {content : List Char} {f : Forest}
    (hopening : (Event.opening t).ReadsBack) (hclosing : (Event.closing t.name).ReadsBack)
    (hsvg : isSvg t = true) (hspells : Spells t.attributeText as)
    (hdistinct : (as.map (·.key)).Nodup) (hcontent : Reading.scan content = ⟨f.events, none⟩) :
    ∃ root : Root,
      (∀ front tail, ElementFree front →
        ofText? (document front t content tail) = .ok (some root)) ∧
      Reading.scan root.inner = ⟨f.events, none⟩ ∧ ShowsViewBox as root.viewBox ∧
      Declares as root.namespaces ∧
      ofText? (document [] ⟨"svg".toList, []⟩ root.inner []) = .ok (some ⟨none, root.inner, []⟩) := by
  have has : t.attributes = ⟨as, none⟩ := attributes_eq_iff.mpr ⟨hspells, hdistinct⟩
  have hinner := scan_render_scan hcontent
  refine ⟨⟨_, render f.events, _⟩, fun front tail hfront =>
    ofText?_document hopening hclosing hfront hcontent hsvg (viewBoxOf_eq has)
      (namespacesOf_eq has) tail, hinner, showsViewBox_find hdistinct,
    declares_iff.mpr rfl, ?_⟩
  have hplain : Tag.attributes ⟨"svg".toList, []⟩ = ⟨[], none⟩ := by cbv
  have hempty : Reading.ofText [] = ⟨[], none⟩ := by cbv
  exact ofText?_document (@readEvent_ofTag false _ rfl (by decide) ⟨rfl, by decide⟩)
    (readEvent_closing rfl (by decide)) ⟨by rw [hempty], by simp [hempty]⟩ hinner (by decide)
    (viewBoxOf_eq hplain) (namespacesOf_eq hplain) []

def nestedTag : Tag := ⟨"s:svg".toList, " d='>' viewBox='0 0 &#49; 1' xmlns:s='u&lt;'".toList⟩

def nestedContent : Forest :=
  .element ⟨"s:svg".toList, " viewBox='1'".toList⟩ (.leaf (.empty ⟨"svg".toList, []⟩) rfl .nil)
    (.leaf (.cdata "</s:svg>".toList) rfl .nil)

theorem extraction_takes_nested :
    ∃ root : Root, ofText? ("<?xml?>\n<s:svg d='>' viewBox='0 0 &#49; 1' xmlns:s='u&lt;'>".toList ++
        "<s:svg viewBox='1'><svg/></s:svg><![CDATA[</s:svg>]]></s:svg></b>".toList) =
          .ok (some root) ∧
      Reading.scan root.inner = ⟨nestedContent.events, none⟩ ∧
      root.viewBox = some "0 0 1 1".toList ∧ root.namespaces = [("s".toList, "u<".toList)] := by
  have has : nestedTag.attributes = ⟨[⟨"d".toList, ">".toList⟩, ⟨viewBoxKey, "0 0 &#49; 1".toList⟩,
      ⟨"xmlns:s".toList, "u&lt;".toList⟩], none⟩ := by
    cbv
  obtain ⟨hspells, hdistinct⟩ := attributes_eq_iff.mp has
  have hinner : Reading.scan "<s:svg viewBox='1'><svg/></s:svg>".toList =
      ⟨nestedContent.events.dropLast, none⟩ := by
    cbv
  have hcontent : Reading.scan ("<s:svg viewBox='1'><svg/></s:svg>".toList ++
      "<![CDATA[</s:svg>]]>".toList) = ⟨nestedContent.events, none⟩ := by
    have hcdata : readEvent "<![CDATA[</s:svg>]]>".toList = .ok (.cdata "</s:svg>".toList, []) := by
      cbv
    rw [scan_append (by rw [hinner]), hinner, scan_of_readEvent (by simp) hcdata, scan_nil]
    rfl
  have hfront : Reading.ofText "<?xml?>\n".toList =
      ⟨[.declaration "xml".toList, .text ['\n']], none⟩ := by
    cbv
  have hvalue : unescape "0 0 &#49; 1".toList = .ok "0 0 1 1".toList := by cbv
  obtain ⟨root, htaken, hinner, hviewBox, hdeclares, -⟩ := extraction_takes_root (t := nestedTag)
    (@readEvent_ofTag false _ rfl (by decide) ⟨rfl, by decide⟩)
    (readEvent_closing rfl (by decide)) (by decide) hspells hdistinct hcontent
  have hfree : ElementFree "<?xml?>\n".toList := ⟨by rw [hfront], by rw [hfront]; decide⟩
  have htext : "<?xml?>\n<s:svg d='>' viewBox='0 0 &#49; 1' xmlns:s='u&lt;'>".toList ++
      "<s:svg viewBox='1'><svg/></s:svg><![CDATA[</s:svg>]]></s:svg></b>".toList =
      document "<?xml?>\n".toList nestedTag ("<s:svg viewBox='1'><svg/></s:svg>".toList ++
        "<![CDATA[</s:svg>]]>".toList) "</b>".toList := by
    simp [document, nestedTag]
  have hnamespaces : root.namespaces = [("s".toList, "u<".toList)] :=
    (declares_iff.mp hdeclares).trans (by cbv)
  rw [htext]
  exact ⟨root, htaken _ _ hfree, hinner, hviewBox.read _ (.tail _ (.head _)) rfl _ hvalue,
    hnamespaces⟩

end Root

end StaticSite.Svg
