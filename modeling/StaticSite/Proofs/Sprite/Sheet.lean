import Mathlib
import StaticSite.Proofs.Svg.Elements
import StaticSite.Proofs.Svg.Root
import StaticSite.Proofs.Svg.Standalone
import StaticSite.Proofs.Xml.Escape
import StaticSite.Sprite.Symbol

/-!
Sheets of symbols. Symbols that can each stand alone in a sheet can stand in one together.
-/

namespace StaticSite.Sprite
open StaticSite.Text StaticSite.Xml StaticSite.Svg

namespace Symbol

def stated (s : Symbol) : List (List Char × List Char) :=
  ("id".toList, s.id) :: ((s.viewBox.map ("viewBox".toList, ·)).toList ++
    s.namespaces.map fun p => ("xmlns:".toList ++ p.1, p.2))

def attributes (s : Symbol) : List Attribute :=
  ⟨"id".toList, escape s.id⟩ :: ((s.viewBox.map fun v => ⟨"viewBox".toList, escape v⟩).toList ++
    s.namespaces.map fun p => ⟨"xmlns:".toList ++ p.1, escape p.2⟩)

def tag (s : Symbol) : Tag :=
  .ofAttributes "symbol".toList s.attributes

def events (s : Symbol) (content : List Event) : List Event :=
  .opening s.tag :: (content ++ [.closing "symbol".toList])

theorem render_attributes (s : Symbol) :
    s.attributes.flatMap Attribute.render =
      escapedAttribute "id".toList s.id ++
        ((match s.viewBox with
          | some v => escapedAttribute "viewBox".toList v
          | none => []) ++
        s.namespaces.flatMap fun (name, uri) => escapedAttribute ("xmlns:".toList ++ name) uri) := by
  rw [attributes, List.flatMap_cons, List.flatMap_append, List.flatMap_map]
  cases s.viewBox with
  | none => rfl
  | some v =>
    rw [Option.map_some, Option.toList_some, List.flatMap_singleton]
    rfl

theorem markup_eq_render {s : Symbol} {es : List Event} (h : s.content = render es) :
    s.markup = render (s.events es) := by
  have hopening : (Event.opening s.tag).render =
      "<symbol".toList ++ (s.attributes.flatMap Attribute.render ++ ['>']) := by
    have hname : "<symbol".toList = '<' :: "symbol".toList := by decide
    rw [Event.render_opening, hname, List.cons_append, ← List.append_assoc]
    rfl
  have hclosing : (Event.closing "symbol".toList).render = "</symbol>".toList := by decide
  rw [events, render_cons, render_append, render_cons, render_nil, hopening, hclosing,
    render_attributes, ← h]
  unfold markup
  cases s.viewBox <;> simp only [List.append_assoc, List.append_nil, List.nil_append]

theorem attributes_eq_map (s : Symbol) :
    s.attributes = s.stated.map fun p => ⟨p.1, escape p.2⟩ := by
  rw [attributes, stated, List.map_cons, List.map_append, List.map_map]
  cases s.viewBox <;> rfl

theorem quote_notMem_of_mem_attributes {s : Symbol} {a : Attribute} (h : a ∈ s.attributes) :
    '"' ∉ a.value := by
  rw [attributes_eq_map] at h
  obtain ⟨p, -, rfl⟩ := List.mem_map.mp h
  exact quote_notMem_escape _

structure Formed (s : Symbol) (content : List Event) : Prop where
  content_eq : s.content = render content
  readsBack : ∀ e ∈ content, e.ReadsBack
  balanced : openNames [] content = some []
  isKey : ∀ a ∈ s.attributes, isKey a.key = true
  isTagPlain : ∀ a ∈ s.attributes, ∀ c ∈ a.key, isTagPlain c = true
  nodup : (s.attributes.map (·.key)).Nodup

structure Sound (s : Symbol) (content : List Event) : Prop extends s.Formed content where
  alone : checkStandalone (sheet [s]) = .ok ()

end Symbol

theorem readsBack_ofAttributes {name : List Char} {as : List Attribute}
    (hname : ∀ c ∈ name, isBlank c = false) (hstart : startsTag name = true) (hne : name ≠ [])
    (hcloses : (Tag.ofAttributes name as).Closes false) :
    (Event.opening (.ofAttributes name as)).ReadsBack := by
  have hform : Tag.ofContent (Tag.ofAttributes name as).content = .ofAttributes name as := by
    refine ofContent_content_of_name hname ?_
    intro c hc
    cases as with
    | nil => cases hc
    | cons a as =>
      have : ' ' = c := by simpa [Attribute.render] using hc
      rw [← this]
      rfl
  exact readEvent_ofTag hform (startsTag_append hstart hne _) hcloses

theorem readsBack_closing {name : List Char} (hplain : ∀ c ∈ name, isTagPlain c = true)
    (hblank : trimClosing name = name) : (Event.closing name).ReadsBack := by
  have hquote := quoteAfter_plain_append hplain []
  rw [List.append_nil] at hquote
  exact readEvent_closing hquote hblank

theorem Symbol.readsBack_tag {s : Symbol}
    (h : ∀ a ∈ s.attributes, ∀ c ∈ a.key, isTagPlain c = true) :
    (Event.opening s.tag).ReadsBack := by
  refine readsBack_ofAttributes (by simp [isBlank]) (by decide) (by decide) ?_
  exact closes_ofAttributes (by decide) (by decide) (List.all_eq_true.mp (by decide)) h
    (fun _ ha => quote_notMem_of_mem_attributes ha) false

theorem Symbol.readsBack_closing : (Event.closing "symbol".toList).ReadsBack :=
  Sprite.readsBack_closing (List.all_eq_true.mp (by decide)) (by decide)

namespace Symbol.Formed

variable {s : Symbol} {content : List Event} (h : s.Formed content)

include h

theorem attributes_tag : s.tag.attributes = ⟨s.attributes, none⟩ :=
  attributes_eq_iff.mpr
    ⟨spells_render h.isKey fun _ ha => quote_notMem_of_mem_attributes ha, h.nodup⟩

theorem readsBack_events : ∀ e ∈ s.events content, e.ReadsBack := by
  intro e he
  rcases List.mem_cons.mp he with rfl | he
  · exact readsBack_tag h.isTagPlain
  · rcases List.mem_append.mp he with he | he
    · exact h.readsBack e he
    · rw [List.mem_singleton.mp he]
      exact Symbol.readsBack_closing

theorem openNames_events : openNames [] (s.events content) = some [] := by
  have hinside := openNames_append_stack h.balanced ["symbol".toList]
  rw [List.nil_append] at hinside
  change openNames ["symbol".toList] (content ++ [.closing "symbol".toList]) = some []
  rw [openNames_append, hinside, Option.bind_some, openNames, if_pos rfl, openNames]

end Symbol.Formed

def sheetAttributes : List Attribute :=
  [⟨"xmlns".toList, "http://www.w3.org/2000/svg".toList⟩,
    ⟨"xmlns:xlink".toList, "http://www.w3.org/1999/xlink".toList⟩,
    ⟨"style".toList, "display: none".toList⟩]

def sheetTag : Tag :=
  .ofAttributes "svg".toList sheetAttributes

def sheetScope : Scope :=
  ⟨"xlink".toList, "http://www.w3.org/1999/xlink".toList⟩ ::
    ⟨[], "http://www.w3.org/2000/svg".toList⟩ :: Scope.base

def sheetEvents (body : List Event) : List Event :=
  .opening sheetTag :: (body ++ [.closing "svg".toList])

theorem sheetOpening_eq : sheetOpening = '<' :: (sheetTag.content ++ ['>']) := by
  decide +kernel

theorem sheet_eq_render {symbols : List Symbol} {body : List Event}
    (h : symbols.flatMap Symbol.markup = render body) :
    sheet symbols = render (sheetEvents body) := by
  have hopening : (Event.opening sheetTag).render = sheetOpening := by
    rw [sheetOpening_eq, Event.render_opening]
  have hclosing : (Event.closing "svg".toList).render = "</svg>".toList := by decide
  rw [sheetEvents, render_cons, render_append, render_cons, render_nil, hopening, hclosing, ← h,
    List.append_nil, ← List.append_assoc]
  rfl

theorem attributes_sheetTag : sheetTag.attributes = ⟨sheetAttributes, none⟩ := by
  refine attributes_eq_iff.mpr ⟨spells_render ?_ ?_, ?_⟩ <;> decide

theorem checkTag_sheetTag : checkTag .base sheetTag = .ok sheetScope := by
  have hall : sheetTag.allAttributes = ⟨sheetAttributes, none⟩ := by
    refine allAttributes_eq_iff.mpr (spells_render ?_ ?_) <;> decide
  have hextend : Scope.extend .base sheetAttributes = .ok sheetScope := by decide
  have hname : sheetScope.undeclared? sheetTag.name = none := by decide
  have hcheck : checkAttributes sheetScope sheetAttributes = .ok () := by cbv
  simp only [checkTag, hall, hextend, hname, attributes_sheetTag, hcheck]

theorem readsBack_sheetEvents {body : List Event} (h : ∀ e ∈ body, e.ReadsBack) :
    ∀ e ∈ sheetEvents body, e.ReadsBack := by
  have hopening : (Event.opening sheetTag).ReadsBack := by
    refine readsBack_ofAttributes (by simp [isBlank]) (by decide) (by decide) ?_
    exact closes_ofAttributes (by decide) (by decide) (List.all_eq_true.mp (by decide))
      (by simp [sheetAttributes, isTagPlain, isQuote]) (by decide) false
  have hclosing : (Event.closing "svg".toList).ReadsBack :=
    readsBack_closing (List.all_eq_true.mp (by decide)) (by decide)
  intro e he
  rcases List.mem_cons.mp he with rfl | he
  · exact hopening
  · rcases List.mem_append.mp he with he | he
    · exact h e he
    · rw [List.mem_singleton.mp he]
      exact hclosing

theorem openNames_sheetEvents {body : List Event} (h : openNames [] body = some []) :
    openNames [] (sheetEvents body) = some [] := by
  have hinside := openNames_append_stack h ["svg".toList]
  rw [List.nil_append] at hinside
  change openNames ["svg".toList] (body ++ [.closing "svg".toList]) = some []
  rw [openNames_append, hinside, Option.bind_some, openNames, if_pos rfl, openNames]

theorem openNames_svg {body : List Event} (h : openNames [] body = some []) :
    openNames ["svg".toList] body = some ["svg".toList] :=
  openNames_append_stack h _

theorem ofText_sheet {symbols : List Symbol} {body : List Event}
    (hmarkup : symbols.flatMap Symbol.markup = render body) (hreads : ∀ e ∈ body, e.ReadsBack)
    (hbalanced : openNames [] body = some []) :
    ∃ inside, Reading.ofText (sheet symbols) = ⟨sheetEvents inside, none⟩ ∧
      withoutText inside = withoutText body ∧ render inside = render body ∧
      openNames [] inside = some [] := by
  have hevents := readsBack_sheetEvents hreads
  have hclosing : (Event.closing "svg".toList).ReadsBack := hevents _ (by simp [sheetEvents])
  obtain ⟨inside, htexts, hrender, hscan⟩ := scan_render_append hreads
    (show ∀ c ∈ [], isPlain c = true by simp)
    (startsConstruct_render (e := .closing "svg".toList) rfl [])
  have hinside : openNames [] inside = some [] := by
    rw [← openNames_withoutText, htexts, openNames_withoutText, hbalanced]
  have hlast : Reading.scan ((Event.closing "svg".toList).render ++ []) =
      ⟨[.closing "svg".toList], none⟩ := by
    rw [scan_event_append rfl hclosing, scan_nil]
  have hread : Reading.scan (sheet symbols) = ⟨sheetEvents inside, none⟩ := by
    rw [sheet_eq_render hmarkup, sheetEvents, render_cons, render_append, render_cons, render_nil,
      scan_event_append rfl (hevents _ (List.mem_cons_self ..))]
    rw [List.nil_append, hlast] at hscan
    rw [hscan]
    rfl
  refine ⟨inside, ?_, htexts, by rw [hrender, List.nil_append], hinside⟩
  have hmark : Reading.withoutMark (sheet symbols) = sheet symbols := by
    rw [sheet_eq_render hmarkup]
    rfl
  exact ofText_eq_of_openNames (hmark ▸ hread) (openNames_sheetEvents hinside)

def IsSymbol (x : Element) (id : List Char) : Prop :=
  x.name = "symbol".toList ∧
    ∃ a ∈ x.attributes.attributes, a.key = "id".toList ∧ unescape a.value = .ok id

structure Tells (x : Element) (s : Symbol) : Prop where
  name : x.name = "symbol".toList
  readable : x.attributes.failure = none
  stated : x.attributes.attributes.map (fun a => (a.key, unescape a.value)) =
    s.stated.map fun p => (p.1, .ok p.2)

theorem Tells.isSymbol {x : Element} {s : Symbol} (h : Tells x s) : IsSymbol x s.id := by
  have hstated := h.stated
  rw [Symbol.stated, List.map_cons] at hstated
  obtain ⟨a, as, has, ha, -⟩ := List.map_eq_cons_iff.mp hstated
  obtain ⟨hkey, hvalue⟩ := Prod.mk.inj ha
  exact ⟨h.name, a, by rw [has]; exact List.mem_cons_self .., hkey, hvalue⟩

structure Holds (symbols : List Symbol) (body : List Event) : Prop where
  markup : symbols.flatMap Symbol.markup = render body
  readsBack : ∀ e ∈ body, e.ReadsBack
  balanced : openNames [] body = some []
  children : List.Forall₂ Tells
    ((elements ["svg".toList] body).filter (·.path = ["svg".toList])) symbols

theorem holds_nil : Holds [] [] :=
  ⟨rfl, by simp, rfl, .nil⟩

theorem Holds.append {xs ys : List Symbol} {as bs : List Event} (hx : Holds xs as)
    (hy : Holds ys bs) : Holds (xs ++ ys) (as ++ bs) where
  markup := by rw [List.flatMap_append, hx.markup, hy.markup, render_append]
  readsBack := by
    intro e he
    rcases List.mem_append.mp he with he | he
    · exact hx.readsBack e he
    · exact hy.readsBack e he
  balanced := by rw [openNames_append, hx.balanced, Option.bind_some, hy.balanced]
  children := by
    rw [elements_append (openNames_svg hx.balanced), List.filter_append]
    exact List.rel_append hx.children hy.children

namespace Symbol.Formed

variable {s : Symbol} {content : List Event} (h : s.Formed content)

include h

theorem children :
    (elements ["svg".toList] (s.events content)).filter (·.path = ["svg".toList]) =
      [⟨["svg".toList], "symbol".toList, s.tag.attributes⟩] := by
  have hinside := openNames_append_stack h.balanced ["symbol".toList, "svg".toList]
  have hcontent : ∀ x ∈ elements ["symbol".toList, "svg".toList] content,
      ¬ (decide (x.path = ["svg".toList]) = true) := by
    intro x hx hpath
    have hsuffix := @suffix_of_mem_elements [] ["symbol".toList, "svg".toList] [] content
      h.balanced x hx
    rw [of_decide_eq_true hpath] at hsuffix
    exact absurd hsuffix.length_le (by decide)
  have helements : elements ["svg".toList] (s.events content) =
      ⟨["svg".toList], "symbol".toList, s.tag.attributes⟩ ::
        (elements ["symbol".toList, "svg".toList] content ++ []) := by
    rw [List.nil_append] at hinside
    change _ :: elements ["symbol".toList, "svg".toList] (content ++ [.closing "symbol".toList]) = _
    rw [elements_append hinside]
    rfl
  rw [helements, List.filter_cons_of_pos (by simp), List.append_nil,
    List.filter_eq_nil_iff.mpr hcontent]

theorem tells : Tells ⟨["svg".toList], "symbol".toList, s.tag.attributes⟩ s where
  name := rfl
  readable := by rw [h.attributes_tag]
  stated := by
    rw [h.attributes_tag, attributes_eq_map, List.map_map]
    refine List.map_congr_left fun p _ => ?_
    exact congrArg (p.1, ·) (unescape_escape p.2)

theorem holds : Holds [s] (s.events content) where
  markup := by rw [List.flatMap_singleton, markup_eq_render h.content_eq]
  readsBack := h.readsBack_events
  balanced := h.openNames_events
  children := by
    rw [h.children]
    exact .cons h.tells .nil

end Symbol.Formed

theorem exists_holds {symbols : List Symbol} (h : ∀ s ∈ symbols, ∃ content, s.Formed content) :
    ∃ body, Holds symbols body := by
  induction symbols with
  | nil => exact ⟨[], holds_nil⟩
  | cons s symbols ih =>
    obtain ⟨content, hs⟩ := h s (List.mem_cons_self ..)
    obtain ⟨body, hbody⟩ := ih fun x hx => h x (List.mem_cons_of_mem _ hx)
    exact ⟨s.events content ++ body, hs.holds.append hbody⟩

structure Fills (symbols : List Symbol) (body : List Event) : Prop extends Holds symbols body where
  scopes : scopesAfter [sheetScope] body = .ok [sheetScope]

theorem fills_nil : Fills [] [] :=
  ⟨holds_nil, rfl⟩

theorem Fills.append {xs ys : List Symbol} {as bs : List Event} (hx : Fills xs as)
    (hy : Fills ys bs) : Fills (xs ++ ys) (as ++ bs) where
  toHolds := hx.toHolds.append hy.toHolds
  scopes := by
    rw [scopesAfter_append, hx.scopes]
    exact hy.scopes

theorem Symbol.Sound.scopes {s : Symbol} {content : List Event} (h : s.Sound content) :
    scopesAfter [sheetScope] (s.events content) = .ok [sheetScope] := by
  obtain ⟨-, out, hout⟩ := checkStandalone_eq_ok_iff.mp h.alone
  obtain ⟨inside, hread, htexts, -⟩ := ofText_sheet h.holds.markup h.readsBack_events
    h.openNames_events
  rw [hread] at hout
  simp only [sheetEvents, scopesAfter, List.headD_nil, checkTag_sheetTag] at hout
  obtain ⟨between, hbetween, -⟩ := scopesAfter_append_eq_ok hout
  rw [← scopesAfter_withoutText, htexts, scopesAfter_withoutText] at hbetween
  rw [hbetween, scopesAfter_of_balanced h.openNames_events hbetween]

theorem Symbol.Sound.fills {s : Symbol} {content : List Event} (h : s.Sound content) :
    Fills [s] (s.events content) :=
  ⟨h.holds, h.scopes⟩

theorem exists_fills {symbols : List Symbol} (h : ∀ s ∈ symbols, ∃ content, s.Sound content) :
    ∃ body, Fills symbols body := by
  induction symbols with
  | nil => exact ⟨[], fills_nil⟩
  | cons s symbols ih =>
    obtain ⟨content, hs⟩ := h s (List.mem_cons_self ..)
    obtain ⟨body, hbody⟩ := ih fun x hx => h x (List.mem_cons_of_mem _ hx)
    exact ⟨s.events content ++ body, hs.fills.append hbody⟩

/-- A text reads as one `svg` element that holds a symbol for each identifier, in their order. -/
structure Shows (text : List Char) (ids : List (List Char)) : Prop where
  readable : (Reading.ofText text).failure = none
  closed : openElements 0 (Reading.ofText text).events = 0
  root : ((elements [] (Reading.ofText text).events).filter (·.path = [])).map (·.name) =
    ["svg".toList]
  symbols : List.Forall₂ IsSymbol
    ((elements [] (Reading.ofText text).events).filter (·.path = ["svg".toList])) ids

theorem elements_sheetEvents {body : List Event} (h : openNames [] body = some []) :
    elements [] (sheetEvents body) =
      ⟨[], "svg".toList, sheetTag.attributes⟩ :: elements ["svg".toList] body := by
  change _ :: elements ["svg".toList] (body ++ [.closing "svg".toList]) = _
  rw [elements_append (openNames_svg h)]
  exact congrArg _ (List.append_nil _)

theorem Holds.tells {symbols : List Symbol} {body : List Event} (h : Holds symbols body) :
    List.Forall₂ Tells ((elements [] (Reading.ofText (sheet symbols)).events).filter
      (·.path = ["svg".toList])) symbols := by
  obtain ⟨inside, hread, htexts, -, hinside⟩ := ofText_sheet h.markup h.readsBack h.balanced
  rw [hread, elements_sheetEvents hinside, elements_congr htexts,
    List.filter_cons_of_neg (by simp)]
  exact h.children

theorem Holds.shows {symbols : List Symbol} {body : List Event} (h : Holds symbols body) :
    Shows (sheet symbols) (symbols.map (·.id)) := by
  obtain ⟨inside, hread, htexts, -, hinside⟩ := ofText_sheet h.markup h.readsBack h.balanced
  have hdeeper : ∀ x ∈ elements ["svg".toList] inside, ¬ (decide (x.path = []) = true) := by
    intro x hx hpath
    have hsuffix := @suffix_of_mem_elements [] ["svg".toList] [] inside hinside x hx
    rw [of_decide_eq_true hpath] at hsuffix
    exact absurd hsuffix.length_le (by decide)
  refine ⟨by rw [hread], ?_, ?_, ?_⟩
  · rw [hread]
    exact openElements_eq_length (openNames_sheetEvents hinside)
  · rw [hread, elements_sheetEvents hinside, List.filter_cons_of_pos (by simp),
      List.filter_eq_nil_iff.mpr hdeeper]
    rfl
  · exact List.forall₂_map_right_iff.mpr (h.tells.imp fun _ _ => Tells.isSymbol)

theorem checkStandalone_sheet {symbols : List Symbol} {body : List Event}
    (hmarkup : symbols.flatMap Symbol.markup = render body) (hreads : ∀ e ∈ body, e.ReadsBack)
    (hbalanced : openNames [] body = some [])
    (hscopes : scopesAfter [sheetScope] body = .ok [sheetScope]) :
    checkStandalone (sheet symbols) = .ok () := by
  obtain ⟨inside, hread, htexts, -⟩ := ofText_sheet hmarkup hreads hbalanced
  refine checkStandalone_eq_ok_iff.mpr ⟨by rw [hread], [], ?_⟩
  rw [hread]
  simp only [sheetEvents, scopesAfter, List.headD_nil, checkTag_sheetTag]
  rw [scopesAfter_append, ← scopesAfter_withoutText, htexts, scopesAfter_withoutText, hscopes]
  rfl

theorem Fills.checkStandalone {symbols : List Symbol} {body : List Event}
    (h : Fills symbols body) : checkStandalone (sheet symbols) = .ok () :=
  checkStandalone_sheet h.markup h.readsBack h.balanced h.scopes

end StaticSite.Sprite
