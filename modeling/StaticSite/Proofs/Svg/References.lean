import Mathlib
import StaticSite.Proofs.Svg.Scopes
import StaticSite.Proofs.Xml.Forest
import StaticSite.Proofs.Xml.Reference

/-!
References in markup that stands on its own. In text a reference passes by the sign that begins it,
in a value by what it stands for, so the two places agree on all but character references.
-/

namespace StaticSite.Svg
open StaticSite.Xml

def isReferencePart (c : Char) : Bool :=
  isTagPlain c && c != '<' && c != '&' && c != ';'

structure ValuePlace where
  outer : List Char
  name : List Char
  lead : List Char
  key : List Char
  afterKey : List Char
  afterEquals : List Char
  quote : Char
  before : List Char
  after : List Char
  trail : List Char
  closed : Bool
  rest : List Char

namespace ValuePlace

variable (p : ValuePlace) (inserted : List Char)

def holder : Attribute := ⟨p.key, p.before ++ (inserted ++ p.after)⟩

def head : List Char := p.lead ++ (p.key ++ (p.afterKey ++ '=' :: (p.afterEquals ++ [p.quote])))

def tag : Tag :=
  ⟨p.name, p.head ++ ((p.holder inserted).value ++ p.quote :: p.trail)⟩

def markup : List Char :=
  p.outer ++ ((Event.ofTag p.closed (p.tag inserted)).render ++ p.rest)

structure Valid : Prop where
  outer : (Reading.ofText p.outer).failure = none
  tag : (Event.ofTag p.closed (p.tag [])).ReadsBack
  lead : ∃ as, Spells p.lead as
  trail : ∃ bs, Spells p.trail bs
  key : isKey p.key = true
  notXml : p.key ≠ "xmlns:xml".toList
  afterKey : ∀ c ∈ p.afterKey, isBlank c = true
  afterEquals : ∀ c ∈ p.afterEquals, isBlank c = true
  quote : isQuote p.quote = true
  quoted : p.quote ∉ (p.holder []).value
  before : ∃ text, unescape p.before = .ok text

end ValuePlace

theorem reference_render (name : List Char) :
    (Event.reference name).render = '&' :: (name ++ [';']) := rfl

section Name

variable {name : List Char} (hname : ∀ c ∈ name, isReferencePart c = true)

include hname

theorem readsBack_reference : (Event.reference name).ReadsBack := by
  refine readEvent_reference fun c hc => ?_
  have hpart := hname c hc
  simp only [isReferencePart, Bool.and_eq_true] at hpart ⊢
  exact ⟨⟨hpart.2, hpart.1.2⟩, hpart.1.1.2⟩

theorem isTagPlain_reference : ∀ c ∈ (Event.reference name).render, isTagPlain c = true := by
  intro c hc
  rw [reference_render, List.mem_cons, List.mem_append, List.mem_singleton] at hc
  rcases hc with rfl | hc | rfl
  · rfl
  · have hpart := hname c hc
    simp only [isReferencePart, Bool.and_eq_true] at hpart
    exact hpart.1.1.1
  · rfl

end Name

theorem checkStandalone_iff_of_scan {markup : List Char} {es : List Event}
    {failure : Option ReadError}
    (hscan : Reading.scan (Reading.withoutMark markup) = ⟨es, failure⟩) :
    checkStandalone markup = .ok () ↔ failure = none ∧ (∃ out, openNames [] es = some out) ∧
      ∃ out, scopesAfter [] es = .ok out := by
  rw [checkStandalone_eq_ok_iff]
  constructor
  · rintro ⟨hfailure, hscopes⟩
    obtain ⟨hnone, hevents, hout⟩ := ofText_eq_of_failure hfailure
    rw [hevents, hscan] at hscopes hout
    rw [hscan] at hnone
    exact ⟨hnone, hout, hscopes⟩
  · rintro ⟨rfl, ⟨out, hout⟩, hscopes⟩
    rw [ofText_eq_of_openNames hscan hout]
    exact ⟨rfl, hscopes⟩

theorem accepts_in_text_iff {before after name : List Char}
    (hname : ∀ c ∈ name, isReferencePart c = true)
    (hbefore : (Reading.ofText before).failure = none)
    (h : checkStandalone (before ++ after) = .ok ()) :
    checkStandalone (before ++ ((Event.reference name).render ++ after)) = .ok () ↔
      isDefined name = true := by
  obtain ⟨hread, -, -⟩ := ofText_eq_of_failure hbefore
  obtain ⟨es, hscan, htexts⟩ := scan_withoutMark_append hread after
  have hinserted : Reading.scan
      (Reading.withoutMark (before ++ ((Event.reference name).render ++ after))) =
        ⟨(Reading.scan (Reading.withoutMark before)).events ++
          .reference name :: (Reading.scan after).events, (Reading.scan after).failure⟩ := by
    rw [← scan_append_event hread rfl (readsBack_reference hname) after]
    congr 1
    exact withoutMark_append_cons (by decide) ..
  rw [checkStandalone_iff_of_scan hscan] at h
  rw [checkStandalone_iff_of_scan hinserted]
  obtain ⟨hfailure, ⟨out, hout⟩, scopes, hscopes⟩ := h
  rw [← openNames_withoutText, htexts, openNames_withoutText, openNames_append] at hout
  rw [← scopesAfter_withoutText, htexts, scopesAfter_withoutText] at hscopes
  obtain ⟨between, hbetween, hscopes⟩ := scopesAfter_append_eq_ok hscopes
  have hnested : openNames [] ((Reading.scan (Reading.withoutMark before)).events ++
      .reference name :: (Reading.scan after).events) = some out := by
    rw [openNames_append, ← hout]
    rfl
  have hstep : scopesAfter [] ((Reading.scan (Reading.withoutMark before)).events ++
      .reference name :: (Reading.scan after).events) =
        if isDefined name then .ok scopes else .error (.undefinedEntity name) := by
    rw [scopesAfter_append, hbetween, ← hscopes]
    rfl
  rw [hstep]
  constructor
  · rintro ⟨-, -, final, hfinal⟩
    by_contra hnot
    rw [if_neg hnot] at hfinal
    cases hfinal
  · intro hdefined
    exact ⟨hfailure, ⟨out, hnested⟩, scopes, by rw [if_pos hdefined]⟩

theorem quoteAfter_plain_of_quote {cs : List Char} (h : ∀ c ∈ cs, isTagPlain c = true)
    {quote : Option Char} (hquote : ∀ q, quote = some q → isQuote q = true) (rest : List Char) :
    quoteAfter quote (cs ++ rest) = quoteAfter quote rest := by
  cases quote with
  | none => exact quoteAfter_plain_append h rest
  | some q =>
    refine quoteAfter_inside (fun c hc => ?_) (hquote q rfl) rest
    have hplain := h c hc
    simp only [isTagPlain, Bool.and_eq_true, Bool.not_eq_true'] at hplain
    exact hplain.2

namespace ValuePlace

section Inserting

variable {p : ValuePlace} (hp : p.Valid) {inserted : List Char}
  (hplain : ∀ c ∈ inserted, isTagPlain c = true)

include hp hplain

theorem closes_tag : (p.tag inserted).Closes p.closed := by
  obtain ⟨hquote, hend⟩ := closes_of_readsBack hp.tag
  have hsplit (text : List Char) : (p.tag text).content = (p.name ++ (p.head ++ p.before)) ++
      (text ++ (p.after ++ p.quote :: p.trail)) := by
    simp [tag, holder, Tag.content]
  have hlast (text : List Char) : (p.tag text).content.getLast? =
      (p.quote :: p.trail).getLast? := by
    rw [hsplit, ← List.append_assoc, ← List.append_assoc, List.getLast?_append, List.getLast?_cons]
    rfl
  refine ⟨?_, ?_⟩
  · -- What is inserted holds no quote, so the quotes of the tag pair up as before.
    rw [hsplit, quoteAfter_append] at hquote ⊢
    obtain ⟨state, hstate, hrest⟩ := Option.bind_eq_some_iff.mp hquote
    have hstates : ∀ q, state = some q → isQuote q = true := by
      rintro q rfl
      exact isQuote_of_quoteAfter (by simp) hstate
    rw [hstate, Option.bind_some, quoteAfter_plain_of_quote hplain hstates]
    exact hrest
  · cases hclosed : p.closed with
    | true =>
      intro hnil
      have hnone := hlast inserted
      rw [hnil, List.getLast?_cons] at hnone
      cases hnone
    | false =>
      rw [hclosed] at hend
      change (p.tag inserted).content.getLast? ≠ some '/'
      rw [hlast inserted, ← hlast []]
      exact hend

theorem readsBack_tag : (Event.ofTag p.closed (p.tag inserted)).ReadsBack := by
  obtain ⟨-, hform, hstart, -⟩ := eq_render_of_readEvent (readsBack_ofTag.mp hp.tag [])
  obtain ⟨hname, hblank⟩ := form_of_ofContent hform
  have hhead : p.head ≠ [] := by simp [head]
  have hcontent (text : List Char) : (p.tag text).content =
      (p.name ++ p.head) ++ ((p.holder text).value ++ p.quote :: p.trail) := by
    simp [tag, Tag.content]
  refine readsBack_ofTag.mpr (readEvent_ofTag (ofContent_content_of_name hname ?_) ?_
    (closes_tag hp hplain))
  · intro c hc
    refine hblank c ?_
    obtain ⟨d, ds, hds⟩ := List.exists_cons_of_ne_nil hhead
    simp only [tag, hds, List.cons_append, List.head?_cons] at hc ⊢
    exact hc
  · rw [hcontent] at hstart ⊢
    exact startsTag_append (startsTag_of_append hstart) (by simp [hhead]) _

theorem notMem_value : p.quote ∉ (p.holder inserted).value := by
  have hquoted := hp.quoted
  simp only [holder, List.mem_append, List.nil_append, not_or] at hquoted ⊢
  refine ⟨hquoted.1, fun hmem => ?_, hquoted.2⟩
  have hquote := hplain p.quote hmem
  simp [isTagPlain, hp.quote] at hquote

theorem spells_tag {as bs : List Attribute} (has : Spells p.lead as) (hbs : Spells p.trail bs) :
    Spells (p.tag inserted).attributeText (as ++ p.holder inserted :: bs) := by
  have htext : (p.tag inserted).attributeText = p.lead ++ ([] ++ (p.key ++ (p.afterKey ++ '=' ::
      (p.afterEquals ++ p.quote :: ((p.holder inserted).value ++ p.quote :: p.trail))))) := by
    simp [tag, head]
  rw [htext]
  exact has.append (.cons ⟨[], p.afterKey, p.afterEquals, p.quote, rfl, by simp, hp.afterKey,
    hp.afterEquals, hp.quote, notMem_value hp hplain, hp.key⟩ hbs)

theorem attributes_tag {as bs : List Attribute} (has : Spells p.lead as) (hbs : Spells p.trail bs)
    (hfailure : (p.tag []).attributes.failure = none) :
    (p.tag inserted).attributes = ⟨as ++ p.holder inserted :: bs, none⟩ ∧
      (p.tag inserted).allAttributes = ⟨as ++ p.holder inserted :: bs, none⟩ := by
  have hempty := allAttributes_eq_iff.mpr (@spells_tag _ hp [] (by simp) _ _ has hbs)
  obtain ⟨hspells, hnodup⟩ := attributes_eq_iff.mp
    (show (p.tag []).attributes = ⟨(p.tag []).attributes.attributes, none⟩ by rw [← hfailure])
  rw [allAttributes_eq_iff.mpr hspells, AttributeReading.mk.injEq] at hempty
  rw [hempty.1] at hnodup
  have hinserted := spells_tag hp hplain has hbs
  exact ⟨attributes_eq_iff.mpr ⟨hinserted, by simpa [holder] using hnodup⟩,
    allAttributes_eq_iff.mpr hinserted⟩

end Inserting

section Reference

variable {p : ValuePlace} (hp : p.Valid) {name : List Char}
  (hname : ∀ c ∈ name, isReferencePart c = true)

include hp hname

theorem unescape_holder_iff (hvalue : ∃ text, unescape (p.holder []).value = .ok text) :
    (∃ text, unescape (p.holder (Event.reference name).render).value = .ok text) ↔
      Resolves name := by
  have hin : ∀ c ∈ name, (c != ';' && c != '&') = true := by
    intro c hc
    have hpart := hname c hc
    simp only [isReferencePart, Bool.and_eq_true] at hpart ⊢
    exact ⟨hpart.2, hpart.1.2⟩
  have hrender : (p.holder (Event.reference name).render).value =
      p.before ++ ('&' :: (name ++ ';' :: p.after)) := by
    simp [holder, reference_render]
  rw [hrender]
  exact unescape_insert_iff hin hp.before hvalue

theorem resolves_of_checkTag {scope inner wider : Scope} (h : checkTag scope (p.tag []) = .ok inner)
    (hinserted : checkTag scope (p.tag (Event.reference name).render) = .ok wider) :
    Resolves name := by
  obtain ⟨as, has⟩ := hp.lead
  obtain ⟨bs, hbs⟩ := hp.trail
  obtain ⟨-, -, hfailure, hvalues⟩ := checkTag_eq_ok_iff.mp h
  obtain ⟨-, -, -, hchecked⟩ := checkTag_eq_ok_iff.mp hinserted
  rw [(attributes_tag hp (by simp) has hbs hfailure).1] at hvalues
  rw [(attributes_tag hp (isTagPlain_reference hname) has hbs hfailure).1] at hchecked
  exact (unescape_holder_iff hp hname (hvalues _ (by simp)).2).mp (hchecked _ (by simp)).2

omit hname in
theorem extend_of_reference {scope inner : Scope} {as bs : List Attribute}
    (h : scope.extend (as ++ p.holder [] :: bs) = .ok inner) :
    ∃ wider, scope.extend (as ++ p.holder (Event.reference name).render :: bs) = .ok wider ∧
      wider.Covers inner := by
  have hmem : '&' ∈ (p.holder (Event.reference name).render).value := by
    simp [holder, reference_render]
  have hne {namespaceText : List Char} (hnot : '&' ∉ namespaceText) :
      (p.holder (Event.reference name).render).value ≠ namespaceText := by
    rintro rfl
    exact hnot hmem
  rw [Scope.extend_append] at h ⊢
  cases hfront : scope.extend as with
  | error e =>
    rw [hfront] at h
    cases h
  | ok middle =>
    rw [hfront] at h
    change middle.extend (p.holder [] :: bs) = _ at h
    change ∃ wider, middle.extend (p.holder (Event.reference name).render :: bs) = _ ∧ _
    rw [Scope.extend_cons] at h ⊢
    cases hnew : Scope.declared (p.holder []) with
    | error e =>
      rw [hnew] at h
      cases h
    | ok new =>
      rw [hnew] at h
      obtain ⟨added, hadded, hcovers⟩ := @Scope.declared_of_value p.key _ _ _ hp.notXml
        (hne (by simp)) (hne (by decide)) (hne (by decide)) hnew
      rw [show Scope.declared (p.holder (Event.reference name).render) = .ok added from hadded]
      exact Scope.extend_of_covers (hcovers middle) h

theorem checkTag_of_resolves {scope inner : Scope} (h : checkTag scope (p.tag []) = .ok inner)
    (hresolves : Resolves name) :
    ∃ wider, checkTag scope (p.tag (Event.reference name).render) = .ok wider ∧
      wider.Covers inner := by
  obtain ⟨as, has⟩ := hp.lead
  obtain ⟨bs, hbs⟩ := hp.trail
  obtain ⟨hextend, hdeclared, hfailure, hvalues⟩ := checkTag_eq_ok_iff.mp h
  obtain ⟨hempty, hemptyAll⟩ := @attributes_tag _ hp [] (by simp) _ _ has hbs hfailure
  obtain ⟨hfull, hfullAll⟩ := attributes_tag hp (isTagPlain_reference hname) has hbs hfailure
  rw [hemptyAll] at hextend
  rw [hempty] at hvalues
  obtain ⟨wider, hwider, hcovers⟩ := extend_of_reference hp hextend
  have hholder := hvalues (p.holder []) (by simp)
  refine ⟨wider, checkTag_eq_ok_iff.mpr ⟨by rw [hfullAll]; exact hwider,
    Scope.undeclared?_of_covers hcovers hdeclared, by rw [hfull], ?_⟩, hcovers⟩
  rw [hfull]
  intro a ha
  rcases List.mem_append.mp ha with ha | ha
  · have hfront := hvalues a (List.mem_append_left _ ha)
    exact ⟨Scope.undeclared?_of_covers hcovers hfront.1, hfront.2⟩
  · rcases List.mem_cons.mp ha with rfl | ha
    · exact ⟨Scope.undeclared?_of_covers hcovers hholder.1,
        (unescape_holder_iff hp hname hholder.2).mpr hresolves⟩
    · have hback := hvalues a (List.mem_append_right _ (List.mem_cons_of_mem _ ha))
      exact ⟨Scope.undeclared?_of_covers hcovers hback.1, hback.2⟩

end Reference

theorem scan_markup {p : ValuePlace} (hp : p.Valid) {inserted : List Char}
    (hplain : ∀ c ∈ inserted, isTagPlain c = true) :
    Reading.scan (Reading.withoutMark (p.markup inserted)) =
      ⟨(Reading.scan (Reading.withoutMark p.outer)).events ++
        .ofTag p.closed (p.tag inserted) :: (Reading.scan p.rest).events,
        (Reading.scan p.rest).failure⟩ := by
  obtain ⟨hread, -, -⟩ := ofText_eq_of_failure hp.outer
  have htag := readsBack_tag hp hplain
  have hmark : Reading.withoutMark (p.markup inserted) = Reading.withoutMark p.outer ++
      ((Event.ofTag p.closed (p.tag inserted)).render ++ p.rest) := by
    rw [markup, Event.render_ofTag]
    exact withoutMark_append_cons (by decide) ..
  rw [hmark]
  exact scan_append_event hread (by cases p.closed <;> rfl) htag p.rest

end ValuePlace

theorem accepts_in_value_iff {p : ValuePlace} (hp : p.Valid) {name : List Char}
    (hname : ∀ c ∈ name, isReferencePart c = true) (h : checkStandalone (p.markup []) = .ok ()) :
    checkStandalone (p.markup (Event.reference name).render) = .ok () ↔ Resolves name := by
  rw [checkStandalone_iff_of_scan (p.scan_markup hp (by simp))] at h
  rw [checkStandalone_iff_of_scan (p.scan_markup hp (isTagPlain_reference hname))]
  obtain ⟨hfailure, ⟨out, hout⟩, scopes, hscopes⟩ := h
  obtain ⟨before, hbefore, hscopes⟩ := scopesAfter_append_eq_ok hscopes
  rw [scopesAfter_ofTag] at hscopes
  obtain ⟨inner, hinner, hrest⟩ := bind_eq_ok_iff.mp hscopes
  constructor
  · rintro ⟨-, -, final, hfinal⟩
    rw [scopesAfter_append, hbefore] at hfinal
    change scopesAfter before _ = _ at hfinal
    rw [scopesAfter_ofTag] at hfinal
    obtain ⟨wider, hwider, -⟩ := bind_eq_ok_iff.mp hfinal
    exact p.resolves_of_checkTag hp hname hinner hwider
  · intro hresolves
    refine ⟨hfailure, ⟨out, ?_⟩, ?_⟩
    · rw [openNames_append] at hout ⊢
      simp only [openNames_ofTag] at hout ⊢
      exact hout
    · -- The tag may bind a prefix that it did not bind before, so what follows is in wider scopes.
      obtain ⟨wider, hwider, hcovers⟩ := p.checkTag_of_resolves hp hname hinner hresolves
      have hall : List.Forall₂ Scope.Covers (if p.closed then before else wider :: before)
          (if p.closed then before else inner :: before) := by
        have hsame : List.Forall₂ Scope.Covers before before :=
          List.forall₂_same.mpr fun scope _ => Scope.Covers.refl scope
        split
        · exact hsame
        · exact .cons hcovers hsame
      obtain ⟨final, hfinal, -⟩ := scopesAfter_of_covers hall hrest
      refine ⟨final, ?_⟩
      rw [scopesAfter_append, hbefore]
      change scopesAfter before _ = _
      rw [scopesAfter_ofTag, hwider]
      exact hfinal

theorem checked_of_scopesAfter {scopes out : List Scope} {es : List Event}
    (h : scopesAfter scopes es = .ok out) {e : Event} (he : e ∈ es) :
    (∀ closed t, e = .ofTag closed t → ∃ scope inner, checkTag scope t = .ok inner) ∧
      ∀ name, e = .reference name → isDefined name = true := by
  obtain ⟨front, back, rfl⟩ := List.append_of_mem he
  obtain ⟨between, -, hrest⟩ := scopesAfter_append_eq_ok h
  constructor
  · rintro closed t rfl
    rw [scopesAfter_ofTag] at hrest
    obtain ⟨inner, hinner, -⟩ := bind_eq_ok_iff.mp hrest
    exact ⟨_, inner, hinner⟩
  · rintro name rfl
    rw [scopesAfter] at hrest
    split at hrest
    · assumption
    · cases hrest

def HasAttribute (markup : List Char) (a : Attribute) : Prop :=
  ∃ closed t, .ofTag closed t ∈ (Reading.ofText markup).events ∧ a ∈ t.attributes.attributes

inductive Refers (markup name : List Char) : Prop where
  | text : .reference name ∈ (Reading.ofText markup).events → Refers markup name
  | value {a : Attribute} {names : List (List Char)} : HasAttribute markup a →
    references a.value = some names → name ∈ names → Refers markup name

theorem references_of_accepted {markup : List Char} (h : checkStandalone markup = .ok ())
    {a : Attribute} (ha : HasAttribute markup a) :
    ∃ names, references a.value = some names ∧ ∀ name ∈ names, Resolves name := by
  obtain ⟨-, out, hout⟩ := checkStandalone_eq_ok_iff.mp h
  obtain ⟨closed, t, ht, ha⟩ := ha
  obtain ⟨scope, inner, hinner⟩ := (checked_of_scopesAfter hout ht).1 closed t rfl
  obtain ⟨-, -, -, hvalues⟩ := checkTag_eq_ok_iff.mp hinner
  exact unescape_eq_ok_iff.mp (hvalues a ha).2

theorem isDefined_iff {name : List Char} :
    isDefined name = true ↔ name.head? = some '#' ∨ name ∈ predefinedNames := by
  rw [← isSome_predefined?_iff]
  simp [isDefined]

theorem isDefined_of_resolves {name : List Char} (h : Resolves name) : isDefined name = true := by
  rw [isDefined_iff]
  rcases h with h | ⟨c, h, -⟩
  · exact .inr h
  · exact .inl (head_of_characterReference h)

theorem isDefined_of_refers {markup name : List Char} (h : checkStandalone markup = .ok ())
    (hname : Refers markup name) : isDefined name = true := by
  cases hname with
  | text hmem =>
    obtain ⟨-, out, hout⟩ := checkStandalone_eq_ok_iff.mp h
    exact (checked_of_scopesAfter hout hmem).2 name rfl
  | value ha hnames hmem =>
    obtain ⟨all, hall, hresolves⟩ := references_of_accepted h ha
    obtain rfl := Option.some.inj (hnames.symm.trans hall)
    exact isDefined_of_resolves (hresolves name hmem)

/-- One reference in text and in a value of the same markup: it is accepted in neither or in both,
and that as it can be resolved or not. -/
def TreatedAlike (before after : List Char) (p : ValuePlace) (name : List Char) : Prop :=
  (checkStandalone (before ++ ((Event.reference name).render ++ after)) = .ok () ↔
      checkStandalone (p.markup (Event.reference name).render) = .ok ()) ∧
    (checkStandalone (before ++ ((Event.reference name).render ++ after)) = .ok () ↔ IsLegal name)

/-- References are treated alike, and those of what is accepted can be resolved, as far as those
that look like a reference to a character are one. -/
theorem references_alike_iff {before after name : List Char} {p : ValuePlace} (hp : p.Valid)
    (hname : ∀ c ∈ name, isReferencePart c = true) (hbefore : (Reading.ofText before).failure = none)
    (hsame : before ++ after = p.markup []) (h : checkStandalone (before ++ after) = .ok ())
    {markup : List Char} (haccepted : checkStandalone markup = .ok ()) :
    (TreatedAlike before after p name ↔ (name.head? = some '#' → IsLegal name)) ∧
      (∀ a, HasAttribute markup a → ∃ names, references a.value = some names) ∧
      ((∀ name, Refers markup name → IsLegal name) ↔
        ∀ name, Refers markup name → name.head? = some '#' → IsLegal name) := by
  refine ⟨?_, fun a ha => ?_, fun hall name hname _ => hall name hname, fun hall name hname => ?_⟩
  · have hvalue := accepts_in_value_iff hp hname (hsame ▸ h)
    rw [TreatedAlike, accepts_in_text_iff hname hbefore h, hvalue, isDefined_iff]
    constructor
    · rintro ⟨-, hlegal⟩ hhead
      exact hlegal.mp (.inl hhead)
    · intro hlegal
      have hdefined : name.head? = some '#' ∨ name ∈ predefinedNames → IsLegal name := by
        rintro (hhead | hpredefined)
        · exact hlegal hhead
        · exact .inl hpredefined
      have hback (hresolves : Resolves name) : name.head? = some '#' ∨ name ∈ predefinedNames :=
        isDefined_iff.mp (isDefined_of_resolves hresolves)
      exact ⟨⟨fun h => resolves_of_isLegal (hdefined h), hback⟩, hdefined,
        fun h => hback (resolves_of_isLegal h)⟩
  · obtain ⟨names, hnames, -⟩ := references_of_accepted haccepted ha
    exact ⟨names, hnames⟩
  · rcases isDefined_iff.mp (isDefined_of_refers haccepted hname) with hhead | hpredefined
    · exact hall name hname hhead
    · exact .inl hpredefined

def emptyValue : ValuePlace where
  outer := []
  name := ['g']
  lead := [' ']
  key := ['a']
  afterKey := []
  afterEquals := []
  quote := '"'
  before := []
  after := []
  trail := []
  closed := false
  rest := "</g>".toList

theorem emptyValue_valid : emptyValue.Valid where
  outer := by cbv
  tag := @readEvent_ofTag false _ rfl (by decide) ⟨rfl, by decide⟩
  lead := ⟨[], .nil (List.all_eq_true.mp (by decide))⟩
  trail := ⟨[], .nil (by simp [emptyValue])⟩
  key := rfl
  notXml := by decide
  afterKey := by simp [emptyValue]
  afterEquals := by simp [emptyValue]
  quote := rfl
  quoted := by decide
  before := ⟨[], by cbv⟩

theorem isLegal_letter : IsLegal "#x41".toList :=
  .inr ⟨0x41, .hexadecimal ⟨by decide, [4, 1], by decide, by decide⟩, by simp [IsLegalCode]⟩

theorem references_alike_letter :
    checkStandalone "<g a=\"\">&#x41;</g>".toList = .ok () ∧
      checkStandalone "<g a=\"&#x41;\"></g>".toList = .ok () ∧
        ∀ name, Refers "<g a=\"\">&#x41;</g>".toList name → IsLegal name := by
  have hbefore : (Reading.ofText "<g a=\"\">".toList).failure = none := by cbv
  have hempty : checkStandalone "<g a=\"\"></g>".toList = .ok () := by cbv
  have hread : (Reading.ofText "<g a=\"\">&#x41;</g>".toList).events =
      [.opening ⟨['g'], " a=\"\"".toList⟩, .reference "#x41".toList, .closing ['g']] := by
    cbv
  have hattributes : Tag.attributes ⟨['g'], " a=\"\"".toList⟩ = ⟨[⟨['a'], []⟩], none⟩ := by cbv
  have hname : ∀ c ∈ "#x41".toList, isReferencePart c = true := List.all_eq_true.mp (by decide)
  have hsame : "<g a=\"\">".toList ++ "</g>".toList = emptyValue.markup [] := by decide
  obtain ⟨hplaces, hlegal⟩ := (references_alike_iff emptyValue_valid hname hbefore hsame hempty
    hempty).1.mpr fun _ => isLegal_letter
  have htext : checkStandalone "<g a=\"\">&#x41;</g>".toList = .ok () := hlegal.mpr isLegal_letter
  refine ⟨htext, hplaces.mp htext, (references_alike_iff emptyValue_valid hname hbefore hsame hempty
    htext).2.2.mpr ?_⟩
  intro name hname _
  cases hname with
  | text hmem =>
    rw [hread] at hmem
    have heq : name = "#x41".toList := by simpa using hmem
    rw [heq]
    exact isLegal_letter
  | value ha hnames hmem =>
    obtain ⟨closed, t, ht, ha⟩ := ha
    have htag : t = ⟨['g'], " a=\"\"".toList⟩ := by
      rw [hread] at ht
      cases closed with
      | false => simpa [Event.ofTag] using ht
      | true => simp [Event.ofTag] at ht
    rw [htag, hattributes] at ha
    obtain rfl := List.mem_singleton.mp ha
    obtain rfl := Option.some.inj hnames
    cases hmem

theorem not_alike_zero : checkStandalone "<g a=\"\">&#0;</g>".toList = .ok () ∧
    checkStandalone "<g a=\"&#0;\"></g>".toList ≠ .ok () := by
  have hvalue : checkStandalone "<g a=\"&#0;\"></g>".toList =
      .error (.xml (.reference (.badCode .zero))) := by
    cbv
  refine ⟨by cbv, fun h => ?_⟩
  rw [hvalue] at h
  cases h

end StaticSite.Svg
