import Mathlib
import StaticSite.Proofs.Svg.Elements

/-!
What a reduced document holds: the elements of its source, less those that are left out, each with
the attributes that stay. This is so exactly as long as every tag is legible once its values stand
in double quotes.
-/

namespace StaticSite.Svg
open StaticSite.Xml

namespace Optimizer

variable (o : Optimizer)

structure Preserves (source output : List Char) : Prop where
  readable : (Reading.ofText output).failure = none
  closed : openElements 0 (Reading.ofText output).events = 0
  same : elements [] (Reading.ofText output).events =
    ((elements [] (Reading.ofText source).events).filter (!o.drops ·)).map o.reduced

def rewritten (t : Tag) : Tag :=
  .ofAttributes t.name (o.kept t.attributes.attributes)

def LegibleTag (closed : Bool) (t : Tag) : Prop :=
  (∀ a ∈ o.kept t.attributes.attributes, '"' ∉ a.value) ∧ (o.rewritten t).Closes closed

def Legible : Event → Prop
  | .opening t => o.LegibleTag false t
  | .empty t => o.LegibleTag true t
  | _ => True

variable {o}

theorem rewriteTag_eq_ok_iff {t u : Tag} :
    o.rewriteTag t = .ok u ↔ t.attributes.failure = none ∧ u = o.rewritten t := by
  unfold rewriteTag rewritten kept
  cases hread : t.attributes with
  | mk as failure =>
    cases failure with
    | none => simp [eq_comm]
    | some e => simp

theorem rewriteEvent_of_isTag {e : Event} (h : e.isTag = false) : o.rewriteEvent e = .ok e := by
  cases e <;> first | rfl | cases h

theorem rewriteEvent_ofTag {closed : Bool} {t : Tag} {e : Event}
    (h : o.rewriteEvent (.ofTag closed t) = .ok e) :
    t.attributes.failure = none ∧ e = .ofTag closed (o.rewritten t) := by
  have hmap : ∃ u, o.rewriteTag t = .ok u ∧ .ofTag closed u = e := by
    cases closed <;> exact map_eq_ok_iff.mp h
  obtain ⟨u, hu, rfl⟩ := hmap
  obtain ⟨hfailure, rfl⟩ := rewriteTag_eq_ok_iff.mp hu
  exact ⟨hfailure, rfl⟩

theorem rewriteEvents_cons {e : Event} {es fs : List Event}
    (h : o.rewriteEvents (e :: es) = .ok fs) :
    ∃ f gs, fs = f :: gs ∧ o.rewriteEvent e = .ok f ∧ o.rewriteEvents es = .ok gs := by
  simp only [rewriteEvents, bind_eq_ok_iff] at h
  obtain ⟨f, hf, gs, hgs, h⟩ := h
  exact ⟨f, gs, (Except.ok.inj h).symm, hf, hgs⟩

theorem legible_ofTag {closed : Bool} {t : Tag} :
    o.Legible (.ofTag closed t) ↔ o.LegibleTag closed t := by
  cases closed <;> rfl

section Rewriting

variable {closed : Bool} {t : Tag} (ht : (Event.ofTag closed t).ReadsBack)

include ht

theorem name_not_blank : ∀ c ∈ t.name, isBlank c = false := by
  obtain ⟨-, hform, -⟩ := eq_render_of_readEvent (readsBack_ofTag.mp ht [])
  intro c hc
  rw [← hform] at hc
  have := List.mem_takeWhile_imp hc
  simpa using this

theorem ofContent_rewritten : Tag.ofContent (o.rewritten t).content = o.rewritten t := by
  refine ofContent_content_of_name (name_not_blank ht) ?_
  intro c hc
  cases hk : o.kept t.attributes.attributes with
  | nil => simp [hk] at hc
  | cons a as =>
    have : ' ' = c := by simpa [hk, Attribute.render] using hc
    rw [← this]
    rfl

theorem startsTag_rewritten : startsTag (o.rewritten t).content = true := by
  obtain ⟨-, -, hstart, -⟩ := eq_render_of_readEvent (readsBack_ofTag.mp ht [])
  have hname := startsTag_of_append hstart
  by_cases hne : t.name = []
  · cases hk : o.kept t.attributes.attributes with
    | nil => simp [rewritten, Tag.ofAttributes, Tag.content, hne, hk, startsTag]
    | cons a as =>
      simp [rewritten, Tag.ofAttributes, Tag.content, hne, hk, Attribute.render, startsTag]
  · exact startsTag_append hname hne _

theorem readsBack_rewritten (hlegible : o.LegibleTag closed t) :
    (Event.ofTag closed (o.rewritten t)).ReadsBack :=
  readsBack_ofTag.mpr
    (readEvent_ofTag (ofContent_rewritten ht) (startsTag_rewritten ht) hlegible.2)

omit ht

theorem kept_of_attributes (hfailure : t.attributes.failure = none) :
    (∀ a ∈ o.kept t.attributes.attributes, isKey a.key = true) ∧
      ((o.kept t.attributes.attributes).map (·.key)).Nodup := by
  obtain ⟨hspells, hnodup⟩ := attributes_eq_iff.mp (show t.attributes =
    ⟨t.attributes.attributes, none⟩ by rw [← hfailure])
  constructor
  · intro a ha
    exact isKey_of_spells hspells a (List.mem_of_mem_filter ha)
  · exact hnodup.sublist (List.filter_sublist.map _)

theorem attributes_rewritten (hfailure : t.attributes.failure = none)
    (hvalues : ∀ a ∈ o.kept t.attributes.attributes, '"' ∉ a.value) :
    (o.rewritten t).attributes = ⟨o.kept t.attributes.attributes, none⟩ := by
  obtain ⟨hkeys, hnodup⟩ := kept_of_attributes hfailure
  exact attributes_eq_iff.mpr ⟨spells_render hkeys hvalues, hnodup⟩

theorem legible_of_readEvent {kind : Bool} {u : Tag} {more rest : List Char}
    (hread : readEvent ((Event.ofTag closed (o.rewritten t)).render ++ more) =
      .ok (.ofTag kind u, rest))
    (hname : u.name = t.name)
    (hattributes : u.attributes = ⟨o.kept t.attributes.attributes, none⟩) :
    kind = closed ∧ u = o.rewritten t ∧ rest = more ∧ o.LegibleTag closed t := by
  obtain ⟨heq, -, -, hcloses⟩ := eq_render_of_readEvent hread
  rw [Event.render_ofTag, Event.render_ofTag] at heq
  have heq := (List.cons.inj heq).2
  obtain ⟨hspells, -⟩ := attributes_eq_iff.mp hattributes
  rw [Tag.content, Tag.content, hname, List.append_assoc, List.append_assoc] at heq
  have heq := List.append_cancel_left heq
  have hend : ∃ c cs, slash closed ++ '>' :: more = c :: cs ∧ isBlank c = false := by
    cases closed with
    | true => exact ⟨'/', _, rfl, rfl⟩
    | false => exact ⟨'>', _, rfl, rfl⟩
  obtain ⟨c, cs, hcs, hblank⟩ := hend
  have hrender : (o.rewritten t).attributeText =
    (o.kept t.attributes.attributes).flatMap Attribute.render := rfl
  rw [hrender, hcs] at heq
  obtain ⟨htext, hvalues⟩ := eq_render_of_spells hspells hblank heq
  have hu : u = o.rewritten t := by
    obtain ⟨name, text⟩ := u
    simp only at hname htext
    rw [hname, htext]
    rfl
  rw [htext, ← hcs] at heq
  have heq := List.append_cancel_left heq
  have hsame : kind = closed ∧ rest = more := by
    cases kind <;> cases closed <;> simp_all [slash]
  obtain ⟨rfl, rfl⟩ := hsame
  exact ⟨rfl, hu, rfl, hvalues, hu ▸ hcloses⟩

end Rewriting

theorem legibleTag_iff_of_plain {closed : Bool} {t : Tag} (hne : t.name ≠ [])
    (hlast : t.name.getLast? ≠ some '/') (hname : ∀ c ∈ t.name, isTagPlain c = true)
    (hkeys : ∀ a ∈ o.kept t.attributes.attributes, ∀ c ∈ a.key, isTagPlain c = true) :
    o.LegibleTag closed t ↔ ∀ a ∈ o.kept t.attributes.attributes, '"' ∉ a.value := by
  constructor
  · exact fun h => h.1
  · intro hvalues
    exact ⟨hvalues, closes_ofAttributes hne hlast hname hkeys hvalues closed⟩

theorem openNames_rewriteEvents {stack out : List (List Char)} {es fs : List Event}
    (hrewrite : o.rewriteEvents es = .ok fs) (h : openNames stack es = some out) :
    openNames stack fs = some out := by
  fun_induction openNames stack es generalizing fs with
  | case1 =>
    cases hrewrite
    exact h
  | case2 stack t es ih =>
    obtain ⟨f, gs, rfl, hf, hgs⟩ := rewriteEvents_cons hrewrite
    obtain ⟨-, rfl⟩ := @rewriteEvent_ofTag o false t f hf
    exact ih hgs h
  | case3 => cases h
  | case4 stack name es ih =>
    obtain ⟨f, gs, rfl, hf, hgs⟩ := rewriteEvents_cons hrewrite
    cases hf
    rw [openNames, if_pos rfl]
    exact ih hgs h
  | case5 => cases h
  | case6 stack e es hopening hclosing hpop ih =>
    obtain ⟨f, gs, rfl, hf, hgs⟩ := rewriteEvents_cons hrewrite
    cases htag : e.isTag with
    | false =>
      rw [rewriteEvent_of_isTag htag] at hf
      cases hf
      rw [openNames]
      · exact ih hgs h
      all_goals assumption
    | true =>
      obtain ⟨closed, t, rfl⟩ := exists_ofTag htag
      cases closed with
      | false => exact (hopening t rfl).elim
      | true =>
        obtain ⟨-, rfl⟩ := rewriteEvent_ofTag hf
        have hout := ih hgs h
        exact hout

theorem elements_rewriteEvents {path : List (List Char)} {es fs : List Event}
    (hrewrite : o.rewriteEvents es = .ok fs) (hlegible : ∀ e ∈ es, o.Legible e) :
    elements path fs = (elements path es).map o.reduced := by
  induction es generalizing path fs with
  | nil =>
    cases hrewrite
    rfl
  | cons e es ih =>
    obtain ⟨f, gs, rfl, hf, hgs⟩ := rewriteEvents_cons hrewrite
    have htail : ∀ d ∈ es, o.Legible d := fun d hd => hlegible d (List.mem_cons_of_mem _ hd)
    cases htag : e.isTag with
    | true =>
      obtain ⟨closed, t, rfl⟩ := exists_ofTag htag
      obtain ⟨hfailure, rfl⟩ := rewriteEvent_ofTag hf
      have hvalues := (legible_ofTag.mp (hlegible _ (List.mem_cons_self ..))).1
      have hattributes := attributes_rewritten hfailure hvalues
      have hreduced : (⟨path, (o.rewritten t).name, (o.rewritten t).attributes⟩ : Element) =
          o.reduced ⟨path, t.name, t.attributes⟩ := by
        rw [hattributes, reduced, hfailure]
        rfl
      cases closed with
      | true => rw [Event.ofTag, Event.ofTag, elements, elements, hreduced, ih hgs htail]; rfl
      | false => rw [Event.ofTag, Event.ofTag, elements, elements, hreduced, ih hgs htail]; rfl
    | false =>
      rw [rewriteEvent_of_isTag htag] at hf
      cases hf
      have hrest (path : List (List Char)) := @ih path gs hgs htail
      cases e with
      | opening | empty => cases htag
      | _ => exact hrest _

theorem readsBack_rewriteEvents {es fs : List Event} (hrewrite : o.rewriteEvents es = .ok fs)
    (hes : ∀ e ∈ es, e.ReadsBack) (hlegible : ∀ e ∈ es, o.Legible e) :
    ∀ f ∈ fs, f.ReadsBack := by
  induction es generalizing fs with
  | nil =>
    cases hrewrite
    simp
  | cons e es ih =>
    obtain ⟨f, gs, rfl, hf, hgs⟩ := rewriteEvents_cons hrewrite
    have hothers := ih hgs (fun d hd => hes d (List.mem_cons_of_mem _ hd))
      fun d hd => hlegible d (List.mem_cons_of_mem _ hd)
    have he := hes e (List.mem_cons_self ..)
    have hfirst : f.ReadsBack := by
      cases htag : e.isTag with
      | true =>
        obtain ⟨closed, t, rfl⟩ := exists_ofTag htag
        obtain ⟨-, rfl⟩ := rewriteEvent_ofTag hf
        exact readsBack_rewritten he (legible_ofTag.mp (hlegible _ (List.mem_cons_self ..)))
      | false =>
        rw [rewriteEvent_of_isTag htag] at hf
        cases hf
        exact he
    simpa using ⟨hfirst, hothers⟩

/-- The document that is read from a text, after some text that belongs to no markup. -/
structure ReadsAs (path : List (List Char)) (text : List Char) (xs : List Element) : Prop where
  failure : (Reading.scan text).failure = none
  nested : ∃ out, openNames path (Reading.scan text).events = some out
  same : elements path (Reading.scan text).events = xs

theorem ReadsAs.of_plain {path : List (List Char)} {cs rest : List Char} {xs : List Element}
    (h : ReadsAs path (cs ++ rest) xs) (hplain : ∀ c ∈ cs, isPlain c = true) :
    ReadsAs path rest xs := by
  cases cs with
  | nil => exact h
  | cons c cs =>
    obtain ⟨hfailure, ⟨out, hout⟩, hsame⟩ := h
    have htexts : withoutText ((Event.text (c :: cs)).inFront (Reading.scan rest).events) =
        withoutText (Reading.scan rest).events := by
      rw [withoutText_inFront, withoutText_cons_of_isText rfl]
    rw [scan_plain (List.cons_ne_nil c cs) hplain] at hfailure hout hsame
    refine ⟨hfailure, ⟨out, ?_⟩, ?_⟩
    · rw [← openNames_withoutText, ← htexts, openNames_withoutText]
      exact hout
    · rw [← elements_congr htexts]
      exact hsame

theorem ReadsAs.exists_readEvent {path : List (List Char)} {text : List Char} {xs : List Element}
    (h : ReadsAs path text xs) (hne : text ≠ []) :
    ∃ e rest, readEvent text = .ok (e, rest) ∧
      (Reading.scan rest).failure = none ∧
      (∃ out, openNames path (e :: (Reading.scan rest).events) = some out) ∧
      elements path (e :: (Reading.scan rest).events) = xs := by
  obtain ⟨hfailure, hout, hsame⟩ := h
  cases text with
  | nil => exact absurd rfl hne
  | cons c cs =>
    rw [scan_cons] at hfailure hout hsame
    cases hread : readEvent (c :: cs) with
    | error e =>
      rw [hread] at hfailure
      cases hfailure
    | ok r =>
      rw [hread] at hfailure hout hsame
      exact ⟨r.1, r.2, rfl, hfailure, hout, hsame⟩

theorem readEvent_nameless (rest : List Char) :
    readEvent ('<' :: '/' :: '>' :: rest) = .ok (.closing [], rest) := rfl

theorem not_readsAs_nameless {t : Tag} (ht : (o.rewritten t).content = []) {path : List (List Char)}
    {more : List Char} {xs : List Element} {x : Element} (hpath : x.path = path) :
    ¬ ReadsAs path ((Event.ofTag true (o.rewritten t)).render ++ more) (x :: xs) := by
  intro h
  rw [Event.render_ofTag, ht] at h
  obtain ⟨e, rest, hread, -, ⟨out, hout⟩, hsame⟩ := h.exists_readEvent (by simp)
  rw [List.nil_append, show slash true ++ '>' :: more = '/' :: '>' :: more from rfl,
    readEvent_nameless] at hread
  obtain ⟨rfl, rfl⟩ := Prod.mk.inj (Except.ok.inj hread)
  cases path with
  | nil => cases hout
  | cons top stack =>
    have hle : x.path.length ≤ stack.length :=
      length_le_of_elements (show elements stack (Reading.scan more).events = x :: xs from hsame)
    rw [hpath, List.length_cons] at hle
    omega

theorem readsAs_tag {closed : Bool} {t : Tag} (ht : (Event.ofTag closed t).ReadsBack)
    {path : List (List Char)} {more : List Char} {xs : List Element}
    (hfailure : t.attributes.failure = none)
    (h : ReadsAs path ((Event.ofTag closed (o.rewritten t)).render ++ more)
      (o.reduced ⟨path, t.name, t.attributes⟩ :: xs)) :
    o.LegibleTag closed t ∧
      ReadsAs (if closed then path else t.name :: path) more xs := by
  by_cases hnameless : closed = true ∧ (o.rewritten t).content = []
  · obtain ⟨rfl, hempty⟩ := hnameless
    exact (not_readsAs_nameless hempty (show Element.path (o.reduced _) = path from rfl) h).elim
  · obtain ⟨e, rest, hread, hscan, ⟨out, hout⟩, hsame⟩ := h.exists_readEvent (by
      rw [Event.render_ofTag]
      exact List.cons_ne_nil _ _)
    have hne : closed = true → (o.rewritten t).content ≠ [] := fun hclosed hnil =>
      hnameless ⟨hclosed, hnil⟩
    have htag : e.isTag = true := by
      rw [Event.render_ofTag] at hread
      exact isTag_of_startsTag (startsTag_slash_append (startsTag_rewritten ht) hne more) hread
    obtain ⟨kind, u, rfl⟩ := exists_ofTag htag
    have hhead : elements path (Event.ofTag kind u :: (Reading.scan rest).events) =
        ⟨path, u.name, u.attributes⟩ ::
          elements (if kind then path else u.name :: path) (Reading.scan rest).events := by
      cases kind <;> rfl
    rw [hhead] at hsame
    obtain ⟨hfirst, hothers⟩ := List.cons.inj hsame
    have hname : u.name = t.name := congrArg Element.name hfirst
    have hattributes : u.attributes = ⟨o.kept t.attributes.attributes, none⟩ := by
      rw [← hfailure]
      exact congrArg Element.attributes hfirst
    obtain ⟨rfl, rfl, rfl, hlegible⟩ := legible_of_readEvent hread hname hattributes
    refine ⟨hlegible, hscan, ⟨out, ?_⟩, hothers⟩
    cases kind <;> exact hout

theorem ReadsAs.exists_rest {e : Event} (htag : e.isTag = false) (htext : e.isText = false)
    (he : e.ReadsBack) {path : List (List Char)} {more : List Char} {xs : List Element}
    (h : ReadsAs path (e.render ++ more) xs) :
    ∃ next, (∀ es, elements path (e :: es) = elements next es) ∧ ReadsAs next more xs := by
  obtain ⟨hfailure, ⟨out, hout⟩, hsame⟩ := h
  rw [scan_event_append htext he] at hfailure hout hsame
  cases e with
  | opening | empty => cases htag
  | text => cases htext
  | closing name =>
    cases path with
    | nil => cases hout
    | cons top stack =>
      simp only [openNames, Option.ite_none_right_eq_some] at hout
      exact ⟨stack, fun _ => rfl, hfailure, ⟨out, hout.2⟩, hsame⟩
  | _ => exact ⟨path, fun _ => rfl, hfailure, ⟨out, hout⟩, hsame⟩

theorem legible_of_readsAs {es fs : List Event} (hes : ∀ e ∈ es, e.ReadsBack)
    (hrewrite : o.rewriteEvents es = .ok fs) {path : List (List Char)} {cs : List Char}
    (hplain : ∀ c ∈ cs, isPlain c = true)
    (h : ReadsAs path (cs ++ render fs) ((elements path es).map o.reduced)) :
    ∀ e ∈ es, o.Legible e := by
  replace h := h.of_plain hplain
  induction es generalizing fs path with
  | nil => simp
  | cons e es ih =>
    obtain ⟨f, gs, rfl, hf, hgs⟩ := rewriteEvents_cons hrewrite
    have he := hes e (List.mem_cons_self ..)
    have hrest := @ih gs (fun d hd => hes d (List.mem_cons_of_mem _ hd)) hgs
    rw [render_cons] at h
    cases htag : e.isTag with
    | true =>
      obtain ⟨closed, t, rfl⟩ := exists_ofTag htag
      obtain ⟨hfailure, rfl⟩ := rewriteEvent_ofTag hf
      have hhead : (elements path (.ofTag closed t :: es)).map o.reduced =
          o.reduced ⟨path, t.name, t.attributes⟩ ::
            (elements (if closed then path else t.name :: path) es).map o.reduced := by
        cases closed <;> rfl
      rw [hhead] at h
      obtain ⟨hlegible, hothers⟩ := readsAs_tag he hfailure h
      exact List.forall_mem_cons.mpr ⟨legible_ofTag.mpr hlegible, hrest hothers⟩
    | false =>
      rw [rewriteEvent_of_isTag htag] at hf
      obtain rfl := Except.ok.inj hf
      have hlegible : o.Legible e := by
        cases e with
        | opening | empty => cases htag
        | _ => trivial
      refine List.forall_mem_cons.mpr ⟨hlegible, ?_⟩
      cases htext : e.isText with
      | true =>
        obtain ⟨content, rfl⟩ := exists_text htext
        exact hrest (h.of_plain (Event.readsBack_text.mp he).2)
      | false =>
        obtain ⟨next, hnext, hothers⟩ := h.exists_rest htag htext he
        rw [hnext] at hothers
        exact hrest hothers

theorem optimize_eq_ok {source output : List Char} (h : o.optimize source = .ok output) :
    ∃ fs, o.rewriteEvents (o.selected (Reading.ofText source).events) = .ok fs ∧
      output = render fs ∧ openNames [] (Reading.ofText source).events = some [] := by
  simp only [optimize] at h
  split at h
  · cases h
  · rename_i fs hfs
    split at h
    · cases h
    · rename_i hfailure
      split at h
      · rename_i hclosed
        obtain ⟨-, -, out, hout⟩ := ofText_eq_of_failure hfailure
        have hlength : out.length = 0 := by
          rw [← openElements_eq_length hout]
          exact hclosed
        obtain rfl := List.eq_nil_of_length_eq_zero hlength
        exact ⟨fs, hfs, (Except.ok.inj h).symm, hout⟩
      · cases h

theorem exists_text_of_rewriteEvents {es fs : List Event} {content : List Char}
    (h : o.rewriteEvents es = .ok (.text content :: fs)) :
    ∃ ds, es = .text content :: ds ∧ o.rewriteEvents ds = .ok fs := by
  cases es with
  | nil => cases h
  | cons e es =>
    obtain ⟨f, gs, heq, hf, hgs⟩ := rewriteEvents_cons h
    obtain ⟨rfl, rfl⟩ := List.cons.inj heq
    cases htag : e.isTag with
    | true =>
      obtain ⟨closed, t, rfl⟩ := exists_ofTag htag
      have := (rewriteEvent_ofTag hf).2
      cases closed <;> cases this
    | false =>
      rw [rewriteEvent_of_isTag htag] at hf
      obtain rfl := Except.ok.inj hf
      exact ⟨es, rfl, hgs⟩

theorem readsBack_text_of_rewriteEvents {es fs : List Event}
    (hrewrite : o.rewriteEvents es = .ok fs) (hes : ∀ e ∈ es, e.ReadsBack) :
    ∀ f ∈ fs, f.isText = true → f.ReadsBack := by
  induction fs generalizing es with
  | nil => simp
  | cons f fs ih =>
    cases es with
    | nil => cases hrewrite
    | cons e es =>
      obtain ⟨d, gs, heq, hd, hgs⟩ := rewriteEvents_cons hrewrite
      obtain ⟨rfl, rfl⟩ := List.cons.inj heq
      intro g hg htext
      cases hg with
      | tail _ hg => exact ih hgs (fun x hx => hes x (List.mem_cons_of_mem _ hx)) g hg htext
      | head =>
        obtain ⟨content, rfl⟩ := exists_text htext
        obtain ⟨ds, heq, -⟩ := exists_text_of_rewriteEvents hrewrite
        rw [(List.cons.inj heq).1] at hes
        exact hes _ (List.mem_cons_self ..)

theorem optimize_of_rewriteEvents {source : List Char} {es fs : List Event}
    (hread : Reading.ofText source = ⟨es, none⟩) (hclosed : openElements 0 es = 0)
    (hrewrite : o.rewriteEvents (o.selected es) = .ok fs) :
    o.optimize source = .ok (render fs) := by
  simp only [optimize, hread, hrewrite, hclosed, ↓reduceIte]

/-- The elements survive, with their attributes, if and only if each tag that stays is legible. -/
theorem optimize_preserves_iff {source output : List Char}
    (h : o.optimize source = .ok output) :
    o.Preserves source output ↔
      ∀ e ∈ o.selected (Reading.ofText source).events, o.Legible e := by
  obtain ⟨fs, hrewrite, rfl, hsource⟩ := optimize_eq_ok h
  have hreads : ∀ e ∈ o.selected (Reading.ofText source).events, e.ReadsBack := fun e he =>
    readsBack_of_mem_ofText (o.mem_of_mem_selected he)
  have hnested := openNames_rewriteEvents hrewrite (o.openNames_selected hsource)
  constructor
  · rintro ⟨hfailure, -, hsame⟩
    obtain ⟨hscan, hevents, hout⟩ := ofText_eq_of_failure hfailure
    rw [hevents, ← o.elements_selected] at hsame
    rw [hevents] at hout
    rcases withoutMark_render (readsBack_text_of_rewriteEvents hrewrite hreads) with
      hmark | ⟨cs, gs, rfl, hmark⟩
    · rw [hmark] at hscan hout hsame
      exact legible_of_readsAs hreads hrewrite (by simp)
        (show ReadsAs [] ([] ++ render fs) _ from ⟨hscan, hout, hsame⟩)
    · obtain ⟨ds, hselected, hgs⟩ := exists_text_of_rewriteEvents hrewrite
      rw [hmark] at hscan hout hsame
      rw [hselected] at hsame hreads ⊢
      have hcs := (Event.readsBack_text.mp (hreads _ (List.mem_cons_self ..))).2
      have hothers : ∀ e ∈ ds, o.Legible e :=
        legible_of_readsAs (fun e he => hreads e (List.mem_cons_of_mem _ he)) hgs
          (fun c hc => hcs c (List.mem_cons_of_mem _ hc)) ⟨hscan, hout, hsame⟩
      exact List.forall_mem_cons.mpr ⟨trivial, hothers⟩
  · intro hlegible
    obtain ⟨gs, hread, htexts⟩ :=
      ofText_render (readsBack_rewriteEvents hrewrite hreads hlegible) hnested
    have hgs : openNames [] gs = some [] := by
      rw [← openNames_withoutText, htexts, openNames_withoutText, hnested]
    refine ⟨by rw [hread], ?_, ?_⟩
    · rw [hread]
      exact openElements_eq_length hgs
    · rw [hread, ← o.elements_selected, ← elements_rewriteEvents hrewrite hlegible]
      exact elements_congr htexts

def editedIcon : List Char :=
  "<svg><!-- --><metadata/><g data-name='\"' id='g'/></svg>".toList

def reducedIcon : List Char :=
  "<svg><g id=\"g\"/></svg>".toList

theorem standard_preserves_editedIcon :
    standard.optimize editedIcon = .ok reducedIcon ∧ standard.Preserves editedIcon reducedIcon := by
  have hread : Reading.ofText editedIcon =
      ⟨[.opening ⟨"svg".toList, []⟩, .comment " ".toList, .empty ⟨"metadata".toList, []⟩,
        .empty ⟨"g".toList, " data-name='\"' id='g'".toList⟩, .closing "svg".toList], none⟩ := by
    cbv
  have hselected : standard.selected
      [.opening ⟨"svg".toList, []⟩, .comment " ".toList, .empty ⟨"metadata".toList, []⟩,
        .empty ⟨"g".toList, " data-name='\"' id='g'".toList⟩, .closing "svg".toList] =
      [.opening ⟨"svg".toList, []⟩, .empty ⟨"g".toList, " data-name='\"' id='g'".toList⟩,
        .closing "svg".toList] := by
    decide
  have hrewrite : standard.rewriteEvents
      [.opening ⟨"svg".toList, []⟩, .empty ⟨"g".toList, " data-name='\"' id='g'".toList⟩,
        .closing "svg".toList] =
      .ok [.opening ⟨"svg".toList, []⟩, .empty ⟨"g".toList, " id=\"g\"".toList⟩,
        .closing "svg".toList] := by
    cbv
  have h : standard.optimize editedIcon = .ok reducedIcon :=
    optimize_of_rewriteEvents hread rfl
      ((congrArg standard.rewriteEvents hselected).trans hrewrite)
  refine ⟨h, (optimize_preserves_iff h).mpr ?_⟩
  have hsvg : standard.kept (Tag.attributes ⟨"svg".toList, []⟩).attributes = [] := by cbv
  have hg : standard.kept (Tag.attributes ⟨"g".toList, " data-name='\"' id='g'".toList⟩).attributes =
      [⟨"id".toList, "g".toList⟩] := by
    cbv
  have hevents := (congrArg (fun r => standard.selected r.events) hread).trans hselected
  rw [hevents]
  simp only [List.forall_mem_cons, Legible, LegibleTag, rewritten, hsvg, hg, Tag.Closes]
  exact ⟨⟨by decide, by decide, by decide⟩, ⟨by decide, by decide, by decide⟩, trivial, by simp⟩

def singleQuoted : List Char := "<svg a='x\"y'/>".toList

theorem not_preserves_singleQuoted :
    (Optimizer.mk []).optimize singleQuoted = .ok "<svg a=\"x\"y\"/>".toList ∧
      ¬ (Optimizer.mk []).Preserves singleQuoted "<svg a=\"x\"y\"/>".toList := by
  have hsource : Reading.ofText singleQuoted =
      ⟨[.empty ⟨"svg".toList, " a='x\"y'".toList⟩], none⟩ := by
    cbv
  have hrewrite : (Optimizer.mk []).rewriteEvents ((Optimizer.mk []).selected
      [.empty ⟨"svg".toList, " a='x\"y'".toList⟩]) =
      .ok [.empty ⟨"svg".toList, " a=\"x\"y\"".toList⟩] := by
    cbv
  have houtput : (Reading.ofText "<svg a=\"x\"y\"/>".toList).failure =
      some (.syntaxError (.unclosedValue '"')) := by
    cbv
  refine ⟨optimize_of_rewriteEvents hsource rfl hrewrite, ?_⟩
  intro h
  have hfailure := h.readable
  rw [houtput] at hfailure
  cases hfailure

end Optimizer

end StaticSite.Svg
