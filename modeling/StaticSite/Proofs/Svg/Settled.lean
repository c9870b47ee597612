import StaticSite.Proofs.Svg.Pruning
import StaticSite.Proofs.Xml.Document

namespace StaticSite.Svg
open StaticSite.Xml

namespace Optimizer

variable (o : Optimizer)

/-- An event that is written as it was read. -/
structure Settled (e : Event) : Prop where
  keeps : o.keeps e = true
  tag : ∀ closed t, e = .ofTag closed t →
    o.dropsElement t = false ∧ WellFormed t ∧ o.rewritten t = t

variable {o}

theorem selected_of_settled {es : List Event} (h : ∀ e ∈ es, o.Settled e) : o.selected es = es := by
  change o.remaining 0 es = es
  induction es with
  | nil => exact remaining_nil 0
  | cons e es ih =>
    obtain ⟨⟨hkeeps, htag⟩, hes⟩ := List.forall_mem_cons.mp h
    have hrest := ih hes
    cases e with
    | opening t => exact (remaining_tag false (htag false t rfl).1 es).trans (congrArg _ hrest)
    | empty t => exact (remaining_tag true (htag true t rfl).1 es).trans (congrArg _ hrest)
    | closing name => rw [remaining_closing, hrest]
    | _ => rw [remaining_plain (plain_of_isLeaf rfl rfl), if_pos hkeeps, hrest]

theorem writtenAs_of_settled {e : Event} (h : o.Settled e) : o.writtenAs e = e := by
  cases htag : e.isTag with
  | true =>
    obtain ⟨closed, t, rfl⟩ := exists_ofTag htag
    rw [writtenAs_ofTag, (h.tag closed t rfl).2.2]
  | false => exact writtenAs_of_isTag htag

theorem optimize_of_settled {source : List Char} {es : List Event}
    (hread : Reading.ofText source = ⟨es, none⟩) (hclosed : openNames [] es = some [])
    (h : ∀ e ∈ es, o.Settled e) : o.optimize source = .ok (render es) := by
  have hwritten : es.map o.writtenAs = es :=
    (List.map_congr_left fun e he => writtenAs_of_settled (h e he)).trans (List.map_id es)
  have hrewrite : o.rewriteEvents es = .ok es :=
    rewriteEvents_eq_ok_iff.mpr ⟨fun closed t ht => ((h _ ht).tag closed t rfl).2.1, hwritten.symm⟩
  refine optimize_eq_ok_iff_reading.mpr ?_
  rw [hread]
  exact ⟨rfl, hclosed, es, by rw [selected_of_settled h, hrewrite], rfl⟩

theorem settled_of_isTag {e : Event} (h : e.isTag = false) : o.Settled e ↔ o.keeps e = true :=
  ⟨Settled.keeps, fun hkeeps => ⟨hkeeps, fun closed t heq => absurd heq (e.ne_ofTag h closed t)⟩⟩

theorem isIndentation_append {cs ds : List Char} (h : isIndentation (cs ++ ds) = true) :
    isIndentation cs = true ∨ isIndentation ds = true := by
  simp only [isIndentation, List.contains_eq_mem, List.mem_append, List.all_append, Bool.and_eq_true,
    decide_eq_true_eq] at h ⊢
  obtain ⟨hbreak | hbreak, hcs, hds⟩ := h
  · exact .inl ⟨hbreak, hcs⟩
  · exact .inr ⟨hbreak, hds⟩

theorem settled_text_append {cs ds : List Char} (hcs : o.Settled (.text cs))
    (hds : o.Settled (.text ds)) : o.Settled (.text (cs ++ ds)) := by
  rw [settled_of_isTag rfl] at hcs hds ⊢
  simp only [keeps, Bool.not_eq_true', Bool.and_eq_false_iff] at hcs hds ⊢
  rcases hcs with hdoes | hcs
  · exact .inl hdoes
  · rcases hds with hdoes | hds
    · exact .inl hdoes
    · refine .inr (Bool.eq_false_iff.mpr fun h => ?_)
      rcases isIndentation_append h with h | h
      · rw [hcs] at h
        cases h
      · rw [hds] at h
        cases h

theorem mem_of_mem_prune {f : Forest} {e : Event} (h : e ∈ (o.prune f).events) : e ∈ f.events := by
  rw [← selected_forest] at h
  exact o.mem_of_mem_selected h

structure Stays (o : Optimizer) (e : Event) : Prop where
  keeps : o.keeps e = true
  tag : ∀ closed t, e = .ofTag closed t → o.dropsElement t = false

theorem stays_ofTag {closed : Bool} {t : Tag} (h : o.dropsElement t = false) :
    o.Stays (.ofTag closed t) := by
  refine ⟨o.keeps_of_isTag (Event.isTag_ofTag closed t), ?_⟩
  intro kind u heq
  obtain ⟨-, rfl⟩ := Event.ofTag_injective heq
  exact h

theorem stays_of_isTag {e : Event} (h : e.isTag = false) (hkeeps : o.keeps e = true) :
    o.Stays e :=
  ⟨hkeeps, fun closed t heq => absurd heq (e.ne_ofTag h closed t)⟩

theorem stays_of_keepsLeaf {e : Event} (flat : e.isLeaf = true) (h : o.keepsLeaf e = true) :
    o.Stays e := by
  cases e with
  | opening | closing => cases flat
  | empty t => exact @stays_ofTag _ true _ (by simpa [keepsLeaf] using h)
  | _ => exact stays_of_isTag rfl h

theorem stays_of_mem_prune {f : Forest} {e : Event} (h : e ∈ (o.prune f).events) : o.Stays e := by
  induction f with
  | nil => cases h
  | element t content rest ihContent ihRest =>
    rw [prune] at h
    split at h
    · exact ihRest h
    · rename_i hdrops
      simp only [Forest.events, List.mem_cons, List.mem_append] at h
      rcases h with rfl | h | rfl | h
      · exact @stays_ofTag _ false _ (by simpa using hdrops)
      · exact ihContent h
      · exact stays_of_isTag rfl rfl
      · exact ihRest h
  | leaf d flat rest ih =>
    rw [prune] at h
    split at h
    · rename_i hkeeps
      rcases List.mem_cons.mp h with rfl | h
      · exact stays_of_keepsLeaf flat hkeeps
      · exact ih h
    · exact ih h

theorem kept_kept (as : List Attribute) : o.kept (o.kept as) = o.kept as :=
  List.filter_eq_self.mpr fun _ ha => (List.mem_filter.mp ha).2

theorem settled_writtenAs {e : Event} (hstays : o.Stays e)
    (htag : ∀ closed t, e = .ofTag closed t → WellFormed t ∧
      ∀ a ∈ o.kept t.attributes.attributes, '"' ∉ a.value) : o.Settled (o.writtenAs e) := by
  cases htagged : e.isTag with
  | false =>
    rw [writtenAs_of_isTag htagged]
    exact (settled_of_isTag htagged).mpr hstays.keeps
  | true =>
    obtain ⟨closed, t, rfl⟩ := exists_ofTag htagged
    obtain ⟨hformed, hvalues⟩ := htag closed t rfl
    have hread := attributes_rewritten (wellFormed_iff.mp hformed) hvalues
    rw [writtenAs_ofTag]
    refine ⟨o.keeps_of_isTag (Event.isTag_ofTag ..), ?_⟩
    intro kind u heq
    obtain ⟨rfl, rfl⟩ := Event.ofTag_injective heq
    refine ⟨hstays.tag closed t rfl, wellFormed_iff.mpr (by rw [hread]), ?_⟩
    rw [rewritten, hread, kept_kept]
    rfl

theorem mem_top_of_prune {f : Forest} {e : Event} {es : List Event} (hleaf : e.isLeaf = true)
    (h : (o.prune f).events = e :: es) : e ∈ f.top := by
  induction f with
  | nil => cases h
  | element t content rest _ ih =>
    rw [prune] at h
    split at h
    · exact List.mem_cons_of_mem _ (ih h)
    · obtain ⟨rfl, -⟩ := List.cons.inj h
      cases hleaf
  | leaf d flat rest ih =>
    rw [prune] at h
    split at h
    · obtain ⟨rfl, -⟩ := List.cons.inj h
      exact List.mem_cons_self ..
    · exact List.mem_cons_of_mem _ (ih h)

theorem legible_of_document {f : Forest} (hdocument : f.IsDocument)
    (hvalues : ∀ closed t, .ofTag closed t ∈ f.events →
      ∀ a ∈ t.attributes.attributes, '"' ∉ a.value) {e : Event} (he : e ∈ f.events) :
    o.Legible e := by
  cases htag : e.isTag with
  | false => cases e <;> trivial
  | true =>
    obtain ⟨closed, t, rfl⟩ := exists_ofTag htag
    obtain ⟨hname, as, hspells, hnodup, hkeys⟩ := hdocument.names closed t he
    have hread : t.attributes = ⟨as, none⟩ := attributes_eq_iff.mpr ⟨hspells, hnodup⟩
    have hplain : ∀ c ∈ t.name, isTagPlain c = true :=
      fun c hc => isTagPlain_of_isNamePart (isNamePart_of_isName hname c hc)
    have hplainKeys : ∀ a ∈ o.kept t.attributes.attributes, ∀ c ∈ a.key, isTagPlain c = true := by
      intro a ha c hc
      rw [hread] at ha
      exact isTagPlain_of_isNamePart
        (isNamePart_of_isName (hkeys a (List.mem_of_mem_filter ha)) c hc)
    exact legible_ofTag.mpr ((legibleTag_iff_of_plain (ne_nil_of_isName hname)
      (getLast?_of_isName hname) hplain hplainKeys).mpr
        fun a ha => hvalues closed t he a (List.mem_of_mem_filter ha))

theorem withoutMark_of_document {f : Forest} (hdocument : f.IsDocument)
    (hreads : ∀ e ∈ (o.prune f).events.map o.writtenAs, e.ReadsBack) :
    Reading.withoutMark (render ((o.prune f).events.map o.writtenAs)) =
      render ((o.prune f).events.map o.writtenAs) := by
  rcases withoutMark_render (fun e he _ => hreads e he) with hmark | ⟨cs, rest, hfirst, -⟩
  · exact hmark
  · obtain ⟨e, es, hpruned, he, -⟩ := List.map_eq_cons_iff.mp hfirst
    have htext : e = .text ('\ufeff' :: cs) := by
      cases e <;> cases he
      rfl
    rw [htext] at hpruned
    have hmisc := hdocument.isMisc_of_mem (mem_top_of_prune rfl hpruned) rfl
    simp only [Event.isMisc, List.all_cons, Bool.and_eq_true] at hmisc
    exact absurd hmisc.1 (by decide)

theorem optimize_render {fs : List Event} (hsettled : ∀ e ∈ fs, o.Settled e)
    (hreads : ∀ e ∈ fs, e.ReadsBack) (hclosed : openNames [] fs = some [])
    (hmark : Reading.withoutMark (render fs) = render fs) :
    o.optimize (render fs) = .ok (render fs) := by
  have hscan : Reading.scan (Reading.withoutMark (render fs)) = ⟨joined fs [], none⟩ := by
    have h := scan_render hreads []
    rwa [List.append_nil, scan_nil, ← hmark] at h
  -- Reading again only joins texts: the elements nest as before and each event is settled still.
  have hjoined : openNames [] (joined fs []) = some [] := by
    rw [← openNames_withoutText, withoutText_joined, ← withoutText_append, List.append_nil,
      openNames_withoutText]
    exact hclosed
  have hall : ∀ e ∈ joined fs [], o.Settled e :=
    forall_mem_joined (fun _ _ => settled_text_append) hsettled (by simp)
  have hsame : render (joined fs []) = render fs := by
    rw [render_joined, render_nil, List.append_nil]
  rw [← hsame]
  exact optimize_of_settled (hsame ▸ ofText_eq_of_openNames hscan hjoined) hjoined hall

/-- Reducing a document twice does no more than reducing it once. -/
theorem optimize_settles (o : Optimizer) {source output : List Char} {f : Forest}
    (hread : (Reading.ofText source).events = f.events) (hdocument : f.IsDocument)
    (hvalues : ∀ closed t, .ofTag closed t ∈ f.events →
      ∀ a ∈ t.attributes.attributes, '"' ∉ a.value)
    (h : o.optimize source = .ok output) : o.optimize output = .ok output := by
  obtain ⟨-, hclosed, fs, hrewrite, rfl⟩ := optimize_eq_ok_iff_reading.mp h
  rw [hread] at hclosed hrewrite
  have hnested := openNames_rewriteEvents hrewrite (o.openNames_selected hclosed)
  have hreads : ∀ e ∈ fs, e.ReadsBack := by
    refine readsBack_rewriteEvents hrewrite ?_ fun e he =>
      legible_of_document hdocument hvalues (o.mem_of_mem_selected he)
    intro e he
    refine @readsBack_of_mem_ofText source _ ?_
    rw [hread]
    exact o.mem_of_mem_selected he
  rw [selected_forest] at hrewrite
  obtain ⟨htags, rfl⟩ := rewriteEvents_eq_ok_iff.mp hrewrite
  refine optimize_render ?_ hreads hnested (withoutMark_of_document hdocument hreads)
  intro e he
  obtain ⟨d, hd, rfl⟩ := List.mem_map.mp he
  refine settled_writtenAs (stays_of_mem_prune hd) ?_
  rintro closed t rfl
  exact ⟨htags closed t hd, fun a ha =>
    hvalues closed t (mem_of_mem_prune hd) a (List.mem_of_mem_filter ha)⟩

def interrupted : List Char :=
  "<?xml version='1.0'?>\n<svg data-name='x' id='a'>a<!-- c -->\n b<metadata/>c &lt;</svg>\n".toList

def interruptedForest : Forest :=
  .leaf (.declaration "xml version='1.0'".toList) rfl (.leaf (.text ['\n']) (.refl true)
    (.element ⟨"svg".toList, " data-name='x' id='a'".toList⟩
      (.leaf (.text ['a']) rfl (.leaf (.comment " c ".toList) rfl (.leaf (.text "\n b".toList) rfl
        (.leaf (.empty ⟨"metadata".toList, []⟩) (.refl true) (.leaf (.text "c ".toList) rfl
          (.leaf (.reference "lt".toList) rfl .nil))))))
      (.leaf (.text ['\n']) (.refl true) .nil)))

theorem optimize_settles_interrupted :
    standard.optimize interrupted = .ok "<svg id=\"a\">a\n bc &lt;</svg>".toList ∧
      standard.optimize "<svg id=\"a\">a\n bc &lt;</svg>".toList =
        .ok "<svg id=\"a\">a\n bc &lt;</svg>".toList := by
  have hread : Reading.ofText interrupted = ⟨interruptedForest.events, none⟩ := by cbv
  have hsvg : Tag.attributes ⟨"svg".toList, " data-name='x' id='a'".toList⟩ =
      ⟨[⟨"data-name".toList, ['x']⟩, ⟨"id".toList, ['a']⟩], none⟩ := by
    cbv
  have hmetadata : Tag.attributes ⟨"metadata".toList, []⟩ = ⟨[], none⟩ := by cbv
  have htags : ∀ closed t, .ofTag closed t ∈ interruptedForest.events →
      t = ⟨"svg".toList, " data-name='x' id='a'".toList⟩ ∨ t = ⟨"metadata".toList, []⟩ := by
    intro closed t ht
    cases closed with
    | false => exact .inl (by simpa [interruptedForest, Forest.events, Event.ofTag] using ht)
    | true => exact .inr (by simpa [interruptedForest, Forest.events, Event.ofTag] using ht)
  have hdocument : interruptedForest.IsDocument := by
    refine ⟨⟨_, _, [.text ['\n']], show interruptedForest.top =
      [.declaration "xml version='1.0'".toList, .text ['\n']] ++
        .opening ⟨"svg".toList, " data-name='x' id='a'".toList⟩ :: [.text ['\n']] from rfl, rfl,
      by decide⟩, ?_⟩
    intro closed t ht
    rcases htags closed t ht with rfl | rfl
    · obtain ⟨hspells, hnodup⟩ := attributes_eq_iff.mp hsvg
      exact ⟨by decide, _, hspells, hnodup, by decide⟩
    · obtain ⟨hspells, hnodup⟩ := attributes_eq_iff.mp hmetadata
      exact ⟨by decide, _, hspells, hnodup, by decide⟩
  have hvalues : ∀ closed t, .ofTag closed t ∈ interruptedForest.events →
      ∀ a ∈ t.attributes.attributes, '"' ∉ a.value := by
    intro closed t ht
    rcases htags closed t ht with rfl | rfl
    · rw [hsvg]
      decide
    · rw [hmetadata]
      decide
  have hselected : standard.selected interruptedForest.events =
      [.opening ⟨"svg".toList, " data-name='x' id='a'".toList⟩, .text ['a'], .text "\n b".toList,
        .text "c ".toList, .reference "lt".toList, .closing "svg".toList] := by
    decide
  have hrewrite : standard.rewriteEvents
      [.opening ⟨"svg".toList, " data-name='x' id='a'".toList⟩, .text ['a'], .text "\n b".toList,
        .text "c ".toList, .reference "lt".toList, .closing "svg".toList] =
      .ok [.opening ⟨"svg".toList, " id=\"a\"".toList⟩, .text ['a'], .text "\n b".toList,
        .text "c ".toList, .reference "lt".toList, .closing "svg".toList] := by
    cbv
  have h : standard.optimize interrupted = .ok "<svg id=\"a\">a\n bc &lt;</svg>".toList :=
    optimize_of_rewriteEvents hread rfl
      ((congrArg standard.rewriteEvents hselected).trans hrewrite)
  exact ⟨h, optimize_settles standard (by rw [hread]) hdocument hvalues h⟩

end Optimizer

end StaticSite.Svg
