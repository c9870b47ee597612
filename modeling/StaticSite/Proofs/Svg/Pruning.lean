import StaticSite.Proofs.Svg.Pass

namespace StaticSite.Svg
open StaticSite.Xml

def WellFormed (t : Tag) : Prop :=
  ∃ as, Spells t.attributeText as ∧ (as.map (·.key)).Nodup

theorem wellFormed_iff {t : Tag} : WellFormed t ↔ t.attributes.failure = none := by
  constructor
  · rintro ⟨as, hspells⟩
    rw [attributes_eq_iff.mpr hspells]
  · intro h
    exact ⟨t.attributes.attributes, attributes_eq_iff.mp (by rw [← h])⟩

namespace Optimizer

variable (o : Optimizer)

def keepsLeaf : Event → Bool
  | .empty t => !o.dropsElement t
  | e => o.keeps e

def prune : Forest → Forest
  | .nil => .nil
  | .element t content rest =>
    if o.dropsElement t then prune rest else .element t (prune content) (prune rest)
  | .leaf e flat rest => if o.keepsLeaf e then .leaf e flat (prune rest) else prune rest

def writtenAs : Event → Event
  | .opening t => .opening (o.rewritten t)
  | .empty t => .empty (o.rewritten t)
  | e => e

variable {o}

theorem outsideMetadata_inside (f : Forest) (depth : Nat) (es : List Event) :
    outsideMetadata (depth + 1) (f.events ++ es) = outsideMetadata (depth + 1) es := by
  induction f generalizing depth es with
  | nil => rfl
  | element t content rest ihContent ihRest =>
    rw [Forest.events, List.cons_append, outsideMetadata, List.append_assoc, ihContent,
      List.cons_append, outsideMetadata, ihRest]
  | leaf e flat rest ih =>
    rw [Forest.events, List.cons_append]
    cases e with
    | opening | closing => cases flat
    | _ => rw [outsideMetadata, ih] <;> simp

theorem remaining_element {t : Tag} (content : Forest) (es : List Event) :
    o.remaining 0 (.opening t :: (content.events ++ .closing t.name :: es)) =
      if o.dropsElement t then o.remaining 0 es
      else .opening t :: o.remaining 0 (content.events ++ .closing t.name :: es) := by
  cases hdrops : o.dropsElement t with
  | true =>
    have hdoes : o.does .removeMetadata = true := by
      simp only [dropsElement, Bool.and_eq_true] at hdrops
      exact hdrops.1
    rw [(remaining_of_dropsElement hdrops _).1, if_pos rfl, remaining, remaining, if_pos hdoes,
      if_pos hdoes, outsideMetadata_inside, outsideMetadata]
  | false =>
    rw [if_neg Bool.false_ne_true]
    exact remaining_tag false hdrops _

theorem remaining_leaf {e : Event} (flat : e.isLeaf = true) (es : List Event) :
    o.remaining 0 (e :: es) = if o.keepsLeaf e then e :: o.remaining 0 es else o.remaining 0 es := by
  cases e with
  | opening | closing => cases flat
  | empty t =>
    cases hdrops : o.dropsElement t with
    | true => rw [(remaining_of_dropsElement hdrops es).2, if_neg (by simp [keepsLeaf, hdrops])]
    | false =>
      rw [if_pos (by simp [keepsLeaf, hdrops])]
      exact remaining_tag true hdrops es
  | _ => exact remaining_plain (plain_of_isLeaf flat rfl) es

theorem remaining_forest (f : Forest) (es : List Event) :
    o.remaining 0 (f.events ++ es) = (o.prune f).events ++ o.remaining 0 es := by
  induction f generalizing es with
  | nil => rfl
  | element t content rest ihContent ihRest =>
    rw [Forest.events, List.cons_append, List.append_assoc, List.cons_append, remaining_element,
      prune]
    split
    · exact ihRest es
    · rw [ihContent, remaining_closing, ihRest, Forest.events, List.cons_append, List.append_assoc,
        List.cons_append]
  | leaf e flat rest ih =>
    rw [Forest.events, List.cons_append, remaining_leaf flat, prune]
    split
    · rw [ih, Forest.events, List.cons_append]
    · exact ih es

theorem selected_forest (f : Forest) : o.selected f.events = (o.prune f).events := by
  have h := remaining_forest (o := o) f []
  rwa [remaining_nil, List.append_nil, List.append_nil] at h

theorem writtenAs_ofTag (closed : Bool) (t : Tag) :
    o.writtenAs (.ofTag closed t) = .ofTag closed (o.rewritten t) := by
  cases closed <;> rfl

theorem writtenAs_of_isTag {e : Event} (h : e.isTag = false) : o.writtenAs e = e := by
  cases e with
  | opening | empty => cases h
  | _ => rfl

theorem rewriteEvent_eq_ok_iff {e f : Event} :
    o.rewriteEvent e = .ok f ↔
      (∀ closed t, e = .ofTag closed t → t.attributes.failure = none) ∧ f = o.writtenAs e := by
  cases htag : e.isTag with
  | false =>
    rw [rewriteEvent_of_isTag htag, writtenAs_of_isTag htag, Except.ok.injEq, eq_comm]
    exact ⟨fun h => ⟨fun closed t heq => absurd heq (Event.ne_ofTag htag closed t), h⟩, And.right⟩
  | true =>
    obtain ⟨closed, t, rfl⟩ := exists_ofTag htag
    rw [writtenAs_ofTag]
    constructor
    · intro h
      obtain ⟨hfailure, rfl⟩ := rewriteEvent_ofTag h
      refine ⟨?_, rfl⟩
      rintro kind u heq
      obtain ⟨-, rfl⟩ := Event.ofTag_injective heq
      exact hfailure
    · rintro ⟨hall, rfl⟩
      have hread : o.rewriteTag t = .ok (o.rewritten t) :=
        rewriteTag_eq_ok_iff.mpr ⟨hall closed t rfl, rfl⟩
      cases closed <;> simp [Event.ofTag, rewriteEvent, hread, Except.map]

theorem rewriteEvents_eq_ok_iff {es fs : List Event} :
    o.rewriteEvents es = .ok fs ↔
      (∀ closed t, .ofTag closed t ∈ es → WellFormed t) ∧ fs = es.map o.writtenAs := by
  induction es generalizing fs with
  | nil => simp [rewriteEvents, eq_comm]
  | cons e es ih =>
    simp only [rewriteEvents, bind_eq_ok_iff, rewriteEvent_eq_ok_iff, ih, Except.ok.injEq,
      wellFormed_iff, List.mem_cons, List.map_cons]
    constructor
    · rintro ⟨f, ⟨hfirst, rfl⟩, gs, ⟨hrest, rfl⟩, rfl⟩
      refine ⟨?_, rfl⟩
      rintro closed t (heq | hmem)
      · exact hfirst closed t heq.symm
      · exact hrest closed t hmem
    · rintro ⟨hall, rfl⟩
      exact ⟨_, ⟨fun closed t heq => hall closed t (.inl heq.symm), rfl⟩, _,
        ⟨fun closed t hmem => hall closed t (.inr hmem), rfl⟩, rfl⟩

theorem optimize_eq_ok_iff_reading {source output : List Char} :
    o.optimize source = .ok output ↔ (Reading.ofText source).failure = none ∧
      openNames [] (Reading.ofText source).events = some [] ∧
        ∃ fs, o.rewriteEvents (o.selected (Reading.ofText source).events) = .ok fs ∧
          output = render fs := by
  constructor
  · intro h
    obtain ⟨fs, hfs, rfl, hclosed⟩ := optimize_eq_ok h
    refine ⟨?_, hclosed, fs, hfs, rfl⟩
    simp only [optimize, hfs] at h
    split at h
    · cases h
    · assumption
  · rintro ⟨hfailure, hclosed, fs, hfs, rfl⟩
    refine optimize_of_rewriteEvents ?_ (openElements_eq_length hclosed) hfs
    rw [← hfailure]

/-- An optimizer is one pass that counts depths, and what the pass writes is its source's tree with
the metadata cut out and every other event kept or dropped by itself. -/
theorem optimize_prunes (o : Optimizer) (source : List Char) :
    o.optimize source = o.reduce source ∧
    ((∃ output, o.optimize source = .ok output) ↔
      (Reading.ofText source).failure = none ∧
        ∃ f : Forest, f.events = (Reading.ofText source).events ∧
          ∀ closed t, .ofTag closed t ∈ (o.prune f).events → WellFormed t) ∧
    (∀ (f : Forest) output, f.events = (Reading.ofText source).events →
      o.optimize source = .ok output →
        ∃ p, o.run f.events = .ok p ∧ p.written = (o.prune f).events.map o.writtenAs ∧
          output = render p.written) ∧
    ∀ front back p, (Reading.ofText source).events = front ++ back → o.run front = .ok p →
      p.depth + front.countP Event.isClosing = front.countP Event.isOpening ∧
        ∀ name rest, back = .closing name :: rest → 0 < p.depth := by
  refine ⟨optimize_eq_reduce source, ⟨?_, ?_⟩, ?_, fun front back p => depth_of_run⟩
  · rintro ⟨output, h⟩
    obtain ⟨hfailure, hclosed, fs, hfs, -⟩ := optimize_eq_ok_iff_reading.mp h
    obtain ⟨f, hf⟩ := exists_forest_iff.mpr hclosed
    rw [← hf, selected_forest] at hfs
    exact ⟨hfailure, f, hf, (rewriteEvents_eq_ok_iff.mp hfs).1⟩
  · rintro ⟨hfailure, f, hf, htags⟩
    refine ⟨render ((o.prune f).events.map o.writtenAs), optimize_eq_ok_iff_reading.mpr
      ⟨hfailure, exists_forest_iff.mp ⟨f, hf⟩, _, ?_, rfl⟩⟩
    rw [← hf, selected_forest]
    exact rewriteEvents_eq_ok_iff.mpr ⟨htags, rfl⟩
  · intro f output hf h
    obtain ⟨-, -, fs, hfs, rfl⟩ := optimize_eq_ok_iff_reading.mp h
    rw [← hf] at hfs
    obtain ⟨p, hrun, -, rfl⟩ := run_eq_ok_iff.mpr ⟨hfs, rfl⟩
    rw [selected_forest] at hfs
    exact ⟨p, hrun, (rewriteEvents_eq_ok_iff.mp hfs).2, rfl⟩

def nestedMetadata : List Char :=
  "<svg><metadata><a><metadata/></a>\n</metadata><metadata/><g data-name='x' d='y'/>\n</svg>".toList

def nestedForest : Forest :=
  .element ⟨"svg".toList, []⟩
    (.element ⟨"metadata".toList, []⟩
      (.element ⟨"a".toList, []⟩ (.leaf (.empty ⟨"metadata".toList, []⟩) rfl .nil)
        (.leaf (.text ['\n']) rfl .nil))
      (.leaf (.empty ⟨"metadata".toList, []⟩) rfl
        (.leaf (.empty ⟨"g".toList, " data-name='x' d='y'".toList⟩) rfl
          (.leaf (.text ['\n']) rfl .nil)))) .nil

theorem optimize_prunes_nested :
    standard.optimize nestedMetadata = .ok "<svg><g d=\"y\"/></svg>".toList ∧
      ∃ p, standard.run nestedForest.events = .ok p ∧
        p.written = [.opening ⟨"svg".toList, []⟩, .empty ⟨"g".toList, " d=\"y\"".toList⟩,
          .closing "svg".toList] := by
  have hread : Reading.ofText nestedMetadata = ⟨nestedForest.events, none⟩ := by cbv
  have hpruned : (standard.prune nestedForest).events =
      [.opening ⟨"svg".toList, []⟩, .empty ⟨"g".toList, " data-name='x' d='y'".toList⟩,
        .closing "svg".toList] := by
    decide
  have hsvg : Tag.attributes ⟨"svg".toList, []⟩ = ⟨[], none⟩ := by cbv
  have hg : Tag.attributes ⟨"g".toList, " data-name='x' d='y'".toList⟩ =
      ⟨[⟨"data-name".toList, ['x']⟩, ⟨['d'], ['y']⟩], none⟩ := by
    cbv
  have hwritten : (standard.prune nestedForest).events.map standard.writtenAs =
      [.opening ⟨"svg".toList, []⟩, .empty ⟨"g".toList, " d=\"y\"".toList⟩,
        .closing "svg".toList] := by
    rw [hpruned]
    simp only [List.map_cons, List.map_nil, writtenAs, rewritten, hsvg, hg]
    decide
  have htags : ∀ closed t, .ofTag closed t ∈ (standard.prune nestedForest).events →
      WellFormed t := by
    intro closed t ht
    rw [hpruned] at ht
    cases closed with
    | false =>
      obtain rfl : t = ⟨"svg".toList, []⟩ := by simpa [Event.ofTag] using ht
      exact wellFormed_iff.mpr (by rw [hsvg])
    | true =>
      obtain rfl : t = ⟨"g".toList, " data-name='x' d='y'".toList⟩ := by
        simpa [Event.ofTag] using ht
      exact wellFormed_iff.mpr (by rw [hg])
  obtain ⟨-, hok, hevents, -⟩ := optimize_prunes standard nestedMetadata
  obtain ⟨output, houtput⟩ := hok.mpr ⟨by rw [hread], nestedForest, by rw [hread], htags⟩
  obtain ⟨p, hrun, hp, rfl⟩ := hevents nestedForest output (by rw [hread]) houtput
  rw [hwritten] at hp
  refine ⟨?_, p, hrun, hp⟩
  rw [houtput, hp]
  decide

end Optimizer

end StaticSite.Svg
