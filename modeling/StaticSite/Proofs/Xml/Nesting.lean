import StaticSite.Proofs.Xml.Seam

namespace StaticSite.Xml
open Reading

/-- The names of the elements that are open after some events, the innermost first, if each closing
tag names the innermost one. -/
def openNames : List (List Char) → List Event → Option (List (List Char))
  | stack, [] => some stack
  | stack, .opening t :: es => openNames (t.name :: stack) es
  | [], .closing _ :: _ => none
  | top :: stack, .closing name :: es => if top = name then openNames stack es else none
  | stack, _ :: es => openNames stack es

theorem openNames_append (stack : List (List Char)) (es fs : List Event) :
    openNames stack (es ++ fs) = (openNames stack es).bind (openNames · fs) := by
  fun_induction openNames stack es with
  | case1 => rfl
  | case2 stack t es ih => rw [List.cons_append, openNames, ih]
  | case3 => rfl
  | case4 stack name es ih => rw [List.cons_append, openNames, if_pos rfl, ih]
  | case5 top stack name es hne => rw [List.cons_append, openNames, if_neg hne]; rfl
  | case6 stack e es hopening hclosing hpop ih =>
    rw [List.cons_append, openNames, ih] <;> assumption

theorem openNames_withoutText (stack : List (List Char)) (es : List Event) :
    openNames stack (withoutText es) = openNames stack es := by
  fun_induction openNames stack es with
  | case1 => rfl
  | case2 stack t es ih => rw [withoutText_cons rfl, openNames, ih]
  | case3 => rw [withoutText_cons rfl, openNames]
  | case4 stack name es ih => rw [withoutText_cons rfl, openNames, if_pos rfl, ih]
  | case5 top stack name es hne => rw [withoutText_cons rfl, openNames, if_neg hne]
  | case6 stack e es hopening hclosing hpop ih =>
    cases htext : e.isText with
    | true => rw [withoutText_cons_of_isText htext, ih]
    | false => rw [withoutText_cons htext, openNames, ih] <;> assumption

theorem openNames_append_stack {stack out : List (List Char)} {es : List Event}
    (h : openNames stack es = some out) (outer : List (List Char)) :
    openNames (stack ++ outer) es = some (out ++ outer) := by
  fun_induction openNames stack es with
  | case1 =>
    obtain rfl := Option.some.inj h
    rfl
  | case2 stack t es ih => exact ih h
  | case3 => cases h
  | case4 stack name es ih => rw [List.cons_append, openNames, if_pos rfl, ih h]
  | case5 top stack name es hne => cases h
  | case6 stack e es hopening hclosing hpop ih =>
    rw [openNames, ih h]
    · exact hopening
    · rintro name - rfl
      cases stack with
      | nil => exact hclosing name rfl rfl
      | cons top stack => exact hpop top stack name rfl rfl
    · rintro top rest name - rfl
      cases stack with
      | nil => exact hclosing name rfl rfl
      | cons top stack => exact hpop top stack name rfl rfl

theorem nest_append {stack out : List (List Char)} {es : List Event}
    (h : openNames stack es = some out) (failure : Option ReadError) (fs : List Event) :
    nest failure stack (es ++ fs) =
      ⟨es ++ (nest failure out fs).events, (nest failure out fs).failure⟩ := by
  fun_induction openNames stack es with
  | case1 =>
    obtain rfl := Option.some.inj h
    rfl
  | case2 stack t es ih => rw [List.cons_append, nest, ih h]; rfl
  | case3 => cases h
  | case4 stack name es ih => rw [List.cons_append, nest, if_pos rfl, ih h]; rfl
  | case5 => cases h
  | case6 stack e es hopening hclosing hpop ih =>
    rw [List.cons_append, nest, ih h]
    · rfl
    all_goals assumption

theorem nest_of_openNames {stack out : List (List Char)} {es : List Event}
    (h : openNames stack es = some out) (failure : Option ReadError) :
    nest failure stack es = ⟨es, failure⟩ := by
  have hnest := nest_append h failure []
  rwa [nest, List.append_nil] at hnest

theorem openNames_of_nest {failure : Option ReadError} {stack : List (List Char)}
    {es : List Event} (h : (nest failure stack es).failure = none) :
    failure = none ∧ ∃ out, openNames stack es = some out := by
  fun_induction nest failure stack es with
  | case1 stack => exact ⟨h, stack, rfl⟩
  | case2 stack t es ih => exact ih h
  | case3 => cases h
  | case4 stack name es ih =>
    rw [openNames, if_pos rfl]
    exact ih h
  | case5 => cases h
  | case6 stack e es hopening hclosing hpop ih =>
    rw [openNames]
    · exact ih h
    all_goals assumption

theorem ofText_eq_of_failure {source : List Char} (h : (ofText source).failure = none) :
    (scan (withoutMark source)).failure = none ∧
      (ofText source).events = (scan (withoutMark source)).events ∧
      ∃ out, openNames [] (ofText source).events = some out := by
  obtain ⟨hscan, out, hout⟩ := openNames_of_nest h
  have hevents : (ofText source).events = (scan (withoutMark source)).events := by
    rw [ofText, nest_of_openNames hout]
  exact ⟨hscan, hevents, out, hevents ▸ hout⟩

theorem ofText_eq_of_openNames {source : List Char} {es : List Event} {out : List (List Char)}
    (hscan : scan (withoutMark source) = ⟨es, none⟩) (hout : openNames [] es = some out) :
    ofText source = ⟨es, none⟩ := by
  rw [ofText, hscan]
  exact nest_of_openNames hout none

theorem mem_of_mem_nest {failure : Option ReadError} {stack : List (List Char)}
    {es : List Event} {e : Event} (h : e ∈ (nest failure stack es).events) : e ∈ es := by
  fun_induction nest failure stack es with
  | case1 => cases h
  | case2 stack t es ih =>
    cases h with
    | head => exact List.mem_cons_self ..
    | tail _ h => exact List.mem_cons_of_mem _ (ih h)
  | case3 => cases h
  | case4 stack name es ih =>
    cases h with
    | head => exact List.mem_cons_self ..
    | tail _ h => exact List.mem_cons_of_mem _ (ih h)
  | case5 => cases h
  | case6 stack e es hopening hclosing hpop ih =>
    cases h with
    | head => exact List.mem_cons_self ..
    | tail _ h => exact List.mem_cons_of_mem _ (ih h)

theorem readsBack_of_mem_ofText {source : List Char} {e : Event}
    (h : e ∈ (ofText source).events) : e.ReadsBack :=
  readsBack_of_mem_scan (mem_of_mem_nest h)

theorem ofText_render {es : List Event} (hes : ∀ e ∈ es, e.ReadsBack) {out : List (List Char)}
    (hout : openNames [] es = some out) :
    ∃ fs, ofText (render es) = ⟨fs, none⟩ ∧ withoutText fs = withoutText es := by
  have hread {cs : List Char} {fs : List Event} (hplain : ∀ c ∈ cs, isPlain c = true)
      (hfs : ∀ e ∈ fs, e.ReadsBack) (htexts : withoutText fs = withoutText es)
      (hmark : withoutMark (render es) = cs ++ render fs) :
      ∃ fs, ofText (render es) = ⟨fs, none⟩ ∧ withoutText fs = withoutText es := by
    obtain ⟨gs, hgs, -, hscan⟩ := scan_render_append hfs hplain
      (show startsConstruct [] = true from rfl)
    rw [List.append_nil, scan_nil, List.append_nil, ← hmark] at hscan
    have hgsOut : openNames [] gs = some out := by
      rw [← openNames_withoutText, hgs, htexts, openNames_withoutText, hout]
    exact ⟨gs, ofText_eq_of_openNames hscan hgsOut, hgs.trans htexts⟩
  rcases withoutMark_render (fun e he _ => hes e he) with hmark | ⟨cs, fs, rfl, hmark⟩
  · exact @hread [] es (by simp) hes rfl hmark
  · have hcs := (Event.readsBack_text.mp (hes _ (List.mem_cons_self ..))).2
    exact hread (fun c hc => hcs c (List.mem_cons_of_mem _ hc))
      (fun e he => hes e (List.mem_cons_of_mem _ he)) rfl hmark

end StaticSite.Xml
