import StaticSite.Proofs.Xml.Attributes
import StaticSite.Proofs.Xml.Nesting
import StaticSite.Svg.Root

namespace StaticSite.Svg
open StaticSite.Text StaticSite.Xml

theorem exists_openNames_nest (failure : Option ReadError) (stack : List (List Char))
    (es : List Event) :
    ∃ out, openNames stack (Reading.nest failure stack es).events = some out := by
  fun_induction Reading.nest failure stack es with
  | case1 stack => exact ⟨stack, rfl⟩
  | case2 stack t es ih => exact ih
  | case3 => exact ⟨[], rfl⟩
  | case4 stack name es ih =>
    obtain ⟨out, hout⟩ := ih
    refine ⟨out, ?_⟩
    change openNames (name :: stack) (.closing name :: _) = _
    rw [openNames, if_pos rfl, hout]
  | case5 top stack name es hne => exact ⟨top :: stack, rfl⟩
  | case6 stack e es hopening hclosing hpop ih =>
    obtain ⟨out, hout⟩ := ih
    refine ⟨out, ?_⟩
    change openNames stack (e :: _) = _
    rw [openNames, hout]
    · exact hopening
    · exact fun name hstack he => hclosing name hstack he
    · exact fun top rest name hstack he => hpop top rest name hstack he

theorem exists_openNames_ofText (source : List Char) :
    ∃ out, openNames [] (Reading.ofText source).events = some out :=
  exists_openNames_nest (Reading.scan (Reading.withoutMark source)).failure [] _

namespace Root

def tag? (source : List Char) : Option Tag :=
  match (Reading.ofText source).events.dropWhile (!isElement ·) with
  | .opening t :: _ | .empty t :: _ => some t
  | _ => none

def HasPlainKeys (source : List Char) : Prop :=
  ∀ t, tag? source = some t → ∀ a ∈ t.attributes.attributes, ∀ c ∈ a.key, isQuote c = false

theorem mem_of_contentOf {depth : Nat} {es content : List Event}
    (h : contentOf depth es = some content) : ∀ e ∈ content, e ∈ es := by
  have hcons {d e : Event} {ds es content : List Event} (hrest : ∀ e ∈ content, e ∈ ds)
      (he : e ∈ d :: content) : e ∈ d :: ds := by
    cases he with
    | head => exact List.mem_cons_self ..
    | tail _ he => exact List.mem_cons_of_mem _ (hrest e he)
  fun_induction contentOf depth es generalizing content with
  | case1 => cases h
  | case2 =>
    obtain rfl := Option.some.inj h
    simp
  | case3 depth name es ih =>
    obtain ⟨rest, hrest, rfl⟩ := Option.map_eq_some_iff.mp h
    exact fun e he => @hcons _ e es [] rest (ih hrest) he
  | case4 depth t es ih =>
    obtain ⟨rest, hrest, rfl⟩ := Option.map_eq_some_iff.mp h
    exact fun e he => @hcons _ e es [] rest (ih hrest) he
  | case5 depth d es hzero hsucc hopening ih =>
    obtain ⟨rest, hrest, rfl⟩ := Option.map_eq_some_iff.mp h
    exact fun e he => @hcons _ e es [] rest (ih hrest) he

theorem openNames_contentOf {inner outer out : List (List Char)} {es content : List Event}
    (h : contentOf inner.length es = some content)
    (hnested : openNames (inner ++ outer) es = some out) :
    openNames inner content = some [] := by
  induction es generalizing inner content with
  | nil => cases h
  | cons e es ih =>
    cases e with
    | closing name =>
      cases inner with
      | nil =>
        obtain rfl := Option.some.inj h
        rfl
      | cons top inner =>
        simp only [List.length_cons, contentOf] at h
        obtain ⟨rest, hrest, rfl⟩ := Option.map_eq_some_iff.mp h
        simp only [List.cons_append, openNames, Option.ite_none_right_eq_some] at hnested ⊢
        exact ⟨hnested.1, ih hrest hnested.2⟩
    | opening t =>
      simp only [contentOf] at h
      obtain ⟨rest, hrest, rfl⟩ := Option.map_eq_some_iff.mp h
      exact @ih (t.name :: inner) rest hrest hnested
    | _ =>
      simp only [contentOf] at h
      obtain ⟨rest, hrest, rfl⟩ := Option.map_eq_some_iff.mp h
      exact @ih inner rest hrest hnested

theorem contentOf_of_openNames {inner : List (List Char)} {es : List Event}
    (h : openNames inner es = some []) (name : List Char) (rest : List Event) :
    contentOf inner.length (es ++ .closing name :: rest) = some es := by
  induction es generalizing inner with
  | nil =>
    obtain rfl := Option.some.inj h
    rfl
  | cons e es ih =>
    cases e with
    | closing closed =>
      cases inner with
      | nil => cases h
      | cons top inner =>
        simp only [openNames, Option.ite_none_right_eq_some] at h
        rw [List.cons_append, List.length_cons, contentOf, ih h.2]
        rfl
    | opening t =>
      have hdeeper := @ih (t.name :: inner) h
      rw [List.length_cons] at hdeeper
      rw [List.cons_append, contentOf, hdeeper]
      rfl
    | _ =>
      rw [List.cons_append, contentOf, @ih inner h]
      · rfl
      all_goals simp

theorem ofText?_of_dropWhile {source name : List Char} {t : Tag} {inside rest : List Event}
    {viewBox : Option (List Char)} {namespaces : List (List Char × List Char)}
    (hfirst : (Reading.ofText source).events.dropWhile (!isElement ·) =
      .opening t :: (inside ++ .closing name :: rest))
    (hbalanced : openNames [] inside = some []) (hsvg : isSvg t = true)
    (hviewBox : viewBoxOf t = .ok viewBox) (hnamespaces : namespacesOf t = .ok namespaces) :
    ofText? source = .ok (some ⟨viewBox, render inside, namespaces⟩) := by
  have hcontent : contentOf 0 (inside ++ .closing name :: rest) = some inside :=
    contentOf_of_openNames hbalanced name rest
  simp only [ofText?, hfirst]
  simp only [hsvg, hviewBox, hnamespaces, hcontent, bind, Except.bind, ↓reduceIte]

theorem ofText?_of_events {source name : List Char} {t : Tag} {inside rest : List Event}
    {failure : Option ReadError} {viewBox : Option (List Char)}
    {namespaces : List (List Char × List Char)}
    (hread : Reading.ofText source =
      ⟨.opening t :: (inside ++ .closing name :: rest), failure⟩)
    (hbalanced : openNames [] inside = some []) (hsvg : isSvg t = true)
    (hviewBox : viewBoxOf t = .ok viewBox) (hnamespaces : namespacesOf t = .ok namespaces) :
    ofText? source = .ok (some ⟨viewBox, render inside, namespaces⟩) :=
  ofText?_of_dropWhile (by rw [hread]; rfl) hbalanced hsvg hviewBox hnamespaces

theorem namespacesOf_eq_ok {t : Tag} {namespaces : List (List Char × List Char)}
    (h : namespacesOf t = .ok namespaces) :
    ∃ as, t.attributes = ⟨as, none⟩ ∧ namespaces = as.filterMap namespaceOf := by
  unfold namespacesOf at h
  split at h
  · cases h
  · rename_i as hread
    exact ⟨as, hread, (Except.ok.inj h).symm⟩

theorem exists_append_of_dropWhile {es rest : List Event} {e : Event}
    (h : es.dropWhile (!isElement ·) = e :: rest) : ∃ front, es = front ++ e :: rest :=
  ⟨es.takeWhile (!isElement ·), by rw [← h, List.takeWhile_append_dropWhile]⟩

theorem ofText?_eq_some {source : List Char} {root : Root} (h : ofText? source = .ok (some root)) :
    ∃ t as closed es, tag? source = some t ∧ t.attributes = ⟨as, none⟩ ∧ t.Closes closed ∧
      root.namespaces = as.filterMap namespaceOf ∧ root.inner = render es ∧
      (∀ e ∈ es, e.ReadsBack) ∧ openNames [] es = some [] := by
  have hreads : ∀ e ∈ (Reading.ofText source).events, e.ReadsBack := fun e he =>
    readsBack_of_mem_ofText he
  simp only [ofText?] at h
  split at h
  · rename_i t es hfirst
    have htag : tag? source = some t := by rw [tag?, hfirst]
    obtain ⟨front, hevents⟩ := exists_append_of_dropWhile hfirst
    split at h
    · simp only [bind_eq_ok_iff] at h
      obtain ⟨viewBox, -, namespaces, hnamespaces, h⟩ := h
      obtain ⟨as, has, rfl⟩ := namespacesOf_eq_ok hnamespaces
      split at h
      · rename_i content hcontent
        obtain rfl := Option.some.inj (Except.ok.inj h)
        obtain ⟨out, hout⟩ := exists_openNames_ofText source
        rw [hevents, openNames_append] at hout
        obtain ⟨stack, -, hout⟩ := Option.bind_eq_some_iff.mp hout
        have hcloses : t.Closes false :=
          closes_of_readsBack (show (Event.ofTag false t).ReadsBack from
            hreads (.opening t) (by simp [hevents]))
        refine ⟨t, as, false, content, htag, has, hcloses, rfl, rfl, ?_, ?_⟩
        · intro e he
          refine hreads e ?_
          rw [hevents]
          exact List.mem_append_right _ (List.mem_cons_of_mem _ (mem_of_contentOf hcontent e he))
        · exact @openNames_contentOf [] (t.name :: stack) out es content hcontent hout
      · cases h
      · cases h
    · cases h
  · rename_i t es hfirst
    have htag : tag? source = some t := by rw [tag?, hfirst]
    obtain ⟨front, hevents⟩ := exists_append_of_dropWhile hfirst
    split at h
    · simp only [bind_eq_ok_iff] at h
      obtain ⟨viewBox, -, namespaces, hnamespaces, h⟩ := h
      obtain ⟨as, has, rfl⟩ := namespacesOf_eq_ok hnamespaces
      obtain rfl := Option.some.inj (Except.ok.inj h)
      have hcloses : t.Closes true :=
        closes_of_readsBack (show (Event.ofTag true t).ReadsBack from
          hreads (.empty t) (by simp [hevents]))
      exact ⟨t, as, true, [], htag, has, hcloses, rfl, rfl, by simp, rfl⟩
    · cases h
  · split at h <;> cases h

theorem namespaceOf_eq_some_iff {a : Attribute} {name uri : List Char} :
    namespaceOf a = some (name, uri) ↔
      a.key = "xmlns:".toList ++ name ∧ unescape a.value = .ok uri := by
  unfold namespaceOf
  rw [← after?_eq_some_iff]
  cases after? "xmlns:".toList a.key <;> cases unescape a.value <;> simp

theorem namespaces_sublist (as : List Attribute) :
    ((as.filterMap namespaceOf).map fun p => "xmlns:".toList ++ p.1).Sublist (as.map (·.key)) := by
  induction as with
  | nil => exact .slnil
  | cons a as ih =>
    rw [List.filterMap_cons]
    split
    · exact ih.cons _
    · rename_i p hp
      rw [List.map_cons, List.map_cons, ← (namespaceOf_eq_some_iff.mp hp).1]
      exact ih.cons_cons _

end Root

end StaticSite.Svg
