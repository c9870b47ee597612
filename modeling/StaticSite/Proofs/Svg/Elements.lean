import StaticSite.Proofs.Xml.Attributes
import StaticSite.Proofs.Xml.Nesting
import StaticSite.Svg.Optimizer

namespace StaticSite.Svg
open StaticSite.Xml

structure Element where
  path : List (List Char)
  name : List Char
  attributes : AttributeReading
  deriving DecidableEq, Repr

def isMetadataName (name : List Char) : Bool :=
  localName name = "metadata".toList

def Element.inMetadata (x : Element) : Bool :=
  (x.name :: x.path).any isMetadataName

def elements : List (List Char) → List Event → List Element
  | _, [] => []
  | path, .opening t :: es => ⟨path, t.name, t.attributes⟩ :: elements (t.name :: path) es
  | path, .empty t :: es => ⟨path, t.name, t.attributes⟩ :: elements path es
  | path, .closing _ :: es => elements path.tail es
  | path, _ :: es => elements path es

theorem elements_of_not_structural {e : Event} (htag : e.isTag = false)
    (hclosing : ∀ name, e ≠ .closing name) (path : List (List Char)) (es : List Event) :
    elements path (e :: es) = elements path es := by
  cases e with
  | opening | empty => cases htag
  | closing name => exact absurd rfl (hclosing name)
  | _ => rfl

theorem elements_withoutText (path : List (List Char)) (es : List Event) :
    elements path (withoutText es) = elements path es := by
  induction es generalizing path with
  | nil => rfl
  | cons e es ih =>
    cases htext : e.isText with
    | true =>
      rw [withoutText_cons_of_isText htext, ih]
      cases e with
      | text => rfl
      | _ => cases htext
    | false =>
      rw [withoutText_cons htext]
      cases e <;> simp only [elements, ih]

theorem elements_congr {path : List (List Char)} {es fs : List Event}
    (h : withoutText es = withoutText fs) : elements path es = elements path fs := by
  rw [← elements_withoutText, h, elements_withoutText]

theorem length_le_of_elements {path : List (List Char)} {es : List Event} {x : Element}
    {xs : List Element} (h : elements path es = x :: xs) : x.path.length ≤ path.length := by
  induction es generalizing path with
  | nil => cases h
  | cons e es ih =>
    cases e with
    | opening | empty =>
      obtain ⟨rfl, -⟩ := List.cons.inj h
      exact Nat.le_refl _
    | closing name =>
      have := ih h
      rw [List.length_tail] at this
      omega
    | _ => exact ih h

theorem elements_append {path out : List (List Char)} {es : List Event}
    (h : openNames path es = some out) (fs : List Event) :
    elements path (es ++ fs) = elements path es ++ elements out fs := by
  induction es generalizing path with
  | nil =>
    obtain rfl := Option.some.inj h
    rfl
  | cons e es ih =>
    cases e with
    | opening t =>
      rw [List.cons_append, elements, elements, List.cons_append]
      congr 1
      exact ih h
    | empty t =>
      rw [List.cons_append, elements, elements, List.cons_append]
      congr 1
      exact ih h
    | closing name =>
      cases path with
      | nil => cases h
      | cons top path =>
        simp only [openNames, Option.ite_none_right_eq_some] at h
        exact ih h.2
    | _ => exact ih h

theorem suffix_of_mem_elements {inner outer out : List (List Char)} {es : List Event}
    (h : openNames inner es = some out) {x : Element} (hx : x ∈ elements (inner ++ outer) es) :
    outer <:+ x.path := by
  induction es generalizing inner with
  | nil => cases hx
  | cons e es ih =>
    cases e with
    | opening t =>
      rcases List.mem_cons.mp hx with rfl | hx
      · exact List.suffix_append inner outer
      · exact @ih (t.name :: inner) h hx
    | empty t =>
      rcases List.mem_cons.mp hx with rfl | hx
      · exact List.suffix_append inner outer
      · exact @ih inner h hx
    | closing name =>
      cases inner with
      | nil => cases h
      | cons top inner =>
        simp only [openNames, Option.ite_none_right_eq_some] at h
        exact @ih inner h.2 hx
    | _ => exact @ih inner h hx

theorem openElements_eq_length {stack out : List (List Char)} {es : List Event}
    (h : openNames stack es = some out) : openElements stack.length es = out.length := by
  fun_induction openNames stack es with
  | case1 =>
    obtain rfl := Option.some.inj h
    rfl
  | case2 stack t es ih => exact ih h
  | case3 => cases h
  | case4 stack name es ih => exact ih h
  | case5 => cases h
  | case6 stack e es hopening hclosing hpop ih =>
    rw [openElements, ih h]
    · exact hopening
    · rintro name rfl
      cases stack with
      | nil => exact hclosing name rfl rfl
      | cons top stack => exact hpop top stack name rfl rfl

theorem inMetadata_of_mem {x : Element} {name : List Char} (hmem : name ∈ x.name :: x.path)
    (h : isMetadataName name = true) : x.inMetadata = true :=
  List.any_eq_true.mpr ⟨name, hmem, h⟩

theorem inMetadata_eq_false {x : Element} (hname : isMetadataName x.name = false)
    (hpath : ∀ name ∈ x.path, isMetadataName name = false) : x.inMetadata = false := by
  simp only [Element.inMetadata, List.any_cons, hname, Bool.false_or, List.any_eq_false]
  intro name hmem
  simp [hpath name hmem]

namespace Optimizer

variable (o : Optimizer)

theorem isMetadata_eq (t : Tag) : isMetadata t = isMetadataName t.name := rfl

theorem elements_outsideMetadata {inner outer : List (List Char)} {es : List Event}
    (houter : ∀ name ∈ outer, isMetadataName name = false)
    (hinner : ∀ name, inner.getLast? = some name → isMetadataName name = true) :
    elements outer (outsideMetadata inner.length es) =
      (elements (inner ++ outer) es).filter (!·.inMetadata) := by
  induction es generalizing inner outer with
  | nil => cases inner <;> rfl
  | cons e es ih =>
    cases inner with
    | nil =>
      have hkeep {t : Tag} (ht : isMetadataName t.name = false) :
          (!Element.inMetadata ⟨outer, t.name, t.attributes⟩) = true := by
        rw [inMetadata_eq_false ht houter]
        rfl
      have hdrop {t : Tag} (ht : isMetadataName t.name = true) :
          (!Element.inMetadata ⟨outer, t.name, t.attributes⟩) = false := by
        rw [inMetadata_of_mem (List.mem_cons_self ..) ht]
        rfl
      have hsame := @ih [] outer houter hinner
      cases e with
      | opening t =>
        rw [List.length_nil, outsideMetadata, isMetadata_eq, List.nil_append, elements,
          List.filter_cons]
        cases ht : isMetadataName t.name with
        | true =>
          rw [if_pos rfl, hdrop ht]
          exact @ih [t.name] outer houter (by simpa using ht)
        | false =>
          rw [if_neg Bool.false_ne_true, elements, hkeep ht, if_pos rfl]
          congr 1
          refine @ih [] (t.name :: outer) ?_ hinner
          simpa using ⟨ht, houter⟩
      | empty t =>
        rw [List.length_nil, outsideMetadata, isMetadata_eq, List.nil_append, elements,
          List.filter_cons]
        cases ht : isMetadataName t.name with
        | true =>
          rw [if_pos rfl, hdrop ht]
          exact hsame
        | false =>
          rw [if_neg Bool.false_ne_true, elements, hkeep ht, if_pos rfl]
          congr 1
      | closing name =>
        exact @ih [] outer.tail (fun x hx => houter x (List.mem_of_mem_tail hx)) hinner
      | _ => exact hsame
    | cons top inner =>
      obtain ⟨last, hlast⟩ : ∃ last, (top :: inner).getLast? = some last :=
        ⟨_, List.getLast?_eq_some_getLast (List.cons_ne_nil _ _)⟩
      have hdrop (t : Tag) :
          (!Element.inMetadata ⟨top :: inner ++ outer, t.name, t.attributes⟩) = false := by
        have hmem : last ∈ t.name :: (top :: inner ++ outer) :=
          List.mem_cons_of_mem _ (List.mem_append_left _ (List.mem_of_getLast? hlast))
        rw [inMetadata_of_mem hmem (hinner last hlast)]
        rfl
      have hsame := @ih (top :: inner) outer houter hinner
      cases e with
      | opening t =>
        rw [List.length_cons, outsideMetadata, elements, List.filter_cons, hdrop t]
        refine @ih (t.name :: top :: inner) outer houter ?_
        intro name hname
        rw [List.getLast?_cons_cons] at hname
        exact hinner name hname
      | empty t =>
        rw [List.length_cons, outsideMetadata, elements, List.filter_cons, hdrop t]
        · exact hsame
        · rintro t' hcontra
          cases hcontra
        · rintro name hcontra
          cases hcontra
      | closing name =>
        refine @ih inner outer houter ?_
        intro x hx
        cases inner with
        | nil => cases hx
        | cons a inner => exact hinner x (by rw [List.getLast?_cons_cons]; exact hx)
      | _ => exact hsame

theorem openNames_outsideMetadata {inner outer : List (List Char)} {es : List Event}
    (h : openNames (inner ++ outer) es = some []) :
    openNames outer (outsideMetadata inner.length es) = some [] := by
  induction es generalizing inner outer with
  | nil =>
    obtain ⟨rfl, rfl⟩ : inner = [] ∧ outer = [] := by simpa [openNames] using h
    rfl
  | cons e es ih =>
    cases inner with
    | nil =>
      cases e with
      | opening t =>
        rw [List.length_nil, outsideMetadata]
        split
        · exact @ih [t.name] outer h
        · exact @ih [] (t.name :: outer) h
      | empty t =>
        rw [List.length_nil, outsideMetadata]
        split
        · exact @ih [] outer h
        · exact @ih [] outer h
      | closing name =>
        cases outer with
        | nil => cases h
        | cons top outer =>
          simp only [List.nil_append, openNames, Option.ite_none_right_eq_some] at h
          rw [List.length_nil, outsideMetadata, openNames, if_pos h.1]
          · exact @ih [] outer h.2
          all_goals simp
      | _ => exact @ih [] outer h
    | cons top inner =>
      cases e with
      | opening t => exact @ih (t.name :: top :: inner) outer h
      | closing name =>
        simp only [List.cons_append, openNames, Option.ite_none_right_eq_some] at h
        exact @ih inner outer h.2
      | _ => exact @ih (top :: inner) outer h

def drops (x : Element) : Bool :=
  o.does .removeMetadata && x.inMetadata

def kept (as : List Attribute) : List Attribute :=
  as.filter (!o.strips ·)

def reduced (x : Element) : Element :=
  ⟨x.path, x.name, ⟨o.kept x.attributes.attributes, x.attributes.failure⟩⟩

theorem keeps_of_isTag {e : Event} (h : e.isTag = true) : o.keeps e = true := by
  cases e <;> first | rfl | cases h

theorem keeps_closing (name : List Char) : o.keeps (.closing name) = true := rfl

theorem elements_filter_keeps (path : List (List Char)) (es : List Event) :
    elements path (es.filter o.keeps) = elements path es := by
  induction es generalizing path with
  | nil => rfl
  | cons e es ih =>
    rw [List.filter_cons]
    split
    · cases e <;> simp only [elements, ih]
    · rename_i hdrop
      rw [ih, elements_of_not_structural]
      · cases htag : e.isTag with
        | true => exact absurd (o.keeps_of_isTag htag) hdrop
        | false => rfl
      · rintro name rfl
        exact hdrop (o.keeps_closing name)

theorem openNames_filter_keeps {stack out : List (List Char)} {es : List Event}
    (h : openNames stack es = some out) : openNames stack (es.filter o.keeps) = some out := by
  fun_induction openNames stack es with
  | case1 => exact h
  | case2 stack t es ih => exact ih h
  | case3 => cases h
  | case4 stack name es ih =>
    rw [List.filter_cons, if_pos (o.keeps_closing name), openNames, if_pos rfl]
    exact ih h
  | case5 => cases h
  | case6 stack e es hopening hclosing hpop ih =>
    rw [List.filter_cons]
    split
    · rw [openNames, ih h]
      all_goals assumption
    · exact ih h

theorem elements_selected (es : List Event) :
    elements [] (o.selected es) = (elements [] es).filter (!o.drops ·) := by
  rw [selected, elements_filter_keeps]
  cases hdoes : o.does .removeMetadata with
  | true =>
    rw [if_pos rfl, show (0 : Nat) = ([] : List (List Char)).length from rfl,
      elements_outsideMetadata (by simp) (by simp)]
    simp [drops, hdoes]
  | false => simp [drops, hdoes]

theorem openNames_selected {es : List Event} (h : openNames [] es = some []) :
    openNames [] (o.selected es) = some [] := by
  refine o.openNames_filter_keeps ?_
  split
  · exact @openNames_outsideMetadata [] [] es h
  · exact h

theorem mem_of_mem_outsideMetadata {depth : Nat} {es : List Event} {e : Event}
    (h : e ∈ outsideMetadata depth es) : e ∈ es := by
  fun_induction outsideMetadata depth es with
  | case1 => cases h
  | case2 t es ht ih => exact List.mem_cons_of_mem _ (ih h)
  | case4 t es ht ih => exact List.mem_cons_of_mem _ (ih h)
  | case7 depth t es ih => exact List.mem_cons_of_mem _ (ih h)
  | case8 depth name es ih => exact List.mem_cons_of_mem _ (ih h)
  | case9 depth d es hopening hclosing ih => exact List.mem_cons_of_mem _ (ih h)
  | case3 t es ht ih =>
    cases h with
    | head => exact List.mem_cons_self ..
    | tail _ h => exact List.mem_cons_of_mem _ (ih h)
  | case5 t es ht ih =>
    cases h with
    | head => exact List.mem_cons_self ..
    | tail _ h => exact List.mem_cons_of_mem _ (ih h)
  | case6 d es hopening hempty ih =>
    cases h with
    | head => exact List.mem_cons_self ..
    | tail _ h => exact List.mem_cons_of_mem _ (ih h)

theorem mem_of_mem_selected {es : List Event} {e : Event} (h : e ∈ o.selected es) : e ∈ es := by
  have hmem := (List.mem_filter.mp h).1
  split at hmem
  · exact mem_of_mem_outsideMetadata hmem
  · exact hmem

end Optimizer

end StaticSite.Svg
