import StaticSite.Proofs.Xml.Nesting

namespace StaticSite.Xml

def Event.isLeaf : Event → Bool
  | .opening _ | .closing _ => false
  | _ => true

inductive Forest where
  | nil
  | element (tag : Tag) (content rest : Forest)
  | leaf (e : Event) (flat : e.isLeaf = true) (rest : Forest)

namespace Forest

def events : Forest → List Event
  | nil => []
  | element t content rest => .opening t :: (content.events ++ .closing t.name :: rest.events)
  | leaf e _ rest => e :: rest.events

def top : Forest → List Event
  | nil => []
  | element t _ rest => .opening t :: rest.top
  | leaf e _ rest => e :: rest.top

end Forest

theorem openNames_of_isLeaf {e : Event} (h : e.isLeaf = true) (stack : List (List Char))
    (es : List Event) : openNames stack (e :: es) = openNames stack es := by
  cases e with
  | opening | closing => cases h
  | _ => rw [openNames] <;> simp

theorem openNames_ofTag (stack : List (List Char)) (closed : Bool) (t : Tag) (es : List Event) :
    openNames stack (.ofTag closed t :: es) =
      openNames (if closed then stack else t.name :: stack) es := by
  cases closed with
  | false => rfl
  | true => exact openNames_of_isLeaf rfl stack es

theorem openNames_forest (f : Forest) (stack : List (List Char)) (es : List Event) :
    openNames stack (f.events ++ es) = openNames stack es := by
  induction f generalizing stack es with
  | nil => rfl
  | element t content rest ihContent ihRest =>
    rw [Forest.events, List.cons_append, openNames, List.append_assoc, ihContent, List.cons_append,
      openNames, if_pos rfl, ihRest]
  | leaf e flat rest ih => rw [Forest.events, List.cons_append, openNames_of_isLeaf flat, ih]

def ClosesAll : List (List Char) → List Event → Prop
  | [], es => ∃ f : Forest, f.events = es
  | name :: stack, es => ∃ (f : Forest) (rest : List Event),
    es = f.events ++ .closing name :: rest ∧ ClosesAll stack rest

theorem ClosesAll.leaf {e : Event} (flat : e.isLeaf = true) {stack : List (List Char)}
    {es : List Event} (h : ClosesAll stack es) : ClosesAll stack (e :: es) := by
  cases stack with
  | nil =>
    obtain ⟨f, rfl⟩ := h
    exact ⟨.leaf e flat f, rfl⟩
  | cons name stack =>
    obtain ⟨f, rest, rfl, hrest⟩ := h
    exact ⟨.leaf e flat f, rest, rfl, hrest⟩

theorem ClosesAll.opening {t : Tag} {stack : List (List Char)} {es : List Event}
    (h : ClosesAll (t.name :: stack) es) : ClosesAll stack (.opening t :: es) := by
  obtain ⟨content, rest, rfl, hrest⟩ := h
  cases stack with
  | nil =>
    obtain ⟨f, rfl⟩ := hrest
    exact ⟨.element t content f, rfl⟩
  | cons name stack =>
    obtain ⟨f, others, rfl, hothers⟩ := hrest
    refine ⟨.element t content f, others, ?_, hothers⟩
    simp only [Forest.events, List.cons_append, List.append_assoc]

theorem closesAll_of_openNames {stack : List (List Char)} {es : List Event}
    (h : openNames stack es = some []) : ClosesAll stack es := by
  induction es generalizing stack with
  | nil =>
    obtain rfl := Option.some.inj h
    exact ⟨.nil, rfl⟩
  | cons e es ih =>
    cases hleaf : e.isLeaf with
    | true =>
      rw [openNames_of_isLeaf hleaf] at h
      exact (ih h).leaf hleaf
    | false =>
      cases e with
      | opening t => exact (ih h).opening
      | closing name =>
        cases stack with
        | nil => cases h
        | cons top stack =>
          simp only [openNames, Option.ite_none_right_eq_some] at h
          obtain ⟨rfl, hrest⟩ := h
          exact ⟨.nil, es, rfl, ih hrest⟩
      | _ => cases hleaf

theorem exists_forest_iff {es : List Event} :
    (∃ f : Forest, f.events = es) ↔ openNames [] es = some [] := by
  constructor
  · rintro ⟨f, rfl⟩
    have h := openNames_forest f [] []
    rwa [List.append_nil] at h
  · exact closesAll_of_openNames

def Event.isOpening : Event → Bool
  | .opening _ => true
  | _ => false

def Event.isClosing : Event → Bool
  | .closing _ => true
  | _ => false

theorem length_add_countP {stack out : List (List Char)} {es : List Event}
    (h : openNames stack es = some out) :
    out.length + es.countP Event.isClosing = stack.length + es.countP Event.isOpening := by
  induction es generalizing stack with
  | nil =>
    obtain rfl := Option.some.inj h
    rfl
  | cons e es ih =>
    cases hleaf : e.isLeaf with
    | true =>
      rw [openNames_of_isLeaf hleaf] at h
      have hneither : e.isOpening = false ∧ e.isClosing = false := by
        cases e <;> first | exact ⟨rfl, rfl⟩ | cases hleaf
      rw [List.countP_cons_of_neg (by simp [hneither]), List.countP_cons_of_neg (by simp [hneither])]
      exact ih h
    | false =>
      cases e with
      | opening t =>
        have := @ih (t.name :: stack) h
        rw [List.length_cons] at this
        rw [List.countP_cons_of_neg (by simp [Event.isClosing]),
          List.countP_cons_of_pos (by simp [Event.isOpening])]
        omega
      | closing name =>
        cases stack with
        | nil => cases h
        | cons top stack =>
          simp only [openNames, Option.ite_none_right_eq_some] at h
          have := ih h.2
          rw [List.countP_cons_of_pos (by simp [Event.isClosing]),
            List.countP_cons_of_neg (by simp [Event.isOpening]), List.length_cons]
          omega
      | _ => cases hleaf

end StaticSite.Xml
