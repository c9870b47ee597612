import StaticSite.Proofs.Xml.Nesting
import StaticSite.Svg.Standalone

namespace StaticSite.Svg
open StaticSite.Xml

def scopesAfter : List Scope → List Event → Except StandaloneError (List Scope)
  | scopes, [] => .ok scopes
  | scopes, .opening t :: es =>
    match checkTag (scopes.headD .base) t with
    | .error e => .error e
    | .ok inner => scopesAfter (inner :: scopes) es
  | scopes, .empty t :: es =>
    match checkTag (scopes.headD .base) t with
    | .error e => .error e
    | .ok _ => scopesAfter scopes es
  | scopes, .closing _ :: es => scopesAfter scopes.tail es
  | scopes, .reference name :: es =>
    if isDefined name then scopesAfter scopes es else .error (.undefinedEntity name)
  | scopes, _ :: es => scopesAfter scopes es

theorem checkEvents_eq (scopes : List Scope) (es : List Event) :
    checkEvents scopes es = (scopesAfter scopes es).map fun _ => () := by
  induction es generalizing scopes with
  | nil => rfl
  | cons e es ih =>
    cases e with
    | opening t =>
      rw [checkEvents, scopesAfter]
      cases checkTag (scopes.headD .base) t with
      | error e => rfl
      | ok inner => exact ih _
    | empty t =>
      rw [checkEvents, scopesAfter]
      cases checkTag (scopes.headD .base) t with
      | error e => rfl
      | ok inner => exact ih _
    | reference name =>
      rw [checkEvents, scopesAfter]
      split
      · exact ih _
      · rfl
    | _ => exact ih _

theorem checkEvents_eq_ok_iff {scopes : List Scope} {es : List Event} :
    checkEvents scopes es = .ok () ↔ ∃ out, scopesAfter scopes es = .ok out := by
  rw [checkEvents_eq]
  cases scopesAfter scopes es with
  | error e => simp [Except.map]
  | ok out => simp [Except.map]

theorem scopesAfter_append (scopes : List Scope) (es fs : List Event) :
    scopesAfter scopes (es ++ fs) = (scopesAfter scopes es).bind (scopesAfter · fs) := by
  induction es generalizing scopes with
  | nil => rfl
  | cons e es ih =>
    cases e with
    | opening t =>
      rw [List.cons_append, scopesAfter, scopesAfter]
      cases checkTag (scopes.headD .base) t with
      | error e => rfl
      | ok inner => exact ih _
    | empty t =>
      rw [List.cons_append, scopesAfter, scopesAfter]
      cases checkTag (scopes.headD .base) t with
      | error e => rfl
      | ok inner => exact ih _
    | reference name =>
      rw [List.cons_append, scopesAfter, scopesAfter]
      split
      · exact ih _
      · rfl
    | _ => exact ih _

theorem scopesAfter_append_eq_ok {scopes out : List Scope} {es fs : List Event}
    (h : scopesAfter scopes (es ++ fs) = .ok out) :
    ∃ between, scopesAfter scopes es = .ok between ∧ scopesAfter between fs = .ok out := by
  rw [scopesAfter_append] at h
  cases hes : scopesAfter scopes es with
  | error e =>
    rw [hes] at h
    cases h
  | ok between =>
    rw [hes] at h
    exact ⟨between, rfl, h⟩

theorem scopesAfter_withoutText (scopes : List Scope) (es : List Event) :
    scopesAfter scopes (withoutText es) = scopesAfter scopes es := by
  induction es generalizing scopes with
  | nil => rfl
  | cons e es ih =>
    cases htext : e.isText with
    | true =>
      rw [withoutText_cons_of_isText htext, ih]
      cases e with
      | text => rfl
      | _ => cases htext
    | false =>
      rw [withoutText_cons htext]
      cases e with
      | text => cases htext
      | opening | empty | reference => simp only [scopesAfter, ih]
      | _ => exact ih _

theorem scopesAfter_of_openNames {names left : List (List Char)} {es : List Event}
    (hnames : openNames names es = some left) {inner outer out : List Scope}
    (hlength : inner.length = names.length)
    (h : scopesAfter (inner ++ outer) es = .ok out) :
    ∃ rest, out = rest ++ outer ∧ rest.length = left.length := by
  fun_induction openNames names es generalizing inner with
  | case1 =>
    obtain rfl := Option.some.inj hnames
    obtain rfl := Except.ok.inj h
    exact ⟨inner, rfl, hlength⟩
  | case2 names t es ih =>
    rw [scopesAfter] at h
    split at h
    · cases h
    · rename_i scope _
      exact @ih hnames (scope :: inner) (by simp [hlength]) h
  | case3 => cases hnames
  | case4 names name es ih =>
    cases inner with
    | nil => cases hlength
    | cons scope inner => exact @ih hnames inner (by simpa using hlength) h
  | case5 => cases hnames
  | case6 names e es hopening hclosing hpop ih =>
    have hrest : scopesAfter (inner ++ outer) es = .ok out := by
      cases e with
      | opening t => exact (hopening t rfl).elim
      | closing name =>
        cases names with
        | nil => exact (hclosing name rfl rfl).elim
        | cons top names => exact (hpop top names name rfl rfl).elim
      | empty t =>
        rw [scopesAfter] at h
        split at h
        · cases h
        · exact h
      | reference name =>
        rw [scopesAfter] at h
        split at h
        · exact h
        · cases h
      | _ => exact h
    exact ih hnames hlength hrest

theorem scopesAfter_of_balanced {es : List Event} (hnames : openNames [] es = some [])
    {scopes out : List Scope} (h : scopesAfter scopes es = .ok out) : out = scopes := by
  obtain ⟨rest, rfl, hrest⟩ := @scopesAfter_of_openNames [] [] es hnames [] scopes out rfl h
  rw [List.eq_nil_of_length_eq_zero hrest, List.nil_append]

theorem checkStandalone_eq_ok_iff {markup : List Char} :
    checkStandalone markup = .ok () ↔
      (Reading.ofText markup).failure = none ∧
        ∃ out, scopesAfter [] (Reading.ofText markup).events = .ok out := by
  rw [← checkEvents_eq_ok_iff]
  simp only [checkStandalone]
  cases checkEvents [] (Reading.ofText markup).events with
  | error e => simp
  | ok u =>
    cases (Reading.ofText markup).failure with
    | none => simp
    | some e => simp

end StaticSite.Svg
