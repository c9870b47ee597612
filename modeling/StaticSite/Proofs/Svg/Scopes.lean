import StaticSite.Proofs.Svg.Standalone
import StaticSite.Proofs.Xml.Attributes

namespace StaticSite.Xml
open StaticSite.Text

namespace Scope

def Covers (scope other : Scope) : Prop :=
  ∀ namePrefix, other.binds namePrefix = true → scope.binds namePrefix = true

theorem Covers.refl (scope : Scope) : Covers scope scope := fun _ => id

theorem Covers.append {scope other : Scope} (h : Covers scope other) (front : Scope) :
    Covers (front ++ scope) (front ++ other) := by
  intro namePrefix hbinds
  have hinner := h namePrefix
  simp only [binds, List.find?_append] at hbinds hinner ⊢
  cases hfind : front.find? (·.namePrefix = namePrefix) with
  | none =>
    simp only [hfind, Option.none_or] at hbinds ⊢
    exact hinner hbinds
  | some b =>
    simp only [hfind, Option.some_or] at hbinds ⊢
    exact hbinds

theorem covers_cons {namePrefix uri other : List Char} (huri : uri ≠ []) (scope : Scope) :
    Covers (⟨namePrefix, uri⟩ :: scope) (⟨namePrefix, other⟩ :: scope) := by
  intro p hbinds
  simp only [binds, Bool.and_eq_true] at hbinds ⊢
  refine ⟨hbinds.1, ?_⟩
  by_cases hp : namePrefix = p
  · rw [List.find?_cons_of_pos (by simpa using hp)]
    simpa using huri
  · rw [List.find?_cons_of_neg (by simpa using hp)] at hbinds ⊢
    exact hbinds.2

theorem undeclared?_of_covers {scope other : Scope} (h : Covers scope other) {name : List Char}
    (hname : other.undeclared? name = none) : scope.undeclared? name = none := by
  unfold undeclared? at hname ⊢
  cases hfirst : namePrefix? name with
  | none => rfl
  | some p =>
    rw [hfirst] at hname
    have hbinds : other.binds p = true := by simpa [Option.filter] using hname
    simp [Option.filter, h p hbinds]

def declared (a : Attribute) : Except BindingError Scope :=
  if a.key = "xmlns".toList then .ok [⟨[], a.value⟩]
  else
    match after? "xmlns:".toList a.key with
    | none => .ok []
    | some name =>
      if name = "xml".toList then
        if a.value = xmlNamespace then .ok [] else .error (.rebindsXml a.value)
      else if name = "xmlns".toList then .error (.rebindsXmlns a.value)
      else if a.value = xmlNamespace then .error (.otherPrefixForXml name)
      else if a.value = xmlnsNamespace then .error (.otherPrefixForXmlns name)
      else .ok [⟨name, a.value⟩]

theorem extend_cons (scope : Scope) (a : Attribute) (as : List Attribute) :
    scope.extend (a :: as) = (declared a).bind fun new => extend (new ++ scope) as := by
  rw [extend, declared]
  split
  · rfl
  · cases after? "xmlns:".toList a.key with
    | none => rfl
    | some name =>
      simp only
      repeat' split
      all_goals rfl

theorem extend_append (scope : Scope) (as bs : List Attribute) :
    scope.extend (as ++ bs) = (scope.extend as).bind (extend · bs) := by
  induction as generalizing scope with
  | nil => rfl
  | cons a as ih =>
    rw [List.cons_append, extend_cons, extend_cons]
    cases declared a with
    | error e => rfl
    | ok new => exact ih _

theorem exists_front_of_extend {scope inner : Scope} {as : List Attribute}
    (h : scope.extend as = .ok inner) :
    ∃ front, inner = front ++ scope ∧ ∀ other : Scope, other.extend as = .ok (front ++ other) := by
  induction as generalizing scope with
  | nil =>
    obtain rfl := Except.ok.inj h
    exact ⟨[], rfl, fun _ => rfl⟩
  | cons a as ih =>
    rw [extend_cons] at h
    cases hnew : declared a with
    | error e =>
      rw [hnew] at h
      cases h
    | ok new =>
      rw [hnew] at h
      obtain ⟨front, rfl, hall⟩ := ih h
      refine ⟨front ++ new, by rw [List.append_assoc], fun other => ?_⟩
      rw [extend_cons, hnew, List.append_assoc]
      exact hall (new ++ other)

theorem extend_of_covers {scope other inner : Scope} (h : Covers scope other) {as : List Attribute}
    (hextend : other.extend as = .ok inner) :
    ∃ wider, scope.extend as = .ok wider ∧ Covers wider inner := by
  obtain ⟨front, rfl, hall⟩ := exists_front_of_extend hextend
  exact ⟨front ++ scope, hall scope, h.append front⟩

theorem declared_of_value {key value other : List Char} {new : Scope}
    (hkey : key ≠ "xmlns:xml".toList) (hempty : other ≠ []) (hxml : other ≠ xmlNamespace)
    (hxmlns : other ≠ xmlnsNamespace) (h : declared ⟨key, value⟩ = .ok new) :
    ∃ added, declared ⟨key, other⟩ = .ok added ∧
      ∀ scope, Covers (added ++ scope) (new ++ scope) := by
  unfold declared at h ⊢
  by_cases hdefault : key = "xmlns".toList
  · rw [if_pos hdefault] at h ⊢
    obtain rfl := Except.ok.inj h
    exact ⟨_, rfl, fun scope => covers_cons hempty scope⟩
  · rw [if_neg hdefault] at h ⊢
    cases hafter : after? "xmlns:".toList key with
    | none =>
      simp only [hafter] at h ⊢
      obtain rfl := Except.ok.inj h
      exact ⟨_, rfl, fun scope => Covers.refl _⟩
    | some name =>
      simp only [hafter] at h ⊢
      have hname : name ≠ "xml".toList := by
        rintro rfl
        exact hkey (after?_eq_some_iff.mp hafter)
      rw [if_neg hname] at h ⊢
      split at h
      · cases h
      · split at h
        · cases h
        · split at h
          · cases h
          · rename_i hreserved _ _
            obtain rfl := Except.ok.inj h
            rw [if_neg hreserved, if_neg hxml, if_neg hxmlns]
            exact ⟨_, rfl, fun scope => covers_cons hempty scope⟩

end Scope

end StaticSite.Xml

namespace StaticSite.Svg
open StaticSite.Xml

theorem checkAttributes_eq_ok_iff {scope : Scope} {as : List Attribute} :
    checkAttributes scope as = .ok () ↔
      ∀ a ∈ as, scope.undeclared? a.key = none ∧ ∃ text, unescape a.value = .ok text := by
  induction as with
  | nil => simp [checkAttributes]
  | cons a as ih =>
    rw [checkAttributes, List.forall_mem_cons, ← ih]
    cases scope.undeclared? a.key with
    | some name => simp
    | none => cases unescape a.value <;> simp

theorem checkTag_eq_ok_iff {scope inner : Scope} {t : Tag} :
    checkTag scope t = .ok inner ↔ scope.extend t.allAttributes.attributes = .ok inner ∧
      inner.undeclared? t.name = none ∧ t.attributes.failure = none ∧
        ∀ a ∈ t.attributes.attributes,
          inner.undeclared? a.key = none ∧ ∃ text, unescape a.value = .ok text := by
  rw [← checkAttributes_eq_ok_iff]
  unfold checkTag
  cases scope.extend t.allAttributes.attributes with
  | error e => simp
  | ok wider =>
    simp only [Except.ok.injEq]
    constructor
    · intro h
      split at h
      · cases h
      · split at h
        · cases h
        · cases h
        · obtain rfl := Except.ok.inj h
          exact ⟨rfl, by assumption, by assumption, by assumption⟩
    · rintro ⟨rfl, hname, hfailure, hattributes⟩
      simp [hname, hfailure, hattributes]

theorem checkTag_of_covers {scope other inner : Scope} (h : scope.Covers other) {t : Tag}
    (hcheck : checkTag other t = .ok inner) :
    ∃ wider, checkTag scope t = .ok wider ∧ wider.Covers inner := by
  obtain ⟨hextend, hname, hfailure, hattributes⟩ := checkTag_eq_ok_iff.mp hcheck
  obtain ⟨wider, hwider, hcovers⟩ := Scope.extend_of_covers h hextend
  refine ⟨wider, checkTag_eq_ok_iff.mpr ⟨hwider, Scope.undeclared?_of_covers hcovers hname,
    hfailure, fun a ha => ?_⟩, hcovers⟩
  exact ⟨Scope.undeclared?_of_covers hcovers (hattributes a ha).1, (hattributes a ha).2⟩

theorem scopesAfter_ofTag (scopes : List Scope) (closed : Bool) (t : Tag) (es : List Event) :
    scopesAfter scopes (.ofTag closed t :: es) =
      (checkTag (scopes.headD .base) t).bind fun inner =>
        scopesAfter (if closed then scopes else inner :: scopes) es := by
  cases closed <;> rw [Event.ofTag, scopesAfter] <;>
    cases checkTag (scopes.headD .base) t <;> rfl

theorem covers_headD {scopes others : List Scope} (h : List.Forall₂ Scope.Covers scopes others) :
    (scopes.headD .base).Covers (others.headD .base) := by
  cases h with
  | nil => exact Scope.Covers.refl _
  | cons hfirst _ => exact hfirst

theorem scopesAfter_of_covers {scopes others out : List Scope} {es : List Event}
    (h : List.Forall₂ Scope.Covers scopes others) (hout : scopesAfter others es = .ok out) :
    ∃ wider, scopesAfter scopes es = .ok wider ∧ List.Forall₂ Scope.Covers wider out := by
  induction es generalizing scopes others with
  | nil =>
    obtain rfl := Except.ok.inj hout
    exact ⟨scopes, rfl, h⟩
  | cons e es ih =>
    cases htag : e.isTag with
    | true =>
      obtain ⟨closed, t, rfl⟩ := exists_ofTag htag
      rw [scopesAfter_ofTag] at hout ⊢
      obtain ⟨inner, hcheck, hrest⟩ := bind_eq_ok_iff.mp hout
      obtain ⟨wider, hwider, hcovers⟩ := checkTag_of_covers (covers_headD h) hcheck
      rw [hwider]
      refine ih ?_ hrest
      split
      · exact h
      · exact .cons hcovers h
    | false =>
      cases e with
      | opening | empty => cases htag
      | closing name =>
        refine ih ?_ hout
        cases h with
        | nil => exact .nil
        | cons _ hrest => exact hrest
      | reference name =>
        rw [scopesAfter] at hout ⊢
        split at hout
        · rename_i hdefined
          rw [if_pos hdefined]
          exact ih h hout
        · cases hout
      | _ => exact ih h hout

end StaticSite.Svg
