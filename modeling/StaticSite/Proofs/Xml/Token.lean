import StaticSite.Proofs.Except
import StaticSite.Xml.Markup

namespace StaticSite.Xml
open StaticSite.Text

def nextQuote (quote : Option Char) (c : Char) : Option Char :=
  match quote with
  | some q => if c = q then none else some q
  | none => if c = '"' ∨ c = '\'' then some c else none

/-- The quote that is open after the content of a tag, unless the tag ends before that. -/
def quoteAfter (quote : Option Char) : List Char → Option (Option Char)
  | [] => some quote
  | c :: cs => if c = '>' ∧ quote = none then none else quoteAfter (nextQuote quote c) cs

theorem quoteAfter_append (quote : Option Char) (cs ds : List Char) :
    quoteAfter quote (cs ++ ds) = (quoteAfter quote cs).bind (quoteAfter · ds) := by
  induction cs generalizing quote with
  | nil => rfl
  | cons c cs ih =>
    simp only [List.cons_append, quoteAfter]
    split
    · rfl
    · exact ih _

theorem closeTag_cons (quote : Option Char) (c : Char) (cs : List Char) :
    closeTag quote (c :: cs) =
      if c = '>' ∧ quote = none then .ok ([], cs)
      else (closeTag (nextQuote quote c) cs).map fun (content, rest) => (c :: content, rest) := by
  cases quote <;> rfl

theorem closeTag_eq_ok_iff {quote : Option Char} {cs content rest : List Char} :
    closeTag quote cs = .ok (content, rest) ↔
      cs = content ++ '>' :: rest ∧ quoteAfter quote content = some none := by
  induction cs generalizing quote content with
  | nil => simp [closeTag]
  | cons c cs ih =>
    rw [closeTag_cons]
    split
    · rename_i h
      obtain ⟨rfl, rfl⟩ := h
      cases content with
      | nil => simp [quoteAfter, eq_comm]
      | cons d content =>
        simp only [Except.ok.injEq, Prod.mk.injEq, List.nil_eq, reduceCtorEq, false_and,
          List.cons_append, List.cons.injEq, false_iff, not_and]
        rintro ⟨rfl, _⟩
        simp [quoteAfter]
    · rename_i h
      constructor
      · intro hmap
        cases hclose : closeTag (nextQuote quote c) cs with
        | error e => simp [hclose, Except.map] at hmap
        | ok r =>
          obtain ⟨inner, tail⟩ := r
          simp only [hclose, Except.map, Except.ok.injEq, Prod.mk.injEq] at hmap
          obtain ⟨rfl, rfl⟩ := hmap
          obtain ⟨hcs, hquote⟩ := ih.mp hclose
          refine ⟨by simp [hcs], ?_⟩
          rw [quoteAfter, if_neg h, hquote]
      · rintro ⟨hcs, hquote⟩
        cases content with
        | nil =>
          simp only [List.nil_append, List.cons.injEq] at hcs
          simp only [quoteAfter, Option.some.injEq] at hquote
          exact absurd ⟨hcs.1, hquote⟩ h
        | cons d content =>
          simp only [List.cons_append, List.cons.injEq] at hcs
          obtain ⟨rfl, hcs⟩ := hcs
          rw [quoteAfter, if_neg h] at hquote
          rw [ih.mpr ⟨hcs, hquote⟩]
          rfl

theorem isSome_after?_append {mark cs : List Char} (h : mark.length ≤ cs.length)
    (rest : List Char) : (after? mark (cs ++ rest)).isSome = (after? mark cs).isSome := by
  induction mark generalizing cs with
  | nil => simp [after?]
  | cons m mark ih =>
    cases cs with
    | nil => simp at h
    | cons c cs =>
      simp only [List.cons_append, after?]
      split
      · exact ih (by simpa using h)
      · rfl

theorem splitAt?_append {mark cs before rest : List Char}
    (h : splitAt? mark cs = some (before, rest)) (other : List Char) :
    splitAt? mark (before ++ (mark ++ other)) = some (before, other) := by
  induction before generalizing cs with
  | nil =>
    have hafter : after? mark (mark ++ other) = some other := after?_eq_some_iff.mpr rfl
    cases hm : mark ++ other with
    | nil =>
      rw [hm] at hafter
      simp [splitAt?, hafter]
    | cons c ds =>
      rw [hm] at hafter
      simp [splitAt?, hafter]
  | cons b before ih =>
    have hcs := eq_of_splitAt?_eq_some h
    subst hcs
    have hlen : mark.length ≤ (b :: before ++ mark).length := by
      simp only [List.cons_append, List.length_cons, List.length_append]
      omega
    have hsome (tail : List Char) :
        (after? mark (b :: (before ++ (mark ++ tail)))).isSome =
          (after? mark (b :: before ++ mark)).isSome := by
      rw [← isSome_after?_append hlen tail]
      simp
    simp only [List.cons_append, List.append_assoc, splitAt?] at h
    split at h
    · simp at h
    · rename_i hnone
      obtain ⟨⟨inner, tail⟩, hinner, heq⟩ := Option.map_eq_some_iff.mp h
      simp only [Prod.mk.injEq, List.cons.injEq, true_and] at heq
      obtain ⟨rfl, rfl⟩ := heq
      have hother : after? mark (b :: (inner ++ (mark ++ other))) = none := by
        rw [← Option.not_isSome_iff_eq_none, hsome other, ← hsome tail, hnone]
        simp
      rw [List.cons_append, splitAt?, hother]
      simp [ih hinner]

def DoctypePlace.next (place : DoctypePlace) (c : Char) (cs : List Char) : DoctypePlace :=
  match place with
  | .outside =>
    if c = '[' then .subset else if c = '"' ∨ c = '\'' then .outsideQuoted c else .outside
  | .outsideQuoted q => if c = q then .outside else .outsideQuoted q
  | .subset =>
    if c = ']' then .afterSubset
    else if c ≠ '<' then .subset
    else if (after? "!--".toList cs).isSome then .subsetComment
    else if (after? "?".toList cs).isSome then .subsetInstruction
    else .subsetMarkup
  | .subsetComment =>
    if c = '-' ∧ (after? "-".toList cs).isSome ∧ (after? "->".toList cs).isSome
    then .subset else .subsetComment
  | .subsetInstruction =>
    if c = '?' ∧ (after? ">".toList cs).isSome then .subset else .subsetInstruction
  | .subsetMarkup =>
    if c = '>' then .subset
    else if c = '"' ∨ c = '\'' then .subsetQuoted c else .subsetMarkup
  | .subsetQuoted q => if c = q then .subsetMarkup else .subsetQuoted q
  | .afterSubset => .afterSubset

def DoctypePlace.closes : DoctypePlace → Char → Bool
  | .outside, c | .afterSubset, c => c = '>'
  | _, _ => false

theorem DoctypePlace.eq_of_closes {place : DoctypePlace} {c : Char} (h : place.closes c = true) :
    c = '>' := by
  cases place with
  | outside | afterSubset => exact of_decide_eq_true h
  | _ => cases h

theorem closeDoctype_cons (place : DoctypePlace) (c : Char) (cs : List Char) :
    closeDoctype place (c :: cs) =
      if place.closes c then some ([], cs)
      else (closeDoctype (place.next c cs) cs).map (closeDoctype.extend c) := by
  cases place <;> simp [closeDoctype, DoctypePlace.closes, DoctypePlace.next]

def DoctypePlace.ahead : DoctypePlace → Nat
  | .outside | .afterSubset => 0
  | .outsideQuoted _ | .subset => 1
  | .subsetComment | .subsetInstruction | .subsetMarkup => 2
  | .subsetQuoted _ => 3

theorem DoctypePlace.ahead_le_next (place : DoctypePlace) (c : Char) (cs : List Char) :
    place.ahead ≤ (place.next c cs).ahead + 1 := by
  cases place <;> simp only [next] <;> (repeat' split) <;> simp [ahead]

theorem DoctypePlace.ahead_le_length {place : DoctypePlace} {cs content rest : List Char}
    (h : closeDoctype place cs = some (content, rest)) : place.ahead ≤ content.length := by
  induction cs generalizing place content with
  | nil => simp [closeDoctype] at h
  | cons c cs ih =>
    rw [closeDoctype_cons] at h
    split at h
    · rename_i hcloses
      cases place <;> simp [closes] at hcloses <;> simp [ahead]
    · obtain ⟨⟨inner, tail⟩, hinner, heq⟩ := Option.map_eq_some_iff.mp h
      simp only [closeDoctype.extend, Prod.mk.injEq] at heq
      obtain ⟨rfl, rfl⟩ := heq
      have := place.ahead_le_next c cs
      have := ih hinner
      simp only [List.length_cons]
      omega

theorem DoctypePlace.next_congr {place : DoctypePlace} {c : Char} {content rest : List Char}
    (h : (place.next c (content ++ '>' :: rest)).ahead ≤ content.length) (other : List Char) :
    place.next c (content ++ '>' :: other) = place.next c (content ++ '>' :: rest) := by
  have hlook (mark : List Char) (hlen : mark.length ≤ content.length + 1) :
      (after? mark (content ++ '>' :: other)).isSome =
        (after? mark (content ++ '>' :: rest)).isSome := by
    have hlen' : mark.length ≤ (content ++ ['>']).length := by simpa using hlen
    have hother := isSome_after?_append hlen' other
    have hrest := isSome_after?_append hlen' rest
    simp only [List.append_assoc, List.cons_append, List.nil_append] at hother hrest
    rw [hother, hrest]
  cases place with
  | outside | outsideQuoted | subsetMarkup | subsetQuoted | afterSubset => rfl
  | subset =>
    simp only [next] at h ⊢
    by_cases hclose : c = ']'
    · simp [hclose]
    · by_cases hopen : c = '<'
      · simp only [hopen, Char.reduceEq, ↓reduceIte, ne_eq, not_true_eq_false] at h ⊢
        have hlen : 2 ≤ content.length := by
          refine Nat.le_trans ?_ h
          repeat' split
          all_goals simp [ahead]
        rw [hlook "!--".toList (by simpa using hlen), hlook "?".toList (by simp)]
      · simp [hclose, hopen]
  | subsetComment =>
    simp only [next] at h ⊢
    have hlen : 1 ≤ content.length := by
      refine Nat.le_trans ?_ h
      split <;> simp [ahead]
    rw [hlook "-".toList (by simp), hlook "->".toList (by simpa using hlen)]
  | subsetInstruction =>
    simp only [next]
    rw [hlook ">".toList (by simp)]

theorem closeDoctype_append {place : DoctypePlace} {cs content rest : List Char}
    (h : closeDoctype place cs = some (content, rest)) :
    cs = content ++ '>' :: rest ∧
      ∀ other, closeDoctype place (content ++ '>' :: other) = some (content, other) := by
  induction cs generalizing place content with
  | nil => simp [closeDoctype] at h
  | cons c cs ih =>
    rw [closeDoctype_cons] at h
    split at h
    · rename_i hcloses
      simp only [Option.some.injEq, Prod.mk.injEq] at h
      obtain ⟨rfl, rfl⟩ := h
      obtain rfl := DoctypePlace.eq_of_closes hcloses
      refine ⟨rfl, fun other => ?_⟩
      rw [List.nil_append, closeDoctype_cons, if_pos hcloses]
    · rename_i hcloses
      obtain ⟨⟨inner, tail⟩, hinner, heq⟩ := Option.map_eq_some_iff.mp h
      simp only [closeDoctype.extend, Prod.mk.injEq] at heq
      obtain ⟨rfl, rfl⟩ := heq
      obtain ⟨rfl, hall⟩ := ih hinner
      refine ⟨rfl, fun other => ?_⟩
      rw [List.cons_append, closeDoctype_cons, if_neg hcloses,
        DoctypePlace.next_congr (DoctypePlace.ahead_le_length hinner) other, hall other]
      rfl

def isPlainDoctype (c : Char) : Bool :=
  c != '>' && c != '[' && c != '"' && c != '\''

theorem closeDoctype_plain_append {cs : List Char} (h : ∀ c ∈ cs, isPlainDoctype c = true)
    (ds : List Char) :
    closeDoctype .outside (cs ++ ds) =
      (closeDoctype .outside ds).map fun r => (cs ++ r.1, r.2) := by
  induction cs with
  | nil => simp
  | cons c cs ih =>
    have hc : isPlainDoctype c = true := h c (by simp)
    simp only [isPlainDoctype, Bool.and_eq_true, bne_iff_ne, ne_eq] at hc
    have hnext : DoctypePlace.next .outside c (cs ++ ds) = .outside := by
      simp [DoctypePlace.next, hc]
    rw [List.cons_append, closeDoctype_cons, if_neg (by simp [DoctypePlace.closes, hc]), hnext,
      ih fun x hx => h x (List.mem_cons_of_mem _ hx), Option.map_map]
    rfl

end StaticSite.Xml
