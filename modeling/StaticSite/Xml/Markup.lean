import StaticSite.Xml.Error
import StaticSite.Xml.Event

namespace StaticSite.Xml
open StaticSite.Text

def closeTag (quote : Option Char) : List Char → Except SyntaxError (List Char × List Char)
  | [] => .error (match quote with
    | some q => .unclosedValue q
    | none => .unclosedTag)
  | c :: cs =>
    let next := match quote with
      | some q => if c = q then none else some q
      | none => if c = '"' ∨ c = '\'' then some c else none
    if c = '>' ∧ quote = none then .ok ([], cs)
    else (closeTag next cs).map fun (content, rest) => (c :: content, rest)

inductive DoctypePlace where
  | outside
  | outsideQuoted (quote : Char)
  | subset
  | subsetComment
  | subsetInstruction
  | subsetMarkup
  | subsetQuoted (quote : Char)
  | afterSubset

def closeDoctype : DoctypePlace → List Char → Option (List Char × List Char)
  | _, [] => none
  | .outside, c :: cs =>
    if c = '>' then some ([], cs)
    else (closeDoctype (if c = '[' then .subset
      else if c = '"' ∨ c = '\'' then .outsideQuoted c else .outside) cs).map (extend c)
  | .outsideQuoted q, c :: cs =>
    (closeDoctype (if c = q then .outside else .outsideQuoted q) cs).map (extend c)
  | .subset, c :: cs =>
    (closeDoctype (if c = ']' then .afterSubset
      else if c ≠ '<' then .subset
      else if (after? "!--".toList cs).isSome then .subsetComment
      else if (after? "?".toList cs).isSome then .subsetInstruction
      else .subsetMarkup) cs).map (extend c)
  | .subsetComment, c :: cs =>
    (closeDoctype (if c = '-' ∧ (after? "-".toList cs).isSome ∧ (after? "->".toList cs).isSome
      then .subset else .subsetComment) cs).map (extend c)
  | .subsetInstruction, c :: cs =>
    (closeDoctype (if c = '?' ∧ (after? ">".toList cs).isSome then .subset
      else .subsetInstruction) cs).map (extend c)
  | .subsetMarkup, c :: cs =>
    (closeDoctype (if c = '>' then .subset
      else if c = '"' ∨ c = '\'' then .subsetQuoted c else .subsetMarkup) cs).map (extend c)
  | .subsetQuoted q, c :: cs =>
    (closeDoctype (if c = q then .subsetMarkup else .subsetQuoted q) cs).map (extend c)
  | .afterSubset, c :: cs =>
    if c = '>' then some ([], cs) else (closeDoctype .afterSubset cs).map (extend c)
where
  extend (c : Char) (r : List Char × List Char) : List Char × List Char := (c :: r.1, r.2)

def readBang (cs : List Char) : Except ReadError (Event × List Char) :=
  match cs with
  | '[' :: _ =>
    match (after? "[CDATA[".toList cs).bind (splitAt? "]]>".toList) with
    | some (content, rest) => .ok (.cdata content, rest)
    | none => .error (.syntaxError .unclosedCdata)
  | '-' :: _ =>
    match (after? "--".toList cs).bind (splitAt? "-->".toList) with
    | some (content, rest) => .ok (.comment content, rest)
    | none => .error (.syntaxError .unclosedComment)
  | c :: _ =>
    if c.toUpper ≠ 'D' then .error (.syntaxError .unknownMarkup)
    else
      match closeDoctype .outside cs with
      | none => .error (.syntaxError .unclosedDoctype)
      | some (content, rest) =>
        if ¬ sameLetters (content.take 7) "DOCTYPE".toList then
          .error (.syntaxError .unclosedDoctype)
        else
          match (content.drop 7).dropWhile isBlank with
          | [] => .error (.illFormed .missingDoctypeName)
          | name => .ok (.doctype name, rest)
  | [] => .error (.syntaxError .unknownMarkup)

def isDeclaration (content : List Char) : Bool :=
  match after? "xml".toList content with
  | some (c :: _) => isBlank c
  | some [] => true
  | none => false

def readQuestion (cs : List Char) : Except ReadError (Event × List Char) :=
  match if cs.head? = some '>' then none else splitAt? "?>".toList cs with
  | some (content, rest) =>
    .ok (if isDeclaration content then .declaration content else .instruction content, rest)
  | none =>
    .error (.syntaxError (match after? "xml".toList cs with
      | some (c :: _) => if isBlank c ∨ c = '?' then .unclosedDeclaration else .unclosedInstruction
      | _ => .unclosedInstruction))

def trimClosing (content : List Char) : List Char :=
  match (content.reverse.dropWhile isBlank).reverse with
  | [] => content
  | name => name

def readClosing (cs : List Char) : Except ReadError (Event × List Char) :=
  match closeTag none cs with
  | .ok (content, rest) => .ok (.closing (trimClosing content), rest)
  | .error e => .error (.syntaxError e)

def readOpening (cs : List Char) : Except ReadError (Event × List Char) :=
  match closeTag none cs with
  | .ok (content, rest) =>
    .ok (if content.getLast? = some '/' then .empty (.ofContent content.dropLast)
      else .opening (.ofContent content), rest)
  | .error e => .error (.syntaxError e)

def readMarkup (cs : List Char) : Except ReadError (Event × List Char) :=
  match cs with
  | '!' :: rest => readBang rest
  | '?' :: rest => readQuestion rest
  | '/' :: rest => readClosing rest
  | _ => readOpening cs

def readReference (cs : List Char) : Except ReadError (Event × List Char) :=
  let inName (c : Char) : Bool := c != ';' && c != '&' && c != '<'
  match cs.dropWhile inName with
  | ';' :: rest => .ok (.reference (cs.takeWhile inName), rest)
  | _ => .error (.illFormed .unclosedReference)

def isPlain (c : Char) : Bool :=
  c != '<' && c != '&'

def readEvent (cs : List Char) : Except ReadError (Event × List Char) :=
  match cs with
  | '<' :: rest => readMarkup rest
  | '&' :: rest => readReference rest
  | _ => .ok (.text (cs.takeWhile isPlain), cs.dropWhile isPlain)

theorem length_of_closeTag {quote : Option Char} {cs content rest : List Char}
    (h : closeTag quote cs = .ok (content, rest)) : rest.length < cs.length := by
  induction cs generalizing quote content with
  | nil => simp [closeTag] at h
  | cons c cs ih =>
    simp only [closeTag] at h
    split at h
    · simp only [Except.ok.injEq, Prod.mk.injEq] at h
      simp [h.2]
    · simp only [Except.map] at h
      split at h
      · simp at h
      · rename_i r hr
        simp only [Except.ok.injEq, Prod.mk.injEq] at h
        have := @ih _ r.1 (by rw [hr, ← h.2])
        simp only [List.length_cons]
        omega

theorem length_of_closeDoctype {place : DoctypePlace} {cs content rest : List Char}
    (h : closeDoctype place cs = some (content, rest)) : rest.length < cs.length := by
  induction cs generalizing place content with
  | nil => simp [closeDoctype] at h
  | cons c cs ih =>
    have step : ∀ q, (closeDoctype q cs).map (closeDoctype.extend c) = some (content, rest) →
        rest.length < (c :: cs).length := by
      intro q hq
      obtain ⟨⟨a, b⟩, hab, he⟩ := Option.map_eq_some_iff.1 hq
      simp only [closeDoctype.extend, Prod.mk.injEq] at he
      have := @ih q a (by rw [hab, he.2])
      simp only [List.length_cons]
      omega
    cases place <;> simp only [closeDoctype] at h
    case outside | afterSubset =>
      split at h
      · simp only [Option.some.injEq, Prod.mk.injEq] at h
        simp [h.2]
      · exact step _ h
    all_goals exact step _ h

theorem length_of_after? {mark cs rest : List Char} (h : after? mark cs = some rest) :
    rest.length ≤ cs.length := by
  simp [after?_eq_some_iff.1 h]

theorem length_of_bind_splitAt? {mark ending cs content rest : List Char}
    (h : (after? mark cs).bind (splitAt? ending) = some (content, rest)) :
    rest.length ≤ cs.length := by
  obtain ⟨r, hr, hs⟩ := Option.bind_eq_some_iff.1 h
  exact Nat.le_trans (length_of_splitAt?_eq_some hs) (length_of_after? hr)

theorem length_of_readBang {cs rest : List Char} {e : Event}
    (h : readBang cs = .ok (e, rest)) : rest.length ≤ cs.length := by
  simp only [readBang] at h
  split at h
  · split at h
    · rename_i hs
      simp only [Except.ok.injEq, Prod.mk.injEq] at h
      exact h.2 ▸ length_of_bind_splitAt? hs
    · simp at h
  · split at h
    · rename_i hs
      simp only [Except.ok.injEq, Prod.mk.injEq] at h
      exact h.2 ▸ length_of_bind_splitAt? hs
    · simp at h
  · split at h
    · simp at h
    · split at h
      · simp at h
      · rename_i hs
        split at h
        · simp at h
        · split at h
          · simp at h
          · simp only [Except.ok.injEq, Prod.mk.injEq] at h
            exact h.2 ▸ Nat.le_of_lt (length_of_closeDoctype hs)
  · simp at h

theorem length_of_readQuestion {cs rest : List Char} {e : Event}
    (h : readQuestion cs = .ok (e, rest)) : rest.length ≤ cs.length := by
  simp only [readQuestion] at h
  split at h
  · rename_i content r hs
    simp only [Except.ok.injEq, Prod.mk.injEq] at h
    split at hs
    · simp at hs
    · exact h.2 ▸ length_of_splitAt?_eq_some hs
  · simp at h

theorem length_of_readClosing {cs rest : List Char} {e : Event}
    (h : readClosing cs = .ok (e, rest)) : rest.length ≤ cs.length := by
  simp only [readClosing] at h
  split at h
  · rename_i hs
    simp only [Except.ok.injEq, Prod.mk.injEq] at h
    exact h.2 ▸ Nat.le_of_lt (length_of_closeTag hs)
  · simp at h

theorem length_of_readOpening {cs rest : List Char} {e : Event}
    (h : readOpening cs = .ok (e, rest)) : rest.length ≤ cs.length := by
  simp only [readOpening] at h
  split at h
  · rename_i hs
    simp only [Except.ok.injEq, Prod.mk.injEq] at h
    exact h.2 ▸ Nat.le_of_lt (length_of_closeTag hs)
  · simp at h

theorem length_of_readMarkup {cs rest : List Char} {e : Event}
    (h : readMarkup cs = .ok (e, rest)) : rest.length ≤ cs.length := by
  simp only [readMarkup] at h
  split at h
  · exact Nat.le_trans (length_of_readBang h) (by simp)
  · exact Nat.le_trans (length_of_readQuestion h) (by simp)
  · exact Nat.le_trans (length_of_readClosing h) (by simp)
  · exact length_of_readOpening h

theorem length_of_readReference {cs rest : List Char} {e : Event}
    (h : readReference cs = .ok (e, rest)) : rest.length ≤ cs.length := by
  simp only [readReference] at h
  split at h
  · rename_i r hr
    simp only [Except.ok.injEq, Prod.mk.injEq] at h
    have hd := length_dropWhile_le (fun c => c != ';' && c != '&' && c != '<') cs
    rw [hr, h.2, List.length_cons] at hd
    omega
  · simp at h

theorem length_of_readEvent {c : Char} {cs rest : List Char} {e : Event}
    (h : readEvent (c :: cs) = .ok (e, rest)) : rest.length < (c :: cs).length := by
  simp only [readEvent] at h
  split at h
  · rename_i r heq
    simp only [List.cons.injEq] at heq
    have := length_of_readMarkup h
    simp only [List.length_cons, heq.2]
    omega
  · rename_i r heq
    simp only [List.cons.injEq] at heq
    have := length_of_readReference h
    simp only [List.length_cons, heq.2]
    omega
  · rename_i hlt hamp
    simp only [Except.ok.injEq, Prod.mk.injEq] at h
    have hc : isPlain c = true := by
      simp only [isPlain, Bool.and_eq_true, bne_iff_ne, ne_eq]
      exact ⟨fun hc => hlt cs (by rw [hc]), fun hc => hamp cs (by rw [hc])⟩
    rw [← h.2, List.dropWhile_cons, if_pos hc]
    have := length_dropWhile_le isPlain cs
    simp only [List.length_cons]
    omega

end StaticSite.Xml
