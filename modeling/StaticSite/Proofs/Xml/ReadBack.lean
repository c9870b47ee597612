import Mathlib.Data.List.DropRight
import Mathlib.Data.List.TakeWhile
import StaticSite.Proofs.Xml.Token

/-!
What is read from a text is read again from its written form. Only text has no end of its own: it
goes on up to the next construct.
-/

namespace StaticSite.Xml
open StaticSite.Text

def Event.isText : Event → Bool
  | .text _ => true
  | _ => false

def Event.ReadsBack : Event → Prop
  | .text content => content ≠ [] ∧ ∀ c ∈ content, isPlain c = true
  | e => ∀ rest, readEvent (e.render ++ rest) = .ok (e, rest)

namespace Event

theorem readsBack_text {content : List Char} :
    (text content).ReadsBack ↔ content ≠ [] ∧ ∀ c ∈ content, isPlain c = true := Iff.rfl

theorem render_opening (t : Tag) : (opening t).render = '<' :: (t.content ++ ['>']) := rfl

theorem render_closing (name : List Char) :
    (closing name).render = '<' :: '/' :: (name ++ ['>']) := rfl

theorem render_empty (t : Tag) : (empty t).render = '<' :: (t.content ++ ['/', '>']) := rfl

theorem render_reference (name : List Char) : (reference name).render = '&' :: (name ++ [';']) := rfl

theorem render_cdata (content : List Char) :
    (cdata content).render = '<' :: '!' :: ("[CDATA[".toList ++ content ++ "]]>".toList) := rfl

theorem render_comment (content : List Char) :
    (comment content).render = '<' :: '!' :: ("--".toList ++ content ++ "-->".toList) := rfl

theorem render_declaration (content : List Char) :
    (declaration content).render = '<' :: '?' :: (content ++ "?>".toList) := rfl

theorem render_instruction (content : List Char) :
    (instruction content).render = '<' :: '?' :: (content ++ "?>".toList) := rfl

theorem render_doctype (name : List Char) :
    (doctype name).render = '<' :: '!' :: ("DOCTYPE ".toList ++ name ++ ['>']) := rfl

end Event

theorem readEvent_lt (cs : List Char) : readEvent ('<' :: cs) = readMarkup cs := rfl

theorem readEvent_amp (cs : List Char) : readEvent ('&' :: cs) = readReference cs := rfl

theorem readEvent_plain {c : Char} (h : isPlain c = true) (cs : List Char) :
    readEvent (c :: cs) =
      .ok (.text ((c :: cs).takeWhile isPlain), (c :: cs).dropWhile isPlain) := by
  simp only [isPlain, Bool.and_eq_true, bne_iff_ne, ne_eq] at h
  unfold readEvent
  split
  · rename_i heq
    exact absurd (List.cons.inj heq).1 h.1
  · rename_i heq
    exact absurd (List.cons.inj heq).1 h.2
  · rfl

theorem readMarkup_bang (cs : List Char) : readMarkup ('!' :: cs) = readBang cs := rfl

theorem readMarkup_question (cs : List Char) : readMarkup ('?' :: cs) = readQuestion cs := rfl

theorem readMarkup_slash (cs : List Char) : readMarkup ('/' :: cs) = readClosing cs := rfl

def startsTag : List Char → Bool
  | '!' :: _ | '?' :: _ | '/' :: _ => false
  | _ => true

theorem readMarkup_of_startsTag {cs : List Char} (h : startsTag cs = true) :
    readMarkup cs = readOpening cs := by
  unfold readMarkup
  split <;> first | rfl | simp [startsTag] at h

theorem startsTag_append {content : List Char} (h : startsTag content = true) (hne : content ≠ [])
    (rest : List Char) : startsTag (content ++ rest) = true := by
  cases content with
  | nil => exact absurd rfl hne
  | cons c cs =>
    unfold startsTag at h ⊢
    split at h
    all_goals simp_all

theorem startsTag_of_append {content rest : List Char}
    (h : startsTag (content ++ rest) = true) : startsTag content = true := by
  cases content with
  | nil => rfl
  | cons c cs =>
    unfold startsTag at h ⊢
    split at h
    all_goals simp_all

def isQuote (c : Char) : Bool :=
  c == '"' || c == '\''

theorem isQuote_of_nextQuote {quote : Option Char} {c q : Char}
    (hquote : ∀ q, quote = some q → isQuote q = true) (h : nextQuote quote c = some q) :
    isQuote q = true := by
  cases quote with
  | none =>
    simp only [nextQuote, Option.ite_none_right_eq_some, Option.some.injEq] at h
    obtain ⟨hc, rfl⟩ := h
    simpa [isQuote] using hc
  | some p =>
    simp only [nextQuote, Option.ite_none_left_eq_some] at h
    exact hquote q h.2

theorem isQuote_of_quoteAfter {quote : Option Char} {cs : List Char} {q : Char}
    (hquote : ∀ q, quote = some q → isQuote q = true) (h : quoteAfter quote cs = some (some q)) :
    isQuote q = true := by
  induction cs generalizing quote with
  | nil =>
    simp only [quoteAfter, Option.some.injEq] at h
    exact hquote q h
  | cons c cs ih =>
    simp only [quoteAfter, Option.ite_none_left_eq_some] at h
    exact ih (fun p hp => isQuote_of_nextQuote hquote hp) h.2

def slash : Bool → List Char
  | true => ['/']
  | false => []

def Event.ofTag : Bool → Tag → Event
  | true, t => .empty t
  | false, t => .opening t

theorem Event.render_ofTag (closed : Bool) (t : Tag) (rest : List Char) :
    (ofTag closed t).render ++ rest = '<' :: (t.content ++ (slash closed ++ '>' :: rest)) := by
  cases closed
  · simp [ofTag, slash, render_opening]
  · simp [ofTag, slash, render_empty]

theorem Event.ofTag_injective {closed closed' : Bool} {t t' : Tag}
    (h : ofTag closed t = ofTag closed' t') : closed = closed' ∧ t = t' := by
  cases closed <;> cases closed' <;> cases h <;> exact ⟨rfl, rfl⟩

theorem readsBack_ofTag {closed : Bool} {t : Tag} : (Event.ofTag closed t).ReadsBack ↔
    ∀ rest, readEvent ((Event.ofTag closed t).render ++ rest) = .ok (.ofTag closed t, rest) := by
  cases closed <;> rfl

def Tag.Closes (closed : Bool) (t : Tag) : Prop :=
  quoteAfter none t.content = some none ∧
    if closed then t.content ≠ [] else t.content.getLast? ≠ some '/'

theorem quoteAfter_slash {cs : List Char} (closed : Bool) :
    quoteAfter none (cs ++ slash closed) = some none ↔ quoteAfter none cs = some none := by
  cases closed with
  | false => simp [slash]
  | true =>
    rw [quoteAfter_append]
    constructor
    · intro h
      obtain ⟨quote, hquote, hslash⟩ := Option.bind_eq_some_iff.mp h
      cases quote with
      | none => exact hquote
      | some q =>
        have hq := isQuote_of_quoteAfter (by simp) hquote
        have hne : '/' ≠ q := by
          rintro rfl
          cases hq
        simp [slash, quoteAfter, nextQuote, hne] at hslash
    · intro h
      rw [h]
      rfl

theorem readOpening_eq_ok {cs rest : List Char} {e : Event} (h : readOpening cs = .ok (e, rest)) :
    ∃ closed content, e = .ofTag closed (.ofContent content) ∧
      cs = content ++ (slash closed ++ '>' :: rest) ∧ quoteAfter none content = some none ∧
      (closed = false → content.getLast? ≠ some '/') := by
  simp only [readOpening] at h
  split at h
  · rename_i content tail hclose
    obtain ⟨rfl, hquote⟩ := closeTag_eq_ok_iff.mp hclose
    simp only [Except.ok.injEq, Prod.mk.injEq] at h
    obtain ⟨rfl, rfl⟩ := h
    by_cases hlast : content.getLast? = some '/'
    · have hcontent : content = content.dropLast ++ slash true :=
        (List.dropLast_append_getLast? '/' hlast).symm
      refine ⟨true, content.dropLast, by rw [if_pos hlast]; rfl, ?_, ?_, by simp⟩
      · rw [← List.append_assoc, ← hcontent]
      · rw [hcontent] at hquote
        exact (quoteAfter_slash true).mp hquote
    · exact ⟨false, content, by rw [if_neg hlast]; rfl, rfl, hquote, fun _ => hlast⟩
  · cases h

theorem exists_ofTag_of_readOpening {cs rest : List Char} {e : Event} (hstart : startsTag cs = true)
    (h : readOpening cs = .ok (e, rest)) : ∃ closed t, e = .ofTag closed t ∧
      '<' :: cs = (Event.ofTag closed t).render ++ rest ∧ Tag.ofContent t.content = t ∧
        startsTag t.content = true ∧ t.Closes closed := by
  obtain ⟨closed, content, rfl, rfl, hquote, hlast⟩ := readOpening_eq_ok h
  refine ⟨closed, .ofContent content, rfl, ?_⟩
  rw [Event.render_ofTag, Tag.Closes, Tag.content_ofContent]
  refine ⟨rfl, rfl, startsTag_of_append hstart, hquote, ?_⟩
  cases closed with
  | false => exact hlast rfl
  | true =>
    intro hnil
    rw [hnil] at hstart
    cases hstart

theorem startsTag_slash_append {content : List Char} {closed : Bool}
    (h : startsTag content = true) (hne : closed = true → content ≠ []) (rest : List Char) :
    startsTag (content ++ (slash closed ++ '>' :: rest)) = true := by
  by_cases hnil : content = []
  · cases closed with
    | true => exact absurd hnil (hne rfl)
    | false => rw [hnil]; rfl
  · exact startsTag_append h hnil _

theorem readEvent_ofTag {closed : Bool} {t : Tag} (hform : Tag.ofContent t.content = t)
    (hstart : startsTag t.content = true) (hcloses : t.Closes closed) (rest : List Char) :
    readEvent ((Event.ofTag closed t).render ++ rest) = .ok (.ofTag closed t, rest) := by
  obtain ⟨hquote, hend⟩ := hcloses
  have hne : closed = true → t.content ≠ [] := by
    rintro rfl
    exact hend
  rw [Event.render_ofTag, readEvent_lt,
    readMarkup_of_startsTag (startsTag_slash_append hstart hne rest), ← List.append_assoc,
    readOpening, closeTag_eq_ok_iff.mpr ⟨rfl, (quoteAfter_slash closed).mpr hquote⟩]
  cases closed with
  | true => simp [slash, hform, Event.ofTag]
  | false =>
    have hlast : t.content.getLast? ≠ some '/' := hend
    simp [slash, hform, hlast, Event.ofTag]

theorem readEvent_closing {name : List Char} (hquote : quoteAfter none name = some none)
    (htrim : trimClosing name = name) (rest : List Char) :
    readEvent ((Event.closing name).render ++ rest) = .ok (.closing name, rest) := by
  simp only [Event.render_closing, List.cons_append, List.append_assoc, List.nil_append]
  rw [readEvent_lt, readMarkup_slash, readClosing, closeTag_eq_ok_iff.mpr ⟨rfl, hquote⟩]
  simp only [htrim]

theorem ofContent_content_of_name {name text : List Char} (hname : ∀ c ∈ name, isBlank c = false)
    (htext : ∀ c, text.head? = some c → isBlank c = true) :
    Tag.ofContent (Tag.content ⟨name, text⟩) = ⟨name, text⟩ := by
  simp only [Tag.ofContent, Tag.content, Tag.mk.injEq]
  have hall : ∀ c ∈ name, (!isBlank c) = true := fun c hc => by simp [hname c hc]
  rw [List.takeWhile_append_of_pos hall, List.dropWhile_append_of_pos hall]
  cases text with
  | nil => simp
  | cons c cs => simp [htext c rfl]

theorem form_of_ofContent {t : Tag} (h : Tag.ofContent t.content = t) :
    (∀ c ∈ t.name, isBlank c = false) ∧
      ∀ c, t.attributeText.head? = some c → isBlank c = true := by
  rw [← h]
  constructor
  · intro c hc
    simpa using List.mem_takeWhile_imp hc
  · intro c hc
    have hstop := List.head?_dropWhile_not (!isBlank ·) t.content
    have hfirst : (t.content.dropWhile (!isBlank ·)).head? = some c := hc
    simpa [hfirst] using hstop

theorem quoteAfter_blanks {cs : List Char} (h : ∀ c ∈ cs, isBlank c = true)
    {quote : Option Char} (hquote : ∀ q, quote = some q → isQuote q = true) :
    quoteAfter quote cs = some quote := by
  induction cs with
  | nil => rfl
  | cons c cs ih =>
    have hc : isBlank c = true := h c (by simp)
    have hnot (d : Char) (hd : isBlank d = false) : c ≠ d := by
      rintro rfl
      rw [hc] at hd
      cases hd
    have hnext : nextQuote quote c = quote := by
      cases quote with
      | none => simp [nextQuote, hnot '"' (by decide), hnot '\'' (by decide)]
      | some q =>
        have hq : q = '"' ∨ q = '\'' := by simpa [isQuote] using hquote q rfl
        have hblank : isBlank q = false := by rcases hq with rfl | rfl <;> decide
        simp [nextQuote, hnot q hblank]
    rw [quoteAfter, if_neg (fun hgt => hnot '>' (by decide) hgt.1), hnext]
    exact ih fun x hx => h x (List.mem_cons_of_mem _ hx)

theorem trimClosing_eq (content : List Char) :
    trimClosing content =
      if (content.reverse.dropWhile isBlank).reverse = [] then content
      else (content.reverse.dropWhile isBlank).reverse := by
  unfold trimClosing
  split
  · rename_i h
    rw [if_pos h]
  · rename_i h
    rw [if_neg h]

theorem exists_blanks_of_trimClosing (content : List Char) :
    ∃ blanks, content = trimClosing content ++ blanks ∧ ∀ c ∈ blanks, isBlank c = true := by
  rw [trimClosing_eq]
  split
  · exact ⟨[], by simp, by simp⟩
  · refine ⟨(content.reverse.takeWhile isBlank).reverse, ?_, ?_⟩
    · rw [← List.reverse_append, List.takeWhile_append_dropWhile, List.reverse_reverse]
    · intro c hc
      exact List.mem_takeWhile_imp (List.mem_reverse.mp hc)

theorem trimClosing_trimClosing (content : List Char) :
    trimClosing (trimClosing content) = trimClosing content := by
  rw [trimClosing_eq content]
  split
  · rename_i h
    rw [trimClosing_eq, if_pos h]
  · rename_i h
    rw [trimClosing_eq, List.reverse_reverse, List.dropWhile_idempotent, if_neg h]

theorem quoteAfter_trimClosing {content : List Char} (h : quoteAfter none content = some none) :
    quoteAfter none (trimClosing content) = some none := by
  obtain ⟨blanks, hcontent, hblanks⟩ := exists_blanks_of_trimClosing content
  rw [hcontent, quoteAfter_append] at h
  obtain ⟨quote, hquote, hrest⟩ := Option.bind_eq_some_iff.mp h
  have hstate : ∀ q, quote = some q → isQuote q = true := by
    rintro q rfl
    exact isQuote_of_quoteAfter (by simp) hquote
  rw [quoteAfter_blanks hblanks hstate] at hrest
  rw [hquote]
  exact hrest

theorem readEvent_comment {cs content rest : List Char}
    (h : splitAt? "-->".toList cs = some (content, rest)) (other : List Char) :
    readEvent ((Event.comment content).render ++ other) = .ok (.comment content, other) := by
  have hrender : (Event.comment content).render ++ other =
      '<' :: '!' :: '-' :: '-' :: (content ++ ("-->".toList ++ other)) := by
    simp [Event.render_comment]
  have hafter : after? "--".toList ('-' :: '-' :: (content ++ ("-->".toList ++ other))) =
      some (content ++ ("-->".toList ++ other)) := after?_eq_some_iff.mpr rfl
  rw [hrender, readEvent_lt, readMarkup_bang]
  simp only [readBang, hafter, Option.bind_some, splitAt?_append h other]

theorem readEvent_cdata {cs content rest : List Char}
    (h : splitAt? "]]>".toList cs = some (content, rest)) (other : List Char) :
    readEvent ((Event.cdata content).render ++ other) = .ok (.cdata content, other) := by
  have hrender : (Event.cdata content).render ++ other =
      '<' :: '!' :: '[' :: ("CDATA[".toList ++ (content ++ ("]]>".toList ++ other))) := by
    simp [Event.render_cdata]
  have hafter : after? "[CDATA[".toList
      ('[' :: ("CDATA[".toList ++ (content ++ ("]]>".toList ++ other)))) =
      some (content ++ ("]]>".toList ++ other)) := after?_eq_some_iff.mpr rfl
  rw [hrender, readEvent_lt, readMarkup_bang]
  simp only [readBang, hafter, Option.bind_some, splitAt?_append h other]

theorem readQuestion_append {cs content rest : List Char} (hhead : cs.head? ≠ some '>')
    (h : splitAt? "?>".toList cs = some (content, rest)) (other : List Char) :
    readQuestion (content ++ ("?>".toList ++ other)) =
      .ok (if isDeclaration content then .declaration content else .instruction content, other) := by
  have hcs := eq_of_splitAt?_eq_some h
  have hother : (content ++ ("?>".toList ++ other)).head? ≠ some '>' := by
    cases content with
    | nil => simp
    | cons c content => simpa [hcs] using hhead
  rw [readQuestion, if_neg hother, splitAt?_append h other]

theorem readEvent_question {cs content rest : List Char} (hhead : cs.head? ≠ some '>')
    (h : splitAt? "?>".toList cs = some (content, rest)) {e : Event}
    (he : e = if isDeclaration content then .declaration content else .instruction content)
    (other : List Char) : readEvent (e.render ++ other) = .ok (e, other) := by
  have hrender : e.render ++ other = '<' :: '?' :: (content ++ ("?>".toList ++ other)) := by
    rw [he]
    split
    · simp [Event.render_declaration]
    · simp [Event.render_instruction]
  rw [hrender, readEvent_lt, readMarkup_question, readQuestion_append hhead h, he]

theorem readEvent_reference {name : List Char}
    (h : ∀ c ∈ name, (c != ';' && c != '&' && c != '<') = true) (rest : List Char) :
    readEvent ((Event.reference name).render ++ rest) = .ok (.reference name, rest) := by
  have hrender : (Event.reference name).render ++ rest = '&' :: (name ++ ';' :: rest) := by
    simp [Event.render_reference]
  rw [hrender, readEvent_amp, readReference]
  simp only [List.dropWhile_append_of_pos h, List.takeWhile_append_of_pos h]
  simp

theorem isPlainDoctype_of_sameLetters {cs : List Char}
    (h : sameLetters cs "DOCTYPE".toList = true) : ∀ c ∈ cs, isPlainDoctype c = true := by
  intro c hc
  have hlower : c.toLower ∈ "doctype".toList := by
    have heq : lowerAscii cs = "doctype".toList := by
      have := beq_iff_eq.mp h
      rw [this]
      decide
    rw [← heq]
    exact List.mem_map_of_mem hc
  simp only [isPlainDoctype, Bool.and_eq_true, bne_iff_ne, ne_eq]
  refine ⟨⟨⟨?_, ?_⟩, ?_⟩, ?_⟩ <;> (rintro rfl; revert hlower; decide)

theorem readBang_of_ne {c : Char} (hbracket : c ≠ '[') (hhyphen : c ≠ '-') (cs : List Char) :
    readBang (c :: cs) =
      if c.toUpper ≠ 'D' then .error (.syntaxError .unknownMarkup)
      else
        match closeDoctype .outside (c :: cs) with
        | none => .error (.syntaxError .unclosedDoctype)
        | some (content, rest) =>
          if ¬ sameLetters (content.take 7) "DOCTYPE".toList then
            .error (.syntaxError .unclosedDoctype)
          else
            match (content.drop 7).dropWhile isBlank with
            | [] => .error (.illFormed .missingDoctypeName)
            | name => .ok (.doctype name, rest) := by
  unfold readBang
  split
  · rename_i heq
    exact absurd (List.cons.inj heq).1 hbracket
  · rename_i heq
    exact absurd (List.cons.inj heq).1 hhyphen
  · rename_i heq
    obtain ⟨rfl, -⟩ := List.cons.inj heq
    rfl
  · rename_i heq
    cases heq

theorem readBang_of_closeDoctype {cs content rest name : List Char}
    (h : closeDoctype .outside ('D' :: cs) = some (content, rest))
    (hmark : sameLetters (content.take 7) "DOCTYPE".toList = true)
    (hname : (content.drop 7).dropWhile isBlank = name) (hne : name ≠ []) :
    readBang ('D' :: cs) = .ok (.doctype name, rest) := by
  have hword : ¬ ('D'.toUpper ≠ 'D') := by decide
  rw [readBang_of_ne (by decide) (by decide), if_neg hword, h]
  simp only [hmark, not_true_eq_false, ↓reduceIte]
  split
  · rename_i hnil
    exact absurd (hname ▸ hnil) hne
  · rw [hname]

theorem readEvent_doctype {cs content rest : List Char}
    (h : closeDoctype .outside cs = some (content, rest))
    (hmark : sameLetters (content.take 7) "DOCTYPE".toList = true) {name : List Char}
    (hname : (content.drop 7).dropWhile isBlank = name) (hne : name ≠ []) (other : List Char) :
    readEvent ((Event.doctype name).render ++ other) = .ok (.doctype name, other) := by
  have hblank : ∀ c ∈ (content.drop 7).takeWhile isBlank, isPlainDoctype c = true := by
    intro c hc
    have hc : isBlank c = true := List.mem_takeWhile_imp hc
    simp only [isBlank, Bool.or_eq_true, beq_iff_eq] at hc
    rcases hc with ((rfl | rfl) | rfl) | rfl <;> decide
  have hcontent : content = content.take 7 ++ ((content.drop 7).takeWhile isBlank ++ name) := by
    rw [← hname, List.takeWhile_append_dropWhile, List.take_append_drop]
  have hclose := (closeDoctype_append h).2 other
  rw [hcontent, List.append_assoc, List.append_assoc,
    closeDoctype_plain_append (isPlainDoctype_of_sameLetters hmark),
    closeDoctype_plain_append hblank] at hclose
  have hbare : closeDoctype .outside (name ++ '>' :: other) = some (name, other) := by
    cases hr : closeDoctype .outside (name ++ '>' :: other) with
    | none => simp [hr] at hclose
    | some r => simpa [hr, Prod.ext_iff] using hclose
  have hword : ∀ c ∈ "DOCTYPE ".toList, isPlainDoctype c = true :=
    List.all_eq_true.mp (by decide)
  have hrender : (Event.doctype name).render ++ other =
      '<' :: '!' :: 'D' :: ("OCTYPE ".toList ++ (name ++ '>' :: other)) := by
    simp [Event.render_doctype]
  have hfull : closeDoctype .outside ('D' :: ("OCTYPE ".toList ++ (name ++ '>' :: other))) =
      some ("DOCTYPE ".toList ++ name, other) := by
    rw [show 'D' :: ("OCTYPE ".toList ++ (name ++ '>' :: other)) =
      "DOCTYPE ".toList ++ (name ++ '>' :: other) from rfl, closeDoctype_plain_append hword, hbare]
    rfl
  have hdrop : (("DOCTYPE ".toList ++ name).drop 7).dropWhile isBlank = name := by
    change (' ' :: name).dropWhile isBlank = name
    rw [List.dropWhile_cons, if_pos (by decide), ← hname, List.dropWhile_idempotent]
  have htake : sameLetters (("DOCTYPE ".toList ++ name).take 7) "DOCTYPE".toList = true := by
    change sameLetters "DOCTYPE".toList "DOCTYPE".toList = true
    decide
  rw [hrender, readEvent_lt, readMarkup_bang, readBang_of_closeDoctype hfull htake hdrop hne]

theorem readsBack_of_readOpening {cs rest : List Char} {e : Event} (hstart : startsTag cs = true)
    (h : readOpening cs = .ok (e, rest)) : e.ReadsBack := by
  obtain ⟨closed, t, rfl, -, hform, htag, hcloses⟩ := exists_ofTag_of_readOpening hstart h
  exact readsBack_ofTag.mpr (readEvent_ofTag hform htag hcloses)

theorem readsBack_of_readClosing {cs rest : List Char} {e : Event}
    (h : readClosing cs = .ok (e, rest)) : e.ReadsBack := by
  simp only [readClosing] at h
  split at h
  · rename_i content tail hclose
    obtain ⟨rfl, hquote⟩ := closeTag_eq_ok_iff.mp hclose
    simp only [Except.ok.injEq, Prod.mk.injEq] at h
    obtain ⟨rfl, rfl⟩ := h
    exact readEvent_closing (quoteAfter_trimClosing hquote) (trimClosing_trimClosing _)
  · cases h

theorem readsBack_of_readQuestion {cs rest : List Char} {e : Event}
    (h : readQuestion cs = .ok (e, rest)) : e.ReadsBack := by
  simp only [readQuestion] at h
  split at h
  · rename_i content tail hsplit
    simp only [Except.ok.injEq, Prod.mk.injEq] at h
    obtain ⟨rfl, rfl⟩ := h
    have hhead : cs.head? ≠ some '>' := by
      intro hhead
      rw [if_pos hhead] at hsplit
      cases hsplit
    rw [if_neg hhead] at hsplit
    have hread := readEvent_question hhead hsplit rfl
    by_cases hd : isDeclaration content = true
    · rw [if_pos hd] at hread ⊢
      exact hread
    · rw [if_neg hd] at hread ⊢
      exact hread
  · cases h

theorem readsBack_of_readBang {cs rest : List Char} {e : Event}
    (h : readBang cs = .ok (e, rest)) : e.ReadsBack := by
  simp only [readBang] at h
  split at h
  · split at h
    · rename_i content tail hsplit
      obtain ⟨inner, _, hsplit⟩ := Option.bind_eq_some_iff.mp hsplit
      simp only [Except.ok.injEq, Prod.mk.injEq] at h
      obtain ⟨rfl, rfl⟩ := h
      exact readEvent_cdata hsplit
    · cases h
  · split at h
    · rename_i content tail hsplit
      obtain ⟨inner, _, hsplit⟩ := Option.bind_eq_some_iff.mp hsplit
      simp only [Except.ok.injEq, Prod.mk.injEq] at h
      obtain ⟨rfl, rfl⟩ := h
      exact readEvent_comment hsplit
    · cases h
  · split at h
    · cases h
    · split at h
      · cases h
      · rename_i content tail hclose
        split at h
        · cases h
        · rename_i hmark
          split at h
          · cases h
          · rename_i name hne
            simp only [Except.ok.injEq, Prod.mk.injEq] at h
            obtain ⟨rfl, rfl⟩ := h
            exact readEvent_doctype hclose (by simpa using hmark) rfl hne
  · cases h

theorem readsBack_of_readReference {cs rest : List Char} {e : Event}
    (h : readReference cs = .ok (e, rest)) : e.ReadsBack := by
  simp only [readReference] at h
  split at h
  · simp only [Except.ok.injEq, Prod.mk.injEq] at h
    obtain ⟨rfl, rfl⟩ := h
    refine readEvent_reference fun c hc => ?_
    have hin := List.mem_takeWhile_imp hc
    exact hin
  · cases h

inductive Event.Read : List Char → Event → List Char → Prop where
  | opening {cs rest : List Char} {e : Event} (hstart : startsTag cs = true)
    (h : readOpening cs = .ok (e, rest)) : Read ('<' :: cs) e rest
  | bang {cs rest : List Char} {e : Event} (h : readBang cs = .ok (e, rest)) :
    Read ('<' :: '!' :: cs) e rest
  | question {cs rest : List Char} {e : Event} (h : readQuestion cs = .ok (e, rest)) :
    Read ('<' :: '?' :: cs) e rest
  | closing {cs rest : List Char} {e : Event} (h : readClosing cs = .ok (e, rest)) :
    Read ('<' :: '/' :: cs) e rest
  | reference {cs rest : List Char} {e : Event} (h : readReference cs = .ok (e, rest)) :
    Read ('&' :: cs) e rest
  | text {c : Char} {cs : List Char} (hplain : isPlain c = true) :
    Read (c :: cs) (.text ((c :: cs).takeWhile isPlain)) ((c :: cs).dropWhile isPlain)

theorem read_of_readEvent {cs rest : List Char} {e : Event} (hne : cs ≠ [])
    (h : readEvent cs = .ok (e, rest)) : e.Read cs rest := by
  obtain ⟨c, cs, rfl⟩ := List.exists_cons_of_ne_nil hne
  by_cases hlt : c = '<'
  · subst hlt
    rw [readEvent_lt] at h
    by_cases hstart : startsTag cs = true
    · rw [readMarkup_of_startsTag hstart] at h
      exact .opening hstart h
    · unfold startsTag at hstart
      split at hstart
      · exact .bang h
      · exact .question h
      · exact .closing h
      · exact absurd rfl hstart
  · by_cases hamp : c = '&'
    · subst hamp
      rw [readEvent_amp] at h
      exact .reference h
    · have hplain : isPlain c = true := by simp [isPlain, hlt, hamp]
      rw [readEvent_plain hplain] at h
      obtain ⟨rfl, rfl⟩ := Prod.mk.inj (Except.ok.inj h)
      exact .text hplain

theorem readsBack_of_readEvent {cs rest : List Char} {e : Event} (hne : cs ≠ [])
    (h : readEvent cs = .ok (e, rest)) : e.ReadsBack := by
  cases read_of_readEvent hne h with
  | opening hstart h => exact readsBack_of_readOpening hstart h
  | bang h => exact readsBack_of_readBang h
  | question h => exact readsBack_of_readQuestion h
  | closing h => exact readsBack_of_readClosing h
  | reference h => exact readsBack_of_readReference h
  | text hplain =>
    refine ⟨?_, fun d hd => List.mem_takeWhile_imp hd⟩
    rw [List.takeWhile_cons, if_pos hplain]
    exact List.cons_ne_nil _ _

theorem exists_text {e : Event} (h : e.isText = true) : ∃ content, e = .text content := by
  cases e with
  | text content => exact ⟨content, rfl⟩
  | _ => cases h

def Event.isTag : Event → Bool
  | .opening _ | .empty _ => true
  | _ => false

theorem Event.isTag_ofTag (closed : Bool) (t : Tag) : (ofTag closed t).isTag = true := by
  cases closed <;> rfl

theorem Event.ne_ofTag {e : Event} (h : e.isTag = false) (closed : Bool) (t : Tag) :
    e ≠ ofTag closed t := by
  rintro rfl
  rw [isTag_ofTag] at h
  cases h

theorem exists_ofTag {e : Event} (h : e.isTag = true) : ∃ closed t, e = .ofTag closed t := by
  cases e with
  | opening t => exact ⟨false, t, rfl⟩
  | empty t => exact ⟨true, t, rfl⟩
  | _ => cases h

theorem isTag_of_startsTag {cs rest : List Char} {e : Event} (hstart : startsTag cs = true)
    (h : readEvent ('<' :: cs) = .ok (e, rest)) : e.isTag = true := by
  rw [readEvent_lt, readMarkup_of_startsTag hstart] at h
  obtain ⟨closed, t, rfl, -⟩ := exists_ofTag_of_readOpening hstart h
  cases closed <;> rfl

theorem isTag_of_readBang {cs rest : List Char} {e : Event} (h : readBang cs = .ok (e, rest)) :
    e.isTag = false := by
  simp only [readBang] at h
  split at h
  · split at h <;> cases h
    rfl
  · split at h <;> cases h
    rfl
  · split at h
    · cases h
    · split at h
      · cases h
      · split at h
        · cases h
        · split at h <;> cases h
          rfl
  · cases h

theorem isTag_of_readQuestion {cs rest : List Char} {e : Event}
    (h : readQuestion cs = .ok (e, rest)) : e.isTag = false := by
  simp only [readQuestion] at h
  split at h
  · rename_i content tail _
    cases h
    split <;> rfl
  · cases h

theorem isTag_of_readClosing {cs rest : List Char} {e : Event}
    (h : readClosing cs = .ok (e, rest)) : e.isTag = false := by
  simp only [readClosing] at h
  split at h <;> cases h
  rfl

theorem isTag_of_readReference {cs rest : List Char} {e : Event}
    (h : readReference cs = .ok (e, rest)) : e.isTag = false := by
  simp only [readReference] at h
  split at h <;> cases h
  rfl

theorem eq_render_of_readEvent {cs rest : List Char} {closed : Bool} {t : Tag}
    (h : readEvent cs = .ok (.ofTag closed t, rest)) :
    cs = (Event.ofTag closed t).render ++ rest ∧ Tag.ofContent t.content = t ∧
      startsTag t.content = true ∧ t.Closes closed := by
  have hnot (hfalse : (Event.ofTag closed t).isTag = false) : False :=
    Event.ne_ofTag hfalse closed t rfl
  have hne : cs ≠ [] := by
    rintro rfl
    cases closed <;> cases h
  generalize he : Event.ofTag closed t = e at h hnot
  cases read_of_readEvent hne h with
  | opening hstart h =>
    obtain ⟨kind, u, rfl, htext⟩ := exists_ofTag_of_readOpening hstart h
    obtain ⟨rfl, rfl⟩ := Event.ofTag_injective he
    exact htext
  | bang h => exact (hnot (isTag_of_readBang h)).elim
  | question h => exact (hnot (isTag_of_readQuestion h)).elim
  | closing h => exact (hnot (isTag_of_readClosing h)).elim
  | reference h => exact (hnot (isTag_of_readReference h)).elim
  | text => exact (hnot rfl).elim

theorem closes_of_readsBack {closed : Bool} {t : Tag} (h : (Event.ofTag closed t).ReadsBack) :
    t.Closes closed :=
  (eq_render_of_readEvent (readsBack_ofTag.mp h [])).2.2.2

def startsConstruct : List Char → Bool
  | [] => true
  | c :: _ => !isPlain c

theorem startsConstruct_render {e : Event} (h : e.isText = false) (rest : List Char) :
    startsConstruct (e.render ++ rest) = true := by
  cases e with
  | text => cases h
  | _ => rfl

end StaticSite.Xml
