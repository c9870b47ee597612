import StaticSite.Proofs.Xml.ReadBack
import StaticSite.Xml.Reading

/-!
Texts one after the other. An event ends where its own text says, so what follows only matters to
text, which goes on into text.
-/

namespace StaticSite.Xml
open StaticSite.Text Reading

theorem scan_nil : scan [] = ⟨[], none⟩ := by
  rw [scan]
  rfl

theorem scan_cons (c : Char) (cs : List Char) :
    scan (c :: cs) = match readEvent (c :: cs) with
      | .error e => ⟨[], some e⟩
      | .ok (e, rest) => ⟨e :: (scan rest).events, (scan rest).failure⟩ := by
  rw [scan]
  split <;> rename_i h <;> rw [h] <;> rfl

theorem scan_of_readEvent {cs rest : List Char} {e : Event} (hne : cs ≠ [])
    (h : readEvent cs = .ok (e, rest)) :
    scan cs = ⟨e :: (scan rest).events, (scan rest).failure⟩ := by
  cases cs with
  | nil => exact absurd rfl hne
  | cons c cs => rw [scan_cons, h]

theorem readsBack_of_mem_scan {cs : List Char} {e : Event} (h : e ∈ (scan cs).events) :
    e.ReadsBack := by
  fun_induction scan cs with
  | case1 => cases h
  | case2 => cases h
  | case3 c cs d rest hread ih =>
    cases h with
    | head => exact readsBack_of_readEvent (by simp) hread
    | tail _ h => exact ih h

def withoutText (es : List Event) : List Event :=
  es.filter (!·.isText)

theorem withoutText_cons_of_isText {e : Event} (h : e.isText = true) (es : List Event) :
    withoutText (e :: es) = withoutText es := by
  simp [withoutText, h]

theorem withoutText_cons {e : Event} (h : e.isText = false) (es : List Event) :
    withoutText (e :: es) = e :: withoutText es := by
  simp [withoutText, h]

@[simp]
theorem withoutText_append (es fs : List Event) :
    withoutText (es ++ fs) = withoutText es ++ withoutText fs :=
  List.filter_append ..

theorem readEvent_plain_append {c : Char} {cs rest : List Char}
    (hplain : ∀ d ∈ c :: cs, isPlain d = true) (hrest : startsConstruct rest = true) :
    readEvent (c :: cs ++ rest) = .ok (.text (c :: cs), rest) := by
  have hstop : rest.takeWhile isPlain = [] ∧ rest.dropWhile isPlain = rest := by
    cases rest with
    | nil => exact ⟨rfl, rfl⟩
    | cons d rest =>
      have hd : isPlain d = false := by simpa [startsConstruct] using hrest
      simp [hd]
  rw [List.cons_append, readEvent_plain (hplain c (by simp)), ← List.cons_append,
    List.takeWhile_append_of_pos hplain, List.dropWhile_append_of_pos hplain, hstop.1, hstop.2,
    List.append_nil]

theorem render_ne_nil {e : Event} (h : e.isText = false) : e.render ≠ [] := by
  cases e with
  | text => cases h
  | _ => exact List.cons_ne_nil _ _

theorem scan_event_append {e : Event} (htext : e.isText = false) (h : e.ReadsBack)
    (rest : List Char) :
    scan (e.render ++ rest) = ⟨e :: (scan rest).events, (scan rest).failure⟩ := by
  have hread : readEvent (e.render ++ rest) = .ok (e, rest) := by
    cases e with
    | text => cases htext
    | _ => exact h rest
  exact scan_of_readEvent (by simp [render_ne_nil htext]) hread

section Append

variable {cs content rest : List Char} (more : List Char)

theorem closeTag_append {quote : Option Char} (h : closeTag quote cs = .ok (content, rest)) :
    closeTag quote (cs ++ more) = .ok (content, rest ++ more) := by
  obtain ⟨rfl, hquote⟩ := closeTag_eq_ok_iff.mp h
  exact closeTag_eq_ok_iff.mpr ⟨by simp, hquote⟩

theorem splitAt?_append_right {mark : List Char} (h : splitAt? mark cs = some (content, rest)) :
    splitAt? mark (cs ++ more) = some (content, rest ++ more) := by
  have hcs := eq_of_splitAt?_eq_some h
  rw [hcs, List.append_assoc, List.append_assoc]
  exact splitAt?_append h (rest ++ more)

theorem bind_splitAt?_append {mark ending : List Char}
    (h : (after? mark cs).bind (splitAt? ending) = some (content, rest)) :
    (after? mark (cs ++ more)).bind (splitAt? ending) = some (content, rest ++ more) := by
  obtain ⟨inner, hafter, hsplit⟩ := Option.bind_eq_some_iff.mp h
  have hmore : after? mark (cs ++ more) = some (inner ++ more) := by
    rw [after?_eq_some_iff.mp hafter, List.append_assoc]
    exact after?_eq_some_iff.mpr rfl
  rw [hmore, Option.bind_some]
  exact splitAt?_append_right more hsplit

variable {e : Event}

theorem readOpening_append (h : readOpening cs = .ok (e, rest)) :
    readOpening (cs ++ more) = .ok (e, rest ++ more) := by
  simp only [readOpening] at h ⊢
  split at h
  · rename_i hclose
    rw [closeTag_append more hclose]
    obtain ⟨rfl, rfl⟩ := Prod.mk.inj (Except.ok.inj h)
    rfl
  · cases h

theorem readClosing_append (h : readClosing cs = .ok (e, rest)) :
    readClosing (cs ++ more) = .ok (e, rest ++ more) := by
  simp only [readClosing] at h ⊢
  split at h
  · rename_i hclose
    rw [closeTag_append more hclose]
    obtain ⟨rfl, rfl⟩ := Prod.mk.inj (Except.ok.inj h)
    rfl
  · cases h

theorem readQuestion_append_right (h : readQuestion cs = .ok (e, rest)) :
    readQuestion (cs ++ more) = .ok (e, rest ++ more) := by
  simp only [readQuestion] at h ⊢
  split at h
  · rename_i hsplit
    split at hsplit
    · cases hsplit
    · rename_i hhead
      have hne : cs ≠ [] := by
        rintro rfl
        cases hsplit
      have hhead' : ¬ (cs ++ more).head? = some '>' := by
        obtain ⟨c, cs, rfl⟩ := List.exists_cons_of_ne_nil hne
        exact hhead
      rw [if_neg hhead', splitAt?_append_right more hsplit]
      obtain ⟨rfl, rfl⟩ := Prod.mk.inj (Except.ok.inj h)
      rfl
  · cases h

theorem readDoctype_append {c : Char} (hbracket : c ≠ '[') (hhyphen : c ≠ '-')
    (h : readBang (c :: cs) = .ok (e, rest)) :
    readBang (c :: cs ++ more) = .ok (e, rest ++ more) := by
  rw [readBang_of_ne hbracket hhyphen] at h
  rw [List.cons_append, readBang_of_ne hbracket hhyphen]
  split at h
  · cases h
  · rename_i hword
    rw [if_neg hword]
    split at h
    · cases h
    · rename_i content tail hclose
      obtain ⟨hcs, hall⟩ := closeDoctype_append hclose
      have hmore : closeDoctype .outside (c :: (cs ++ more)) = some (content, tail ++ more) := by
        rw [← List.cons_append, hcs, List.append_assoc]
        exact hall (tail ++ more)
      simp only [hmore]
      split at h
      · cases h
      · rename_i hmark
        rw [if_neg hmark]
        split at h
        · cases h
        · rename_i name hne
          obtain ⟨rfl, rfl⟩ := Prod.mk.inj (Except.ok.inj h)
          rfl

theorem readBang_append (h : readBang cs = .ok (e, rest)) :
    readBang (cs ++ more) = .ok (e, rest ++ more) := by
  cases cs with
  | nil => cases h
  | cons c cs =>
    by_cases hbracket : c = '['
    · subst hbracket
      simp only [readBang] at h
      split at h
      · rename_i hsplit
        obtain ⟨rfl, rfl⟩ := Prod.mk.inj (Except.ok.inj h)
        have hmore := bind_splitAt?_append more hsplit
        simp only [List.cons_append, readBang] at hmore ⊢
        rw [hmore]
      · cases h
    · by_cases hhyphen : c = '-'
      · subst hhyphen
        simp only [readBang] at h
        split at h
        · rename_i hsplit
          obtain ⟨rfl, rfl⟩ := Prod.mk.inj (Except.ok.inj h)
          have hmore := bind_splitAt?_append more hsplit
          simp only [List.cons_append, readBang] at hmore ⊢
          rw [hmore]
        · cases h
      · exact readDoctype_append more hbracket hhyphen h

theorem readReference_append (h : readReference cs = .ok (e, rest)) :
    readReference (cs ++ more) = .ok (e, rest ++ more) := by
  simp only [readReference] at h ⊢
  split at h
  · rename_i tail hdrop
    obtain ⟨rfl, rfl⟩ := Prod.mk.inj (Except.ok.inj h)
    have hcs : cs.takeWhile (fun c => c != ';' && c != '&' && c != '<') ++ _ = cs :=
      List.takeWhile_append_dropWhile
    rw [hdrop] at hcs
    have hin : ∀ c ∈ cs.takeWhile (fun c => c != ';' && c != '&' && c != '<'),
        (c != ';' && c != '&' && c != '<') = true := by
      intro c hc
      have hin := List.mem_takeWhile_imp hc
      exact hin
    generalize cs.takeWhile (fun c => c != ';' && c != '&' && c != '<') = name at hcs hin
    subst hcs
    simp [List.dropWhile_append_of_pos hin, List.takeWhile_append_of_pos hin]
  · cases h

end Append

theorem startsConstruct_append {cs : List Char} (h : startsConstruct cs = true) {more : List Char}
    (hmore : cs = [] → startsConstruct more = true) : startsConstruct (cs ++ more) = true := by
  cases cs with
  | nil => exact hmore rfl
  | cons c cs => exact h

theorem startsConstruct_dropWhile (cs : List Char) :
    startsConstruct (cs.dropWhile isPlain) = true := by
  cases hcs : cs.dropWhile isPlain with
  | nil => rfl
  | cons c rest =>
    have := List.head?_dropWhile_not isPlain cs
    simpa [hcs, startsConstruct] using this

theorem readEvent_append {cs rest more : List Char} {e : Event} (hne : cs ≠ [])
    (h : readEvent cs = .ok (e, rest))
    (hmore : e.isText = true → rest = [] → startsConstruct more = true) :
    readEvent (cs ++ more) = .ok (e, rest ++ more) := by
  cases read_of_readEvent hne h with
  | @opening cs rest e hstart h =>
    have hcs : cs ≠ [] := by
      rintro rfl
      cases h
    rw [List.cons_append, readEvent_lt, readMarkup_of_startsTag (startsTag_append hstart hcs more)]
    exact readOpening_append more h
  | bang h => exact readBang_append more h
  | question h => exact readQuestion_append_right more h
  | closing h => exact readClosing_append more h
  | reference h => exact readReference_append more h
  | @text c cs hplain =>
    have hstart := startsConstruct_append (startsConstruct_dropWhile (c :: cs)) (hmore rfl)
    have hall : ∀ d ∈ (c :: cs).takeWhile isPlain, isPlain d = true :=
      fun d hd => List.mem_takeWhile_imp hd
    have hsplit := List.takeWhile_append_dropWhile (p := isPlain) (l := c :: cs)
    have htake : (c :: cs).takeWhile isPlain = c :: cs.takeWhile isPlain := by
      rw [List.takeWhile_cons, if_pos hplain]
    rw [htake] at hall hsplit
    have hread := readEvent_plain_append hall hstart
    rw [← List.append_assoc, hsplit] at hread
    rw [hread, htake]

def Event.inFront : Event → List Event → List Event
  | .text cs, .text ds :: es => .text (cs ++ ds) :: es
  | e, es => e :: es

def joined (es fs : List Event) : List Event :=
  es.foldr Event.inFront fs

theorem joined_cons (e : Event) (es fs : List Event) :
    joined (e :: es) fs = e.inFront (joined es fs) := rfl

theorem inFront_of_not_text {e : Event} (h : e.isText = false) (es : List Event) :
    e.inFront es = e :: es := by
  cases e with
  | text => cases h
  | _ => rfl

theorem render_inFront (e : Event) (es : List Event) :
    render (e.inFront es) = e.render ++ render es := by
  unfold Event.inFront
  split
  · rw [render_cons, render_cons, ← List.append_assoc]
    rfl
  · rw [render_cons]

theorem render_joined (es fs : List Event) : render (joined es fs) = render es ++ render fs := by
  induction es with
  | nil => rfl
  | cons e es ih => rw [joined_cons, render_inFront, ih, render_cons, List.append_assoc]

theorem withoutText_inFront (e : Event) (es : List Event) :
    withoutText (e.inFront es) = withoutText (e :: es) := by
  unfold Event.inFront
  split
  · simp only [withoutText_cons_of_isText (show (Event.text _).isText = true from rfl)]
  · rfl

theorem withoutText_joined (es fs : List Event) :
    withoutText (joined es fs) = withoutText es ++ withoutText fs := by
  induction es with
  | nil => rfl
  | cons e es ih =>
    have hcons (ds : List Event) : withoutText (e :: ds) = withoutText [e] ++ withoutText ds :=
      withoutText_append [e] ds
    rw [joined_cons, withoutText_inFront, hcons, ih, hcons es, List.append_assoc]

theorem forall_mem_joined {P : Event → Prop} {es fs : List Event}
    (htext : ∀ cs ds, P (.text cs) → P (.text ds) → P (.text (cs ++ ds)))
    (hes : ∀ e ∈ es, P e) (hfs : ∀ e ∈ fs, P e) : ∀ e ∈ joined es fs, P e := by
  induction es with
  | nil => exact hfs
  | cons e es ih =>
    have he := hes e (List.mem_cons_self ..)
    have hrest := ih fun d hd => hes d (List.mem_cons_of_mem _ hd)
    rw [joined_cons]
    unfold Event.inFront
    split
    · rename_i heq
      rw [heq] at hrest
      obtain ⟨hfirst, hothers⟩ := List.forall_mem_cons.mp hrest
      exact List.forall_mem_cons.mpr ⟨htext _ _ he hfirst, hothers⟩
    · exact List.forall_mem_cons.mpr ⟨he, hrest⟩

theorem isText_of_readBang {cs rest : List Char} {e : Event} (h : readBang cs = .ok (e, rest)) :
    e.isText = false := by
  simp only [readBang] at h
  repeat' split at h
  all_goals
    cases h
    try rfl

theorem isText_of_startsConstruct {cs rest : List Char} {e : Event} (hne : cs ≠ [])
    (hstart : startsConstruct cs = true) (h : readEvent cs = .ok (e, rest)) : e.isText = false := by
  cases read_of_readEvent hne h with
  | opening htag h =>
    obtain ⟨closed, t, rfl, -⟩ := exists_ofTag_of_readOpening htag h
    cases closed <;> rfl
  | bang h => exact isText_of_readBang h
  | question h =>
    simp only [readQuestion] at h
    split at h <;> cases h
    split <;> rfl
  | closing h =>
    simp only [readClosing] at h
    split at h <;> cases h
    rfl
  | reference h =>
    simp only [readReference] at h
    split at h <;> cases h
    rfl
  | text hplain => simp [startsConstruct, hplain] at hstart

theorem joined_cons_of_not_text {e : Event} (h : e.isText = false) (es fs : List Event) :
    joined es (e :: fs) = joined es [] ++ e :: fs := by
  induction es with
  | nil => rfl
  | cons d es ih =>
    rw [joined_cons, joined_cons, ih]
    cases joined es [] with
    | nil => cases d <;> cases e <;> first | rfl | cases h
    | cons g gs => cases d <;> cases g <;> rfl

theorem joined_of_startsConstruct {rest : List Char} (h : startsConstruct rest = true)
    (es : List Event) : joined es (scan rest).events = joined es [] ++ (scan rest).events := by
  cases rest with
  | nil => rw [scan_nil, List.append_nil]
  | cons c rest =>
    rw [scan_cons]
    cases hread : readEvent (c :: rest) with
    | error err => rw [List.append_nil]
    | ok r =>
      exact joined_cons_of_not_text (isText_of_startsConstruct (List.cons_ne_nil _ _) h hread) _ _

theorem scan_plain {cs : List Char} (hne : cs ≠ []) (hplain : ∀ c ∈ cs, isPlain c = true)
    (rest : List Char) :
    scan (cs ++ rest) = ⟨(Event.text cs).inFront (scan rest).events, (scan rest).failure⟩ := by
  obtain ⟨c, cs, rfl⟩ := List.exists_cons_of_ne_nil hne
  have htext {d : Char} {ds others : List Char} (hds : ∀ x ∈ d :: ds, isPlain x = true)
      (hothers : startsConstruct others = true) : scan (d :: ds ++ others) =
        ⟨.text (d :: ds) :: (scan others).events, (scan others).failure⟩ :=
    scan_of_readEvent (by simp) (readEvent_plain_append hds hothers)
  -- Text goes on over the seam, up to the first character of the second text that is not plain.
  have hstart := startsConstruct_dropWhile rest
  have hsplit := List.takeWhile_append_dropWhile (p := isPlain) (l := rest)
  have hin : ∀ d ∈ rest.takeWhile isPlain, isPlain d = true := fun d hd => List.mem_takeWhile_imp hd
  generalize rest.dropWhile isPlain = others at hstart hsplit
  generalize rest.takeWhile isPlain = front at hsplit hin
  subst hsplit
  cases front with
  | nil =>
    rw [List.nil_append, htext hplain hstart]
    exact congrArg (Reading.mk · _) (joined_of_startsConstruct hstart [.text (c :: cs)]).symm
  | cons d ds =>
    have hboth : ∀ x ∈ c :: (cs ++ d :: ds), isPlain x = true := by
      intro x hx
      rw [← List.cons_append] at hx
      rcases List.mem_append.mp hx with hx | hx
      · exact hplain x hx
      · exact hin x hx
    rw [← List.append_assoc, List.cons_append, htext hboth hstart, htext hin hstart]
    rfl

theorem scan_render {es : List Event} (hes : ∀ e ∈ es, e.ReadsBack) (rest : List Char) :
    scan (render es ++ rest) = ⟨joined es (scan rest).events, (scan rest).failure⟩ := by
  induction es with
  | nil => rfl
  | cons e es ih =>
    have he := hes e (List.mem_cons_self ..)
    have hrest := ih fun d hd => hes d (List.mem_cons_of_mem _ hd)
    rw [render_cons, List.append_assoc, joined_cons]
    cases htext : e.isText with
    | true =>
      obtain ⟨cs, rfl⟩ := exists_text htext
      obtain ⟨hne, hplain⟩ := Event.readsBack_text.mp he
      change scan (cs ++ _) = _
      rw [scan_plain hne hplain, hrest]
    | false => rw [scan_event_append htext he, inFront_of_not_text htext, hrest]

theorem scan_render_append {es : List Event} (hes : ∀ e ∈ es, e.ReadsBack) {cs rest : List Char}
    (hplain : ∀ c ∈ cs, isPlain c = true) (hrest : startsConstruct rest = true) :
    ∃ fs, withoutText fs = withoutText es ∧ render fs = cs ++ render es ∧
      scan (cs ++ (render es ++ rest)) = ⟨fs ++ (scan rest).events, (scan rest).failure⟩ := by
  have hjoined (ds : List Event) : withoutText (joined ds []) = withoutText ds ∧
      render (joined ds []) = render ds := by
    rw [withoutText_joined, render_joined]
    exact ⟨List.append_nil _, List.append_nil _⟩
  cases cs with
  | nil =>
    refine ⟨joined es [], (hjoined es).1, (hjoined es).2, ?_⟩
    rw [List.nil_append, scan_render hes, joined_of_startsConstruct hrest]
  | cons c cs =>
    obtain ⟨htexts, hrender⟩ := hjoined (.text (c :: cs) :: es)
    have hall := List.forall_mem_cons.mpr
      ⟨Event.readsBack_text.mpr ⟨List.cons_ne_nil c cs, hplain⟩, hes⟩
    have hscan := scan_render hall rest
    rw [joined_of_startsConstruct hrest, render_cons, List.append_assoc] at hscan
    rw [render_cons] at hrender
    exact ⟨_, htexts.trans (withoutText_cons_of_isText rfl es), hrender, hscan⟩

theorem scan_append {cs : List Char} (h : (scan cs).failure = none) (rest : List Char) :
    scan (cs ++ rest) = ⟨joined (scan cs).events (scan rest).events, (scan rest).failure⟩ := by
  fun_induction scan cs with
  | case1 => rfl
  | case2 => cases h
  | case3 c cs e next hread ih =>
    have hnext := ih h
    change _ = (⟨e.inFront (joined (scan next).events _), _⟩ : Reading)
    cases hplain : isPlain c with
    | true =>
      rw [readEvent_plain hplain] at hread
      obtain ⟨rfl, rfl⟩ := Prod.mk.inj (Except.ok.inj hread)
      have hsplit := List.takeWhile_append_dropWhile (p := isPlain) (l := c :: cs)
      have hne : (c :: cs).takeWhile isPlain ≠ [] := by
        rw [List.takeWhile_cons, if_pos hplain]
        exact List.cons_ne_nil _ _
      have hin : ∀ d ∈ (c :: cs).takeWhile isPlain, isPlain d = true :=
        fun d hd => List.mem_takeWhile_imp hd
      have hscan := scan_plain hne hin ((c :: cs).dropWhile isPlain ++ rest)
      rw [hnext, ← List.append_assoc, hsplit] at hscan
      exact hscan
    | false =>
      have htext : e.isText = false :=
        isText_of_startsConstruct (List.cons_ne_nil _ _) (by simp [startsConstruct, hplain]) hread
      have hmore : readEvent (c :: cs ++ rest) = .ok (e, next ++ rest) :=
        readEvent_append (List.cons_ne_nil _ _) hread fun h => by rw [h] at htext; cases htext
      rw [scan_of_readEvent (by simp) hmore, hnext, inFront_of_not_text htext]

theorem joined_scan {cs : List Char} (h : (scan cs).failure = none) :
    joined (scan cs).events [] = (scan cs).events := by
  have hscan := congrArg Reading.events (scan_append h [])
  rw [List.append_nil, scan_nil] at hscan
  exact hscan.symm

theorem scan_render_scan {content : List Char} {es : List Event}
    (h : scan content = ⟨es, none⟩) : scan (render es) = ⟨es, none⟩ := by
  have hreads : ∀ e ∈ es, e.ReadsBack := fun e he => readsBack_of_mem_scan (by rwa [h])
  have hjoined : joined (scan content).events [] = (scan content).events :=
    joined_scan (by rw [h])
  rw [h] at hjoined
  have hrender := scan_render hreads []
  rwa [List.append_nil, scan_nil, hjoined] at hrender

theorem scan_append_event {cs : List Char} (h : (scan cs).failure = none) {e : Event}
    (htext : e.isText = false) (he : e.ReadsBack) (rest : List Char) :
    scan (cs ++ (e.render ++ rest)) =
      ⟨(scan cs).events ++ e :: (scan rest).events, (scan rest).failure⟩ := by
  rw [scan_append h, scan_event_append htext he, joined_cons_of_not_text htext, joined_scan h]

theorem withoutMark_cons (c : Char) (cs : List Char) :
    withoutMark (c :: cs) = if c = '\ufeff' then cs else c :: cs := by
  unfold withoutMark
  split
  · rename_i heq
    obtain ⟨rfl, rfl⟩ := List.cons.inj heq
    rw [if_pos rfl]
  · rename_i hne
    rw [if_neg fun hc => hne cs (by rw [hc])]

theorem withoutMark_append_cons {c : Char} (hc : c ≠ '\ufeff') (front rest : List Char) :
    withoutMark (front ++ c :: rest) = withoutMark front ++ c :: rest := by
  cases front with
  | nil =>
    rw [List.nil_append, withoutMark_cons, if_neg hc]
    rfl
  | cons d front =>
    rw [List.cons_append, withoutMark_cons, withoutMark_cons]
    split <;> rfl

theorem withoutMark_render {es : List Event} (hes : ∀ e ∈ es, e.isText = true → e.ReadsBack) :
    withoutMark (render es) = render es ∨
      ∃ cs fs, es = .text ('\ufeff' :: cs) :: fs ∧ withoutMark (render es) = cs ++ render fs := by
  cases es with
  | nil => exact .inl rfl
  | cons e es =>
    cases htext : e.isText with
    | false =>
      refine .inl ?_
      rw [render_cons]
      cases e with
      | text => cases htext
      | _ => rfl
    | true =>
      obtain ⟨content, rfl⟩ := exists_text htext
      have hne := (Event.readsBack_text.mp (hes (.text content) (by simp) rfl)).1
      cases content with
      | nil => exact absurd rfl hne
      | cons c cs =>
        have hrender : render (.text (c :: cs) :: es) = c :: (cs ++ render es) := by
          rw [render_cons]
          rfl
        rw [hrender, withoutMark_cons]
        split
        · rename_i hc
          exact .inr ⟨cs, es, by rw [hc], rfl⟩
        · exact .inl rfl

theorem scan_withoutMark_append {cs : List Char} (h : (scan (withoutMark cs)).failure = none)
    (rest : List Char) :
    ∃ es, scan (withoutMark (cs ++ rest)) = ⟨es, (scan rest).failure⟩ ∧
      withoutText es = withoutText ((scan (withoutMark cs)).events ++ (scan rest).events) := by
  cases cs with
  | cons c cs =>
    have hmark : withoutMark (c :: cs ++ rest) = withoutMark (c :: cs) ++ rest := by
      rw [List.cons_append, withoutMark_cons, withoutMark_cons]
      split <;> rfl
    refine ⟨_, by rw [hmark, scan_append h], ?_⟩
    rw [withoutText_joined, withoutText_append]
  | nil =>
    rw [List.nil_append, show (scan (withoutMark [])).events = [] by
      rw [show withoutMark [] = [] from rfl, scan_nil], List.nil_append]
    cases rest with
    | nil => exact ⟨_, rfl, rfl⟩
    | cons c rest =>
      rw [withoutMark_cons]
      split
      · rename_i hc
        have hplain := scan_plain (List.cons_ne_nil c []) (by simp [hc, isPlain]) rest
        rw [List.singleton_append] at hplain
        rw [hplain, withoutText_inFront, withoutText_cons_of_isText rfl]
        exact ⟨_, rfl, rfl⟩
      · exact ⟨_, rfl, rfl⟩

end StaticSite.Xml
