import StaticSite.Proofs.Svg.Preservation
import StaticSite.Proofs.Svg.Root
import StaticSite.Proofs.Xml.Forest

/-!
An optimizer as one pass over the events of its source. The pass counts the elements that are open,
and remembers the depth of the one that it leaves out.
-/

namespace StaticSite.Svg
open StaticSite.Xml

/-- How far a pass has come. Inside an element that is left out, `droppedAt` is its depth. -/
structure Pass where
  depth : Nat
  droppedAt : Option Nat
  written : List Event

namespace Pass

def start : Pass := ⟨0, none, []⟩

def write (p : Pass) (e : Event) : Pass :=
  if p.droppedAt.isSome then p else { p with written := p.written ++ [e] }

def inside (p : Pass) : Nat :=
  match p.droppedAt with
  | none => 0
  | some level => p.depth - level + 1

end Pass

namespace Optimizer

variable (o : Optimizer)

def dropsElement (t : Tag) : Bool :=
  o.does .removeMetadata && isMetadata t

def step (p : Pass) : Event → Except AttributeError Pass
  | .opening t =>
    let deeper := { p with depth := p.depth + 1 }
    if p.droppedAt.isSome then .ok deeper
    else if o.dropsElement t then .ok { deeper with droppedAt := some deeper.depth }
    else (o.rewriteTag t).map fun u => deeper.write (.opening u)
  | .closing name =>
    let outer := { p with depth := p.depth - 1 }
    match p.droppedAt with
    | some level => .ok (if level = p.depth then { outer with droppedAt := none } else outer)
    | none => .ok (outer.write (.closing name))
  | .empty t =>
    if p.droppedAt.isSome || o.dropsElement t then .ok p
    else (o.rewriteTag t).map fun u => p.write (.empty u)
  | e => .ok (if o.keeps e then p.write e else p)

def run (es : List Event) : Except AttributeError Pass :=
  es.foldlM o.step .start

def reduce (source : List Char) : Except DocumentError (List Char) :=
  let reading := Reading.ofText source
  match o.run reading.events with
  | .error e => .error (.badAttribute e)
  | .ok p =>
    match reading.failure with
    | some e => .error (.xml e)
    | none => if p.depth = 0 then .ok (render p.written) else .error .unclosed

def remaining (inside : Nat) (es : List Event) : List Event :=
  (if o.does .removeMetadata then outsideMetadata inside es else es).filter o.keeps

structure Valid (p : Pass) : Prop where
  does : p.droppedAt.isSome = true → o.does .removeMetadata = true
  level : ∀ level, p.droppedAt = some level → 0 < level ∧ level ≤ p.depth

structure Skips (p : Pass) (e : Event) (next : Pass) : Prop where
  step : o.step p e = .ok next
  valid : o.Valid next
  depth : next.depth = openElements p.depth [e]
  written : next.written = p.written
  remaining : ∀ es, o.remaining p.inside (e :: es) = o.remaining next.inside es

/-- An event that is written, if its attributes can be read. -/
structure Writes (p : Pass) (e : Event) : Prop where
  outside : p.droppedAt = none
  step : o.step p e =
    (o.rewriteEvent e).map fun f => ⟨openElements p.depth [e], none, p.written ++ [f]⟩
  remaining : ∀ es, o.remaining 0 (e :: es) = e :: o.remaining 0 es

variable {o}

theorem valid_of_outside {p : Pass} (h : p.droppedAt = none) : o.Valid p where
  does hsome := by rw [h] at hsome; cases hsome
  level level hlevel := by rw [h] at hlevel; cases hlevel

theorem inside_of_outside {p : Pass} (h : p.droppedAt = none) : p.inside = 0 := by
  rw [Pass.inside, h]

theorem inside_of_dropped {p : Pass} {level : Nat} (h : p.droppedAt = some level) :
    p.inside = p.depth - level + 1 := by
  rw [Pass.inside, h]

structure Plain (e : Event) : Prop where
  step : ∀ p, o.step p e = .ok (if o.keeps e then p.write e else p)
  outside : ∀ es, outsideMetadata 0 (e :: es) = e :: outsideMetadata 0 es
  inside : ∀ depth es, outsideMetadata (depth + 1) (e :: es) = outsideMetadata (depth + 1) es
  depth : ∀ n es, openElements n (e :: es) = openElements n es
  same : o.rewriteEvent e = .ok e

theorem plain_of_isLeaf {e : Event} (hleaf : e.isLeaf = true) (htag : e.isTag = false) :
    Plain (o := o) e := by
  cases e with
  | opening | closing => cases hleaf
  | empty => cases htag
  | _ =>
    exact ⟨fun _ => rfl, fun _ => rfl, fun _ _ => by rw [outsideMetadata] <;> simp, fun _ _ => rfl, rfl⟩

theorem remaining_nil (inside : Nat) : o.remaining inside [] = [] := by
  unfold remaining
  split
  · rw [outsideMetadata, List.filter_nil]
  · exact List.filter_nil

theorem remaining_of_keeps {e : Event} (hkeeps : o.keeps e = true)
    (h : o.does .removeMetadata = true →
      ∀ es, outsideMetadata 0 (e :: es) = e :: outsideMetadata 0 es) (es : List Event) :
    o.remaining 0 (e :: es) = e :: o.remaining 0 es := by
  unfold remaining
  split
  · rename_i hdoes
    rw [h hdoes, List.filter_cons, if_pos hkeeps]
  · rw [List.filter_cons, if_pos hkeeps]

theorem remaining_plain {e : Event} (he : Plain (o := o) e) (es : List Event) :
    o.remaining 0 (e :: es) = if o.keeps e then e :: o.remaining 0 es else o.remaining 0 es := by
  split
  · rename_i hkeeps
    exact remaining_of_keeps hkeeps (fun _ => he.outside) es
  · rename_i hkeeps
    unfold remaining
    split
    · rw [he.outside, List.filter_cons, if_neg hkeeps]
    · rw [List.filter_cons, if_neg hkeeps]

theorem remaining_of_dropsElement {t : Tag} (h : o.dropsElement t = true) (es : List Event) :
    o.remaining 0 (.opening t :: es) = o.remaining 1 es ∧
      o.remaining 0 (.empty t :: es) = o.remaining 0 es := by
  simp only [dropsElement, Bool.and_eq_true] at h
  simp [remaining, outsideMetadata, h]

theorem remaining_tag (closed : Bool) {t : Tag} (h : o.dropsElement t = false) (es : List Event) :
    o.remaining 0 (.ofTag closed t :: es) = .ofTag closed t :: o.remaining 0 es := by
  refine remaining_of_keeps (o.keeps_of_isTag (Event.isTag_ofTag closed t)) (fun hdoes es => ?_) es
  have ht : isMetadata t = false := by simpa [dropsElement, hdoes] using h
  cases closed <;> simp [Event.ofTag, outsideMetadata, ht]

theorem remaining_closing (name : List Char) (es : List Event) :
    o.remaining 0 (.closing name :: es) = .closing name :: o.remaining 0 es :=
  remaining_of_keeps rfl (fun _ _ => rfl) es

theorem Plain.step_outside {e : Event} (he : Plain (o := o) e) (depth : Nat) (written : List Event) :
    o.Writes ⟨depth, none, written⟩ e ∨ ∃ next, o.Skips ⟨depth, none, written⟩ e next := by
  have hremaining := remaining_plain he
  cases hkeeps : o.keeps e with
  | true =>
    simp only [hkeeps, ↓reduceIte] at hremaining
    refine .inl ⟨rfl, ?_, hremaining⟩
    rw [he.step, if_pos hkeeps, he.same, he.depth]
    rfl
  | false =>
    simp only [hkeeps, Bool.false_eq_true, ↓reduceIte] at hremaining
    refine .inr ⟨⟨depth, none, written⟩, ?_, valid_of_outside rfl, ?_, rfl, hremaining⟩
    · rw [he.step, hkeeps, if_neg Bool.false_ne_true]
    · rw [he.depth]
      rfl

theorem Plain.step_inside {e : Event} (he : Plain (o := o) e) {depth level : Nat}
    {written : List Event} (hp : o.Valid ⟨depth, some level, written⟩) :
    ∃ next, o.Skips ⟨depth, some level, written⟩ e next := by
  refine ⟨⟨depth, some level, written⟩, ?_, hp, (he.depth depth []).symm, rfl, fun es => ?_⟩
  · rw [he.step, Pass.write, if_pos (show (some level).isSome = true from rfl), ite_self]
  · rw [inside_of_dropped rfl, remaining, remaining, if_pos (hp.does rfl), if_pos (hp.does rfl),
      he.inside]

theorem step_outside {p : Pass} (hp : p.droppedAt = none) (e : Event) :
    o.Writes p e ∨ ∃ next, o.Skips p e next := by
  obtain ⟨depth, droppedAt, written⟩ := p
  obtain rfl : droppedAt = none := hp
  have hwrites {closed : Bool} {t : Tag} (hdrops : o.dropsElement t = false)
      (hstep : o.step ⟨depth, none, written⟩ (.ofTag closed t) =
        (o.rewriteTag t).map fun u => ⟨if closed then depth else depth + 1, none,
          written ++ [.ofTag closed u]⟩) : o.Writes ⟨depth, none, written⟩ (.ofTag closed t) := by
    refine ⟨rfl, ?_, remaining_tag closed hdrops⟩
    rw [hstep]
    cases closed <;> cases hread : o.rewriteTag t <;>
      simp [Event.ofTag, rewriteEvent, openElements, hread, Except.map]
  cases e with
  | opening t =>
    cases hdrops : o.dropsElement t with
    | true =>
      refine .inr ⟨⟨depth + 1, some (depth + 1), written⟩, ?_, ⟨fun _ => ?_, ?_⟩, rfl, rfl, ?_⟩
      · simp [step, hdrops]
      · simp only [dropsElement, Bool.and_eq_true] at hdrops
        exact hdrops.1
      · rintro level hlevel
        obtain rfl := Option.some.inj hlevel
        exact ⟨Nat.succ_pos _, Nat.le_refl _⟩
      · intro es
        rw [inside_of_outside rfl, inside_of_dropped rfl, Nat.sub_self]
        exact (remaining_of_dropsElement hdrops es).1
    | false => exact .inl (@hwrites false t hdrops (by simp [step, Event.ofTag, hdrops, Pass.write]))
  | empty t =>
    cases hdrops : o.dropsElement t with
    | true =>
      exact .inr ⟨_, by simp [step, hdrops], valid_of_outside rfl, rfl, rfl, fun es =>
        (remaining_of_dropsElement hdrops es).2⟩
    | false => exact .inl (@hwrites true t hdrops (by simp [step, Event.ofTag, hdrops, Pass.write]))
  | closing name => exact .inl ⟨rfl, rfl, remaining_closing name⟩
  | _ => exact (plain_of_isLeaf rfl rfl).step_outside depth written

theorem step_inside {p : Pass} (hp : o.Valid p) {level : Nat} (hlevel : p.droppedAt = some level)
    (e : Event) : ∃ next, o.Skips p e next := by
  obtain ⟨depth, droppedAt, written⟩ := p
  obtain rfl : droppedAt = some level := hlevel
  have hdoes : o.does .removeMetadata = true := hp.does rfl
  have hbounds : 0 < level ∧ level ≤ depth := hp.level level rfl
  have hremaining (inside : Nat) (es : List Event) :
      o.remaining inside es = (outsideMetadata inside es).filter o.keeps := by
    rw [remaining, if_pos hdoes]
  cases e with
  | opening t =>
    refine ⟨⟨depth + 1, some level, written⟩, rfl, ⟨fun _ => hdoes, ?_⟩, rfl, rfl, fun es => ?_⟩
    · rintro _ hsome
      obtain rfl := Option.some.inj hsome
      exact ⟨hbounds.1, Nat.le_succ_of_le hbounds.2⟩
    · rw [inside_of_dropped rfl, inside_of_dropped rfl, hremaining, hremaining, outsideMetadata]
      change _ = (outsideMetadata (depth + 1 - level + 1) es).filter o.keeps
      rw [show depth + 1 - level + 1 = depth - level + 2 by omega]
  | closing name =>
    by_cases heq : level = depth
    · refine ⟨⟨depth - 1, none, written⟩, ?_, valid_of_outside rfl, rfl, rfl, fun es => ?_⟩
      · simp [step, heq]
      · rw [inside_of_dropped rfl, inside_of_outside rfl, hremaining, hremaining, heq, Nat.sub_self,
          outsideMetadata]
    · refine ⟨⟨depth - 1, some level, written⟩, ?_, ⟨fun _ => hdoes, ?_⟩, rfl, rfl, fun es => ?_⟩
      · simp [step, heq]
      · rintro _ hsome
        obtain rfl := Option.some.inj hsome
        refine ⟨hbounds.1, ?_⟩
        change level ≤ depth - 1
        omega
      · rw [inside_of_dropped rfl, inside_of_dropped rfl, hremaining, hremaining, outsideMetadata]
        change _ = (outsideMetadata (depth - 1 - level + 1) es).filter o.keeps
        rw [show depth - 1 - level + 1 = depth - level by omega]
  | empty t =>
    refine ⟨_, rfl, hp, rfl, rfl, fun es => ?_⟩
    rw [inside_of_dropped rfl, hremaining, hremaining, outsideMetadata] <;> simp
  | _ => exact (plain_of_isLeaf rfl rfl).step_inside hp

theorem openElements_cons (n : Nat) (e : Event) (es : List Event) :
    openElements n (e :: es) = openElements (openElements n [e]) es := by
  cases e <;> rfl

theorem foldlM_step {p : Pass} (hp : o.Valid p) (es : List Event) :
    (es.foldlM o.step p).map (fun q => (q.depth, q.written)) =
      (o.rewriteEvents (o.remaining p.inside es)).map fun fs =>
        (openElements p.depth es, p.written ++ fs) := by
  induction es generalizing p with
  | nil =>
    rw [remaining_nil]
    simp [rewriteEvents, openElements, Except.map, pure, Except.pure]
  | cons e es ih =>
    -- Either way what is left to select from `es` is what the next state of the pass stands for.
    have hcases : o.Writes p e ∨ ∃ next, o.Skips p e next := by
      cases hdropped : p.droppedAt with
      | none => exact step_outside hdropped e
      | some level => exact .inr (step_inside hp hdropped e)
    rw [List.foldlM_cons, openElements_cons]
    rcases hcases with ⟨houtside, hstep, hremaining⟩ | ⟨next, hstep, hvalid, hdepth, hwritten, hremaining⟩
    · rw [hstep, inside_of_outside houtside, hremaining, rewriteEvents]
      cases hread : o.rewriteEvent e with
      | error err => rfl
      | ok f =>
        have hrest := ih (valid_of_outside (o := o)
          (p := ⟨openElements p.depth [e], none, p.written ++ [f]⟩) rfl)
        rw [inside_of_outside rfl] at hrest
        refine hrest.trans ?_
        cases o.rewriteEvents (o.remaining 0 es) with
        | error err => rfl
        | ok fs => simp [Except.map, bind, Except.bind]
    · rw [hstep, hremaining, ← hdepth, ← hwritten]
      exact ih hvalid

theorem run_eq (es : List Event) : (o.run es).map (fun p => (p.depth, p.written)) =
    (o.rewriteEvents (o.selected es)).map fun fs => (openElements 0 es, fs) :=
  foldlM_step (valid_of_outside rfl) es

theorem run_eq_ok_iff {es fs : List Event} {depth : Nat} :
    (∃ p, o.run es = .ok p ∧ p.depth = depth ∧ p.written = fs) ↔
      o.rewriteEvents (o.selected es) = .ok fs ∧ openElements 0 es = depth := by
  have h := run_eq (o := o) es
  cases hrun : o.run es with
  | error e =>
    rw [hrun] at h
    cases hfs : o.rewriteEvents (o.selected es) with
    | error e => simp
    | ok fs => rw [hfs] at h; cases h
  | ok p =>
    rw [hrun] at h
    cases hfs : o.rewriteEvents (o.selected es) with
    | error e => rw [hfs] at h; cases h
    | ok gs =>
      rw [hfs] at h
      simp only [Except.map, Except.ok.injEq, Prod.mk.injEq] at h
      simp [h, and_comm]

theorem optimize_eq_reduce (source : List Char) : o.optimize source = o.reduce source := by
  have h := run_eq (o := o) (Reading.ofText source).events
  simp only [optimize, reduce]
  cases hrun : o.run (Reading.ofText source).events with
  | error e =>
    rw [hrun] at h
    cases hfs : o.rewriteEvents (o.selected (Reading.ofText source).events) with
    | error e' =>
      rw [hfs] at h
      cases h
      rfl
    | ok fs => rw [hfs] at h; cases h
  | ok p =>
    rw [hrun] at h
    cases hfs : o.rewriteEvents (o.selected (Reading.ofText source).events) with
    | error e => rw [hfs] at h; cases h
    | ok fs =>
      rw [hfs] at h
      simp only [Except.map, Except.ok.injEq, Prod.mk.injEq] at h
      cases (Reading.ofText source).failure with
      | none => simp only [h]
      | some e => rfl

theorem depth_of_run {source : List Char} {front back : List Event} {p : Pass}
    (h : (Reading.ofText source).events = front ++ back) (hrun : o.run front = .ok p) :
    p.depth + front.countP Event.isClosing = front.countP Event.isOpening ∧
      ∀ name rest, back = .closing name :: rest → 0 < p.depth := by
  obtain ⟨out, hout⟩ := exists_openNames_ofText source
  rw [h, openNames_append] at hout
  obtain ⟨stack, hstack, hback⟩ := Option.bind_eq_some_iff.mp hout
  obtain ⟨-, hdepth⟩ := run_eq_ok_iff.mp ⟨p, hrun, rfl, rfl⟩
  have hlength : p.depth = stack.length := hdepth.symm.trans (openElements_eq_length hstack)
  rw [hlength]
  refine ⟨by simpa using length_add_countP hstack, ?_⟩
  rintro name rest rfl
  cases stack with
  | nil => cases hback
  | cons top stack => exact Nat.succ_pos _

end Optimizer

end StaticSite.Svg
