import StaticSite.Proofs.LiveReload.Retention

namespace StaticSite.LiveReload

namespace ChangeKind

inductive Possible : Bool → ChangeKind → Bool → Prop where
  | created : Possible false created true
  | modified : Possible true modified true
  | removed : Possible true removed false

inductive Life : Bool → List ChangeKind → Bool → Prop where
  | still (isThere : Bool) : Life isThere [] isThere
  | cons {now next last : Bool} {k : ChangeKind} {ks : List ChangeKind} : Possible now k next →
    Life next ks last → Life now (k :: ks) last

def between : Bool → Bool → Option ChangeKind
  | false, true => some created
  | true, true => some modified
  | true, false => some removed
  | false, false => none

end ChangeKind

namespace Debouncer
open ChangeKind

variable {d : Debouncer} {q : Path} {steps : List Step} {k : ChangeKind} {ks : List ChangeKind}
  {first now next last : Bool}

theorem after_none (h : Possible first k next) : after none k = between first next := by
  cases h <;> rfl

theorem after_between (h : Possible now k next) (first : Bool) :
    after (between first now) k = between first next := by
  cases h <;> cases first <;> rfl

theorem foldl_after_between (h : Life now ks last) (first : Bool) :
    ks.foldl after (between first now) = between first last := by
  induction h with
  | still => rfl
  | cons hchange _ ih => rw [List.foldl_cons, after_between hchange, ih]

theorem foldl_after_none (h : Life first ks last) (hne : ks ≠ []) :
    ks.foldl after none = between first last := by
  cases h with
  | still => exact absurd rfl hne
  | cons hchange hrest => rw [List.foldl_cons, after_none hchange, foldl_after_between hrest]

theorem kindOf?_run_of_silent (hd : Distinct d.pending) (h : Silent q d steps) :
    (d.run steps).kindOf? q = (ownKinds q steps).foldl after (d.kindOf? q) := by
  induction steps using List.reverseRecOn with
  | nil => rfl
  | append_singleton steps s ih =>
    obtain ⟨hbefore, hlast⟩ := h.of_append
    have hd' := distinct_run hd steps
    rw [run_append, ownKinds_append, List.foldl_append, ← ih hbefore]
    rcases own_cases q s with hown | ⟨r, rfl, hq, hown⟩
    · rw [ownKinds_eq_nil_iff.mpr hown]
      exact congrArg (Option.map Pending.kind) (entryOf?_step_of_silent hd' hlast hown)
    · have hrecord : ((d.run steps).step (.record r)).kindOf? q =
          after ((d.run steps).kindOf? r.path) r.kind :=
        (kindOf?_record hd').trans (if_pos hq)
      have hsame : (d.run steps).kindOf? r.path = (d.run steps).kindOf? q :=
        congrArg (Option.map Pending.kind) (entryOf?_congr hq)
      rw [ownKinds, hown, ← hsame]
      exact hrecord

/-- Of a path of which nothing was pending, a debouncer that hears of its life and tells nothing of it
holds the change from its first to its last state: a creation, a modification or a removal, and
nothing exactly if the file was not there and is not there again. -/
theorem kindOf?_of_life {window : Nat} {before more : List Step} {first last : Bool}
    (hquiet : ((empty window).run before).kindOf? q = none)
    (hsilent : Silent q ((empty window).run before) more)
    (hlife : Life first (ownKinds q more) last) (hne : ownKinds q more ≠ []) :
    let d := (empty window).run (before ++ more)
    (first = false → last = true → d.kindOf? q = some .created) ∧
      (first = true → last = true → d.kindOf? q = some .modified) ∧
      (first = true → last = false → d.kindOf? q = some .removed) ∧
      (d.kindOf? q = none ↔ first = false ∧ last = false) := by
  have hkind : ((empty window).run (before ++ more)).kindOf? q = between first last := by
    rw [run_append, kindOf?_run_of_silent (distinct_run_empty window before) hsilent, hquiet]
    exact foldl_after_none hlife hne
  intro d
  change d.kindOf? q = _ at hkind
  rw [hkind]
  cases first <;> cases last <;> simp [between]

def rewritten : List Step :=
  [.record ⟨0, page, .created⟩, .record ⟨0, page, .modified⟩, .drain 1, .record ⟨1, page, .removed⟩,
    .record ⟨1, footer, .modified⟩, .record ⟨2, page, .created⟩, .record ⟨2, page, .removed⟩,
    .record ⟨2, page, .created⟩]

theorem kindOf?_rewritten : ((empty 2).run []).kindOf? page = none ∧
    Silent page ((empty 2).run []) rewritten ∧ Life false (ownKinds page rewritten) true ∧
      ownKinds page rewritten ≠ [] ∧
        ((empty 2).run ([] ++ rewritten)).kindOf? page = some .created := by
  have hquiet : ((empty 2).run []).kindOf? page = none := rfl
  have hsilent : Silent page ((empty 2).run []) rewritten := by
    have hnone : ((empty 2).run []).emitted rewritten = [] := by cbv
    intro e he
    rw [hnone] at he
    cases he
  have hkinds : ownKinds page rewritten =
      [.created, .modified, .removed, .created, .removed, .created] := by decide
  have hlife : Life false (ownKinds page rewritten) true := by
    rw [hkinds]
    exact .cons .created (.cons .modified (.cons .removed (.cons .created (.cons .removed
      (.cons .created (.still true))))))
  have hne : ownKinds page rewritten ≠ [] := by
    rw [hkinds]
    exact List.cons_ne_nil _ _
  exact ⟨hquiet, hsilent, hlife, hne, (kindOf?_of_life hquiet hsilent hlife hne).1 rfl rfl⟩

end Debouncer

end StaticSite.LiveReload
