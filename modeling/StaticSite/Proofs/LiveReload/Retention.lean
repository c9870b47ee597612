import Mathlib
import StaticSite.Proofs.LiveReload.History

/-!
Which changes a debouncer keeps until a drain tells them. A change is given up exactly when a removal
follows a creation of a file that, by what was told of it since nothing was pending, was there
already or was not yet heard of.
-/

namespace StaticSite.LiveReload.Debouncer
open ChangeKind

def ownRecords (q : Path) (steps : List Step) : List Record :=
  steps.flatMap (Step.own q)

def ownKinds (q : Path) (steps : List Step) : List ChangeKind :=
  (ownRecords q steps).map (·.kind)

variable {d : Debouncer} {q : Path} {steps : List Step} {s : Step}

theorem ownRecords_append (q : Path) (steps more : List Step) :
    ownRecords q (steps ++ more) = ownRecords q steps ++ ownRecords q more :=
  List.flatMap_append

theorem ownKinds_append (q : Path) (steps more : List Step) :
    ownKinds q (steps ++ more) = ownKinds q steps ++ ownKinds q more := by
  rw [ownKinds, ownRecords_append, List.map_append]
  rfl

theorem ownKinds_eq_nil_iff : ownKinds q steps = [] ↔ ownRecords q steps = [] :=
  List.map_eq_nil_iff

theorem own_cases (q : Path) (s : Step) :
    ownRecords q [s] = [] ∨ ∃ r, s = .record r ∧ r.path.same q = true ∧ ownRecords q [s] = [r] := by
  rw [ownRecords, List.flatMap_singleton]
  cases s with
  | record r =>
    by_cases hq : r.path.same q
    · exact .inr ⟨r, rfl, hq, if_pos hq⟩
    · exact .inl (if_neg hq)
  | drain now => exact .inl rfl

def Silent (q : Path) (d : Debouncer) (steps : List Step) : Prop :=
  ∀ e ∈ d.emitted steps, ¬ e.2.path.same q = true

theorem Silent.of_append {more : List Step} (h : Silent q d (steps ++ more)) :
    Silent q d steps ∧ Silent q (d.run steps) more := by
  simp only [Silent, emitted_append, List.mem_append] at h
  exact ⟨fun e he => h e (.inl he), fun e he => h e (.inr he)⟩

theorem entryOf?_step_of_silent (hd : Distinct d.pending) (h : Silent q d [s])
    (hown : ownRecords q [s] = []) : (d.step s).entryOf? q = d.entryOf? q := by
  rw [entryOf?_step hd]
  cases s with
  | record r =>
    by_cases hq : r.path.same q
    · simp [ownRecords, Step.own, hq] at hown
    · exact if_neg hq
  | drain now =>
    cases hentry : d.entryOf? q with
    | none => rfl
    | some p =>
      have hsame := same_of_entryOf? hentry
      have hready : ¬ p.deadline ≤ now := by
        intro hready
        apply h (now, p.change) _ hsame
        rw [emitted, emitted, List.append_nil, told]
        apply List.mem_map_of_mem
        exact (mem_drain_iff hd).mpr ⟨p, (entryOf?_congr hsame).trans hentry, hready, rfl⟩
      simp [follow, Option.filter, isReady, hready]

theorem entryOf?_run_of_net (hd : Distinct d.pending) (hquiet : d.entryOf? q = none)
    (h : Silent q d steps) (hnet : ownKinds q steps = [] ∨ net (ownKinds q steps) ≠ none) :
    (d.run steps).entryOf? q = summary d.window (ownRecords q steps) := by
  induction steps using List.reverseRecOn with
  | nil => exact hquiet
  | append_singleton steps s ih =>
    obtain ⟨hbefore, hlast⟩ := h.of_append
    rw [run_append, ownRecords_append]
    rw [ownKinds_append] at hnet
    rcases own_cases q s with hown | ⟨r, rfl, hq, hown⟩
    · rw [ownKinds_eq_nil_iff.mpr hown, List.append_nil] at hnet
      rw [hown, List.append_nil, ← ih hbefore hnet]
      exact entryOf?_step_of_silent (distinct_run hd steps) hlast hown
    · have hkinds : ownKinds q [.record r] = [r.kind] := by rw [ownKinds, hown]; rfl
      have hnet' : ownKinds q steps = [] ∨ net (ownKinds q steps) ≠ none := by
        by_cases hnil : ownKinds q steps = []
        · exact .inl hnil
        · right
          intro hnone
          rw [hkinds, net_concat hnil, hnone] at hnet
          simp at hnet
      have hstep := entryOf?_step (s := .record r) (q := q) (distinct_run hd steps)
      rw [hown, ← joined_summary (hnet'.imp_left ownKinds_eq_nil_iff.mp), ← ih hbefore hnet']
      rw [follow, if_pos hq, window_run] at hstep
      exact hstep

theorem exists_lost_of_net (hd : Distinct d.pending) (hquiet : d.entryOf? q = none)
    (h : Silent q d steps) (hne : ownKinds q steps ≠ []) (hnet : net (ownKinds q steps) = none) :
    ∃ part, part <+: steps ∧ ownKinds q part ≠ [] ∧ (d.run part).entryOf? q = none := by
  induction steps using List.reverseRecOn with
  | nil => exact absurd rfl hne
  | append_singleton steps s ih =>
    by_cases hlost : ownKinds q steps ≠ [] ∧ net (ownKinds q steps) = none
    · obtain ⟨part, hpart, hfound⟩ := ih h.of_append.1 hlost.1 hlost.2
      exact ⟨part, hpart.trans (List.prefix_append _ _), hfound⟩
    · have hkept : ownKinds q steps = [] ∨ net (ownKinds q steps) ≠ none := by
        rw [not_and_or, not_ne_iff] at hlost
        exact hlost
      have hentry := entryOf?_run_of_net hd hquiet h.of_append.1 hkept
      refine ⟨steps ++ [s], List.prefix_rfl, hne, ?_⟩
      rcases own_cases q s with hown | ⟨r, rfl, hq, hown⟩
      · rw [ownKinds_append, ownKinds_eq_nil_iff.mpr hown, List.append_nil] at hne hnet
        exact absurd ⟨hne, hnet⟩ hlost
      · have hstep := entryOf?_step (s := .record r) (q := q) (distinct_run hd steps)
        rw [follow, if_pos hq, window_run, hentry,
          joined_summary (hkept.imp_left ownKinds_eq_nil_iff.mp)] at hstep
        rw [run_append]
        apply hstep.trans
        rw [← hown, ← ownRecords_append]
        exact summary_eq_none_iff.mpr hnet

theorem exists_told_of_net (hd : Distinct d.pending) (hquiet : d.entryOf? q = none)
    (h : Silent q d steps) (hnet : net (ownKinds q steps) ≠ none) {last : Record}
    (hlast : (ownRecords q steps).getLast? = some last) {now : Nat}
    (hnow : last.time + d.window ≤ now) : ∃ change ∈ ((d.run steps).drain now).2,
      change.path.same q = true ∧ net (ownKinds q steps) = some change.kind := by
  have hentry := entryOf?_run_of_net hd hquiet h (.inr hnet)
  obtain ⟨p, hp⟩ := Option.ne_none_iff_exists'.mp (summary_eq_none_iff.not.mpr hnet)
  obtain ⟨first, last', -, hlast', hkind, -, hdeadline⟩ := summary_eq_some_iff.mp hp
  obtain rfl := Option.some.inj (hlast.symm.trans hlast')
  rw [hp] at hentry
  have hsame := same_of_entryOf? hentry
  refine ⟨p.change, ?_, hsame, hkind⟩
  apply (mem_drain_iff (distinct_run hd steps)).mpr
  exact ⟨p, (entryOf?_congr hsame).trans hentry, hdeadline ▸ hnow, rfl⟩

/-- While nothing is told of a path of which nothing was pending, its change stays pending through
all records exactly if they do not cancel. Then a later drain tells it. -/
theorem stays_pending_iff {window : Nat} {before more : List Step}
    (hquiet : ((empty window).run before).entryOf? q = none)
    (hsilent : Silent q ((empty window).run before) more) :
    ((∀ part, part <+: more → ownKinds q part ≠ [] →
        ((empty window).run (before ++ part)).entryOf? q ≠ none) ↔ ¬ Cancels (ownKinds q more)) ∧
      (¬ Cancels (ownKinds q more) → ∀ last, (ownRecords q more).getLast? = some last →
        ∀ now, last.time + window ≤ now →
          ∃ change ∈ (((empty window).run (before ++ more)).drain now).2,
            change.path.same q = true ∧ net (ownKinds q more) = some change.kind) := by
  have hd := distinct_run_empty window before
  have hkept {part : List Step} (hpart : part <+: more) (hnot : ¬ Cancels (ownKinds q more))
      (hne : ownKinds q part ≠ []) : net (ownKinds q part) ≠ none := by
    obtain ⟨rest, rfl⟩ := hpart
    rw [ownKinds_append] at hnot
    rw [ne_eq, net_eq_none_iff hne]
    exact fun hcancels => hnot (hcancels.append _)
  constructor
  · constructor
    · intro hpending hcancels
      obtain ⟨part, hpart, hne, hlost⟩ := exists_lost_of_net hd hquiet hsilent hcancels.ne_nil
        ((net_eq_none_iff hcancels.ne_nil).mpr hcancels)
      rw [← run_append] at hlost
      exact hpending part hpart hne hlost
    · intro hnot part hpart hne
      have hnet := hkept hpart hnot hne
      have hsilent' : Silent q ((empty window).run before) part := by
        obtain ⟨rest, rfl⟩ := hpart
        exact hsilent.of_append.1
      rw [run_append, entryOf?_run_of_net hd hquiet hsilent' (.inr hnet), ne_eq, summary_eq_none_iff]
      exact hnet
  · intro hnot last hlast now hnow
    have hne : ownKinds q more ≠ [] := by
      intro hnil
      rw [ownKinds_eq_nil_iff.mp hnil] at hlast
      cases hlast
    have hnet := hkept List.prefix_rfl hnot hne
    have hnow' : last.time + ((empty window).run before).window ≤ now := by
      rw [window_run]
      exact hnow
    rw [run_append]
    exact exists_told_of_net hd hquiet hsilent hnet hlast hnow'

section saved

def page : Path := .ofString "/site/src/index.html"

def footer : Path := .ofString "/site/src/footer.html"

def replaced : List Step :=
  [.record ⟨0, page, .removed⟩, .drain 1, .record ⟨1, page, .created⟩,
    .record ⟨1, footer, .modified⟩, .record ⟨2, page, .modified⟩]

theorem replaced_told : ((empty 2).run []).entryOf? page = none ∧
    Silent page ((empty 2).run []) replaced ∧ ¬ Cancels (ownKinds page replaced) ∧
      ∃ change ∈ (((empty 2).run ([] ++ replaced)).drain 4).2,
        change.path.same page = true ∧ some .modified = some change.kind := by
  have hsilent : Silent page ((empty 2).run []) replaced := by
    have hnone : ((empty 2).run []).emitted replaced = [] := by cbv
    intro e he
    rw [hnone] at he
    cases he
  have hnot : ¬ Cancels (ownKinds page replaced) := by
    have hkinds : ownKinds page replaced ≠ [] := by decide
    rw [← net_eq_none_iff hkinds]
    decide
  have hquiet : ((empty 2).run []).entryOf? page = none := rfl
  obtain ⟨-, htold⟩ := stays_pending_iff hquiet hsilent
  exact ⟨hquiet, hsilent, hnot, htold hnot ⟨2, page, .modified⟩ rfl 4 (by decide)⟩

def overwritten : List Step :=
  [.record ⟨0, page, .modified⟩, .record ⟨0, page, .created⟩, .record ⟨0, page, .removed⟩]

theorem overwritten_lost : (ownKinds page overwritten).head? = some .modified ∧
    Silent page (empty 2) overwritten ∧ ((empty 2).run overwritten).entryOf? page = none ∧
      ∀ now, (((empty 2).run overwritten).drain now).2 = [] := by
  have hempty : (empty 2).run overwritten = empty 2 := by decide
  refine ⟨by decide, ?_, by rw [hempty]; rfl, ?_⟩
  · intro e he
    cases he
  · intro now
    rw [hempty]
    simp [drain, ready, empty]

end saved

end StaticSite.LiveReload.Debouncer
