import Mathlib.Tactic.SplitIfs
import StaticSite.Proofs.LiveReload.Coalescing
import StaticSite.Proofs.LiveReload.Pending

/-!
A debouncer over time. What it holds of a path is the sum of that path's own records since it last
held nothing of it, so that each path lives as if it were alone. A drain tells of the paths that have
been quiet for the window, in the order of paths, and forgets them.
-/

namespace StaticSite.LiveReload

structure Record where
  time : Nat
  path : Path
  kind : ChangeKind
  deriving DecidableEq, Repr

inductive Step where
  | record (r : Record)
  | drain (now : Nat)
  deriving DecidableEq, Repr

namespace Step

def own (q : Path) : Step → List Record
  | .record r => if r.path.same q then [r] else []
  | .drain _ => []

def concerns (q : Path) : Step → Bool
  | .record r => r.path.same q
  | .drain _ => true

end Step

namespace Debouncer

def step (d : Debouncer) : Step → Debouncer
  | .record r => d.record r.time r.path r.kind
  | .drain now => (d.drain now).1

def run (d : Debouncer) (steps : List Step) : Debouncer :=
  steps.foldl step d

def told (d : Debouncer) : Step → List (Nat × Change)
  | .record _ => []
  | .drain now => (d.drain now).2.map fun change => (now, change)

def emitted (d : Debouncer) : List Step → List (Nat × Change)
  | [] => []
  | s :: steps => d.told s ++ (d.step s).emitted steps

variable {d : Debouncer} {q : Path} {now : Nat} {s : Step} {steps : List Step}

theorem window_step (d : Debouncer) (s : Step) : (d.step s).window = d.window := by
  cases s <;> rfl

theorem window_run (d : Debouncer) (steps : List Step) : (d.run steps).window = d.window := by
  induction steps generalizing d with
  | nil => rfl
  | cons s steps ih => exact (ih (d.step s)).trans (window_step d s)

theorem distinct_step (h : Distinct d.pending) (s : Step) : Distinct (d.step s).pending := by
  cases s with
  | record r => exact distinct_merge h
  | drain now => exact h.filter _

theorem distinct_run (h : Distinct d.pending) (steps : List Step) :
    Distinct (d.run steps).pending := by
  induction steps generalizing d with
  | nil => exact h
  | cons s steps ih => exact ih (distinct_step h s)

theorem run_append (d : Debouncer) (steps more : List Step) :
    d.run (steps ++ more) = (d.run steps).run more :=
  List.foldl_append

theorem emitted_append (d : Debouncer) (steps more : List Step) :
    d.emitted (steps ++ more) = d.emitted steps ++ (d.run steps).emitted more := by
  induction steps generalizing d with
  | nil => rfl
  | cons s steps ih =>
    rw [List.cons_append, emitted, emitted, ih, List.append_assoc]
    rfl

section alone

def follow (window : Nat) (q : Path) (e : Option Pending) : Step → Option Pending
  | .record r => if r.path.same q then joined r.path r.kind (r.time + window) e else e
  | .drain now => e.filter (!isReady now ·)

def toldOf (e : Option Pending) : Step → List (Nat × Change)
  | .record _ => []
  | .drain now => ((e.filter (isReady now)).map fun p => (now, p.change)).toList

def emittedOf (window : Nat) (q : Path) : Option Pending → List Step → List (Nat × Change)
  | _, [] => []
  | e, s :: steps => toldOf e s ++ emittedOf window q (follow window q e s) steps

theorem entryOf?_step (h : Distinct d.pending) :
    (d.step s).entryOf? q = follow d.window q (d.entryOf? q) s := by
  cases s with
  | record r =>
    rw [step, entryOf?_record h, follow]
    by_cases hq : r.path.same q
    · rw [if_pos hq, if_pos hq, entryOf?_congr hq]
    · rw [if_neg hq, if_neg hq]
  | drain now => exact entryOf?_drain h

theorem filter_told (h : Distinct d.pending) :
    (d.told s).filter (·.2.path.same q) = toldOf (d.entryOf? q) s := by
  cases s with
  | record r => rfl
  | drain now =>
    have hmap : ((d.drain now).2.map fun change => (now, change)).filter (·.2.path.same q) =
        ((d.drain now).2.filter (·.path.same q)).map fun change => (now, change) :=
      List.filter_map
    rw [told, hmap, filter_drain h, ← Option.toList_map, Option.map_map]
    rfl

theorem filter_emitted (h : Distinct d.pending) :
    (d.emitted steps).filter (·.2.path.same q) = emittedOf d.window q (d.entryOf? q) steps := by
  induction steps generalizing d with
  | nil => rfl
  | cons s steps ih =>
    rw [emitted, List.filter_append, filter_told h, ih (distinct_step h s), entryOf?_step h,
      window_step, emittedOf]

theorem emittedOf_filter (window : Nat) (q : Path) (e : Option Pending) (steps : List Step) :
    emittedOf window q e (steps.filter (Step.concerns q)) = emittedOf window q e steps := by
  induction steps generalizing e with
  | nil => rfl
  | cons s steps ih =>
    cases s with
    | record r =>
      by_cases hq : r.path.same q
      · rw [List.filter_cons_of_pos (by exact hq), emittedOf, emittedOf, ih]
      · rw [List.filter_cons_of_neg (by exact hq), ih, emittedOf, follow, if_neg hq]
        rfl
    | drain now =>
      rw [List.filter_cons_of_pos rfl, emittedOf, emittedOf, ih]

end alone

def summary (window : Nat) (rs : List Record) : Option Pending :=
  rs.head?.bind fun first => rs.getLast?.bind fun last =>
    (ChangeKind.net (rs.map (·.kind))).map fun kind => ⟨first.path, kind, last.time + window⟩

theorem summary_eq_some_iff {window : Nat} {rs : List Record} {p : Pending} :
    summary window rs = some p ↔ ∃ first last, rs.head? = some first ∧ rs.getLast? = some last ∧
      ChangeKind.net (rs.map (·.kind)) = some p.kind ∧ first.path = p.path ∧
        last.time + window = p.deadline := by
  obtain ⟨path, kind, deadline⟩ := p
  simp only [summary, Option.bind_eq_some_iff, Option.map_eq_some_iff, Pending.mk.injEq]
  constructor
  · rintro ⟨first, hfirst, last, hlast, kind, hkind, hpath, rfl, hdeadline⟩
    exact ⟨first, last, hfirst, hlast, hkind, hpath, hdeadline⟩
  · rintro ⟨first, last, hfirst, hlast, hkind, hpath, hdeadline⟩
    exact ⟨first, hfirst, last, hlast, kind, hkind, hpath, rfl, hdeadline⟩

theorem summary_eq_none_iff {window : Nat} {rs : List Record} :
    summary window rs = none ↔ ChangeKind.net (rs.map (·.kind)) = none := by
  cases rs with
  | nil => simp [summary, ChangeKind.net]
  | cons first rest => simp [summary, List.getLast?_cons]

def Tells (rs : List Record) : Prop :=
  rs = [] ∨ ChangeKind.net (rs.map (·.kind)) ≠ none

theorem joined_summary {window : Nat} {rs : List Record} {r : Record} (h : Tells rs) :
    joined r.path r.kind (r.time + window) (summary window rs) = summary window (rs ++ [r]) := by
  by_cases hnil : rs = []
  · subst hnil
    rfl
  · obtain ⟨kind, hkind⟩ := Option.ne_none_iff_exists'.mp (h.resolve_left hnil)
    have hlast : rs.getLast? = some (rs.getLast hnil) := List.getLast?_eq_some_getLast hnil
    have hhead : rs.head? = some (rs.head hnil) := List.head?_eq_some_head hnil
    have hold : summary window rs =
        some ⟨(rs.head hnil).path, kind, (rs.getLast hnil).time + window⟩ :=
      summary_eq_some_iff.mpr ⟨_, _, hhead, hlast, hkind, rfl, rfl⟩
    have hnet : ChangeKind.net ((rs ++ [r]).map (·.kind)) = kind.coalesce r.kind := by
      have hne : rs.map (·.kind) ≠ [] := fun hmap => hnil (List.map_eq_nil_iff.mp hmap)
      rw [List.map_append, List.map_singleton, ChangeKind.net_concat hne, hkind, Option.bind_some]
    rw [hold, joined, summary, List.head?_append_of_ne_nil _ hnil, hhead, List.getLast?_concat, hnet]
    rfl

section heard

variable {window : Nat} {rs : List Record}

/-- What there is to tell of a path after `rs`, by the steps alone. A drain tells it once the last
record lies a window back, and a record can undo what came before. -/
def heard (window : Nat) (q : Path) (rs : List Record) : Step → List Record
  | .record r =>
    if r.path.same q then
      if ChangeKind.net ((rs ++ [r]).map (·.kind)) = none then [] else rs ++ [r]
    else rs
  | .drain now => if rs.getLast?.any (·.time + window ≤ now) then [] else rs

def history (window : Nat) (q : Path) (steps : List Step) : List Record :=
  steps.foldl (heard window q) []

theorem Tells.heard (h : Tells rs) (s : Step) : Tells (heard window q rs s) := by
  cases s with
  | record r =>
    rw [Debouncer.heard]
    split_ifs with hq hnet
    · exact .inl rfl
    · exact .inr hnet
    · exact h
  | drain now =>
    rw [Debouncer.heard]
    split_ifs
    · exact .inl rfl
    · exact h

theorem tells_history (window : Nat) (q : Path) (steps : List Step) :
    Tells (history window q steps) := by
  induction steps using List.reverseRecOn with
  | nil => exact .inl rfl
  | append_singleton steps s ih =>
    rw [history, List.foldl_append]
    exact ih.heard s

theorem eq_nil_of_summary (h : Tells rs) (hnone : summary window rs = none) : rs = [] :=
  h.resolve_right fun hnet => hnet (summary_eq_none_iff.mp hnone)

theorem follow_summary (h : Tells rs) (s : Step) :
    follow window q (summary window rs) s = summary window (heard window q rs s) := by
  cases s with
  | record r =>
    rw [follow, heard]
    split_ifs with hq hnet
    · rw [joined_summary h]
      exact summary_eq_none_iff.mpr hnet
    · exact joined_summary h
    · rfl
  | drain now =>
    rw [follow, heard]
    cases hsum : summary window rs with
    | none =>
      rw [eq_nil_of_summary h hsum]
      rfl
    | some p =>
      obtain ⟨first, last, -, hlast, -, -, hdeadline⟩ := summary_eq_some_iff.mp hsum
      rw [hlast, Option.any_some, hdeadline]
      by_cases hready : p.deadline ≤ now
      · simp [hready, Option.filter, isReady, summary]
      · simp [hready, Option.filter, isReady, hsum]

end heard

theorem distinct_empty (window : Nat) : Distinct (empty window).pending :=
  List.nodup_nil

theorem distinct_run_empty (window : Nat) (steps : List Step) :
    Distinct ((empty window).run steps).pending :=
  distinct_run (distinct_empty window) steps

theorem entryOf?_run_empty (window : Nat) (q : Path) (steps : List Step) :
    ((empty window).run steps).entryOf? q = summary window (history window q steps) := by
  induction steps using List.reverseRecOn with
  | nil => rfl
  | append_singleton steps s ih =>
    have hwindow : ((empty window).run steps).window = window := window_run (empty window) steps
    calc ((empty window).run (steps ++ [s])).entryOf? q
        = (((empty window).run steps).step s).entryOf? q := by
          rw [run_append]
          rfl
      _ = follow window q (summary window (history window q steps)) s := by
          rw [entryOf?_step (distinct_run_empty window steps), ih, hwindow]
      _ = summary window (history window q (steps ++ [s])) := by
          rw [follow_summary (tells_history window q steps), history, history, List.foldl_append]
          rfl

theorem mem_drain_iff (h : Distinct d.pending) {change : Change} : change ∈ (d.drain now).2 ↔
    ∃ p, d.entryOf? change.path = some p ∧ p.deadline ≤ now ∧ p.change = change := by
  have hmem : change ∈ (d.drain now).2 ↔
      change ∈ (d.drain now).2.filter (·.path.same change.path) := by
    rw [List.mem_filter, same_iff]
    exact (and_iff_left rfl).symm
  rw [hmem, filter_drain h, Option.mem_toList, Option.map_eq_some_iff]
  simp only [Option.filter_eq_some_iff, isReady, decide_eq_true_eq, and_assoc]

theorem mem_drain_run_iff {window : Nat} {change : Change} :
    change ∈ (((empty window).run steps).drain now).2 ↔
      ∃ first last, (history window change.path steps).head? = some first ∧
        (history window change.path steps).getLast? = some last ∧ first.path = change.path ∧
          last.time + window ≤ now ∧
            ChangeKind.net ((history window change.path steps).map (·.kind)) = some change.kind := by
  rw [mem_drain_iff (distinct_run_empty window steps), entryOf?_run_empty]
  constructor
  · rintro ⟨p, hp, hready, rfl⟩
    obtain ⟨first, last, hfirst, hlast, hkind, hpath, hdeadline⟩ := summary_eq_some_iff.mp hp
    rw [← hdeadline] at hready
    exact ⟨first, last, hfirst, hlast, hpath, hready, hkind⟩
  · rintro ⟨first, last, hfirst, hlast, hpath, hready, hkind⟩
    refine ⟨⟨change.path, change.kind, last.time + window⟩, ?_, hready, rfl⟩
    exact summary_eq_some_iff.mpr ⟨first, last, hfirst, hlast, hkind, hpath, rfl⟩

theorem mem_of_mem_heard {window : Nat} {rs : List Record} {r : Record}
    (h : r ∈ heard window q rs s) : r ∈ rs ∨ s = .record r := by
  cases s with
  | record r' =>
    rw [heard] at h
    split_ifs at h with hq hnet
    · cases h
    · rcases List.mem_append.mp h with hr | hr
      · exact .inl hr
      · exact .inr (congrArg Step.record (List.mem_singleton.mp hr).symm)
    · exact .inl h
  | drain now =>
    rw [heard] at h
    split_ifs at h
    · cases h
    · exact .inl h

theorem mem_of_mem_history {window : Nat} {r : Record} (h : r ∈ history window q steps) :
    .record r ∈ steps := by
  induction steps using List.reverseRecOn with
  | nil => cases h
  | append_singleton steps s ih =>
    rw [history, List.foldl_append] at h
    rcases mem_of_mem_heard h with hr | rfl
    · exact List.mem_append_left _ (ih hr)
    · exact List.mem_append_right _ (List.mem_singleton_self _)

section ready

variable {window : Nat} (hready : ∀ r, .record r ∈ steps → r.time + window ≤ now)
include hready

theorem pending_drain_eq_nil : (((empty window).run steps).drain now).1.pending = [] := by
  apply List.filter_eq_nil_iff.mpr
  intro p hp
  have hentry := entryOf?_of_mem (distinct_run_empty window steps) hp
  rw [entryOf?_run_empty] at hentry
  obtain ⟨first, last, -, hlast, -, -, hdeadline⟩ := summary_eq_some_iff.mp hentry
  have hle : p.deadline ≤ now :=
    hdeadline ▸ hready last (mem_of_mem_history (List.mem_of_getLast? hlast))
  simp [isReady, hle]

theorem mem_drain_run_iff_of_ready {change : Change} :
    change ∈ (((empty window).run steps).drain now).2 ↔
      ∃ first, (history window change.path steps).head? = some first ∧ first.path = change.path ∧
        ChangeKind.net ((history window change.path steps).map (·.kind)) = some change.kind := by
  rw [mem_drain_run_iff]
  constructor
  · rintro ⟨first, last, hfirst, -, hpath, -, hkind⟩
    exact ⟨first, hfirst, hpath, hkind⟩
  · rintro ⟨first, hfirst, hpath, hkind⟩
    have hne : history window change.path steps ≠ [] := by
      intro hnil
      rw [hnil] at hfirst
      cases hfirst
    have hlast := List.getLast?_eq_some_getLast hne
    have hle := hready _ (mem_of_mem_history (List.getLast_mem hne))
    exact ⟨first, _, hfirst, hlast, hpath, hle, hkind⟩

end ready

theorem entryOf?_drain_of_told (h : Distinct d.pending) (q : Path) :
    (d.drain now).1.entryOf? q =
      if ∃ change ∈ (d.drain now).2, change.path.same q = true then none else d.entryOf? q := by
  rw [entryOf?_drain h]
  cases hentry : d.entryOf? q with
  | none => simp
  | some p =>
    have hsame : p.path.same q = true := same_of_entryOf? hentry
    have hpath : d.entryOf? p.path = some p := (entryOf?_congr hsame).trans hentry
    have htold : (∃ change ∈ (d.drain now).2, change.path.same q = true) ↔ p.deadline ≤ now := by
      constructor
      · rintro ⟨change, hchange, hq⟩
        obtain ⟨p', hp', hready, -⟩ := (mem_drain_iff h).mp hchange
        rw [entryOf?_congr hq, hentry] at hp'
        rw [Option.some.inj hp']
        exact hready
      · intro hready
        exact ⟨p.change, (mem_drain_iff h).mpr ⟨p, hpath, hready, rfl⟩, hsame⟩
    by_cases hready : p.deadline ≤ now
    · rw [if_pos (htold.mpr hready)]
      simp [Option.filter, isReady, hready]
    · rw [if_neg (htold.not.mpr hready)]
      simp [Option.filter, isReady, hready]

/-- After any run a drain tells, in the order of paths, of exactly those whose last record lies a
window back, by the sum of their own records since nothing was held of them. It forgets them and
leaves the others. What is told of one path, and when, does not depend on records of others. -/
theorem drain_of_history (window : Nat) (steps : List Step) (now : Nat) :
    let d := (empty window).run steps
    ((d.drain now).2.Pairwise fun a b => a.path.before b.path = true) ∧
      (∀ change, change ∈ (d.drain now).2 ↔
        ∃ first last, (history window change.path steps).head? = some first ∧
          (history window change.path steps).getLast? = some last ∧ first.path = change.path ∧
            last.time + window ≤ now ∧
              ChangeKind.net ((history window change.path steps).map (·.kind)) = some change.kind) ∧
      (∀ q, (d.drain now).1.entryOf? q =
        if ∃ change ∈ (d.drain now).2, change.path.same q = true then none else d.entryOf? q) ∧
      (∀ q, d.entryOf? q = summary window (history window q steps) ∧
        (d.entryOf? q = none → history window q steps = [])) ∧
      ∀ q, ((empty window).emitted steps).filter (·.2.path.same q) =
        ((empty window).emitted (steps.filter (Step.concerns q))).filter (·.2.path.same q) := by
  have hdistinct := distinct_run_empty window steps
  refine ⟨pairwise_before_drain hdistinct, fun change => mem_drain_run_iff,
    entryOf?_drain_of_told hdistinct, ?_, ?_⟩
  · intro q
    refine ⟨entryOf?_run_empty window q steps, fun hnone => ?_⟩
    rw [entryOf?_run_empty] at hnone
    exact eq_nil_of_summary (tells_history window q steps) hnone
  · intro q
    rw [filter_emitted (distinct_empty window), filter_emitted (distinct_empty window),
      emittedOf_filter]

end Debouncer

end StaticSite.LiveReload
