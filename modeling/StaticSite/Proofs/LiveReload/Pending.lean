import Mathlib.Data.List.Nodup
import StaticSite.LiveReload.Debouncer
import StaticSite.Proofs.Path.Order

namespace StaticSite.LiveReload

def Pending.change (p : Pending) : Change :=
  ⟨p.path, p.kind⟩

namespace Debouncer

def kindOf? (d : Debouncer) (path : Path) : Option ChangeKind :=
  (d.pending.find? (·.path.same path)).map (·.kind)

def Distinct (ps : List Pending) : Prop :=
  (ps.map (·.path.components)).Nodup

theorem same_iff {p q : Path} : p.same q = true ↔ p.components = q.components :=
  decide_eq_true_iff

variable {path q : Path} {kind : ChangeKind} {deadline : Nat} {ps : List Pending}

theorem path_of_mem_merge {p : Pending} (h : p ∈ merge path kind deadline ps) :
    p.path = path ∨ ∃ old ∈ ps, p.path = old.path := by
  induction ps with
  | nil =>
    obtain rfl := List.mem_singleton.mp h
    exact .inl rfl
  | cons first ps ih =>
    simp only [merge] at h
    split at h
    · split at h
      · rcases List.mem_cons.mp h with rfl | h
        · exact .inr ⟨first, List.mem_cons_self .., rfl⟩
        · exact .inr ⟨p, List.mem_cons_of_mem _ h, rfl⟩
      · exact .inr ⟨p, List.mem_cons_of_mem _ h, rfl⟩
    · rcases List.mem_cons.mp h with rfl | h
      · exact .inr ⟨p, List.mem_cons_self .., rfl⟩
      · rcases ih h with hpath | ⟨old, hold, hpath⟩
        · exact .inl hpath
        · exact .inr ⟨old, List.mem_cons_of_mem _ hold, hpath⟩

theorem distinct_merge (h : Distinct ps) : Distinct (merge path kind deadline ps) := by
  induction ps with
  | nil => exact List.nodup_singleton _
  | cons first ps ih =>
    obtain ⟨hfirst, hps⟩ := List.nodup_cons.mp h
    simp only [merge]
    split
    · split
      · exact List.nodup_cons.mpr ⟨hfirst, hps⟩
      · exact hps
    · rename_i hsame
      apply List.nodup_cons.mpr ⟨?_, ih hps⟩
      intro hmem
      obtain ⟨p, hp, hcomponents⟩ := List.mem_map.mp hmem
      rcases path_of_mem_merge hp with hpath | ⟨old, hold, hpath⟩
      · rw [hpath] at hcomponents
        exact hsame (same_iff.mpr hcomponents.symm)
      · rw [hpath] at hcomponents
        exact hfirst (List.mem_map.mpr ⟨old, hold, hcomponents⟩)

theorem find?_eq_none (h : q.components ∉ ps.map (·.path.components)) :
    ps.find? (·.path.same q) = none := by
  apply List.find?_eq_none.mpr
  intro p hp hsame
  exact h (List.mem_map.mpr ⟨p, hp, same_iff.mp hsame⟩)

def after (old : Option ChangeKind) (kind : ChangeKind) : Option ChangeKind :=
  match old with
  | none => some kind
  | some old => old.coalesce kind

def entryOf? (d : Debouncer) (path : Path) : Option Pending :=
  d.pending.find? (·.path.same path)

def joined (path : Path) (kind : ChangeKind) (deadline : Nat) : Option Pending → Option Pending
  | none => some ⟨path, kind, deadline⟩
  | some old => (old.kind.coalesce kind).map fun merged => ⟨old.path, merged, deadline⟩

theorem map_kind_joined (e : Option Pending) :
    (joined path kind deadline e).map (·.kind) = after (e.map (·.kind)) kind := by
  cases e with
  | none => rfl
  | some old =>
    simp only [joined, Option.map_map, Option.map_some, after]
    exact Option.map_id_apply

theorem find?_merge (h : Distinct ps) :
    (merge path kind deadline ps).find? (·.path.same q) =
      if path.same q then joined path kind deadline (ps.find? (·.path.same path))
      else ps.find? (·.path.same q) := by
  induction ps with
  | nil => by_cases hq : path.same q <;> simp [merge, hq, joined]
  | cons first ps ih =>
    obtain ⟨hfirst, hps⟩ := List.nodup_cons.mp h
    by_cases hpath : first.path.same path
    · have hcomponents := same_iff.mp hpath
      have hq : first.path.same q = path.same q := by
        rw [Path.same, Path.same, hcomponents]
      have hrest : path.same q = true → ps.find? (·.path.same q) = none := by
        intro hsame
        apply find?_eq_none
        rw [← same_iff.mp hsame, ← hcomponents]
        exact hfirst
      cases hkind : first.kind.coalesce kind with
      | none =>
        by_cases hsame : path.same q
        · simp [merge, hpath, hkind, hsame, hrest hsame, joined]
        · simp [merge, hpath, hkind, hsame, hq]
      | some merged =>
        by_cases hsame : path.same q
        · simp [merge, hpath, hkind, hsame, hq, joined]
        · simp [merge, hpath, hkind, hsame, hq]
    · by_cases hq : first.path.same q
      · have hsame : ¬ path.same q = true := by
          intro hsame
          apply hpath
          rw [same_iff, same_iff.mp hq, same_iff.mp hsame]
        simp [merge, hpath, hq, hsame]
      · simp [merge, hpath, hq, ih hps]

variable {d : Debouncer} {now : Nat}

theorem entryOf?_record (h : Distinct d.pending) :
    (d.record now path kind).entryOf? q =
      if path.same q then joined path kind (now + d.window) (d.entryOf? path)
      else d.entryOf? q :=
  find?_merge h

theorem kindOf?_record (h : Distinct d.pending) :
    (d.record now path kind).kindOf? q =
      if path.same q then after (d.kindOf? path) kind else d.kindOf? q := by
  calc (d.record now path kind).kindOf? q
      = ((d.record now path kind).entryOf? q).map (·.kind) := rfl
    _ = if path.same q then after ((d.entryOf? path).map (·.kind)) kind
          else (d.entryOf? q).map (·.kind) := by
      rw [entryOf?_record h, apply_ite (Option.map _), map_kind_joined]

theorem kindOf?_of_nil (h : d.pending = []) : d.kindOf? path = none := by
  rw [kindOf?, h, List.find?_nil, Option.map_none]

theorem eq_removed_of_after {old : Option ChangeKind} (h : after old kind = none) :
    old = some .created ∧ kind = .removed := by
  cases old with
  | none => cases h
  | some old => cases old <;> cases kind <;> simp_all [after, ChangeKind.coalesce]

theorem mem_ready_iff {p : Pending} : p ∈ d.ready now ↔ p ∈ d.pending ∧ isReady now p = true := by
  rw [ready, List.mem_mergeSort, List.mem_filter]

theorem drain_of_ready_nil (h : d.ready now = []) : (d.drain now).1 = d := by
  have hpending : d.pending.filter (!isReady now ·) = d.pending := by
    apply List.filter_eq_self.mpr
    intro p hp
    rw [Bool.not_eq_true']
    apply Bool.eq_false_iff.mpr
    intro hready
    have hmem : p ∈ d.ready now := mem_ready_iff.mpr ⟨hp, hready⟩
    rw [h] at hmem
    cases hmem
  rw [drain, hpending]

theorem entryOf?_congr {p : Path} (h : p.same q = true) : d.entryOf? p = d.entryOf? q := by
  have hsame : (fun old : Pending => old.path.same p) = fun old => old.path.same q := by
    funext old
    rw [Path.same, Path.same, same_iff.mp h]
  rw [entryOf?, entryOf?, hsame]

theorem same_of_entryOf? {p : Pending} (h : d.entryOf? q = some p) : p.path.same q = true :=
  List.find?_some (p := fun old : Pending => old.path.same q) h

theorem filter_same (h : Distinct ps) (q : Path) :
    ps.filter (·.path.same q) = (ps.find? (·.path.same q)).toList := by
  induction ps with
  | nil => rfl
  | cons first ps ih =>
    obtain ⟨hfirst, hps⟩ := List.nodup_cons.mp h
    by_cases hq : first.path.same q
    · have hnone : ps.find? (·.path.same q) = none := by
        apply find?_eq_none
        rw [← same_iff.mp hq]
        exact hfirst
      simp [hq, ih hps, hnone]
    · simp [hq, ih hps]

theorem entryOf?_of_mem (h : Distinct d.pending) {p : Pending} (hp : p ∈ d.pending) :
    d.entryOf? p.path = some p := by
  have hmem : p ∈ d.pending.filter (·.path.same p.path) :=
    List.mem_filter.mpr ⟨hp, same_iff.mpr rfl⟩
  rw [filter_same h] at hmem
  exact Option.mem_toList.mp hmem

theorem Distinct.filter (h : Distinct ps) (f : Pending → Bool) : Distinct (ps.filter f) :=
  h.sublist (List.filter_sublist.map _)

theorem find?_filter (h : Distinct ps) (f : Pending → Bool) :
    (ps.filter f).find? (·.path.same q) = (ps.find? (·.path.same q)).filter f := by
  have hlist : ((ps.filter f).find? (·.path.same q)).toList =
      ((ps.find? (·.path.same q)).filter f).toList := by
    rw [← filter_same (h.filter f), Option.toList_filter, ← filter_same h, List.filter_comm]
  rw [← Option.head?_toList (o := (ps.filter f).find? _), hlist, Option.head?_toList]

theorem entryOf?_drain (h : Distinct d.pending) :
    (d.drain now).1.entryOf? q = (d.entryOf? q).filter (!isReady now ·) :=
  find?_filter h _

theorem filter_drain (h : Distinct d.pending) (q : Path) :
    (d.drain now).2.filter (·.path.same q) =
      (((d.entryOf? q).filter (isReady now)).map Pending.change).toList := by
  have hperm : ((d.ready now).filter (·.path.same q)).Perm
      ((d.entryOf? q).filter (isReady now)).toList := by
    rw [entryOf?, ← find?_filter h, ← filter_same (h.filter _)]
    exact (List.mergeSort_perm _ _).filter _
  have hready : (d.ready now).filter (·.path.same q) =
      ((d.entryOf? q).filter (isReady now)).toList := by
    cases hentry : (d.entryOf? q).filter (isReady now) with
    | none =>
      rw [hentry] at hperm
      exact hperm.eq_nil
    | some p =>
      rw [hentry] at hperm
      exact hperm.eq_singleton
  rw [Option.toList_map, ← hready]
  exact List.filter_map

theorem pairwise_before_drain (h : Distinct d.pending) :
    (d.drain now).2.Pairwise fun a b => a.path.before b.path = true := by
  have hdistinct : ((d.ready now).map (·.path.components)).Nodup :=
    ((List.mergeSort_perm _ _).map _).nodup_iff.mpr (h.filter _)
  have hsorted : (d.ready now).Pairwise fun a b => Path.inOrder Pending.path a b = true :=
    Path.pairwise_mergeSort _
  apply List.pairwise_map.mpr
  apply (hsorted.and (List.pairwise_map.mp hdistinct)).imp
  intro a b hab
  exact Path.before_of_inOrder hab.1 hab.2

end Debouncer

end StaticSite.LiveReload
