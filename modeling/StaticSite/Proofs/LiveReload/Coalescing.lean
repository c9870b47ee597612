import Mathlib.Data.List.Induction
import StaticSite.LiveReload.Debouncer

namespace StaticSite.LiveReload.ChangeKind

def net : List ChangeKind → Option ChangeKind
  | [] => none
  | first :: rest => rest.foldlM coalesce first

variable {ks rest : List ChangeKind} {k c : ChangeKind}

theorem net_concat (hne : ks ≠ []) (k : ChangeKind) :
    net (ks ++ [k]) = (net ks).bind fun c => c.coalesce k := by
  cases ks with
  | nil => exact absurd rfl hne
  | cons first rest =>
    rw [List.cons_append, net, net, List.foldlM_append]
    simp only [List.foldlM_cons, List.foldlM_nil, bind_pure]
    rfl

theorem coalesce_created {next : ChangeKind} (h : c.coalesce .created = some next) :
    next ≠ .removed ∧ (next = .created ↔ c ≠ .removed) := by
  cases c <;> cases h <;> simp

theorem coalesce_modified {next : ChangeKind} (h : c.coalesce .modified = some next) :
    c = next := by
  cases c <;> cases h <;> rfl

theorem coalesce_removed {next : ChangeKind} (h : c.coalesce .removed = some next) :
    next = .removed := by
  cases c <;> cases h <;> rfl

def IsThere (ks : List ChangeKind) : Prop :=
  (ks.filter (· ≠ .modified)).getLast? ≠ some .removed

instance (ks : List ChangeKind) : Decidable (IsThere ks) :=
  inferInstanceAs (Decidable (_ ≠ _))

def Appears (ks : List ChangeKind) : Prop :=
  ∃ before since, ks = before ++ .created :: since ∧ IsThere before ∧ .removed ∉ since

def Cancels (ks : List ChangeKind) : Prop :=
  ∃ before since, ks = before ++ .removed :: since ∧ Appears before

theorem isThere_created (ks : List ChangeKind) : IsThere (ks ++ [.created]) := by
  simp [IsThere]

theorem isThere_modified : IsThere (ks ++ [.modified]) ↔ IsThere ks := by
  simp [IsThere]

theorem not_isThere_removed (ks : List ChangeKind) : ¬ IsThere (ks ++ [.removed]) := by
  simp [IsThere]

theorem Appears.isThere (h : Appears ks) : IsThere ks := by
  obtain ⟨before, since, rfl, -, hsince⟩ := h
  induction since using List.reverseRecOn with
  | nil => exact isThere_created before
  | append_singleton since k ih =>
    rw [List.mem_append, List.mem_singleton, not_or] at hsince
    have hbefore := ih hsince.1
    cases k with
    | created =>
      rw [← List.cons_append, ← List.append_assoc]
      exact isThere_created _
    | modified =>
      rw [← List.cons_append, ← List.append_assoc]
      exact isThere_modified.mpr hbefore
    | removed => exact absurd rfl hsince.2

theorem not_appears_nil : ¬ Appears [] := by
  rintro ⟨before, since, h, -, -⟩
  simp at h

theorem appears_concat : Appears (ks ++ [k]) ↔
    (k = .created ∧ IsThere ks) ∨ (k ≠ .removed ∧ Appears ks) := by
  constructor
  · rintro ⟨before, since, heq, hbefore, hsince⟩
    induction since using List.reverseRecOn with
    | nil =>
      obtain ⟨rfl, hk⟩ := List.append_inj' heq rfl
      exact .inl ⟨List.singleton_inj.mp hk, hbefore⟩
    | append_singleton since last =>
      rw [← List.cons_append, ← List.append_assoc] at heq
      obtain ⟨rfl, hk⟩ := List.append_inj' heq rfl
      obtain rfl := List.singleton_inj.mp hk
      rw [List.mem_append, List.mem_singleton, not_or] at hsince
      exact .inr ⟨Ne.symm hsince.2, before, since, rfl, hbefore, hsince.1⟩
  · rintro (⟨rfl, hthere⟩ | ⟨hk, before, since, rfl, hbefore, hsince⟩)
    · exact ⟨ks, [], rfl, hthere, List.not_mem_nil⟩
    · refine ⟨before, since ++ [k], by simp, hbefore, ?_⟩
      simp [hsince, Ne.symm hk]

theorem not_cancels_nil : ¬ Cancels [] := by
  rintro ⟨before, since, h, -⟩
  simp at h

theorem cancels_concat : Cancels (ks ++ [k]) ↔ Cancels ks ∨ (k = .removed ∧ Appears ks) := by
  constructor
  · rintro ⟨before, since, heq, hbefore⟩
    induction since using List.reverseRecOn with
    | nil =>
      obtain ⟨rfl, hk⟩ := List.append_inj' heq rfl
      exact .inr ⟨List.singleton_inj.mp hk, hbefore⟩
    | append_singleton since last =>
      rw [← List.cons_append, ← List.append_assoc] at heq
      obtain ⟨rfl, -⟩ := List.append_inj' heq rfl
      exact .inl ⟨before, since, rfl, hbefore⟩
  · rintro (⟨before, since, rfl, hbefore⟩ | ⟨rfl, happears⟩)
    · exact ⟨before, since ++ [k], by simp, hbefore⟩
    · exact ⟨ks, [], rfl, happears⟩

theorem Cancels.append {ks : List ChangeKind} (h : Cancels ks) (more : List ChangeKind) :
    Cancels (ks ++ more) := by
  obtain ⟨before, since, rfl, hbefore⟩ := h
  exact ⟨before, since ++ more, by simp, hbefore⟩

theorem Cancels.ne_nil {ks : List ChangeKind} (h : Cancels ks) : ks ≠ [] := by
  rintro rfl
  exact not_cancels_nil h

structure Sums (ks : List ChangeKind) (c : ChangeKind) : Prop where
  removed : c = .removed ↔ ¬ IsThere ks
  created : c = .created ↔ Appears ks

theorem sums_singleton (k : ChangeKind) : Sums [k] k := by
  have happears : Appears ([] ++ [k]) ↔ k = .created := by
    rw [appears_concat]
    simp [not_appears_nil, IsThere]
  constructor
  · cases k <;> simp [IsThere]
  · exact happears.symm

theorem Sums.concat (h : Sums ks c) {next : ChangeKind} (hnext : c.coalesce k = some next) :
    Sums (ks ++ [k]) next := by
  have happears : Appears (ks ++ [k]) ↔
      (k = .created ∧ IsThere ks) ∨ (k ≠ .removed ∧ Appears ks) := appears_concat
  cases k with
  | created =>
    obtain ⟨hnot, hnew⟩ := coalesce_created hnext
    have hthere : Appears ks → IsThere ks := Appears.isThere
    constructor
    · simp [hnot, isThere_created]
    · rw [hnew, happears, ne_eq, h.removed, not_not]
      simpa using hthere
  | modified =>
    obtain rfl := coalesce_modified hnext
    constructor
    · rw [isThere_modified, h.removed]
    · rw [happears, h.created]
      simp
  | removed =>
    obtain rfl := coalesce_removed hnext
    constructor
    · simp [not_isThere_removed]
    · simp [happears]

theorem Sums.coalesce_eq_none_iff (h : Sums ks c) :
    c.coalesce k = none ↔ k = .removed ∧ Appears ks := by
  rw [← h.created]
  cases c <;> cases k <;> simp [coalesce]

theorem net_spec (hne : ks ≠ []) :
    (∀ c, net ks = some c → Sums ks c) ∧ (net ks = none ↔ Cancels ks) := by
  induction ks using List.reverseRecOn with
  | nil => exact absurd rfl hne
  | append_singleton ks k ih =>
    by_cases hks : ks = []
    · subst hks
      rw [List.nil_append]
      constructor
      · intro c hc
        obtain rfl := Option.some.inj hc
        exact sums_singleton k
      · have hcancels : Cancels ([] ++ [k]) ↔ Cancels [] ∨ (k = .removed ∧ Appears []) :=
          cancels_concat
        rw [List.nil_append] at hcancels
        simp [net, hcancels, not_cancels_nil, not_appears_nil]
    · obtain ⟨hsums, hnone⟩ := ih hks
      rw [net_concat hks, cancels_concat, ← hnone]
      cases hnet : net ks with
      | none => simp
      | some c =>
        have hc := hsums c hnet
        simp only [Option.bind_some, reduceCtorEq, false_or]
        exact ⟨fun next hnext => hc.concat hnext, hc.coalesce_eq_none_iff⟩

theorem net_eq_none_iff (hne : ks ≠ []) : net ks = none ↔ Cancels ks :=
  (net_spec hne).2

end StaticSite.LiveReload.ChangeKind
