import Mathlib.Data.List.Nodup
import StaticSite.Proofs.FileTree.Find
import StaticSite.Proofs.Path.Location

namespace StaticSite.FileTree

structure Proper (t : FileTree) : Prop where
  nodup : (t.nodes.map (·.1)).Nodup
  ne_root : ∀ e ∈ t.nodes, e.1 ≠ []
  isName : ∀ e ∈ t.nodes, ∀ name ∈ e.1, Path.IsName name
  parent : ∀ e ∈ t.nodes, t.get? e.1.dropLast = some .directory

variable {t : FileTree}

theorem exists_mem_of_get? {l : Location} {n : Node} (h : t.get? l = some n) (hl : l ≠ []) :
    (l, n) ∈ t.nodes := by
  rw [get?, if_neg hl] at h
  obtain ⟨before, after, hnodes, -⟩ := List.lookup_eq_some_iff.mp h
  rw [hnodes]
  simp

theorem get?_ne_none_of_mem {e : Location × Node} (h : e ∈ t.nodes) : t.get? e.1 ≠ none := by
  intro hnone
  unfold get? at hnone
  split at hnone
  · cases hnone
  · have hne := List.lookup_eq_none_iff.mp hnone e h
    simp at hne

theorem Proper.get?_of_mem (h : t.Proper) {l : Location} {n : Node} (hmem : (l, n) ∈ t.nodes) :
    t.get? l = some n := by
  obtain ⟨m, hm⟩ := Option.ne_none_iff_exists'.mp (get?_ne_none_of_mem hmem)
  have hsame := List.inj_on_of_nodup_map h.nodup hmem
    (exists_mem_of_get? hm (h.ne_root _ hmem)) rfl
  rw [hm, (Prod.mk.inj hsame).2]

theorem Proper.isName_of_get? (h : t.Proper) {l : Location} {n : Node} (hl : t.get? l = some n) :
    ∀ name ∈ l, Path.IsName name := by
  by_cases hroot : l = []
  · simp [hroot]
  · exact h.isName _ (exists_mem_of_get? hl hroot)

theorem Proper.parent_of_get? (h : t.Proper) {l : Location} {n : Node} (hl : t.get? l = some n) :
    t.get? l.dropLast = some .directory := by
  by_cases hroot : l = []
  · simp [hroot]
  · exact h.parent _ (exists_mem_of_get? hl hroot)

theorem Proper.eq_of_prefix (h : t.Proper) {l k : Location} {content : Content}
    (hl : t.get? l = some (.file content)) (hbegin : l <+: k) (hk : t.get? k ≠ none) : k = l := by
  obtain ⟨s, rfl⟩ := hbegin
  induction s using List.reverseRecOn with
  | nil => exact List.append_nil l
  | append_singleton s name ih =>
    obtain ⟨n, hn⟩ := Option.ne_none_iff_exists'.mp hk
    have hparent := h.parent_of_get? hn
    rw [← List.append_assoc, List.dropLast_concat] at hparent
    have heq : l ++ s = l := ih (by simp [hparent])
    rw [heq, hl] at hparent
    cases hparent

theorem ne_nil_of_not_directory {l : Location} (h : t.get? l ≠ some .directory) : l ≠ [] := by
  rintro rfl
  exact h get?_nil

theorem ne_nil_of_get?_file {l : Location} {content : Content}
    (h : t.get? l = some (.file content)) : l ≠ [] := by
  apply ne_nil_of_not_directory (t := t)
  simp [h]

theorem mem_names_iff {l : Location} {name : List Char} :
    name ∈ t.names l ↔ name ≠ [] ∧ t.get? (l ++ [name]) ≠ none := by
  have hroot : l ++ [name] ≠ [] := by simp
  rw [names, List.mem_filterMap]
  constructor
  · rintro ⟨⟨k, n⟩, hmem, hname⟩
    simp only at hname
    split at hname
    · rename_i hl
      obtain ⟨hlast, hne⟩ := Option.filter_eq_some_iff.mp hname
      obtain ⟨init, rfl⟩ := List.getLast?_eq_some_iff.mp hlast
      rw [List.dropLast_concat] at hl
      subst hl
      exact ⟨by simpa using hne, get?_ne_none_of_mem hmem⟩
    · cases hname
  · rintro ⟨hne, hsome⟩
    obtain ⟨n, hn⟩ := Option.ne_none_iff_exists'.mp hsome
    refine ⟨(l ++ [name], n), exists_mem_of_get? hn hroot, ?_⟩
    simp [hne]

theorem Proper.nodup_names (h : t.Proper) (l : Location) : (t.names l).Nodup := by
  have hkeys : t.names l = (t.nodes.map (·.1)).filterMap fun k =>
      if k.dropLast = l then k.getLast?.filter (· ≠ []) else none := by
    rw [List.filterMap_map]
    rfl
  rw [hkeys]
  apply List.Nodup.filterMap _ h.nodup
  intro k k' name hk hk'
  simp only [Option.mem_def] at hk hk'
  split at hk
  · split at hk'
    · rename_i hl hl'
      obtain ⟨init, rfl⟩ := List.getLast?_eq_some_iff.mp (Option.filter_eq_some_iff.mp hk).1
      obtain ⟨init', rfl⟩ := List.getLast?_eq_some_iff.mp (Option.filter_eq_some_iff.mp hk').1
      rw [List.dropLast_concat] at hl hl'
      rw [hl, hl']
    · cases hk'
  · cases hk

theorem mem_setNode {l : Location} {n : Node} {nodes : List (Location × Node)}
    {e : Location × Node} (h : e ∈ setNode l n nodes) : e = (l, n) ∨ e ∈ nodes := by
  induction nodes with
  | nil => exact .inl (List.mem_singleton.mp h)
  | cons first nodes ih =>
    obtain ⟨k, m⟩ := first
    simp only [setNode] at h
    split at h
    · rcases List.mem_cons.mp h with rfl | h
      · exact .inl rfl
      · exact .inr (List.mem_cons_of_mem _ h)
    · rcases List.mem_cons.mp h with rfl | h
      · exact .inr (List.mem_cons_self ..)
      · exact (ih h).imp_right (List.mem_cons_of_mem _)

theorem nodup_setNode {l : Location} {n : Node} {nodes : List (Location × Node)}
    (h : (nodes.map (·.1)).Nodup) : ((setNode l n nodes).map (·.1)).Nodup := by
  induction nodes with
  | nil => simp [setNode]
  | cons first nodes ih =>
    obtain ⟨k, m⟩ := first
    obtain ⟨hk, hnodes⟩ := List.nodup_cons.mp h
    simp only [setNode]
    split
    · rename_i heq
      rw [List.map_cons, ← heq]
      exact List.nodup_cons.mpr ⟨hk, hnodes⟩
    · rename_i hne
      apply List.nodup_cons.mpr ⟨?_, ih hnodes⟩
      intro hmem
      obtain ⟨e, he, hek⟩ := List.mem_map.mp hmem
      rcases mem_setNode he with rfl | he
      · exact hne hek.symm
      · apply hk
        rw [← hek]
        exact List.mem_map_of_mem he

theorem Proper.set_node (h : t.Proper) {l : Location} (hname : ∀ name ∈ l, Path.IsName name)
    (hparent : t.get? l.dropLast = some .directory) (hl : t.get? l ≠ some .directory) (n : Node) :
    (t.set l n).Proper := by
  have hstays {k : Location} (hk : t.get? k = some .directory) :
      (t.set l n).get? k = some .directory := by
    rw [get?_set (ne_nil_of_not_directory hl), if_neg, hk]
    rintro rfl
    exact hl hk
  constructor
  · exact nodup_setNode h.nodup
  · intro e he
    rcases mem_setNode he with rfl | he
    · exact ne_nil_of_not_directory hl
    · exact h.ne_root e he
  · intro e he
    rcases mem_setNode he with rfl | he
    · exact hname
    · exact h.isName e he
  · intro e he
    rcases mem_setNode he with rfl | he
    · exact hstays hparent
    · exact hstays (h.parent e he)

theorem Proper.set_file (h : t.Proper) {l : Location} (hname : ∀ name ∈ l, Path.IsName name)
    (hparent : t.get? l.dropLast = some .directory) (hl : t.get? l ≠ some .directory)
    (content : Content) : (t.set l (.file content)).Proper :=
  h.set_node hname hparent hl _

theorem Proper.directory_of_prefix (h : t.Proper) {l k : Location}
    (hk : t.get? k = some .directory) (hbegin : l <+: k) : t.get? l = some .directory := by
  obtain ⟨s, rfl⟩ := hbegin
  induction s using List.reverseRecOn with
  | nil => rwa [List.append_nil] at hk
  | append_singleton s name ih =>
    apply ih
    have hparent := h.parent_of_get? hk
    rwa [← List.append_assoc, List.dropLast_concat] at hparent

theorem lookup_filter {nodes : List (Location × Node)} (f : Location → Bool) (k : Location) :
    (nodes.filter fun e => f e.1).lookup k = if f k then nodes.lookup k else none := by
  induction nodes with
  | nil => simp
  | cons first nodes ih =>
    obtain ⟨l, n⟩ := first
    by_cases hk : k = l
    · subst hk
      by_cases hf : f k
      · simp [hf]
      · simp [hf, ih]
    · by_cases hf : f l
      · simp [hf, List.lookup_cons, beq_eq_false_iff_ne.mpr hk, ih]
      · simp [hf, List.lookup_cons, beq_eq_false_iff_ne.mpr hk, ih]

theorem Proper.get?_erase (h : t.Proper) {l : Location} {content : Content}
    (hl : t.get? l = some (.file content)) (k : Location) :
    (t.erase l).get? k = if k = l then none else t.get? k := by
  have hroot := ne_nil_of_get?_file hl
  by_cases hk : k = []
  · subst hk
    rw [if_neg hroot.symm, get?_nil, get?_nil]
  · rw [get?, if_neg hk, erase, lookup_filter fun k => !l.isPrefixOf k]
    split
    · rename_i hnot
      rw [if_neg, get?, if_neg hk]
      rintro rfl
      rw [List.isPrefixOf_iff_prefix.mpr (List.prefix_refl k)] at hnot
      cases hnot
    · rename_i hbegin
      split
      · rfl
      · rename_i hne
        by_contra hsome
        apply hne
        apply h.eq_of_prefix hl _ (Ne.symm hsome)
        simpa using hbegin

theorem Proper.erase (h : t.Proper) {l : Location} {content : Content}
    (hl : t.get? l = some (.file content)) : (t.erase l).Proper := by
  have hsub : (t.erase l).nodes.Sublist t.nodes := List.filter_sublist
  constructor
  · exact h.nodup.sublist (hsub.map _)
  · intro e he
    exact h.ne_root e (hsub.subset he)
  · intro e he
    exact h.isName e (hsub.subset he)
  · intro e he
    have hparent := h.parent e (hsub.subset he)
    rw [h.get?_erase hl, if_neg, hparent]
    intro heq
    rw [heq, hl] at hparent
    cases hparent

theorem mem_changedFiles_iff {u : FileTree} (ht : t.Proper) {e : Location × Content} :
    e ∈ u.changedFiles t ↔
      t.get? e.1 = some (.file e.2) ∧ u.get? e.1 ≠ some (.file e.2) := by
  rw [changedFiles, List.mem_filterMap]
  constructor
  · rintro ⟨⟨l, n⟩, hmem, hfile⟩
    cases n with
    | file content =>
      simp only at hfile
      split at hfile
      · cases hfile
      · rename_i hne
        obtain rfl := Option.some.inj hfile
        exact ⟨ht.get?_of_mem hmem, hne⟩
    | directory => cases hfile
    | link target => cases hfile
  · rintro ⟨ht, hu⟩
    refine ⟨(e.1, .file e.2), exists_mem_of_get? ht (ne_nil_of_get?_file ht), ?_⟩
    simp only [if_neg hu]

end StaticSite.FileTree
