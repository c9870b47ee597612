import StaticSite.Proofs.FileTree.Complete
import StaticSite.Proofs.FileTree.Growth

namespace StaticSite.FileTree
open StaticSite.Path StaticSite.Text

variable {t u : FileTree}

def Unlinked (t : FileTree) : Prop :=
  ∀ l target, t.get? l ≠ some (.link target)

theorem unlinked_of_nodes (h : ∀ e ∈ t.nodes, ∀ target, e.2 ≠ .link target) : t.Unlinked := by
  intro l target hl
  by_cases hroot : l = []
  · rw [hroot] at hl
    cases hl
  · exact h _ (exists_mem_of_get? hl hroot) target rfl

theorem Leads.eq_walk {ending : Ending} {links : Nat} {l m : Location}
    {segments : List (List Char)} (h : t.Leads ending links l segments m) (ht : t.Unlinked) :
    m = (walk l.reverse (segments.filterMap componentOf?)).reverse := by
  induction h with
  | done => exact (List.reverse_reverse _).symm
  | @silent links l m s rest _ hsilent _ ih =>
    have hnone : componentOf? s = none := if_pos hsilent
    rw [List.filterMap_cons_none hnone]
    exact ih
  | @parent links l m rest _ _ ih =>
    rw [← List.tail_reverse] at ih
    exact ih
  | @name links l m s rest _ henter _ _ ih =>
    have hname : componentOf? s = some (.normal s) := by
      rw [componentOf?, if_neg henter.not_silent, if_neg henter.not_parent]
    rw [List.filterMap_cons_some hname]
    rw [List.reverse_append] at ih
    exact ih
  | itself _ _ hlink _ => exact absurd hlink (ht _ _)
  | link _ _ hlink _ _ _ => exact absurd hlink (ht _ _)

theorem Unlinked.location_of_find (ht : t.Unlinked) {p : Path} {l : Location} {n : Node}
    (h : t.find p = .ok (l, n)) : l = p.location t.here := by
  obtain ⟨-, -, -, hleads⟩ := locate_eq_ok_iff_leads.mp (find_eq_ok_iff.mp h).1
  rw [hleads.eq_walk ht, location_eq_walk]
  rfl

theorem Writes.unlinked {paths : List Path} (h : Writes paths t u)
    (ht : t.Unlinked) : u.Unlinked := by
  intro l target hl
  rcases h.only l _ hl with hold | hdir | ⟨path, -, hfind⟩
  · exact ht l target hold
  · cases hdir
  · exact not_link_of_locate h.proper (by simp) (find_eq_ok_iff.mp hfind).1 target hl

theorem Unlinked.append (ht : t.Unlinked) {links : Nat} {l k m : Location}
    {outer inner : List (List Char)} (houter : t.Leads .followed links l outer k)
    (hinner : t.Leads .followed links k inner m) :
    t.Leads .followed links l (outer ++ inner) m := by
  induction houter with
  | done => exact hinner
  | silent hdir hsilent _ ih => exact .silent hdir hsilent (ih hinner)
  | parent hdir _ ih => exact .parent hdir (ih hinner)
  | name hdir henter hnot _ ih => exact .name hdir (henter.of_rest (by simp)) hnot (ih hinner)
  | itself _ _ hlink _ => exact absurd hlink (ht _ _)
  | link _ _ hlink _ _ _ => exact absurd hlink (ht _ _)

theorem Unlinked.eq_append (ht : t.Unlinked) {links : Nat} {l m names : Location}
    (hnames : ∀ name ∈ names, IsName name) (h : t.Leads .followed links l names m) :
    m = l ++ names := by
  rw [h.eq_walk ht, filterMap_componentOf? hnames, walk_map_normal, List.reverse_append,
    List.reverse_reverse, List.reverse_reverse]

theorem Unlinked.leads_of_leads (hu : u.Unlinked) (ht : t.Proper) (hlinks : t.Unlinked)
    {links more : Nat} {l m names : Location} (hnames : ∀ name ∈ names, IsName name)
    (h : u.Leads .followed more l names m) (hl : t.get? l = some .directory)
    (hm : t.get? m ≠ none) : t.Leads .followed links l names m := by
  induction names generalizing l with
  | nil =>
    cases h
    exact .done
  | cons name rest ih =>
    have hname := hnames name (List.mem_cons_self ..)
    have hrest : ∀ name ∈ rest, IsName name :=
      fun other hother => hnames other (List.mem_cons_of_mem _ hother)
    have hplace : m = l ++ [name] ++ rest := by rw [hu.eq_append hnames h, List.append_cons]
    cases h with
    | silent _ hsilent _ =>
      rw [not_isSilent_of_isName hname] at hsilent
      cases hsilent
    | parent => exact absurd rfl hname.2.2.2
    | itself _ _ hlink _ => exact absurd hlink (hu _ _)
    | link _ _ hlink _ _ => exact absurd hlink (hu _ _)
    | name _ henter _ hleads =>
      refine .name hl henter (hlinks _) ?_
      by_cases hnil : rest = []
      · subst hnil
        cases hleads
        exact .done
      · apply ih hrest hleads
        obtain ⟨n, hn⟩ := Option.ne_none_iff_exists'.mp hm
        apply ht.directory_of_prefix (ht.parent_of_get? hn)
        rw [hplace, List.dropLast_append_of_ne_nil hnil]
        exact List.prefix_append _ _

theorem Unlinked.mem_below (hu : u.Unlinked) (ht : t.Proper) (hlinks : t.Unlinked)
    (hgrows : t.Grows u) {root p q r : Path} (hp : t.spell? root = some p)
    (hdir : t.isDirectory p = true) (hq : q ∈ u.below root) (hr : q.relativeTo? root = some r)
    {l : Location} {n m : Node} (hfind : u.find q = .ok (l, n)) (hm : t.get? l = some m) :
    q ∈ t.below root ∧ t.find q = .ok (l, m) := by
  have hlead : root.lead ≠ [.current] :=
    current_mem_components_iff.not.mp (hgrows.proper.current_notMem_of_relativeTo? hq hr)
  obtain ⟨-, hsearched⟩ := searched_spell? hp
  obtain ⟨names, hne, hnames, rfl⟩ := hgrows.proper.behind_of_mem_below (hgrows.spell? hp) hq
  obtain ⟨hcomponents, ss, hsegments⟩ := components_topEntry_of_spell? hp hlead hne hnames
  rw [lead_eq_of_not_current hlead] at hsearched
  have hleads := leads_of_find_names hne hnames hcomponents hfind
  obtain ⟨more, k, houter, hinner⟩ := hleads.split
  obtain ⟨k', hk'⟩ := isDirectory_iff.mp hdir
  obtain ⟨hlocate, hk'⟩ := find_eq_ok_iff.mp hk'
  obtain ⟨-, -, -, hwhole⟩ := locate_eq_ok_iff_leads.mp hlocate
  obtain ⟨hstart, hsame⟩ := same_of_searched (t := t) hsearched
  rw [hstart] at hwhole
  have hroot := hwhole.respell hsame.symm fun _ _ _ => hk'
  have hhere : u.start root = t.start root := by rw [start, start, hgrows.here]
  rw [hhere] at houter
  obtain rfl := houter.eq (hroot.kept hgrows.toKeeps (by simp [hk']))
  have hall := hlinks.append hroot (hu.leads_of_leads ht hlinks hnames hinner hk' (by simp [hm]))
  obtain ⟨hsameLead, hsameNames⟩ := lead_of_names hnames hcomponents
  rw [← start_eq_of_lead hsameLead] at hall
  obtain ⟨hnul, -, hlong, -⟩ := locate_eq_ok_iff_leads.mp (find_eq_ok_iff.mp hfind).1
  have hfound : t.find (topEntry p (joinSlash names)) = .ok (l, m) := by
    refine find_of_leads hall hm hsameNames ?_ (topEntry_ne_nil p hne hnames) hnul hlong
    rw [hsegments]
    intro s hs hsilent
    exact absurd hsilent (not_silent_of_getLast? hne hnames s hs)
  exact ⟨mem_below_of_find hp hlead hne hnames hfound, hfound⟩

section names

variable {links : Nat} {l m names : Location}

theorem Proper.leads_names (ht : t.Proper) (hlinks : t.Unlinked)
    (hnames : ∀ name ∈ names, Path.IsName name) (hshort : ∀ name ∈ names, byteCount name ≤ maxName)
    (hl : t.get? l = some .directory) (hsome : t.get? (l ++ names) ≠ none) :
    t.Leads .followed links l names (l ++ names) := by
  induction names generalizing l with
  | nil =>
    rw [List.append_nil]
    exact .done
  | cons name rest ih =>
    have hname := hnames name (List.mem_cons_self ..)
    have henter : Enterable .followed name rest := by
      refine ⟨?_, hname.2.2.2, by simp, Nat.not_lt.mpr (hshort name (List.mem_cons_self ..))⟩
      rw [Path.not_isSilent_of_isName hname]
      simp
    refine .name hl henter (hlinks _) ?_
    have hplace : l ++ name :: rest = l ++ [name] ++ rest := List.append_cons ..
    rw [hplace] at hsome ⊢
    by_cases hnil : rest = []
    · subst hnil
      rw [List.append_nil]
      exact .done
    · obtain ⟨n, hn⟩ := Option.ne_none_iff_exists'.mp hsome
      have hparent := ht.parent_of_get? hn
      rw [List.dropLast_append_of_ne_nil hnil] at hparent
      exact ih (fun x hx => hnames x (List.mem_cons_of_mem _ hx))
        (fun x hx => hshort x (List.mem_cons_of_mem _ hx))
        (ht.directory_of_prefix hparent (List.prefix_append _ _)) hsome

theorem Leads.byteCount_le {segments : List (List Char)} (hlinks : t.Unlinked)
    (h : t.Leads .followed links l segments m) {name : List Char} (hmem : name ∈ segments)
    (hname : Path.IsName name) : byteCount name ≤ maxName := by
  induction h with
  | done => cases hmem
  | silent _ hsilent _ ih =>
    rcases List.mem_cons.mp hmem with rfl | hmem
    · rw [Path.not_isSilent_of_isName hname] at hsilent
      cases hsilent
    · exact ih hmem
  | parent _ _ ih =>
    rcases List.mem_cons.mp hmem with rfl | hmem
    · exact absurd rfl hname.2.2.2
    · exact ih hmem
  | name _ henter _ _ ih =>
    rcases List.mem_cons.mp hmem with rfl | hmem
    · exact Nat.not_lt.mp henter.not_long
    · exact ih hmem
  | itself _ _ hlink _ => exact absurd hlink (hlinks _ _)
  | link _ _ hlink _ _ _ => exact absurd hlink (hlinks _ _)

structure Openable (p : Path) (names : Location) : Prop where
  nul : '\x00' ∉ p.chars
  long : byteCount p.chars ≤ maxPath
  name_long : ∀ name ∈ names, byteCount name ≤ maxName

theorem Proper.find_topEntry_iff (ht : t.Proper) (hlinks : t.Unlinked) {root p : Path} {n : Node}
    (hroot : t.find root = .ok (l, .directory)) (hp : t.spell? root = some p)
    (hlead : root.lead ≠ [.current]) (hne : names ≠ []) (hnames : ∀ name ∈ names, Path.IsName name)
    (hn : t.get? (l ++ names) = some n) :
    t.find (topEntry p (Path.joinSlash names)) = .ok (l ++ names, n) ↔
      Openable (topEntry p (Path.joinSlash names)) names := by
  obtain ⟨hlocate, hl⟩ := find_eq_ok_iff.mp hroot
  obtain ⟨-, -, -, hleads⟩ := locate_eq_ok_iff_leads.mp hlocate
  obtain ⟨hcomponents, ss, hsegments⟩ := components_topEntry_of_spell? hp hlead hne hnames
  constructor
  · intro hfind
    obtain ⟨hnul, -, hlong, hwhole⟩ := locate_eq_ok_iff_leads.mp (find_eq_ok_iff.mp hfind).1
    refine ⟨hnul, hlong, fun name hname => ?_⟩
    apply hwhole.byteCount_le hlinks _ (hnames name hname)
    rw [hsegments]
    exact List.mem_append_right _ hname
  · rintro ⟨hnul, hlong, hshort⟩
    have hsome : t.get? (l ++ names) ≠ none := by simp [hn]
    have hall := hlinks.append hleads (ht.leads_names hlinks hnames hshort hl hsome)
    obtain ⟨hsameLead, hsame⟩ := lead_of_names hnames hcomponents
    rw [← start_eq_of_lead hsameLead] at hall
    refine find_of_leads hall hn hsame ?_ (topEntry_ne_nil p hne hnames) hnul hlong
    rw [hsegments]
    intro s hs hsilent
    exact absurd hsilent (not_silent_of_getLast? hne hnames s hs)

end names

end StaticSite.FileTree
