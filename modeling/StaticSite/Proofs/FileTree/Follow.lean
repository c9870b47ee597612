import StaticSite.Proofs.FileTree.Find
import StaticSite.Proofs.Path.Location

/-!
The walks that a tree lets a path take, step by step, and what changes of the tree do to them.
-/

namespace StaticSite.FileTree
open StaticSite.Text

structure Enterable (ending : Ending) (s : List Char) (rest : List (List Char)) : Prop where
  not_silent : ¬ Path.isSilent s = true
  not_parent : s ≠ ['.', '.']
  not_directory : ¬ (ending = .created ∧ rest ≠ [] ∧ rest.all (· = []) = true)
  not_long : ¬ maxName < byteCount s

/-- Segments lead from a place to a place, over at most so many links. -/
inductive Leads (t : FileTree) (ending : Ending) :
    Nat → Location → List (List Char) → Location → Prop where
  | done {links : Nat} {l : Location} : Leads t ending links l [] l
  | silent {links : Nat} {l m : Location} {s : List Char} {rest : List (List Char)} :
    t.get? l = some .directory → Path.isSilent s = true → Leads t ending links l rest m →
      Leads t ending links l (s :: rest) m
  | parent {links : Nat} {l m : Location} {rest : List (List Char)} :
    t.get? l = some .directory → Leads t ending links l.dropLast rest m →
      Leads t ending links l (['.', '.'] :: rest) m
  | name {links : Nat} {l m : Location} {s : List Char} {rest : List (List Char)} :
    t.get? l = some .directory → Enterable ending s rest →
      (∀ target, t.get? (l ++ [s]) ≠ some (.link target)) → Leads t ending links (l ++ [s]) rest m →
      Leads t ending links l (s :: rest) m
  | itself {links : Nat} {l : Location} {s : List Char} {target : Path} :
    t.get? l = some .directory → Enterable ending s [] →
      t.get? (l ++ [s]) = some (.link target) → ending = .itself →
      Leads t ending links l [s] (l ++ [s])
  | link {links : Nat} {l m : Location} {s : List Char} {rest : List (List Char)} {target : Path} :
    t.get? l = some .directory → Enterable ending s rest →
      t.get? (l ++ [s]) = some (.link target) → ¬ (ending = .itself ∧ rest = []) →
      Leads t ending links (if target.isAbsolute then [] else l) (target.segments ++ rest) m →
      Leads t ending (links + 1) l (s :: rest) m

variable {t : FileTree}

theorem isSilent_parent : Path.isSilent ['.', '.'] = false := by
  decide

theorem follow_eq_of_leads {ending : Ending} {links : Nat} {l m : Location}
    {segments : List (List Char)} (h : t.Leads ending links l segments m) :
    t.follow ending links l segments = .ok m := by
  induction h with
  | done => exact follow_nil _ _ _
  | silent hdir hsilent _ ih =>
    rw [follow, hdir]
    simp only [hsilent, ↓reduceIte, ih]
  | parent hdir _ ih =>
    rw [follow, hdir]
    simp only [isSilent_parent, Bool.false_eq_true, ↓reduceIte, ih]
  | name hdir henter hnot _ ih =>
    rw [follow, hdir]
    simp only [if_neg henter.not_silent, if_neg henter.not_parent, if_neg henter.not_directory,
      if_neg henter.not_long]
    exact ih
  | itself hdir henter hlink hitself =>
    rw [follow, hdir]
    simp only [if_neg henter.not_silent, if_neg henter.not_parent, if_neg henter.not_directory,
      if_neg henter.not_long, hlink]
    rw [if_pos ⟨hitself, trivial⟩]
  | link hdir henter hlink hmore _ ih =>
    rw [follow, hdir]
    simp only [if_neg henter.not_silent, if_neg henter.not_parent, if_neg henter.not_directory,
      if_neg henter.not_long, hlink, if_neg hmore]
    exact ih

theorem leads_of_follow_eq {ending : Ending} {links : Nat} {l m : Location}
    {segments : List (List Char)} (h : t.follow ending links l segments = .ok m) :
    t.Leads ending links l segments m := by
  fun_induction follow t ending links l segments with
  | case1 =>
    obtain rfl := Except.ok.inj h
    exact .done
  | case2 | case3 | case4 | case7 | case8 | case10 => cases h
  | case5 links l s rest hdir hsilent ih => exact .silent hdir hsilent (ih h)
  | case6 links l rest hdir hnot ih => exact .parent hdir (ih h)
  | case9 links l s rest hdir hsilent hparent hdirectory hlong target hlink hlast =>
    obtain ⟨hitself, rfl⟩ := hlast
    obtain rfl := Except.ok.inj h
    exact .itself hdir ⟨hsilent, hparent, hdirectory, hlong⟩ hlink hitself
  | case11 l s rest hdir hsilent hparent hdirectory hlong target hlink hmore links ih =>
    exact .link hdir ⟨hsilent, hparent, hdirectory, hlong⟩ hlink hmore (ih h)
  | case12 links l s rest hdir hsilent hparent hdirectory hlong hnot ih =>
    exact .name hdir ⟨hsilent, hparent, hdirectory, hlong⟩ (fun target => hnot target) (ih h)

theorem follow_eq_ok_iff {ending : Ending} {links : Nat} {l m : Location}
    {segments : List (List Char)} :
    t.follow ending links l segments = .ok m ↔ t.Leads ending links l segments m :=
  ⟨leads_of_follow_eq, follow_eq_of_leads⟩

theorem ne_of_get?_ne {l m : Location} (hl : t.get? l = some .directory)
    (hm : t.get? m ≠ some .directory) : m ≠ l := by
  rintro rfl
  exact hm hl

theorem Leads.prefix_of_link {ending : Ending} {links : Nat} {l m : Location}
    {segments : List (List Char)} (h : t.Leads ending links l segments m)
    (hending : ending ≠ .itself) {target : Path} (hm : t.get? m = some (.link target))
    (hsegments : segments ≠ []) : m <+: l := by
  induction h with
  | done => exact absurd rfl hsegments
  | @silent links l m s rest hdir _ hrest ih =>
    refine ih hm ?_
    rintro rfl
    cases hrest
    rw [hm] at hdir
    cases hdir
  | @parent links l m rest hdir hrest ih =>
    by_cases hnil : rest = []
    · subst hnil
      cases hrest
      exact List.dropLast_prefix l
    · exact (ih hm hnil).trans (List.dropLast_prefix l)
  | @name links l m s rest hdir _ hnot hrest ih =>
    have hne : m ≠ l ++ [s] := by
      rintro rfl
      exact hnot target hm
    have hnil : rest ≠ [] := by
      rintro rfl
      cases hrest
      exact hne rfl
    rcases List.prefix_concat_iff.mp (ih hm hnil) with heq | hbegin
    · exact absurd heq hne
    · exact hbegin
  | itself _ _ _ hitself => exact absurd hitself hending
  | @link links l m s rest other _ _ _ _ _ ih =>
    have hbegin := ih hm (by simp [Path.segments_ne_nil])
    split at hbegin
    · obtain rfl := List.prefix_nil.mp hbegin
      exact List.nil_prefix
    · exact hbegin

theorem Leads.set_file {links : Nat} {l m : Location} {segments : List (List Char)}
    (h : t.Leads .created links l segments m) (hm : t.get? m ≠ some .directory)
    (content : Content) : (t.set m (.file content)).Leads .followed links l segments m := by
  have hroot : m ≠ [] := by
    rintro rfl
    exact hm get?_nil
  have hset {k : Location} (hk : k ≠ m) : (t.set m (.file content)).get? k = t.get? k := by
    rw [get?_set hroot, if_neg hk]
  have hdirectory {k : Location} (hdir : t.get? k = some .directory) :
      (t.set m (.file content)).get? k = some .directory := by
    rw [hset (ne_of_get?_ne hdir hm).symm, hdir]
  have henter {s : List Char} {rest : List (List Char)} (h : Enterable .created s rest) :
      Enterable .followed s rest :=
    ⟨h.not_silent, h.not_parent, by simp, h.not_long⟩
  induction h with
  | done => exact .done
  | silent hdir hsilent _ ih => exact .silent (hdirectory hdir) hsilent (ih hm hroot hset hdirectory)
  | parent hdir _ ih => exact .parent (hdirectory hdir) (ih hm hroot hset hdirectory)
  | @name links l m s rest hdir hname hnot _ ih =>
    refine .name (hdirectory hdir) (henter hname) (fun target => ?_) (ih hm hroot hset hdirectory)
    rw [get?_set hroot]
    split
    · simp
    · exact hnot target
  | itself _ _ _ hitself => cases hitself
  | @link links l m s rest target hdir hname hlink _ hrest ih =>
    -- The walk goes on from `l` or the root, and neither lies below the link that it took.
    have hne : l ++ [s] ≠ m := by
      rintro rfl
      have hbegin := hrest.prefix_of_link (by simp) hlink (by simp [Path.segments_ne_nil])
      have hlength := hbegin.length_le
      rw [List.length_append, List.length_singleton] at hlength
      split at hlength
      · simp at hlength
      · omega
    exact .link (hdirectory hdir) (henter hname) (by rw [hset hne, hlink]) (by simp)
      (ih hm hroot hset hdirectory)

theorem locate_eq_ok_iff_leads {ending : Ending} {p : Path} {l : Location} :
    t.locate ending p = .ok l ↔
      '\x00' ∉ p.chars ∧ p.chars ≠ [] ∧ byteCount p.chars ≤ maxPath ∧
        t.Leads ending maxLinks (t.start p) p.segments l := by
  rw [locate_eq_ok_iff, follow_eq_ok_iff]

theorem write_eq_ok_iff {u : FileTree} {p : Path} {content : Content} :
    t.write p content = .ok u ↔
      ∃ l, t.locate .created p = .ok l ∧ t.get? l ≠ some .directory ∧
        u = t.set l (.file content) := by
  rw [write, bind_eq_ok_iff]
  apply exists_congr
  intro l
  apply and_congr_right
  intro _
  split
  · rename_i hdir
    simp [hdir]
  · rename_i hnot
    constructor
    · intro h
      exact ⟨hnot, (Except.ok.inj h).symm⟩
    · rintro ⟨-, rfl⟩
      rfl

theorem find_of_write {u : FileTree} {p : Path} {content : Content}
    (h : t.write p content = .ok u) :
    ∃ l, t.locate .created p = .ok l ∧ u = t.set l (.file content) ∧
      u.find p = .ok (l, .file content) := by
  obtain ⟨l, hlocate, hl, rfl⟩ := write_eq_ok_iff.mp h
  obtain ⟨hnul, hne, hlong, hleads⟩ := locate_eq_ok_iff_leads.mp hlocate
  have hroot : l ≠ [] := by
    rintro rfl
    exact hl get?_nil
  refine ⟨l, hlocate, rfl, find_eq_ok_iff.mpr ⟨?_, by rw [get?_set hroot, if_pos rfl]⟩⟩
  exact locate_eq_ok_iff_leads.mpr ⟨hnul, hne, hlong, hleads.set_file hl content⟩

theorem readText_of_write {u : FileTree} {p : Path} {text : List Char}
    (h : t.write p (.text text) = .ok u) : u.readText p = .ok text := by
  obtain ⟨l, -, -, hfind⟩ := find_of_write h
  exact readText_eq_ok_iff.mpr ⟨l, hfind⟩

end StaticSite.FileTree
