import StaticSite.Proofs.FileTree.Unlinked
import StaticSite.Proofs.Path.Absolute

namespace StaticSite.Path
open StaticSite.FileTree

theorem join_ofLocation {l names : Location} (hl : ∀ name ∈ l, IsName name) (hne : names ≠ [])
    (hnames : ∀ name ∈ names, IsName name) :
    (ofLocation l).join ⟨joinSlash names⟩ = ofLocation (l ++ names) := by
  have hrelative := isAbsolute_joinSlash hnames
  by_cases hnil : l = []
  · subst hnil
    have hroot : (ofLocation []).chars.getLast? = some '/' := by decide
    rw [join, hrelative, if_neg Bool.false_ne_true, if_pos (.inr hroot)]
    rfl
  · obtain ⟨hslash, hchars⟩ := getLast?_names hnil hl
    have hend : (ofLocation l).chars.getLast? ≠ some '/' := by
      change ('/' :: joinSlash l).getLast? ≠ some '/'
      rwa [List.getLast?_cons_of_ne_nil hchars]
    rw [join, hrelative, if_neg Bool.false_ne_true,
      if_neg (not_or.mpr ⟨chars_ofLocation_ne_nil l, hend⟩), ofLocation, ofLocation, ofSegments,
      ofSegments, if_pos rfl, if_pos rfl, joinSlash_append hne hnil]
    rfl

end StaticSite.Path

namespace StaticSite.FileTree
open StaticSite.Path StaticSite.Text

variable {t u v : FileTree} {l k out : Location} {content : Content}

theorem Proper.find_file_iff (ht : t.Proper) (hlinks : t.Unlinked)
    (hl : ∀ name ∈ l, IsName name) : t.find (ofLocation l) = .ok (k, .file content) ↔
      k = l ∧ t.get? l = some (.file content) ∧ Openable (ofLocation l) l := by
  by_cases hnil : l = []
  · subst hnil
    constructor
    · intro h
      cases (find_root h).2
    · rintro ⟨-, h, -⟩
      cases h
  · have hsegments := segments_ofLocation hnil hl
    have hstart : t.start (ofLocation l) = [] := if_pos (isAbsolute_ofLocation l)
    constructor
    · intro h
      obtain ⟨hlocate, hfile⟩ := find_eq_ok_iff.mp h
      obtain ⟨hnul, -, hlong, hleads⟩ := locate_eq_ok_iff_leads.mp hlocate
      rw [hsegments] at hleads
      obtain rfl : k = l := by rw [hlinks.location_of_find h, location_ofLocation _ hl]
      exact ⟨rfl, hfile, hnul, hlong, fun name hname =>
        hleads.byteCount_le hlinks hname (hl name hname)⟩
    · rintro ⟨rfl, hfile, hnul, hlong, hshort⟩
      refine find_eq_ok_iff.mpr ⟨locate_eq_ok_iff_leads.mpr
        ⟨hnul, chars_ofLocation_ne_nil k, hlong, ?_⟩, hfile⟩
      rw [hstart, hsegments]
      exact @Proper.leads_names t maxLinks [] k ht hlinks hl hshort get?_nil (by simp [hfile])

theorem Proper.isFile_join_iff (ht : t.Proper) (hlinks : t.Unlinked) {names : Location}
    (hl : ∀ name ∈ l, IsName name) (hne : names ≠ []) (hnames : ∀ name ∈ names, IsName name) :
    t.isFile ((ofLocation l).join ⟨joinSlash names⟩) = true ↔
      (∃ content, t.get? (l ++ names) = some (.file content)) ∧
        Openable (ofLocation (l ++ names)) (l ++ names) := by
  have hall := List.forall_mem_append.mpr ⟨hl, hnames⟩
  rw [join_ofLocation hl hne hnames, isFile_iff]
  constructor
  · rintro ⟨k, content, hfind⟩
    obtain ⟨-, hfile, hopen⟩ := (ht.find_file_iff hlinks hall).mp hfind
    exact ⟨⟨content, hfile⟩, hopen⟩
  · rintro ⟨⟨content, hfile⟩, hopen⟩
    exact ⟨_, content, (ht.find_file_iff hlinks hall).mpr ⟨rfl, hfile, hopen⟩⟩

theorem Untouched.find_file_iff (h : Untouched t u l) (ht : t.Proper) (htlinks : t.Unlinked)
    (hu : u.Proper) (hulinks : u.Unlinked) (hl : ∀ name ∈ l, IsName name) :
    u.find (ofLocation l) = .ok (k, .file content) ↔
      t.find (ofLocation l) = .ok (k, .file content) := by
  rw [hu.find_file_iff hulinks hl, ht.find_file_iff htlinks hl, h.file_iff]

theorem Writes.untouched_of_location {paths : List Path} (h : Writes paths t u) (ht : t.Unlinked)
    (hl : ∀ path ∈ paths, path.location t.here ≠ l) : Untouched t u l := by
  apply h.untouched
  intro path hpath n hfind
  apply hl path hpath
  rw [(h.unlinked ht).location_of_find hfind, h.here]

def WritesInto (out : Location) (t u : FileTree) : Prop :=
  ∃ paths, Writes paths t u ∧ ∀ path ∈ paths, out <+: path.location t.here

namespace WritesInto

theorem trans (h : WritesInto out t u) (h' : WritesInto out u v) : WritesInto out t v := by
  obtain ⟨paths, hwrites, hpaths⟩ := h
  obtain ⟨more, hwrites', hmore⟩ := h'
  refine ⟨paths ++ more, (hwrites.mono (List.subset_append_left ..)).trans
    (hwrites'.mono (List.subset_append_right ..)), ?_⟩
  intro path hpath
  rcases List.mem_append.mp hpath with hpath | hpath
  · exact hpaths path hpath
  · rw [← hwrites.here]
    exact hmore path hpath

theorem grows (h : WritesInto out t u) : t.Grows u := by
  obtain ⟨paths, hwrites, -⟩ := h
  exact hwrites.toGrows

theorem unlinked (h : WritesInto out t u) (ht : t.Unlinked) : u.Unlinked := by
  obtain ⟨paths, hwrites, -⟩ := h
  exact hwrites.unlinked ht

theorem untouched (h : WritesInto out t u) (ht : t.Unlinked) (hl : ¬ out <+: l) :
    Untouched t u l := by
  obtain ⟨paths, hwrites, hpaths⟩ := h
  apply hwrites.untouched_of_location ht
  rintro path hpath rfl
  exact hl (hpaths path hpath)

theorem readText_iff (h : WritesInto out t u) (ht : t.Proper) (hlinks : t.Unlinked)
    (hl : ∀ name ∈ l, IsName name) (hout : ¬ out <+: l) {text : List Char} :
    u.readText (ofLocation l) = .ok text ↔ t.readText (ofLocation l) = .ok text := by
  rw [readText_eq_ok_iff, readText_eq_ok_iff]
  exact exists_congr fun k => (h.untouched hlinks hout).find_file_iff ht hlinks h.grows.proper
    (h.unlinked hlinks) hl

end WritesInto

end StaticSite.FileTree
