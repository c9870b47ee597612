import StaticSite.Proofs.Sprite.Compiled
import StaticSite.Proofs.Sprite.Scan

/-!
Which files of a directory are its icons. In a tree without links all that are named as icons are
come upon, in any spelling of the directory but one that leads with `.`, as long as the path that is
made for the file can be opened.
-/

namespace StaticSite.Sprite
open StaticSite.FileTree StaticSite.Text

variable {t : FileTree}

def IsIconName (name id : List Char) : Prop :=
  id ≠ [] ∧ ∃ ext, name = id ++ '.' :: ext ∧ sameLetters "svg".toList ext = true

structure IconAt (t : FileTree) (l names : Location) (id : List Char) : Prop where
  name : ∃ name, names.getLast? = some name ∧ IsIconName name id
  file : ∃ content, t.get? (l ++ names) = some (.file content)

structure Icon.Describes (t : FileTree) (l names : Location) (icon : Icon) : Prop where
  place : IconAt t l names icon.id
  relative : icon.relative = ⟨Path.joinSlash names⟩
  path : ∃ content, t.find icon.path = .ok (l ++ names, .file content)

/-- A file is come upon if the path that is made for it can be opened. Where `.` leads the spelling of
the directory, such paths do not begin as the directory does. -/
def Reached (t : FileTree) (root : Path) (names : Location) : Prop :=
  root.lead ≠ [.current] ∧
    ∃ p, t.spell? root = some p ∧ Openable (topEntry p (Path.joinSlash names)) names

theorem dot_notMem_of_sameLetters {ext : List Char} (h : sameLetters "svg".toList ext = true) :
    '.' ∉ ext := by
  intro hmem
  have hdot : '.' ∈ lowerAscii "svg".toList := by
    rw [eq_of_beq h]
    exact List.mem_map_of_mem hmem
  revert hdot
  decide

theorem isIconName_iff {name id : List Char} : IsIconName name id ↔
    ∃ ext, Path.splitName name = (id, some ext) ∧ sameLetters "svg".toList ext = true := by
  simp only [Path.splitName_eq_iff, IsIconName]
  constructor
  · rintro ⟨hid, ext, hname, hext⟩
    exact ⟨ext, ⟨hid, hname, dot_notMem_of_sameLetters hext⟩, hext⟩
  · rintro ⟨ext, ⟨hid, hname, -⟩, hext⟩
    exact ⟨hid, ext, hname, hext⟩

namespace Icon

theorem hasExtension_and_fileStem?_iff {p : Path} {name id : List Char}
    (h : p.fileName? = some name) :
    hasExtension p = true ∧ p.fileStem? = some id ↔ IsIconName name id := by
  rw [isIconName_iff, hasExtension, Path.extension?, Path.fileStem?, h, Option.bind_some,
    Option.map_some, Option.any_eq_true]
  constructor
  · rintro ⟨⟨ext, hext, hsame⟩, hid⟩
    exact ⟨ext, Prod.ext (Option.some.inj hid) hext, hsame⟩
  · rintro ⟨ext, hsplit, hsame⟩
    rw [hsplit]
    exact ⟨⟨ext, rfl, hsame⟩, rfl⟩

theorem isName_of_iconAt (ht : t.Proper) {l names : Location} {id : List Char}
    (h : IconAt t l names id) : names ≠ [] ∧ ∀ name ∈ names, Path.IsName name := by
  obtain ⟨name, hlast, -⟩ := h.name
  obtain ⟨content, hfile⟩ := h.file
  refine ⟨?_, fun other hother => ht.isName_of_get? hfile other (List.mem_append_right _ hother)⟩
  rintro rfl
  cases hlast

section root

variable {root : Path} {l : Location} (ht : t.Proper) (hlinks : t.Unlinked)
  (hroot : t.find root = .ok (l, .directory))
include ht hlinks hroot

theorem exists_describes {icon : Icon} (h : icon ∈ scan t root) :
    ∃ names, Describes t l names icon := by
  obtain ⟨q, hq, hofPath⟩ := mem_scan_iff.mp h
  obtain ⟨hbelow, hextension, hfile⟩ := mem_files_iff.mp hq
  obtain ⟨rfl, hrelative, hstem⟩ := ofPath?_eq_some_iff.mp hofPath
  obtain ⟨-, names, hne, hnames, hspelled, hcomponents⟩ := ht.names_of_mem_below hbelow hrelative
  obtain ⟨k, content, hfind⟩ := isFile_iff.mp hfile
  have hplace : k = l ++ names := by
    rw [hlinks.location_of_find hfind, hlinks.location_of_find hroot,
      Path.location_of_components _ hcomponents]
  subst hplace
  have hlast := List.getLast?_eq_some_getLast hne
  have hname := (hasExtension_and_fileStem?_iff (Path.fileName?_of_components hcomponents hlast)).mp
    ⟨hextension, hstem⟩
  exact ⟨names, ⟨⟨_, hlast, hname⟩, content, (find_eq_ok_iff.mp hfind).2⟩, hspelled, content, hfind⟩

theorem exists_mem_scan_iff {names : Location} {id : List Char} (h : IconAt t l names id) :
    (∃ icon ∈ scan t root, icon.id = id ∧ Describes t l names icon) ↔ Reached t root names := by
  obtain ⟨hne, hnames⟩ := isName_of_iconAt ht h
  obtain ⟨name, hlast, hname⟩ := h.name
  obtain ⟨content, hfile⟩ := h.file
  have hchars := chars_ne_nil_of_find hroot
  constructor
  · rintro ⟨icon, hicon, -, -, hrelative, other, hfind⟩
    obtain ⟨q, hq, hofPath⟩ := mem_scan_iff.mp hicon
    obtain ⟨hbelow, -, -⟩ := mem_files_iff.mp hq
    obtain ⟨rfl, hinside, -⟩ := ofPath?_eq_some_iff.mp hofPath
    have hlead : root.lead ≠ [.current] :=
      Path.current_mem_components_iff.not.mp (ht.current_notMem_of_relativeTo? hbelow hinside)
    obtain ⟨p, hp, -⟩ := exists_spell?_of_mem_below hbelow
    obtain ⟨names', hne', hnames', hpath⟩ := ht.behind_of_mem_below hp hbelow
    obtain rfl : names' = names := by
      apply Path.eq_of_joinSlash hnames' hnames
      rw [hpath, relativeTo?_topEntry hp hlead hne' hnames' hchars, hrelative] at hinside
      exact Path.mk.inj (Option.some.inj hinside)
    rw [hpath] at hfind
    have hother := (find_eq_ok_iff.mp hfind).2
    exact ⟨hlead, p, hp,
      (ht.find_topEntry_iff hlinks hroot hp hlead hne hnames hother).mp hfind⟩
  · rintro ⟨hlead, p, hp, hopenable⟩
    have hfind := (ht.find_topEntry_iff hlinks hroot hp hlead hne hnames hfile).mpr hopenable
    have hcomponents := (components_topEntry_of_spell? hp hlead hne hnames).1
    have hfileName := Path.fileName?_of_components hcomponents hlast
    obtain ⟨hextension, hstem⟩ := (hasExtension_and_fileStem?_iff hfileName).mpr hname
    have hicon : ofPath? root (topEntry p (Path.joinSlash names)) =
        some ⟨topEntry p (Path.joinSlash names), ⟨Path.joinSlash names⟩, id⟩ :=
      ofPath?_eq_some_iff.mpr ⟨rfl, relativeTo?_topEntry hp hlead hne hnames hchars, hstem⟩
    have hfound : topEntry p (Path.joinSlash names) ∈ files t root := mem_files_iff.mpr
      ⟨mem_below_of_find hp hlead hne hnames hfind, hextension, isFile_iff.mpr ⟨_, _, hfind⟩⟩
    exact ⟨_, mem_scan_iff.mpr ⟨_, hfound, hicon⟩, rfl, h, rfl, content, hfind⟩

theorem reached_of_find_join {names : Location} {id : List Char} {n : Node}
    (h : IconAt t l names id) (hlead : root.lead ≠ [.current])
    (hfind : t.find (root.join ⟨Path.joinSlash names⟩) = .ok (l ++ names, n)) :
    Reached t root names := by
  obtain ⟨hne, hnames⟩ := isName_of_iconAt ht h
  obtain ⟨p, hp⟩ := exists_spell? hroot hlead
  have hchars := chars_ne_nil_of_find hroot
  have hfound := find_topEntry hp hlead hchars hne hnames hfind
  exact ⟨hlead, p, hp, (ht.find_topEntry_iff hlinks hroot hp hlead hne hnames
    (find_eq_ok_iff.mp hfound).2).mp hfound⟩

end root

theorem pairwise_scan (ht : t.Proper) (root : Path) :
    (scan t root).Pairwise fun a b => a.relative.before b.relative = true := by
  have hsorted : (scan t root).Pairwise fun a b => Path.inOrder Icon.relative a b = true :=
    Path.pairwise_mergeSort _
  apply (hsorted.and (nodup_scan ht root)).imp_of_mem
  rintro a b ha hb ⟨horder, hne⟩
  apply Path.before_of_inOrder horder
  intro hsame
  obtain ⟨p, hp, ha⟩ := mem_scan_iff.mp ha
  obtain ⟨q, hq, hb⟩ := mem_scan_iff.mp hb
  exact hne (eq_of_relative ht hp hq ha hb hsame)

/-- The icons of a directory are in the order of their places in it, no two in one place. Each
describes a file that is named as an icon is, and just those that are reached are described: none
where `.` leads the spelling, and elsewhere at least what can be opened behind it. -/
theorem scan_exact {root : Path} {l : Location} (ht : t.Proper) (hlinks : t.Unlinked)
    (hroot : t.find root = .ok (l, .directory)) :
    ((scan t root).Pairwise fun a b => a.relative.before b.relative = true) ∧
      (∀ icon ∈ scan t root, ∃ names, Describes t l names icon) ∧
      (∀ names id, IconAt t l names id →
        ((∃ icon ∈ scan t root, icon.id = id ∧ Describes t l names icon) ↔
          Reached t root names)) ∧
      ∀ names id n, IconAt t l names id → root.lead ≠ [.current] →
        t.find (root.join ⟨Path.joinSlash names⟩) = .ok (l ++ names, n) → Reached t root names := by
  refine ⟨pairwise_scan ht root, fun icon => exists_describes ht hlinks hroot, ?_, ?_⟩
  · intro names id h
    exact exists_mem_scan_iff ht hlinks hroot h
  · intro names id n h hlead hfind
    exact reached_of_find_join ht hlinks hroot h hlead hfind

section dotted

open Compiler

def nestedTree : FileTree :=
  ⟨[(["i".toList], .directory), (["i".toList, "x".toList], .directory),
    (["i".toList, "x".toList, "b.SVG".toList], .file (.text dotSource)),
    (["i".toList, "a.svg".toList], .file (.text dotSource)),
    (["i".toList, "a.txt".toList], .file (.text []))], []⟩

theorem proper_nestedTree : nestedTree.Proper := by
  constructor
  · decide
  · decide
  · decide
  · decide

theorem unlinked_nestedTree : nestedTree.Unlinked := by
  apply unlinked_of_nodes
  simp [nestedTree]

theorem scan_exact_nested : nestedTree.Proper ∧ nestedTree.Unlinked ∧
    nestedTree.find (.ofString "/i//.") = .ok (["i".toList], .directory) ∧
      (∃ icon ∈ scan nestedTree (.ofString "/i//."), icon.id = "a".toList ∧
        Describes nestedTree ["i".toList] ["a.svg".toList] icon) ∧
      ∃ icon ∈ scan nestedTree (.ofString "/i//."), icon.id = "b".toList ∧
        Describes nestedTree ["i".toList] ["x".toList, "b.SVG".toList] icon := by
  have hroot : nestedTree.find (.ofString "/i//.") = .ok (["i".toList], .directory) := by
    cbv
  have ha : IconAt nestedTree ["i".toList] ["a.svg".toList] "a".toList :=
    ⟨⟨_, rfl, by decide, "svg".toList, rfl, by decide⟩, .text dotSource, rfl⟩
  have hb : IconAt nestedTree ["i".toList] ["x".toList, "b.SVG".toList] "b".toList :=
    ⟨⟨_, rfl, by decide, "SVG".toList, rfl, by decide⟩, .text dotSource, rfl⟩
  have hfind : nestedTree.find ((Path.ofString "/i//.").join ⟨Path.joinSlash ["a.svg".toList]⟩) =
      .ok (["i".toList] ++ ["a.svg".toList], .file (.text dotSource)) := by
    cbv
  have hfind' : nestedTree.find
      ((Path.ofString "/i//.").join ⟨Path.joinSlash ["x".toList, "b.SVG".toList]⟩) =
        .ok (["i".toList] ++ ["x".toList, "b.SVG".toList], .file (.text dotSource)) := by
    cbv
  obtain ⟨-, -, hexact, hopen⟩ := scan_exact proper_nestedTree unlinked_nestedTree hroot
  exact ⟨proper_nestedTree, unlinked_nestedTree, hroot,
    (hexact _ _ ha).mpr (hopen _ _ _ ha (by decide) hfind),
    (hexact _ _ hb).mpr (hopen _ _ _ hb (by decide) hfind')⟩

theorem iconAt_dotTree : IconAt dotTree ["i".toList] ["a.svg".toList] "a".toList :=
  ⟨⟨_, rfl, by decide, "svg".toList, rfl, by decide⟩, .text dotSource, rfl⟩

theorem scan_dotted : dotTree.Proper ∧ dotTree.Unlinked ∧
    dotTree.find (.ofString "./i") = .ok (["i".toList], .directory) ∧
      IconAt dotTree ["i".toList] ["a.svg".toList] "a".toList ∧
        scan dotTree (.ofString "./i") = [] := by
  refine ⟨proper_dotTree, unlinked_dotTree, ?_, iconAt_dotTree, ?_⟩
  · cbv
  · cbv

end dotted

end Icon

end StaticSite.Sprite
