import StaticSite.Proofs.FileTree.Spelling
import StaticSite.Proofs.FileTree.Within
import StaticSite.Proofs.Path.Order
import StaticSite.Proofs.Sprite.Compile

namespace StaticSite.Sprite
open StaticSite.FileTree StaticSite.Svg

variable {t u : FileTree}

namespace Icon

theorem ofPath?_eq_some_iff {root path : Path} {icon : Icon} : ofPath? root path = some icon ↔
    icon.path = path ∧ path.relativeTo? root = some icon.relative ∧
      path.fileStem? = some icon.id := by
  simp only [ofPath?, bind, Option.bind_eq_some_iff, Option.some.injEq]
  constructor
  · rintro ⟨relative, hrelative, id, hid, rfl⟩
    exact ⟨rfl, hrelative, hid⟩
  · rintro ⟨rfl, hrelative, hid⟩
    exact ⟨_, hrelative, _, hid, rfl⟩

theorem path_of_ofPath? {root path : Path} {icon : Icon} (h : ofPath? root path = some icon) :
    icon.path = path ∧ path.relativeTo? root = some icon.relative := by
  obtain ⟨hpath, hrelative, -⟩ := ofPath?_eq_some_iff.mp h
  exact ⟨hpath, hrelative⟩

theorem eq_of_path {root p q : Path} {a b : Icon} (ha : ofPath? root p = some a)
    (hb : ofPath? root q = some b) (h : a.path = b.path) : a = b := by
  rw [(path_of_ofPath? ha).1, (path_of_ofPath? hb).1] at h
  subst h
  exact Option.some.inj (ha.symm.trans hb)

def files (t : FileTree) (root : Path) : List Path :=
  (t.below root).filter fun p => hasExtension p && t.isFile p

theorem mem_files_iff {root p : Path} : p ∈ files t root ↔
    p ∈ t.below root ∧ hasExtension p = true ∧ t.isFile p = true := by
  rw [files, List.mem_filter, Bool.and_eq_true]

theorem mem_scan_iff {root : Path} {icon : Icon} :
    icon ∈ scan t root ↔ ∃ p ∈ files t root, ofPath? root p = some icon := by
  rw [scan, List.mem_mergeSort, List.mem_filterMap]
  rfl

theorem find_of_mem_scan {root : Path} {icon : Icon} (h : icon ∈ scan t root) :
    ∃ l content, t.find icon.path = .ok (l, .file content) := by
  obtain ⟨p, hp, hicon⟩ := mem_scan_iff.mp h
  rw [(path_of_ofPath? hicon).1]
  exact isFile_iff.mp (mem_files_iff.mp hp).2.2

theorem eq_of_mem_scan {root : Path} {a b : Icon} (ha : a ∈ scan t root) (hb : b ∈ scan u root)
    (h : a.path = b.path) : a = b := by
  obtain ⟨p, -, ha⟩ := mem_scan_iff.mp ha
  obtain ⟨q, -, hb⟩ := mem_scan_iff.mp hb
  exact eq_of_path ha hb h

theorem files_subset (h : t.Keeps u) (root : Path) : files t root ⊆ files u root := by
  intro p hp
  obtain ⟨hbelow, hextension, hfile⟩ := mem_files_iff.mp hp
  exact mem_files_iff.mpr ⟨h.below hbelow, hextension, h.isFile hfile⟩

theorem scan_subset_of_keeps (h : t.Keeps u) (root : Path) : scan t root ⊆ scan u root := by
  intro icon hicon
  obtain ⟨p, hp, hofPath⟩ := mem_scan_iff.mp hicon
  exact mem_scan_iff.mpr ⟨p, files_subset h root hp, hofPath⟩

theorem scan_subset (h : t.Within u) (root : Path) : scan t root ⊆ scan u root :=
  scan_subset_of_keeps h.keeps root

theorem eq_of_relative (ht : t.Proper) {root p q : Path} {a b : Icon} (hp : p ∈ files t root)
    (hq : q ∈ files t root) (ha : ofPath? root p = some a) (hb : ofPath? root q = some b)
    (h : a.relative.components = b.relative.components) : a = b := by
  have hbelow := (mem_files_iff.mp hp).1
  have hroot : root.chars ≠ [] := by
    intro hnil
    have hempty : root = ⟨[]⟩ := by rw [← hnil]
    rw [hempty, FileTree.below, spell?_nil] at hbelow
    cases hbelow
  have hcomponents := Path.components_ne_nil hroot
  have hpq : p = q := by
    apply ht.eq_of_components hbelow (mem_files_iff.mp hq).1
    rw [Path.components_relativeTo? hcomponents (path_of_ofPath? ha).2, h]
    exact (Path.components_relativeTo? hcomponents (path_of_ofPath? hb).2).symm
  apply eq_of_path ha hb
  rw [(path_of_ofPath? ha).1, (path_of_ofPath? hb).1, hpq]

theorem nodup_scan (ht : t.Proper) (root : Path) : (scan t root).Nodup := by
  apply (List.mergeSort_perm _ _).nodup_iff.mpr
  apply ((ht.nodup_below root).filter _).filterMap
  intro p q icon hp hq
  rw [← (path_of_ofPath? hp).1, (path_of_ofPath? hq).1]

theorem scan_eq_of_subset (ht : t.Proper) (hu : u.Proper) {root : Path}
    (htu : scan t root ⊆ scan u root) (hut : scan u root ⊆ scan t root) :
    scan t root = scan u root := by
  have hperm : (scan t root).Perm (scan u root) := by
    apply (List.perm_ext_iff_of_nodup (nodup_scan ht root) (nodup_scan hu root)).mpr
    intro icon
    exact ⟨fun hicon => htu hicon, fun hicon => hut hicon⟩
  have hfound : ((files t root).filterMap (ofPath? root)).Perm
      ((files u root).filterMap (ofPath? root)) :=
    (List.mergeSort_perm _ _).symm.trans (hperm.trans (List.mergeSort_perm _ _))
  apply Path.mergeSort_eq_of_perm hfound
  intro a ha b hb hab
  obtain ⟨p, hp, ha⟩ := List.mem_filterMap.mp ha
  obtain ⟨q, hq, hb⟩ := List.mem_filterMap.mp hb
  exact eq_of_relative ht hp hq ha hb hab

theorem scan_eq (ht : t.Proper) (hu : u.Proper) (htu : t.Within u) (hut : u.Within t)
    (root : Path) : scan t root = scan u root :=
  scan_eq_of_subset ht hu (scan_subset htu root) (scan_subset hut root)

end Icon

namespace Compiler

theorem build_eq {o : Optimizer} {icon : Icon} (h : u.readText icon.path = t.readText icon.path) :
    build o u icon = build o t icon := by
  rw [build, build, h]

theorem collect_eq {o : Optimizer} {icons : List Icon}
    (h : ∀ icon ∈ icons, u.readText icon.path = t.readText icon.path) (found : Collection) :
    collect o u found icons = collect o t found icons := by
  induction icons generalizing found with
  | nil => rfl
  | cons icon icons ih =>
    have hrest := ih fun other hother => h other (List.mem_cons_of_mem _ hother)
    rw [collect, collect, build_eq (h icon (List.mem_cons_self ..))]
    split
    · exact hrest _
    · exact hrest _

theorem readText_eq_of_find {p : Path} {l : Location} {n : Node} (ht : t.find p = .ok (l, n))
    (hu : u.find p = .ok (l, n)) : u.readText p = t.readText p := by
  rw [readText, readText, FileTree.read, FileTree.read, ht, hu]

theorem sheetOf_eq {c : Compiler} (ht : t.Proper) (hu : u.Proper) (htu : t.Within u)
    (hut : u.Within t) (h : ∀ icon ∈ Icon.scan t c.iconsDir, ∀ l n,
      t.find icon.path = .ok (l, n) → u.get? l = t.get? l) : c.sheetOf u = c.sheetOf t := by
  have hcollect : c.collection u = c.collection t := by
    rw [collection, collection, ← Icon.scan_eq ht hu htu hut]
    apply collect_eq
    intro icon hicon
    obtain ⟨l, content, hfind⟩ := Icon.find_of_mem_scan hicon
    obtain ⟨hl, hn⟩ := find_eq_ok_iff.mp hfind
    apply readText_eq_of_find hfind
    apply find_eq_ok_iff.mpr
    rw [h icon hicon l _ hfind]
    exact ⟨htu.locate hl, hn⟩
  rw [sheetOf, sheetOf, hcollect]

theorem compile_of_find {c : Compiler} {report : Report} {sprite : Location} {n : Node}
    (hfind : t.find c.output = .ok (sprite, n)) (h : c.compile t = (u, .ok report)) :
    (Icon.scan t c.iconsDir = [] ∧ u = t) ∨ (Icon.scan t c.iconsDir ≠ [] ∧
      u = t.set sprite (.file (.text (c.sheetOf t))) ∧ u.readText c.output = .ok (c.sheetOf t)) := by
  rcases compile_eq_ok_iff.mp h with ⟨hnone, rfl, -⟩ | ⟨hsome, hputs, -⟩
  · exact .inl ⟨hnone, rfl⟩
  · have hwrite := (puts_iff_of_find hfind).mp hputs
    exact .inr ⟨hsome, write_of_find hfind hwrite, readText_of_write hwrite⟩

theorem exists_compile_eq {c : Compiler} {sprite : Location} {n : Node}
    (hfind : t.find c.output = .ok (sprite, n)) (hicons : Icon.scan t c.iconsDir ≠ [])
    (hwrite : t.write c.output (.text (c.sheetOf t)) = .ok u) :
    ∃ report, c.compile t = (u, .ok report) :=
  ⟨_, compile_eq_ok_iff.mpr (.inr ⟨hicons, (puts_iff_of_find hfind).mpr hwrite, rfl⟩)⟩

end Compiler

end StaticSite.Sprite
