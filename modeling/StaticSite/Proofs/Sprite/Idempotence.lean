import Mathlib.Data.List.Perm.Subperm
import StaticSite.Proofs.FileTree.Unlinked
import StaticSite.Proofs.Sprite.Accounting
import StaticSite.Proofs.Sprite.Scan

/-!
Compiling twice. The second compile reads what the first one wrote, where an icon leads to the
sprite, and whatever has become an icon only through the first one.
-/

namespace StaticSite.Sprite
open StaticSite.FileTree StaticSite.Svg StaticSite.Xml

theorem length_flatMap_le {α β : Type} {R : α → α → Prop} {f : α → List β} {as bs : List α}
    (h : List.Forall₂ (fun a b => R a b ∧ (f a).length ≤ (f b).length) as bs) :
    (as.flatMap f).length ≤ (bs.flatMap f).length := by
  induction h with
  | nil => exact Nat.le_refl _
  | cons hab _ ih =>
    rw [List.flatMap_cons, List.flatMap_cons, List.length_append, List.length_append]
    exact Nat.add_le_add hab.2 ih

theorem forall₂_eq_of_flatMap_eq {α β : Type} {R : α → α → Prop} {f : α → List β} {as bs : List α}
    (h : List.Forall₂ (fun a b => R a b ∧ (f a).length ≤ (f b).length) as bs)
    (heq : as.flatMap f = bs.flatMap f) : List.Forall₂ (fun a b => R a b ∧ f a = f b) as bs := by
  induction h with
  | nil => exact .nil
  | @cons a b as bs hab hrest ih =>
    rw [List.flatMap_cons, List.flatMap_cons] at heq
    have htotal := congrArg List.length heq
    have hothers := length_flatMap_le hrest
    rw [List.length_append, List.length_append] at htotal
    have hlength : (f a).length = (f b).length := by
      have := hab.2
      omega
    obtain ⟨hfirst, hrests⟩ := List.append_inj heq hlength
    exact .cons ⟨hab.1, hfirst⟩ (ih hrests)

theorem forall₂_eq_of_flatMap_ge {α β : Type} {R : α → α → Prop} {f : α → List β} {as bs : List α}
    (h : List.Forall₂ (fun a b => R a b ∧ (f b).length ≤ (f a).length) as bs)
    (heq : as.flatMap f = bs.flatMap f) : List.Forall₂ (fun a b => R a b ∧ f a = f b) as bs := by
  have hback := forall₂_eq_of_flatMap_eq (R := fun b a => R a b) h.flip heq.symm
  exact hback.flip.imp fun a b hab => ⟨hab.1, hab.2.symm⟩

theorem length_markup (s : Symbol) (id : List Char) :
    ({ s with id := id } : Symbol).markup.length =
      ({ s with id := [] } : Symbol).markup.length + (escape id).length := by
  unfold Symbol.markup escapedAttribute Attribute.render
  simp only [List.length_append, List.length_cons]
  have hempty : (escape []).length = 0 := rfl
  omega

theorem exists_of_mem_left {α β : Type} {R : α → β → Prop} {as : List α} {bs : List β}
    (h : List.Forall₂ R as bs) {a : α} (ha : a ∈ as) : ∃ b ∈ bs, R a b := by
  induction h with
  | nil => cases ha
  | cons hab _ ih =>
    cases ha with
    | head => exact ⟨_, List.mem_cons_self .., hab⟩
    | tail _ ha =>
      obtain ⟨b, hb, hr⟩ := ih ha
      exact ⟨b, List.mem_cons_of_mem _ hb, hr⟩

theorem map_eq_of_forall₂ {α β γ : Type} {R : α → β → Prop} {f : α → γ} {g : β → γ} {as : List α}
    {bs : List β} (h : List.Forall₂ R as bs) (heq : ∀ a ∈ as, ∀ b, R a b → f a = g b) :
    as.map f = bs.map g := by
  induction h with
  | nil => rfl
  | cons hab _ ih =>
    rw [List.map_cons, List.map_cons, heq _ (List.mem_cons_self ..) _ hab]
    exact congrArg _ (ih fun a ha => heq a (List.mem_cons_of_mem _ ha))

namespace Compiler

variable {o : Optimizer} {c : Compiler} {t u v : FileTree} {icons : List Icon}

theorem exists_symbol_eq (o : Optimizer) (source : List Char) :
    ∃ shown : Symbol, ∀ id s, symbolOf o id source = .ok s → s = { shown with id := id } := by
  by_cases hsome : ∃ id s, symbolOf o id source = .ok s
  · obtain ⟨first, shown, hshown⟩ := hsome
    obtain ⟨reduced, root, hreduced, hroot, rfl, -⟩ := symbolOf_eq_ok hshown
    refine ⟨⟨first, root.viewBox, root.inner, root.namespaces⟩, fun id s hs => ?_⟩
    obtain ⟨other, same, hother, hsame, rfl, -⟩ := symbolOf_eq_ok hs
    obtain rfl := Except.ok.inj (hreduced.symm.trans hother)
    obtain rfl := Option.some.inj (Except.ok.inj (hroot.symm.trans hsame))
    rfl
  · exact ⟨⟨[], none, [], []⟩, fun id s hs => absurd ⟨id, s, hs⟩ hsome⟩

def Paired (o : Optimizer) (t u : FileTree) (icons : List Icon) (x y : Symbol × Path) : Prop :=
  ∃ icon ∈ icons, x.2 = icon.path ∧ y.2 = icon.path ∧
    build o t icon = .ok x.1 ∧ build o u icon = .ok y.1

theorem Paired.id_eq {x y : Symbol × Path} (h : Paired o t u icons x y) : x.1.id = y.1.id := by
  obtain ⟨icon, -, -, -, ht, hu⟩ := h
  rw [id_of_build ht, id_of_build hu]

structure Alike (o : Optimizer) (t u : FileTree) (icons : List Icon) (a b : Collection) :
    Prop where
  skipped : a.skipped = b.skipped
  collisions : a.collisions = b.collisions
  symbols : List.Forall₂ (Paired o t u icons) a.symbols b.symbols

theorem forall₂_put {xs ys : List (Symbol × Path)} (h : List.Forall₂ (Paired o t u icons) xs ys)
    {s s' : Symbol} {path : Path} (hs : Paired o t u icons (s, path) (s', path)) :
    List.Forall₂ (Paired o t u icons) (Collection.put s path xs) (Collection.put s' path ys) := by
  induction h with
  | nil => exact .cons hs .nil
  | @cons x y xs ys hxy hrest ih =>
    obtain ⟨old, source⟩ := x
    obtain ⟨old', source'⟩ := y
    have hid : old.id = old'.id := hxy.id_eq
    have hnew : s.id = s'.id := hs.id_eq
    simp only [Collection.put, ← hid, ← hnew]
    split
    · exact .cons hs hrest
    · exact .cons hxy ih

theorem find?_paired {xs ys : List (Symbol × Path)} (h : List.Forall₂ (Paired o t u icons) xs ys)
    (id : List Char) :
    (xs.find? (·.1.id = id)).map (·.2) = (ys.find? (·.1.id = id)).map (·.2) := by
  induction h with
  | nil => rfl
  | @cons x y xs ys hxy _ ih =>
    have hid := hxy.id_eq
    obtain ⟨icon, -, hx, hy, -, -⟩ := hxy
    rw [List.find?_cons, List.find?_cons, ← hid]
    split
    · rw [Option.map_some, Option.map_some, hx, hy]
    · exact ih

theorem Alike.add {a b : Collection} (h : Alike o t u icons a b) {s s' : Symbol} {path : Path}
    (hs : Paired o t u icons (s, path) (s', path)) :
    Alike o t u icons (a.add s path) (b.add s' path) where
  skipped := h.skipped
  collisions := by
    have hid : s.id = s'.id := hs.id_eq
    have hfind := congrArg (Option.map fun old => Collision.mk s.id old path)
      (find?_paired h.symbols s.id)
    rw [Option.map_map, Option.map_map] at hfind
    rw [Collection.add, Collection.add, h.collisions, ← hid]
    exact congrArg (fun found => b.collisions ++ Option.toList found) hfind
  symbols := forall₂_put h.symbols hs

theorem Alike.skip {a b : Collection} (h : Alike o t u icons a b) (path : Path)
    (reason : SkipReason) : Alike o t u icons (a.skip path reason) (b.skip path reason) :=
  ⟨congrArg (fun skipped => skipped ++ [Skipped.mk path reason]) h.skipped, h.collisions, h.symbols⟩

def SameFailures (o : Optimizer) (t u : FileTree) (icons : List Icon) : Prop :=
  ∀ icon ∈ icons, ∀ reason, build o u icon = .error reason ↔ build o t icon = .error reason

theorem Alike.collect {rest : List Icon} {a b : Collection} (h : Alike o t u icons a b)
    (hrest : rest ⊆ icons) (hsame : SameFailures o t u icons) :
    Alike o t u icons (collect o t a rest) (collect o u b rest) := by
  induction rest generalizing a b with
  | nil => exact h
  | cons icon rest ih =>
    have hicon : icon ∈ icons := hrest (List.mem_cons_self ..)
    have hmore : rest ⊆ icons := fun other hother => hrest (List.mem_cons_of_mem _ hother)
    rw [Compiler.collect, Compiler.collect]
    cases ht : build o t icon with
    | error reason =>
      rw [(hsame icon hicon reason).mpr ht]
      exact ih (h.skip icon.path reason) hmore
    | ok s =>
      cases hu : build o u icon with
      | error reason =>
        rw [(hsame icon hicon reason).mp hu] at ht
        cases ht
      | ok s' => exact ih (h.add ⟨icon, hicon, rfl, rfl, ht, hu⟩) hmore

theorem mem_skipped_collect_iff {found : Collection} {e : Skipped} :
    e ∈ (collect o t found icons).skipped ↔ e ∈ found.skipped ∨
      ∃ icon ∈ icons, icon.path = e.path ∧ build o t icon = .error e.reason := by
  induction icons generalizing found with
  | nil => simp [Compiler.collect]
  | cons icon icons ih =>
    rw [Compiler.collect]
    cases hbuild : build o t icon with
    | ok s =>
      rw [ih]
      simp [Collection.add, hbuild]
    | error reason =>
      obtain ⟨path, other⟩ := e
      rw [ih]
      simp only [Collection.skip, List.mem_append, List.mem_singleton, Skipped.mk.injEq,
        List.exists_mem_cons_iff, hbuild, Except.error.injEq, or_assoc]
      rw [eq_comm (a := path), eq_comm (a := other)]

theorem size_collection (c : Compiler) (t : FileTree) :
    Collection.size (c.collection t) = (Icon.scan t c.iconsDir).length := by
  have hempty : Collection.size .empty = 0 := rfl
  rw [collection, size_collect, hempty, Nat.zero_add]

theorem size_report {report : Report} (h : c.compile t = (u, .ok report)) :
    report.symbols.length + report.skipped.length + report.collisions.length =
      (Icon.scan t c.iconsDir).length := by
  obtain ⟨hsymbols, hskipped, hcollisions⟩ := report_of_compile h
  rw [hsymbols, hskipped, hcollisions, List.length_map]
  exact size_collection c t

/-- An icon that leads to the sprite, and is not changed by that: it fails as it did, and if its
symbol is the one that is shown, the new symbol looks the same. -/
structure Stable (c : Compiler) (t u : FileTree) (icon : Icon) : Prop where
  failure : ∀ reason,
    build c.optimizer u icon = .error reason ↔ build c.optimizer t icon = .error reason
  shown : ∀ s, (s, icon.path) ∈ (c.collection t).symbols →
    ∃ s', build c.optimizer u icon = .ok s' ∧ s'.markup = s.markup

def LeadsToSprite (c : Compiler) (u : FileTree) (icon : Icon) : Prop :=
  u.canonical? icon.path = u.canonical? c.output

theorem canonical?_of_find {p : Path} {l : Location} {n : Node} (h : t.find p = .ok (l, n)) :
    t.canonical? p = some (.ofLocation l) := by
  rw [canonical?, h]
  rfl

theorem LeadsToSprite.find {icon : Icon} (h : c.LeadsToSprite u icon) (hu : u.Proper)
    {l : Location} {n : Node} (hl : u.find icon.path = .ok (l, n)) :
    ∃ m, u.find c.output = .ok (l, m) := by
  rw [LeadsToSprite, canonical?_of_find hl] at h
  cases hsprite : u.find c.output with
  | error e =>
    rw [canonical?, hsprite] at h
    cases h
  | ok found =>
    obtain ⟨k, m⟩ := found
    rw [canonical?_of_find hsprite] at h
    have hsame : (Path.ofLocation l).same (.ofLocation k) = true := by
      rw [Option.some.inj h]
      exact decide_eq_true rfl
    have hname := hu.isName_of_get? (find_eq_ok_iff.mp hl).2
    have hother := hu.isName_of_get? (find_eq_ok_iff.mp hsprite).2
    obtain rfl := (Path.same_ofLocation_iff hname hother).mp hsame
    exact ⟨m, rfl⟩

def textAt (t : FileTree) (l : Location) : List Char :=
  match t.get? l with
  | some (.file (.text text)) => text
  | _ => []

theorem textAt_of_readText {p : Path} {l : Location} {n : Node} {text : List Char}
    (hfind : t.find p = .ok (l, n)) (hread : t.readText p = .ok text) : textAt t l = text := by
  obtain ⟨k, hk⟩ := readText_eq_ok_iff.mp hread
  obtain ⟨rfl, rfl⟩ := Prod.mk.inj (Except.ok.inj (hfind.symm.trans hk))
  rw [textAt, (find_eq_ok_iff.mp hfind).2]

section Again

variable {sprite : Location} {n : Node} (hwrites : Writes [c.output] t u)
  (hsprite : u.find c.output = .ok (sprite, n))

include hwrites

theorem readText_eq_of_not_leads {icon : Icon} (hicon : icon ∈ Icon.scan t c.iconsDir)
    (hnot : ¬ c.LeadsToSprite u icon) : u.readText icon.path = t.readText icon.path := by
  obtain ⟨l, old, hold⟩ := Icon.find_of_mem_scan hicon
  obtain ⟨new, hnew⟩ := hwrites.find_file hold
  rcases hwrites.only _ _ (find_eq_ok_iff.mp hnew).2 with hsame | hdir | ⟨path, hpath, hfind⟩
  · rw [(find_eq_ok_iff.mp hold).2] at hsame
    exact readText_eq_of_find hold (Option.some.inj hsame ▸ hnew)
  · cases hdir
  · rw [List.mem_singleton.mp hpath] at hfind
    apply absurd _ hnot
    rw [LeadsToSprite, canonical?_of_find hnew, canonical?_of_find hfind]

include hsprite

theorem find_of_leadsToSprite {icon : Icon} (hicon : icon ∈ Icon.scan t c.iconsDir)
    (hleads : c.LeadsToSprite u icon) :
    (∃ m, t.find icon.path = .ok (sprite, m)) ∧ ∃ m, u.find icon.path = .ok (sprite, m) := by
  obtain ⟨l, old, hold⟩ := Icon.find_of_mem_scan hicon
  obtain ⟨new, hnew⟩ := hwrites.find_file hold
  obtain ⟨m, hfound⟩ := hleads.find hwrites.proper hnew
  obtain ⟨rfl, -⟩ := Prod.mk.inj (Except.ok.inj (hfound.symm.trans hsprite))
  exact ⟨⟨_, hold⟩, _, hnew⟩

theorem exists_paired_eq : ∃ before after : Symbol, ∀ x y,
    Paired c.optimizer t u (Icon.scan t c.iconsDir) x y →
      x.1 = y.1 ∨ ∃ id, x.1 = { before with id := id } ∧ y.1 = { after with id := id } := by
  obtain ⟨before, hbefore⟩ := exists_symbol_eq c.optimizer (textAt t sprite)
  obtain ⟨after, hafter⟩ := exists_symbol_eq c.optimizer (textAt u sprite)
  refine ⟨before, after, ?_⟩
  rintro x y ⟨icon, hicon, -, -, hx, hy⟩
  by_cases hleads : c.LeadsToSprite u icon
  · obtain ⟨⟨m, hold⟩, m', hnew⟩ := find_of_leadsToSprite hwrites hsprite hicon hleads
    obtain ⟨source, hsource, hsymbol⟩ := build_eq_ok hx
    obtain ⟨source', hsource', hsymbol'⟩ := build_eq_ok hy
    rw [← textAt_of_readText hold hsource] at hsymbol
    rw [← textAt_of_readText hnew hsource'] at hsymbol'
    exact .inr ⟨icon.id, hbefore _ _ hsymbol, hafter _ _ hsymbol'⟩
  · rw [build_eq (readText_eq_of_not_leads hwrites hicon hleads), hx] at hy
    exact .inl (Except.ok.inj hy)

theorem forall₂_markup_eq {xs ys : List (Symbol × Path)}
    (h : List.Forall₂ (Paired c.optimizer t u (Icon.scan t c.iconsDir)) xs ys)
    (heq : xs.flatMap (·.1.markup) = ys.flatMap (·.1.markup)) :
    List.Forall₂ (fun x y => Paired c.optimizer t u (Icon.scan t c.iconsDir) x y ∧
      x.1.markup = y.1.markup) xs ys := by
  obtain ⟨before, after, hpaired⟩ := exists_paired_eq hwrites hsprite
  rcases Nat.le_total ({ before with id := [] } : Symbol).markup.length
    ({ after with id := [] } : Symbol).markup.length with hle | hle
  · refine forall₂_eq_of_flatMap_eq (f := fun x : Symbol × Path => x.1.markup) (h.imp ?_) heq
    intro x y hxy
    refine ⟨hxy, ?_⟩
    rcases hpaired x y hxy with hsame | ⟨id, hx, hy⟩
    · rw [hsame]
    · rw [hx, hy, length_markup, length_markup after]
      exact Nat.add_le_add_right hle _
  · refine forall₂_eq_of_flatMap_ge (f := fun x : Symbol × Path => x.1.markup) (h.imp ?_) heq
    intro x y hxy
    refine ⟨hxy, ?_⟩
    rcases hpaired x y hxy with hsame | ⟨id, hx, hy⟩
    · rw [hsame]
    · rw [hx, hy, length_markup, length_markup before]
      exact Nat.add_le_add_right hle _

structure ShowsSame (c : Compiler) (t u : FileTree) : Prop where
  sheet : c.sheetOf u = c.sheetOf t
  ids : (c.collection u).symbols.map (·.1.id) = (c.collection t).symbols.map (·.1.id)
  skipped : (c.collection u).skipped = (c.collection t).skipped
  collisions : (c.collection u).collisions = (c.collection t).collisions

omit hwrites hsprite

theorem alike_of_scan_eq (hscan : Icon.scan u c.iconsDir = Icon.scan t c.iconsDir)
    (hsame : SameFailures c.optimizer t u (Icon.scan t c.iconsDir)) :
    Alike c.optimizer t u (Icon.scan t c.iconsDir) (c.collection t) (c.collection u) := by
  rw [collection, collection, hscan]
  exact Alike.collect ⟨rfl, rfl, .nil⟩ (List.Subset.refl _) hsame

theorem sameFailures_of_skipped (hscan : Icon.scan u c.iconsDir = Icon.scan t c.iconsDir)
    (hskipped : (c.collection u).skipped = (c.collection t).skipped) :
    SameFailures c.optimizer t u (Icon.scan t c.iconsDir) := by
  intro icon hicon reason
  have hfails {w : FileTree} (hw : Icon.scan w c.iconsDir = Icon.scan t c.iconsDir) :
      build c.optimizer w icon = .error reason ↔
        Skipped.mk icon.path reason ∈ (c.collection w).skipped := by
    rw [collection, hw, mem_skipped_collect_iff]
    constructor
    · intro hbuild
      exact .inr ⟨icon, hicon, rfl, hbuild⟩
    · rintro (hnone | ⟨other, hother, hpath, hbuild⟩)
      · cases hnone
      · rw [Icon.eq_of_mem_scan hicon hother hpath.symm]
        exact hbuild
  rw [hfails hscan, hfails rfl, hskipped]

theorem ShowsSame.length_scan (h : c.ShowsSame t u) :
    (Icon.scan u c.iconsDir).length = (Icon.scan t c.iconsDir).length := by
  have hsymbols := congrArg List.length h.ids
  rw [List.length_map, List.length_map] at hsymbols
  rw [← size_collection, ← size_collection, Collection.size, Collection.size, hsymbols, h.skipped,
    h.collisions]

include hwrites

theorem scan_eq_of_subset (ht : t.Proper)
    (hsubset : Icon.scan u c.iconsDir ⊆ Icon.scan t c.iconsDir) :
    Icon.scan u c.iconsDir = Icon.scan t c.iconsDir :=
  Icon.scan_eq_of_subset hwrites.proper ht hsubset (Icon.scan_subset_of_keeps hwrites.toKeeps _)

theorem ShowsSame.scan_eq (h : c.ShowsSame t u) (ht : t.Proper) :
    Icon.scan u c.iconsDir = Icon.scan t c.iconsDir := by
  have hkept := Icon.scan_subset_of_keeps hwrites.toKeeps c.iconsDir
  have hsubperm := (Icon.nodup_scan ht c.iconsDir).subperm hkept
  exact scan_eq_of_subset hwrites ht (hsubperm.perm_of_length_le h.length_scan.le).symm.subset

include hsprite

theorem ShowsSame.stable (h : c.ShowsSame t u) (ht : t.Proper) {icon : Icon}
    (hicon : icon ∈ Icon.scan t c.iconsDir) : c.Stable t u icon := by
  have hscan := h.scan_eq hwrites ht
  have hsame := sameFailures_of_skipped hscan h.skipped
  refine ⟨hsame icon hicon, fun s hs => ?_⟩
  have hmarkups : (c.collection t).symbols.flatMap (·.1.markup) =
      (c.collection u).symbols.flatMap (·.1.markup) := by
    have hinside := List.append_cancel_left (List.append_cancel_right h.sheet)
    rw [List.flatMap_map, List.flatMap_map] at hinside
    exact hinside.symm
  have hpairs := forall₂_markup_eq hwrites hsprite (alike_of_scan_eq hscan hsame).symbols hmarkups
  obtain ⟨y, -, ⟨other, hother, hpath, -, -, hy⟩, hmarkup⟩ := exists_of_mem_left hpairs hs
  rw [← Icon.eq_of_mem_scan hicon hother hpath] at hy
  exact ⟨y.1, hy, hmarkup.symm⟩

omit hsprite

theorem showsSame_of_stable (ht : t.Proper)
    (hsubset : Icon.scan u c.iconsDir ⊆ Icon.scan t c.iconsDir)
    (hstable : ∀ icon ∈ Icon.scan t c.iconsDir, c.LeadsToSprite u icon → c.Stable t u icon) :
    c.ShowsSame t u := by
  have hsame : SameFailures c.optimizer t u (Icon.scan t c.iconsDir) := by
    intro icon hicon reason
    by_cases hleads : c.LeadsToSprite u icon
    · exact (hstable icon hicon hleads).failure reason
    · rw [build_eq (readText_eq_of_not_leads hwrites hicon hleads)]
  have hagain := alike_of_scan_eq (scan_eq_of_subset hwrites ht hsubset) hsame
  have hmarkup : ∀ x ∈ (c.collection t).symbols, ∀ y,
      Paired c.optimizer t u (Icon.scan t c.iconsDir) x y → x.1.markup = y.1.markup := by
    rintro ⟨s, path⟩ hx ⟨s', path'⟩ ⟨icon, hicon, rfl, rfl, hs, hs'⟩
    by_cases hleads : c.LeadsToSprite u icon
    · obtain ⟨again, hbuild, hsame⟩ := (hstable icon hicon hleads).shown s hx
      obtain rfl := Except.ok.inj (hbuild.symm.trans hs')
      exact hsame.symm
    · rw [build_eq (readText_eq_of_not_leads hwrites hicon hleads), hs] at hs'
      rw [Except.ok.inj hs']
  refine ⟨?_, ?_, hagain.skipped.symm, hagain.collisions.symm⟩
  · rw [sheetOf, sheetOf, sheet, sheet, List.flatMap_map, List.flatMap_map, List.flatMap_def,
      List.flatMap_def, map_eq_of_forall₂ hagain.symbols hmarkup]
  · exact (map_eq_of_forall₂ hagain.symbols fun x _ y hxy => hxy.id_eq).symm

include hsprite

theorem showsSame_iff (ht : t.Proper) : c.ShowsSame t u ↔
    ∀ icon ∈ Icon.scan u c.iconsDir, icon ∈ Icon.scan t c.iconsDir ∧
      (c.LeadsToSprite u icon → c.Stable t u icon) := by
  constructor
  · intro h icon hicon
    rw [h.scan_eq hwrites ht] at hicon
    exact ⟨hicon, fun _ => h.stable hwrites hsprite ht hicon⟩
  · intro hall
    apply showsSame_of_stable hwrites ht
    · intro icon hicon
      exact (hall icon hicon).1
    · intro icon hicon
      exact (hall icon (Icon.scan_subset_of_keeps hwrites.toKeeps _ hicon)).2

end Again

/-- Compiling again changes neither the sprite nor the report exactly if the first compile has made
nothing an icon, and those that lead to the sprite are as they were. -/
theorem idempotent_iff {first second : Report} (ht : t.Proper)
    (h : c.compile t = (u, .ok first)) (h' : c.compile u = (v, .ok second)) :
    (v.read c.output = u.read c.output ∧ second = first) ↔
      ∀ icon ∈ Icon.scan u c.iconsDir, icon ∈ Icon.scan t c.iconsDir ∧
        (c.LeadsToSprite u icon → c.Stable t u icon) := by
  have hwrites := writes_compile ht h
  rcases compile_eq_ok_iff.mp h with ⟨hnone, rfl, rfl⟩ | ⟨hsome, hputs, rfl⟩
  · rcases compile_eq_ok_iff.mp h' with ⟨-, rfl, rfl⟩ | ⟨hsome, -, -⟩
    · simp [hnone]
    · exact absurd hnone hsome
  · rcases compile_eq_ok_iff.mp h' with ⟨hnone, -, -⟩ | ⟨-, hagain, rfl⟩
    · apply absurd _ hsome
      apply List.eq_nil_of_subset_nil
      rw [← hnone]
      exact Icon.scan_subset_of_keeps hwrites.toKeeps c.iconsDir
    · obtain ⟨sprite, hsprite⟩ := hputs.find
      obtain ⟨place, hplace⟩ := hagain.find
      rw [← showsSame_iff hwrites hsprite ht, FileTree.read, FileTree.read, hsprite, hplace]
      constructor
      · rintro ⟨hread, hreport⟩
        have hsheet := Content.text.inj (Except.ok.inj hread)
        obtain ⟨hids, -, hskipped, hcollisions⟩ := Report.mk.inj hreport
        exact ⟨hsheet, hids, hskipped, hcollisions⟩
      · rintro ⟨hsheet, hids, hskipped, hcollisions⟩
        rw [hsheet, hids, hskipped, hcollisions]
        exact ⟨rfl, rfl⟩

theorem scan_of_outside (ht : t.Proper) (hlinks : t.Unlinked) (hwrites : Writes [c.output] t u)
    (hscan : Icon.scan t c.iconsDir ≠ [])
    (houtput : ¬ c.iconsDir.location t.here <+: c.output.location t.here) :
    ∀ icon ∈ Icon.scan u c.iconsDir,
      icon ∈ Icon.scan t c.iconsDir ∧ ¬ c.LeadsToSprite u icon := by
  intro icon hicon
  have hu := hwrites.unlinked hlinks
  obtain ⟨path, hpath, hofPath⟩ := Icon.mem_scan_iff.mp hicon
  obtain ⟨hbelow, hextension, hfile⟩ := Icon.mem_files_iff.mp hpath
  obtain ⟨rfl, hrelative⟩ := Icon.path_of_ofPath? hofPath
  obtain ⟨l, content, hfind⟩ := isFile_iff.mp hfile
  obtain ⟨-, names, -, -, -, hcomponents⟩ := hwrites.proper.names_of_mem_below hbelow hrelative
  have hplace := hu.location_of_find hfind
  rw [Path.location_of_components u.here hcomponents, hwrites.here] at hplace
  have hother {n : Node} : u.find c.output ≠ .ok (l, n) := by
    intro hsprite
    apply houtput
    rw [← hwrites.here, ← hu.location_of_find hsprite, hplace, hwrites.here]
    exact List.prefix_append _ _
  have hsame : t.get? l = some (.file content) := by
    rcases hwrites.only l _ (find_eq_ok_iff.mp hfind).2 with hsame | hdir | ⟨p, hp, hsprite⟩
    · exact hsame
    · cases hdir
    · rw [List.mem_singleton.mp hp] at hsprite
      exact absurd hsprite hother
  constructor
  · obtain ⟨first, hfirst⟩ := List.exists_mem_of_ne_nil _ hscan
    obtain ⟨q, hq, -⟩ := Icon.mem_scan_iff.mp hfirst
    obtain ⟨p, hp, hdir⟩ := exists_spell?_of_mem_below (Icon.mem_files_iff.mp hq).1
    obtain ⟨hlisted, hfound⟩ :=
      hu.mem_below ht hlinks hwrites.toGrows hp hdir hbelow hrelative hfind hsame
    exact Icon.mem_scan_iff.mpr
      ⟨_, Icon.mem_files_iff.mpr ⟨hlisted, hextension, isFile_iff.mpr ⟨l, _, hfound⟩⟩, hofPath⟩
  · intro hleads
    obtain ⟨n, hsprite⟩ := hleads.find hwrites.proper hfind
    exact hother hsprite

def withSprite (place : Location) (sprite : List Char) : FileTree :=
  dotTree.set place (.file (.text sprite))

def dotCompilerTo (output : Path) : Compiler :=
  { dotCompiler with output := output }

theorem exists_compile_twice {place : Location} {output : Path}
    (hparent : dotTree.createParent output = (dotTree, .ok ()))
    (hlocate : dotTree.locate .created output = .ok place) (hfree : dotTree.get? place = none)
    (hagain : ∀ sprite, (withSprite place sprite).locate .created output = .ok place) :
    ∃ sprite v first second,
      (dotCompilerTo output).compile dotTree = (withSprite place sprite, .ok first) ∧
      (dotCompilerTo output).compile (withSprite place sprite) = (v, .ok second) := by
  let c := dotCompilerTo output
  have hscan : Icon.scan dotTree c.iconsDir ≠ [] :=
    scan_dotTree.trans_ne (List.cons_ne_nil _ _)
  have hputs : dotTree.Puts c.output (.text (c.sheetOf dotTree))
      (withSprite place (c.sheetOf dotTree)) :=
    ⟨dotTree, hparent, write_eq_ok_iff.mpr ⟨place, hlocate, by simp [hfree], rfl⟩⟩
  have hfirst := compile_eq_ok_iff.mpr (.inr ⟨hscan, hputs, rfl⟩)
  obtain ⟨l, hfind⟩ := hputs.find
  have hroot : place ≠ [] := by
    rintro rfl
    cases hfree
  have hplace : (withSprite place (c.sheetOf dotTree)).get? place =
      some (.file (.text (c.sheetOf dotTree))) := by
    rw [withSprite, get?_set hroot, if_pos rfl]
  have hicons : Icon.scan (withSprite place (c.sheetOf dotTree)) c.iconsDir ≠ [] := by
    intro hnone
    apply hscan
    apply List.eq_nil_of_subset_nil
    rw [← hnone]
    exact Icon.scan_subset_of_keeps (hputs.writes proper_dotTree).toKeeps c.iconsDir
  obtain ⟨second, hsecond⟩ := exists_compile_eq hfind hicons
    (write_eq_ok_iff.mpr ⟨place, hagain _, by simp [hplace], rfl⟩)
  exact ⟨_, _, _, second, hfirst, hsecond⟩

theorem idempotent_dot : dotTree.Proper ∧ ∃ u v first second,
    dotCompiler.compile dotTree = (u, .ok first) ∧ dotCompiler.compile u = (v, .ok second) ∧
      v.read dotCompiler.output = u.read dotCompiler.output ∧ second = first := by
  obtain ⟨sprite, v, first, second, hfirst, hsecond⟩ :=
    @exists_compile_twice ["o.svg".toList] dotCompiler.output (by cbv) (by cbv) (by decide)
      (by intro sprite; cbv)
  have hscan : Icon.scan dotTree dotCompiler.iconsDir ≠ [] :=
    scan_dotTree.trans_ne (List.cons_ne_nil _ _)
  have hkept := scan_of_outside proper_dotTree unlinked_dotTree
    (writes_compile proper_dotTree hfirst) hscan (by decide)
  refine ⟨proper_dotTree, _, v, first, second, hfirst, hsecond,
    (idempotent_iff proper_dotTree hfirst hsecond).mpr fun icon hicon => ?_⟩
  obtain ⟨hold, hnot⟩ := hkept icon hicon
  exact ⟨hold, fun hleads => absurd hleads hnot⟩

def spriteIcon : Icon := ⟨.ofString "/i/o.svg", .ofString "o.svg", "o".toList⟩

theorem not_idempotent_inside : dotTree.Proper ∧ ∃ u v first second,
    (dotCompilerTo spriteIcon.path).compile dotTree = (u, .ok first) ∧
      (dotCompilerTo spriteIcon.path).compile u = (v, .ok second) ∧ second ≠ first := by
  have hscan : ∀ sprite, Icon.scan (withSprite ["i".toList, "o.svg".toList] sprite)
      dotCompiler.iconsDir = [dotIcon, spriteIcon] := by
    intro sprite
    cbv
  obtain ⟨sprite, v, first, second, hfirst, hsecond⟩ :=
    @exists_compile_twice ["i".toList, "o.svg".toList] spriteIcon.path (by cbv) (by cbv) (by decide)
      (by intro sprite; cbv)
  refine ⟨proper_dotTree, _, v, first, second, hfirst, hsecond, ?_⟩
  rintro rfl
  have hone := size_report hfirst
  have htwo := size_report hsecond
  change _ = (Icon.scan dotTree dotCompiler.iconsDir).length at hone
  change _ = (Icon.scan _ dotCompiler.iconsDir).length at htwo
  rw [hone, scan_dotTree, hscan sprite] at htwo
  cases htwo

end Compiler

end StaticSite.Sprite
