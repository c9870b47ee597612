import Mathlib
import StaticSite.Proofs.FileTree.Unlinked
import StaticSite.Proofs.Sprite.Compile
import StaticSite.Proofs.Sprite.Sheet
import StaticSite.Proofs.Svg.Preservation

namespace StaticSite.Sprite
open StaticSite.Text StaticSite.Xml StaticSite.Svg

theorem keys_attributes (s : Symbol) :
    s.attributes.map (·.key) = "id".toList :: ((s.viewBox.map fun _ => "viewBox".toList).toList ++
      s.namespaces.map fun p => "xmlns:".toList ++ p.1) := by
  rw [Symbol.attributes, List.map_cons, List.map_append, List.map_map]
  cases s.viewBox <;> rfl

theorem nodup_keys_attributes {s : Symbol}
    (h : (s.namespaces.map fun p => "xmlns:".toList ++ p.1).Nodup) :
    (s.attributes.map (·.key)).Nodup := by
  have hne {key name : List Char} (hkey : after? "xmlns:".toList key = none) :
      key ≠ "xmlns:".toList ++ name := by
    rintro rfl
    rw [after?_eq_some_iff.mpr rfl] at hkey
    cases hkey
  have hnotMem {key : List Char} (hkey : after? "xmlns:".toList key = none) :
      key ∉ s.namespaces.map fun p => "xmlns:".toList ++ p.1 := by
    intro hmem
    obtain ⟨p, -, hp⟩ := List.mem_map.mp hmem
    exact hne hkey hp.symm
  have hid := hnotMem (show after? "xmlns:".toList "id".toList = none by decide)
  have hviewBox := hnotMem (show after? "xmlns:".toList "viewBox".toList = none by decide)
  rw [keys_attributes]
  cases s.viewBox with
  | none => exact List.nodup_cons.mpr ⟨hid, h⟩
  | some v =>
    refine List.nodup_cons.mpr ⟨?_, List.nodup_cons.mpr ⟨hviewBox, h⟩⟩
    exact List.not_mem_cons_of_ne_of_not_mem (show "id".toList ≠ "viewBox".toList by decide) hid

theorem mem_attributes_cases {s : Symbol} {a : Attribute} (h : a ∈ s.attributes) :
    a.key = "id".toList ∨ a.key = "viewBox".toList ∨
      a.key ∈ s.namespaces.map fun p => "xmlns:".toList ++ p.1 := by
  have hkey : a.key ∈ s.attributes.map (·.key) := List.mem_map_of_mem h
  rw [keys_attributes, List.mem_cons, List.mem_append] at hkey
  rcases hkey with hid | hviewBox | hnamespace
  · exact .inl hid
  · obtain ⟨v, -, hv⟩ := Option.map_eq_some_iff.mp (Option.mem_toList.mp hviewBox)
    exact .inr (.inl hv.symm)
  · exact .inr (.inr hnamespace)

theorem Symbol.formed_of_namespaces {s : Symbol} {content : List Event}
    (hcontent : s.content = render content) (hreads : ∀ e ∈ content, e.ReadsBack)
    (hbalanced : openNames [] content = some [])
    (hkeys : ∀ key ∈ s.namespaces.map fun p => "xmlns:".toList ++ p.1,
      Xml.isKey key = true ∧ ∀ c ∈ key, Xml.isTagPlain c = true)
    (hnodup : (s.namespaces.map fun p => "xmlns:".toList ++ p.1).Nodup) : s.Formed content := by
  have hattributes : ∀ a ∈ s.attributes,
      Xml.isKey a.key = true ∧ ∀ c ∈ a.key, Xml.isTagPlain c = true := by
    intro a ha
    rcases mem_attributes_cases ha with hid | hviewBox | hnamespace
    · rw [hid]
      exact ⟨by decide, List.all_eq_true.mp (by decide)⟩
    · rw [hviewBox]
      exact ⟨by decide, List.all_eq_true.mp (by decide)⟩
    · exact hkeys a.key hnamespace
  exact ⟨hcontent, hreads, hbalanced, fun a ha => (hattributes a ha).1,
    fun a ha => (hattributes a ha).2, nodup_keys_attributes hnodup⟩

namespace Compiler

theorem symbolOf_eq_ok {o : Optimizer} {id source : List Char} {s : Symbol}
    (h : symbolOf o id source = .ok s) :
    ∃ reduced root, o.optimize source = .ok reduced ∧ Root.ofText? reduced = .ok (some root) ∧
      s = ⟨id, root.viewBox, root.inner, root.namespaces⟩ ∧
      checkStandalone (sheet [s]) = .ok () := by
  simp only [symbolOf, bind_eq_ok_iff, mapError_eq_ok_iff] at h
  obtain ⟨reduced, hreduced, found, hroot, h⟩ := h
  cases found with
  | none => cases h
  | some root =>
    obtain ⟨_, hcheck, h⟩ := bind_eq_ok_iff.mp h
    obtain rfl := Except.ok.inj h
    exact ⟨reduced, root, hreduced, hroot, rfl, mapError_eq_ok_iff.mp hcheck⟩

theorem symbolOf_of_root {o : Optimizer} {id source reduced : List Char} {root : Root}
    (hreduced : o.optimize source = .ok reduced) (hroot : Root.ofText? reduced = .ok (some root))
    (halone : checkStandalone (sheet [⟨id, root.viewBox, root.inner, root.namespaces⟩]) = .ok ()) :
    symbolOf o id source = .ok ⟨id, root.viewBox, root.inner, root.namespaces⟩ := by
  simp only [symbolOf, hreduced, hroot, bind, Except.bind, Except.mapError, halone]

theorem exists_sound {o : Optimizer} {id source : List Char} {s : Symbol}
    (h : symbolOf o id source = .ok s)
    (hkeys : ∀ reduced, o.optimize source = .ok reduced → Root.HasPlainKeys reduced) :
    ∃ content, s.Sound content := by
  obtain ⟨reduced, root, hreduced, hroot, hs, halone⟩ := symbolOf_eq_ok h
  obtain ⟨t, as, closed, es, htag, has, hcloses, hnamespaces, hinner, hreads, hbalanced⟩ :=
    Root.ofText?_eq_some hroot
  obtain ⟨hspells, hnodup⟩ := attributes_eq_iff.mp has
  have hquotes : ∀ a ∈ as, ∀ c ∈ a.key, isQuote c = false := by
    have := hkeys reduced hreduced t htag
    rwa [has] at this
  have hplain := isTagPlain_of_closes hcloses hspells hquotes
  have hsublist : (s.namespaces.map fun p => "xmlns:".toList ++ p.1).Sublist (as.map (·.key)) := by
    rw [hs, hnamespaces]
    exact Root.namespaces_sublist as
  have hdeclared : ∀ key ∈ s.namespaces.map fun p => "xmlns:".toList ++ p.1,
      isKey key = true ∧ ∀ c ∈ key, isTagPlain c = true := by
    intro key hkey
    obtain ⟨a, ha, rfl⟩ := List.mem_map.mp (hsublist.subset hkey)
    exact ⟨isKey_of_spells hspells a ha, hplain a ha⟩
  refine ⟨es, Symbol.formed_of_namespaces ?_ hreads hbalanced hdeclared
    (hnodup.sublist hsublist), halone⟩
  rw [hs]
  exact hinner

theorem mem_put {s : Symbol} {source : Path} {symbols : List (Symbol × Path)}
    {p : Symbol × Path} (h : p ∈ Collection.put s source symbols) :
    p = (s, source) ∨ p ∈ symbols := by
  induction symbols with
  | nil => exact .inl (List.mem_singleton.mp h)
  | cons q symbols ih =>
    obtain ⟨old, path⟩ := q
    simp only [Collection.put] at h
    split at h
    · rcases List.mem_cons.mp h with rfl | h
      · exact .inl rfl
      · exact .inr (List.mem_cons_of_mem _ h)
    · rcases List.mem_cons.mp h with rfl | h
      · exact .inr (List.mem_cons_self ..)
      · rcases ih h with rfl | h
        · exact .inl rfl
        · exact .inr (List.mem_cons_of_mem _ h)

theorem exists_build_of_mem_collect {o : Optimizer} {t : FileTree} {c : Collection}
    {icons : List Icon} {p : Symbol × Path} (h : p ∈ (collect o t c icons).symbols) :
    p ∈ c.symbols ∨ ∃ icon ∈ icons, build o t icon = .ok p.1 := by
  induction icons generalizing c with
  | nil => exact .inl h
  | cons icon icons ih =>
    simp only [collect] at h
    split at h
    · rename_i s hbuild
      rcases ih h with h | ⟨other, hother, hp⟩
      · rcases mem_put h with rfl | h
        · exact .inr ⟨icon, List.mem_cons_self .., hbuild⟩
        · exact .inl h
      · exact .inr ⟨other, List.mem_cons_of_mem _ hother, hp⟩
    · rcases ih h with h | ⟨other, hother, hp⟩
      · exact .inl h
      · exact .inr ⟨other, List.mem_cons_of_mem _ hother, hp⟩

theorem build_eq_ok {o : Optimizer} {t : FileTree} {icon : Icon} {s : Symbol}
    (h : build o t icon = .ok s) :
    ∃ source, t.readText icon.path = .ok source ∧ symbolOf o icon.id source = .ok s := by
  simp only [build, bind_eq_ok_iff, mapError_eq_ok_iff] at h
  exact h

theorem build_of_symbolOf {o : Optimizer} {t : FileTree} {icon : Icon} {source : List Char}
    {s : Symbol} (hread : t.readText icon.path = .ok source)
    (hsymbol : symbolOf o icon.id source = .ok s) : build o t icon = .ok s := by
  simp only [build, hread, bind, Except.bind, Except.mapError, hsymbol]

theorem readText_of_compile {c : Compiler} {t u : FileTree} {report : Report}
    (h : c.compile t = (u, .ok report)) (hwritten : report.written = true) :
    u.readText c.output = .ok (c.sheetOf t) ∧
      report.symbols = (c.collection t).symbols.map (·.1.id) := by
  rcases compile_eq_ok_iff.mp h with ⟨-, -, rfl⟩ | ⟨-, hputs, rfl⟩
  · cases hwritten
  · obtain ⟨l, hfind⟩ := hputs.find
    exact ⟨FileTree.readText_eq_ok_iff.mpr ⟨l, hfind⟩, rfl⟩

/-- A written sprite stands on its own and holds one symbol for each entry of the report. -/
theorem compile_shows {c : Compiler} {t u : FileTree} {report : Report}
    (hkeys : ∀ icon ∈ Icon.scan t c.iconsDir, ∀ source, t.readText icon.path = .ok source →
      ∀ reduced, c.optimizer.optimize source = .ok reduced → Root.HasPlainKeys reduced)
    (h : c.compile t = (u, .ok report)) (hwritten : report.written = true) :
    ∃ text, u.readText c.output = .ok text ∧ checkStandalone text = .ok () ∧
      Shows text report.symbols := by
  obtain ⟨hread, hsymbols⟩ := readText_of_compile h hwritten
  have hsound : ∀ s ∈ (c.collection t).symbols.map (·.1), ∃ content, s.Sound content := by
    intro s hs
    obtain ⟨p, hp, rfl⟩ := List.mem_map.mp hs
    rcases exists_build_of_mem_collect hp with hnone | ⟨icon, hicon, hbuild⟩
    · cases hnone
    · obtain ⟨source, hsource, hsymbol⟩ := build_eq_ok hbuild
      exact exists_sound hsymbol (hkeys icon hicon source hsource)
  obtain ⟨body, hbody⟩ := exists_fills hsound
  refine ⟨c.sheetOf t, hread, hbody.checkStandalone, ?_⟩
  have hshows := hbody.shows
  rw [List.map_map] at hshows
  rw [hsymbols]
  exact hshows

def drawing (t shape : Tag) : List Event :=
  [.opening t, .empty shape, .closing "svg".toList]

section drawing

variable {t shape : Tag} {source : List Char}

theorem optimize_drawing (hread : Reading.ofText source = ⟨drawing t shape, none⟩)
    (hrender : render (drawing t shape) = source)
    (hrewrite : (Optimizer.mk []).rewriteEvents (drawing t shape) = .ok (drawing t shape)) :
    (Optimizer.mk []).optimize source = .ok source := by
  rw [Optimizer.optimize_of_rewriteEvents hread rfl hrewrite, hrender]

theorem tag?_drawing (hread : Reading.ofText source = ⟨drawing t shape, none⟩) :
    Root.tag? source = some t := by
  rw [Root.tag?, hread]
  rfl

theorem root_drawing {viewBox : Option (List Char)} {namespaces : List (List Char × List Char)}
    (hread : Reading.ofText source = ⟨drawing t shape, none⟩) (hsvg : Root.isSvg t = true)
    (hviewBox : Root.viewBoxOf t = .ok viewBox)
    (hnamespaces : Root.namespacesOf t = .ok namespaces) :
    Root.ofText? source = .ok (some ⟨viewBox, render [.empty shape], namespaces⟩) :=
  Root.ofText?_of_events hread rfl hsvg hviewBox hnamespaces

theorem readsBack_empty (hform : Tag.ofContent shape.content = shape)
    (hstart : startsTag shape.content = true) (hcloses : shape.Closes true) :
    (Event.empty shape).ReadsBack :=
  readEvent_ofTag hform hstart hcloses

theorem checkStandalone_drawing {s : Symbol} {inner scope : Scope}
    (hcontent : s.content = render [.empty shape]) (hshape : (Event.empty shape).ReadsBack)
    (hplain : ∀ a ∈ s.attributes, ∀ c ∈ a.key, isTagPlain c = true)
    (htag : checkTag sheetScope s.tag = .ok inner) (hinner : checkTag inner shape = .ok scope) :
    checkStandalone (sheet [s]) = .ok () := by
  have hmarkup : [s].flatMap Symbol.markup = render (s.events [.empty shape]) := by
    rw [List.flatMap_singleton, Symbol.markup_eq_render hcontent]
  have hreads : ∀ e ∈ s.events [.empty shape], e.ReadsBack := by
    intro e he
    rcases List.mem_cons.mp he with rfl | he
    · exact Symbol.readsBack_tag hplain
    · rcases List.mem_cons.mp he with rfl | he
      · exact hshape
      · rw [List.mem_singleton.mp he]
        exact Symbol.readsBack_closing
  refine checkStandalone_sheet hmarkup hreads rfl ?_
  simp only [Symbol.events, scopesAfter, List.headD_cons, List.cons_append, List.nil_append,
    List.tail_cons, htag, hinner]

end drawing

section dot

def dotSource : List Char := "<svg><b/></svg>".toList

def dotShape : Tag := ⟨"b".toList, []⟩

def dotSymbol (id : List Char) : Symbol := ⟨id, none, "<b/>".toList, []⟩

def dotIcon : Icon := ⟨.ofString "/i/a.svg", .ofString "a.svg", "a".toList⟩

def dotTree : FileTree :=
  ⟨[(["i".toList], .directory), (["i".toList, "a.svg".toList], .file (.text dotSource))], []⟩

def dotCompiler : Compiler := ⟨.ofString "/i", .ofString "/o.svg", ⟨[]⟩⟩

theorem proper_dotTree : dotTree.Proper := by
  constructor
  · decide
  · decide
  · decide
  · decide

theorem unlinked_dotTree : dotTree.Unlinked := by
  apply FileTree.unlinked_of_nodes
  simp [dotTree]

theorem ofText_dotSource :
    Reading.ofText dotSource = ⟨drawing ⟨"svg".toList, []⟩ dotShape, none⟩ := by
  cbv

theorem optimize_dotSource : (Optimizer.mk []).optimize dotSource = .ok dotSource :=
  optimize_drawing ofText_dotSource rfl (by cbv)

theorem root_dotSource : Root.ofText? dotSource = .ok (some ⟨none, "<b/>".toList, []⟩) :=
  root_drawing ofText_dotSource (by decide) (by cbv) (by cbv)

theorem readsBack_dotShape : (Event.empty dotShape).ReadsBack :=
  readsBack_empty (by decide) (by decide) ⟨by decide, by decide⟩

theorem checkTag_dotShape : checkTag sheetScope dotShape = .ok sheetScope := by
  cbv

theorem build_dot {t : FileTree} {icon : Icon} {id : List Char}
    (hid : checkTag sheetScope (dotSymbol id).tag = .ok sheetScope) (hicon : icon.id = id)
    (hread : t.readText icon.path = .ok dotSource) : build ⟨[]⟩ t icon = .ok (dotSymbol id) := by
  have hplain : ∀ a ∈ (dotSymbol id).attributes, ∀ c ∈ a.key, isTagPlain c = true := by
    simp [Symbol.attributes, dotSymbol, isTagPlain, isQuote]
  have halone := checkStandalone_drawing rfl readsBack_dotShape hplain hid checkTag_dotShape
  rw [← hicon] at halone ⊢
  exact build_of_symbolOf hread (symbolOf_of_root optimize_dotSource root_dotSource halone)

theorem checkTag_dot : checkTag sheetScope (dotSymbol "a".toList).tag = .ok sheetScope := by
  cbv

theorem scan_dotTree : Icon.scan dotTree dotCompiler.iconsDir = [dotIcon] := by
  cbv

end dot

section pair

def boxTag : Tag := ⟨"svg".toList, " viewBox=\"0 0 1 1\"".toList⟩

def linkTag : Tag := ⟨"svg".toList, " xmlns:x=\"u\"".toList⟩

def linkShape : Tag := ⟨"x:b".toList, []⟩

def boxSource : List Char := "<svg viewBox=\"0 0 1 1\"><b/></svg>".toList

def linkSource : List Char := "<svg xmlns:x=\"u\"><x:b/></svg>".toList

def boxSymbol : Symbol := ⟨"box".toList, some "0 0 1 1".toList, "<b/>".toList, []⟩

def linkSymbol : Symbol :=
  ⟨"link".toList, none, "<x:b/>".toList, [("x".toList, "u".toList)]⟩

def linkAttributes : List Attribute :=
  [⟨"id".toList, "link".toList⟩, ⟨"xmlns:x".toList, "u".toList⟩]

def linkScope : Scope := ⟨"x".toList, "u".toList⟩ :: sheetScope

def boxIcon : Icon := ⟨.ofString "/i/box.svg", .ofString "box.svg", "box".toList⟩

def linkIcon : Icon := ⟨.ofString "/i/link.svg", .ofString "link.svg", "link".toList⟩

def pairTree : FileTree :=
  ⟨[(["i".toList], .directory), (["i".toList, "link.svg".toList], .file (.text linkSource)),
    (["i".toList, "box.svg".toList], .file (.text boxSource))], []⟩

theorem ofText_boxSource : Reading.ofText boxSource = ⟨drawing boxTag dotShape, none⟩ := by
  cbv

theorem ofText_linkSource : Reading.ofText linkSource = ⟨drawing linkTag linkShape, none⟩ := by
  cbv

theorem optimize_boxSource : (Optimizer.mk []).optimize boxSource = .ok boxSource :=
  optimize_drawing ofText_boxSource (by decide) (by cbv)

theorem optimize_linkSource : (Optimizer.mk []).optimize linkSource = .ok linkSource :=
  optimize_drawing ofText_linkSource (by decide) (by cbv)

theorem checkTag_box : checkTag sheetScope boxSymbol.tag = .ok sheetScope := by
  cbv

theorem checkTag_link : checkTag sheetScope linkSymbol.tag = .ok linkScope := by
  have hall : linkSymbol.tag.allAttributes = ⟨linkAttributes, none⟩ := by
    cbv
  have hread : linkSymbol.tag.attributes = ⟨linkAttributes, none⟩ := by
    cbv
  have hextend : sheetScope.extend linkAttributes = .ok linkScope := by
    decide
  have hname : linkScope.undeclared? linkSymbol.tag.name = none := by
    decide
  have hattributes : checkAttributes linkScope linkAttributes = .ok () := by
    cbv
  simp only [checkTag, hall, hread, hextend, hname, hattributes]

theorem build_box : build ⟨[]⟩ pairTree boxIcon = .ok boxSymbol := by
  have hread : pairTree.readText boxIcon.path = .ok boxSource := by
    cbv
  have halone : checkStandalone (sheet [boxSymbol]) = .ok () :=
    checkStandalone_drawing rfl readsBack_dotShape
      (by simp [Symbol.attributes, boxSymbol, isTagPlain, isQuote]) checkTag_box checkTag_dotShape
  exact build_of_symbolOf hread (symbolOf_of_root optimize_boxSource
    (root_drawing ofText_boxSource (by decide) (by cbv) (by cbv)) halone)

theorem build_link : build ⟨[]⟩ pairTree linkIcon = .ok linkSymbol := by
  have hread : pairTree.readText linkIcon.path = .ok linkSource := by
    cbv
  have hshape : (Event.empty linkShape).ReadsBack :=
    readsBack_empty (by decide) (by decide) ⟨by decide, by decide⟩
  have hinner : checkTag linkScope linkShape = .ok linkScope := by
    cbv
  have halone : checkStandalone (sheet [linkSymbol]) = .ok () :=
    checkStandalone_drawing rfl hshape
      (by simp [Symbol.attributes, linkSymbol, isTagPlain, isQuote]) checkTag_link hinner
  exact build_of_symbolOf hread (symbolOf_of_root optimize_linkSource
    (root_drawing ofText_linkSource (by decide) (by cbv) (by cbv)) halone)

theorem scan_pairTree : Icon.scan pairTree dotCompiler.iconsDir = [boxIcon, linkIcon] := by
  cbv

theorem ids_pairTree : (dotCompiler.collection pairTree).symbols.map (·.1.id) =
    ["box".toList, "link".toList] := by
  have hbox : build dotCompiler.optimizer pairTree boxIcon = .ok boxSymbol := build_box
  have hlink : build dotCompiler.optimizer pairTree linkIcon = .ok linkSymbol := build_link
  simp only [collection, scan_pairTree, collect, hbox, hlink]
  rfl

theorem hasPlainKeys_box : Root.HasPlainKeys boxSource := by
  have hattributes : boxTag.attributes = ⟨[⟨"viewBox".toList, "0 0 1 1".toList⟩], none⟩ := by
    cbv
  intro t ht
  obtain rfl := Option.some.inj ((tag?_drawing ofText_boxSource).symm.trans ht)
  rw [hattributes]
  simp [isQuote]

theorem hasPlainKeys_link : Root.HasPlainKeys linkSource := by
  have hattributes : linkTag.attributes = ⟨[⟨"xmlns:x".toList, "u".toList⟩], none⟩ := by
    cbv
  intro t ht
  obtain rfl := Option.some.inj ((tag?_drawing ofText_linkSource).symm.trans ht)
  rw [hattributes]
  simp [isQuote]

theorem hasPlainKeys_pairTree : ∀ icon ∈ Icon.scan pairTree dotCompiler.iconsDir, ∀ source,
    pairTree.readText icon.path = .ok source →
      ∀ reduced, (Optimizer.mk []).optimize source = .ok reduced → Root.HasPlainKeys reduced := by
  have hbox : pairTree.readText boxIcon.path = .ok boxSource := by
    cbv
  have hlink : pairTree.readText linkIcon.path = .ok linkSource := by
    cbv
  intro icon hicon source hsource reduced hreduced
  rw [scan_pairTree] at hicon
  rcases List.mem_cons.mp hicon with rfl | hicon
  · obtain rfl := Except.ok.inj (hbox.symm.trans hsource)
    obtain rfl := Except.ok.inj (optimize_boxSource.symm.trans hreduced)
    exact hasPlainKeys_box
  · obtain rfl := List.mem_singleton.mp hicon
    obtain rfl := Except.ok.inj (hlink.symm.trans hsource)
    obtain rfl := Except.ok.inj (optimize_linkSource.symm.trans hreduced)
    exact hasPlainKeys_link

theorem compile_shows_pair :
    (∀ icon ∈ Icon.scan pairTree dotCompiler.iconsDir, ∀ source,
      pairTree.readText icon.path = .ok source →
        ∀ reduced, dotCompiler.optimizer.optimize source = .ok reduced →
          Root.HasPlainKeys reduced) ∧
      ∃ u report, dotCompiler.compile pairTree = (u, .ok report) ∧
        report.written = true ∧ report.symbols = ["box".toList, "link".toList] ∧
          ∃ text, u.readText dotCompiler.output = .ok text ∧ checkStandalone text = .ok () ∧
            Shows text report.symbols := by
  have hcompile := compile_of_locate ["o.svg".toList] scan_pairTree (by cbv) (by cbv) (by decide)
  exact ⟨hasPlainKeys_pairTree, _, _, hcompile, rfl, ids_pairTree,
    compile_shows hasPlainKeys_pairTree hcompile rfl⟩

end pair

end Compiler

end StaticSite.Sprite
