import StaticSite.Proofs.Sprite.Compiled

namespace StaticSite.Sprite
open StaticSite.Text StaticSite.Xml StaticSite.Svg

def isPrefixChar (c : Char) : Bool :=
  isTagPlain c && c != '=' && !isBlank c

theorem key_of_isPrefixChar {name : List Char} (h : ∀ c ∈ name, isPrefixChar c = true) :
    isKey ("xmlns:".toList ++ name) = true ∧
      ∀ c ∈ "xmlns:".toList ++ name, isTagPlain c = true := by
  have hplain : ∀ c ∈ "xmlns:".toList, isPrefixChar c = true := List.all_eq_true.mp (by decide)
  have hall : ∀ c ∈ "xmlns:".toList ++ name, isPrefixChar c = true := by
    intro c hc
    rcases List.mem_append.mp hc with hc | hc
    · exact hplain c hc
    · exact h c hc
  simp only [isPrefixChar, Bool.and_eq_true] at hall
  constructor
  · change (!isBlank 'x' && ("mlns:".toList ++ name).all fun c => c != '=' && !isBlank c) = true
    rw [Bool.and_eq_true, List.all_eq_true]
    refine ⟨by decide, ?_⟩
    intro c hc
    obtain ⟨⟨-, hequals⟩, hblank⟩ := hall c (List.mem_cons_of_mem _ hc)
    rw [hequals, hblank]
    rfl
  · intro c hc
    exact (hall c hc).1.1

/-- What the symbols of a sheet are made of: content that was taken out of some document, and
prefixes that can be declared together. -/
structure Symbol.Extracted (s : Symbol) : Prop where
  content : ∃ source root, Root.ofText? source = .ok (some root) ∧ s.content = root.inner
  distinct : (s.namespaces.map (·.1)).Nodup
  prefixes : ∀ p ∈ s.namespaces, ∀ c ∈ p.1, isPrefixChar c = true

theorem Symbol.Extracted.exists_formed {s : Symbol} (h : s.Extracted) :
    ∃ content, s.Formed content := by
  obtain ⟨source, root, hroot, hcontent⟩ := h.content
  obtain ⟨-, -, -, es, -, -, -, -, hinner, hreads, hbalanced⟩ := Root.ofText?_eq_some hroot
  have hnodup : (s.namespaces.map fun p => "xmlns:".toList ++ p.1).Nodup := by
    have hmap := h.distinct.map (List.append_right_injective "xmlns:".toList)
    rwa [List.map_map] at hmap
  refine ⟨es, Symbol.formed_of_namespaces (hcontent.trans hinner) hreads hbalanced ?_ hnodup⟩
  intro key hkey
  obtain ⟨p, hp, rfl⟩ := List.mem_map.mp hkey
  exact key_of_isPrefixChar (h.prefixes p hp)

def sheetRoot (inner : List Char) : Root :=
  ⟨none, inner, [("xlink".toList, "http://www.w3.org/1999/xlink".toList)]⟩

theorem viewBoxOf_sheetTag : Root.viewBoxOf sheetTag = .ok none := by
  rw [Root.viewBoxOf, attributes_sheetTag]
  rfl

theorem namespacesOf_sheetTag : Root.namespacesOf sheetTag =
    .ok [("xlink".toList, "http://www.w3.org/1999/xlink".toList)] := by
  rw [Root.namespacesOf, attributes_sheetTag]
  decide +kernel

theorem Holds.ofText? {symbols : List Symbol} {body : List Event} (h : Holds symbols body) :
    Root.ofText? (sheet symbols) = .ok (some (sheetRoot (symbols.flatMap Symbol.markup))) := by
  obtain ⟨inside, hread, -, hrender, hbalanced⟩ := ofText_sheet h.markup h.readsBack h.balanced
  have hroot := Root.ofText?_of_events hread hbalanced (by decide) viewBoxOf_sheetTag
    namespacesOf_sheetTag
  rwa [hrender, ← h.markup] at hroot

/-- Identifiers, view boxes and namespaces may be any texts, and content may hold symbols. -/
theorem sheet_roundTrip {symbols : List Symbol} (h : ∀ s ∈ symbols, s.Extracted) :
    Root.ofText? (sheet symbols) = .ok (some (sheetRoot (symbols.flatMap Symbol.markup))) ∧
      List.Forall₂ Tells ((elements [] (Reading.ofText (sheet symbols)).events).filter
        (·.path = ["svg".toList])) symbols := by
  obtain ⟨body, hbody⟩ := exists_holds fun s hs => (h s hs).exists_formed
  exact ⟨hbody.ofText?, hbody.tells⟩

def nestedSource : List Char :=
  "<svg><symbol><svg/></symbol><!--</svg>--></svg>".toList

def nestedEvents : List Event :=
  [.opening ⟨"symbol".toList, []⟩, .empty ⟨"svg".toList, []⟩, .closing "symbol".toList,
    .comment "</svg>".toList]

def nestedSymbol : Symbol :=
  ⟨"\"/><&'".toList, some "\">".toList, render nestedEvents,
    [("b".toList, "urn:\"<b>".toList), ("a".toList, [])]⟩

theorem ofText_nestedSource : Reading.ofText nestedSource =
    ⟨.opening ⟨"svg".toList, []⟩ :: (nestedEvents ++ [.closing "svg".toList]), none⟩ := by
  cbv

theorem extracted_nestedSymbol : nestedSymbol.Extracted where
  content := by
    have hviewBox : Root.viewBoxOf ⟨"svg".toList, []⟩ = .ok none := by cbv
    have hnamespaces : Root.namespacesOf ⟨"svg".toList, []⟩ = .ok [] := by cbv
    exact ⟨nestedSource, _, Root.ofText?_of_events ofText_nestedSource rfl (by decide) hviewBox
      hnamespaces, rfl⟩
  distinct := by decide
  prefixes := by
    intro p hp
    rcases List.mem_cons.mp hp with rfl | hp
    · exact List.all_eq_true.mp (by decide)
    · rw [List.mem_singleton.mp hp]
      exact List.all_eq_true.mp (by decide)

theorem sheet_roundTrip_nested :
    Root.ofText? (sheet [nestedSymbol, Compiler.dotSymbol []]) =
        .ok (some (sheetRoot (nestedSymbol.markup ++ (Compiler.dotSymbol []).markup))) ∧
      List.Forall₂ Tells ((elements [] (Reading.ofText
          (sheet [nestedSymbol, Compiler.dotSymbol []])).events).filter
        (·.path = ["svg".toList])) [nestedSymbol, Compiler.dotSymbol []] := by
  have hdot : (Compiler.dotSymbol []).Extracted :=
    ⟨⟨Compiler.dotSource, _, Compiler.root_dotSource, rfl⟩, .nil, by simp [Compiler.dotSymbol]⟩
  have hboth : ∀ s ∈ [nestedSymbol, Compiler.dotSymbol []], s.Extracted := by
    simpa using ⟨extracted_nestedSymbol, hdot⟩
  have htwo := sheet_roundTrip hboth
  rwa [List.flatMap_cons, List.flatMap_singleton] at htwo

end StaticSite.Sprite
