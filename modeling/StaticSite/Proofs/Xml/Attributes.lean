import StaticSite.Proofs.Xml.ReadBack
import StaticSite.Xml.Attribute

namespace StaticSite.Xml
open StaticSite.Text

def isKey : List Char → Bool
  | [] => false
  | c :: cs => !isBlank c && cs.all fun c => c != '=' && !isBlank c

def Attribute.Heads (a : Attribute) (text next : List Char) : Prop :=
  ∃ before afterKey afterEquals quote,
    text = before ++ (a.key ++ (afterKey ++ '=' ::
      (afterEquals ++ quote :: (a.value ++ quote :: next)))) ∧
    (∀ c ∈ before, isBlank c = true) ∧ (∀ c ∈ afterKey, isBlank c = true) ∧
    (∀ c ∈ afterEquals, isBlank c = true) ∧ isQuote quote = true ∧ quote ∉ a.value ∧
    isKey a.key = true

inductive Spells : List Char → List Attribute → Prop where
  | nil {text : List Char} : (∀ c ∈ text, isBlank c = true) → Spells text []
  | cons {text next : List Char} {a : Attribute} {as : List Attribute} :
    a.Heads text next → Spells next as → Spells text (a :: as)

theorem splitAt?_singleton {q : Char} {cs before rest : List Char} :
    splitAt? [q] cs = some (before, rest) ↔ cs = before ++ q :: rest ∧ q ∉ before := by
  induction cs generalizing before with
  | nil => simp [splitAt?, after?]
  | cons c cs ih =>
    by_cases hc : q = c
    · subst hc
      simp only [splitAt?, after?, ↓reduceIte, Option.some.injEq, Prod.mk.injEq]
      constructor
      · rintro ⟨rfl, rfl⟩
        simp
      · rintro ⟨hcs, hnot⟩
        cases before with
        | nil => simpa using hcs
        | cons b before =>
          simp only [List.cons_append, List.cons.injEq] at hcs
          simp [hcs.1] at hnot
    · simp only [splitAt?, after?, if_neg hc, Option.map_eq_some_iff, Prod.mk.injEq]
      constructor
      · rintro ⟨⟨inner, tail⟩, hsplit, rfl, rfl⟩
        obtain ⟨rfl, hnot⟩ := ih.mp hsplit
        simp [hc, hnot]
      · rintro ⟨hcs, hnot⟩
        cases before with
        | nil => simp [Ne.symm hc] at hcs
        | cons b before =>
          simp only [List.cons_append, List.cons.injEq] at hcs
          obtain ⟨rfl, rfl⟩ := hcs
          refine ⟨(before, rest), ih.mpr ⟨rfl, ?_⟩, rfl, rfl⟩
          intro hmem
          exact hnot (List.mem_cons_of_mem _ hmem)

theorem isBlank_of_isQuote {q : Char} (h : isQuote q = true) : isBlank q = false := by
  have hq : q = '"' ∨ q = '\'' := by simpa [isQuote] using h
  rcases hq with rfl | rfl <;> decide

theorem exists_blanks (cs : List Char) :
    ∃ blanks, cs = blanks ++ cs.dropWhile isBlank ∧ ∀ c ∈ blanks, isBlank c = true :=
  ⟨cs.takeWhile isBlank, List.takeWhile_append_dropWhile.symm,
    fun _ hc => List.mem_takeWhile_imp hc⟩

theorem dropWhile_blanks {blanks : List Char} (h : ∀ c ∈ blanks, isBlank c = true) {c : Char}
    (hc : isBlank c = false) (cs : List Char) :
    (blanks ++ c :: cs).dropWhile isBlank = c :: cs := by
  rw [List.dropWhile_append_of_pos h, List.dropWhile_cons, if_neg (by simp [hc])]

theorem exists_of_isKey {key : List Char} (h : isKey key = true) :
    ∃ c cs, key = c :: cs ∧ isBlank c = false ∧ ∀ x ∈ cs, (x != '=' && !isBlank x) = true := by
  cases key with
  | nil => cases h
  | cons c cs =>
    simp only [isKey, Bool.and_eq_true, Bool.not_eq_true', List.all_eq_true] at h
    exact ⟨c, cs, rfl, h.1, fun x hx => by simpa using h.2 x hx⟩

theorem isKey_keyOf {c : Char} (hc : isBlank c = false) (cs : List Char) :
    isKey (keyOf (c :: cs)) = true := by
  simp only [keyOf, isKey, hc, Bool.not_false, Bool.true_and, List.all_eq_true]
  intro x hx
  have hin := List.mem_takeWhile_imp hx
  simpa using hin

theorem keyOf_append_drop (cs : List Char) : keyOf cs ++ cs.drop (keyOf cs).length = cs := by
  refine List.prefix_iff_eq_append.mp ?_
  cases cs with
  | nil => exact List.prefix_rfl
  | cons c cs => exact List.cons_prefix_cons.mpr ⟨rfl, List.takeWhile_prefix _⟩

theorem keyOf_append {key : List Char} (h : isKey key = true) {rest : List Char}
    (hrest : ∀ c, rest.head? = some c → c = '=' ∨ isBlank c = true) :
    keyOf (key ++ rest) = key := by
  obtain ⟨c, cs, rfl, _, hcs⟩ := exists_of_isKey h
  rw [List.cons_append, keyOf, List.takeWhile_append_of_pos hcs]
  cases rest with
  | nil => simp
  | cons d rest =>
    rcases hrest d rfl with rfl | hd
    · simp
    · simp [hd]

theorem readValue_eq_ok {start next : Place} {value : List Char}
    (h : readValue start = .ok (value, next)) :
    ∃ blanks quote, start.rest = blanks ++ quote :: (value ++ quote :: next.rest) ∧
      (∀ c ∈ blanks, isBlank c = true) ∧ isQuote quote = true ∧ quote ∉ value := by
  obtain ⟨blanks, hstart, hblanks⟩ := exists_blanks start.rest
  simp only [readValue, Place.skip] at h
  split at h
  · cases h
  · rename_i q cs hcs
    split at h
    · rename_i hq
      split at h
      · rename_i hsplit
        obtain ⟨rfl, hnot⟩ := splitAt?_singleton.mp hsplit
        simp only [Except.ok.injEq, Prod.mk.injEq] at h
        obtain ⟨rfl, rfl⟩ := h
        refine ⟨blanks, q, ?_, hblanks, by simpa [isQuote] using hq, hnot⟩
        rw [← hcs]
        exact hstart
      · cases h
    · cases h

theorem readValue_of_quoted {blanks value : List Char} {quote : Char}
    (hblanks : ∀ c ∈ blanks, isBlank c = true) (hquote : isQuote quote = true)
    (hvalue : quote ∉ value) (offset : Nat) (next : List Char) :
    ∃ place, readValue ⟨offset, blanks ++ quote :: (value ++ quote :: next)⟩ = .ok (value, place) ∧
      place.rest = next := by
  have hq : quote = '"' ∨ quote = '\'' := by simpa [isQuote] using hquote
  simp only [readValue, Place.skip, dropWhile_blanks hblanks (isBlank_of_isQuote hquote), if_pos hq,
    splitAt?_singleton.mpr ⟨rfl, hvalue⟩]
  exact ⟨_, rfl, rfl⟩

theorem blanks_of_readAttribute {seen : List (List Char × Nat)} {start : Place}
    (h : readAttribute seen start = .ok none) : ∀ c ∈ start.rest, isBlank c = true := by
  simp only [readAttribute, Place.skip] at h
  split at h
  · rename_i hnil
    intro c hc
    exact List.dropWhile_eq_nil_iff.mp hnil c hc
  · split at h
    · split at h
      · cases h
      · split at h <;> cases h
    · cases h

theorem readAttribute_of_blanks {start : Place} (h : ∀ c ∈ start.rest, isBlank c = true)
    (seen : List (List Char × Nat)) : readAttribute seen start = .ok none := by
  simp only [readAttribute, Place.skip, List.dropWhile_eq_nil_iff.mpr h]

theorem heads_of_readAttribute {seen : List (List Char × Nat)} {start next : Place}
    {a : Attribute} {offset : Nat} (h : readAttribute seen start = .ok (some (a, offset, next))) :
    a.Heads start.rest next.rest ∧ a.key ∉ seen.map (·.1) := by
  obtain ⟨before, hstart, hbefore⟩ := exists_blanks start.rest
  simp only [readAttribute, Place.skip] at h
  split at h
  · cases h
  · rename_i cs hnil
    cases hcs : start.rest.dropWhile isBlank with
    | nil => exact absurd hcs hnil
    | cons c cs =>
      have hc : isBlank c = false := by
        have := List.head?_dropWhile_not isBlank start.rest
        simpa [hcs] using this
      rw [hcs] at h hstart
      obtain ⟨afterKey, hafter, hblanks⟩ :=
        exists_blanks ((c :: cs).drop (keyOf (c :: cs)).length)
      split at h
      · rename_i rest hrest
        split at h
        · cases h
        · rename_i hfind
          split at h
          · cases h
          · rename_i value place hvalue
            simp only [Except.ok.injEq, Option.some.injEq, Prod.mk.injEq] at h
            obtain ⟨rfl, rfl, rfl⟩ := h
            obtain ⟨afterEquals, quote, hquoted, hequals, hquote, hnot⟩ := readValue_eq_ok hvalue
            refine ⟨⟨before, afterKey, afterEquals, quote, ?_, hbefore, hblanks, hequals, hquote,
              hnot, isKey_keyOf hc cs⟩, ?_⟩
            · rw [hrest] at hafter
              change rest = _ at hquoted
              rw [hstart, ← hquoted, ← hafter, keyOf_append_drop]
            · intro hmem
              obtain ⟨p, hp, hpkey⟩ := List.mem_map.mp hmem
              have := List.find?_eq_none.mp hfind p hp
              exact this (by simpa using hpkey)
      · cases h

theorem readAttribute_of_readValue {before key afterKey rest value : List Char} {offset : Nat}
    {place : Place} (hbefore : ∀ c ∈ before, isBlank c = true) (hkey : isKey key = true)
    (hafter : ∀ c ∈ afterKey, isBlank c = true) {seen : List (List Char × Nat)}
    (hseen : key ∉ seen.map (·.1))
    (hvalue : readValue ⟨offset + byteCount before + byteCount key + byteCount afterKey + 1, rest⟩ =
      .ok (value, place)) :
    readAttribute seen ⟨offset, before ++ (key ++ (afterKey ++ '=' :: rest))⟩ =
      .ok (some (⟨key, value⟩, offset + byteCount before, place)) := by
  obtain ⟨c, cs, hc, hblank, -⟩ := exists_of_isKey hkey
  have hskip : (before ++ (key ++ (afterKey ++ '=' :: rest))).dropWhile isBlank =
      key ++ (afterKey ++ '=' :: rest) := by
    rw [hc, List.cons_append, dropWhile_blanks hbefore hblank]
  have htake : (before ++ (key ++ (afterKey ++ '=' :: rest))).takeWhile isBlank = before := by
    rw [hc, List.cons_append, List.takeWhile_append_of_pos hbefore, List.takeWhile_cons,
      if_neg (by simp [hblank]), List.append_nil]
  have hend : ∀ d, (afterKey ++ '=' :: rest).head? = some d → d = '=' ∨ isBlank d = true := by
    intro d hd
    cases afterKey with
    | nil => exact .inl (by simpa using hd.symm)
    | cons b afterKey =>
      simp only [List.cons_append, List.head?_cons, Option.some.injEq] at hd
      exact .inr (hd ▸ hafter b (by simp))
  have hfind : seen.find? (·.1 = key) = none := by
    rw [List.find?_eq_none]
    intro p hp hpkey
    exact hseen (List.mem_map.mpr ⟨p, hp, by simpa using hpkey⟩)
  have hequals : (afterKey ++ '=' :: rest).dropWhile isBlank = '=' :: rest :=
    dropWhile_blanks hafter (by decide) rest
  have hblanks : (afterKey ++ '=' :: rest).takeWhile isBlank = afterKey := by
    rw [List.takeWhile_append_of_pos hafter, List.takeWhile_cons, if_neg (by decide),
      List.append_nil]
  simp only [readAttribute, Place.skip, hskip, htake]
  split
  · rename_i hnil
    simp [hc] at hnil
  · simp only [keyOf_append hkey hend, List.drop_left, hequals, hblanks, hfind, hvalue]

theorem readAttribute_of_heads {a : Attribute} {start : Place} {next : List Char}
    (h : a.Heads start.rest next) {seen : List (List Char × Nat)}
    (hseen : a.key ∉ seen.map (·.1)) :
    ∃ keyOffset place, readAttribute seen start = .ok (some (a, keyOffset, place)) ∧
      place.rest = next := by
  obtain ⟨offset, text⟩ := start
  obtain ⟨before, afterKey, afterEquals, quote, htext, hbefore, hafter, hequals, hquote, hvalue,
    hkey⟩ := h
  obtain ⟨place, hread, hplace⟩ := readValue_of_quoted hequals hquote hvalue
    (offset + byteCount before + byteCount a.key + byteCount afterKey + 1) next
  change text = _ at htext
  refine ⟨offset + byteCount before, place, ?_, hplace⟩
  rw [htext]
  exact readAttribute_of_readValue hbefore hkey hafter hseen hread

theorem readAttributes_eq (unique : Bool) (seen : List (List Char × Nat)) (start : Place) :
    readAttributes unique seen start =
      match readAttribute seen start with
      | .error e => ⟨[], some e⟩
      | .ok none => ⟨[], none⟩
      | .ok (some (a, offset, next)) =>
        ⟨a :: (readAttributes unique (if unique then seen ++ [(a.key, offset)] else seen)
            next).attributes,
          (readAttributes unique (if unique then seen ++ [(a.key, offset)] else seen)
            next).failure⟩ := by
  rw [readAttributes]
  split <;> rename_i h <;> rw [h]

theorem readAttributes_of_spells {text : List Char} {as : List Attribute} (h : Spells text as)
    {unique : Bool} {seen : List (List Char × Nat)} {start : Place} (hstart : start.rest = text)
    (hkeys : ∀ a ∈ as, a.key ∉ seen.map (·.1)) (hunique : unique = true → (as.map (·.key)).Nodup) :
    readAttributes unique seen start = ⟨as, none⟩ := by
  induction h generalizing seen start with
  | nil hblanks =>
    subst hstart
    rw [readAttributes_eq, readAttribute_of_blanks hblanks]
  | @cons text next a as hhead _ ih =>
    subst hstart
    obtain ⟨offset, place, hread, hplace⟩ := readAttribute_of_heads hhead (hkeys a (by simp))
    rw [readAttributes_eq, hread]
    have hothers : readAttributes unique (if unique then seen ++ [(a.key, offset)] else seen) place =
        ⟨as, none⟩ := by
      refine ih hplace ?_ ?_
      · intro b hb
        have hold := hkeys b (List.mem_cons_of_mem _ hb)
        split
        · rename_i hu
          have hne : b.key ≠ a.key := by
            intro heq
            have hin : b.key ∈ as.map (·.key) := List.mem_map_of_mem hb
            rw [heq] at hin
            exact (List.nodup_cons.mp (hunique hu)).1 hin
          simpa [hne] using hold
        · exact hold
      · intro hu
        exact (List.nodup_cons.mp (hunique hu)).2
    simp only [hothers]

theorem spells_of_readAttributes {as : List Attribute} {unique : Bool}
    {seen : List (List Char × Nat)} {start : Place}
    (h : readAttributes unique seen start = ⟨as, none⟩) :
    Spells start.rest as ∧ (unique = true →
      (∀ a ∈ as, a.key ∉ seen.map (·.1)) ∧ (as.map (·.key)).Nodup) := by
  induction as generalizing seen start with
  | nil =>
    rw [readAttributes_eq] at h
    split at h
    · cases h
    · rename_i hread
      exact ⟨.nil (blanks_of_readAttribute hread), by simp⟩
    · cases h
  | cons a as ih =>
    rw [readAttributes_eq] at h
    split at h
    · cases h
    · cases h
    · rename_i b offset next hread
      obtain ⟨hhead, hnew⟩ := heads_of_readAttribute hread
      simp only [AttributeReading.mk.injEq, List.cons.injEq] at h
      obtain ⟨⟨rfl, hothers⟩, hfailure⟩ := h
      obtain ⟨hspells, hkeys⟩ :=
        @ih (if unique then seen ++ [(b.key, offset)] else seen) next
          (by rw [← hothers, ← hfailure])
      refine ⟨.cons hhead hspells, fun hu => ?_⟩
      obtain ⟨hold, hnodup⟩ := hkeys hu
      rw [if_pos hu] at hold
      simp only [List.map_append, List.map_cons, List.map_nil, List.mem_append,
        List.mem_singleton, not_or] at hold
      constructor
      · intro c hc
        cases hc with
        | head => exact hnew
        | tail _ hc => exact (hold c hc).1
      · refine List.nodup_cons.mpr ⟨?_, hnodup⟩
        intro hmem
        obtain ⟨c, hc, hkey⟩ := List.mem_map.mp hmem
        exact (hold c hc).2 hkey

theorem attributes_eq_iff {t : Tag} {as : List Attribute} :
    t.attributes = ⟨as, none⟩ ↔ Spells t.attributeText as ∧ (as.map (·.key)).Nodup := by
  constructor
  · intro h
    obtain ⟨hspells, hkeys⟩ := spells_of_readAttributes h
    exact ⟨hspells, (hkeys rfl).2⟩
  · rintro ⟨hspells, hnodup⟩
    exact readAttributes_of_spells hspells rfl (by simp) fun _ => hnodup

theorem allAttributes_eq_iff {t : Tag} {as : List Attribute} :
    t.allAttributes = ⟨as, none⟩ ↔ Spells t.attributeText as := by
  constructor
  · intro h
    exact (spells_of_readAttributes h).1
  · intro hspells
    exact readAttributes_of_spells hspells rfl (by simp) (by simp)

theorem isKey_of_spells {text : List Char} {as : List Attribute} (h : Spells text as) :
    ∀ a ∈ as, isKey a.key = true := by
  induction h with
  | nil => simp
  | cons hhead _ ih =>
    obtain ⟨_, _, _, _, _, _, _, _, _, _, hkey⟩ := hhead
    simpa using ⟨hkey, ih⟩

theorem Attribute.Heads.append {a : Attribute} {text next : List Char} (h : a.Heads text next)
    (more : List Char) : a.Heads (text ++ more) (next ++ more) := by
  obtain ⟨before, afterKey, afterEquals, quote, rfl, hspelled⟩ := h
  exact ⟨before, afterKey, afterEquals, quote, by simp, hspelled⟩

theorem Spells.blanks_append {blanks text : List Char} (hblanks : ∀ c ∈ blanks, isBlank c = true)
    {as : List Attribute} (h : Spells text as) : Spells (blanks ++ text) as := by
  have hall {before : List Char} (hbefore : ∀ c ∈ before, isBlank c = true) :
      ∀ c ∈ blanks ++ before, isBlank c = true := by
    intro c hc
    rcases List.mem_append.mp hc with hc | hc
    · exact hblanks c hc
    · exact hbefore c hc
  cases h with
  | nil htext => exact .nil (hall htext)
  | cons hhead hrest =>
    obtain ⟨before, afterKey, afterEquals, quote, rfl, hbefore, hspelled⟩ := hhead
    exact .cons ⟨blanks ++ before, afterKey, afterEquals, quote, by simp, hall hbefore, hspelled⟩
      hrest

theorem Spells.append {text more : List Char} {as bs : List Attribute} (h : Spells text as)
    (hmore : Spells more bs) : Spells (text ++ more) (as ++ bs) := by
  induction h with
  | nil hblanks => exact hmore.blanks_append hblanks
  | cons hhead _ ih => exact .cons (hhead.append more) ih

theorem spells_render {as : List Attribute} (hkeys : ∀ a ∈ as, isKey a.key = true)
    (hvalues : ∀ a ∈ as, '"' ∉ a.value) : Spells (as.flatMap Attribute.render) as := by
  induction as with
  | nil => exact .nil (by simp)
  | cons a as ih =>
    have hhead : a.Heads ((a :: as).flatMap Attribute.render) (as.flatMap Attribute.render) := by
      refine ⟨[' '], [], [], '"', ?_, by simp [isBlank], by simp, by simp, rfl, hvalues a (by simp),
        hkeys a (by simp)⟩
      simp [Attribute.render]
    exact .cons hhead (ih (fun b hb => hkeys b (List.mem_cons_of_mem _ hb))
      fun b hb => hvalues b (List.mem_cons_of_mem _ hb))

theorem eq_nil_of_blanks_append {blanks : List Char} (h : ∀ c ∈ blanks, isBlank c = true)
    {c d : Char} {cs ds : List Char} (hd : isBlank d = false) (heq : d :: ds = blanks ++ c :: cs) :
    blanks = [] ∧ d = c ∧ ds = cs := by
  cases blanks with
  | nil => simpa using heq
  | cons b blanks =>
    obtain ⟨rfl, -⟩ := List.cons.inj heq
    rw [h d (by simp)] at hd
    cases hd

theorem eq_space_of_key_append {before key cs ds : List Char}
    (hbefore : ∀ c ∈ before, isBlank c = true) (hkey : isKey key = true)
    (heq : ' ' :: (key ++ ds) = before ++ (key ++ cs)) : before = [' '] ∧ ds = cs := by
  obtain ⟨c, key, rfl, hc, -⟩ := exists_of_isKey hkey
  cases before with
  | nil =>
    obtain ⟨rfl, -⟩ := List.cons.inj heq
    cases hc
  | cons b before =>
    obtain ⟨rfl, htail⟩ := List.cons.inj heq
    obtain ⟨rfl, -, hrest⟩ :=
      eq_nil_of_blanks_append (fun x hx => hbefore x (List.mem_cons_of_mem _ hx)) hc htail
    exact ⟨rfl, List.append_cancel_left hrest⟩

theorem eq_render_of_spells {text : List Char} {as : List Attribute} (h : Spells text as)
    {rest other : List Char} {c : Char} (hc : isBlank c = false)
    (heq : as.flatMap Attribute.render ++ c :: rest = text ++ other) :
    text = as.flatMap Attribute.render ∧ ∀ a ∈ as, '"' ∉ a.value := by
  induction h with
  | @nil text hblanks =>
    refine ⟨?_, by simp⟩
    cases text with
    | nil => rfl
    | cons b text =>
      obtain ⟨rfl, -⟩ := List.cons.inj heq
      rw [hblanks c (by simp)] at hc
      cases hc
  | @cons text next a as hhead _ ih =>
    obtain ⟨before, afterKey, afterEquals, quote, rfl, hbefore, hafter, hequals, hquote, hvalue,
      hkey⟩ := hhead
    have hrender : (a :: as).flatMap Attribute.render ++ c :: rest =
        ' ' :: (a.key ++ ('=' :: '"' :: (a.value ++ '"' ::
          (as.flatMap Attribute.render ++ c :: rest)))) := by
      simp [Attribute.render]
    rw [hrender] at heq
    simp only [List.append_assoc, List.cons_append] at heq
    obtain ⟨rfl, hkeyRest⟩ := eq_space_of_key_append hbefore hkey heq
    obtain ⟨rfl, -, hequalsRest⟩ := eq_nil_of_blanks_append hafter (by decide) hkeyRest
    obtain ⟨rfl, rfl, hquoteRest⟩ := eq_nil_of_blanks_append hequals (by decide) hequalsRest
    obtain ⟨-, hnext⟩ := List.cons.inj (List.append_cancel_left hquoteRest)
    obtain ⟨rfl, hothers⟩ := ih hnext
    refine ⟨by simp [Attribute.render], ?_⟩
    simpa using ⟨hvalue, hothers⟩

def isTagPlain (c : Char) : Bool :=
  c != '>' && !isQuote c

theorem quoteAfter_plain_append {cs : List Char} (h : ∀ c ∈ cs, isTagPlain c = true)
    (rest : List Char) : quoteAfter none (cs ++ rest) = quoteAfter none rest := by
  induction cs with
  | nil => rfl
  | cons c cs ih =>
    have hc : isTagPlain c = true := h c (List.mem_cons_self ..)
    simp only [isTagPlain, isQuote, Bool.and_eq_true, bne_iff_ne, ne_eq, Bool.not_eq_true',
      Bool.or_eq_false_iff, beq_eq_false_iff_ne] at hc
    have hnext : nextQuote none c = none := by simp [nextQuote, hc]
    rw [List.cons_append, quoteAfter, if_neg (by simp [hc]), hnext]
    exact ih fun x hx => h x (List.mem_cons_of_mem _ hx)

theorem quoteAfter_value_append {q : Char} {value : List Char} (h : q ∉ value)
    (rest : List Char) : quoteAfter (some q) (value ++ q :: rest) = quoteAfter none rest := by
  induction value with
  | nil => simp [quoteAfter, nextQuote]
  | cons c value ih =>
    obtain ⟨hne, hrest⟩ := not_or.mp (mt List.mem_cons.mpr h)
    rw [List.cons_append, quoteAfter, if_neg (by simp), nextQuote, if_neg (Ne.symm hne)]
    exact ih hrest

theorem quoteAfter_render_append {a : Attribute} (hkey : ∀ c ∈ a.key, isTagPlain c = true)
    (hvalue : '"' ∉ a.value) (rest : List Char) :
    quoteAfter none (a.render ++ rest) = quoteAfter none rest := by
  have hrender : a.render ++ rest =
      (' ' :: a.key ++ ['=']) ++ ('"' :: (a.value ++ '"' :: rest)) := by
    simp [Attribute.render]
  have hplain : ∀ c ∈ ' ' :: a.key ++ ['='], isTagPlain c = true := by
    intro c hc
    rcases List.mem_append.mp hc with hc | hc
    · cases hc with
      | head => rfl
      | tail _ hc => exact hkey c hc
    · obtain rfl := List.mem_singleton.mp hc
      rfl
  rw [hrender, quoteAfter_plain_append hplain]
  exact quoteAfter_value_append hvalue rest

theorem quoteAfter_renders_append {as : List Attribute}
    (hkeys : ∀ a ∈ as, ∀ c ∈ a.key, isTagPlain c = true) (hvalues : ∀ a ∈ as, '"' ∉ a.value)
    (rest : List Char) :
    quoteAfter none (as.flatMap Attribute.render ++ rest) = quoteAfter none rest := by
  induction as with
  | nil => rfl
  | cons a as ih =>
    rw [List.flatMap_cons, List.append_assoc,
      quoteAfter_render_append (hkeys a (List.mem_cons_self ..)) (hvalues a (List.mem_cons_self ..))]
    exact ih (fun b hb => hkeys b (List.mem_cons_of_mem _ hb))
      fun b hb => hvalues b (List.mem_cons_of_mem _ hb)

theorem closes_ofAttributes {name : List Char} {as : List Attribute} (hne : name ≠ [])
    (hlast : name.getLast? ≠ some '/') (hname : ∀ c ∈ name, isTagPlain c = true)
    (hkeys : ∀ a ∈ as, ∀ c ∈ a.key, isTagPlain c = true) (hvalues : ∀ a ∈ as, '"' ∉ a.value)
    (closed : Bool) : (Tag.ofAttributes name as).Closes closed := by
  refine ⟨?_, ?_⟩
  · have hquote := quoteAfter_renders_append hkeys hvalues []
    rw [List.append_nil] at hquote
    exact (quoteAfter_plain_append hname _).trans hquote
  · cases closed with
    | true => exact fun hnil => hne (List.append_eq_nil_iff.mp hnil).1
    | false =>
      intro hslash
      change (name ++ as.flatMap Attribute.render).getLast? = _ at hslash
      rcases List.eq_nil_or_concat as with rfl | ⟨others, a, rfl⟩
      · rw [List.flatMap_nil, List.append_nil] at hslash
        exact hlast hslash
      · have hrender : (others.concat a).flatMap Attribute.render =
            (others.flatMap Attribute.render ++ (' ' :: (a.key ++ '=' :: '"' :: a.value))) ++
              ['"'] := by
          simp [Attribute.render]
        rw [hrender, ← List.append_assoc, List.getLast?_concat] at hslash
        exact absurd (Option.some.inj hslash) (by decide)

theorem quoteAfter_inside {cs : List Char} (h : ∀ c ∈ cs, isQuote c = false) {q : Char}
    (hq : isQuote q = true) (rest : List Char) :
    quoteAfter (some q) (cs ++ rest) = quoteAfter (some q) rest := by
  induction cs with
  | nil => rfl
  | cons c cs ih =>
    have hne : c ≠ q := by
      rintro rfl
      rw [h c (List.mem_cons_self ..)] at hq
      cases hq
    rw [List.cons_append, quoteAfter, if_neg (by simp), nextQuote, if_neg hne]
    exact ih fun x hx => h x (List.mem_cons_of_mem _ hx)

theorem quoteAfter_ne_of_notMem {q : Char} {cs : List Char} (h : q ∉ cs)
    {quote next : Option Char} (hne : quote ≠ some q) (hnext : quoteAfter quote cs = some next) :
    next ≠ some q := by
  induction cs generalizing quote with
  | nil =>
    obtain rfl := Option.some.inj hnext
    exact hne
  | cons c cs ih =>
    obtain ⟨hc, hcs⟩ := not_or.mp (mt List.mem_cons.mpr h)
    rw [quoteAfter, Option.ite_none_left_eq_some] at hnext
    refine ih hcs ?_ hnext.2
    cases quote with
    | none =>
      simp only [nextQuote]
      split
      · exact fun heq => hc (Option.some.inj heq).symm
      · simp
    | some p =>
      simp only [nextQuote]
      split
      · simp
      · exact hne

theorem quoteAfter_none_of_no_quotes {cs : List Char} (h : ∀ c ∈ cs, isQuote c = false)
    {next : Option Char} (hnext : quoteAfter none cs = some next) :
    ∀ c ∈ cs, isTagPlain c = true := by
  induction cs with
  | nil => simp
  | cons c cs ih =>
    have hc := h c (List.mem_cons_self ..)
    have hstep : nextQuote none c = none := by
      have hnot : ¬ (c = '"' ∨ c = '\'') := by simpa [isQuote] using hc
      rw [nextQuote, if_neg hnot]
    rw [quoteAfter, Option.ite_none_left_eq_some, hstep] at hnext
    have hplain : isTagPlain c = true := by
      have hgt : c ≠ '>' := fun heq => hnext.1 ⟨heq, rfl⟩
      simp [isTagPlain, hgt, hc]
    have hothers := ih (fun x hx => h x (List.mem_cons_of_mem _ hx)) hnext.2
    exact List.forall_mem_cons.mpr ⟨hplain, hothers⟩

theorem isQuote_of_isBlank {c : Char} (h : isBlank c = true) : isQuote c = false := by
  cases hq : isQuote c with
  | false => rfl
  | true =>
    rw [isBlank_of_isQuote hq] at h
    cases h

theorem Attribute.Heads.exists_lead {a : Attribute} {text next : List Char} (h : a.Heads text next)
    (hkey : ∀ c ∈ a.key, isQuote c = false) :
    ∃ lead q, text = lead ++ (q :: (a.value ++ q :: next)) ∧ (∀ c ∈ lead, isQuote c = false) ∧
      (∀ c ∈ a.key, c ∈ lead) ∧ isQuote q = true ∧ q ∉ a.value := by
  obtain ⟨before, afterKey, afterEquals, q, rfl, hbefore, hafter, hequals, hq, hvalue, -⟩ := h
  refine ⟨before ++ (a.key ++ (afterKey ++ '=' :: afterEquals)), q, by simp, ?_, ?_, hq, hvalue⟩
  · intro c hc
    simp only [List.mem_append, List.mem_cons] at hc
    rcases hc with hc | hc | hc | rfl | hc
    · exact isQuote_of_isBlank (hbefore c hc)
    · exact hkey c hc
    · exact isQuote_of_isBlank (hafter c hc)
    · rfl
    · exact isQuote_of_isBlank (hequals c hc)
  · intro c hc
    simp [hc]

theorem isSome_of_quoteAfter_spells {text : List Char} {as : List Attribute} (h : Spells text as)
    (hkeys : ∀ a ∈ as, ∀ c ∈ a.key, isQuote c = false) {q : Char} (hq : isQuote q = true)
    {next : Option Char} (hnext : quoteAfter (some q) text = some next) : next.isSome = true := by
  induction h generalizing q with
  | @nil text hblanks =>
    have hinside := quoteAfter_inside (fun c hc => isQuote_of_isBlank (hblanks c hc)) hq []
    rw [List.append_nil] at hinside
    rw [hinside] at hnext
    cases hnext
    rfl
  | @cons text rest a as hhead _ ih =>
    obtain ⟨lead, p, rfl, hlead, -, hp, hvalue⟩ :=
      hhead.exists_lead (hkeys a (List.mem_cons_self ..))
    have hothers : ∀ b ∈ as, ∀ c ∈ b.key, isQuote c = false :=
      fun b hb => hkeys b (List.mem_cons_of_mem _ hb)
    rw [quoteAfter_inside hlead hq, quoteAfter, if_neg (by simp), quoteAfter_append] at hnext
    obtain ⟨inner, hinner, hrest⟩ := Option.bind_eq_some_iff.mp hnext
    rw [quoteAfter, Option.ite_none_left_eq_some] at hrest
    have hstate : ∀ r, nextQuote (some q) p = some r → isQuote r = true := by
      intro r hr
      exact isQuote_of_nextQuote (fun x hx => Option.some.inj hx ▸ hq) hr
    have hne : nextQuote (some q) p ≠ some p := by
      rw [nextQuote]
      split
      · simp
      · rename_i hpq
        exact fun heq => hpq (Option.some.inj heq).symm
    have hinnerNe := quoteAfter_ne_of_notMem hvalue hne hinner
    cases inner with
    | none =>
      rw [show nextQuote none p = some p by
        rw [nextQuote, if_pos (by simpa [isQuote] using hp)]] at hrest
      exact ih hothers hp hrest.2
    | some r =>
      have hr : isQuote r = true := isQuote_of_quoteAfter hstate hinner
      rw [show nextQuote (some r) p = some r by
        rw [nextQuote, if_neg (fun heq => hinnerNe (by rw [heq]))]] at hrest
      exact ih hothers hr hrest.2

theorem isTagPlain_of_quoteAfter_spells {text : List Char} {as : List Attribute}
    (h : Spells text as) (hkeys : ∀ a ∈ as, ∀ c ∈ a.key, isQuote c = false)
    {next : Option Char} (hnext : quoteAfter none text = some next) :
    ∀ a ∈ as, ∀ c ∈ a.key, isTagPlain c = true := by
  induction h with
  | nil => simp
  | @cons text rest a as hhead _ ih =>
    obtain ⟨lead, p, rfl, hlead, hkeyLead, hp, hvalue⟩ :=
      hhead.exists_lead (hkeys a (List.mem_cons_self ..))
    rw [quoteAfter_append] at hnext
    obtain ⟨quote, hquote, hrest⟩ := Option.bind_eq_some_iff.mp hnext
    have hplain := quoteAfter_none_of_no_quotes hlead hquote
    have hnone := quoteAfter_plain_append hplain []
    rw [List.append_nil, hquote] at hnone
    obtain rfl : quote = none := Option.some.inj hnone
    rw [quoteAfter, Option.ite_none_left_eq_some, nextQuote,
      if_pos (show p = '"' ∨ p = '\'' by simpa [isQuote] using hp),
      quoteAfter_value_append hvalue] at hrest
    refine List.forall_mem_cons.mpr ⟨fun c hc => hplain c (hkeyLead c hc), ?_⟩
    exact ih (fun b hb => hkeys b (List.mem_cons_of_mem _ hb)) hrest.2

theorem isTagPlain_of_closes {t : Tag} {closed : Bool} (hcloses : t.Closes closed)
    {as : List Attribute} (hspells : Spells t.attributeText as)
    (hkeys : ∀ a ∈ as, ∀ c ∈ a.key, isQuote c = false) :
    ∀ a ∈ as, ∀ c ∈ a.key, isTagPlain c = true := by
  have hquote := hcloses.1
  rw [Tag.content, quoteAfter_append] at hquote
  obtain ⟨quote, hname, htext⟩ := Option.bind_eq_some_iff.mp hquote
  cases quote with
  | none => exact isTagPlain_of_quoteAfter_spells hspells hkeys htext
  | some q =>
    have hq := isQuote_of_quoteAfter (by simp) hname
    have := isSome_of_quoteAfter_spells hspells hkeys hq htext
    cases this

end StaticSite.Xml
