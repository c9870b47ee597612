import Mathlib.Data.List.TakeWhile
import Mathlib.Data.Nat.Digits.Defs
import StaticSite.Proofs.Except
import StaticSite.Xml.Reference

namespace StaticSite.Xml
open StaticSite.Text

def Numeral (base : Nat) (cs : List Char) (n : Nat) : Prop :=
  cs ≠ [] ∧ ∃ ds : List Nat, cs.map (digit? base) = ds.map some ∧ n = Nat.ofDigits base ds.reverse

inductive CharacterReference : List Char → Nat → Prop where
  | decimal {digits : List Char} {code : Nat} : Numeral 10 digits code →
    CharacterReference ('#' :: digits) code
  | hexadecimal {digits : List Char} {code : Nat} : Numeral 16 digits code →
    CharacterReference ('#' :: 'x' :: digits) code

theorem ofDigits_reverse (base : Nat) (ds : List Nat) :
    Nat.ofDigits base ds.reverse = ds.foldl (fun n d => n * base + d) 0 := by
  rw [Nat.ofDigits_eq_foldr, List.foldr_reverse]
  simp [Nat.add_comm, Nat.mul_comm]

theorem le_foldl_digits {base : Nat} (hbase : 0 < base) (code : Nat) (ds : List Nat) :
    code ≤ ds.foldl (fun n d => n * base + d) code := by
  induction ds generalizing code with
  | nil => exact Nat.le_refl _
  | cons d ds ih =>
    have hstep : code ≤ code * base + d :=
      Nat.le_trans (Nat.le_mul_of_pos_right code hbase) (Nat.le_add_right _ _)
    exact Nat.le_trans hstep (ih _)

theorem readDigits_eq_ok_iff {base : Nat} (hbase : 0 < base) {code n : Nat}
    (hcode : code < 4294967296) {cs : List Char} :
    readDigits base code cs = .ok n ↔ ∃ ds : List Nat, cs.map (digit? base) = ds.map some ∧
      n = ds.foldl (fun n d => n * base + d) code ∧ n < 4294967296 := by
  induction cs generalizing code with
  | nil =>
    simp only [readDigits, Except.ok.injEq, List.map_nil]
    constructor
    · rintro rfl
      exact ⟨[], rfl, rfl, hcode⟩
    · rintro ⟨ds, hds, rfl, -⟩
      obtain rfl := List.map_eq_nil_iff.mp hds.symm
      rfl
  | cons c cs ih =>
    rw [readDigits]
    cases hd : digit? base c with
    | none =>
      simp only [List.map_cons, hd, reduceCtorEq, false_iff]
      rintro ⟨ds, hds, -⟩
      cases ds <;> cases hds
    | some d =>
      simp only [List.map_cons, hd]
      constructor
      · intro h
        split at h
        · rename_i hbound
          obtain ⟨ds, hds, hn, hlt⟩ := (ih hbound).mp h
          exact ⟨d :: ds, by rw [hds, List.map_cons], hn, hlt⟩
        · cases h
      · rintro ⟨ds, hds, hn, hlt⟩
        cases ds with
        | nil => cases hds
        | cons e ds =>
          obtain ⟨he, hrest⟩ := List.cons.inj hds
          obtain rfl := Option.some.inj he
          have hbound : code * base + d < 4294967296 :=
            Nat.lt_of_le_of_lt (le_foldl_digits hbase _ ds) (hn ▸ hlt)
          rw [if_pos hbound]
          exact (ih hbound).mpr ⟨ds, hrest, hn, hlt⟩

theorem readNumber_eq_ok_iff {base : Nat} (hbase : 0 < base) {cs : List Char} {n : Nat} :
    readNumber base cs = .ok n ↔ Numeral base cs n ∧ n < 4294967296 := by
  have hdigits (h : cs ≠ []) :
      readDigits base 0 cs = .ok n ↔ Numeral base cs n ∧ n < 4294967296 := by
    rw [readDigits_eq_ok_iff hbase (by decide)]
    simp only [Numeral, ofDigits_reverse]
    constructor
    · rintro ⟨ds, hds, hn, hlt⟩
      exact ⟨⟨h, ds, hds, hn⟩, hlt⟩
    · rintro ⟨⟨-, ds, hds, hn⟩, hlt⟩
      exact ⟨ds, hds, hn, hlt⟩
  have hsign {c : Char} {cs : List Char} (hc : hexDigit? c = none) : ¬ Numeral base (c :: cs) n := by
    rintro ⟨-, ds, hds, -⟩
    have hnone : digit? base c = none := by rw [digit?, hc]; rfl
    rw [List.map_cons, hnone] at hds
    cases ds <;> cases hds
  unfold readNumber
  split
  · simp [Numeral]
  · simp [hsign (show hexDigit? '+' = none from by decide)]
  · simp [hsign (show hexDigit? '-' = none from by decide)]
  · rename_i hne _ _
    exact hdigits fun h => hne h

theorem characterReference_iff {cs : List Char} {code : Nat} :
    CharacterReference ('#' :: cs) code ↔
      Numeral 10 cs code ∨ ∃ digits, cs = 'x' :: digits ∧ Numeral 16 digits code := by
  constructor
  · rintro (h | h)
    · exact .inl h
    · exact .inr ⟨_, rfl, h⟩
  · rintro (h | ⟨digits, rfl, h⟩)
    · exact .decimal h
    · exact .hexadecimal h

theorem not_numeral_x (cs : List Char) (code : Nat) : ¬ Numeral 10 ('x' :: cs) code := by
  rintro ⟨-, ds, hds, -⟩
  rw [List.map_cons, show digit? 10 'x' = none from by decide] at hds
  cases ds <;> cases hds

theorem char_of_code {code : Nat} {c : Char} :
    (if code = 0 then .error CodeError.zero
      else if code.isValidChar then .ok (Char.ofNat code) else .error (.notScalar code)) =
        Except.ok c ↔ code = c.toNat ∧ c ≠ '\x00' := by
  constructor
  · intro h
    split at h
    · cases h
    · rename_i hzero
      split at h
      · rename_i hvalid
        have hsame : c.toNat = code := by
          rw [← Except.ok.inj h, Char.ofNat, dif_pos hvalid]
          rfl
        refine ⟨hsame.symm, ?_⟩
        rintro rfl
        exact hzero hsame.symm
      · cases h
  · rintro ⟨rfl, hne⟩
    have hzero : c.toNat ≠ 0 := fun h => hne (Char.toNat_inj.mp h)
    rw [if_neg hzero, if_pos (show c.toNat.isValidChar from c.valid), Char.ofNat_toNat]

theorem readNumber_eq_ok_toNat_iff {base : Nat} (hbase : 0 < base) {cs : List Char} {c : Char} :
    readNumber base cs = .ok c.toNat ↔ Numeral base cs c.toNat := by
  have hvalid : c.toNat.isValidChar := c.valid
  have hlt : c.toNat < 4294967296 := by
    simp only [Nat.isValidChar] at hvalid
    omega
  simp [readNumber_eq_ok_iff hbase, hlt]

theorem readCode_eq_ok_iff {cs : List Char} {c : Char} :
    readCode cs = .ok c ↔ CharacterReference ('#' :: cs) c.toNat ∧ c ≠ '\x00' := by
  have hnumber {base : Nat} (hbase : 0 < base) (digits : List Char) :
      (∃ code, readNumber base digits = .ok code ∧ code = c.toNat ∧ c ≠ '\x00') ↔
        Numeral base digits c.toNat ∧ c ≠ '\x00' := by
    rw [← readNumber_eq_ok_toNat_iff hbase]
    simp
  rw [characterReference_iff]
  unfold readCode
  split
  · rename_i digits
    simp only [not_numeral_x, false_or, List.cons.injEq, true_and, exists_eq_left']
    rw [← hnumber (by decide)]
    cases readNumber 16 digits with
    | error e => simp
    | ok code => simp [char_of_code]
  · rename_i hne
    have hnot : ¬ ∃ digits, cs = 'x' :: digits ∧ Numeral 16 digits c.toNat := by
      rintro ⟨digits, rfl, -⟩
      exact hne digits rfl
    rw [or_iff_left hnot, ← hnumber (by decide)]
    cases readNumber 10 cs with
    | error e => simp
    | ok code => simp [char_of_code]

def predefinedNames : List (List Char) :=
  ["lt".toList, "gt".toList, "amp".toList, "apos".toList, "quot".toList]

theorem isSome_predefined?_iff {name : List Char} :
    (predefined? name).isSome = true ↔ name ∈ predefinedNames := by
  unfold predefined?
  repeat' split
  all_goals simp_all [predefinedNames]

def Resolves (name : List Char) : Prop :=
  name ∈ predefinedNames ∨ ∃ c : Char, CharacterReference name c.toNat ∧ c ≠ '\x00'

theorem resolves_iff {name : List Char} (start : Nat) :
    Resolves name ↔ ∃ c, resolve start name = .ok c := by
  unfold resolve Resolves
  split
  · rename_i code
    have hnot : '#' :: code ∉ predefinedNames := by simp [predefinedNames]
    simp only [hnot, false_or, mapError_eq_ok_iff, readCode_eq_ok_iff]
  · rename_i hhash
    have hnot : ¬ ∃ c : Char, CharacterReference name c.toNat ∧ c ≠ '\x00' := by
      rintro ⟨c, h, -⟩
      cases h <;> exact hhash _ rfl
    rw [or_iff_left hnot, ← isSome_predefined?_iff]
    cases predefined? name <;> simp

/-- The references of a value in order, if each has its end. With a name, the value goes on inside
the reference of which that much was read. -/
def referencesFrom : Option (List Char) → List Char → Option (List (List Char))
  | none, [] => some []
  | some _, [] => none
  | none, c :: cs => if c = '&' then referencesFrom (some []) cs else referencesFrom none cs
  | some name, c :: cs =>
    if c = ';' then (referencesFrom none cs).map (name :: ·)
    else if c = '&' then none
    else referencesFrom (some (name ++ [c])) cs

def references (value : List Char) : Option (List (List Char)) :=
  referencesFrom none value

theorem referencesFrom_name {name : List Char} (hname : ∀ c ∈ name, (c != ';' && c != '&') = true)
    (before rest : List Char) : referencesFrom (some before) (name ++ rest) =
      referencesFrom (some (before ++ name)) rest := by
  induction name generalizing before with
  | nil => simp
  | cons c name ih =>
    obtain ⟨hc, hrest⟩ := List.forall_mem_cons.mp hname
    simp only [Bool.and_eq_true, bne_iff_ne, ne_eq] at hc
    rw [List.cons_append, referencesFrom, if_neg hc.1, if_neg hc.2, ih hrest]
    simp

theorem referencesFrom_append {before : Option (List Char)} {cs : List Char}
    {names : List (List Char)} (h : referencesFrom before cs = some names) (ds : List Char) :
    referencesFrom before (cs ++ ds) = (references ds).map (names ++ ·) := by
  fun_induction referencesFrom before cs generalizing names with
  | case1 =>
    obtain rfl := Option.some.inj h
    simp [references]
  | case2 => cases h
  | case3 cs ih => rw [List.cons_append, referencesFrom, if_pos rfl, ih h]
  | case4 c cs hc ih => rw [List.cons_append, referencesFrom, if_neg hc, ih h]
  | case5 name cs ih =>
    obtain ⟨others, hothers, rfl⟩ := Option.map_eq_some_iff.mp h
    rw [List.cons_append, referencesFrom, if_pos rfl, ih hothers, Option.map_map]
    rfl
  | case6 => cases h
  | case7 name c cs hc hamp ih =>
    rw [List.cons_append, referencesFrom, if_neg hc, if_neg hamp, ih h]

theorem references_append {cs : List Char} {names : List (List Char)}
    (h : references cs = some names) (ds : List Char) :
    references (cs ++ ds) = (references ds).map (names ++ ·) :=
  referencesFrom_append h ds

theorem references_reference {name : List Char}
    (hname : ∀ c ∈ name, (c != ';' && c != '&') = true) (rest : List Char) :
    references ('&' :: (name ++ ';' :: rest)) = (references rest).map (name :: ·) := by
  rw [references, referencesFrom, if_pos rfl, referencesFrom_name hname, referencesFrom, if_pos rfl]
  rfl

theorem references_unterminated {name rest : List Char}
    (hname : ∀ c ∈ name, (c != ';' && c != '&') = true) (hrest : rest.head? ≠ some ';')
    (hstop : ∀ c, rest.head? = some c → (c != ';' && c != '&') = false) :
    references ('&' :: (name ++ rest)) = none := by
  rw [references, referencesFrom, if_pos rfl, referencesFrom_name hname]
  cases rest with
  | nil => rfl
  | cons c rest =>
    have hsemicolon : c ≠ ';' := fun h => hrest (by rw [h]; rfl)
    have hamp : c = '&' := by simpa [hsemicolon] using hstop c rfl
    rw [referencesFrom, if_neg hsemicolon, if_pos hamp]

theorem unescapeFrom_eq_ok_iff {total offset : Nat} {cs : List Char} :
    (∃ text, unescapeFrom total offset cs = .ok text) ↔
      ∃ names, references cs = some names ∧ ∀ name ∈ names, Resolves name := by
  fun_induction unescapeFrom total offset cs with
  | case1 => simp [references, referencesFrom]
  | case2 offset cs inName name rest hrest ih =>
    have hname : ∀ c ∈ name, inName c = true := fun c hc => List.mem_takeWhile_imp hc
    have hcs : cs = name ++ ';' :: rest := by rw [← hrest, List.takeWhile_append_dropWhile]
    rw [hcs, references_reference hname]
    simp only [bind_eq_ok_iff, Except.ok.injEq, Option.map_eq_some_iff]
    constructor
    · rintro ⟨text, c, hc, others, hothers, rfl⟩
      obtain ⟨names, hnames, hall⟩ := ih.mp ⟨others, hothers⟩
      exact ⟨_, ⟨names, hnames, rfl⟩,
        List.forall_mem_cons.mpr ⟨(resolves_iff offset).mpr ⟨c, hc⟩, hall⟩⟩
    · rintro ⟨_, ⟨names, hnames, rfl⟩, hall⟩
      obtain ⟨hfirst, hrest⟩ := List.forall_mem_cons.mp hall
      obtain ⟨c, hc⟩ := (resolves_iff offset).mp hfirst
      obtain ⟨others, hothers⟩ := ih.mpr ⟨names, hnames, hrest⟩
      exact ⟨_, c, hc, others, hothers, rfl⟩
  | case3 offset cs inName hnot =>
    have hname : ∀ c ∈ cs.takeWhile inName, inName c = true := fun c hc => List.mem_takeWhile_imp hc
    have hnone : references ('&' :: (cs.takeWhile inName ++ cs.dropWhile inName)) = none := by
      refine references_unterminated hname ?_ ?_
      · intro hhead
        obtain ⟨rest, hrest⟩ := List.head?_eq_some_iff.mp hhead
        exact hnot rest hrest
      · intro c hc
        have hstop := List.head?_dropWhile_not inName cs
        rw [hc] at hstop
        have hin : inName c = false := by simpa using hstop
        exact hin
    rw [List.takeWhile_append_dropWhile] at hnone
    simp [hnone]
  | case4 offset c cs hc ih =>
    have hsame : references (c :: cs) = references cs := by
      rw [references, referencesFrom, if_neg hc, references]
    rw [hsame, ← ih]
    cases unescapeFrom total (offset + c.utf8Size) cs <;> simp [Except.map]

theorem unescape_eq_ok_iff {value : List Char} : (∃ text, unescape value = .ok text) ↔
    ∃ names, references value = some names ∧ ∀ name ∈ names, Resolves name :=
  unescapeFrom_eq_ok_iff

theorem unescape_insert_iff {before after name : List Char}
    (hname : ∀ c ∈ name, (c != ';' && c != '&') = true)
    (hbefore : ∃ text, unescape before = .ok text)
    (hvalue : ∃ text, unescape (before ++ after) = .ok text) :
    (∃ text, unescape (before ++ ('&' :: (name ++ ';' :: after))) = .ok text) ↔ Resolves name := by
  obtain ⟨front, hfront, hfronts⟩ := unescape_eq_ok_iff.mp hbefore
  obtain ⟨all, hall, halls⟩ := unescape_eq_ok_iff.mp hvalue
  rw [references_append hfront, Option.map_eq_some_iff] at hall
  obtain ⟨back, hback, rfl⟩ := hall
  have hbacks : ∀ n ∈ back, Resolves n := fun n hn => halls n (List.mem_append_right _ hn)
  have hinserted : references (before ++ ('&' :: (name ++ ';' :: after))) =
      some (front ++ name :: back) := by
    rw [references_append hfront, references_reference hname, hback]
    rfl
  rw [unescape_eq_ok_iff, hinserted]
  constructor
  · rintro ⟨names, hnames, hresolves⟩
    obtain rfl := Option.some.inj hnames
    exact hresolves name (by simp)
  · intro hresolves
    refine ⟨_, rfl, fun n hn => ?_⟩
    rcases List.mem_append.mp hn with hn | hn
    · exact hfronts n hn
    · rcases List.mem_cons.mp hn with rfl | hn
      · exact hresolves
      · exact hbacks n hn

def IsLegalCode (code : Nat) : Prop :=
  code = 0x9 ∨ code = 0xA ∨ code = 0xD ∨ 0x20 ≤ code ∧ code ≤ 0xD7FF ∨
    0xE000 ≤ code ∧ code ≤ 0xFFFD ∨ 0x10000 ≤ code ∧ code ≤ 0x10FFFF

def IsLegal (name : List Char) : Prop :=
  name ∈ predefinedNames ∨ ∃ code, CharacterReference name code ∧ IsLegalCode code

theorem resolves_of_isLegal {name : List Char} (h : IsLegal name) : Resolves name := by
  rcases h with h | ⟨code, h, hlegal⟩
  · exact .inl h
  · have hvalid : code.isValidChar := by
      simp only [IsLegalCode, Nat.isValidChar] at hlegal ⊢
      omega
    have hcode : (Char.ofNat code).toNat = code := by
      rw [Char.ofNat, dif_pos hvalid]
      rfl
    refine .inr ⟨Char.ofNat code, by rwa [hcode], fun hzero => ?_⟩
    have hnul : code = 0 := by
      rw [← hcode, hzero]
      rfl
    simp [IsLegalCode, hnul] at hlegal

theorem head_of_characterReference {name : List Char} {code : Nat}
    (h : CharacterReference name code) : name.head? = some '#' := by
  cases h <;> rfl

end StaticSite.Xml
