import Mathlib
import StaticSite.Config.Stated
import StaticSite.Proofs.Except

/-!
What is left of a configured text when its variables are replaced. It is made of references in braces
and characters that are copied, as long as no dollar sign among these stands before a name or another
dollar sign.
-/

namespace StaticSite.Config
open StaticSite.Text

variable {env : Environment} {c : Char} {cs inner rest : List Char}

def reference? (cs : List Char) : Option (List Char × List Char) :=
  (after? "$\x7b".toList cs).bind (splitAt? ['\x7d'])

theorem eq_of_reference? (h : reference? cs = some (inner, rest)) :
    cs = "$\x7b".toList ++ inner ++ '\x7d' :: rest := by
  obtain ⟨body, hbody, hsplit⟩ := Option.bind_eq_some_iff.mp h
  rw [after?_eq_some_iff.mp hbody, eq_of_splitAt?_eq_some hsplit]
  simp

inductive Part where
  | copied (c : Char)
  | reference (name : List Char) (default : Option (List Char))
  deriving DecidableEq, Repr

namespace Part

def text : Part → List Char
  | .copied c => [c]
  | .reference name none => "$\x7b".toList ++ name ++ ['\x7d']
  | .reference name (some default) =>
    "$\x7b".toList ++ (name ++ ":-".toList ++ default) ++ ['\x7d']

def value (env : Environment) : Part → List Char
  | .copied c => [c]
  | .reference name default => (env.text? name).getD (default.getD [])

end Part

def parts (cs : List Char) : List Part :=
  match cs with
  | [] => []
  | c :: cs =>
    match _h : reference? (c :: cs) with
    | some (inner, rest) =>
      .reference (nameAndDefault inner).1 (nameAndDefault inner).2 :: parts rest
    | none => .copied c :: parts cs
termination_by cs.length
decreasing_by
  · rw [eq_of_reference? _h]
    simp only [List.length_append, List.length_cons]
    omega
  · simp

def HasBare (cs : List Char) : Prop :=
  ∃ before after c, parts cs = before ++ .copied '$' :: after ∧
    (after.flatMap Part.text).head? = some c ∧ (c = '$' ∨ isNameChar c = true)

theorem parts_reference (h : reference? cs = some (inner, rest)) :
    parts cs = .reference (nameAndDefault inner).1 (nameAndDefault inner).2 :: parts rest := by
  obtain rfl := eq_of_reference? h
  change reference? ('$' :: _) = _ at h
  change parts ('$' :: _) = _
  rw [parts]
  split
  · rename_i inner' rest' h'
    obtain ⟨rfl, rfl⟩ := Prod.mk.inj (Option.some.inj (h'.symm.trans h))
    rfl
  · rename_i h'
    cases h'.symm.trans h

theorem parts_copied (h : reference? (c :: cs) = none) : parts (c :: cs) = .copied c :: parts cs := by
  rw [parts]
  split
  · rename_i h'
    cases h'.symm.trans h
  · rfl

theorem text_nameAndDefault (inner : List Char) :
    (Part.reference (nameAndDefault inner).1 (nameAndDefault inner).2).text =
      "$\x7b".toList ++ inner ++ ['\x7d'] := by
  unfold nameAndDefault
  split
  · rename_i hsplit
    rw [eq_of_splitAt?_eq_some hsplit]
    rfl
  · rfl

theorem text_parts (cs : List Char) : (parts cs).flatMap Part.text = cs := by
  fun_induction parts cs with
  | case1 => rfl
  | case2 c cs inner rest h ih =>
    rw [List.flatMap_cons, ih, text_nameAndDefault, eq_of_reference? h]
    simp
  | case3 c cs h ih =>
    rw [List.flatMap_cons, ih]
    rfl

example : parts "$$\x7bA:-b\x7d".toList = [.copied '$', .reference ['A'] (some ['b'])] := by cbv

theorem hasBare_reference (h : reference? cs = some (inner, rest)) : HasBare cs ↔ HasBare rest := by
  unfold HasBare
  rw [parts_reference h]
  constructor
  · rintro ⟨before, after, c, hparts, hc⟩
    rcases List.cons_eq_append_iff.mp hparts with ⟨-, hcopied⟩ | ⟨before, -, hparts⟩
    · cases hcopied
    · exact ⟨before, after, c, hparts, hc⟩
  · rintro ⟨before, after, c, hparts, hc⟩
    exact ⟨_ :: before, after, c, congrArg (_ :: ·) hparts, hc⟩

theorem hasBare_copied (h : reference? (c :: cs) = none) : HasBare (c :: cs) ↔
    (c = '$' ∧ ∃ d ∈ cs.head?, d = '$' ∨ isNameChar d = true) ∨ HasBare cs := by
  unfold HasBare
  rw [parts_copied h]
  constructor
  · rintro ⟨before, after, d, hparts, hd⟩
    rcases List.cons_eq_append_iff.mp hparts with ⟨-, hcopied⟩ | ⟨before, -, hparts⟩
    · obtain ⟨hc, rfl⟩ := List.cons.inj hcopied
      rw [text_parts] at hd
      exact .inl ⟨(Part.copied.inj hc).symm, d, hd.1, hd.2⟩
    · exact .inr ⟨before, after, d, hparts, hd⟩
  · rintro (⟨rfl, d, hd⟩ | ⟨before, after, d, hparts, hd⟩)
    · refine ⟨[], parts cs, d, rfl, ?_⟩
      rwa [text_parts]
    · exact ⟨_ :: before, after, d, congrArg (_ :: ·) hparts, hd⟩

theorem splitAt?_of_dropWhile {mark d : Char} (h : cs.dropWhile (· != mark) = d :: rest) :
    splitAt? [mark] cs = some (cs.takeWhile (· != mark), rest) := by
  induction cs with
  | nil => cases h
  | cons c cs ih =>
    by_cases hc : c = mark
    · subst hc
      simp only [List.dropWhile_cons, bne_self_eq_false, Bool.false_eq_true, ↓reduceIte,
        List.cons.injEq] at h
      simp [splitAt?, after?, h.2]
    · rw [List.dropWhile_cons_of_pos (by simpa using hc)] at h
      simp [splitAt?, after?, Ne.symm hc, hc, ih h]

theorem splitAt?_eq_none_iff {mark : List Char} : splitAt? mark cs = none ↔ ¬ mark <:+: cs := by
  induction cs with
  | nil =>
    cases mark with
    | nil => simp [splitAt?, after?]
    | cons => simp [splitAt?, after?]
  | cons c cs ih =>
    rw [splitAt?, List.infix_cons_iff]
    cases h : after? mark (c :: cs) with
    | some more =>
      have hstarts : mark <+: c :: cs := ⟨more, (after?_eq_some_iff.mp h).symm⟩
      simp [hstarts]
    | none =>
      have hstarts : ¬ mark <+: c :: cs := by
        rintro ⟨more, hmore⟩
        cases h.symm.trans (after?_eq_some_iff.mpr hmore.symm)
      simp [hstarts, ih]

theorem splitAt?_eq_none {mark : Char} (h : cs.dropWhile (· != mark) = []) :
    splitAt? [mark] cs = none := by
  rw [splitAt?_eq_none_iff]
  rintro ⟨front, behind, rfl⟩
  simpa using List.dropWhile_eq_nil_iff.mp h mark (by simp)

theorem reference?_eq_none (h : ∀ more, c = '$' → cs = '\x7b' :: more → False) :
    reference? (c :: cs) = none := by
  rw [reference?, Option.bind_eq_none_iff]
  intro body hbody
  rw [after?_eq_some_iff] at hbody
  obtain ⟨rfl, hcs⟩ := List.cons.inj hbody
  exact (h body rfl hcs).elim

theorem parts_unclosed (h : cs.dropWhile (· != '\x7d') = []) :
    parts ('$' :: '\x7b' :: cs) = .copied '$' :: .copied '\x7b' :: parts cs := by
  have hnone : reference? ('$' :: '\x7b' :: cs) = none := splitAt?_eq_none h
  rw [parts_copied hnone, parts_copied (reference?_eq_none (by simp))]

def replace (env : Environment) : List Part → Except (List Char) (List Char)
  | [] => .ok []
  | .copied c :: ps => (replace env ps).map (c :: ·)
  | .reference name default :: ps => do
    let v ← valueOf env name default
    .ok (v ++ (← replace env ps))

theorem substitute_eq_replace (env : Environment) (h : ¬ HasBare cs) :
    substitute env cs = replace env (parts cs) := by
  fun_induction substitute env cs with
  | case1 => rw [parts, replace]
  | case2 cs head rest hdrop name default hname ih =>
    have href : reference? ('$' :: '\x7b' :: cs) = some _ := splitAt?_of_dropWhile hdrop
    rw [hasBare_reference href] at h
    rw [parts_reference href, hname, replace, ih h]
  | case3 cs hdrop ih =>
    have hnone : reference? ('$' :: '\x7b' :: cs) = none := splitAt?_eq_none hdrop
    rw [hasBare_copied hnone, hasBare_copied (reference?_eq_none (by simp))] at h
    simp only [not_or] at h
    rw [parts_unclosed hdrop, replace, replace, ih h.2.2]
    cases replace env (parts cs) <;> rfl
  | case4 cs ih =>
    rw [hasBare_copied (reference?_eq_none (by simp))] at h
    simp at h
  | case5 c cs hbrace hdollar hname ih =>
    rw [hasBare_copied (reference?_eq_none (by simp_all))] at h
    simp [hname] at h
  | case6 c cs hbrace hdollar hname ih =>
    have hnone : reference? ('$' :: c :: cs) = none := reference?_eq_none (by simp_all)
    rw [hasBare_copied hnone, not_or] at h
    rw [parts_copied hnone, replace, ih h.2]
  | case7 c cs hopen _ _ ih =>
    rw [hasBare_copied (reference?_eq_none hopen), not_or] at h
    rw [parts_copied (reference?_eq_none hopen), replace, ih h.2]

theorem valueOf_eq_value {name : List Char} {default : Option (List Char)}
    (h : default = none → (env.text? name).isSome = true) :
    valueOf env name default = .ok ((Part.reference name default).value env) := by
  cases hv : env.text? name with
  | some v => simp [valueOf, Part.value, hv]
  | none =>
    cases default with
    | some v => simp [valueOf, Part.value, hv]
    | none =>
      rw [hv] at h
      cases h rfl

theorem replace_of_set {ps : List Part}
    (h : ∀ name, .reference name none ∈ ps → (env.text? name).isSome = true) :
    replace env ps = .ok (ps.flatMap (Part.value env)) := by
  induction ps with
  | nil => rfl
  | cons p ps ih =>
    have hps := ih fun name hname => h name (List.mem_cons_of_mem _ hname)
    cases p with
    | copied c => rw [replace, hps]; rfl
    | reference name default =>
      rw [replace, hps, valueOf_eq_value]
      · rfl
      · rintro rfl
        exact h name (List.mem_cons_self ..)

theorem replace_of_missing {before after : List Part} {name : List Char}
    (h : ∀ other, .reference other none ∈ before → (env.text? other).isSome = true)
    (hname : env.text? name = none) :
    replace env (before ++ .reference name none :: after) = .error name := by
  induction before with
  | nil =>
    have hmissing : valueOf env name none = .error name := by simp [valueOf, hname]
    rw [List.nil_append, replace, hmissing]
    rfl
  | cons p before ih =>
    have hrest := ih fun other hother => h other (List.mem_cons_of_mem _ hother)
    cases p with
    | copied c =>
      rw [List.cons_append, replace, hrest]
      rfl
    | reference other default =>
      rw [List.cons_append, replace, hrest, valueOf_eq_value]
      · rfl
      · rintro rfl
        exact h other (List.mem_cons_self ..)

section bare

def allSet : Environment := fun _ => some (.text ['x'])

theorem valueOf_allSet (name : List Char) (default : Option (List Char)) :
    valueOf allSet name default = .ok ['x'] := rfl

theorem value_reference (h : reference? cs = some (inner, rest)) :
    (parts cs).flatMap (Part.value allSet) = 'x' :: (parts rest).flatMap (Part.value allSet) := by
  rw [parts_reference h]
  rfl

theorem value_copied (h : reference? (c :: cs) = none) :
    (parts (c :: cs)).flatMap (Part.value allSet) =
      c :: (parts cs).flatMap (Part.value allSet) := by
  rw [parts_copied h]
  rfl

theorem substitute_of_ne (hc : c ≠ '$') (cs : List Char) :
    substitute env (c :: cs) = (substitute env cs).map (c :: ·) := by
  rw [substitute]
  · exact fun _ h => absurd h hc
  · exact fun _ h => absurd h hc
  · exact fun _ _ h => absurd h hc

theorem replicate_append_cons (n : Nat) (c : Char) (cs : List Char) :
    List.replicate n c ++ c :: cs = c :: (List.replicate n c ++ cs) := by
  rw [List.append_cons, ← List.replicate_succ', List.replicate_succ, List.cons_append]

theorem substitute_ne_replicate (n : Nat) (cs : List Char) : substitute allSet cs ≠
    .ok ('$' :: (List.replicate n '$' ++ (parts cs).flatMap (Part.value allSet))) := by
  intro h
  fun_induction substitute allSet cs generalizing n with
  | case1 => cases h
  | case2 cs head rest hdrop name default hname ih =>
    rw [valueOf_allSet, bind_eq_ok_iff] at h
    obtain ⟨v, hv, h⟩ := h
    obtain rfl := Except.ok.inj hv
    obtain ⟨out, -, hout⟩ := bind_eq_ok_iff.mp h
    cases hout
  | case3 cs hdrop ih =>
    have hnone : reference? ('$' :: '\x7b' :: cs) = none := splitAt?_eq_none hdrop
    obtain ⟨out, -, hout⟩ := map_eq_ok_iff.mp h
    rw [value_copied hnone, replicate_append_cons] at hout
    cases hout
  | case4 cs ih =>
    obtain ⟨out, hsub, hout⟩ := map_eq_ok_iff.mp h
    rw [value_copied (reference?_eq_none (by simp)), replicate_append_cons] at hout
    obtain rfl := (List.cons.inj hout).2
    cases href : reference? ('$' :: cs) with
    | some r =>
      -- The second dollar sign opens a reference, whose brace is copied.
      obtain ⟨inner, rest⟩ := r
      obtain rfl := (List.cons.inj (eq_of_reference? href)).2
      change substitute allSet ('\x7b' :: _) = _ at hsub
      rw [substitute_of_ne (by decide)] at hsub
      obtain ⟨out, -, hout⟩ := map_eq_ok_iff.mp hsub
      cases hout
    | none =>
      rw [value_copied href, replicate_append_cons] at hsub
      exact ih (n + 1) hsub
  | case5 c cs hbrace hdollar hname ih =>
    rw [valueOf_allSet, bind_eq_ok_iff] at h
    obtain ⟨v, hv, h⟩ := h
    obtain rfl := Except.ok.inj hv
    obtain ⟨out, -, hout⟩ := bind_eq_ok_iff.mp h
    cases hout
  | case6 c cs hbrace hdollar hname ih =>
    obtain ⟨out, hsub, hout⟩ := map_eq_ok_iff.mp h
    rw [value_copied (reference?_eq_none (by simp_all)), replicate_append_cons] at hout
    rw [(List.cons.inj hout).2, substitute_of_ne hdollar] at hsub
    obtain ⟨_, -, hout⟩ := map_eq_ok_iff.mp hsub
    exact hdollar (List.cons.inj hout).1
  | case7 c cs hopen hdouble hsingle ih =>
    obtain ⟨out, hsub, hout⟩ := map_eq_ok_iff.mp h
    obtain ⟨rfl, hout⟩ := List.cons.inj hout
    cases cs with
    | nil =>
      rw [value_copied (reference?_eq_none (by simp)), replicate_append_cons] at hout
      rw [hout, substitute] at hsub
      cases hsub
    | cons c cs => exact hsingle c cs rfl rfl

theorem not_hasBare_nil : ¬ HasBare [] := by
  rintro ⟨before, after, c, hparts, -⟩
  rw [parts] at hparts
  cases before <;> cases hparts

theorem substitute_ne_of_hasBare (h : HasBare cs) :
    substitute allSet cs ≠ .ok ((parts cs).flatMap (Part.value allSet)) := by
  intro hsub
  fun_induction substitute allSet cs with
  | case1 => exact not_hasBare_nil h
  | case2 cs head rest hdrop name default hname ih =>
    have href : reference? ('$' :: '\x7b' :: cs) = some _ := splitAt?_of_dropWhile hdrop
    rw [valueOf_allSet, bind_eq_ok_iff] at hsub
    obtain ⟨v, hv, hsub⟩ := hsub
    obtain rfl := Except.ok.inj hv
    obtain ⟨out, hrest, hout⟩ := bind_eq_ok_iff.mp hsub
    rw [value_reference href] at hout
    obtain rfl := (List.cons.inj (Except.ok.inj hout)).2
    exact ih ((hasBare_reference href).mp h) hrest
  | case3 cs hdrop ih =>
    have hnone : reference? ('$' :: '\x7b' :: cs) = none := splitAt?_eq_none hdrop
    have hbrace : reference? ('\x7b' :: cs) = none := reference?_eq_none (by simp)
    obtain ⟨out, hrest, hout⟩ := map_eq_ok_iff.mp hsub
    rw [value_copied hnone, value_copied hbrace] at hout
    obtain rfl := List.append_cancel_left hout
    refine ih ?_ hrest
    simpa [hasBare_copied hnone, hasBare_copied hbrace, isNameChar, isAlphanumeric] using h
  | case4 cs ih =>
    obtain ⟨out, hrest, hout⟩ := map_eq_ok_iff.mp hsub
    rw [value_copied (reference?_eq_none (by simp))] at hout
    obtain rfl := (List.cons.inj hout).2
    cases href : reference? ('$' :: cs) with
    | some r =>
      obtain ⟨inner, rest⟩ := r
      rw [value_reference href] at hrest
      obtain rfl := (List.cons.inj (eq_of_reference? href)).2
      change substitute allSet ('\x7b' :: _) = _ at hrest
      rw [substitute_of_ne (by decide)] at hrest
      obtain ⟨out, -, hout⟩ := map_eq_ok_iff.mp hrest
      cases hout
    | none =>
      rw [value_copied href] at hrest
      exact substitute_ne_replicate 0 cs hrest
  | case5 c cs hbrace hdollar hname ih =>
    rw [valueOf_allSet, bind_eq_ok_iff] at hsub
    obtain ⟨v, hv, hsub⟩ := hsub
    obtain rfl := Except.ok.inj hv
    obtain ⟨out, -, hout⟩ := bind_eq_ok_iff.mp hsub
    rw [value_copied (reference?_eq_none (by simp_all))] at hout
    cases hout
  | case6 c cs hbrace hdollar hname ih =>
    have hnone : reference? ('$' :: c :: cs) = none := reference?_eq_none (by simp_all)
    obtain ⟨out, hrest, hout⟩ := map_eq_ok_iff.mp hsub
    rw [value_copied hnone] at hout
    obtain rfl := (List.cons.inj hout).2
    refine ih (((hasBare_copied hnone).mp h).resolve_left ?_) hrest
    rintro ⟨-, d, hd, hbare⟩
    obtain rfl := Option.some.inj hd
    exact hbare.elim hdollar (by simp [hname])
  | case7 c cs hopen hdouble hsingle ih =>
    have hnone := reference?_eq_none hopen
    obtain ⟨out, hrest, hout⟩ := map_eq_ok_iff.mp hsub
    rw [value_copied hnone] at hout
    obtain rfl := (List.cons.inj hout).2
    refine ih (((hasBare_copied hnone).mp h).resolve_left ?_) hrest
    rintro ⟨rfl, d, hd, -⟩
    obtain ⟨more, rfl⟩ := List.head?_eq_some_iff.mp hd
    exact hsingle d more rfl rfl

end bare

section plain

theorem parts_of_not_infix (h : ¬ "$\x7b".toList <:+: cs) : parts cs = cs.map .copied := by
  induction cs with
  | nil => rw [parts, List.map_nil]
  | cons c cs ih =>
    rw [parts_copied, ih fun hcs => h (List.infix_cons hcs), List.map_cons]
    cases href : reference? (c :: cs) with
    | none => rfl
    | some r =>
      obtain ⟨inner, rest⟩ := r
      refine absurd ⟨[], inner ++ '\x7d' :: rest, ?_⟩ h
      rw [eq_of_reference? href]
      simp

theorem flatMap_value_copied (env : Environment) (cs : List Char) :
    (cs.map Part.copied).flatMap (Part.value env) = cs := by
  induction cs with
  | nil => rfl
  | cons c cs ih => exact congrArg (c :: ·) ih

end plain

/-- What is in no braces stays: with all references set or defaulted they alone are replaced, and
else the first that is not is told. -/
structure OnlyBraced (value : List Char) : Prop where
  replaced : ∀ env field,
    (∀ name, .reference name none ∈ parts value → (Environment.text? env name).isSome = true) →
    Stated.expandField env field (some value) =
      .ok (some ((parts value).flatMap (Part.value env)))
  missing : ∀ env field before name after,
    parts value = before ++ .reference name none :: after →
    (∀ other, .reference other none ∈ before → (Environment.text? env other).isSome = true) →
    Environment.text? env name = none →
    Stated.expandField env field (some value) = .error ⟨field, name⟩

variable {value : List Char}

theorem onlyBraced_of_not_infix (h : ¬ "$\x7b".toList <:+: value) : OnlyBraced value where
  replaced env field _ := by
    rw [Stated.expandField, expandVariables, splitAt?_eq_none_iff.mpr h, parts_of_not_infix h,
      flatMap_value_copied]
    rfl
  missing env field before name after hparts _ _ := by
    have hname : Part.reference name none ∈ value.map Part.copied := by
      rw [← parts_of_not_infix h, hparts]
      simp
    simp at hname

theorem expandVariables_of_infix (h : "$\x7b".toList <:+: value) :
    expandVariables env value = substitute env value := by
  unfold expandVariables
  split
  · rename_i hnone
    exact absurd h (splitAt?_eq_none_iff.mp hnone)
  · rfl

theorem onlyBraced_of_not_hasBare (hopened : "$\x7b".toList <:+: value) (h : ¬ HasBare value) :
    OnlyBraced value where
  replaced env field hset := by
    rw [Stated.expandField, expandVariables_of_infix hopened, substitute_eq_replace env h,
      replace_of_set hset]
    rfl
  missing env field before name after hparts hset hname := by
    rw [Stated.expandField, expandVariables_of_infix hopened, substitute_eq_replace env h, hparts,
      replace_of_missing hset hname]
    rfl

/-- A dollar sign before a name or another dollar sign is left as it is exactly in a text where none
stands before a brace. -/
theorem onlyBraced_iff (value : List Char) :
    OnlyBraced value ↔ ¬ ("$\x7b".toList <:+: value ∧ HasBare value) := by
  constructor
  · rintro h ⟨hopened, hbare⟩
    have hok := h.replaced allSet "" fun name _ => rfl
    rw [Stated.expandField, expandVariables_of_infix hopened] at hok
    obtain ⟨out, hsub, hout⟩ := map_eq_ok_iff.mp hok
    obtain rfl := Option.some.inj hout
    exact substitute_ne_of_hasBare hbare (mapError_eq_ok_iff.mp hsub)
  · intro h
    by_cases hopened : "$\x7b".toList <:+: value
    · exact onlyBraced_of_not_hasBare hopened fun hbare => h ⟨hopened, hbare⟩
    · exact onlyBraced_of_not_infix hopened

theorem not_onlyBraced_twice : ¬ OnlyBraced "$\x7bA\x7d$A".toList := by
  intro h
  have hok := h.replaced (fun _ => some (.text ['x'])) "server.host" fun _ _ => rfl
  have hout : Stated.expandField (fun _ => some (.text ['x'])) "server.host"
      (some "$\x7bA\x7d$A".toList) = .ok (some "xx".toList) := by cbv
  have hparts : (parts "$\x7bA\x7d$A".toList).flatMap
      (Part.value fun _ => some (.text ['x'])) = "x$A".toList := by cbv
  rw [hout, hparts] at hok
  cases hok

end StaticSite.Config
