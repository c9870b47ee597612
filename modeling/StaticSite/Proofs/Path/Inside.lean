import Mathlib.Data.List.DropRight
import StaticSite.Proofs.Path.Location

namespace StaticSite.Path

theorem splitSlash_append (a b : List Char) :
    splitSlash (a ++ '/' :: b) = splitSlash a ++ splitSlash b := by
  induction a with
  | nil => simp [splitSlash]
  | cons c a ih =>
    by_cases hc : c = '/'
    · simp [splitSlash, hc, ih]
    · cases ha : splitSlash a with
      | nil => exact absurd ha (splitSlash_ne_nil a)
      | cons s ss => simp [splitSlash, hc, ih, ha]

theorem segments_of_relative {p : Path} (h : p.isAbsolute = false) :
    p.segments = splitSlash p.chars := by
  unfold segments
  split
  · rename_i cs hcs
    rw [isAbsolute, hcs] at h
    cases h
  · rfl

theorem isAbsolute_cons {c : Char} (hc : c ≠ '/') (cs : List Char) :
    (Path.mk (c :: cs)).isAbsolute = false := by
  simp [isAbsolute, hc]

theorem segments_append_slash {x : List Char} (hx : x ≠ []) (y : List Char) :
    (Path.mk (x ++ '/' :: y)).segments = (Path.mk x).segments ++ splitSlash y := by
  cases x with
  | nil => exact absurd rfl hx
  | cons c x =>
    by_cases hc : c = '/'
    · subst hc
      exact splitSlash_append x y
    · rw [List.cons_append, segments_of_relative (isAbsolute_cons hc (x ++ '/' :: y)),
        segments_of_relative (isAbsolute_cons hc x)]
      exact splitSlash_append (c :: x) y

theorem lead_append_slash (x y : List Char) :
    (Path.mk (x ++ '/' :: y)).lead = (Path.mk (x ++ ['/'])).lead := by
  cases x with
  | nil => rfl
  | cons c x =>
    obtain ⟨s, ss, hsegments⟩ := List.exists_cons_of_ne_nil (segments_ne_nil ⟨c :: x⟩)
    rw [lead, lead, segments_append_slash (by simp), segments_append_slash (by simp), hsegments]
    rfl

theorem filterMap_splitSlash_joinSlash {l : Location} (h : ∀ name ∈ l, IsName name) :
    (splitSlash (joinSlash l)).filterMap componentOf? = l.map .normal := by
  by_cases hl : l = []
  · subst hl
    decide
  · rw [splitSlash_joinSlash hl fun name hname => (h name hname).2.1, filterMap_componentOf? h]

theorem components_slash (x y : List Char) : (Path.mk (x ++ '/' :: y)).components =
    (Path.mk (x ++ ['/'])).components ++ (splitSlash y).filterMap componentOf? := by
  have hempty : (splitSlash []).filterMap componentOf? = [] := by decide
  rw [components, components, lead_append_slash]
  by_cases hx : x = []
  · subst hx
    change _ ++ (splitSlash y).filterMap componentOf? =
      (_ ++ (splitSlash []).filterMap componentOf?) ++ _
    rw [hempty, List.append_nil]
  · rw [segments_append_slash hx, segments_append_slash hx, List.filterMap_append,
      List.filterMap_append, hempty, List.append_nil, List.append_assoc]

theorem joinSlash_cons_cons (c : Char) (s : List Char) (ss : List (List Char)) :
    ∃ cs, joinSlash ((c :: s) :: ss) = c :: cs := by
  cases ss with
  | nil => exact ⟨s, rfl⟩
  | cons s' ss => exact ⟨s ++ '/' :: joinSlash (s' :: ss), rfl⟩

theorem isAbsolute_ofSegments {ss : List (List Char)} (hslash : ∀ s ∈ ss, '/' ∉ s)
    (hhead : ∀ s ∈ ss.head?, s ≠ []) : (ofSegments false ss).isAbsolute = false := by
  cases ss with
  | nil => rfl
  | cons s ss =>
    obtain ⟨c, s, rfl⟩ := List.exists_cons_of_ne_nil (hhead s rfl)
    have hc : c ≠ '/' := by
      rintro rfl
      exact hslash _ (List.mem_cons_self ..) (List.mem_cons_self ..)
    obtain ⟨cs, hcs⟩ := joinSlash_cons_cons c s ss
    simp [ofSegments, isAbsolute, hcs, hc]

theorem segments_ofSegments {absolute : Bool} {ss : List (List Char)} (hss : ss ≠ [])
    (hslash : ∀ s ∈ ss, '/' ∉ s) (hhead : absolute = false → ∀ s ∈ ss.head?, s ≠ []) :
    (ofSegments absolute ss).segments = ss := by
  cases absolute with
  | true => exact splitSlash_joinSlash hss hslash
  | false =>
    rw [segments_of_relative (isAbsolute_ofSegments hslash (hhead rfl))]
    exact splitSlash_joinSlash hss hslash

theorem components_ofSegments {ss : List (List Char)} (hslash : ∀ s ∈ ss, '/' ∉ s)
    (hhead : ∀ s ∈ ss.head?, isSilent s = false) :
    (ofSegments false ss).components = ss.filterMap componentOf? := by
  have hne : ∀ s ∈ ss.head?, s ≠ [] := by
    rintro s hs rfl
    exact absurd (hhead [] hs) (by decide)
  have hlead : (ofSegments false ss).lead = [] := by
    rw [lead, isAbsolute_ofSegments hslash hne]
    by_cases hss : ss = []
    · subst hss
      decide
    · rw [segments_ofSegments hss hslash fun _ => hne]
      have hdot : ss.head? ≠ some ['.'] := by
        intro h
        exact absurd (hhead _ h) (by decide)
      simp [hdot]
  rw [components, hlead, List.nil_append]
  by_cases hss : ss = []
  · subst hss
    decide
  · rw [segments_ofSegments hss hslash fun _ => hne]

theorem filterMap_dropWhile_isSilent (ss : List (List Char)) :
    (ss.dropWhile isSilent).filterMap componentOf? = ss.filterMap componentOf? := by
  induction ss with
  | nil => rfl
  | cons s ss ih =>
    by_cases hs : isSilent s
    · have hnone : componentOf? s = none := if_pos hs
      rw [List.dropWhile_cons_of_pos hs, ih, List.filterMap_cons_none hnone]
    · rw [List.dropWhile_cons_of_neg hs]

theorem head_dropWhile_isSilent (ss : List (List Char)) :
    ∀ s ∈ (ss.dropWhile isSilent).head?, isSilent s = false := by
  intro s hs
  have h := List.head?_dropWhile_not isSilent ss
  rw [Option.mem_def.mp hs] at h
  exact h

theorem filterMap_dropSilentEnd (ss : List (List Char)) :
    (dropSilentEnd ss).filterMap componentOf? = ss.filterMap componentOf? := by
  rw [dropSilentEnd, List.filterMap_reverse, filterMap_dropWhile_isSilent, List.filterMap_reverse,
    List.reverse_reverse]

theorem prefix_dropSilentEnd (ss : List (List Char)) : dropSilentEnd ss <+: ss :=
  List.rdropWhile_prefix isSilent ss

theorem exists_componentOf? {s : List Char} (h : ¬ isSilent s = true) :
    ∃ c, componentOf? s = some c := by
  unfold componentOf?
  rw [if_neg h]
  split
  · exact ⟨_, rfl⟩
  · exact ⟨_, rfl⟩

theorem componentOf?_cases {s : List Char} {c : Component} (h : componentOf? s = some c) :
    c ≠ .root ∧ c ≠ .current := by
  unfold componentOf? at h
  split at h
  · cases h
  · split at h <;> obtain rfl := Option.some.inj h <;> simp

theorem dropComponents_cons {c : Component} (hroot : c ≠ .root) (hcurrent : c ≠ .current)
    (cs : List Component) (ss : List (List Char)) : dropComponents (c :: cs) ss =
      dropComponents cs ((ss.dropWhile isSilent).tail.dropWhile isSilent) := by
  cases c with
  | root => exact absurd rfl hroot
  | current => exact absurd rfl hcurrent
  | parent => rfl
  | normal name => rfl

theorem dropComponents_dropWhile {c : Component} (hroot : c ≠ .root) (hcurrent : c ≠ .current)
    (cs : List Component) (ss : List (List Char)) :
    dropComponents (c :: cs) (ss.dropWhile isSilent) = dropComponents (c :: cs) ss := by
  have hidem : (ss.dropWhile isSilent).dropWhile isSilent = ss.dropWhile isSilent :=
    List.dropWhile_idempotent isSilent ss
  rw [dropComponents_cons hroot hcurrent, dropComponents_cons hroot hcurrent, hidem]

theorem mem_of_mem_dropComponents {cs : List Component} {ss : List (List Char)} {s : List Char}
    (h : s ∈ dropComponents cs ss) : s ∈ ss := by
  induction cs generalizing ss with
  | nil => exact h
  | cons c cs ih =>
    have hdrop {l : List (List Char)} (hs : s ∈ l.dropWhile isSilent) : s ∈ l :=
      (List.dropWhile_sublist isSilent).subset hs
    cases c with
    | root => exact hdrop (ih h)
    | current => exact List.mem_of_mem_tail (hdrop (ih h))
    | parent | normal => exact hdrop (List.mem_of_mem_tail (hdrop (ih h)))

theorem filterMap_dropComponents {cs rest : List Component} {ss : List (List Char)}
    (h : ss.filterMap componentOf? = cs ++ rest)
    (hhead : ∀ s ∈ ss.head?, isSilent s = false) :
    (dropComponents cs ss).filterMap componentOf? = rest ∧
      ∀ s ∈ (dropComponents cs ss).head?, isSilent s = false := by
  induction cs generalizing ss with
  | nil => exact ⟨h, hhead⟩
  | cons c cs ih =>
    cases ss with
    | nil => cases h
    | cons s ss =>
      have hs : ¬ isSilent s = true := Bool.eq_false_iff.mp (hhead s rfl)
      obtain ⟨d, hd⟩ := exists_componentOf? hs
      rw [List.filterMap_cons_some hd, List.cons_append] at h
      obtain ⟨rfl, hss⟩ := List.cons.inj h
      obtain ⟨hroot, hcurrent⟩ := componentOf?_cases hd
      rw [dropComponents_cons hroot hcurrent, List.dropWhile_cons_of_neg hs, List.tail_cons]
      apply ih
      · rw [filterMap_dropWhile_isSilent, hss]
      · exact head_dropWhile_isSilent ss

theorem lead_cases (p : Path) :
    p.lead = [.root] ∨ (p.lead = [.current] ∧ p.segments.head? = some ['.']) ∨ p.lead = [] := by
  unfold lead
  split
  · exact .inl rfl
  · split
    · rename_i h
      exact .inr (.inl ⟨rfl, h⟩)
    · exact .inr (.inr rfl)

theorem components_relativeTo? {p base r : Path} (hbase : base.components ≠ [])
    (h : p.relativeTo? base = some r) : p.components = base.components ++ r.components := by
  unfold relativeTo? at h
  split at h
  · cases h
  rename_i hstarts
  rw [Bool.not_eq_true, Bool.not_eq_false', startsWith, List.isPrefixOf_iff_prefix] at hstarts
  obtain ⟨rest, hrest⟩ := hstarts
  obtain ⟨c, cs, hcs⟩ := List.exists_cons_of_ne_nil hbase
  rw [hcs] at h hrest
  obtain rfl := Option.some.inj h
  suffices hdrop : (dropComponents (c :: cs) p.segments).filterMap componentOf? = rest ∧
      ∀ s ∈ (dropComponents (c :: cs) p.segments).head?, isSilent s = false by
    have hbegin := prefix_dropSilentEnd (dropComponents (c :: cs) p.segments)
    rw [hcs, components_ofSegments, filterMap_dropSilentEnd, hdrop.1, hrest]
    · intro s hs
      exact slash_notMem_of_mem_segments (mem_of_mem_dropComponents (hbegin.subset hs))
    · intro s hs
      obtain ⟨others, hothers⟩ := hbegin
      apply hdrop.2 s
      rw [← hothers]
      exact List.mem_head?_append_of_mem_head? hs
  rw [components] at hrest
  rcases lead_cases p with hlead | ⟨hlead, hdot⟩ | hlead
  · rw [hlead] at hrest
    obtain ⟨rfl, hss⟩ := List.cons.inj hrest
    apply filterMap_dropComponents _ (head_dropWhile_isSilent p.segments)
    rw [filterMap_dropWhile_isSilent]
    exact hss.symm
  · rw [hlead] at hrest
    obtain ⟨rfl, hss⟩ := List.cons.inj hrest
    obtain ⟨ss, hsegments⟩ := List.head?_eq_some_iff.mp hdot
    rw [hsegments] at hss ⊢
    apply filterMap_dropComponents _ (head_dropWhile_isSilent ss)
    rw [filterMap_dropWhile_isSilent]
    exact hss.symm
  · rw [hlead, List.nil_append] at hrest
    have hmem : c ∈ p.segments.filterMap componentOf? := by
      rw [← hrest]
      exact List.mem_cons_self ..
    obtain ⟨s, -, hs⟩ := List.mem_filterMap.mp hmem
    obtain ⟨hroot, hcurrent⟩ := componentOf?_cases hs
    rw [← dropComponents_dropWhile hroot hcurrent]
    apply filterMap_dropComponents _ (head_dropWhile_isSilent p.segments)
    rw [filterMap_dropWhile_isSilent]
    exact hrest.symm

theorem dropSilentEnd_getLast? {ss : List (List Char)} :
    ∀ s ∈ (dropSilentEnd ss).getLast?, isSilent s = false := by
  intro s hs
  rw [dropSilentEnd, List.getLast?_reverse] at hs
  exact head_dropWhile_isSilent ss.reverse s hs

theorem trimmedSegments_cases (p : Path) :
    p.trimmedSegments = dropSilentEnd p.segments ∨
      ∃ rest, p.isAbsolute = false ∧ p.segments = ['.'] :: rest ∧
        p.trimmedSegments = ['.'] :: dropSilentEnd rest := by
  unfold trimmedSegments
  split
  · rename_i rest habsolute hsegments
    exact .inr ⟨rest, habsolute, hsegments, rfl⟩
  · exact .inl rfl

theorem prefix_trimmedSegments (p : Path) : p.trimmedSegments <+: p.segments := by
  rcases trimmedSegments_cases p with h | ⟨rest, -, hsegments, h⟩
  · rw [h]
    exact prefix_dropSilentEnd _
  · rw [h, hsegments]
    exact (List.prefix_cons_inj _).mpr (prefix_dropSilentEnd rest)

theorem trimmedSegments_getLast? (p : Path) : ∀ s ∈ p.trimmedSegments.getLast?, s ≠ [] := by
  rintro s hs rfl
  rcases trimmedSegments_cases p with h | ⟨rest, -, -, h⟩
  · rw [h] at hs
    exact absurd (dropSilentEnd_getLast? [] hs) (by decide)
  · rw [h, List.getLast?_cons] at hs
    cases hlast : (dropSilentEnd rest).getLast? with
    | none =>
      rw [hlast] at hs
      cases hs
    | some s =>
      rw [hlast] at hs
      obtain rfl := Option.some.inj hs
      exact absurd (dropSilentEnd_getLast? [] hlast) (by decide)

theorem head_segments {p : Path} (hp : p.isAbsolute = false) (hchars : p.chars ≠ []) :
    ∀ s ∈ p.segments.head?, s ≠ [] := by
  obtain ⟨c, cs, hcs⟩ := List.exists_cons_of_ne_nil hchars
  have hc : c ≠ '/' := by
    rintro rfl
    rw [isAbsolute, hcs] at hp
    cases hp
  rintro s hs rfl
  rw [segments_of_relative hp, hcs, splitSlash, if_neg hc] at hs
  split at hs <;> cases hs

theorem components_ne_nil {p : Path} (h : p.chars ≠ []) : p.components ≠ [] := by
  intro hnil
  obtain ⟨hlead, hnone⟩ := List.append_eq_nil_iff.mp hnil
  obtain ⟨s, ss, hsegments⟩ := List.exists_cons_of_ne_nil (segments_ne_nil p)
  unfold lead at hlead
  split at hlead
  · cases hlead
  · rename_i habsolute
    have hs : s ≠ [] := head_segments (Bool.eq_false_iff.mpr habsolute) h s (by simp [hsegments])
    split at hlead
    · cases hlead
    · rename_i hdot
      have hsilent : ¬ isSilent s = true := by
        simpa [isSilent, hs, hsegments] using hdot
      rw [hsegments] at hnone
      obtain ⟨c, hc⟩ := exists_componentOf? hsilent
      rw [List.filterMap_cons_some hc] at hnone
      cases hnone

theorem parent?_eq_some {p q : Path} (h : p.parent? = some q) :
    ∃ inner outer, p.segments = outer ++ inner ∧ inner ≠ [] ∧
      q = ofSegments p.isAbsolute outer ∧ ∀ s ∈ outer.getLast?, s ≠ [] := by
  unfold parent? at h
  split at h
  · cases h
  rename_i htrimmed
  obtain rfl := Option.some.inj h
  set q := ofSegments p.isAbsolute p.trimmedSegments.dropLast with hq
  have hbegin : p.trimmedSegments.dropLast <+: p.segments :=
    (List.dropLast_prefix _).trans (prefix_trimmedSegments p)
  have hchars : p.chars ≠ [] := by
    intro hchars
    have hp : p = ⟨[]⟩ := by rw [← hchars]
    rw [hp] at htrimmed
    exact htrimmed (by decide)
  have houter : q.trimmedSegments <+: p.trimmedSegments.dropLast := by
    by_cases hinit : p.trimmedSegments.dropLast = []
    · have hnil (absolute : Bool) : (ofSegments absolute []).trimmedSegments = [] := by
        cases absolute <;> decide
      rw [hq, hinit, hnil]
    · have hsegments : q.segments = p.trimmedSegments.dropLast := by
        apply segments_ofSegments hinit
        · intro s hs
          exact slash_notMem_of_mem_segments (hbegin.subset hs)
        · intro habsolute s hs
          obtain ⟨others, hothers⟩ := hbegin
          apply head_segments habsolute hchars s
          rw [← hothers]
          exact List.mem_head?_append_of_mem_head? hs
      rw [← hsegments]
      exact prefix_trimmedSegments q
  obtain ⟨inner, hinner⟩ := houter.trans hbegin
  refine ⟨inner, q.trimmedSegments, hinner.symm, ?_, rfl, trimmedSegments_getLast? q⟩
  rintro rfl
  have hlength : p.trimmedSegments.dropLast.length < p.trimmedSegments.length := by
    rw [List.length_dropLast]
    have := List.length_pos_iff.mpr htrimmed
    omega
  have hle := houter.length_le
  have hle' := (prefix_trimmedSegments p).length_le
  rw [List.append_nil] at hinner
  rw [hinner] at hle
  omega

theorem prefix_joinSlash (outer inner : List (List Char)) :
    joinSlash outer <+: joinSlash (outer ++ inner) := by
  induction outer with
  | nil => exact List.nil_prefix
  | cons s outer ih =>
    cases outer with
    | nil =>
      cases inner with
      | nil => exact List.prefix_refl _
      | cons s' inner => exact List.prefix_append _ _
    | cons s' outer => exact (List.prefix_append_right_inj s).mpr ((List.prefix_cons_inj _).mpr ih)

theorem ofSegments_segments (p : Path) : ofSegments p.isAbsolute p.segments = p := by
  obtain ⟨chars⟩ := p
  cases habsolute : (Path.mk chars).isAbsolute with
  | true =>
    obtain ⟨cs, rfl⟩ := List.head?_eq_some_iff.mp (of_decide_eq_true habsolute)
    change Path.mk ('/' :: joinSlash (splitSlash cs)) = ⟨'/' :: cs⟩
    rw [joinSlash_splitSlash]
  | false =>
    rw [segments_of_relative habsolute]
    change Path.mk (joinSlash (splitSlash chars)) = ⟨chars⟩
    rw [joinSlash_splitSlash]

theorem chars_prefix_of_segments {p : Path} {outer inner : List (List Char)}
    (h : p.segments = outer ++ inner) : (ofSegments p.isAbsolute outer).chars <+: p.chars := by
  have hp := ofSegments_segments p
  rw [h] at hp
  conv_rhs => rw [← hp]
  cases p.isAbsolute with
  | true => exact (List.prefix_cons_inj _).mpr (prefix_joinSlash outer inner)
  | false => exact prefix_joinSlash outer inner

end StaticSite.Path
