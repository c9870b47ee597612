import StaticSite.Proofs.Sprite.Compiled

namespace StaticSite.Sprite
open StaticSite.Svg

structure Attempt where
  path : Path
  result : Except SkipReason Symbol

def built (attempts : List Attempt) : List (Symbol × Path) :=
  attempts.filterMap fun a =>
    match a.result with
    | .ok s => some (s, a.path)
    | .error _ => none

def failed (attempts : List Attempt) : List Skipped :=
  attempts.filterMap fun a =>
    match a.result with
    | .ok _ => none
    | .error reason => some ⟨a.path, reason⟩

def under (id : List Char) (found : List (Symbol × Path)) : List (Symbol × Path) :=
  found.filter (·.1.id = id)

theorem under_concat (id : List Char) (found : List (Symbol × Path)) (p : Symbol × Path) :
    under id (found ++ [p]) = if p.1.id = id then under id found ++ [p] else under id found := by
  rw [under, List.filter_append]
  split
  · rename_i hid
    simp [under, hid]
  · rename_i hid
    simp [under, hid]

def links (id : List Char) (paths : List Path) : List Collision :=
  List.zipWith (Collision.mk id) paths paths.tail

theorem length_links (id : List Char) (paths : List Path) :
    (links id paths).length = paths.length - 1 := by
  rw [links, List.length_zipWith, List.length_tail]
  omega

theorem links_concat (id : List Char) (paths : List Path) (path : Path) :
    links id (paths ++ [path]) =
      links id paths ++ (paths.getLast?.map (Collision.mk id · path)).toList := by
  induction paths with
  | nil => rfl
  | cons first paths ih =>
    cases paths with
    | nil => rfl
    | cons second paths =>
      rw [List.getLast?_cons_cons]
      exact congrArg (Collision.mk id first second :: ·) ih

theorem eraseDups_concat {α : Type} [BEq α] [LawfulBEq α] (l : List α) (a : α) :
    (l ++ [a]).eraseDups = if a ∈ l then l.eraseDups else l.eraseDups ++ [a] := by
  rw [List.eraseDups_append]
  have hsingle : [a].eraseDups = [a] := rfl
  by_cases ha : a ∈ l
  · simp [List.removeAll, ha]
  · simp [List.removeAll, ha, hsingle]

theorem nodup_eraseDups {α : Type} [BEq α] [LawfulBEq α] (l : List α) : l.eraseDups.Nodup := by
  induction l using List.reverseRecOn with
  | nil => exact List.nodup_nil
  | append_singleton l a ih =>
    rw [eraseDups_concat]
    split
    · exact ih
    · rename_i ha
      apply List.nodup_append.mpr ⟨ih, List.pairwise_singleton _ a, _⟩
      rintro b hb c hc rfl
      rw [List.mem_singleton.mp hc] at hb
      exact ha (List.mem_eraseDups.mp hb)

namespace Collection

variable {s : Symbol} {source : Path} {symbols : List (Symbol × Path)}

theorem ids_put : (put s source symbols).map (·.1.id) =
    if s.id ∈ symbols.map (·.1.id) then symbols.map (·.1.id) else symbols.map (·.1.id) ++ [s.id] := by
  induction symbols with
  | nil => rfl
  | cons p symbols ih =>
    obtain ⟨old, path⟩ := p
    rw [put]
    by_cases hid : old.id = s.id
    · simp [hid]
    · rw [if_neg hid, List.map_cons, ih]
      simp only [List.map_cons, List.mem_cons, Ne.symm hid, false_or]
      split
      · rfl
      · rfl

theorem find?_put (id : List Char) : (put s source symbols).find? (·.1.id = id) =
    if s.id = id then some (s, source) else symbols.find? (·.1.id = id) := by
  induction symbols with
  | nil => by_cases hid : s.id = id <;> simp [put, hid]
  | cons p symbols ih =>
    obtain ⟨old, path⟩ := p
    rw [put]
    by_cases hold : old.id = s.id
    · rw [if_pos hold, List.find?_cons, List.find?_cons, hold]
      by_cases hid : s.id = id <;> simp [hid]
    · rw [if_neg hold, List.find?_cons, List.find?_cons, ih]
      by_cases hid : s.id = id
      · subst hid
        simp [hold]
      · simp [hid]

theorem length_put : (put s source symbols).length =
    symbols.length + if (symbols.find? (·.1.id = s.id)).isSome then 0 else 1 := by
  induction symbols with
  | nil => rfl
  | cons p symbols ih =>
    obtain ⟨old, path⟩ := p
    rw [put, List.find?_cons]
    by_cases hid : old.id = s.id
    · simp [hid]
    · simp only [hid, decide_false, if_false, List.length_cons, ih]
      omega

def take (c : Collection) (a : Attempt) : Collection :=
  match a.result with
  | .ok s => c.add s a.path
  | .error reason => c.skip a.path reason

def ofAttempts (attempts : List Attempt) : Collection :=
  attempts.foldl take empty

def ofBuilt (found : List (Symbol × Path)) : Collection :=
  found.foldl (fun c p => c.add p.1 p.2) empty

theorem ofBuilt_concat (found : List (Symbol × Path)) (p : Symbol × Path) :
    ofBuilt (found ++ [p]) = (ofBuilt found).add p.1 p.2 := by
  rw [ofBuilt, List.foldl_append]
  rfl

theorem ofAttempts_eq (attempts : List Attempt) :
    ofAttempts attempts = { ofBuilt (built attempts) with skipped := failed attempts } := by
  induction attempts using List.reverseRecOn with
  | nil => rfl
  | append_singleton attempts a ih =>
    obtain ⟨path, result⟩ := a
    rw [ofAttempts, List.foldl_append, built, failed, List.filterMap_append, List.filterMap_append]
    change take (ofAttempts attempts) _ = _
    rw [ih]
    cases result with
    | ok s =>
      change _ = { ofBuilt (built attempts ++ [(s, path)]) with skipped := failed attempts ++ [] }
      rw [ofBuilt_concat, List.append_nil]
      rfl
    | error reason =>
      change _ = { ofBuilt (built attempts ++ []) with
        skipped := failed attempts ++ [Skipped.mk path reason] }
      rw [List.append_nil]
      rfl

variable (found : List (Symbol × Path))

theorem ids_ofBuilt :
    (ofBuilt found).symbols.map (·.1.id) = (found.map (·.1.id)).eraseDups := by
  induction found using List.reverseRecOn with
  | nil => rfl
  | append_singleton found p ih =>
    rw [ofBuilt_concat, List.map_append, List.map_singleton, eraseDups_concat, add, ids_put, ih]
    simp only [List.mem_eraseDups]

theorem find?_ofBuilt (id : List Char) :
    (ofBuilt found).symbols.find? (·.1.id = id) = (under id found).getLast? := by
  induction found using List.reverseRecOn with
  | nil => rfl
  | append_singleton found p ih =>
    rw [ofBuilt_concat, add, find?_put, ih, under_concat]
    split
    · rw [List.getLast?_concat]
    · rfl

theorem collisions_ofBuilt (id : List Char) : (ofBuilt found).collisions.filter (·.id = id) =
    links id ((under id found).map (·.2)) := by
  induction found using List.reverseRecOn with
  | nil => rfl
  | append_singleton found p ih =>
    rw [ofBuilt_concat, add, List.filter_append, ih, under_concat]
    by_cases hid : p.1.id = id
    · subst hid
      rw [if_pos rfl, find?_ofBuilt, List.map_append, List.map_singleton, links_concat,
        List.getLast?_map]
      cases (under p.1.id found).getLast? with
      | none => rfl
      | some q => simp
    · rw [if_neg hid]
      cases (ofBuilt found).symbols.find? (·.1.id = p.1.id) with
      | none => simp
      | some q => simp [hid]

end Collection

namespace Compiler

def Collection.size (found : Collection) : Nat :=
  found.symbols.length + found.skipped.length + found.collisions.length

theorem size_take (found : Collection) (a : Attempt) :
    Collection.size (found.take a) = Collection.size found + 1 := by
  unfold Collection.take
  split
  · rename_i s _
    simp only [Collection.size, Collection.add, Collection.length_put, List.length_append]
    cases found.symbols.find? (·.1.id = s.id) <;> simp <;> omega
  · simp only [Collection.size, Collection.skip, List.length_append, List.length_singleton]
    omega

theorem size_foldl (found : Collection) (attempts : List Attempt) :
    Collection.size (attempts.foldl Collection.take found) =
      Collection.size found + attempts.length := by
  induction attempts generalizing found with
  | nil => rfl
  | cons a attempts ih =>
    rw [List.foldl_cons, ih, size_take, List.length_cons]
    omega

variable {o : Optimizer} {t : FileTree}

def attempt (o : Optimizer) (t : FileTree) (icon : Icon) : Attempt :=
  ⟨icon.path, build o t icon⟩

theorem collect_eq_foldl (found : Collection) (icons : List Icon) :
    collect o t found icons = (icons.map (attempt o t)).foldl .take found := by
  induction icons generalizing found with
  | nil => rfl
  | cons icon icons ih =>
    rw [collect, List.map_cons, List.foldl_cons]
    cases h : build o t icon with
    | ok s =>
      have htake : found.take (attempt o t icon) = found.add s icon.path := by
        rw [attempt, h, Collection.take]
      rw [htake, ← ih]
    | error reason =>
      have htake : found.take (attempt o t icon) = found.skip icon.path reason := by
        rw [attempt, h, Collection.take]
      rw [htake, ← ih]

theorem size_collect (found : Collection) (icons : List Icon) :
    Collection.size (collect o t found icons) = Collection.size found + icons.length := by
  rw [collect_eq_foldl, size_foldl, List.length_map]

theorem id_of_build {icon : Icon} {s : Symbol} (h : build o t icon = .ok s) : s.id = icon.id := by
  obtain ⟨source, -, hsymbol⟩ := build_eq_ok h
  obtain ⟨reduced, root, -, -, rfl, -⟩ := symbolOf_eq_ok hsymbol
  rfl

theorem ids_built (icons : List Icon) : (built (icons.map (attempt o t))).map (·.1.id) =
    (icons.filter fun icon => (build o t icon).isOk).map (·.id) := by
  induction icons with
  | nil => rfl
  | cons icon icons ih =>
    rw [List.map_cons]
    cases h : build o t icon with
    | ok s =>
      rw [List.filter_cons_of_pos (by rw [h]; rfl), List.map_cons, ← ih, ← id_of_build h, attempt, h]
      rfl
    | error reason =>
      rw [List.filter_cons_of_neg (by rw [h]; exact Bool.false_ne_true), ← ih, attempt, h]
      rfl

structure Accounts (attempts : List Attempt) (found : Collection) : Prop where
  nodup : (found.symbols.map (·.1.id)).Nodup
  ids : found.symbols.map (·.1.id) = ((built attempts).map (·.1.id)).eraseDups
  latest : ∀ id, found.symbols.find? (·.1.id = id) = (under id (built attempts)).getLast?
  skipped : found.skipped = failed attempts
  collisions : ∀ id, found.collisions.filter (·.id = id) =
    links id ((under id (built attempts)).map (·.2))
  count : ∀ id, (found.collisions.filter (·.id = id)).length =
    (under id (built attempts)).length - 1
  size : attempts.length =
    found.symbols.length + found.skipped.length + found.collisions.length

theorem accounts_ofAttempts (attempts : List Attempt) :
    Accounts attempts (.ofAttempts attempts) := by
  have hids := Collection.ids_ofBuilt (built attempts)
  have hcollisions := Collection.collisions_ofBuilt (built attempts)
  have hsize : Collection.size (.ofAttempts attempts) = 0 + attempts.length :=
    size_foldl .empty attempts
  rw [Nat.zero_add] at hsize
  refine ⟨?_, ?_, ?_, ?_, ?_, ?_, hsize.symm⟩
  all_goals rw [Collection.ofAttempts_eq]
  · rw [hids]
    exact nodup_eraseDups _
  · exact hids
  · exact Collection.find?_ofBuilt (built attempts)
  · exact hcollisions
  · intro id
    rw [hcollisions, length_links, List.length_map]

theorem shown_of_failure (before after : List Attempt) (path : Path) (reason : SkipReason) :
    (Collection.ofAttempts (before ++ ⟨path, .error reason⟩ :: after)).symbols =
        (Collection.ofAttempts (before ++ after)).symbols ∧
      (Collection.ofAttempts (before ++ ⟨path, .error reason⟩ :: after)).collisions =
        (Collection.ofAttempts (before ++ after)).collisions := by
  have hbuilt : built (before ++ ⟨path, .error reason⟩ :: after) = built (before ++ after) := by
    rw [built, built, List.filterMap_append, List.filterMap_append]
    rfl
  rw [Collection.ofAttempts_eq, Collection.ofAttempts_eq, hbuilt]
  exact ⟨rfl, rfl⟩

/-- Symbols stand in the order in which their identifiers came first, each the last one that was built
with its identifier. Every failure is reported, and every symbol that gave way to the next one. A
failure changes nothing else. So it is for all that a compile can come across, and for what it does
and reports. -/
theorem collect_accounts :
    (∀ attempts, Accounts attempts (.ofAttempts attempts)) ∧
      (∀ before after path reason,
        let more := Collection.ofAttempts (before ++ ⟨path, .error reason⟩ :: after)
        let less := Collection.ofAttempts (before ++ after)
        more.symbols = less.symbols ∧ more.collisions = less.collisions ∧
          sheet (more.symbols.map (·.1)) = sheet (less.symbols.map (·.1))) ∧
      (∀ (o : Optimizer) (t : FileTree) (icons : List Icon),
        collect o t .empty icons = .ofAttempts (icons.map (attempt o t)) ∧
          (built (icons.map (attempt o t))).map (·.1.id) =
            (icons.filter fun icon => (build o t icon).isOk).map (·.id)) ∧
      ∀ (c : Compiler) (t u : FileTree) (report : Report), c.compile t = (u, .ok report) →
        let found := Collection.ofAttempts ((Icon.scan t c.iconsDir).map (attempt c.optimizer t))
        report.symbols = found.symbols.map (·.1.id) ∧ report.skipped = found.skipped ∧
          report.collisions = found.collisions := by
  refine ⟨accounts_ofAttempts, ?_, ?_, ?_⟩
  · intro before after path reason more less
    obtain ⟨hsymbols, hcollisions⟩ := shown_of_failure before after path reason
    refine ⟨hsymbols, hcollisions, ?_⟩
    rw [hsymbols]
  · intro o t icons
    exact ⟨collect_eq_foldl .empty icons, ids_built icons⟩
  · intro c t u report h found
    have hfound : found = c.collection t := (collect_eq_foldl .empty _).symm
    rw [hfound]
    exact report_of_compile h

def crowdedTree : FileTree :=
  ⟨[(["i".toList], .directory), (["i".toList, "a.svg".toList], .file (.text dotSource)),
    (["i".toList, "x".toList], .directory),
    (["i".toList, "x".toList, "a.svg".toList], .file (.text dotSource)),
    (["i".toList, "y".toList], .directory),
    (["i".toList, "y".toList, "a.svg".toList], .file (.text dotSource)),
    (["i".toList, "b.svg".toList], .file (.binary [0xff]))], []⟩

def binaryIcon : Icon := ⟨.ofString "/i/b.svg", .ofString "b.svg", "b".toList⟩

def secondIcon : Icon := ⟨.ofString "/i/x/a.svg", .ofString "x/a.svg", "a".toList⟩

def thirdIcon : Icon := ⟨.ofString "/i/y/a.svg", .ofString "y/a.svg", "a".toList⟩

def crowdAttempts : List Attempt :=
  [⟨dotIcon.path, .ok (dotSymbol "a".toList)⟩, ⟨binaryIcon.path, .error (.unreadable .notText)⟩,
    ⟨secondIcon.path, .ok (dotSymbol "a".toList)⟩, ⟨thirdIcon.path, .ok (dotSymbol "a".toList)⟩]

theorem scan_crowdedTree : Icon.scan crowdedTree dotCompiler.iconsDir =
    [dotIcon, binaryIcon, secondIcon, thirdIcon] := by
  cbv

theorem attempt_dot {icon : Icon} (hicon : icon.id = "a".toList)
    (hread : crowdedTree.readText icon.path = .ok dotSource) :
    attempt dotCompiler.optimizer crowdedTree icon = ⟨icon.path, .ok (dotSymbol "a".toList)⟩ := by
  have hbuild : build dotCompiler.optimizer crowdedTree icon = _ :=
    build_dot checkTag_dot hicon hread
  rw [attempt, hbuild]

theorem attempts_crowdedTree :
    (Icon.scan crowdedTree dotCompiler.iconsDir).map (attempt dotCompiler.optimizer crowdedTree) =
      crowdAttempts := by
  have hbinary : crowdedTree.readText binaryIcon.path = .error .notText := by
    cbv
  have hskip : attempt dotCompiler.optimizer crowdedTree binaryIcon =
      ⟨binaryIcon.path, .error (.unreadable .notText)⟩ := by
    rw [attempt, build, hbinary]
    rfl
  rw [scan_crowdedTree, List.map_cons, List.map_cons, List.map_cons, List.map_singleton, hskip,
    @attempt_dot dotIcon rfl (by cbv), @attempt_dot secondIcon rfl (by cbv),
    @attempt_dot thirdIcon rfl (by cbv)]
  rfl

theorem collect_accounts_crowd : ∃ u report, dotCompiler.compile crowdedTree = (u, .ok report) ∧
    Accounts crowdAttempts (.ofAttempts crowdAttempts) ∧ report.symbols = ["a".toList] ∧
      report.skipped = [⟨binaryIcon.path, .unreadable .notText⟩] ∧
      report.collisions = [⟨"a".toList, dotIcon.path, secondIcon.path⟩,
        ⟨"a".toList, secondIcon.path, thirdIcon.path⟩] := by
  have hcompile := compile_of_locate ["o.svg".toList] scan_crowdedTree (by cbv) (by cbv) (by decide)
  obtain ⟨haccounts, -, -, hreport⟩ := collect_accounts
  obtain ⟨hsymbols, hskipped, hcollisions⟩ := hreport _ _ _ _ hcompile
  rw [attempts_crowdedTree] at hsymbols hskipped hcollisions
  exact ⟨_, _, hcompile, haccounts _, hsymbols, hskipped, hcollisions⟩

end Compiler

end StaticSite.Sprite
