import StaticSite.Page.Directive
import StaticSite.Page.Resolver
import StaticSite.Proofs.Path.Normalize

namespace StaticSite.Page
open StaticSite.Text StaticSite.Path

variable {r : Resolver} {source : Path} {rest : List Char}

theorem target_alias (hsource : r.sourceRoot = some source) (rest : List Char) (base : Path) :
    r.target ("@components/".toList ++ rest) base =
      ((source.join ⟨r.componentsDir⟩).join ⟨rest⟩).normalize r.here := by
  have hafter : after? "@components/".toList ("@components/".toList ++ rest) = some rest :=
    after?_eq_some_iff.mpr rfl
  rw [Resolver.target, hafter, Resolver.componentsRoot, hsource]
  rfl

/-- The directory decides where an aliased import leads, whatever imports it. That is at the names
behind the alias in the component directory, exactly if no slash begins what is behind it. Else that
is a path of its own, so that the directory has to be the root. (With an empty source root and an
empty directory name there is no directory.) -/
theorem target_alias_iff (hhere : ∀ name ∈ r.here, IsName name)
    (hsource : r.sourceRoot = some source) (hparent : ['.', '.'] ∉ splitSlash rest) :
    let root := source.join ⟨r.componentsDir⟩
    ∃ target, (∀ base, r.target ("@components/".toList ++ rest) base = target) ∧
      (target.components = (root.normalize r.here).components ++ (spoken rest).map .normal ↔
        ((Path.mk rest).isAbsolute = true → root.normalize r.here = ofLocation []) ∧
          (root.chars = [] → rest = [])) := by
  intro root
  refine ⟨(root.join ⟨rest⟩).normalize r.here, target_alias hsource rest, ?_⟩
  cases hrest : (Path.mk rest).isAbsolute with
  | true =>
    have hjoin : root.join ⟨rest⟩ = ⟨rest⟩ := if_pos hrest
    rw [hjoin, components_normalize_absolute hhere hrest hparent, ← List.singleton_append,
      List.append_left_inj, eq_comm, components_normalize_eq_root_iff hhere]
    constructor
    · intro hroot
      refine ⟨fun _ => hroot, fun hnil => ?_⟩
      rw [normalize_of_nil hnil] at hroot
      cases hroot
    · rintro ⟨hroot, -⟩
      exact hroot rfl
  | false =>
    rw [and_iff_right (by simp)]
    by_cases hroot : root.chars = []
    · have hjoin : root.join ⟨rest⟩ = ⟨rest⟩ := by
        rw [join, hrest, hroot]
        rfl
      rw [hjoin, normalize_of_nil hroot, forall_prop_of_true hroot]
      change _ = (spoken rest).map Component.normal ↔ _
      rw [components_normalize_eq_names_iff hhere]
      refine ⟨And.left, ?_⟩
      rintro rfl
      exact ⟨rfl, rfl⟩
    · exact iff_of_true (components_normalize_join hhere hroot hrest hparent)
        fun hnil => absurd hnil hroot

section site

def siteResolver : Resolver :=
  .ofRoot ["work".toList] (some (.ofString "/site/src")) Resolver.defaultComponentsDir

def itemName : List Char := ".//@nav/./item.html".toList

theorem target_item : (∀ name ∈ siteResolver.here, IsName name) ∧
    siteResolver.sourceRoot = some (.ofString "/site/src") ∧ ['.', '.'] ∉ splitSlash itemName ∧
      ∃ target, (∀ base, siteResolver.target ("@components/".toList ++ itemName) base = target) ∧
        target.components =
          ((Path.ofString "/site/src/components").normalize siteResolver.here).components ++
            [.normal "@nav".toList, .normal "item.html".toList] := by
  have hhere : ∀ name ∈ siteResolver.here, IsName name := by decide
  have hsource : siteResolver.sourceRoot = some (.ofString "/site/src") := by decide
  have hparent : ['.', '.'] ∉ splitSlash itemName := by decide
  obtain ⟨target, htarget, hplace⟩ := target_alias_iff hhere hsource hparent
  exact ⟨hhere, hsource, hparent, target, htarget, hplace.mpr (by decide)⟩

theorem target_slash : "@components//a.html".toList.all isPathChar = true ∧
    siteResolver.sourceRoot = some (.ofString "/site/src") ∧
    (Path.mk siteResolver.componentsDir).isAbsolute = false ∧
    ['.', '.'] ∉ splitSlash "/a.html".toList ∧
    siteResolver.target "@components//a.html".toList (.ofString "/site/src/pages") =
      .ofString "/a.html" ∧
    (Path.ofString "/a.html").startsWith
      ((Path.ofString "/site/src/components").normalize siteResolver.here) = false := by
  decide

end site

end StaticSite.Page
