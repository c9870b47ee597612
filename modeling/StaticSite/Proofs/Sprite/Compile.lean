import StaticSite.Proofs.FileTree.Growth
import StaticSite.Sprite.Compiler

namespace StaticSite.Sprite.Compiler
open StaticSite.FileTree

variable {c : Compiler} {t u : FileTree} {report : Report}

theorem write_eq_ok_iff_puts : c.write t = (u, .ok ()) ↔ t.Puts c.output (.text (c.sheetOf t)) u := by
  unfold write Puts
  split
  · rename_i hcreate
    simp [hcreate]
  · rename_i v _ hcreate
    rw [hcreate]
    split
    · rename_i hwrite
      simp [hwrite]
    · rename_i hwrite
      simp [hwrite]

theorem compile_eq_ok_iff : c.compile t = (u, .ok report) ↔
    (Icon.scan t c.iconsDir = [] ∧ u = t ∧ report = ⟨[], false, [], []⟩) ∨
      (Icon.scan t c.iconsDir ≠ [] ∧ t.Puts c.output (.text (c.sheetOf t)) u ∧
        report = ⟨(c.collection t).symbols.map (·.1.id), true, (c.collection t).skipped,
          (c.collection t).collisions⟩) := by
  rw [← write_eq_ok_iff_puts, compile]
  by_cases hnone : Icon.scan t c.iconsDir = []
  · rw [if_pos (by simpa using hnone)]
    simp only [hnone, Prod.mk.injEq, Except.ok.injEq, true_and, ne_eq, not_true_eq_false,
      false_and, or_false]
    constructor
    · rintro ⟨rfl, rfl⟩
      exact ⟨rfl, rfl⟩
    · rintro ⟨rfl, rfl⟩
      exact ⟨rfl, rfl⟩
  · rw [if_neg (by simpa using hnone)]
    simp only [hnone, false_and, ne_eq, not_false_eq_true, true_and, false_or]
    split
    · rename_i hwrite
      simp [hwrite]
    · rename_i v _ hwrite
      simp only [hwrite, Prod.mk.injEq, Except.ok.injEq, and_true]
      constructor
      · rintro ⟨rfl, rfl⟩
        exact ⟨rfl, rfl⟩
      · rintro ⟨rfl, rfl⟩
        exact ⟨rfl, rfl⟩

theorem compile_of_locate (place : Location) {icon : Icon} {icons : List Icon}
    (hscan : Icon.scan t c.iconsDir = icon :: icons)
    (hparent : t.createParent c.output = (t, .ok ()))
    (hlocate : t.locate .created c.output = .ok place) (hfree : t.get? place ≠ some .directory) :
    c.compile t = (t.set place (.file (.text (c.sheetOf t))),
      .ok ⟨(c.collection t).symbols.map (·.1.id), true, (c.collection t).skipped,
        (c.collection t).collisions⟩) := by
  have hputs : t.Puts c.output (.text (c.sheetOf t))
      (t.set place (.file (.text (c.sheetOf t)))) :=
    ⟨t, hparent, FileTree.write_eq_ok_iff.mpr ⟨place, hlocate, hfree, rfl⟩⟩
  exact compile_eq_ok_iff.mpr (.inr ⟨hscan.trans_ne (List.cons_ne_nil _ _), hputs, rfl⟩)

theorem report_of_compile (h : c.compile t = (u, .ok report)) :
    report.symbols = (c.collection t).symbols.map (·.1.id) ∧
      report.skipped = (c.collection t).skipped ∧
        report.collisions = (c.collection t).collisions := by
  rcases compile_eq_ok_iff.mp h with ⟨hnone, -, rfl⟩ | ⟨-, -, rfl⟩
  · rw [collection, hnone]
    exact ⟨rfl, rfl, rfl⟩
  · exact ⟨rfl, rfl, rfl⟩

theorem writes_write {result : Except SpriteError Unit} (ht : t.Proper)
    (h : c.write t = (u, result)) : Writes [c.output] t u := by
  unfold write at h
  split at h
  · rename_i hcreate
    obtain ⟨rfl, -⟩ := Prod.mk.inj h
    exact writes_createParent ht hcreate
  · rename_i v _ hcreate
    have hparent : Writes [c.output] t v := writes_createParent ht hcreate
    split at h
    · rename_i hwrite
      obtain ⟨rfl, -⟩ := Prod.mk.inj h
      exact hparent.trans (FileTree.writes_write hparent.proper hwrite)
    · obtain ⟨rfl, -⟩ := Prod.mk.inj h
      exact hparent

theorem writes_compile {result : Except SpriteError Report} (ht : t.Proper)
    (h : c.compile t = (u, result)) : Writes [c.output] t u := by
  unfold compile at h
  split at h
  · obtain ⟨rfl, -⟩ := Prod.mk.inj h
    exact .refl ht
  · dsimp only at h
    split at h
    · rename_i hwrite
      obtain ⟨rfl, -⟩ := Prod.mk.inj h
      exact writes_write ht hwrite
    · rename_i hwrite
      obtain ⟨rfl, -⟩ := Prod.mk.inj h
      exact writes_write ht hwrite

theorem grows_compile (ht : t.Proper) (h : c.compile t = (u, .ok report)) : t.Grows u :=
  (writes_compile ht h).toGrows

end StaticSite.Sprite.Compiler
