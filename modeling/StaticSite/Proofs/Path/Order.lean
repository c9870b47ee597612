import Mathlib.Data.Char
import Mathlib.Data.List.Lex
import Mathlib.Data.Prod.Lex
import StaticSite.Path

namespace StaticSite.Path

theorem nameBefore_iff (m n : List Char) : nameBefore m n = true ↔ m < n := by
  induction m generalizing n with
  | nil => cases n <;> simp [nameBefore]
  | cons c m ih =>
    cases n with
    | nil => simp [nameBefore]
    | cons d n => simp [nameBefore, ih, List.cons_lt_cons_iff]

def Component.key (c : Component) : ℕ ×ₗ List Char :=
  match c with
  | .normal name => toLex (3, name)
  | c => toLex (Component.before.rank c, [])

theorem Component.key_injective : Function.Injective Component.key := by
  intro c d h
  cases c <;> cases d <;> simp_all [key, before.rank]

theorem Component.before_iff (c d : Component) : c.before d = true ↔ c.key < d.key := by
  cases c <;> cases d <;>
    simp [before, key, before.rank, nameBefore_iff, Prod.Lex.toLex_lt_toLex]

theorem componentsBefore_iff (cs ds : List Component) :
    componentsBefore cs ds = true ↔ cs.map Component.key < ds.map Component.key := by
  induction cs generalizing ds with
  | nil => cases ds <;> simp [componentsBefore]
  | cons c cs ih =>
    cases ds with
    | nil => simp [componentsBefore]
    | cons d ds =>
      simp [componentsBefore, ih, List.cons_lt_cons_iff, Component.before_iff,
        Component.key_injective.eq_iff]

def rank (p : Path) : List (ℕ ×ₗ List Char) :=
  p.components.map Component.key

theorem not_before_iff (p q : Path) : (!q.before p) = true ↔ p.rank ≤ q.rank := by
  rw [Bool.not_eq_true', Bool.eq_false_iff, ne_eq, before, componentsBefore_iff]
  exact not_lt

theorem components_eq_of_rank {p q : Path} (h : p.rank = q.rank) : p.components = q.components :=
  List.map_injective_iff.mpr Component.key_injective h

variable {α : Type} {place : α → Path}

def inOrder (place : α → Path) (a b : α) : Bool :=
  !(place b).before (place a)

theorem inOrder_iff (a b : α) : inOrder place a b = true ↔ (place a).rank ≤ (place b).rank :=
  not_before_iff _ _

theorem before_of_inOrder {a b : α} (h : inOrder place a b = true)
    (hne : (place a).components ≠ (place b).components) :
    (place a).before (place b) = true := by
  have hrank : (place a).rank ≠ (place b).rank := fun heq => hne (components_eq_of_rank heq)
  rw [before, componentsBefore_iff]
  exact lt_of_le_of_ne ((inOrder_iff a b).mp h) hrank

theorem components_ne_of_before {p q : Path} (h : p.before q = true) :
    p.components ≠ q.components := by
  intro heq
  rw [before, componentsBefore_iff, heq] at h
  exact lt_irrefl _ h

theorem pairwise_mergeSort (l : List α) : (l.mergeSort (inOrder place)).Pairwise
    fun a b => inOrder place a b = true := by
  apply List.pairwise_mergeSort
  · intro a b c hab hbc
    rw [inOrder_iff] at *
    exact hab.trans hbc
  · intro a b
    rw [Bool.or_eq_true, inOrder_iff, inOrder_iff]
    exact le_total _ _

theorem mergeSort_eq_of_perm {l₁ l₂ : List α} (h : l₁.Perm l₂)
    (hplace : ∀ a ∈ l₁, ∀ b ∈ l₁, (place a).components = (place b).components → a = b) :
    l₁.mergeSort (inOrder place) = l₂.mergeSort (inOrder place) := by
  have hperm : (l₁.mergeSort (inOrder place)).Perm (l₂.mergeSort (inOrder place)) :=
    ((List.mergeSort_perm l₁ _).trans h).trans (List.mergeSort_perm l₂ _).symm
  apply hperm.eq_of_pairwise _ (pairwise_mergeSort l₁) (pairwise_mergeSort l₂)
  intro a b ha hb hab hba
  apply hplace a (List.mem_mergeSort.mp ha) b (h.mem_iff.mpr (List.mem_mergeSort.mp hb))
  rw [inOrder_iff] at hab hba
  exact components_eq_of_rank (le_antisymm hab hba)

end StaticSite.Path
