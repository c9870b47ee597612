import Mathlib.Data.List.TakeWhile
import StaticSite.Xml.Reference

namespace StaticSite.Xml
open StaticSite.Text

theorem entityOf?_eq_some {c : Char} {name : List Char} (h : entityOf? c = some name) :
    (∀ d ∈ name, (d != ';' && d != '&') = true) ∧ name.head? ≠ some '#' ∧ '"' ∉ name := by
  unfold entityOf? at h
  split at h
  case h_6 => cases h
  all_goals
    cases h
    exact ⟨List.all_eq_true.mp (by decide), by decide, by decide⟩

theorem quote_notMem_escapeChar (c : Char) : '"' ∉ escapeChar c := by
  unfold escapeChar
  split
  · rename_i name hname
    obtain ⟨-, -, hquote⟩ := entityOf?_eq_some hname
    simpa using hquote
  · rename_i hnone
    rw [List.mem_singleton]
    rintro rfl
    cases hnone

theorem quote_notMem_escape (cs : List Char) : '"' ∉ escape cs := by
  intro h
  obtain ⟨c, -, hc⟩ := List.mem_flatMap.mp h
  exact quote_notMem_escapeChar c hc

theorem resolve_of_entityOf? {c : Char} {name : List Char} (h : entityOf? c = some name)
    (start : Nat) : resolve start name = .ok c := by
  obtain ⟨-, hhead, -⟩ := entityOf?_eq_some h
  unfold resolve
  split
  · exact absurd rfl hhead
  · rw [predefined?_of_entityOf? h]

theorem unescapeFrom_of_ne {c : Char} (hc : c ≠ '&') (total offset : Nat) (cs : List Char) :
    unescapeFrom total offset (c :: cs) =
      (unescapeFrom total (offset + c.utf8Size) cs).map (c :: ·) := by
  rw [unescapeFrom, if_neg hc]

theorem unescapeFrom_reference {name : List Char}
    (hname : ∀ d ∈ name, (d != ';' && d != '&') = true) {c : Char} {offset : Nat}
    (hc : resolve offset name = .ok c) (total : Nat) (rest : List Char) :
    unescapeFrom total offset ('&' :: (name ++ ';' :: rest)) =
      (unescapeFrom total (offset + 2 + byteCount name) rest).map (c :: ·) := by
  have htake : (name ++ ';' :: rest).takeWhile (fun c => c != ';' && c != '&') = name := by
    rw [List.takeWhile_append_of_pos hname]
    simp
  have hdrop : (name ++ ';' :: rest).dropWhile (fun c => c != ';' && c != '&') = ';' :: rest := by
    rw [List.dropWhile_append_of_pos hname]
    simp
  rw [unescapeFrom, if_pos rfl]
  simp only [htake]
  split
  · rename_i tail heq
    rw [hdrop] at heq
    obtain ⟨-, rfl⟩ := List.cons.inj heq
    rw [hc]
    cases unescapeFrom total (offset + 2 + byteCount name) rest <;> rfl
  · rename_i hnot
    exact absurd hdrop (hnot rest)

theorem unescapeFrom_escape (total offset : Nat) (cs : List Char) :
    unescapeFrom total offset (escape cs) = .ok cs := by
  induction cs generalizing offset with
  | nil => rw [escape, List.flatMap_nil, unescapeFrom]
  | cons c cs ih =>
    change unescapeFrom total offset (escapeChar c ++ escape cs) = .ok (c :: cs)
    unfold escapeChar
    split
    · rename_i name hname
      rw [List.cons_append, List.append_assoc, List.singleton_append,
        unescapeFrom_reference (entityOf?_eq_some hname).1 (resolve_of_entityOf? hname offset), ih]
      rfl
    · rename_i hnone
      have hc : c ≠ '&' := by
        rintro rfl
        cases hnone
      rw [List.singleton_append, unescapeFrom_of_ne hc, ih]
      rfl

theorem unescape_escape (cs : List Char) : unescape (escape cs) = .ok cs :=
  unescapeFrom_escape _ _ cs

end StaticSite.Xml
