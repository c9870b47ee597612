import StaticSite.Text.Search
import StaticSite.Text.Utf8

namespace StaticSite.Text

theorem length_utf8 (cs : List Char) : (utf8 cs).length = byteCount cs := by
  induction cs with
  | nil => rfl
  | cons c cs ih =>
    rw [utf8_cons, List.length_append, String.length_utf8EncodeChar, ih, byteCount_cons]

theorem utf8EncodeChar_ne_nil (c : Char) : String.utf8EncodeChar c ≠ [] := by
  apply List.ne_nil_of_length_pos
  rw [String.length_utf8EncodeChar]
  exact c.utf8Size_pos

theorem utf8EncodeChar_append_inj {c d : Char} {as bs : List UInt8}
    (h : String.utf8EncodeChar c ++ as = String.utf8EncodeChar d ++ bs) : c = d ∧ as = bs := by
  have hdecode (c : Char) (as : List UInt8) :
      (String.utf8EncodeChar c ++ as).toByteArray.utf8DecodeChar? 0 = some c := by
    rw [List.toByteArray_append]
    exact ByteArray.utf8DecodeChar?_utf8EncodeChar_append
  have hc := hdecode c as
  rw [h, hdecode] at hc
  obtain rfl := Option.some.inj hc
  exact ⟨rfl, List.append_cancel_left h⟩

theorem eq_append_of_utf8_eq {cs m : List Char} {as : List UInt8} (h : utf8 cs = utf8 m ++ as) :
    ∃ after, cs = m ++ after ∧ utf8 after = as := by
  induction m generalizing cs with
  | nil => exact ⟨cs, rfl, h⟩
  | cons d m ih =>
    rw [utf8_cons, List.append_assoc] at h
    cases cs with
    | nil =>
      have hnil := (List.append_eq_nil_iff.mp h.symm).1
      exact absurd hnil (utf8EncodeChar_ne_nil d)
    | cons c cs =>
      rw [utf8_cons] at h
      obtain ⟨rfl, hrest⟩ := utf8EncodeChar_append_inj h
      obtain ⟨after, rfl, hafter⟩ := ih hrest
      exact ⟨after, rfl, hafter⟩

theorem length_encodeChar_le {c d : Char} {as bs cs : List UInt8} (hbs : bs ≠ [])
    (h : String.utf8EncodeChar c ++ as = bs ++ (String.utf8EncodeChar d ++ cs)) :
    (String.utf8EncodeChar c).length ≤ bs.length := by
  apply Nat.le_of_not_lt
  intro hlt
  obtain ⟨first, rest, hd⟩ := List.exists_cons_of_ne_nil (utf8EncodeChar_ne_nil d)
  have hfirst : first.IsUTF8FirstByte := by
    have := @UInt8.isUTF8FirstByte_getElem_zero_utf8EncodeChar d
    simpa only [hd, List.getElem_cons_zero] using this
  have hat : (String.utf8EncodeChar c)[bs.length] = first := by
    have hwhole := congrArg (fun l => l[bs.length]?) h
    simp only [List.getElem?_append_left hlt, List.getElem?_append_right (Nat.le_refl _), hd,
      Nat.sub_self, List.cons_append, List.getElem?_cons_zero] at hwhole
    rw [List.getElem?_eq_getElem hlt] at hwhole
    exact Option.some.inj hwhole
  rw [← hat, UInt8.isUTF8FirstByte_getElem_utf8EncodeChar] at hfirst
  exact hbs (List.length_eq_zero_iff.mp hfirst)

theorem exists_texts_of_utf8_eq {cs m : List Char} {bs as : List UInt8} (hm : m ≠ [])
    (h : utf8 cs = bs ++ (utf8 m ++ as)) :
    ∃ before after, cs = before ++ (m ++ after) ∧ utf8 before = bs ∧ utf8 after = as := by
  induction cs generalizing bs with
  | nil =>
    obtain ⟨d, m, rfl⟩ := List.exists_cons_of_ne_nil hm
    have hnil := (List.append_eq_nil_iff.mp (List.append_eq_nil_iff.mp h.symm).2).1
    rw [utf8_cons, List.append_eq_nil_iff] at hnil
    exact absurd hnil.1 (utf8EncodeChar_ne_nil d)
  | cons c cs ih =>
    by_cases hbs : bs = []
    · subst hbs
      obtain ⟨after, hcs, hafter⟩ := eq_append_of_utf8_eq h
      exact ⟨[], after, hcs, rfl, hafter⟩
    · have hlength : (String.utf8EncodeChar c).length ≤ bs.length := by
        obtain ⟨d, m, rfl⟩ := List.exists_cons_of_ne_nil hm
        rw [utf8_cons, utf8_cons, List.append_assoc] at h
        exact length_encodeChar_le hbs h
      rw [utf8_cons] at h
      obtain ⟨more, rfl⟩ : String.utf8EncodeChar c <+: bs :=
        List.prefix_of_prefix_length_le ⟨_, h⟩ (List.prefix_append _ _) hlength
      rw [List.append_assoc] at h
      obtain ⟨before, after, rfl, rfl, hafter⟩ := ih (List.append_cancel_left h)
      exact ⟨c :: before, after, rfl, utf8_cons c before, hafter⟩

end StaticSite.Text
