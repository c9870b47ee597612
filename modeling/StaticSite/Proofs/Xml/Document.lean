import StaticSite.Proofs.Xml.Attributes
import StaticSite.Proofs.Xml.Forest

namespace StaticSite.Xml

def nameStarts : List (Nat × Nat) :=
  [(0x3A, 0x3A), (0x41, 0x5A), (0x5F, 0x5F), (0x61, 0x7A), (0xC0, 0xD6), (0xD8, 0xF6),
    (0xF8, 0x2FF), (0x370, 0x37D), (0x37F, 0x1FFF), (0x200C, 0x200D), (0x2070, 0x218F),
    (0x2C00, 0x2FEF), (0x3001, 0xD7FF), (0xF900, 0xFDCF), (0xFDF0, 0xFFFD), (0x10000, 0xEFFFF)]

def nameParts : List (Nat × Nat) :=
  [(0x2D, 0x2E), (0x30, 0x39), (0xB7, 0xB7), (0x300, 0x36F), (0x203F, 0x2040)]

def isWithin (ranges : List (Nat × Nat)) (c : Char) : Bool :=
  ranges.any fun (low, high) => low ≤ c.toNat && c.toNat ≤ high

def isNamePart (c : Char) : Bool :=
  isWithin nameStarts c || isWithin nameParts c

def isName : List Char → Bool
  | [] => false
  | c :: cs => isWithin nameStarts c && cs.all isNamePart

theorem ne_nil_of_isName {name : List Char} (h : isName name = true) : name ≠ [] := by
  rintro rfl
  cases h

theorem isNamePart_of_isName {name : List Char} (h : isName name = true) :
    ∀ c ∈ name, isNamePart c = true := by
  cases name with
  | nil => cases h
  | cons c cs =>
    simp only [isName, Bool.and_eq_true, List.all_eq_true] at h
    refine List.forall_mem_cons.mpr ⟨?_, h.2⟩
    rw [isNamePart, h.1, Bool.true_or]

theorem isTagPlain_of_isNamePart {c : Char} (h : isNamePart c = true) : isTagPlain c = true := by
  have hnot (d : Char) (hd : isNamePart d = false) : c ≠ d := by
    rintro rfl
    rw [h] at hd
    cases hd
  simp [isTagPlain, isQuote, hnot '>' (by decide), hnot '"' (by decide), hnot '\'' (by decide)]

theorem getLast?_of_isName {name : List Char} (h : isName name = true) :
    name.getLast? ≠ some '/' := by
  intro hlast
  have hslash := isNamePart_of_isName h '/' (List.mem_of_getLast? hlast)
  exact absurd hslash (by decide)

def Event.isMisc : Event → Bool
  | .text content => content.all isBlank
  | .comment _ | .declaration _ | .instruction _ | .doctype _ => true
  | _ => false

def Tag.HasNames (t : Tag) : Prop :=
  isName t.name = true ∧ ∃ as, Spells t.attributeText as ∧ (as.map (·.key)).Nodup ∧
    ∀ a ∈ as, isName a.key = true

structure Forest.IsDocument (f : Forest) : Prop where
  root : ∃ front root back, f.top = front ++ root :: back ∧ root.isTag = true ∧
    ∀ e ∈ front ++ back, e.isMisc = true
  names : ∀ closed t, .ofTag closed t ∈ f.events → t.HasNames

theorem Forest.IsDocument.isMisc_of_mem {f : Forest} (h : f.IsDocument) {e : Event}
    (he : e ∈ f.top) (htag : e.isTag = false) : e.isMisc = true := by
  obtain ⟨front, root, back, htop, hroot, hmisc⟩ := h.root
  rw [htop] at he
  rcases List.mem_append.mp he with he | he
  · exact hmisc e (List.mem_append_left _ he)
  · rcases List.mem_cons.mp he with rfl | he
    · rw [hroot] at htag
      cases htag
    · exact hmisc e (List.mem_append_right _ he)

end StaticSite.Xml
