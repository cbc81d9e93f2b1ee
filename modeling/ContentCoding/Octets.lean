import ContentCoding.Text

/-!
# Octets

Bodies and field values are lists of octets. A field value can be read as text
when every octet is a tab or a printable ASCII character.

* `text?_ofText`: what was written as visible text reads back.
* `text?_eq_some_iff`, `text?_iff_visible`: a value has at most one reading, and when it has one.
-/

namespace ContentCoding

/-- **A visible text**: it has tabs and printable ASCII characters and no others. -/
def Text.Visible (s : Text) : Prop := ∀ c ∈ s, c.toNat = 9 ∨ 32 ≤ c.toNat ∧ c.toNat ≤ 126

/-- Octets of a body or of a field value, in order. -/
abbrev Octets := List UInt8

namespace Octets

/-- A tab or a printable ASCII character. -/
def isVisible (b : UInt8) : Bool := b == 9 || (32 ≤ b && b ≤ 126)

/-- **The value as text**, when all of it is visible. -/
def text? (v : Octets) : Option Text :=
  if v.all isVisible then some (v.map fun b => Char.ofNat b.toNat) else none

/-- The octets of an ASCII text, one for each character. -/
def ofText (s : Text) : Octets := s.map fun c => UInt8.ofNat c.toNat

/-- The octets of an ASCII string. -/
def ofString (s : String) : Octets := ofText s.toList

/-- Whether a character is written as one visible octet. -/
def isVisibleChar (c : Char) : Bool := c.toNat == 9 || (32 ≤ c.toNat && c.toNat ≤ 126)

theorem isVisible_of_text? {v : Octets} {s : Text} (h : text? v = some s) :
    v.all isVisible = true := by
  unfold text? at h
  split at h
  · assumption
  · cases h

theorem isVisibleChar_iff {c : Char} :
    isVisibleChar c = true ↔ c.toNat = 9 ∨ 32 ≤ c.toNat ∧ c.toNat ≤ 126 := by
  simp [isVisibleChar]

theorem isVisible_ofChar {c : Char} (h : isVisibleChar c) :
    isVisible (UInt8.ofNat c.toNat) ∧ Char.ofNat (UInt8.ofNat c.toNat).toNat = c := by
  have hc : c.toNat < 128 := by
    rw [isVisibleChar_iff] at h
    omega
  have key : ∀ n < 128, isVisibleChar (Char.ofNat n) →
      isVisible (UInt8.ofNat n) ∧ Char.ofNat (UInt8.ofNat n).toNat = Char.ofNat n := by decide
  simpa using key c.toNat hc (by simpa using h)

theorem text?_ofText {s : Text} (h : s.all isVisibleChar) : text? (ofText s) = some s := by
  have hs : ∀ c ∈ s, isVisibleChar c := List.all_eq_true.1 h
  have hv : (ofText s).all isVisible := by
    simpa [ofText] using fun c hc => (isVisible_ofChar (hs c hc)).1
  rw [text?, if_pos hv, ofText, List.map_map]
  exact congrArg some ((List.map_congr_left fun c hc => (isVisible_ofChar (hs c hc)).2).trans
    (List.map_id s))

set_option maxRecDepth 4000 in
theorem text?_eq_some_iff {v : Octets} {s : Text} :
    text? v = some s ↔ v = ofText s ∧ s.all isVisibleChar := by
  constructor
  · intro h
    simp only [text?] at h
    split at h
    · rename_i hv
      obtain rfl := Option.some.inj h
      have key : ∀ n < 256, isVisible (UInt8.ofNat n) →
          UInt8.ofNat (Char.ofNat n).toNat = UInt8.ofNat n ∧ isVisibleChar (Char.ofNat n) := by
        decide
      have key (b : UInt8) (h : isVisible b) :
          UInt8.ofNat (Char.ofNat b.toNat).toNat = b ∧ isVisibleChar (Char.ofNat b.toNat) := by
        simpa using key b.toNat b.toNat_lt (by simpa using h)
      have hb := List.all_eq_true.1 hv
      constructor
      · rw [ofText, List.map_map]
        exact ((List.map_congr_left fun b hm => (key b (hb b hm)).1).trans (List.map_id v)).symm
      · simpa using fun b hm => (key b (hb b hm)).2
    · simp at h
  · rintro ⟨rfl, h⟩
    exact text?_ofText h

/-- **Which values can be read**, and as what: the octets of a text that is visible. -/
theorem text?_iff_visible {v : Octets} {s : Text} :
    text? v = some s ↔ v = ofText s ∧ s.Visible := by
  simp only [text?_eq_some_iff, List.all_eq_true, isVisibleChar_iff, Text.Visible]

end Octets

end ContentCoding
