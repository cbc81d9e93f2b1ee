/-!
# Text of field values

A field value that can be read as text is a list of characters. This module
holds what reading a list-valued field needs: cutting at separators, trimming
blanks, and comparing without regard to letter case. Blanks are the characters with
the Unicode property White_Space.

* `intercalate_split`, `split_intercalate`: cutting and joining undo each other.
* `split_append`: splitting at a separator that stands there.
* `trim_cons`, `trim_append_cons`: what trimming leaves of a text.
* `trim_append_blanks`, `exists_blanks_trim`: what it takes away are blanks at the two ends.
-/

namespace ContentCoding

/-- Characters of a field value, in order. -/
abbrev Text := List Char

namespace Text

/-- The code points with the property White_Space, as closed ranges. -/
def blankRanges : List (Nat × Nat) :=
  [(0x09, 0x0D), (0x20, 0x20), (0x85, 0x85), (0xA0, 0xA0), (0x1680, 0x1680),
   (0x2000, 0x200A), (0x2028, 0x2029), (0x202F, 0x202F), (0x205F, 0x205F), (0x3000, 0x3000)]

/-- Whether a character is blank. -/
def isBlank (c : Char) : Bool :=
  blankRanges.any fun r => r.1 ≤ c.toNat && c.toNat ≤ r.2

/-- The property has twenty-five members. -/
example : (blankRanges.map fun r => r.2 - r.1 + 1).sum = 25 := by decide

variable {sep c : Char} {s t : Text}

/-- **Split at a separator.** The pieces between its occurrences, one more than
there are occurrences. -/
def split (sep : Char) : Text → List Text
  | [] => [[]]
  | c :: s => if c = sep then [] :: split sep s else (split sep s).modifyHead (c :: ·)

/-- **Cut at the first separator.** What stands before it, and what stands after
it if there is one. -/
def cut (sep : Char) (s : Text) : Text × Option Text :=
  (s.takeWhile (· != sep), (s.dropWhile (· != sep)).tail?)

/-- The text without the blanks at its two ends. -/
def trim (s : Text) : Text :=
  ((s.dropWhile isBlank).reverse.dropWhile isBlank).reverse

/-- **Letter case folded.** ASCII letters become lower case, all else stays. -/
def fold (s : Text) : Text := s.map Char.toLower

/-- Whether two texts differ at most in the case of ASCII letters. -/
def sameFolded (s t : Text) : Bool := fold s == fold t

@[simp] theorem split_nil : split sep [] = [[]] := rfl

theorem split_ne_nil : split sep s ≠ [] := by
  induction s with
  | nil => simp
  | cons c s ih =>
    simp only [split]
    split
    · simp
    · cases h : split sep s with
      | nil => exact absurd h ih
      | cons => simp

theorem intercalate_split : [sep].intercalate (split sep s) = s := by
  induction s with
  | nil => rfl
  | cons c s ih =>
    obtain ⟨p, ps, h⟩ := List.exists_cons_of_ne_nil (@split_ne_nil sep s)
    rw [h] at ih
    subst ih
    by_cases hc : c = sep
    · cases ps <;> simp_all [split, List.intercalate]
    · cases ps <;> simp_all [split, List.intercalate]

theorem split_append (s t : Text) : split sep (s ++ sep :: t) = split sep s ++ split sep t := by
  induction s with
  | nil => simp [split]
  | cons c s ih =>
    by_cases hc : c = sep
    · simp [split, hc, ih]
    · obtain ⟨p, ps, h⟩ := List.exists_cons_of_ne_nil (@split_ne_nil sep s)
      simp [split, hc, ih, h]

theorem split_of_not_mem (h : sep ∉ s) : split sep s = [s] := by
  induction s with
  | nil => rfl
  | cons c s ih =>
    simp only [List.mem_cons, not_or] at h
    simp [split, Ne.symm h.1, ih h.2]

theorem split_intercalate {ps : List Text} (hne : ps ≠ []) (h : ∀ p ∈ ps, sep ∉ p) :
    split sep ([sep].intercalate ps) = ps := by
  induction ps with
  | nil => exact absurd rfl hne
  | cons p ps ih =>
    have hp : split sep p = [p] := split_of_not_mem (h p (List.mem_cons_self ..))
    cases ps with
    | nil => simpa [List.intercalate] using hp
    | cons q qs =>
      have hrest := ih (List.cons_ne_nil q qs) fun r hr => h r (List.mem_cons_of_mem p hr)
      have hjoin : [sep].intercalate (p :: q :: qs) = p ++ sep :: [sep].intercalate (q :: qs) := by
        simp [List.intercalate]
      rw [hjoin, split_append, hp, hrest]
      rfl

/-- No piece of a split has the separator. -/
theorem not_mem_of_mem_split {p : Text} (h : p ∈ split sep s) : sep ∉ p := by
  induction s generalizing p with
  | nil =>
    rw [List.mem_singleton.1 h]
    exact List.not_mem_nil
  | cons c s ih =>
    obtain ⟨q, qs, hs⟩ := List.exists_cons_of_ne_nil (@split_ne_nil sep s)
    rw [hs] at ih
    by_cases hc : c = sep
    · rw [split, if_pos hc, hs] at h
      rcases List.mem_cons.1 h with rfl | h
      · exact List.not_mem_nil
      · exact ih h
    · rw [split, if_neg hc, hs, List.modifyHead_cons] at h
      rcases List.mem_cons.1 h with rfl | h
      · have hq := ih (List.mem_cons_self ..)
        simp [Ne.symm hc, hq]
      · exact ih (List.mem_cons_of_mem q h)

theorem trim_cons (h : isBlank c = true) : trim (c :: s) = trim s := by
  simp [trim, h]

theorem trim_concat (h : isBlank c = true) : trim (s ++ [c]) = trim s := by
  by_cases hs : s.dropWhile isBlank = []
  · simp [trim, List.dropWhile_append, hs, h]
  · simp [trim, List.dropWhile_append, hs, h]

/-- What trimming leaves around a character that is no blank. -/
theorem trim_append_cons (h : isBlank c = false) (s t : Text) :
    trim (s ++ c :: t) = s.dropWhile isBlank ++ c :: (t.reverse.dropWhile isBlank).reverse := by
  have hdrop (s t : Text) :
      (s ++ c :: t).dropWhile isBlank = s.dropWhile isBlank ++ c :: t := by
    by_cases hs : s.dropWhile isBlank = []
    · simp [List.dropWhile_append, hs, h]
    · simp [List.dropWhile_append, hs]
  rw [trim, hdrop, List.reverse_append, List.reverse_cons, List.append_assoc, List.singleton_append,
    hdrop]
  simp

/-- Trimming what was trimmed at its end. -/
theorem trim_dropWhile_reverse (s : Text) :
    trim (s.reverse.dropWhile isBlank).reverse = trim s := by
  suffices h : ∀ r : Text, trim (r.dropWhile isBlank).reverse = trim r.reverse by
    simpa using h s.reverse
  intro r
  induction r with
  | nil => rfl
  | cons c r ih =>
    by_cases hc : isBlank c = true
    · rw [List.dropWhile_cons_of_pos hc, ih, List.reverse_cons, trim_concat hc]
    · rw [List.dropWhile_cons_of_neg hc]

/-- Trimming what was trimmed at its beginning. -/
theorem trim_dropWhile (s : Text) : trim (s.dropWhile isBlank) = trim s := by
  induction s with
  | nil => rfl
  | cons c s ih =>
    by_cases hc : isBlank c = true
    · rw [List.dropWhile_cons_of_pos hc, ih, trim_cons hc]
    · rw [List.dropWhile_cons_of_neg hc]

@[simp] theorem trim_trim : trim (trim s) = trim s := by
  have h := trim_dropWhile_reverse (s.dropWhile isBlank)
  rwa [trim_dropWhile] at h

/-- Blanks at the two ends do not count. -/
theorem trim_append_blanks {front back : Text} (hf : front.all isBlank = true)
    (hb : back.all isBlank = true) (s : Text) : trim (front ++ s ++ back) = trim s := by
  have hfront : (front ++ s ++ back).dropWhile isBlank = (s ++ back).dropWhile isBlank := by
    rw [List.append_assoc, List.dropWhile_append_of_pos (List.all_eq_true.1 hf)]
  have hback : (s ++ back).reverse.dropWhile isBlank = s.reverse.dropWhile isBlank := by
    rw [List.reverse_append,
      List.dropWhile_append_of_pos fun c hc => List.all_eq_true.1 hb c (List.mem_reverse.1 hc)]
  rw [← trim_dropWhile, hfront, trim_dropWhile, ← trim_dropWhile_reverse, hback,
    trim_dropWhile_reverse]

/-- **What trimming takes away** are blanks at the two ends. -/
theorem exists_blanks_trim (s : Text) : ∃ front back : Text, front.all isBlank = true ∧
    back.all isBlank = true ∧ s = front ++ trim s ++ back := by
  let rest := s.dropWhile isBlank
  refine ⟨s.takeWhile isBlank, (rest.reverse.takeWhile isBlank).reverse, List.all_takeWhile, ?_, ?_⟩
  · rw [List.all_reverse, List.all_takeWhile]
  · have hrest : trim s ++ (rest.reverse.takeWhile isBlank).reverse = rest := by
      rw [trim, ← List.reverse_append, List.takeWhile_append_dropWhile, List.reverse_reverse]
    rw [List.append_assoc, hrest, List.takeWhile_append_dropWhile]

theorem trim_of_no_blank (h : s.any isBlank = false) : trim s = s := by
  have hdrop {s : Text} (h : s.any isBlank = false) : s.dropWhile isBlank = s := by
    cases s with
    | nil => rfl
    | cons c s => exact List.dropWhile_cons_of_neg (List.any_eq_false.1 h c (List.mem_cons_self ..))
  rw [trim, hdrop h, hdrop (by rw [List.any_reverse, h]), List.reverse_reverse]

theorem mem_of_mem_trim (h : c ∈ trim s) : c ∈ s := by
  have hend := (List.dropWhile_sublist isBlank).subset (List.mem_reverse.1 h)
  exact (List.dropWhile_sublist isBlank).subset (List.mem_reverse.1 hend)

theorem cut_append (h : sep ∉ s) (t : Text) : cut sep (s ++ sep :: t) = (s, some t) := by
  have hs : ∀ c ∈ s, (c != sep) = true := fun c hc => bne_iff_ne.2 fun he => h (he ▸ hc)
  simp [cut, List.takeWhile_append_of_pos hs, List.dropWhile_append_of_pos hs]

theorem cut_of_not_mem (h : sep ∉ s) : cut sep s = (s, none) := by
  induction s with
  | nil => rfl
  | cons c s ih =>
    simp only [List.mem_cons, not_or] at h
    have hs := ih h.2
    simp only [cut, Prod.mk.injEq] at hs ⊢
    simp [Ne.symm h.1, hs]

theorem sameFolded_iff : sameFolded s t ↔ fold s = fold t := by
  simp [sameFolded]

theorem toLower_of_isBlank (h : isBlank c = true) : c.toLower = c := by
  refine dif_neg fun hc => ?_
  have key : ∀ n < 128, 65 ≤ n → n ≤ 90 → isBlank (Char.ofNat n) = false := by decide
  have hl : 'A'.toNat ≤ c.toNat := UInt32.le_iff_toNat_le.1 hc.1
  have hu : c.toNat ≤ 'Z'.toNat := UInt32.le_iff_toNat_le.1 hc.2
  have hno := key c.toNat (Nat.lt_of_le_of_lt hu (by decide)) hl hu
  rw [Char.ofNat_toNat, h] at hno
  cases hno

/-- Folding leaves blanks as they are. -/
theorem no_blank_of_fold (h : (fold s).any isBlank = false) : s.any isBlank = false := by
  rw [List.any_eq_false] at h ⊢
  intro c hc hb
  exact h c (List.mem_map.2 ⟨c, hc, toLower_of_isBlank hb⟩) hb

end Text

end ContentCoding
