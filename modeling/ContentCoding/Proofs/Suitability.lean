import ContentCoding.Selector
import Mathlib.Data.List.Basic
import Mathlib.Data.Nat.Digits.Defs

/-!
# Which responses are worth coding

A selector codes a response if its client takes a coding and nothing in its head speaks against it.
Here that is said of the octets of the fields, as they stand in the head. A length is a numeral
without any bound; one that is too great to be read counts as great enough, as it is.

* `numeral_iff`: the digits of a numeral, read from the left, come to its number.
* `readSize?_eq_some_iff`: sizes are read as they are written, below the bound.
* `suits_iff_worthwhile`: a selector goes by what the fields say, octet by octet.
* `select_iff_worthwhile`: **a response gets the coding that is chosen just where it is worth
  coding**, and a greater least size never adds a response nor changes its coding.
-/

namespace ContentCoding

/-- **A numeral**: the decimal digits of a number, with any zeros before them. -/
inductive Numeral : Text → Nat → Prop
  | digits {ds : List Nat} : ds ≠ [] → (∀ d ∈ ds, d < 10) →
      Numeral (ds.map Nat.digitChar) (Nat.ofDigits 10 ds.reverse)

/-- **A size as it may be written**: a numeral, or one behind a plus. -/
inductive WritesSize : Text → Nat → Prop
  | plain {s : Text} {n : Nat} : Numeral s n → WritesSize s n
  | signed {s : Text} {n : Nat} : Numeral s n → WritesSize ('+' :: s) n

section numerals

variable {s : Text} {n : Nat} {c : Char}

theorem Weight.value_map_digitChar {ds : List Nat} (h : ∀ d ∈ ds, d < 10) :
    Weight.value (ds.map Nat.digitChar) = Nat.ofDigits 10 ds.reverse := by
  rw [value, List.foldl_map, Nat.ofDigits_eq_foldr, List.foldr_reverse]
  refine List.foldl_ext _ _ _ fun n d hd => ?_
  have hc : d.digitChar.toNat = 48 + d := Nat.toNat_digitChar_of_lt_ten (h d hd)
  have h0 : '0'.toNat = 48 := rfl
  simp only [hc, h0, Nat.cast_id]
  omega

/-- A digit is that of its number. -/
theorem digitChar_of_isDigit (h : c.isDigit = true) :
    c.toNat - 48 < 10 ∧ (c.toNat - 48).digitChar = c := by
  obtain ⟨hl, hu⟩ := Char.isDigit_iff_toNat.1 h
  have h0 : '0'.toNat = 48 := rfl
  have h9 : '9'.toNat = 57 := rfl
  have hd : c.toNat - 48 < 10 := by omega
  refine ⟨hd, Char.toNat_inj.1 ?_⟩
  rw [Nat.toNat_digitChar_of_lt_ten hd]
  omega

/-- **What a numeral is**, by its characters. -/
theorem numeral_iff :
    Numeral s n ↔ s ≠ [] ∧ s.all Char.isDigit = true ∧ Weight.value s = n := by
  constructor
  · rintro ⟨hne, hds⟩
    refine ⟨by simpa using hne, ?_, Weight.value_map_digitChar hds⟩
    simpa [Nat.isDigit_digitChar] using hds
  · rintro ⟨hne, hall, rfl⟩
    have hdigit := fun c hc => digitChar_of_isDigit (List.all_eq_true.1 hall c hc)
    have hs : (s.map fun c => c.toNat - 48).map Nat.digitChar = s := by
      rw [List.map_map]
      exact (List.map_congr_left fun c hc => (hdigit c hc).2).trans (List.map_id s)
    have hds : ∀ d ∈ s.map fun c => c.toNat - 48, d < 10 := by
      intro d hd
      obtain ⟨c, hc, rfl⟩ := List.mem_map.1 hd
      exact (hdigit c hc).1
    have hnumeral := Numeral.digits (by simpa using hne) hds
    rwa [← Weight.value_map_digitChar hds, hs] at hnumeral

/-- A plus begins no numeral. -/
theorem not_numeral_plus : ¬ Numeral ('+' :: s) n := by
  rw [numeral_iff]
  rintro ⟨-, hall, -⟩
  cases (List.all_eq_true.1 hall '+' (List.mem_cons_self ..))

/-- **Sizes are read as they are written**, as long as they are below the bound. -/
theorem readSize?_eq_some_iff : readSize? s = some n ↔ WritesSize s n ∧ n < sizeBound := by
  -- what is done once a plus was taken off
  have hdigits (ds : Text) :
      (if ds ≠ [] ∧ ds.all Char.isDigit = true then
        if Weight.value ds < sizeBound then some (Weight.value ds) else none
      else none) = some n ↔ Numeral ds n ∧ n < sizeBound := by
    rw [numeral_iff]
    by_cases hds : ds ≠ [] ∧ ds.all Char.isDigit = true
    · rw [if_pos hds, Option.ite_none_right_eq_some]
      constructor
      · rintro ⟨hlt, hv⟩
        obtain rfl := Option.some.inj hv
        exact ⟨⟨hds.1, hds.2, rfl⟩, hlt⟩
      · rintro ⟨⟨-, -, rfl⟩, hlt⟩
        exact ⟨hlt, rfl⟩
    · rw [if_neg hds]
      exact ⟨nofun, fun h => absurd ⟨h.1.1, h.1.2.1⟩ hds⟩
  by_cases hplus : ∃ ds, s = '+' :: ds
  · obtain ⟨ds, rfl⟩ := hplus
    have hwrites : WritesSize ('+' :: ds) n ↔ Numeral ds n := by
      refine ⟨fun h => ?_, .signed⟩
      cases h with
      | plain h => exact absurd h not_numeral_plus
      | signed h => exact h
    rw [hwrites, ← hdigits ds]
    rfl
  · have hwrites : WritesSize s n ↔ Numeral s n := by
      refine ⟨fun h => ?_, .plain⟩
      cases h with
      | plain h => exact h
      | signed h => exact absurd ⟨_, rfl⟩ hplus
    rw [hwrites, ← hdigits s, readSize?]
    exact fun ds hs => hplus ⟨ds, hs⟩

theorem visible_of_writesSize (h : WritesSize s n) : s.all Octets.isVisibleChar = true := by
  have hdigits {s : Text} (h : Numeral s n) : s.all Octets.isVisibleChar = true := by
    obtain ⟨-, hall, -⟩ := numeral_iff.1 h
    refine List.all_eq_true.2 fun c hc => ?_
    obtain ⟨hl, hu⟩ := Char.isDigit_iff_toNat.1 (List.all_eq_true.1 hall c hc)
    have h0 : '0'.toNat = 48 := rfl
    have h9 : '9'.toNat = 57 := rfl
    rw [Octets.isVisibleChar_iff]
    omega
  cases h with
  | plain h => exact hdigits h
  | signed h =>
    rw [List.all_cons, hdigits h]
    rfl

end numerals

namespace Fields

variable {h : Fields} {size : Nat}

/-- **Media that are worth coding**, by the first Content-Type as far as it can be read: images only
if they are drawings, and remote calls only if they are made for browsers. -/
def SuitsMedia (h : Fields) : Prop :=
  ∀ v, h.first? .contentType = some v → v.all Octets.isVisible = true →
    (Octets.ofString "image/" <+: v → Octets.ofString "image/svg+xml" <+: v) ∧
      (Octets.ofString "application/grpc" <+: v → Octets.ofString "application/grpc-web" <+: v)

/-- **A response that is worth coding**: it is no part of something else, its media are worth it, and
it does not declare that it is smaller than a size. -/
structure Worthwhile (h : Fields) (size : Nat) : Prop where
  whole : h.values .contentRange = []
  media : h.SuitsMedia
  large : ∀ s n, h.first? .contentLength = some (Octets.ofText s) → WritesSize s n → size ≤ n

theorem isUnsuited_eq_false_iff : h.isUnsuited = false ↔ h.SuitsMedia := by
  have hpair {a b : String} (ha : a.toList.all Octets.isVisibleChar = true)
      (hb : b.toList.all Octets.isVisibleChar = true) :
      (h.hasType a && !h.hasType b) = false ↔
        ∀ v, h.first? .contentType = some v → v.all Octets.isVisible = true →
          Octets.ofString a <+: v → Octets.ofString b <+: v := by
    rw [Bool.and_eq_false_imp, hasType_iff ha, Bool.not_eq_false', hasType_iff hb]
    constructor
    · intro himp v hv hread hav
      obtain ⟨w, hw, -, hbw⟩ := himp ⟨v, hv, hread, hav⟩
      obtain rfl := Option.some.inj (hv.symm.trans hw)
      exact hbw
    · rintro himp ⟨v, hv, hread, hav⟩
      exact ⟨v, hv, hread, himp v hv hread hav⟩
  rw [isUnsuited, Bool.or_eq_false_iff, hpair (by decide) (by decide),
    hpair (by decide) (by decide)]
  constructor
  · rintro ⟨himage, hcalls⟩ v hv hread
    exact ⟨himage v hv hread, hcalls v hv hread⟩
  · intro hm
    exact ⟨fun v hv hread => (hm v hv hread).1, fun v hv hread => (hm v hv hread).2⟩

/-- **What a response declares of its length**, as it is written. -/
theorem declaredLength?_eq_some_iff {n : Nat} :
    h.declaredLength? = some n ↔
      (∃ s, h.first? .contentLength = some (Octets.ofText s) ∧ WritesSize s n) ∧ n < sizeBound := by
  rw [declaredLength?, Option.bind_eq_some_iff]
  constructor
  · rintro ⟨s, hs, hn⟩
    obtain ⟨v, hv, hread⟩ := Option.bind_eq_some_iff.1 hs
    obtain ⟨rfl, -⟩ := Octets.text?_eq_some_iff.1 hread
    obtain ⟨hwrites, hlt⟩ := readSize?_eq_some_iff.1 hn
    exact ⟨⟨s, hv, hwrites⟩, hlt⟩
  · rintro ⟨⟨s, hv, hwrites⟩, hlt⟩
    refine ⟨s, ?_, readSize?_eq_some_iff.2 ⟨hwrites, hlt⟩⟩
    rw [text?, hv, Option.bind_some, Octets.text?_ofText (visible_of_writesSize hwrites)]

/-- A length that is too great to be read is not below any size that is a size. -/
theorem isBelow_eq_false_iff (hb : size < sizeBound) :
    h.isBelow size = false ↔
      ∀ s n, h.first? .contentLength = some (Octets.ofText s) → WritesSize s n → size ≤ n := by
  have hbelow : h.isBelow size = true ↔ ∃ n, h.declaredLength? = some n ∧ n < size := by
    unfold isBelow
    cases h.declaredLength? <;> simp
  rw [← Bool.not_eq_true, hbelow]
  constructor
  · intro hno s n hs hwrites
    by_contra hlt
    refine hno ⟨n, declaredLength?_eq_some_iff.2 ⟨⟨s, hs, hwrites⟩, ?_⟩, ?_⟩ <;> omega
  · rintro hle ⟨n, hn, hlt⟩
    obtain ⟨⟨s, hs, hwrites⟩, -⟩ := declaredLength?_eq_some_iff.1 hn
    have := hle s n hs hwrites
    omega

end Fields

namespace Selector

variable {ε : Type} {s : Selector ε} {engine : Coding → ε} {head : Head} {accept : Option String}
  {coding : Coding} {size : Nat}

/-- **A selector goes by what the fields say.** -/
theorem suits_iff_worthwhile (hb : s.minSize < sizeBound) :
    s.suits head = true ↔ head.fields.Worthwhile s.minSize := by
  rw [suits, Bool.and_eq_true, Bool.and_eq_true, Bool.not_eq_true', Bool.not_eq_true',
    Bool.not_eq_true', Fields.has_eq_false_iff, Fields.isUnsuited_eq_false_iff,
    Fields.isBelow_eq_false_iff hb]
  constructor
  · rintro ⟨⟨hwhole, hmedia⟩, hlarge⟩
    exact ⟨hwhole, hmedia, hlarge⟩
  · rintro ⟨hwhole, hmedia, hlarge⟩
    exact ⟨⟨hwhole, hmedia⟩, hlarge⟩

/-- What is large enough for a size is so for a smaller one. -/
theorem suits_of_le {more : Nat} (hle : size ≤ more) (h : suits ⟨engine, more⟩ head = true) :
    suits ⟨engine, size⟩ head = true := by
  simp only [suits, Bool.and_eq_true, Bool.not_eq_true', Fields.isBelow] at h ⊢
  refine ⟨h.1, ?_⟩
  have hlarge := h.2
  split
  · rfl
  · rename_i n hn
    rw [hn] at hlarge
    simp only [decide_eq_false_iff_not, Nat.not_lt] at hlarge ⊢
    omega

/-- **When a response is coded, and how.** A selector whose least size has at most sixty-four binary
digits selects a coding just where it is the one chosen for the Accept-Encoding value and the
response is worth coding. A declared length is compared as the number that it writes, whatever its
magnitude and however many zeros stand before it. A greater least size leaves responses out, but
adds none and changes no coding. -/
theorem select_iff_worthwhile (engine : Coding → ε) (hb : size < 2 ^ 64) :
    (select ⟨engine, size⟩ head accept = some coding ↔
      (∃ value, accept = some value ∧ AcceptEncoding.choose? value = some coding) ∧
        head.fields.Worthwhile size) ∧
      ∀ more, size ≤ more → select ⟨engine, more⟩ head accept = some coding →
        select ⟨engine, size⟩ head accept = some coding := by
  constructor
  · rw [select_eq_some_iff, Option.bind_eq_some_iff, suits_iff_worthwhile hb]
  · intro more hle hmore
    rw [select_eq_some_iff] at hmore ⊢
    exact ⟨hmore.1, suits_of_le hle hmore.2⟩

/-- A drawing that declares the greatest length there is, behind zeros and a plus, is coded where
that is the least size, and where the least size is smaller. -/
theorem select_of_greatest_length :
    let size := 2 ^ 64 - 1
    let head : Head := { fields := [⟨.contentLength, Octets.ofString "+00018446744073709551615"⟩,
      ⟨.contentType, Octets.ofString "image/svg+xml; charset=utf-8"⟩] }
    let accept := some "gzip;q=0.5, br"
    size < 2 ^ 64 ∧ select ⟨fun _ => (), size⟩ head accept = some .brotli ∧
      head.fields.Worthwhile size ∧ select ⟨fun _ => (), 0⟩ head accept = some .brotli := by
  intro size head accept
  have hb : size < 2 ^ 64 := by decide
  have hs : select ⟨fun _ => (), size⟩ head accept = some .brotli := by decide +kernel
  have h := (select_iff_worthwhile (fun _ => ()) hb).1.1 hs
  have hzero := (select_iff_worthwhile (fun _ => ()) (Nat.two_pow_pos 64)).2 size (Nat.zero_le _) hs
  exact ⟨hb, hs, h.2, hzero⟩

end Selector

end ContentCoding
