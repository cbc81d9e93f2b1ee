import ContentCoding.AcceptEncoding
import Mathlib.Data.List.Forall2

/-!
# Letter case in Accept-Encoding

No part of a value of Accept-Encoding tells capital letters from small ones: neither the separators
and blanks that it is cut at, nor the names of codings, nor the numbers and words that are weights.

* `Text.fold_eq_fold_iff`: folding letter case makes two texts one just if they differ in nothing
  else.
* `Text.split_fold`, `Text.trim_fold`, `Text.cut_fold`: cutting and trimming go through folding.
* `Weight.parse?_fold`: a weight is read in any letter case.
* `AcceptEncoding.offers_fold`: and so is a whole value.
* `AcceptEncoding.choose_of_recased`: **the coding chosen does not depend on letter case.**
-/

namespace ContentCoding

/-- **Codes of one character**, or of one ASCII letter in its two cases. -/
def SameLetter (m n : Nat) : Prop :=
  m = n ∨ 65 ≤ m ∧ m ≤ 90 ∧ n = m + 32 ∨ 65 ≤ n ∧ n ≤ 90 ∧ m = n + 32

instance (m n : Nat) : Decidable (SameLetter m n) :=
  inferInstanceAs (Decidable (_ ∨ _))

/-- **Texts that differ in the case of ASCII letters** and in nothing else. -/
def Text.Recased (s t : Text) : Prop :=
  List.Forall₂ (fun c d : Char => SameLetter c.toNat d.toNat) s t

instance (s t : Text) : Decidable (Text.Recased s t) :=
  inferInstanceAs (Decidable (List.Forall₂ _ s t))

namespace Text

variable {sep c : Char} {s t : Text} {p : Char → Bool}

theorem toNat_toLower (c : Char) :
    c.toLower.toNat = if 65 ≤ c.toNat ∧ c.toNat ≤ 90 then c.toNat + 32 else c.toNat := by
  by_cases h : c.val ≥ 'A'.val ∧ c.val ≤ 'Z'.val
  · have hl : 65 ≤ c.toNat := UInt32.le_iff_toNat_le.1 h.1
    have hu : c.toNat ≤ 90 := UInt32.le_iff_toNat_le.1 h.2
    have hlower : c.toLower.val = c.val + 32 := by
      unfold Char.toLower
      rw [dif_pos h]
      rfl
    rw [if_pos ⟨hl, hu⟩, ← Char.toNat_val, hlower, UInt32.toNat_add, Char.toNat_val]
    have h32 : (32 : UInt32).toNat = 32 := rfl
    omega
  · have hno : ¬ (65 ≤ c.toNat ∧ c.toNat ≤ 90) := fun hn =>
      h ⟨UInt32.le_iff_toNat_le.2 hn.1, UInt32.le_iff_toNat_le.2 hn.2⟩
    rw [if_neg hno, show c.toLower = c from dif_neg h]

theorem toLower_eq_toLower_iff {c d : Char} :
    c.toLower = d.toLower ↔ SameLetter c.toNat d.toNat := by
  rw [← Char.toNat_inj, toNat_toLower, toNat_toLower, SameLetter]
  split <;> split <;> omega

theorem toLower_toLower (c : Char) : c.toLower.toLower = c.toLower := by
  rw [toLower_eq_toLower_iff, toNat_toLower, SameLetter]
  split <;> omega

/-- Folding letter case twice is folding it once. -/
theorem fold_fold (s : Text) : fold (fold s) = fold s := by
  rw [fold, fold, List.map_map]
  exact List.map_congr_left fun c _ => toLower_toLower c

/-- **Folding makes texts one** just if they differ in letter case and in nothing else. -/
theorem fold_eq_fold_iff : fold s = fold t ↔ Recased s t := by
  rw [fold, fold, ← List.forall₂_eq_eq_eq, List.forall₂_map_left_iff, List.forall₂_map_right_iff]
  simp only [toLower_eq_toLower_iff, Recased]

/-- **A property of characters that letter case does not matter to.** -/
def Caseless (p : Char → Bool) : Prop := ∀ c : Char, p c.toLower = p c

/-- It is enough that it does not matter to the letters of ASCII. -/
theorem caseless_of_letters (h : ∀ n < 26, p (Char.ofNat (n + 97)) = p (Char.ofNat (n + 65))) :
    Caseless p := by
  intro c
  by_cases hc : 65 ≤ c.toNat ∧ c.toNat ≤ 90
  · have hn := h (c.toNat - 65) (by omega)
    have hlower : c.toLower = Char.ofNat (c.toNat - 65 + 97) := by
      rw [← Char.ofNat_toNat c.toLower, toNat_toLower, if_pos hc]
      congr 1
      omega
    rwa [← hlower, Nat.sub_add_cancel hc.1, Char.ofNat_toNat] at hn
  · have hlower : c.toLower = c := by
      rw [← Char.toNat_inj, toNat_toLower, if_neg hc]
    rw [hlower]

theorem caseless_isBlank : Caseless isBlank := caseless_of_letters (by decide)

theorem caseless_isDigit : Caseless Char.isDigit := caseless_of_letters (by decide)

theorem takeWhile_fold (h : Caseless p) (s : Text) :
    (fold s).takeWhile p = fold (s.takeWhile p) := by
  rw [fold, List.takeWhile_map, show p ∘ Char.toLower = p from funext h]
  rfl

theorem dropWhile_fold (h : Caseless p) (s : Text) :
    (fold s).dropWhile p = fold (s.dropWhile p) := by
  rw [fold, List.dropWhile_map, show p ∘ Char.toLower = p from funext h]
  rfl

theorem all_fold (h : Caseless p) (s : Text) : (fold s).all p = s.all p := by
  rw [fold, List.all_map, show p ∘ Char.toLower = p from funext h]

theorem trim_fold (s : Text) : trim (fold s) = fold (trim s) := by
  have hreverse (s : Text) : (fold s).reverse = fold s.reverse := List.map_reverse.symm
  rw [trim, trim, dropWhile_fold caseless_isBlank, hreverse, dropWhile_fold caseless_isBlank,
    hreverse]

theorem toLower_eq_iff (h : Caseless (· == sep)) : c.toLower = sep ↔ c = sep := by
  rw [← beq_iff_eq, show (c.toLower == sep) = (c == sep) from h c, beq_iff_eq]

/-- A text begins with a character that is no letter if it does so in another letter case. -/
theorem exists_of_fold_eq_cons (h : Caseless (· == sep)) (hs : fold s = sep :: t) :
    ∃ r, s = sep :: r := by
  obtain ⟨c, r, rfl, hc, -⟩ := List.map_eq_cons_iff.1 hs
  exact ⟨r, by rw [(toLower_eq_iff h).1 hc]⟩

/-- **A separator is no letter**, so that a text is split in the same places in any letter case. -/
theorem split_fold (h : Caseless (· == sep)) (s : Text) :
    split sep (fold s) = (split sep s).map fold := by
  induction s with
  | nil => rfl
  | cons c s ih =>
    obtain ⟨q, qs, hs⟩ := List.exists_cons_of_ne_nil (@split_ne_nil sep s)
    rw [hs] at ih
    change (if c.toLower = sep then [] :: split sep (fold s)
      else (split sep (fold s)).modifyHead (c.toLower :: ·)) = _
    rw [ih, split, hs]
    by_cases hsep : c = sep
    · rw [if_pos ((toLower_eq_iff h).2 hsep), if_pos hsep]
      rfl
    · rw [if_neg (mt (toLower_eq_iff h).1 hsep), if_neg hsep]
      rfl

theorem cut_fold (h : Caseless (· != sep)) (s : Text) :
    cut sep (fold s) = (fold (cut sep s).1, (cut sep s).2.map fold) := by
  rw [cut, cut, takeWhile_fold h, dropWhile_fold h]
  cases s.dropWhile (· != sep) <;> rfl

/-- Digits have no letter case. -/
theorem fold_of_digits (h : s.all Char.isDigit = true) : fold s = s := by
  have hsame : ∀ c ∈ s, c.toLower = c := by
    intro c hc
    obtain ⟨hl, hu⟩ := Char.isDigit_iff_toNat.1 (List.all_eq_true.1 h c hc)
    have h9 : '9'.toNat = 57 := rfl
    rw [← Char.toNat_inj, toNat_toLower, if_neg (by omega)]
  exact (List.map_congr_left hsame).trans (List.map_id s)

end Text

namespace Weight

open Text

theorem sign_fold (s : Text) : sign (fold s) = ((sign s).1, fold (sign s).2) := by
  have hminus : Caseless (· == '-') := caseless_of_letters (by decide)
  have hplus : Caseless (· == '+') := caseless_of_letters (by decide)
  by_cases hm : ∃ r, s = '-' :: r
  · obtain ⟨r, rfl⟩ := hm
    rfl
  · by_cases hp : ∃ r, s = '+' :: r
    · obtain ⟨r, rfl⟩ := hp
      rfl
    · rw [sign.eq_3 s (fun r h => hm ⟨r, h⟩) fun r h => hp ⟨r, h⟩,
        sign.eq_3 (fold s) (fun _ h => hm (exists_of_fold_eq_cons hminus h))
          fun _ h => hp (exists_of_fold_eq_cons hplus h)]

theorem digits_fold (s : Text) : digits (fold s) = ((digits s).1, fold (digits s).2) := by
  rw [digits, takeWhile_fold caseless_isDigit, dropWhile_fold caseless_isDigit,
    fold_of_digits List.all_takeWhile]
  rfl

theorem fraction_fold (s : Text) : fraction (fold s) = ((fraction s).1, fold (fraction s).2) := by
  have hpoint : Caseless (· == '.') := caseless_of_letters (by decide)
  by_cases hp : ∃ r, s = '.' :: r
  · obtain ⟨r, rfl⟩ := hp
    exact digits_fold r
  · rw [fraction.eq_2 s fun r h => hp ⟨r, h⟩,
      fraction.eq_2 (fold s) fun _ h => hp (exists_of_fold_eq_cons hpoint h)]

theorem exponent?_fold (s : Text) : exponent? (fold s) = exponent? s := by
  cases s with
  | nil => rfl
  | cons c s =>
    change exponent? (c.toLower :: fold s) = _
    simp only [exponent?, sign_fold, toLower_toLower, all_fold caseless_isDigit]
    by_cases hds : (sign s).2.all Char.isDigit = true
    · rw [fold_of_digits hds]
    · simp only [hds, and_false, ↓reduceIte, Bool.false_eq_true]

theorem decimal?_fold (s : Text) : decimal? (fold s) = decimal? s := by
  simp only [decimal?, digits_fold, fraction_fold, exponent?_fold]

/-- **A weight is read in any letter case**, be it a decimal or a word. -/
theorem parse?_fold (s : Text) : parse? (fold s) = parse? s := by
  simp only [parse?, sign_fold, decimal?_fold, fold_fold]

end Weight

namespace AcceptEncoding

open Text

theorem qvalue?_fold (s : Text) : qvalue? (fold s) = (qvalue? s).map fold := by
  have hequals : Caseless (· == '=') := caseless_of_letters (by decide)
  by_cases hs : ∃ c r, s = c :: '=' :: r
  · obtain ⟨c, r, rfl⟩ := hs
    change (if c.toLower.toLower = 'q' then some (fold r) else none) =
      (if c.toLower = 'q' then some r else none).map fold
    rw [toLower_toLower]
    split <;> rfl
  · rw [qvalue?.eq_2 s fun c r h => hs ⟨c, r, h⟩, qvalue?.eq_2 (fold s)]
    · rfl
    · intro d t h
      obtain ⟨c, r, rfl, -, hr⟩ := List.map_eq_cons_iff.1 h
      obtain ⟨r', rfl⟩ := exists_of_fold_eq_cons hequals hr
      exact hs ⟨c, r', rfl⟩

theorem statedWeight?_fold (s : Text) : statedWeight? (fold s) = statedWeight? s := by
  rw [statedWeight?, statedWeight?, trim_fold, qvalue?_fold, Option.bind_map]
  simp only [Function.comp_def, trim_fold, Weight.parse?_fold]

/-- **An entry is read in any letter case**, but for that of its token. -/
theorem read_fold (s : Text) :
    Entry.read (fold s) = ⟨fold (Entry.read s).token, (Entry.read s).weight⟩ := by
  rw [Entry.read, trim_fold, cut_fold (caseless_of_letters (by decide))]
  simp only [Option.bind_map, Function.comp_def, statedWeight?_fold, trim_fold]
  rfl

/-- **A token names its coding in any letter case.** -/
theorem ofToken?_fold (token : Text) : Coding.ofToken? (fold token) = Coding.ofToken? token := by
  simp only [Coding.ofToken?, Coding.isNamed, fold_fold]

/-- **A value offers the same in any letter case.** -/
theorem offers_fold (value : Text) : offers (fold value) = offers value := by
  rw [offers, entries, split_fold (caseless_of_letters (by decide)), offers, entries,
    List.map_map, List.filterMap_map, List.filterMap_map]
  refine List.filterMap_congr fun s _ => ?_
  simp only [Function.comp_def, read_fold, Entry.offer?, ofToken?_fold]

variable {value other : String}

/-- **The coding chosen does not depend on letter case.** Values of Accept-Encoding that differ in
the case of ASCII letters only, wherever they stand, have the same coding chosen. -/
theorem choose_of_recased (h : Text.Recased other.toList value.toList) :
    choose? other = choose? value := by
  have hfold : fold other.toList = fold value.toList := fold_eq_fold_iff.2 h
  rw [choose?, choose?, ← offers_fold other.toList, hfold, offers_fold]

/-- Tokens, the letter that marks a weight, an exponent and a word are read in any letter case. -/
theorem choose_of_recased_weights :
    let value := "zstd;q=5e-1, x-gzip;q=infinity, br;q=nan"
    let other := "ZStd;Q=5E-1, X-GZIP;Q=Infinity, BR;q=NaN"
    Text.Recased other.toList value.toList ∧ choose? value = some .gzip ∧
      choose? other = some .gzip := by
  intro value other
  have h : Text.Recased other.toList value.toList := by decide +kernel
  have hc : choose? value = some .gzip := by decide +kernel
  exact ⟨h, hc, (choose_of_recased h).trans hc⟩

end AcceptEncoding

end ContentCoding
