import ContentCoding.Framing

/-!
# What announcing a coding changes

The head of a coded response has other fields than the head that was written. Here is which ones,
for fields that stand there in any number, in any letter case, and whether they can be read or not.

* `names_iff`: what a member of a list names, by its characters.
* `isVariance_iff`: which values of Vary cover Accept-Encoding.
* `announces_announce`: **announcing a coding changes what it has to, and nothing else.**
* `Announces.announce_eq`: fields that announce a coding are announced as they are.
* `announce_settles`: **both at once.**
-/

namespace ContentCoding

/-- **A member names something** if that is what it is, in any letter case, between blanks. -/
def Text.Names (m name : Text) : Prop :=
  ∃ front word back : Text, m = front ++ word ++ back ∧ front.all isBlank = true ∧
    back.all isBlank = true ∧ fold word = name

/-- **A value of Vary that covers Accept-Encoding.** It is a text that is visible, and of the members
between its commas one names that field, or names everything. -/
inductive Fields.Covers : Octets → Prop
  | member {members : List Text} {m : Text} :
      Text.Visible ([','].intercalate members) → (∀ m ∈ members, ',' ∉ m) → m ∈ members →
      m.Names ['*'] ∨ m.Names FieldName.acceptEncoding.toList →
      Covers (Octets.ofText ([','].intercalate members))

/-- **Caches are told** that a response depends on Accept-Encoding. -/
def Fields.Covered (h : Fields) : Prop := ∃ v ∈ h.values .vary, Covers v

/-- **What announcing a coding comes to**, for each field: the coding and the delimitation are
there, ranges are not, Vary has grown by one value if it had to, and all other fields have their
values. -/
structure Announces (framing : Framing) (label : Octets) (before after : Fields) : Prop where
  coding : after.values .contentEncoding = [label]
  ranges : after.values .acceptRanges = []
  length : after.values .contentLength =
    if framing = .length then before.values .contentLength else []
  transfer : after.values .transferEncoding =
    if framing = .chunked then [Octets.ofString "chunked"] else before.values .transferEncoding
  vary_of_covered : before.Covered → after.values .vary = before.values .vary
  vary_of_not_covered : ¬ before.Covered →
    after.values .vary = before.values .vary ++ [Octets.ofString FieldName.acceptEncoding]
  covered : after.Covered
  others : ∀ name, name ∉ [FieldName.contentEncoding, .acceptRanges, .contentLength,
    .transferEncoding, .vary] → after.values name = before.values name

section members

variable {m name : Text} {v : Octets}

/-- **What a member names**: what is left of it without blanks and letter case. -/
theorem Text.names_iff (hn : name.any isBlank = false) :
    m.Names name ↔ fold (trim m) = name := by
  constructor
  · rintro ⟨front, word, back, rfl, hf, hb, rfl⟩
    rw [trim_append_blanks hf hb, trim_of_no_blank (no_blank_of_fold hn)]
  · intro h
    obtain ⟨front, back, hf, hb, hm⟩ := exists_blanks_trim m
    exact ⟨front, trim m, back, hm, hf, hb, h⟩

open Text in
/-- **Which values of Vary cover Accept-Encoding.** -/
theorem Fields.isVariance_iff : isVariance v = true ↔ Covers v := by
  have hstar (m : Text) : sameFolded (trim m) ['*'] = true ↔ m.Names ['*'] :=
    sameFolded_iff.trans (names_iff (by decide)).symm
  have hname (m : Text) : sameFolded (trim m) FieldName.acceptEncoding.toList = true ↔
      m.Names FieldName.acceptEncoding.toList :=
    sameFolded_iff.trans (names_iff (by decide)).symm
  cases hr : Octets.text? v with
  | none =>
    constructor
    · intro h
      simp [isVariance, hr] at h
    · rintro ⟨hvisible, -⟩
      cases hr.symm.trans (Octets.text?_iff_visible.2 ⟨rfl, hvisible⟩)
  | some s =>
    simp only [isVariance, hr, List.any_eq_true, Bool.or_eq_true, hstar, hname]
    constructor
    · rintro ⟨m, hm, hnames⟩
      obtain ⟨rfl, hvisible⟩ := Octets.text?_iff_visible.1 hr
      have hs : [','].intercalate (split ',' s) = s := intercalate_split
      rw [← hs] at hvisible ⊢
      exact .member hvisible (fun _ => not_mem_of_mem_split) hm hnames
    · rintro ⟨hvisible, hcomma, hm, hnames⟩
      obtain rfl := Option.some.inj
        (hr.symm.trans (Octets.text?_iff_visible.2 ⟨rfl, hvisible⟩))
      rw [split_intercalate (List.ne_nil_of_mem hm) hcomma]
      exact ⟨_, hm, hnames⟩

theorem Fields.variesByCoding_iff {h : Fields} : h.variesByCoding = true ↔ h.Covered := by
  simp only [variesByCoding, List.any_eq_true, isVariance_iff, Covered]

end members

section fields

variable {h before after : Fields} {framing : Framing} {label : Octets} {name : FieldName}

theorem Framing.values_delimit_contentLength (framing : Framing) (h : Fields) :
    (framing.delimit h).values .contentLength =
      if framing = .length then h.values .contentLength else [] := by
  cases framing with
  | length => rfl
  | chunked => exact values_delimit_chunked.1
  | delegated => exact Fields.values_remove.trans (if_pos rfl)

theorem Framing.values_delimit_transferEncoding (framing : Framing) (h : Fields) :
    (framing.delimit h).values .transferEncoding =
      if framing = .chunked then [Octets.ofString "chunked"] else h.values .transferEncoding := by
  cases framing with
  | length => rfl
  | chunked => exact values_delimit_chunked.2
  | delegated => exact Fields.values_remove.trans (if_neg (by decide))

/-- The delimitation of a body is said in two fields. -/
theorem Framing.values_delimit_of_ne (hl : name ≠ .contentLength) (ht : name ≠ .transferEncoding) :
    (framing.delimit h).values name = h.values name := by
  cases framing with
  | length => rfl
  | chunked =>
    rw [delimit, Fields.values_insert, if_neg ht.symm, Fields.values_remove, if_neg hl.symm]
  | delegated => rw [delimit, Fields.values_remove, if_neg hl.symm]

/-- Vary is announced by its values alone. -/
theorem Framing.values_announce_vary (framing : Framing) (label : Octets) (h : Fields) :
    (framing.announce label h).values .vary = h.varyByCoding.values .vary := by
  have hvary : (((framing.delimit h).insert .contentEncoding label).remove .acceptRanges).values
      .vary = h.values .vary := by
    rw [Fields.values_remove, if_neg (by decide), Fields.values_insert, if_neg (by decide),
      values_delimit_of_ne (by decide) (by decide)]
  exact Fields.values_varyByCoding_congr hvary hvary

/-- **Announcing a coding changes what it has to**, and nothing else. -/
theorem Framing.announces_announce (framing : Framing) (label : Octets) (h : Fields) :
    Announces framing label h (framing.announce label h) where
  coding := values_announce_label
  ranges := by
    rw [announce, values_varyByCoding (by decide), Fields.values_remove, if_pos rfl]
  length := by
    rw [values_announce_delimit (by decide) (by decide) (by decide), values_delimit_contentLength]
  transfer := by
    rw [values_announce_delimit (by decide) (by decide) (by decide),
      values_delimit_transferEncoding]
  vary_of_covered hc := by
    rw [values_announce_vary, Fields.varyByCoding, if_pos (Fields.variesByCoding_iff.2 hc)]
  vary_of_not_covered hc := by
    rw [values_announce_vary, Fields.varyByCoding, if_neg (mt Fields.variesByCoding_iff.1 hc),
      Fields.values_append, if_pos rfl]
  covered := Fields.variesByCoding_iff.1 variesByCoding_announce
  others name hname := by
    simp only [List.mem_cons, List.not_mem_nil, or_false, not_or] at hname
    obtain ⟨hcoding, hranges, hlength, htransfer, hvary⟩ := hname
    rw [values_announce_delimit hvary hranges hcoding, values_delimit_of_ne hlength htransfer]

namespace Announces

/-- Fields that say how the body is delimited say it once. -/
theorem delimit_eq (h : Announces framing label before after) : framing.delimit after = after := by
  have hlen (hf : framing ≠ .length) : after.remove .contentLength = after := by
    have hnone := h.length
    rw [if_neg hf] at hnone
    exact Fields.remove_of_not_has (Fields.has_eq_false_iff.2 hnone)
  cases framing with
  | length => rfl
  | delegated => exact hlen (by decide)
  | chunked =>
    rw [Framing.delimit, hlen (by decide)]
    exact Fields.insert_of_values h.transfer

/-- **Fields that announce a coding are announced as they are.** -/
theorem announce_eq (h : Announces framing label before after) :
    framing.announce label after = after := by
  have hranges : after.has .acceptRanges = false := Fields.has_eq_false_iff.2 h.ranges
  rw [Framing.announce, h.delimit_eq, Fields.insert_of_values h.coding,
    Fields.remove_of_not_has hranges, Fields.varyByCoding,
    if_pos (Fields.variesByCoding_iff.2 h.covered)]

end Announces

/-- **Announcing a coding has the effect that it promises**, for any fields, and once and for all:
to announce it again, in the same way, changes nothing. -/
theorem Framing.announce_settles (framing : Framing) (label : Octets) (h : Fields) :
    Announces framing label h (framing.announce label h) ∧
      framing.announce label (framing.announce label h) = framing.announce label h :=
  ⟨framing.announces_announce label h, (framing.announces_announce label h).announce_eq⟩

/-- A value that cannot be read covers nothing, and one that names the field in another letter case,
behind another member, does. -/
example : ¬ Fields.Covered [⟨.vary, 0xFF :: Octets.ofString "*"⟩] ∧
    Fields.Covered [⟨.vary, [0xFF]⟩, ⟨.vary, Octets.ofString "Origin, ACCEPT-Encoding "⟩] := by
  rw [← Fields.variesByCoding_iff, ← Fields.variesByCoding_iff]
  decide

end fields

end ContentCoding
