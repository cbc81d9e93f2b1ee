import ContentCoding.Proofs.Flushing
import ContentCoding.Proofs.LetterCase
import ContentCoding.Proofs.Suitability

/-!
# Letter case in media types

Media types are compared octet by octet with names in lower case. Heads that differ in the letter
case of their Content-Type may therefore be treated differently, where one of those names is at the
front of one value but not of the other.

* `Octets.Recased.prefix_of_plain`: a name stays at the front where it is written plainly.
* `Fields.Recased.sameMedia`: and so do the tests for it.
* `Selector.alike_recased_iff`: **when letter case makes no difference.**
* `Selector.not_alike_of_capitals`: letter case does make a difference.
-/

namespace ContentCoding

theorem SameLetter.symm {m n : Nat} (h : SameLetter m n) : SameLetter n m := by
  unfold SameLetter at h ⊢
  omega

namespace Octets

variable {v w start : Octets}

/-- **Values that differ in the case of ASCII letters** and in nothing else. -/
def Recased (v w : Octets) : Prop :=
  List.Forall₂ (fun a b : UInt8 => SameLetter a.toNat b.toNat) v w

instance (v w : Octets) : Decidable (Recased v w) :=
  inferInstanceAs (Decidable (List.Forall₂ _ v w))

/-- **A name is written plainly** at the front of a value: where it stands there at all, letter case
aside, it stands there as it is. -/
def WritesPlainly (v start : Octets) : Prop := ∀ w, w <+: v → Recased w start → w = start

theorem writesPlainly_iff :
    v.WritesPlainly start ↔
      (Recased (v.take start.length) start → v.take start.length = start) := by
  constructor
  · intro h
    exact h _ (List.take_prefix ..)
  · rintro h w ⟨rest, rfl⟩ hw
    have htake : (w ++ rest).take start.length = w := by
      rw [← hw.length_eq, List.take_left]
    rw [htake] at h
    exact h hw

instance (v start : Octets) : Decidable (v.WritesPlainly start) :=
  decidable_of_iff _ writesPlainly_iff.symm

theorem Recased.symm (h : v.Recased w) : w.Recased v :=
  (h.imp fun _ _ hab => hab.symm).flip

/-- **Letter case aside a value can be read** where another one can. -/
theorem Recased.all_isVisible (h : v.Recased w) : v.all isVisible = w.all isVisible := by
  have hoctet {a b : UInt8} (hab : SameLetter a.toNat b.toNat) : isVisible a = isVisible b := by
    have hnat (c : UInt8) :
        isVisible c = true ↔ c.toNat = 9 ∨ 32 ≤ c.toNat ∧ c.toNat ≤ 126 := by
      simp [isVisible, UInt8.le_iff_toNat_le, ← UInt8.toNat_inj]
    rw [Bool.eq_iff_iff, hnat, hnat]
    unfold SameLetter at hab
    omega
  induction h with
  | nil => rfl
  | cons hab _ ih => rw [List.all_cons, List.all_cons, hoctet hab, ih]

/-- **A name stays at the front of a value** whose letter case changes, if it is written plainly
there. -/
theorem Recased.prefix_of_plain (h : v.Recased w) (hplain : w.WritesPlainly start)
    (hv : start <+: v) : start <+: w := by
  obtain ⟨rest, rfl⟩ := hv
  have htake : Recased (w.take start.length) start :=
    List.forall₂_take_append w start rest h.symm
  rw [← hplain _ (List.take_prefix ..) htake]
  exact List.take_prefix _ w

end Octets

namespace Fields

variable {h other : Fields} {v w : Octets} {name : FieldName}

/-- **Fields that differ in the letter case of their Content-Type** and in nothing else. -/
structure Recased (h other : Fields) : Prop where
  types : List.Forall₂ Octets.Recased (h.values .contentType) (other.values .contentType)
  others : ∀ name, name ≠ .contentType → h.values name = other.values name

/-- The fronts of a Content-Type that a selector looks for. -/
def mediaTypes : List String :=
  ["image/", "image/svg+xml", "application/grpc", "application/grpc-web", "text/event-stream"]

/-- **The first Content-Type is written plainly**, as far as a selector looks at it. -/
def PlainType (h : Fields) : Prop :=
  ∀ v, h.first? .contentType = some v →
    ∀ start ∈ mediaTypes, v.WritesPlainly (Octets.ofString start)

instance (h : Fields) : Decidable h.PlainType :=
  inferInstanceAs (Decidable (∀ v ∈ h.first? .contentType,
    ∀ start ∈ mediaTypes, v.WritesPlainly (Octets.ofString start)))

/-- **Fields whose media are treated alike**: both suit or neither, and if they suit, both call for
flushing or neither. -/
structure SameMedia (h other : Fields) : Prop where
  suits : h.SuitsMedia ↔ other.SuitsMedia
  flushed : h.SuitsMedia → (h.CallsForFlush ↔ other.CallsForFlush)

namespace Recased

/-- One Content-Type in two letter cases, in front of the same fields. -/
theorem of_type (hvw : v.Recased w) (rest : Fields) :
    Recased (⟨.contentType, v⟩ :: rest) (⟨.contentType, w⟩ :: rest) where
  types := by
    have hrest : List.Forall₂ Octets.Recased (rest.values .contentType)
        (rest.values .contentType) :=
      List.forall₂_same.2 fun _ _ => List.forall₂_same.2 fun _ _ => .inl rfl
    rw [values_cons, if_pos rfl, values_cons, if_pos rfl]
    exact .cons hvw hrest
  others name hn := by
    rw [values_cons, if_neg hn.symm, values_cons, if_neg hn.symm]

theorem symm (hr : h.Recased other) : other.Recased h where
  types := (hr.types.imp fun _ _ hvw => hvw.symm).flip
  others name hn := (hr.others name hn).symm

theorem first (hr : h.Recased other) (hw : other.first? .contentType = some w) :
    ∃ v, h.first? .contentType = some v ∧ v.Recased w := by
  obtain ⟨ws, hws⟩ := List.head?_eq_some_iff.1 hw
  have ht := hr.types
  rw [hws, List.forall₂_cons_right_iff] at ht
  obtain ⟨v, vs, hvw, -, hvs⟩ := ht
  exact ⟨v, List.head?_eq_some_iff.2 ⟨vs, hvs⟩, hvw⟩

theorem text? (hr : h.Recased other) (hn : name ≠ .contentType) :
    h.text? name = other.text? name := by
  rw [Fields.text?, Fields.text?, first?, first?, hr.others name hn]

theorem isBelow (hr : h.Recased other) (size : Nat) : h.isBelow size = other.isBelow size := by
  rw [Fields.isBelow, Fields.isBelow, declaredLength?, declaredLength?, hr.text? (by decide)]

variable (hr : h.Recased other) (hh : h.PlainType) (ho : other.PlainType)
include hr hh ho

/-- Where both are written plainly, a Content-Type stands for one that is as readable and has the
same names at its front. -/
theorem first_of_plain (hw : other.first? .contentType = some w) :
    ∃ v, h.first? .contentType = some v ∧ v.all Octets.isVisible = w.all Octets.isVisible ∧
      ∀ start ∈ mediaTypes, Octets.ofString start <+: v ↔ Octets.ofString start <+: w := by
  obtain ⟨v, hv, hvw⟩ := hr.first hw
  refine ⟨v, hv, hvw.all_isVisible, fun start hs => ⟨?_, ?_⟩⟩
  · exact hvw.prefix_of_plain (ho w hw start hs)
  · exact hvw.symm.prefix_of_plain (hh v hv start hs)

theorem suitsMedia_of_plain (hsuits : h.SuitsMedia) : other.SuitsMedia := by
  intro w hw hread
  obtain ⟨v, hv, hvisible, hfront⟩ := hr.first_of_plain hh ho hw
  have hmedia := hsuits v hv (hvisible.trans hread)
  rwa [hfront _ (by decide), hfront _ (by decide), hfront _ (by decide),
    hfront _ (by decide)] at hmedia

theorem callsForFlush_of_plain (hcalls : other.CallsForFlush) : h.CallsForFlush := by
  rcases hcalls with ⟨w, hw, hread, htype⟩ | hbuffer
  · obtain ⟨v, hv, hvisible, hfront⟩ := hr.first_of_plain hh ho hw
    rw [← hfront _ (by decide), ← hfront _ (by decide)] at htype
    exact .inl ⟨v, hv, hvisible.trans hread, htype⟩
  · rw [← hr.text? (by decide)] at hbuffer
    exact .inr hbuffer

/-- **Media written plainly are treated alike** whatever the case of the other letters. -/
theorem sameMedia : h.SameMedia other where
  suits := ⟨hr.suitsMedia_of_plain hh ho, hr.symm.suitsMedia_of_plain ho hh⟩
  flushed _ := ⟨hr.symm.callsForFlush_of_plain ho hh, hr.callsForFlush_of_plain hh ho⟩

end Recased

end Fields

namespace Selector

variable {ε : Type} {s : Selector ε} {head other : Head} {accept : Option String}

/-- **Heads that a selector treats alike**: it selects the same for them, and has it coded by the
same compressor, which flushes for both or for neither. -/
structure Alike (s : Selector ε) (head other : Head) (accept : Option String) : Prop where
  selected : s.select head accept = s.select other accept
  consulted : Decision.consult s head accept = Decision.consult s other accept

/-- Treated alike are heads for which the same is selected, and flushed the same if it is. -/
theorem alike_iff :
    s.Alike head other accept ↔
      s.select head accept = s.select other accept ∧
        (s.select head accept ≠ none → head.fields.needsFlush = other.fields.needsFlush) := by
  constructor
  · rintro ⟨hselected, hconsulted⟩
    refine ⟨hselected, fun hsome => ?_⟩
    obtain ⟨c, hc⟩ := Option.ne_none_iff_exists'.1 hsome
    have he := congrArg Prod.fst hconsulted
    rw [consult_selector, consult_selector, ← hselected, hc] at he
    exact congrArg (fun e : Encoding (StreamCompressor ε) => e.compressor.alwaysFlush)
      (Option.some.inj he)
  · rintro ⟨hselected, hflush⟩
    refine ⟨hselected, ?_⟩
    rw [consult_selector, consult_selector, ← hselected]
    cases hs : s.select head accept with
    | none => rfl
    | some c => simp only [Option.map_some, encoding, hflush (by simp [hs])]

theorem select_eq_select_iff :
    s.select head accept = s.select other accept ↔
      (accept.bind AcceptEncoding.choose? ≠ none →
        (s.suits head = true ↔ s.suits other = true)) := by
  unfold select
  cases accept.bind AcceptEncoding.choose? with
  | none => simp
  | some c => cases s.suits head <;> cases s.suits other <;> simp [Option.filter]

theorem select_ne_none_iff :
    s.select head accept ≠ none ↔
      accept.bind AcceptEncoding.choose? ≠ none ∧ s.suits head = true := by
  unfold select
  cases accept.bind AcceptEncoding.choose? with
  | none => simp
  | some c => cases s.suits head <;> simp

/-- What speaks against coding, with its media said as they are written. -/
theorem suits_iff_suitsMedia :
    s.suits head = true ↔ head.fields.values .contentRange = [] ∧
      head.fields.isBelow s.minSize = false ∧ head.fields.SuitsMedia := by
  rw [suits, Bool.and_eq_true, Bool.and_eq_true, Bool.not_eq_true', Bool.not_eq_true',
    Bool.not_eq_true', Fields.has_eq_false_iff, Fields.isUnsuited_eq_false_iff, and_assoc,
    and_comm (a := head.fields.SuitsMedia)]

/-- **When letter case makes no difference.** Heads that differ in the letter case of their
Content-Type are treated alike just where no coding is chosen for the Accept-Encoding value, or the
body is part of something else or too small, or the media are treated alike as they are written.
They are so in particular where both write plainly the names that are looked for, whatever the case
of all that is behind them. -/
theorem alike_recased_iff (hr : head.fields.Recased other.fields) :
    (s.Alike head other accept ↔
      (accept.bind AcceptEncoding.choose? ≠ none → head.fields.values .contentRange = [] →
        head.fields.isBelow s.minSize = false → head.fields.SameMedia other.fields)) ∧
      (head.fields.PlainType → other.fields.PlainType → s.Alike head other accept) := by
  have hiff : s.Alike head other accept ↔
      (accept.bind AcceptEncoding.choose? ≠ none → head.fields.values .contentRange = [] →
        head.fields.isBelow s.minSize = false → head.fields.SameMedia other.fields) := by
    -- but for its media, all that is asked of one head is asked of the other
    have hother : s.suits other = true ↔ head.fields.values .contentRange = [] ∧
        head.fields.isBelow s.minSize = false ∧ other.fields.SuitsMedia := by
      rw [suits_iff_suitsMedia, hr.others _ (by decide), hr.isBelow]
    have hflush : head.fields.needsFlush = other.fields.needsFlush ↔
        (head.fields.CallsForFlush ↔ other.fields.CallsForFlush) := by
      rw [Bool.eq_iff_iff, Fields.needsFlush_iff, Fields.needsFlush_iff]
    rw [alike_iff, select_eq_select_iff, select_ne_none_iff, hother, suits_iff_suitsMedia, hflush]
    constructor
    · rintro ⟨hsuits, hcalls⟩ hchosen hrange hlarge
      have hmedia := hsuits hchosen
      simp only [hrange, hlarge, true_and] at hmedia
      exact ⟨hmedia, fun hm => hcalls ⟨hchosen, hrange, hlarge, hm⟩⟩
    · intro h
      refine ⟨fun hchosen => ?_, ?_⟩
      · refine and_congr_right fun hrange => and_congr_right fun hlarge => ?_
        exact (h hchosen hrange hlarge).suits
      · rintro ⟨hchosen, hrange, hlarge, hm⟩
        exact (h hchosen hrange hlarge).flushed hm
  exact ⟨hiff, fun hh ho => hiff.2 fun _ _ _ => hr.sameMedia hh ho⟩

/-- A stream of events is flushed whatever the case of the letters behind its name. -/
theorem alike_of_recased_charset :
    let s : Selector Unit := ⟨fun _ => (), 0⟩
    let head : Head := { fields := [⟨.contentType, Octets.ofString "text/event-stream; q=b"⟩] }
    let other : Head := { fields := [⟨.contentType, Octets.ofString "text/event-stream; Q=B"⟩] }
    head.fields.Recased other.fields ∧ s.Alike head other (some "gzip") ∧
      s.select other (some "gzip") = some .gzip ∧ other.fields.needsFlush = true := by
  intro s head other
  have hvw : (Octets.ofString "text/event-stream; q=b").Recased
      (Octets.ofString "text/event-stream; Q=B") := by decide +kernel
  have hr : head.fields.Recased other.fields := .of_type hvw []
  have hh : head.fields.PlainType := by decide +kernel
  have ho : other.fields.PlainType := by decide +kernel
  have hs : s.select other (some "gzip") = some .gzip := by decide +kernel
  have hf : other.fields.needsFlush = true := by decide +kernel
  exact ⟨hr, (alike_recased_iff hr).2 hh ho, hs, hf⟩

/-- In capitals an image is coded, and a stream of events is not flushed. -/
theorem not_alike_of_capitals :
    let s : Selector Unit := ⟨fun _ => (), 0⟩
    let head (type : String) : Head := { fields := [⟨.contentType, Octets.ofString type⟩] }
    ((head "image/png").fields.Recased (head "IMAGE/PNG").fields ∧
      s.select (head "image/png") (some "gzip") = none ∧
      s.select (head "IMAGE/PNG") (some "gzip") = some .gzip) ∧
    ((head "text/event-stream").fields.Recased (head "Text/Event-Stream").fields ∧
      (head "text/event-stream").fields.needsFlush = true ∧
      (head "Text/Event-Stream").fields.needsFlush = false) := by
  intro s head
  have hr {v w : String} (h : (Octets.ofString v).Recased (Octets.ofString w)) :
      (head v).fields.Recased (head w).fields := Fields.Recased.of_type h []
  refine ⟨⟨hr (by decide +kernel), ?_, ?_⟩, hr (by decide +kernel), ?_, ?_⟩ <;> decide +kernel

end Selector

end ContentCoding
