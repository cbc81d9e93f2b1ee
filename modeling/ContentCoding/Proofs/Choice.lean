import ContentCoding.AcceptEncoding
import Mathlib.Data.List.Forall2

/-!
# The coding that is chosen

A value of Accept-Encoding is read entry by entry, and of the offers that the entries make one is
kept, by going through them once. Here the choice is compared with the entries themselves. Offers
whose weights are numbers stand in one order, greater weights first and then preferred codings. An
offer whose weight is no number stands outside of it: it beats no other, and none beats it.

* `Entry.written_iff`: what an entry says, by what stands before and behind its first semicolon.
* `Offer.eq_of_not_beats`: offers that weigh numbers stand in one order.
* `Offer.best?_eq_some_iff`: where all weights are numbers one offer leads, and it is kept.
* `chosen_iff_wins`: **the coding chosen is that of the best acceptable entry**, and entries that
  are idle do not matter.
-/

namespace ContentCoding.AcceptEncoding

namespace Entry

variable {s : Text} {e : Entry} {c : Coding} {o : Offer}

/-- **What an entry says.** Its token stands before the first semicolon, and its weight behind it.
Blanks around them do not count, and an entry that states no weight has the weight one. -/
inductive Written : Text → Entry → Prop
  | plain {s : Text} : ';' ∉ s → Written s ⟨Text.trim s, Weight.one⟩
  | weighted {s : Text} (parameters : Text) : ';' ∉ s →
      Written (s ++ ';' :: parameters) ⟨Text.trim s, (statedWeight? parameters).getD Weight.one⟩

theorem read_of_not_mem (h : ';' ∉ s) : read s = ⟨Text.trim s, Weight.one⟩ := by
  have ht : ';' ∉ Text.trim s := fun hm => h (Text.mem_of_mem_trim hm)
  simp [read, Text.cut_of_not_mem ht]

theorem read_append (h : ';' ∉ s) (parameters : Text) :
    read (s ++ ';' :: parameters) =
      ⟨Text.trim s, (statedWeight? parameters).getD Weight.one⟩ := by
  have hs : ';' ∉ s.dropWhile Text.isBlank :=
    fun hm => h ((List.dropWhile_sublist Text.isBlank).subset hm)
  rw [read, Text.trim_append_cons (by decide), Text.cut_append hs]
  simp [Text.trim_dropWhile, statedWeight?, Text.trim_dropWhile_reverse]

/-- Each text says one entry. -/
theorem written_iff : Written s e ↔ read s = e := by
  constructor
  · intro h
    cases h with
    | plain h => exact read_of_not_mem h
    | weighted parameters h => exact read_append h parameters
  · rintro rfl
    by_cases h : ';' ∈ s
    · obtain ⟨token, parameters, rfl, ht⟩ := List.eq_append_cons_of_mem h
      rw [read_append ht]
      exact .weighted parameters ht
    · rw [read_of_not_mem h]
      exact .plain h

/-- **An entry accepts a coding**: its token names the coding, and its weight is positive. -/
def Accepts (e : Entry) (c : Coding) : Prop :=
  c.isNamed e.token = true ∧ Weight.lt (.units 0) e.weight = true

/-- **An entry is idle**: its token names no coding, or its weight is zero or negative. -/
def isIdle (e : Entry) : Bool := (Coding.ofToken? e.token).isNone || e.weight.isRefusal

theorem offer?_eq_some_iff :
    e.offer? = some o ↔
      o.coding.isNamed e.token = true ∧ e.weight.isRefusal = false ∧ o.weight = e.weight := by
  obtain ⟨coding, weight⟩ := o
  cases hr : e.weight.isRefusal with
  | true => simp [offer?, hr]
  | false =>
    rw [offer?, if_neg (by simp [hr]), Option.map_eq_some_iff]
    constructor
    · rintro ⟨c, hc, h⟩
      obtain ⟨rfl, rfl⟩ := Offer.mk.inj h
      exact ⟨Coding.isNamed_of_ofToken? hc, rfl, rfl⟩
    · rintro ⟨hc, -, rfl⟩
      exact ⟨coding, Coding.ofToken?_eq_some_iff.2 hc, rfl⟩

theorem offer?_eq_none_iff : e.offer? = none ↔ e.isIdle = true := by
  cases hr : e.weight.isRefusal with
  | true => simp [offer?, isIdle, hr]
  | false => simp [offer?, isIdle, hr]

/-- A weight that is a number refuses nothing just where it is positive. -/
theorem accepts_iff (h : e.weight ≠ .nan) : e.Accepts c ↔ e.offer? = some ⟨c, e.weight⟩ := by
  rw [offer?_eq_some_iff, Accepts]
  cases hw : e.weight with
  | nan => exact absurd hw h
  | units n => simp [Weight.lt, Weight.isRefusal]

theorem accepts_of_offer? (h : e.weight ≠ .nan) (ho : e.offer? = some o) : e.Accepts o.coding := by
  obtain ⟨-, -, hw⟩ := offer?_eq_some_iff.1 ho
  rw [accepts_iff h, ho, ← hw]

end Entry

namespace Offer

variable {a b : Offer} {os : List Offer}

theorem not_beats_iff (ha : a.weight ≠ .nan) (hb : b.weight ≠ .nan) :
    b.beats a = false ↔
      Weight.lt b.weight a.weight = true ∨ b.weight = a.weight ∧ a.coding.rank ≤ b.coding.rank := by
  rw [← Bool.not_eq_true, beats_iff]
  cases hm : a.weight with
  | nan => exact absurd hm ha
  | units m =>
    cases hn : b.weight with
    | nan => exact absurd hn hb
    | units n =>
      simp [Weight.lt]
      omega

theorem not_beats_of_nan (h : a.weight = .nan) : a.beats b = false ∧ b.beats a = false := by
  simp [← Bool.not_eq_true, beats_iff, h]

theorem weight_of_beats (h : a.beats b = true) : a.weight ≠ .nan := by
  intro hnan
  cases (not_beats_of_nan hnan).1.symm.trans h

/-- **Offers that weigh numbers stand in one order.** -/
theorem eq_of_not_beats (ha : a.weight ≠ .nan) (hb : b.weight ≠ .nan) (h : a.beats b = false)
    (k : b.beats a = false) : a = b := by
  obtain ⟨coding, weight⟩ := a
  obtain ⟨coding', weight'⟩ := b
  rw [not_beats_iff hb ha] at h
  rw [not_beats_iff ha hb] at k
  cases weight with
  | nan => exact absurd rfl ha
  | units m =>
    cases weight' with
    | nan => exact absurd rfl hb
    | units n =>
      simp only [Weight.lt, Weight.units.injEq, decide_eq_true_eq] at h k
      have hm : m = n := by omega
      have hc : coding = coding' := Coding.rank_injective (by omega)
      rw [hm, hc]

/-- An offer that leads is kept where it stands first. -/
theorem best?_of_leads (h : Leads (a :: os) a) : best? (a :: os) = some a := by
  obtain ⟨b, hfold, hb, hl⟩ := leads_foldl os a
  rcases hb with rfl | hb
  · exact hfold
  · cases (h.unbeaten b hl.mem).symm.trans hb

/-- Of the offers that weigh numbers one leads at most. -/
theorem eq_of_leads (ha : a.weight ≠ .nan) (hb : b.weight ≠ .nan) (h : Leads os a)
    (k : Leads os b) : a = b :=
  eq_of_not_beats ha hb (k.unbeaten a h.mem) (h.unbeaten b k.mem)

/-- **Where all weights are numbers one offer leads**, and it is kept. -/
theorem best?_eq_some_iff (h : ∀ o ∈ os, o.weight ≠ .nan) : best? os = some a ↔ Leads os a := by
  refine ⟨leads_of_best?, fun hl => ?_⟩
  cases hb : best? os with
  | none =>
    have hm := hl.mem
    rw [best?_eq_none_iff.1 hb] at hm
    cases hm
  | some b =>
    have hlb := leads_of_best? hb
    rw [eq_of_leads (h b hlb.mem) (h a hl.mem) hlb hl]

end Offer

section choice

variable {value : String} {es : List Entry} {e : Entry} {c : Coding} {o : Offer}

/-- **The best acceptable entry.** Each entry that accepts a coding weighs less, or as much and its
coding is not preferred. -/
structure Entry.Wins (es : List Entry) (e : Entry) (c : Coding) : Prop where
  mem : e ∈ es
  accepts : e.Accepts c
  best : ∀ f ∈ es, ∀ d, f.Accepts d →
    Weight.lt f.weight e.weight = true ∨ f.weight = e.weight ∧ c.rank ≤ d.rank

/-- Offers weigh numbers where the entries do. -/
theorem weight_of_mem_offers (h : ∀ e ∈ es, e.weight ≠ .nan) :
    ∀ o ∈ es.filterMap Entry.offer?, o.weight ≠ .nan := by
  intro o ho
  obtain ⟨e, he, hoffer⟩ := List.mem_filterMap.1 ho
  obtain ⟨-, -, hw⟩ := Entry.offer?_eq_some_iff.1 hoffer
  rw [hw]
  exact h e he

/-- **The entry that wins makes the offer that leads.** -/
theorem wins_iff_leads (h : ∀ e ∈ es, e.weight ≠ .nan) :
    (∃ e, Entry.Wins es e c) ↔ ∃ o, Offer.Leads (es.filterMap Entry.offer?) o ∧ o.coding = c := by
  have hnumber := weight_of_mem_offers h
  constructor
  · rintro ⟨e, hw⟩
    have hoffer := (Entry.accepts_iff (h e hw.mem)).1 hw.accepts
    have hmem := List.mem_filterMap.2 ⟨e, hw.mem, hoffer⟩
    refine ⟨_, ⟨hmem, fun b hb => ?_⟩, rfl⟩
    obtain ⟨f, hf, hbf⟩ := List.mem_filterMap.1 hb
    obtain ⟨-, -, hbw⟩ := Entry.offer?_eq_some_iff.1 hbf
    rw [Offer.not_beats_iff (hnumber _ hmem) (hnumber b hb), hbw]
    exact hw.best f hf b.coding (Entry.accepts_of_offer? (h f hf) hbf)
  · rintro ⟨o, hl, rfl⟩
    obtain ⟨e, he, hoffer⟩ := List.mem_filterMap.1 hl.mem
    obtain ⟨-, -, how⟩ := Entry.offer?_eq_some_iff.1 hoffer
    refine ⟨e, he, Entry.accepts_of_offer? (h e he) hoffer, fun f hf d hd => ?_⟩
    have hb := List.mem_filterMap.2 ⟨f, hf, (Entry.accepts_iff (h f hf)).1 hd⟩
    have hless := hl.unbeaten _ hb
    rwa [Offer.not_beats_iff (hnumber o hl.mem) (hnumber _ hb), how] at hless

/-- Idle entries make no offer. -/
theorem filterMap_offer?_filter (es : List Entry) :
    (es.filter fun e => !e.isIdle).filterMap Entry.offer? = es.filterMap Entry.offer? := by
  rw [List.filterMap_filter]
  refine List.filterMap_congr fun e _ => ?_
  cases hi : e.isIdle with
  | false => rfl
  | true => exact (Entry.offer?_eq_none_iff.2 hi).symm

theorem forall₂_written (value : Text) :
    List.Forall₂ Entry.Written (Text.split ',' value) (entries value) := by
  rw [entries, List.forall₂_map_right_iff, List.forall₂_same]
  exact fun s _ => Entry.written_iff.2 rfl

theorem choose?_eq_some_iff :
    choose? value = some c ↔ ∃ o, Offer.best? (offers value.toList) = some o ∧ o.coding = c :=
  Option.map_eq_some_iff

/-- **The coding chosen is that of the best acceptable entry.** A value none of whose entries weighs
`nan` is read piece by piece, as it is cut at its commas. Nothing is chosen where no entry accepts a
coding; otherwise the coding is chosen that an entry accepts which wins, by its weight and then by
the order of preference. So entries that name no coding, or whose weight is zero or negative, can be
put in or left out anywhere. -/
theorem chosen_iff_wins (h : ∀ e ∈ entries value.toList, e.weight ≠ .nan) :
    List.Forall₂ Entry.Written (Text.split ',' value.toList) (entries value.toList) ∧
      (choose? value = none ↔ ∀ e ∈ entries value.toList, ∀ c, ¬ e.Accepts c) ∧
      (∀ c, choose? value = some c ↔ ∃ e, Entry.Wins (entries value.toList) e c) ∧
      ∀ other : String,
        ((entries other.toList).filter fun e => !e.isIdle) =
          ((entries value.toList).filter fun e => !e.isIdle) →
        choose? other = choose? value := by
  have hsome (c : Coding) :
      choose? value = some c ↔ ∃ e, Entry.Wins (entries value.toList) e c := by
    rw [wins_iff_leads h, choose?_eq_some_iff]
    simp only [Offer.best?_eq_some_iff (weight_of_mem_offers h), offers]
  refine ⟨forall₂_written _, ?_, hsome, fun other hsame => ?_⟩
  · rw [choose_eq_none_iff, offers, List.filterMap_eq_nil_iff]
    constructor
    · intro hnone e he c ha
      cases (hnone e he).symm.trans ((Entry.accepts_iff (h e he)).1 ha)
    · intro hno e he
      cases ho : e.offer? with
      | none => rfl
      | some o => exact absurd (Entry.accepts_of_offer? (h e he) ho) (hno e he o.coding)
  · rw [choose?, choose?, offers, offers, ← filterMap_offer?_filter, hsame, filterMap_offer?_filter]

/-- Of two entries that weigh the same the preferred coding is chosen, whatever idle entries are
beside them. -/
theorem chosen_of_equal_weights :
    let value := "gzip;q=0.5, BR; Q=0.5, zstd;q=0"
    let other := "identity, gzip;q=0.5, BR; Q=0.5"
    (∀ e ∈ entries value.toList, e.weight ≠ .nan) ∧
      (∃ e, Entry.Wins (entries value.toList) e .brotli) ∧ choose? value = some .brotli ∧
      choose? other = some .brotli := by
  intro value other
  have h : ∀ e ∈ entries value.toList, e.weight ≠ .nan := by decide +kernel
  have hc : choose? value = some .brotli := by decide +kernel
  obtain ⟨-, -, hsome, hother⟩ := chosen_iff_wins h
  exact ⟨h, (hsome .brotli).1 hc, hc, (hother other (by decide +kernel)).trans hc⟩

end choice

end ContentCoding.AcceptEncoding
