import ContentCoding.Proofs.Choice

/-!
# The order of entries

The entries of a value of Accept-Encoding are weighed against each other, so that their order should
not matter. It does where a weight is no number: such an offer is kept where it stands first, and is
passed over anywhere else.

* `Offer.coding_eq_of_leads`: when the offers that lead name one coding.
* `chosen_of_leads`: each offer that leads is chosen in some order.
* `order_immaterial_iff`: **the order of the entries does not matter just where all offers that weigh
  no number name the coding of every offer that leads.**
-/

namespace ContentCoding.AcceptEncoding

/-- **The same entries in another order.** -/
def Rearranges (other value : String) : Prop :=
  (Text.split ',' other.toList).Perm (Text.split ',' value.toList)

namespace Offer

variable {a b : Offer} {os : List Offer}

theorem leads_of_nan (hm : a ∈ os) (h : a.weight = .nan) : Leads os a :=
  ⟨hm, fun _ _ => (not_beats_of_nan h).2⟩

/-- Offers that lead name one coding where those that weigh no number name it. -/
theorem coding_eq_of_leads (ha : Leads os a) (hb : Leads os b)
    (h : ∀ a ∈ os, a.weight = .nan → ∀ b, Leads os b → b.coding = a.coding) :
    a.coding = b.coding := by
  by_cases hna : a.weight = .nan
  · exact (h a ha.mem hna b hb).symm
  · by_cases hnb : b.weight = .nan
    · exact h b hb.mem hnb a ha
    · rw [eq_of_leads hna hnb ha hb]

end Offer

section order

variable {value other : String} {a : Offer}

theorem offers_eq_filterMap (value : Text) :
    offers value = (Text.split ',' value).filterMap fun s => (Entry.read s).offer? := by
  rw [offers, entries, List.filterMap_map]
  rfl

/-- The same entries make the same offers. -/
theorem perm_offers (h : Rearranges other value) :
    (offers other.toList).Perm (offers value.toList) := by
  rw [offers_eq_filterMap, offers_eq_filterMap]
  exact h.filterMap _

/-- **Each offer that leads is chosen in some order**, as its entry can stand first. -/
theorem chosen_of_leads (h : Offer.Leads (offers value.toList) a) :
    ∃ other, Rearranges other value ∧ choose? other = some a.coding := by
  have hm := h.mem
  rw [offers_eq_filterMap] at hm
  obtain ⟨piece, hpiece, ha⟩ := List.mem_filterMap.1 hm
  obtain ⟨front, back, hsplit⟩ := List.append_of_mem hpiece
  let other := String.ofList ([','].intercalate (piece :: (front ++ back)))
  have hperm : (piece :: (front ++ back)).Perm (Text.split ',' value.toList) := by
    rw [hsplit]
    exact List.perm_middle.symm
  have hother : Text.split ',' other.toList = piece :: (front ++ back) := by
    rw [String.toList_ofList]
    refine Text.split_intercalate (List.cons_ne_nil _ _) fun p hp => ?_
    exact Text.not_mem_of_mem_split (hperm.mem_iff.1 hp)
  have ho : Rearranges other value := by rwa [Rearranges, hother]
  have hoffers : offers other.toList =
      a :: (front ++ back).filterMap fun s => (Entry.read s).offer? := by
    rw [offers_eq_filterMap, hother]
    exact List.filterMap_cons_some ha
  have hl := Offer.leads_of_perm (perm_offers ho).symm h
  rw [hoffers] at hl
  refine ⟨other, ho, ?_⟩
  rw [choose?, hoffers, Offer.best?_of_leads hl]
  rfl

/-- **When the order of entries does not matter.** It does not where all weights are numbers; and
where an offer weighs `nan`, just if it names the coding of every offer that leads. -/
theorem order_immaterial_iff (value : String) :
    (∀ other, Rearranges other value → choose? other = choose? value) ↔
      ∀ a ∈ offers value.toList, a.weight = .nan →
        ∀ b, Offer.Leads (offers value.toList) b → b.coding = a.coding := by
  constructor
  · intro h a ha hnan b hb
    obtain ⟨other, ho, hchosen⟩ := chosen_of_leads (Offer.leads_of_nan ha hnan)
    obtain ⟨other', ho', hchosen'⟩ := chosen_of_leads hb
    rw [h other ho] at hchosen
    rw [h other' ho'] at hchosen'
    exact Option.some.inj (hchosen'.symm.trans hchosen)
  · intro h other ho
    have hperm := perm_offers ho
    cases hb : Offer.best? (offers value.toList) with
    | none =>
      have hnil := Offer.best?_eq_none_iff.1 hb
      rw [hnil] at hperm
      rw [choose_eq_none_iff.2 hperm.eq_nil, choose_eq_none_iff.2 hnil]
    | some b =>
      cases ha : Offer.best? (offers other.toList) with
      | none =>
        rw [Offer.best?_eq_none_iff.1 ha] at hperm
        rw [hperm.symm.eq_nil] at hb
        cases hb
      | some a =>
        have hla := Offer.leads_of_perm hperm (Offer.leads_of_best? ha)
        have hlb := Offer.leads_of_best? hb
        rw [choose?, choose?, ha, hb]
        exact congrArg some (Offer.coding_eq_of_leads hla hlb h)

/-- Where all weights are numbers, as great as they may be, the order does not matter. -/
theorem order_immaterial_of_numbers :
    let value := "zstd;q=0.5,br;q=inf, gzip;q=1e9"
    let other := " gzip;q=1e9,br;q=inf,zstd;q=0.5"
    Rearranges other value ∧ choose? value = some .brotli ∧ choose? other = some .brotli := by
  intro value other
  have ho : Rearranges other value := by
    unfold Rearranges
    decide
  have hn : ∀ a ∈ offers value.toList, a.weight ≠ .nan := by decide +kernel
  have hc : choose? value = some .brotli := by decide +kernel
  have hsame := (order_immaterial_iff value).2 fun a ha hnan => absurd hnan (hn a ha)
  exact ⟨ho, hc, (hsame other ho).trans hc⟩

/-- An entry that weighs `nan` is chosen where it stands first, and only there. -/
theorem order_matters_of_nan :
    Rearranges "br,gzip;q=nan" "gzip;q=nan,br" ∧ choose? "gzip;q=nan,br" = some .gzip ∧
      choose? "br,gzip;q=nan" = some .brotli := by
  refine ⟨?_, by decide +kernel, by decide +kernel⟩
  unfold Rearranges
  decide

end order

end ContentCoding.AcceptEncoding
