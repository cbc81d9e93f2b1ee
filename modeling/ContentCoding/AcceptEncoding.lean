import ContentCoding.Coding
import ContentCoding.Weight.Literal

/-!
# Accept-Encoding

A client lists the codings it takes, each with a weight: `gzip;q=0.5, br`. The
coding chosen is the one of greatest weight, and of those the preferred one.

* `offers`: the entries that name a coding and do not refuse it.
* `Offer.beats`: when a later offer replaces an earlier one.
* `Offer.beats_iff`: greater weights come first, and of equal ones the preferred coding.
* `Offer.leads_of_best?`: what is kept leads, as no offer beats it.
* `choose_eq_none_iff`: nothing is chosen when there is no offer.
* `choose_mem`: what is chosen was offered.
-/

namespace ContentCoding.AcceptEncoding

/-- **An entry of the list**: what it names, and how much it is wanted. -/
structure Entry where
  token : Text
  weight : Weight
  deriving DecidableEq, Repr

/-- A coding the client takes, and how much it wants it. -/
structure Offer where
  coding : Coding
  weight : Weight
  deriving DecidableEq, Repr

/-- The text behind a `q=`. -/
def qvalue? : Text → Option Text
  | c :: '=' :: s => if c.toLower = 'q' then some s else none
  | _ => none

/-- **The weight that parameters state.** One that cannot be read counts as none. -/
def statedWeight? (parameters : Text) : Option Weight :=
  (qvalue? (Text.trim parameters)).bind fun s => Weight.parse? (Text.trim s)

/-- **An entry as written**: a token, and behind a semicolon its parameters. -/
def Entry.read (s : Text) : Entry :=
  let (token, parameters) := Text.cut ';' (Text.trim s)
  ⟨Text.trim token, (parameters.bind statedWeight?).getD Weight.one⟩

/-- What the entry offers, unless it refuses its coding or names none. -/
def Entry.offer? (e : Entry) : Option Offer :=
  if e.weight.isRefusal then none else (Coding.ofToken? e.token).map fun c => ⟨c, e.weight⟩

/-- The entries of a value, in order. -/
def entries (value : Text) : List Entry := (Text.split ',' value).map Entry.read

/-- The offers of a value, in order. -/
def offers (value : Text) : List Offer := (entries value).filterMap Entry.offer?

/-- **Whether an offer beats another**: it weighs more, or as much and its coding is preferred. -/
def Offer.beats (a b : Offer) : Bool :=
  Weight.lt b.weight a.weight ||
    (Weight.same a.weight b.weight && a.coding.rank < b.coding.rank)

/-- The better of the best offer so far and the next one. -/
def Offer.pick (best : Option Offer) (next : Offer) : Option Offer :=
  match best with
  | none => some next
  -- a first offer whose weight is no number stays, since nothing compares with it
  | some b => if next.beats b then some next else some b

/-- The best of some offers. -/
def Offer.best? (os : List Offer) : Option Offer := os.foldl Offer.pick none

/-- **The coding chosen** for a value of Accept-Encoding. -/
def choose? (value : String) : Option Coding :=
  (Offer.best? (offers value.toList)).map Offer.coding

/-- The greatest weight wins, whatever the order of preference. -/
example : choose? "zstd;q=0.5, br, x-gzip;q=1.1" = some .gzip := by decide +kernel

/-- A coding refused is not chosen, and a weight that cannot be read counts as none stated. -/
example : choose? "zstd;q=0, deflate;q=much" = some .deflate := by decide +kernel

namespace Offer

variable {a b c : Offer} {os ps : List Offer}

/-- **When an offer beats another**: both weigh numbers, and its own is greater, or as great and its
coding is preferred. -/
theorem beats_iff : a.beats b = true ↔ ∃ m n, a.weight = .units m ∧ b.weight = .units n ∧
    (n < m ∨ m = n ∧ a.coding.rank < b.coding.rank) := by
  obtain ⟨coding, weight⟩ := a
  obtain ⟨coding', weight'⟩ := b
  cases weight <;> cases weight' <;> simp [beats, Weight.lt, Weight.same]

theorem beats_irrefl (a : Offer) : a.beats a = false := by
  rw [← Bool.not_eq_true, beats_iff]
  rintro ⟨m, n, hm, hn, h⟩
  obtain rfl := Weight.units.inj (hm.symm.trans hn)
  omega

theorem beats_trans (h : a.beats b = true) (k : b.beats c = true) : a.beats c = true := by
  obtain ⟨l, m, hl, hm, h⟩ := beats_iff.1 h
  obtain ⟨m', n, hm', hn, k⟩ := beats_iff.1 k
  obtain rfl := Weight.units.inj (hm.symm.trans hm')
  exact beats_iff.2 ⟨l, n, hl, hn, by omega⟩

theorem not_beats_of_beats (h : a.beats b = true) : b.beats a = false := by
  rw [← Bool.not_eq_true]
  intro k
  cases (beats_irrefl a).symm.trans (beats_trans h k)

/-- **An offer leads** others: it is one of them, and none of them beats it. -/
structure Leads (os : List Offer) (a : Offer) : Prop where
  mem : a ∈ os
  unbeaten : ∀ b ∈ os, b.beats a = false

theorem Leads.cons (h : Leads os a) (hb : b.beats a = false) : Leads (b :: os) a :=
  ⟨List.mem_cons_of_mem b h.mem, List.forall_mem_cons.2 ⟨hb, h.unbeaten⟩⟩

/-- Which offers lead does not depend on their order. -/
theorem leads_of_perm (h : os.Perm ps) (hl : Leads os a) : Leads ps a :=
  ⟨h.mem_iff.1 hl.mem, fun b hb => hl.unbeaten b (h.mem_iff.2 hb)⟩

/-- What is kept is what was kept before, or beats it; and it leads. -/
theorem leads_foldl (os : List Offer) (b : Offer) :
    ∃ a, os.foldl pick (some b) = some a ∧ (a = b ∨ a.beats b = true) ∧ Leads (b :: os) a := by
  induction os generalizing b with
  | nil => exact ⟨b, rfl, .inl rfl, List.mem_singleton.2 rfl, by simp [beats_irrefl]⟩
  | cons o os ih =>
    rw [List.foldl_cons, pick]
    cases ho : o.beats b with
    | true =>
      obtain ⟨a, hfold, ha, hl⟩ := ih o
      have hab : a.beats b = true := by
        rcases ha with rfl | ha
        · exact ho
        · exact beats_trans ha ho
      exact ⟨a, hfold, .inr hab, hl.cons (not_beats_of_beats hab)⟩
    | false =>
      obtain ⟨a, hfold, ha, hl⟩ := ih b
      -- what does not beat the offer kept so far does not beat a better one either
      have hoa : o.beats a = false := by
        rcases ha with rfl | ha
        · exact ho
        · rw [← Bool.not_eq_true]
          exact fun h => Bool.false_ne_true (ho.symm.trans (beats_trans h ha))
      exact ⟨a, hfold, ha, leads_of_perm (List.Perm.swap ..) (hl.cons hoa)⟩

/-- **What is kept leads.** -/
theorem leads_of_best? (h : best? os = some a) : Leads os a := by
  cases os with
  | nil => cases h
  | cons b os =>
    obtain ⟨a', hfold, -, hl⟩ := leads_foldl os b
    obtain rfl := Option.some.inj (hfold.symm.trans h)
    exact hl

theorem best?_mem (h : best? os = some b) : b ∈ os := (leads_of_best? h).mem

theorem best?_eq_none_iff : best? os = none ↔ os = [] := by
  cases os with
  | nil => simp [best?]
  | cons o os =>
    obtain ⟨a, hfold, -⟩ := leads_foldl os o
    simp [best?, pick, hfold]

end Offer

theorem choose_eq_none_iff {value : String} : choose? value = none ↔ offers value.toList = [] := by
  simp [choose?, Offer.best?_eq_none_iff]

theorem choose_mem {value : String} {c : Coding} (h : choose? value = some c) :
    ∃ o ∈ offers value.toList, o.coding = c := by
  obtain ⟨o, ho, rfl⟩ := Option.map_eq_some_iff.1 h
  exact ⟨o, Offer.best?_mem ho, rfl⟩

end ContentCoding.AcceptEncoding
