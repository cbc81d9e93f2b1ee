import ContentCoding.Proofs.Choice
import ContentCoding.Request
import ContentCoding.Selector

/-!
# Accept-Encoding on several lines

The value of a list-valued field can be spread over several lines, which stand for one line on which
their values are joined. Of a request the first line of Accept-Encoding is observed, and no other;
so lines are as good as their join where the first one settles the choice.

* `offers_combine`: what is offered on lines that are joined.
* `Offer.coding_of_append_iff`: when the offers of the first line settle the choice.
* `select_lines_iff`: **a response gets the coding that it gets for the joined line just where it is
  not coded at all, or the first line settles the choice.**
-/

namespace ContentCoding.AcceptEncoding

/-- **The one line that lines stand for.** -/
def combine (lines : List Text) : Text := ", ".toList.intercalate lines

section lines

variable {c : Char} {line : Text} {lines : List Text}

theorem combine_cons (line next : Text) (lines : List Text) :
    combine (line :: next :: lines) = line ++ ',' :: ' ' :: combine (next :: lines) := by
  simp [combine, List.intercalate]

theorem visible_combine (h : ∀ t ∈ line :: lines, t.all Octets.isVisibleChar) :
    (combine (line :: lines)).all Octets.isVisibleChar := by
  induction lines generalizing line with
  | nil =>
    have hl := h line (List.mem_cons_self ..)
    simpa [combine, List.intercalate] using hl
  | cons next lines ih =>
    have hl := h line (List.mem_cons_self ..)
    have hrest := ih fun t ht => h t (List.mem_cons_of_mem line ht)
    have hcomma : Octets.isVisibleChar ',' = true := by decide
    have hspace : Octets.isVisibleChar ' ' = true := by decide
    rw [combine_cons, List.all_append, List.all_cons, List.all_cons, hl, hcomma, hspace, hrest]
    rfl

theorem offers_append (s t : Text) : offers (s ++ ',' :: t) = offers s ++ offers t := by
  rw [offers, entries, Text.split_append, List.map_append, List.filterMap_append]
  rfl

/-- A blank before the first entry does not count. -/
theorem offers_cons (hb : Text.isBlank c = true) (hc : c ≠ ',') (t : Text) :
    offers (c :: t) = offers t := by
  obtain ⟨piece, pieces, h⟩ := List.exists_cons_of_ne_nil (@Text.split_ne_nil ',' t)
  have hread : Entry.read (c :: piece) = Entry.read piece := by
    rw [Entry.read, Text.trim_cons hb]
    rfl
  rw [offers, entries, Text.split, if_neg hc, h, List.modifyHead_cons, List.map_cons, hread,
    ← List.map_cons, ← h]
  rfl

/-- **What is offered on lines that are joined** is what is offered on each of them, in order. -/
theorem offers_combine (line : Text) (lines : List Text) :
    offers (combine (line :: lines)) = offers line ++ lines.flatMap offers := by
  induction lines generalizing line with
  | nil => simp [combine, List.intercalate]
  | cons next lines ih =>
    rw [combine_cons, offers_append, offers_cons (by decide) (by decide), ih, List.flatMap_cons]

end lines

namespace Offer

variable {first later : List Offer}

/-- **The first offers settle the choice.** Where there are none, there are no later ones either.
Otherwise each later offer that beats the best of them names its coding as well, or is beaten by one
that does. -/
def Settles (first later : List Offer) : Prop :=
  match best? first with
  | none => later = []
  | some b => ∀ o ∈ later, o.beats b = true → o.coding ≠ b.coding →
      ∃ p ∈ later, p.coding = b.coding ∧ p.beats o = true

/-- **When the first offers settle the choice**: the best of them all names the coding that the best
of the first ones names. -/
theorem coding_of_append_iff :
    (best? first).map coding = (best? (first ++ later)).map coding ↔ Settles first later := by
  unfold Settles
  cases hb : best? first with
  | none =>
    obtain rfl := best?_eq_none_iff.1 hb
    rw [List.nil_append, Option.map_none, eq_comm, Option.map_eq_none_iff, best?_eq_none_iff]
  | some b =>
    obtain ⟨a, hfold, hab, hl⟩ := leads_foldl later b
    have hbest : best? (first ++ later) = some a := by
      rw [best?, List.foldl_append, ← best?, hb, hfold]
    have hlater (hbeats : a.beats b = true) : a ∈ later := by
      rcases List.mem_cons.1 hl.mem with rfl | ha
      · cases (beats_irrefl a).symm.trans hbeats
      · exact ha
    simp only [hbest, Option.map_some, Option.some.injEq]
    constructor
    · intro hsame o ho hob hne
      have hoa : o.beats a = false := hl.unbeaten o (List.mem_cons_of_mem b ho)
      rcases hab with rfl | hab
      · cases hoa.symm.trans hob
      · refine ⟨a, hlater hab, hsame.symm, ?_⟩
        -- neither beats the other only if they are one offer
        rw [← Bool.not_eq_false]
        intro hao
        have heq := eq_of_not_beats (weight_of_beats hab) (weight_of_beats hob) hao hoa
        exact hne (heq ▸ hsame.symm)
    · intro h
      rcases hab with rfl | hab
      · rfl
      · by_contra hne
        obtain ⟨p, hp, -, hpa⟩ := h a (hlater hab) hab (Ne.symm hne)
        cases (hl.unbeaten p (List.mem_cons_of_mem b hp)).symm.trans hpa

end Offer

section observed

variable {ε : Type} {method : Method} {fields spread joined : Fields} {line : Text}
  {lines : List Text} {rest : List Octets}

/-- Of the lines of Accept-Encoding the first one is observed. -/
theorem accept_of_values (hv : line.all Octets.isVisibleChar)
    (h : fields.values .acceptEncoding = Octets.ofText line :: rest) :
    (Request.observe method fields).accept = some (String.ofList line) := by
  simp [Request.observe, Fields.text?, Fields.first?, h, Octets.text?_ofText hv]

theorem filter_eq_filter_iff {x y : Option Coding} {b : Bool} :
    (x.filter fun _ => b) = (y.filter fun _ => b) ↔ (b = true → x = y) := by
  cases b with
  | false => simp
  | true => cases x <;> cases y <;> simp [Option.filter]

/-- **When lines are as good as their join.** A request has lines of Accept-Encoding that can be read
as text, and another has the one line on which they are joined. The same coding is selected for both
just where the response is not coded at all, or the first line settles the choice. -/
theorem select_lines_iff (s : Selector ε) (head : Head) (method : Method)
    (hv : ∀ t ∈ line :: lines, t.all Octets.isVisibleChar)
    (hspread : spread.values .acceptEncoding = (line :: lines).map Octets.ofText)
    (hjoined : joined.values .acceptEncoding = [Octets.ofText (combine (line :: lines))]) :
    s.select head (Request.observe method spread).accept =
        s.select head (Request.observe method joined).accept ↔
      (s.suits head = true → Offer.Settles (offers line) (lines.flatMap offers)) := by
  have hfirst := hv line (List.mem_cons_self ..)
  rw [accept_of_values hfirst hspread, accept_of_values (visible_combine hv) hjoined,
    Selector.select, Selector.select, filter_eq_filter_iff, Option.bind_some, Option.bind_some,
    choose?, choose?, String.toList_ofList, String.toList_ofList, offers_combine,
    Offer.coding_of_append_iff]

/-- The first line settles the choice where later lines offer no better coding. -/
theorem select_lines_of_best_first :
    let s : Selector Unit := ⟨fun _ => (), 0⟩
    let spread : Fields := [⟨.acceptEncoding, Octets.ofString "br, zstd;q=0.5"⟩,
      ⟨.acceptEncoding, Octets.ofString "gzip, zstd;q=0.7"⟩]
    let joined : Fields :=
      [⟨.acceptEncoding, Octets.ofString "br, zstd;q=0.5, gzip, zstd;q=0.7"⟩]
    s.select {} (Request.observe .get spread).accept = some .brotli ∧
      s.select {} (Request.observe .get joined).accept = some .brotli := by
  intro s spread joined
  have hsettles : Offer.Settles (offers "br, zstd;q=0.5".toList)
      (["gzip, zstd;q=0.7".toList].flatMap offers) := by
    have hb : Offer.best? (offers "br, zstd;q=0.5".toList) = some ⟨.brotli, .one⟩ := by
      decide +kernel
    rw [Offer.Settles, hb]
    decide +kernel
  have hv : ∀ t ∈ ["br, zstd;q=0.5".toList, "gzip, zstd;q=0.7".toList],
      t.all Octets.isVisibleChar := by decide
  have hc : s.select {} (Request.observe .get spread).accept = some .brotli := by decide +kernel
  have hspread : spread.values .acceptEncoding =
      ["br, zstd;q=0.5".toList, "gzip, zstd;q=0.7".toList].map Octets.ofText := rfl
  have hjoined : joined.values .acceptEncoding =
      [Octets.ofText (combine ["br, zstd;q=0.5".toList, "gzip, zstd;q=0.7".toList])] := by decide
  have hsame := (select_lines_iff s {} .get hv hspread hjoined).2 fun _ => hsettles
  exact ⟨hc, hsame.symm.trans hc⟩

/-- A coding that is offered on the second line only is not selected. -/
theorem not_select_of_second_line :
    let s : Selector Unit := ⟨fun _ => (), 0⟩
    let spread : Fields := [⟨.acceptEncoding, Octets.ofString "identity"⟩,
      ⟨.acceptEncoding, Octets.ofString "gzip"⟩]
    let joined : Fields := [⟨.acceptEncoding, Octets.ofString "identity, gzip"⟩]
    s.select {} (Request.observe .get spread).accept = none ∧
      s.select {} (Request.observe .get joined).accept = some .gzip := by
  decide +kernel

end observed

end ContentCoding.AcceptEncoding
