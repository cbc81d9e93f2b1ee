import ContentCoding.Octets

/-!
# Header fields

The fields of a message are an ordered multimap from names to values. A name may
stand several times; only the order of the values of one name has a meaning, so
`values` is the view by which everything else is stated.

* `values_append`, `values_remove`, `values_insert`: what each change does to the view.
* `insert_of_values`: inserting a value that stands there alone changes nothing.
* `remove_of_not_has`: removing a name that is absent changes nothing.
-/

namespace ContentCoding

/-- A character of an HTTP token: an ASCII letter or digit, or one of fifteen signs. -/
def isTokenChar (c : Char) : Bool :=
  c.isAlphanum || "!#$%&'*+-.^_`|~".toList.contains c

/-- Whether a text is an HTTP token. -/
def isToken (s : String) : Bool := !s.isEmpty && s.toList.all isTokenChar

/-- The name of a field, in lower case. -/
abbrev FieldName := String

namespace FieldName

/-- **A name as written**, letter case aside; none where it is no token. -/
def ofString? (s : String) : Option FieldName :=
  if isToken s then some (String.ofList (Text.fold s.toList)) else none

abbrev acceptEncoding : FieldName := "accept-encoding"
abbrev acceptRanges : FieldName := "accept-ranges"
abbrev contentEncoding : FieldName := "content-encoding"
abbrev contentLength : FieldName := "content-length"
abbrev contentRange : FieldName := "content-range"
abbrev contentType : FieldName := "content-type"
abbrev transferEncoding : FieldName := "transfer-encoding"
abbrev vary : FieldName := "vary"
abbrev accelBuffering : FieldName := "x-accel-buffering"

end FieldName

/-- **A field**: a name and one value. -/
structure Field where
  name : FieldName
  value : Octets
  deriving DecidableEq, Repr

/-- Whether a field can carry these octets: no control characters but the tab. -/
def Field.isValue (v : Octets) : Bool := v.all fun b => b == 9 || (32 ≤ b && b != 127)

/-- **The fields of a message**, in the order in which they were added. -/
abbrev Fields := List Field

namespace Fields

variable {h : Fields} {name other : FieldName} {v : Octets}

/-- **The values of a name**, in order. -/
def values (h : Fields) (name : FieldName) : List Octets :=
  (h.filter fun f => f.name == name).map Field.value

/-- Whether a name has a value. -/
def has (h : Fields) (name : FieldName) : Bool := h.any fun f => f.name == name

/-- The first value of a name. -/
def first? (h : Fields) (name : FieldName) : Option Octets := (h.values name).head?

/-- The first value of a name, if it can be read as text. -/
def text? (h : Fields) (name : FieldName) : Option Text := (h.first? name).bind Octets.text?

/-- The fields with one more value behind those of its name. -/
def append (h : Fields) (name : FieldName) (v : Octets) : Fields := List.append h [⟨name, v⟩]

/-- The fields without a name. -/
def remove (h : Fields) (name : FieldName) : Fields := h.filter fun f => f.name != name

/-- **The fields with a name that has just one value.** It takes the place of the first
value that the name had. -/
def insert (h : Fields) (name : FieldName) (v : Octets) : Fields :=
  match h with
  | [] => [⟨name, v⟩]
  | f :: h => if f.name = name then ⟨name, v⟩ :: remove h name else f :: insert h name v

@[simp] theorem values_nil : values [] name = [] := rfl

theorem values_cons (f : Field) (h : Fields) :
    values (f :: h) name = if f.name = name then f.value :: h.values name else h.values name := by
  by_cases hf : f.name = name <;> simp [values, hf]

theorem has_iff : h.has name ↔ h.values name ≠ [] := by
  simp [has, values]

theorem has_eq_false_iff : h.has name = false ↔ h.values name = [] := by
  rw [← Bool.not_eq_true, has_iff, Decidable.not_not]

theorem values_append :
    (h.append name v).values other = h.values other ++ if name = other then [v] else [] := by
  by_cases hn : name = other <;> simp [values, append, List.filter_append, hn]

theorem values_remove :
    (h.remove name).values other = if name = other then [] else h.values other := by
  induction h with
  | nil => simp [remove]
  | cons f h ih =>
    by_cases hf : f.name = name
    · simp_all [remove, values_cons]
    · by_cases hn : name = other <;> simp_all [remove, values_cons]

theorem values_insert :
    (h.insert name v).values other = if name = other then [v] else h.values other := by
  induction h with
  | nil => simp [insert, values_cons]
  | cons f h ih =>
    by_cases hf : f.name = name
    · by_cases hn : name = other <;> simp_all [insert, values_cons, values_remove]
    · by_cases hn : name = other <;> simp_all [insert, values_cons]

theorem remove_of_not_has (hn : h.has name = false) : h.remove name = h := by
  simpa [remove, has] using hn

theorem insert_of_values (hv : h.values name = [v]) : h.insert name v = h := by
  induction h with
  | nil => simp at hv
  | cons f h ih =>
    obtain ⟨n, w⟩ := f
    by_cases hn : n = name
    · subst hn
      simp only [values_cons, ↓reduceIte, List.cons.injEq] at hv
      simp [insert, hv.1, remove_of_not_has (has_eq_false_iff.2 hv.2)]
    · simp only [values_cons, if_neg hn] at hv
      simp [insert, hn, ih hv]

end Fields

end ContentCoding
