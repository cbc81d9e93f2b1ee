import ContentCoding.Fields

/-!
# Framing of a coded body

A coded body has another length than the body that was written, and its coding must be
announced. These are the header fields of the response once it is known to be coded.

* `variesByCoding_announce`: caches are told that the response depends on Accept-Encoding.
* `values_announce_label`: the coding is announced once.
* `values_announce_delimit`: of the other fields, only those that delimit the body change.
-/

namespace ContentCoding

/-- **How a coded body is delimited**: by its length, by chunks, or as the connection likes. -/
inductive Framing
  | length
  | chunked
  | delegated
  deriving DecidableEq, Repr, Inhabited

namespace Fields

variable {h : Fields}

/-- Whether a value of Vary names Accept-Encoding, or everything. -/
def isVariance (v : Octets) : Bool :=
  match Octets.text? v with
  | none => false
  | some s => (Text.split ',' s).any fun m =>
      Text.sameFolded (Text.trim m) ['*'] ||
        Text.sameFolded (Text.trim m) FieldName.acceptEncoding.toList

/-- **Whether caches are told** that the response depends on Accept-Encoding. -/
def variesByCoding (h : Fields) : Bool := (h.values .vary).any isVariance

/-- The fields with Vary extended where it does not name Accept-Encoding. -/
def varyByCoding (h : Fields) : Fields :=
  if h.variesByCoding then h
  else h.append .vary (Octets.ofString FieldName.acceptEncoding)

/-- The fields with a length. -/
def setLength (h : Fields) (n : Nat) : Fields :=
  h.insert .contentLength (Octets.ofString (toString n))

theorem isVariance_acceptEncoding : isVariance (Octets.ofString FieldName.acceptEncoding) := by
  decide

theorem variesByCoding_varyByCoding : h.varyByCoding.variesByCoding := by
  by_cases hv : h.variesByCoding
  · simp [varyByCoding, hv]
  · rw [varyByCoding, if_neg hv, variesByCoding, values_append]
    simp [isVariance_acceptEncoding]

/-- Whether caches are told of codings depends on what they were told. -/
theorem values_varyByCoding_congr {g : Fields} {name : FieldName}
    (hv : h.values .vary = g.values .vary) (hn : h.values name = g.values name) :
    h.varyByCoding.values name = g.varyByCoding.values name := by
  have hvaries : h.variesByCoding = g.variesByCoding := by
    rw [variesByCoding, variesByCoding, hv]
  rw [varyByCoding, varyByCoding, hvaries]
  split
  · exact hn
  · rw [values_append, values_append, hn]

end Fields

namespace Framing

variable {h : Fields} {label : Octets} {framing : Framing}

/-- **The framing of a body that is whole.** A response that declared a length keeps one. -/
def forAggregate (h : Fields) : Framing := if h.has .contentLength then .length else .chunked

/-- The fields that say how the coded body is delimited. The length of a body that keeps
one is set when it is known. -/
def delimit (h : Fields) : Framing → Fields
  | .length => h
  | .chunked =>
    (h.remove .contentLength).insert .transferEncoding (Octets.ofString "chunked")
  | .delegated => h.remove .contentLength

/-- **The fields of a coded response.** They say how it is delimited and coded; ranges of the
body as it was written are offered no longer, and caches must tell its forms apart. -/
def announce (framing : Framing) (label : Octets) (h : Fields) : Fields :=
  (((framing.delimit h).insert .contentEncoding label).remove .acceptRanges).varyByCoding

theorem variesByCoding_announce : (framing.announce label h).variesByCoding :=
  Fields.variesByCoding_varyByCoding

theorem values_varyByCoding {name : FieldName} (hn : name ≠ .vary) :
    h.varyByCoding.values name = h.values name := by
  simp only [Fields.varyByCoding]
  split
  · rfl
  · simp [Fields.values_append, Ne.symm hn]

theorem values_announce_label :
    (framing.announce label h).values .contentEncoding = [label] := by
  rw [announce, values_varyByCoding (by decide), Fields.values_remove, if_neg (by decide),
    Fields.values_insert, if_pos rfl]

/-- **What delimits the body** is announced as it is, and so is every field that says nothing of
codings. -/
theorem values_announce_delimit {name : FieldName} (hv : name ≠ .vary) (hr : name ≠ .acceptRanges)
    (he : name ≠ .contentEncoding) :
    (framing.announce label h).values name = (framing.delimit h).values name := by
  rw [announce, values_varyByCoding hv, Fields.values_remove, if_neg (Ne.symm hr),
    Fields.values_insert, if_neg (Ne.symm he)]

/-- Chunks delimit a body alone. -/
theorem values_delimit_chunked :
    (Framing.chunked.delimit h).values .contentLength = [] ∧
      (Framing.chunked.delimit h).values .transferEncoding = [Octets.ofString "chunked"] := by
  constructor
  · rw [delimit, Fields.values_insert, if_neg (by decide), Fields.values_remove, if_pos rfl]
  · rw [delimit, Fields.values_insert, if_pos rfl]

end Framing

end ContentCoding
