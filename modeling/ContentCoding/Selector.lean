import ContentCoding.AcceptEncoding
import ContentCoding.Negotiation
import ContentCoding.StreamCompressor

/-!
# The selector

The decision that goes by Accept-Encoding. It leaves alone responses that gain nothing from
coding or would be broken by it: parts of a body, images, remote calls, and small bodies.

* `hasType_iff`: a Content-Type begins with a text where its octets do.
* `select_eq_some_iff`: a coding is selected when it is chosen and nothing speaks against it.
* `consult_selector`: what is selected is the label, and whether to flush.
-/

namespace ContentCoding

/-- The first size that is too great to be one: sizes have sixty-four binary digits. -/
def sizeBound : Nat := 18446744073709551616

/-- **A size as written**: digits, perhaps behind a plus, that do not reach the bound. -/
def readSize? (s : Text) : Option Nat :=
  let ds := match s with
    | '+' :: ds => ds
    | ds => ds
  if ds ≠ [] ∧ ds.all Char.isDigit then
    let n := Weight.value ds
    if n < sizeBound then some n else none
  else none

/-- Whether a text begins with another. -/
def Text.begins (s : Text) (start : String) : Bool := start.toList.isPrefixOf s

namespace Fields

/-- Whether the first Content-Type begins like this. -/
def hasType (h : Fields) (start : String) : Bool :=
  match h.text? .contentType with
  | none => false
  | some s => s.begins start

/-- **Media that coding does not help or would break**: images that are no drawings, and remote
calls that are not made for browsers. -/
def isUnsuited (h : Fields) : Bool :=
  (h.hasType "image/" && !h.hasType "image/svg+xml") ||
    (h.hasType "application/grpc" && !h.hasType "application/grpc-web")

/-- The length that the first Content-Length declares. -/
def declaredLength? (h : Fields) : Option Nat := (h.text? .contentLength).bind readSize?

/-- Whether the declared length is smaller than a size. -/
def isBelow (h : Fields) (size : Nat) : Bool :=
  match h.declaredLength? with
  | none => false
  | some n => n < size

/-- **Whether each piece must be readable on arrival**: the response is not to be buffered, or is a
stream of events or of remote calls. -/
def needsFlush (h : Fields) : Bool :=
  (match h.text? .accelBuffering with
    | none => false
    | some s => Text.sameFolded s "no".toList) ||
  h.hasType "text/event-stream" || h.hasType "application/grpc-web"

/-- **The first Content-Type begins like this** just where all of it can be read, and its octets
do. -/
theorem hasType_iff {h : Fields} {start : String}
    (hs : start.toList.all Octets.isVisibleChar = true) :
    h.hasType start = true ↔ ∃ v, h.first? .contentType = some v ∧
      v.all Octets.isVisible = true ∧ Octets.ofString start <+: v := by
  constructor
  · intro hb
    unfold hasType at hb
    split at hb
    · cases hb
    · rename_i s ht
      obtain ⟨v, hv, hread⟩ := Option.bind_eq_some_iff.1 ht
      obtain ⟨rest, rfl⟩ := List.isPrefixOf_iff_prefix.1 hb
      refine ⟨v, hv, Octets.isVisible_of_text? hread, Octets.ofText rest, ?_⟩
      rw [(Octets.text?_eq_some_iff.1 hread).1, Octets.ofString, Octets.ofText, Octets.ofText,
        Octets.ofText, List.map_append]
  · rintro ⟨v, hv, hvisible, rest, rfl⟩
    have hstart : (Octets.ofString start).map (fun b => Char.ofNat b.toNat) = start.toList := by
      -- the octets of the text are all visible, and read back as the text
      have hread := Octets.text?_ofText hs
      unfold Octets.text? at hread
      split at hread
      · exact Option.some.inj hread
      · cases hread
    have ht : h.text? .contentType =
        some (start.toList ++ rest.map fun b => Char.ofNat b.toNat) := by
      rw [text?, hv, Option.bind_some, Octets.text?, if_pos hvisible, List.map_append, hstart]
    rw [hasType, ht]
    exact List.isPrefixOf_iff_prefix.2 (List.prefix_append _ _)

end Fields

/-- **A selector**: the least size that is worth coding, and the engine of each coding. -/
structure Selector (ε : Type) where
  engine : Coding → ε
  minSize : Nat := 860

namespace Selector

variable {ε : Type} {s : Selector ε} {head : Head} {accept : Option String} {coding : Coding}

/-- Whether a response may be coded at all. -/
def suits (s : Selector ε) (head : Head) : Bool :=
  !head.fields.has .contentRange && !head.fields.isUnsuited && !head.fields.isBelow s.minSize

/-- **The coding of a response**, or none to let it pass. -/
def select (s : Selector ε) (head : Head) (accept : Option String) : Option Coding :=
  (accept.bind AcceptEncoding.choose?).filter fun _ => s.suits head

/-- The encoding of a response: its coding's label, and a compressor that starts on it. -/
def encoding (s : Selector ε) (head : Head) (c : Coding) : Encoding (StreamCompressor ε) :=
  ⟨Octets.ofString c.label, .start (s.engine c) head.fields.needsFlush⟩

instance : Decision (Selector ε) (StreamCompressor ε) where
  consult s head accept := ((s.select head accept).map (s.encoding head), s)

theorem select_eq_some_iff :
    s.select head accept = some coding ↔
      accept.bind AcceptEncoding.choose? = some coding ∧ s.suits head := by
  simp [select, Option.filter_eq_some_iff]

theorem consult_selector :
    Decision.consult s head accept = ((s.select head accept).map (s.encoding head), s) := rfl

end Selector

end ContentCoding
