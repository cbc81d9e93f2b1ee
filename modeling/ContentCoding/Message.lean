import ContentCoding.Fields

/-!
# Messages

What a connection sends: the head of a response followed by the chunks of its
body, or a whole response at once.

* `Status.class_cases`: what the classes of a status say about each other.
-/

namespace ContentCoding

/-- **The version of HTTP** a response is sent in, oldest first. -/
inductive Version
  | http09
  | http10
  | http11
  | http2
  | http3
  deriving DecidableEq, Repr, Inhabited

/-- Whether a version lacks chunked framing: all before HTTP/1.1. -/
def Version.isLegacy : Version → Bool
  | .http09 | .http10 => true
  | .http11 | .http2 | .http3 => false

/-- **A status code**, three digits long. -/
structure Status where
  code : Nat
  bounds : 100 ≤ code ∧ code ≤ 999 := by decide
  deriving DecidableEq, Repr

namespace Status

def ok : Status := { code := 200 }
def switchingProtocols : Status := { code := 101 }
def noContent : Status := { code := 204 }
def notModified : Status := { code := 304 }

instance : Inhabited Status := ⟨ok⟩

/-- The status with a code, if it has three digits. -/
def ofNat? (n : Nat) : Option Status :=
  if h : 100 ≤ n ∧ n ≤ 999 then some ⟨n, h⟩ else none

/-- Status 1xx. -/
def isInformational (s : Status) : Bool := s.code / 100 == 1

/-- Status 2xx. -/
def isSuccess (s : Status) : Bool := s.code / 100 == 2

/-- Whether a response with this status never has a body: 1xx, 204 and 304. -/
def isBodyless (s : Status) : Bool := s.isInformational || s == noContent || s == notModified

/-- **Interim.** Whether another response to the same request follows: 1xx, unless the
connection switches protocols. -/
def isInterim (s : Status) : Bool := s.isInformational && s != switchingProtocols

/-- A status is its code. -/
theorem eq_of_code {s t : Status} (h : s.code = t.code) : s = t := by
  obtain ⟨code, bounds⟩ := s
  obtain ⟨code', bounds'⟩ := t
  cases h
  rfl

theorem class_cases (s : Status) :
    (s.isInterim → s.isBodyless) ∧ (s.isInformational → s.isSuccess = false) := by
  simp only [isInterim, isBodyless, isInformational, isSuccess]
  constructor
  · intro h
    simp_all
  · intro h
    simp_all

end Status

/-- **A request method.** Its letter case counts. -/
structure Method where
  name : String
  deriving DecidableEq, Repr, Inhabited

namespace Method

def get : Method := ⟨"GET"⟩
def head : Method := ⟨"HEAD"⟩
def connect : Method := ⟨"CONNECT"⟩

/-- The method with a name, if that is a token. -/
def ofString? (s : String) : Option Method := if isToken s then some ⟨s⟩ else none

end Method

/-- **The head of a response.** -/
structure Head where
  version : Version := .http11
  status : Status := .ok
  fields : Fields := []
  deriving DecidableEq, Repr, Inhabited

/-- **A chunk of a body.** Only the last one has trailer fields to send. -/
structure Chunk where
  payload : Octets
  last : Bool := false
  trailers : Option Fields := none
  deriving DecidableEq, Repr, Inhabited

/-- **A whole response**: its head, its body, and the trailer fields behind it. -/
structure Aggregate where
  head : Head
  payload : Octets
  trailers : Option Fields := none
  deriving DecidableEq, Repr, Inhabited

/-- **A message.** -/
inductive Message
  | head (h : Head)
  | chunk (c : Chunk)
  | aggregate (a : Aggregate)
  deriving DecidableEq, Repr, Inhabited

namespace Message

/-- The head of the response that the message starts. -/
def head? : Message → Option Head
  | .head h => some h
  | .aggregate a => some a.head
  | .chunk _ => none

/-- The chunk that the message is. -/
def chunk? : Message → Option Chunk
  | .chunk c => some c
  | .head _ | .aggregate _ => none

end Message

end ContentCoding
