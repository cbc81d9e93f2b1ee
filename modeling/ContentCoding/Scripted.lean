import ContentCoding.Service

/-!
# Scripted parts

A compressor, a decision and a handler that do as they are told, for trying out the rest.
Any call of the compressor can be made to fail.
-/

namespace ContentCoding.Scripted

/-- **What a scripted compressor gives for a piece of input**: its length in decimal, the piece
itself, nothing until the end, or nothing at all. -/
inductive Mode
  | length
  | echo
  | hold
  | nothing
  deriving DecidableEq, Repr, Inhabited

/-- **What a scripted compressor is told.** -/
structure Behaviour where
  mode : Mode := .length
  /-- What it gives when it finishes, behind what it held. -/
  tail : Octets := []
  /-- The number of the call to compress that fails, counted from zero. -/
  failsAt : Option Nat := none
  failsToFinish : Bool := false
  failsToClose : Bool := false
  /-- The number of calls to compress after which it counts as finished. -/
  finishedAfter : Option Nat := none
  deriving DecidableEq, Repr, Inhabited

/-- **A scripted compressor.** -/
structure Machine where
  behaviour : Behaviour
  calls : Nat := 0
  held : Octets := []
  finished : Bool := false
  deriving DecidableEq, Repr, Inhabited

namespace Machine

def compressFailed : Cause := ⟨"compress failed"⟩

def finishFailed : Cause := ⟨"finish failed"⟩

def closeFailed : Cause := ⟨"close failed"⟩

/-- Takes a piece of input. A call that fails is counted too. -/
def compress (m : Machine) (input : Octets) : Except Cause Octets × Machine :=
  let counted := { m with calls := m.calls + 1 }
  if m.behaviour.failsAt = some m.calls then (.error compressFailed, counted)
  else
    match m.behaviour.mode with
    | .length => (.ok (Octets.ofString (toString input.length)), counted)
    | .echo => (.ok input, counted)
    | .hold => (.ok [], { counted with held := m.held ++ input })
    | .nothing => (.ok [], counted)

/-- Gives what it held, and its tail. -/
def finish (m : Machine) : Except Cause Octets × Machine :=
  if m.behaviour.failsToFinish then (.error finishFailed, m)
  else (.ok (m.held ++ m.behaviour.tail), { m with held := [], finished := true })

/-- Whether it has finished, or was called often enough to count as finished. -/
def isFinished (m : Machine) : Bool :=
  m.finished || m.behaviour.finishedAfter.any fun n => n ≤ m.calls

def close (m : Machine) : Except Cause Unit × Machine :=
  (if m.behaviour.failsToClose then .error closeFailed else .ok (), m)

instance : Compressor Machine where
  compress := compress
  finish := finish
  isFinished := isFinished
  close := close

end Machine

/-- **A scripted way to code**: a label, and what its compressor is told. -/
structure Plan where
  label : Octets
  behaviour : Behaviour := {}
  deriving DecidableEq, Repr

/-- **A scripted decision.** Its plans are used in turn, over and over; an empty place, or
an empty script, declines. -/
structure Script where
  plans : List (Option Plan)
  consulted : Nat := 0
  deriving DecidableEq, Repr

/-- The plan whose turn it is. -/
def Script.current (s : Script) : Option Plan := s.plans[s.consulted % s.plans.length]?.join

instance : Decision Script Machine where
  consult s _ _ :=
    (s.current.map fun p => ⟨p.label, { behaviour := p.behaviour }⟩,
      { s with consulted := s.consulted + 1 })

/-- **A scripted handler.** It is pending or fails when it is asked whether it is ready, as it is
told, and gives every request the same reply. -/
structure Responder where
  calls : Nat := 0
  notReady : Nat := 0
  failsReady : Bool := false
  reply : Reply := { outcome := .ok ⟨{}, {}⟩ }

def Responder.notAvailable : Cause := ⟨"not available"⟩

instance : Handler Responder where
  ready r :=
    if r.failsReady then (.failed Responder.notAvailable, r)
    else
      match r.notReady with
      | n + 1 => (.pending, { r with notReady := n })
      | 0 => (.ready, r)
  call r _ _ := (r.reply, { r with calls := r.calls + 1 })

end ContentCoding.Scripted
