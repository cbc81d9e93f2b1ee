import ContentCoding.Compressor

/-!
# Sessions with a compressor

The calls of a compressor that change it, made one after another and in any order. A session holds
what each of them was answered, and the compressor that was left.

* `session_append`: a session in two parts is the parts one after the other.
* `session_of_refused`: a call that fails and changes nothing could as well not have been made.
-/

namespace ContentCoding

/-- **A call** of a compressor. -/
inductive Call
  | compress (input : Octets)
  | finish
  | close
  deriving DecidableEq

/-- **A call, and what it was answered.** A close that succeeds gives no octets. -/
structure Call.Outcome where
  call : Call
  answer : Except Cause Octets
  deriving DecidableEq

/-- **What a session came to**: the calls with their answers in order, and the compressor after
them. -/
structure Session (σ : Type) where
  outcomes : List Call.Outcome := []
  last : σ

/-- The octets that a call gave. -/
def Call.Outcome.given (a : Call.Outcome) : Octets :=
  match a.answer with
  | .ok out => out
  | .error _ => []

/-- The input that a call took. -/
def Call.Outcome.taken (a : Call.Outcome) : Octets :=
  match a.call, a.answer with
  | .compress input, .ok _ => input
  | _, _ => []

namespace Session

variable {σ : Type}

/-- **All octets that were given** in a session. -/
def given (s : Session σ) : Octets := s.outcomes.flatMap Call.Outcome.given

/-- **All input that was taken** in a session. -/
def taken (s : Session σ) : Octets := s.outcomes.flatMap Call.Outcome.taken

end Session

namespace Compressor

variable {σ : Type} [Compressor σ]

/-- **Makes a call.** -/
def perform (s : σ) : Call → Except Cause Octets × σ
  | .compress input => compress s input
  | .finish => finish s
  | .close => ((close s).1.map fun _ => [], (close s).2)

/-- **A session.** -/
def session (s : σ) : List Call → Session σ
  | [] => { last := s }
  | call :: calls =>
    let rest := session (perform s call).2 calls
    { outcomes := ⟨call, (perform s call).1⟩ :: rest.outcomes, last := rest.last }

theorem session_append (s : σ) (front back : List Call) :
    session s (front ++ back) =
      let h := session s front
      let k := session h.last back
      { outcomes := h.outcomes ++ k.outcomes, last := k.last } := by
  induction front generalizing s with
  | nil => rfl
  | cons call front ih => simp [session, ih]

theorem session_concat (s : σ) (front : List Call) (call : Call) :
    session s (front ++ [call]) =
      let h := session s front
      { outcomes := h.outcomes ++ [⟨call, (perform h.last call).1⟩]
        last := (perform h.last call).2 } :=
  session_append s front [call]

/-- One more call adds what it gave, and what it took. -/
theorem session_concat_of_ok {s : σ} {front : List Call} {call : Call} {out : Octets}
    (h : (perform (session s front).last call).1 = .ok out) :
    let a : Call.Outcome := ⟨call, .ok out⟩
    (session s (front ++ [call])).given = (session s front).given ++ a.given ∧
      (session s (front ++ [call])).taken = (session s front).taken ++ a.taken := by
  simp [session_concat, h, Session.given, Session.taken]

/-- **A call that fails and changes nothing** could as well not have been made. -/
theorem session_of_refused {s : σ} {front : List Call} {call : Call} {cause : Cause}
    (h : perform (session s front).last call = (.error cause, (session s front).last))
    (back : List Call) :
    let made := session s (front ++ call :: back)
    let omitted := session s (front ++ back)
    made.given = omitted.given ∧ made.taken = omitted.taken ∧ made.last = omitted.last ∧
      ∃ later, made.outcomes = (session s front).outcomes ++ ⟨call, .error cause⟩ :: later ∧
        omitted.outcomes = (session s front).outcomes ++ later := by
  have hgiven : Call.Outcome.given ⟨call, .error cause⟩ = [] := rfl
  have htaken : Call.Outcome.taken ⟨call, .error cause⟩ = [] := by cases call <;> rfl
  simp [session_append, session, h, Session.given, Session.taken, hgiven, htaken]

end Compressor

end ContentCoding
