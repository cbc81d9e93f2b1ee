import ContentCoding.Octets

/-!
# Content codings

The codings a body can be sent in, the names clients know them by, and which one
is preferred where a client likes two alike.

* `ofToken?_eq_some_iff`: a token stands for a coding when it is one of its names.
* `rank_injective`: no two codings are preferred alike.
-/

namespace ContentCoding

/-- **A content coding.** -/
inductive Coding
  | zstd
  | brotli
  | gzip
  | deflate
  deriving DecidableEq, Repr, Inhabited

namespace Coding

/-- Every coding, the preferred ones first. -/
def all : List Coding := [.zstd, .brotli, .gzip, .deflate]

/-- The place of a coding in the order of preference; a smaller one is preferred. -/
def rank : Coding → Nat
  | .zstd => 0
  | .brotli => 1
  | .gzip => 2
  | .deflate => 3

/-- The value of Content-Encoding that announces the coding. -/
def label : Coding → String
  | .zstd => "zstd"
  | .brotli => "br"
  | .gzip => "gzip"
  | .deflate => "deflate"

/-- **The names of a coding** in Accept-Encoding, in lower case. -/
def names : Coding → List String
  | .zstd => ["zstd"]
  | .brotli => ["br", "brotli"]
  | .gzip => ["gzip", "x-gzip"]
  | .deflate => ["deflate"]

/-- Whether a token names the coding, letter case aside. -/
def isNamed (c : Coding) (token : Text) : Bool :=
  c.names.any fun name => Text.fold token == name.toList

/-- The coding that a token names. -/
def ofToken? (token : Text) : Option Coding := all.find? fun c => c.isNamed token

/-- The coding that a value of Content-Encoding announces. -/
def ofLabel? (label : Octets) : Option Coding :=
  all.find? fun c => Octets.ofString c.label == label

theorem mem_all (c : Coding) : c ∈ all := by cases c <;> decide

theorem rank_injective {c d : Coding} (h : c.rank = d.rank) : c = d := by
  cases c <;> cases d <;> simp_all [rank]

theorem isNamed_of_ofToken? {c : Coding} {token : Text} (h : ofToken? token = some c) :
    c.isNamed token := by
  have hc := List.find?_some (p := fun c => isNamed c token) h
  exact hc

/-- A token names one coding at most. -/
theorem eq_of_isNamed {c d : Coding} {token : Text} (hc : c.isNamed token) (hd : d.isNamed token) :
    c = d := by
  simp only [isNamed, List.any_eq_true, beq_iff_eq] at hc hd
  obtain ⟨n, hn, h⟩ := hc
  obtain ⟨m, hm, k⟩ := hd
  have key : ∀ c ∈ all, ∀ d ∈ all, ∀ n ∈ c.names, ∀ m ∈ d.names, n.toList = m.toList → c = d := by
    decide
  exact key c (mem_all c) d (mem_all d) n hn m hm (h.symm.trans k)

theorem ofToken?_eq_some_iff {token : Text} {c : Coding} :
    ofToken? token = some c ↔ c.isNamed token := by
  refine ⟨isNamed_of_ofToken?, fun h => ?_⟩
  cases hf : ofToken? token with
  | none => exact absurd h (by simpa using List.find?_eq_none.1 hf c (mem_all c))
  | some d => rw [eq_of_isNamed (isNamed_of_ofToken? hf) h]

@[simp] theorem ofLabel?_label (c : Coding) : ofLabel? (Octets.ofString c.label) = some c := by
  cases c <;> decide

end Coding

end ContentCoding
