import TextDomain.Call
import TextDomain.Decimal
import TextDomain.Log.Event

/-!
# Renaming a text domain

A `Renaming` looks for the text domain `old` and puts `new` in its place. `Renaming.findings` lists
the calls whose last argument is a literal of the old domain, each call on its own.
`Renaming.reportTo` reports the findings to a `Host`, which keeps the tokens, decides whether a
finding is to be fixed, and takes the replacement if so.
-/

namespace TextDomain

/-- Which text domain is to give way to which. -/
structure Renaming where
  old : Bytes
  new : Bytes
  deriving DecidableEq, Inhabited, Repr

/-- A literal that has to change: its position, the function called, and the new literal. -/
structure Finding where
  position : Nat
  function : Bytes
  replacement : Bytes
  deriving DecidableEq, Inhabited, Repr

/-- The trace left by a finding. -/
def Finding.event (f : Finding) : Event :=
  .of .trace "rules" (ascii "Domain literal at token " ++ decimal f.position ++ ascii " in " ++
    f.function ++ ascii "() matches")

/-- What takes the findings of a renaming: `report` and `replace` name a token by its position, and
`report` answers whether the finding is to be fixed. -/
class Host (σ : Type) where
  tokens : σ → List Lexeme
  report : (position : Nat) → (message code : Bytes) → σ → Bool × σ
  replace : (position : Nat) → (text : Bytes) → σ → σ

namespace Renaming

/-- Without a new domain there is nothing to do. -/
def isEffective (r : Renaming) : Bool :=
  !r.new.isEmpty

/-- The new domain as a literal. -/
def replacement (r : Renaming) : Bytes :=
  Byte.singleQuote :: r.new ++ [Byte.singleQuote]

/-- What is said about a call of `function`. -/
def message (r : Renaming) (function : Bytes) : Bytes :=
  ascii "Text domain \"" ++ r.old ++ ascii "\" in function " ++ function ++
    ascii "() should be replaced with \"" ++ r.new ++ ascii "\"."

/-- The name of the rule, first part of every issue code. -/
def ruleName : Bytes :=
  ascii "TextDomain"

/-- The second part of the code of an issue. -/
def issueCode : Bytes :=
  ascii "ReplaceDomain"

/-- The finding in the call of `function`, given the tokens after its name and the position of the
first of them. -/
def findingIn (r : Renaming) (function : Bytes) (position : Nat) (tokens : List Lexeme) :
    Option Finding :=
  match domainArgument position tokens with
  | none => none
  | some argument =>
    if unquote argument.literal = r.old then
      some ⟨argument.position, function, r.replacement⟩
    else none

/-- The findings among `tokens`, the first of which stands at `position`. -/
def findingsFrom (r : Renaming) (position : Nat) : List Lexeme → List Finding
  | [] => []
  | t :: ts =>
    if t.namesDomainFunction then
      (r.findingIn t.text (position + 1) ts).toList ++ findingsFrom r (position + 1) ts
    else findingsFrom r (position + 1) ts

/-- All findings in a stream of tokens, call by call. -/
def findings (r : Renaming) (tokens : List Lexeme) : List Finding :=
  if r.isEffective then r.findingsFrom 0 tokens else []

variable {σ : Type} [Host σ]

/-- Takes one finding to the host. -/
def reportOne (r : Renaming) (host : σ) (f : Finding) : σ :=
  match Host.report f.position (r.message f.function) issueCode host with
  | (true, host) => Host.replace f.position f.replacement host
  | (false, host) => host

/-- Takes all findings to the host. They are collected before the first one is reported. -/
def reportTo (r : Renaming) (host : σ) : σ :=
  (r.findings (Host.tokens host)).foldl r.reportOne host

end Renaming

end TextDomain
