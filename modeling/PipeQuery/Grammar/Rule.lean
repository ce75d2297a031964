import PipeQuery.Grammar.State

/-!
# Rules

A `Rule` of the grammar reads on from a state. It answers a value, or nothing once it has given up;
in that case it has blamed a token. Rules are put together by `do` blocks, in which one that gives
up ends the block.

`expect` is where small mistakes are repaired. If the token after the next one is expected, the next
one is passed over. If the stage ends where a token is missing, the token is taken for granted. In
all other cases the rule gives up.
-/

namespace PipeQuery

/-- A token that is taken for granted in front of another one. -/
def Token.conjured (expected : KindSet) (token : Token) : Token :=
  let kind := expected.members.head?.getD .error
  ⟨kind, "<missing " ++ kind.wording ++ ">", token.start, token.start, token.line, token.column⟩

namespace Grammar

/-- A rule of the grammar. -/
def Rule (α : Type) : Type := State → Option α × State

namespace Rule

instance : Monad Rule where
  pure a := fun s => (some a, s)
  bind r f := fun s =>
    match r s with
    | (some a, t) => f a t
    | (none, t) => (none, t)

/-- Reads a rule from a state. -/
def run {α : Type} (r : Rule α) (s : State) : Option α × State := r s

variable {α β : Type}

@[simp] theorem run_pure (a : α) (s : State) : (pure a : Rule α).run s = (some a, s) := rfl

theorem run_bind (r : Rule α) (f : α → Rule β) (s : State) :
    (r >>= f).run s =
      match r.run s with
      | (some a, t) => (f a).run t
      | (none, t) => (none, t) := rfl

/-- A sequence of rules answers what its last rule answers, behind the first one. -/
theorem run_bind_eq_some {r : Rule α} {f : α → Rule β} {s t : State} {b : β} :
    (r >>= f).run s = (some b, t) ↔
      ∃ a u, r.run s = (some a, u) ∧ (f a).run u = (some b, t) := by
  rw [run_bind]
  constructor
  · intro h
    split at h
    · next a u hr => exact ⟨a, u, hr, h⟩
    · cases h
  · rintro ⟨a, u, hr, h⟩
    rw [hr]
    exact h

/-- What a function says of the state. -/
def ask (f : State → α) : Rule α := fun s => (some (f s), s)

/-- Changes the state. -/
def change (f : State → State) : Rule Unit := fun s => (some (), f s)

/-- Gives up. -/
def giveUp (f : State → State) : Rule α := fun s => (none, f s)

/-- Reads a rule in another scope. -/
def within (scope : Scope → Scope) (r : Rule α) : Rule α := fun s =>
  let (a, t) := r.run { s with scope := scope s.scope }
  (a, { t with scope := s.scope })

@[simp] theorem run_ask (f : State → α) (s : State) : (ask f).run s = (some (f s), s) := rfl

@[simp] theorem run_change (f : State → State) (s : State) : (change f).run s = (some (), f s) := rfl

@[simp] theorem run_giveUp (f : State → State) (s : State) :
    (giveUp f : Rule α).run s = (none, f s) := rfl

/-- A rule whose value depends on the state behind it. -/
theorem run_bind_ask_eq_some {r : Rule α} {g : α → State → β} {s t : State} {b : β} :
    (r >>= fun a => ask (g a)).run s = (some b, t) ↔
      ∃ a, r.run s = (some a, t) ∧ b = g a t := by
  rw [run_bind_eq_some]
  constructor
  · rintro ⟨a, u, hr, h⟩
    obtain ⟨hb, rfl⟩ := Prod.mk.inj h
    exact ⟨a, hr, (Option.some.inj hb).symm⟩
  · rintro ⟨a, hr, rfl⟩
    exact ⟨a, t, hr, rfl⟩

/-- A rule whose value is put into another one. -/
theorem run_bind_pure_eq_some {r : Rule α} {g : α → β} {s t : State} {b : β} :
    (r >>= fun a => pure (g a)).run s = (some b, t) ↔ ∃ a, r.run s = (some a, t) ∧ b = g a :=
  run_bind_ask_eq_some

/-- Whatever a rule does in another scope, the scope is as it was afterwards. -/
@[simp] theorem scope_run_within (scope : Scope → Scope) (r : Rule α) (s : State) :
    ((within scope r).run s).2.scope = s.scope := rfl

end Rule

open Rule

/-! ## Tokens -/

/-- Matches the next token. -/
def take : Rule Token := fun s => (some s.current, s.bump)

@[simp] theorem run_take (s : State) : take.run s = (some s.current, s.bump) := rfl

/-- Whether the next token is of a kind. -/
def at? (kind : Kind) : Rule Bool := ask (·.kind == kind)

/-- Whether the next token is of a kind in a set. -/
def atAny? (kinds : KindSet) : Rule Bool := ask (kinds.contains ·.kind)

/-- Whether the token after the next one is of a kind. -/
def before? (kind : Kind) : Rule Bool := ask (·.kindAfter == kind)

/-- Matches the next token if it is of a kind. -/
def accept (kind : Kind) : Rule (Option Token) := do
  if ← at? kind then return some (← take) else return none

/-- Matches a token of an expected kind, and repairs a small mistake. -/
def expectAny (expected : KindSet) : Rule Token := fun s =>
  if s.kind ∈ expected then take.run s
  else if s.config.recover && !s.atBoundary && expected.contains s.kindAfter then
    take.run (((s.note (.deleting s.current)).blame (.extraneous expected)).skip)
  else if s.config.recover && s.atBoundary then
    (some (Token.conjured expected s.current),
      (s.note (.inserting expected s.current)).blame (.missing expected))
  else (none, s.blame (.mismatched expected))

/-- Matches a token of a kind, and repairs a small mistake. -/
def expect (kind : Kind) : Rule Token := expectAny {kind}

/-- Gives up, as none of the expected kinds stands at the end of what was read since position
`start`. -/
def noViable {α : Type} (start : Nat) (expected : KindSet) : Rule α :=
  giveUp fun s =>
    s.blame (.noViableAlternative (s.stream.textBetween start s.position) expected)

/-- Gives up, as expressions and queries nest too deep. -/
def tooDeep {α : Type} : Rule α := giveUp fun s => s.blame (.nestingTooDeep s.config.maxDepth)

/-- Reads a rule whose value takes the span of its tokens. -/
def spanned {α : Type} (r : Rule (Span → α)) : Rule α := do
  let start ← ask (·.position)
  let f ← r
  ask fun s => f (s.spanFrom start)

theorem run_spanned_eq_some {α : Type} {r : Rule (Span → α)} {s t : State} {a : α} :
    (spanned r).run s = (some a, t) ↔
      ∃ f, r.run s = (some f, t) ∧ a = f (t.spanFrom s.position) :=
  run_bind_ask_eq_some

/-! ## Repetition -/

/-- Reads a rule at most `n` times, until it answers that there is no more; the values in front of
it are given, last one first. -/
def upTo {α : Type} (r : Rule (Option α)) : Nat → List α → Rule (List α)
  | 0, values => pure values.reverse
  | n + 1, values => fun s =>
    match r.run s with
    | (some (some a), t) => upTo r n (a :: values) t
    | (some none, t) => (some values.reverse, t)
    | (none, t) => (none, t)

/-- Reads a rule until it answers that there is no more. Each value takes a token at least. -/
def many {α : Type} (r : Rule (Option α)) : Rule (List α) := fun s =>
  upTo r s.stream.remaining [] s

/-- Reads a rule behind a token of a kind, if there is one. -/
def behind {α : Type} (kind : Kind) (r : Rule α) : Rule (Option α) := do
  match ← accept kind with
  | some _ => return some (← r)
  | none => return none

/-- Reads a rule once and then behind each token of a kind. -/
def separated {α : Type} (kind : Kind) (r : Rule α) : Rule (List α) := do
  let first ← r
  return first :: (← many (behind kind r))

/-- Reads a rule in parentheses, and then closes them. -/
def parenthesised {α : Type} (r : Rule α) : Rule α := do
  let _ ← expect .leftParen
  let a ← r
  let _ ← expect .rightParen
  return a

/-- Reads a list of arguments, which may be empty. -/
def arguments {α : Type} (r : Rule α) : Rule (List α) := parenthesised do
  if ← at? .rightParen then return [] else separated .comma r

end Grammar

end PipeQuery
