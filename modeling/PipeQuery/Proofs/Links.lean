import PipeQuery.Proofs.Accepts
import PipeQuery.Proofs.Recast

/-!
# Rules on two texts

A `Link` relates the states of a run on one text to the states of a run on another text. It says
what is compared of the tokens, and what is needed of the states so that a rule of the grammar does
the same on both sides: the next tokens are alike, and so are the states behind them.

A link need not go on for the whole text. Its states may lose one another where a stage ends, so a
token is matched only where it is known not to be a pipe or the end of the input (`Inside`). Nor need
the states be as closely related behind a rule that gives up (`Link.Stopped`): nothing but the end of
the stage follows there. A mistake is blamed in one of five ways, and a link says of each what
becomes of the states.

`Link.Rules` relates two rules that answer related values from related states. There is a lemma for
each building block of the grammar. The two texts may be one and the same: then a link is an
invariant of a single run.
-/

namespace PipeQuery

open Grammar

/-- No stage ends with such a token. -/
structure Inside (k : Kind) : Prop where
  /-- It is no pipe. -/
  ne_pipe : k ≠ .pipe
  /-- It is not the end of the input. -/
  ne_end : k ≠ .endOfInput

/-- Two runs that do the same. -/
structure Link where
  /-- What is compared of a token. -/
  view : Token → Token
  /-- Whether the values of the rules are compared. -/
  values : Prop
  /-- What is compared of a span of the first text. -/
  left : Span → Span
  /-- What is compared of a span of the second text. -/
  right : Span → Span
  /-- What is compared of a text. -/
  spell : String → String
  /-- The number of tokens of the first text that are never read. -/
  behind : Nat
  /-- The number of tokens of the second text that are never read. -/
  behind' : Nat
  /-- The states that are related. -/
  States : State → State → Prop
  /-- The states that are related behind rules that have given up. -/
  Stopped : State → State → Prop
  /-- The positions that are related. -/
  Position : Nat → Nat → Prop
  /-- Kinds are compared. -/
  kind_of_view {t t' : Token} (h : view t = view t') : t.kind = t'.kind
  /-- Texts are compared if values are. -/
  text_of_view {t t' : Token} (h : view t = view t') : values → spell t.text = spell t'.text
  /-- Texts are compared up to the case of their letters at least. -/
  toLower_of_spell {text text' : String} (h : spell text = spell text') :
    text.toLower = text'.toLower
  /-- Comparisons are told apart if values are compared. -/
  operator_of_view {t t' : Token} (h : view t = view t') :
    values → ComparisonOp.ofText? t.text = ComparisonOp.ofText? t'.text
  /-- It is compared whether a text is that of a comparison. -/
  comparison_of_view {t t' : Token} (h : view t = view t') (hk : t.kind = .comparison) :
    (ComparisonOp.ofText? t.text).isSome = (ComparisonOp.ofText? t'.text).isSome
  /-- The first text is read from its beginning. -/
  valid {s s' : State} (h : States s s') : s.stream.Valid
  /-- The second text is read from its beginning. -/
  valid' {s s' : State} (h : States s s') : s'.stream.Valid
  /-- The next token is the same. -/
  current {s s' : State} (h : States s s') : view s.current = view s'.current
  /-- The token behind the next one is the same. -/
  kindAfter {s s' : State} (h : States s s') (hk : Inside s.kind) : s.kindAfter = s'.kindAfter
  /-- The texts are read in the same way. -/
  config {s s' : State} (h : States s s') : s'.config = s.config
  /-- The rules stand in the same place. -/
  scope {s s' : State} (h : States s s') : s'.scope = s.scope
  /-- The place of the next token is the same. -/
  position {s s' : State} (h : States s s') : Position s.position s'.position
  /-- What was read since one place has the same span. -/
  span {s s' : State} (h : States s s') {i i' : Nat} (hi : Position i i') :
    values → left (s.spanFrom i) = right (s'.spanFrom i')
  /-- As many tokens are left, or there are tokens that are never read. -/
  remaining {s s' : State} (h : States s s') :
    behind ≤ s.stream.remaining ∧ behind' ≤ s'.stream.remaining ∧
      (s.stream.remaining = s'.stream.remaining ∨ 0 < behind ∧ 0 < behind')
  /-- A token is matched. -/
  bump {s s' : State} (h : States s s') (hk : Inside s.kind) : States s.bump s'.bump
  /-- A token is passed over. -/
  skip {s s' : State} (h : States s s') (hk : Inside s.kind) : States s.skip s'.skip
  /-- Events do not matter. -/
  note {s s' : State} (h : States s s') (e e' : Event) : States (s.note e) (s'.note e')
  /-- Regions do not matter. -/
  record {s s' : State} (h : States s s') (kind : Kind) (span span' : Span) :
    States (s.record kind span) (s'.record kind span')
  /-- The rules go to another place. -/
  inScope {s s' : State} (h : States s s') (scope : Scope) :
    States { s with scope := scope } { s' with scope := scope }
  /-- The rules go back to another place. -/
  stoppedInScope {s s' : State} (h : Stopped s s') (scope : Scope) :
    Stopped { s with scope := scope } { s' with scope := scope }
  /-- A token is blamed and passed over in front of one that is expected. -/
  delete {s s' : State} (h : States s s') (hb : s.atBoundary = false) {expected : KindSet}
    (hk : s.kindAfter ∈ expected) :
    States ((s.note (.deleting s.current)).blame (.extraneous expected)).skip
      ((s'.note (.deleting s'.current)).blame (.extraneous expected)).skip
  /-- The end of a stage is blamed, and the expected token is taken for granted. -/
  insert {s s' : State} (h : States s s') (hb : s.atBoundary = true) (expected : KindSet) :
    States ((s.note (.inserting expected s.current)).blame (.missing expected))
      ((s'.note (.inserting expected s'.current)).blame (.missing expected))
  /-- The next token is blamed, and the rule gives up. -/
  stop {s s' : State} (h : States s s') (cause : Diagnostic.Cause) :
    Stopped (s.blame cause) (s'.blame cause)
  /-- No alternative begins with what was read since one place. -/
  noViable {s s' : State} (h : States s s') {i i' : Nat} (hi : Position i i')
    (expected : KindSet) :
    Stopped (s.blame (.noViableAlternative (s.stream.textBetween i s.position) expected))
      (s'.blame (.noViableAlternative (s'.stream.textBetween i' s'.position) expected))
  /-- A comparison is matched, and then blamed for being none of the known ones. -/
  unknown {s s' : State} (h : States s s') (hk : s.kind = .comparison) :
    Stopped (s.bump.report ⟨.mismatched {.comparison}, s.current⟩)
      (s'.bump.report ⟨.mismatched {.comparison}, s'.current⟩)

namespace Link

variable {E : Link}

theorem kind {s s' : State} (h : E.States s s') : s.kind = s'.kind := E.kind_of_view (E.current h)

theorem atBoundary {s s' : State} (h : E.States s s') : s'.atBoundary = s.atBoundary := by
  rw [State.atBoundary, State.atBoundary, E.scope h, E.kind h]

theorem inside_of_mem {kinds : KindSet} (hpipe : Kind.pipe ∉ kinds) (hend : Kind.endOfInput ∉ kinds)
    {k : Kind} (hk : k ∈ kinds) : Inside k :=
  ⟨fun h => hpipe (h ▸ hk), fun h => hend (h ▸ hk)⟩

theorem inside_of_not_atBoundary {s : State} (h : s.atBoundary = false) : Inside s.kind := by
  constructor <;> intro hk <;> simp [State.atBoundary, hk] at h

/-! ## Rules -/

/-- Rules answer what `V` relates, or both give up, and the states behind them are related. -/
inductive Outcome (E : Link) {α β : Type} (V : α → β → Prop) :
    Option α × State → Option β × State → Prop
  | answer {a : α} {b : β} {t t' : State} (value : V a b) (states : E.States t t') :
    Outcome E V (some a, t) (some b, t')
  | stop {t t' : State} (stopped : E.Stopped t t') : Outcome E V (none, t) (none, t')

/-- Where the state is as `P` says, the rules have the same outcome. -/
def Rules (E : Link) {α β : Type} (P : State → Prop) (V : α → β → Prop) (r : Rule α)
    (r' : Rule β) : Prop :=
  ∀ s s' : State, E.States s s' → P s → E.Outcome V (r.run s) (r'.run s')

/-- Any state. -/
abbrev Any (_ : State) : Prop := True

/-- What is compared of a value of the first text. -/
def seen (E : Link) : Recast := ⟨E.left, E.spell⟩

/-- What is compared of a value of the second text. -/
def seen' (E : Link) : Recast := ⟨E.right, E.spell⟩

theorem span_seen {s s' : State} (h : E.States s s') {i i' : Nat} (hi : E.Position i i')
    (hv : E.values) : E.seen.span (s.spanFrom i) = E.seen'.span (s'.spanFrom i') := E.span h hi hv

/-- The same value, as far as spans and texts are compared. -/
def Alike (E : Link) {α : Type} (recast : Recast → α → α) (a a' : α) : Prop :=
  E.values → recast E.seen a = recast E.seen' a'

/-- The same token as it is compared. -/
def SameView (E : Link) (t t' : Token) : Prop := E.view t = E.view t'

/-- The same word, be it a token of the text or one that is taken for granted. -/
structure SameWord (E : Link) (t t' : Token) : Prop where
  /-- The kinds are the same. -/
  kind : t.kind = t'.kind
  /-- The texts are the same, as they are compared. -/
  text : E.values → E.seen.text t.text = E.seen'.text t'.text

/-- The same thing, whichever span it takes. -/
def Spanned (E : Link) {α β : Type} (V : α → β → Prop) (f : Span → α) (f' : Span → β) : Prop :=
  ∀ span span', (E.values → E.seen.span span = E.seen'.span span') → V (f span) (f' span')

theorem SameView.sameWord {t t' : Token} (h : E.SameView t t') : E.SameWord t t' :=
  ⟨E.kind_of_view h, E.text_of_view h⟩

theorem SameWord.toLower_text {t t' : Token} (h : E.SameWord t t') (hv : E.values) :
    t.text.toLower = t'.text.toLower := E.toLower_of_spell (h.text hv)

section

variable {α : Type} {recast : Recast → α → α}

theorem alike_nil : E.Alike (fun σ => List.map (recast σ)) [] [] := fun _ => rfl

theorem Alike.map {as as' : List α} (has : E.Alike (fun σ => List.map (recast σ)) as as')
    (hv : E.values) : as.map (recast E.seen) = as'.map (recast E.seen') := has hv

theorem Alike.cons {a a' : α} {as as' : List α} (ha : E.Alike recast a a')
    (has : E.Alike (fun σ => List.map (recast σ)) as as') :
    E.Alike (fun σ => List.map (recast σ)) (a :: as) (a' :: as') :=
  fun hv => congrArg₂ List.cons (ha hv) (has hv)

theorem Alike.reverse {as as' : List α} (has : E.Alike (fun σ => List.map (recast σ)) as as') :
    E.Alike (fun σ => List.map (recast σ)) as.reverse as'.reverse := by
  intro hv
  have hmap := congrArg List.reverse (has hv)
  simpa only [List.map_reverse] using hmap

theorem map_of_alike {o o' : Option α} (h : Option.Rel (E.Alike recast) o o') (hv : E.values) :
    o.map (recast E.seen) = o'.map (recast E.seen') := by
  cases h with
  | none => rfl
  | some ha => exact congrArg some (ha hv)

end

namespace Rules

variable {α β γ δ : Type} {P Q : State → Prop} {V : α → β → Prop} {W : γ → δ → Prop}

theorem mono {r : Rule α} {r' : Rule β} (h : E.Rules P V r r') (hP : ∀ s, Q s → P s) :
    E.Rules Q V r r' := fun s s' hs hk => h s s' hs (hP _ hk)

theorem pure {a : α} {b : β} (h : V a b) : E.Rules P V (Pure.pure a) (Pure.pure b) :=
  fun _ _ hs _ => .answer h hs

/-- The second rule starts where the first one leaves off. -/
theorem bind_of {r : Rule α} {r' : Rule β} {f : α → Rule γ} {f' : β → Rule δ}
    (h : E.Rules P V r r') (hr : ∀ s, P s → Q (r.run s).2)
    (hf : ∀ a b, V a b → E.Rules Q W (f a) (f' b)) :
    E.Rules P W (r >>= f) (r' >>= f') := by
  intro s s' hs hk
  have hout := h s s' hs hk
  have hq := hr s hk
  rw [Rule.run_bind, Rule.run_bind]
  generalize r.run s = x at hout hq ⊢
  generalize r'.run s' = x' at hout ⊢
  cases hout with
  | stop ht => exact .stop ht
  | answer hab ht => exact hf _ _ hab _ _ ht hq

theorem bind {r : Rule α} {r' : Rule β} {f : α → Rule γ} {f' : β → Rule δ}
    (h : E.Rules P V r r') (hf : ∀ a b, V a b → E.Rules Any W (f a) (f' b)) :
    E.Rules P W (r >>= f) (r' >>= f') := h.bind_of (fun _ _ => trivial) hf

theorem map {r : Rule α} {r' : Rule β} {f : α → γ} {f' : β → δ} (h : E.Rules P V r r')
    (hf : ∀ a b, V a b → W (f a) (f' b)) : E.Rules P W (f <$> r) (f' <$> r') :=
  h.bind fun a b hab => pure (hf a b hab)

/-- A question leaves everything as it is. -/
theorem ask_bind {g : State → α} {g' : State → β} {f : α → Rule γ} {f' : β → Rule δ}
    (hg : ∀ s s', E.States s s' → P s → V (g s) (g' s'))
    (hf : ∀ a b, V a b → E.Rules P W (f a) (f' b)) :
    E.Rules P W (Rule.ask g >>= f) (Rule.ask g' >>= f') :=
  fun s s' hs hk => hf _ _ (hg s s' hs hk) s s' hs hk

theorem ask {g : State → α} {g' : State → β} (hg : ∀ s s', E.States s s' → P s → V (g s) (g' s')) :
    E.Rules P V (Rule.ask g) (Rule.ask g') := fun s s' hs hk => .answer (hg s s' hs hk) hs

/-- A question with the same answer on both sides, which is known from then on. -/
theorem ask_same {g : State → α} {f : α → Rule γ} {f' : α → Rule δ}
    (hg : ∀ s s', E.States s s' → P s → g s = g s')
    (hf : ∀ a, E.Rules (fun s => P s ∧ g s = a) W (f a) (f' a)) :
    E.Rules P W (Rule.ask g >>= f) (Rule.ask g >>= f') := by
  intro s s' hs hk
  have hrun := hf (g s) s s' hs ⟨hk, rfl⟩
  rw [Rule.run_bind, Rule.run_bind, Rule.run_ask, Rule.run_ask, ← hg s s' hs hk]
  exact hrun

theorem askKind {f : Kind → Rule γ} {f' : Kind → Rule δ}
    (hf : ∀ k, E.Rules (fun s => P s ∧ s.kind = k) W (f k) (f' k)) :
    E.Rules P W (Rule.ask (·.kind) >>= f) (Rule.ask (·.kind) >>= f') :=
  ask_same (fun _ _ hs _ => Link.kind hs) hf

theorem askScope {f : Scope → Rule γ} {f' : Scope → Rule δ}
    (hf : ∀ scope, E.Rules (fun s => P s ∧ s.scope = scope) W (f scope) (f' scope)) :
    E.Rules P W (Rule.ask (·.scope) >>= f) (Rule.ask (·.scope) >>= f') :=
  ask_same (fun _ _ hs _ => (E.scope hs).symm) hf

theorem askPosition {f : Nat → Rule γ} {f' : Nat → Rule δ}
    (hf : ∀ i i', E.Position i i' → E.Rules P W (f i) (f' i')) :
    E.Rules P W (Rule.ask (·.position) >>= f) (Rule.ask (·.position) >>= f') :=
  ask_bind (fun _ _ hs _ => E.position hs) hf

theorem at? {kind : Kind} {f : Bool → Rule γ} {f' : Bool → Rule δ}
    (hf : ∀ b, E.Rules (fun s => P s ∧ (s.kind == kind) = b) W (f b) (f' b)) :
    E.Rules P W (Grammar.at? kind >>= f) (Grammar.at? kind >>= f') :=
  ask_same (fun _ _ hs _ => by rw [Link.kind hs]) hf

theorem atAny? {kinds : KindSet} {f : Bool → Rule γ} {f' : Bool → Rule δ}
    (hf : ∀ b, E.Rules (fun s => P s ∧ kinds.contains s.kind = b) W (f b) (f' b)) :
    E.Rules P W (Grammar.atAny? kinds >>= f) (Grammar.atAny? kinds >>= f') :=
  ask_same (fun _ _ hs _ => by rw [Link.kind hs]) hf

/-- The token behind the next one is the same as long as the stage has not ended. -/
theorem before? {kind : Kind} (hP : ∀ s, P s → Inside s.kind) {f : Bool → Rule γ}
    {f' : Bool → Rule δ}
    (hf : ∀ b, E.Rules (fun s => P s ∧ (s.kindAfter == kind) = b) W (f b) (f' b)) :
    E.Rules P W (Grammar.before? kind >>= f) (Grammar.before? kind >>= f') :=
  ask_same (fun s _ hs hk => by rw [E.kindAfter hs (hP s hk)]) hf

theorem take (hP : ∀ s, P s → Inside s.kind) : E.Rules P E.SameView Grammar.take Grammar.take :=
  fun s _ hs hk => .answer (E.current hs) (E.bump hs (hP s hk))

theorem change_bind {g g' : State → State} {f : Unit → Rule γ} {f' : Unit → Rule δ}
    (hg : ∀ s s', E.States s s' → P s → E.States (g s) (g' s') ∧ Q (g s))
    (hf : E.Rules Q W (f ()) (f' ())) : E.Rules P W (Rule.change g >>= f) (Rule.change g' >>= f') :=
  fun s s' hs hk => hf _ _ (hg s s' hs hk).1 (hg s s' hs hk).2

theorem giveUp {g g' : State → State}
    (hg : ∀ s s', E.States s s' → P s → E.Stopped (g s) (g' s')) :
    E.Rules P V (Rule.giveUp g) (Rule.giveUp g') :=
  fun s s' hs hk => .stop (hg s s' hs hk)

theorem noViable {i i' : Nat} {expected : KindSet} (hi : E.Position i i') :
    E.Rules P V (Grammar.noViable i expected) (Grammar.noViable i' expected) :=
  giveUp fun _ _ hs _ => E.noViable hs hi expected

theorem tooDeep : E.Rules P V (Grammar.tooDeep : Rule α) (Grammar.tooDeep : Rule β) := by
  refine giveUp fun s s' hs _ => ?_
  rw [E.config hs]
  exact E.stop hs _

theorem within {scope : Scope → Scope} {r : Rule α} {r' : Rule β} (h : E.Rules Any V r r') :
    E.Rules P V (Rule.within scope r) (Rule.within scope r') := by
  intro s s' hs _
  have hout := h _ _ (E.inScope hs (scope s.scope)) trivial
  rw [Rule.run_within, Rule.run_within, E.scope hs]
  generalize r.run { s with scope := scope s.scope } = x at hout ⊢
  generalize r'.run { s' with scope := scope s.scope } = x' at hout ⊢
  cases hout with
  | stop ht => exact .stop (E.stoppedInScope ht s.scope)
  | answer hab ht => exact .answer hab (E.inScope ht s.scope)

theorem spanned {r : Rule (Span → α)} {r' : Rule (Span → β)} (h : E.Rules P (E.Spanned V) r r') :
    E.Rules P V (Grammar.spanned r) (Grammar.spanned r') :=
  askPosition fun _ _ hi => h.bind fun _ _ hf => ask fun _ _ hs _ => hf _ _ (E.span_seen hs hi)

theorem run_expectAny (expected : KindSet) (s : State) :
    (Grammar.expectAny expected).run s =
      if s.kind ∈ expected then Grammar.take.run s
      else if s.config.recover && !s.atBoundary && expected.contains s.kindAfter then
        Grammar.take.run (((s.note (.deleting s.current)).blame (.extraneous expected)).skip)
      else if s.config.recover && s.atBoundary then
        (some (Token.conjured expected s.current),
          (s.note (.inserting expected s.current)).blame (.missing expected))
      else (none, s.blame (.mismatched expected)) := rfl

/-- A token that is expected is the same word in both texts, be it there or taken for granted. -/
theorem expectAny {expected : KindSet} (hpipe : Kind.pipe ∉ expected)
    (hend : Kind.endOfInput ∉ expected) :
    E.Rules P E.SameWord (Grammar.expectAny expected) (Grammar.expectAny expected) := by
  intro s s' hs _
  have htake (u u' : State) (hu : E.States u u') (hk : u.kind ∈ expected) :
      E.Outcome E.SameWord (Grammar.take.run u) (Grammar.take.run u') :=
    .answer (SameView.sameWord (E.current hu)) (E.bump hu (inside_of_mem hpipe hend hk))
  rw [run_expectAny, run_expectAny, ← Link.kind hs, E.config hs, Link.atBoundary hs]
  split
  · next hk => exact htake s s' hs hk
  · cases hb : s.atBoundary with
    | true =>
      simp only [Bool.not_true, Bool.and_false, Bool.false_and, Bool.and_true, Bool.false_eq_true,
        if_false]
      split
      · exact .answer ⟨rfl, fun _ => rfl⟩ (E.insert hs hb expected)
      · exact .stop (E.stop hs _)
    | false =>
      rw [← E.kindAfter hs (inside_of_not_atBoundary hb)]
      simp only [Bool.and_false, Bool.false_eq_true, if_false]
      split
      · next hk =>
        -- the token that is not expected is passed over, and the one behind it is matched
        have hafter : s.kindAfter ∈ expected := (Bool.and_eq_true_iff.1 hk).2
        refine htake _ _ (E.delete hs hb hafter) ?_
        have hstream : ((s.note (.deleting s.current)).blame (.extraneous expected)).skip.kind
            = s.kindAfter := by
          rw [State.kindAfter, TokenStream.lookahead_succ, State.kind, State.skip, State.blame,
            State.stream_report]
          rfl
        rwa [hstream]
      · exact .stop (E.stop hs _)

theorem expect {kind : Kind} (hk : Inside kind) :
    E.Rules P E.SameWord (Grammar.expect kind) (Grammar.expect kind) :=
  expectAny (by simpa using hk.ne_pipe.symm) (by simpa using hk.ne_end.symm)

theorem accept {kind : Kind} (hk : Inside kind) :
    E.Rules P (Option.Rel E.SameView) (Grammar.accept kind) (Grammar.accept kind) := by
  unfold Grammar.accept
  refine at? fun b => ?_
  cases b with
  | false => exact pure .none
  | true =>
    have hin (s : State) (h : P s ∧ (s.kind == kind) = true) : Inside s.kind := by
      have heq : s.kind = kind := by simpa using h.2
      exact heq ▸ hk
    exact (take hin).bind fun _ _ ht => pure (.some ht)

theorem behind {kind : Kind} (hk : Inside kind) {r : Rule α} {r' : Rule β}
    (h : E.Rules Any V r r') :
    E.Rules P (Option.Rel V) (Grammar.behind kind r) (Grammar.behind kind r') := by
  unfold Grammar.behind
  refine (accept hk).bind fun token token' htoken => ?_
  cases htoken with
  | none => exact pure .none
  | some _ => exact h.bind fun _ _ ha => pure (.some ha)

/-! ### Repetition -/

/-- A value of a rule that is repeated takes a token at least, whatever is reported. -/
def Progress (r : Rule (Option α)) : Prop :=
  ∀ (s t : State) (a : α), s.stream.Valid → r.run s = (some (some a), t) →
    t.stream.remaining < s.stream.remaining

/-- A rule makes progress if it gets a value from lawful rules behind a token of its own. -/
theorem progress_of_bump {r : Rule (Option α)}
    (h : ∀ (s t : State) (a : α), r.run s = (some (some a), t) →
      s.kind ≠ .endOfInput ∧ s.bump.Steps true t) : Progress r := by
  intro s t a hs hrun
  obtain ⟨hk, hsteps⟩ := h s t a hrun
  have hrest : s.stream.rest ≠ [] := fun hr => hk (hs.kind_eq_endOfInput_iff.2 hr)
  have hpos : 0 < s.stream.remaining := List.length_pos_iff.2 hrest
  have hbump : s.bump.stream.remaining = s.stream.remaining - 1 := TokenStream.remaining_next _
  obtain ⟨ps, hps⟩ := hsteps.reads
  have hle := hps.remaining
  omega

theorem progress_behind {kind : Kind} (hk : kind ≠ .endOfInput) {r : Rule α}
    [Grammar.Rule.Lawful true r] : Progress (Grammar.behind kind r) := by
  refine progress_of_bump fun s t a hrun => ?_
  unfold Grammar.behind Grammar.accept Grammar.at? at hrun
  simp only [Rule.run_bind, Rule.run_ask] at hrun
  by_cases hkind : s.kind = kind
  · simp only [hkind, beq_self_eq_true, if_true, Rule.run_bind, Grammar.run_take, Rule.run_pure]
      at hrun
    have hsteps : s.bump.Steps true (r.run s.bump).2 := Grammar.Rule.Lawful.steps s.bump
    refine ⟨hkind ▸ hk, ?_⟩
    generalize r.run s.bump = x at hrun hsteps
    obtain ⟨_ | b, u⟩ := x
    · simp at hrun
    · simp only [Prod.mk.injEq] at hrun
      exact hrun.2 ▸ hsteps
  · simp [hkind] at hrun

/-- Enough to read all the values that there are: as much on both sides, or more than is ever
read. -/
def Enough (E : Link) (s s' : State) (n n' : Nat) : Prop :=
  n = n' ∨ s.stream.remaining < n + E.behind ∧ s'.stream.remaining < n' + E.behind'

theorem upTo {recast : Recast → α → α} {r r' : Rule (Option α)}
    (h : E.Rules Any (Option.Rel (E.Alike recast)) r r') (hr : Progress r) (hr' : Progress r')
    (n n' : Nat) {values values' : List α}
    (hv : E.Alike (fun σ => List.map (recast σ)) values values')
    (s s' : State) (hs : E.States s s') (hn : Enough E s s' n n') :
    E.Outcome (E.Alike fun σ => List.map (recast σ)) ((Grammar.upTo r n values).run s)
      ((Grammar.upTo r' n' values').run s') := by
  have hbehind := E.remaining hs
  induction n generalizing n' values values' s s' with
  | zero =>
    obtain rfl : n' = 0 := by
      rcases hn with hn | hn <;> omega
    exact .answer hv.reverse hs
  | succ n ih =>
    obtain ⟨n', rfl⟩ : ∃ k, n' = k + 1 := by
      apply Nat.exists_eq_succ_of_ne_zero
      rcases hn with hn | hn <;> omega
    have hout := h s s' hs trivial
    have hprogress := hr s
    have hprogress' := hr' s'
    rw [upTo_succ, upTo_succ, Rule.run_bind, Rule.run_bind]
    generalize r.run s = x at hout hprogress ⊢
    generalize r'.run s' = x' at hout hprogress' ⊢
    cases hout with
    | stop ht => exact .stop ht
    | @answer _ _ t t' ha ht =>
      cases ha with
      | none => exact .answer hv.reverse ht
      | @some a a' ha =>
        have hlt := hprogress t a (E.valid hs) rfl
        have hlt' := hprogress' t' a' (E.valid' hs) rfl
        have hn : Enough E t t' n n' := by
          unfold Enough at hn ⊢
          omega
        exact ih n' (ha.cons hv) t t' ht hn (E.remaining ht)

theorem many {recast : Recast → α → α} {r r' : Rule (Option α)}
    (h : E.Rules Any (Option.Rel (E.Alike recast)) r r') (hr : Progress r) (hr' : Progress r') :
    E.Rules P (E.Alike fun σ => List.map (recast σ)) (Grammar.many r) (Grammar.many r') := by
  intro s s' hs _
  have hn : Enough E s s' s.stream.remaining s'.stream.remaining := by
    have := E.remaining hs
    unfold Enough
    omega
  exact upTo h hr hr' _ _ alike_nil s s' hs hn

theorem separated {kind : Kind} (hk : Inside kind) {recast : Recast → α → α} {r : Rule α}
    [Grammar.Rule.Lawful true r] (h : E.Rules P (E.Alike recast) r r)
    (hany : E.Rules Any (E.Alike recast) r r) :
    E.Rules P (E.Alike fun σ => List.map (recast σ)) (Grammar.separated kind r)
      (Grammar.separated kind r) := by
  have hprogress := progress_behind (r := r) hk.ne_end
  unfold Grammar.separated
  exact h.bind fun a a' ha => (many (behind hk hany) hprogress hprogress).bind fun as as' has =>
    pure (ha.cons has)

theorem parenthesised {r : Rule α} {r' : Rule β} (h : E.Rules Any V r r') :
    E.Rules P V (Grammar.parenthesised r) (Grammar.parenthesised r') := by
  unfold Grammar.parenthesised
  exact (expect ⟨by decide, by decide⟩).bind fun _ _ _ => h.bind fun a b hab =>
    (expect ⟨by decide, by decide⟩).bind fun _ _ _ => pure hab

theorem arguments {recast : Recast → α → α} {r : Rule α} [Grammar.Rule.Lawful true r]
    (h : E.Rules Any (E.Alike recast) r r) :
    E.Rules P (E.Alike fun σ => List.map (recast σ)) (Grammar.arguments r) (Grammar.arguments r) := by
  unfold Grammar.arguments
  refine parenthesised (at? fun b => ?_)
  cases b with
  | true => exact pure alike_nil
  | false => exact separated ⟨by decide, by decide⟩ (h.mono fun _ _ => trivial) h

end Rules

end Link

end PipeQuery
