import PipeQuery.Proofs.LinkedQueries

/-!
# Texts that are read in lockstep

The grammar reads the tokens that it sees, and nothing else of a text. So two texts that look the
same through a `Sight` of their tokens are read in lockstep from their beginnings to their ends: the
states are linked (`Sight.link`), the link lasts (`Sight.lasting_link`), and the same is reported.
Only the spans differ, and the texts that are quoted in a diagnostic, since both count in the blanks
and comments.
-/

namespace PipeQuery

open Grammar

/-! ## Diagnostics without quotations -/

/-- The cause without the text that it quotes. -/
def Diagnostic.Cause.unquoted : Diagnostic.Cause → Diagnostic.Cause
  | .noViableAlternative _ kinds => .noViableAlternative "" kinds
  | cause => cause

/-- A diagnostic about a token as it is seen, without the text that it quotes. -/
def Diagnostic.seenAs (view : Token → Token) (d : Diagnostic) : Diagnostic :=
  ⟨d.cause.unquoted, view d.token⟩

/-- What is seen of the tokens of two texts that are read in lockstep. -/
structure Sight where
  /-- What is seen of a token. -/
  view : Token → Token
  /-- Whether what is read is compared, and not only how. -/
  values : Prop
  /-- What is seen of a text. -/
  spell : String → String
  /-- Kinds are seen. -/
  kind_of_view {t t' : Token} (h : view t = view t') : t.kind = t'.kind
  /-- Texts are seen if what is read is compared. -/
  text_of_view {t t' : Token} (h : view t = view t') : values → spell t.text = spell t'.text
  /-- Texts are seen up to the case of their letters at least. -/
  toLower_of_spell {text text' : String} (h : spell text = spell text') :
    text.toLower = text'.toLower
  /-- Comparisons are told apart if what is read is compared. -/
  operator_of_view {t t' : Token} (h : view t = view t') :
    values → ComparisonOp.ofText? t.text = ComparisonOp.ofText? t'.text
  /-- It is seen whether a text is that of a comparison. -/
  comparison_of_view {t t' : Token} (h : view t = view t') (hk : t.kind = .comparison) :
    (ComparisonOp.ofText? t.text).isSome = (ComparisonOp.ofText? t'.text).isSome

/-- All of a token is seen. -/
def Sight.whole : Sight where
  view := id
  values := True
  spell := id
  kind_of_view h := congrArg Token.kind h
  text_of_view h _ := congrArg Token.text h
  toLower_of_spell h := congrArg String.toLower h
  operator_of_view h _ := congrArg (fun t : Token => ComparisonOp.ofText? t.text) h
  comparison_of_view h _ := congrArg (fun t : Token => (ComparisonOp.ofText? t.text).isSome) h

namespace Sight

variable (V : Sight)

/-- States in the middle of two texts that look the same from there on. -/
structure States (s s' : State) : Prop where
  /-- The first text is read from its beginning. -/
  valid : s.stream.Valid
  /-- The second text is read from its beginning. -/
  valid' : s'.stream.Valid
  /-- The tokens that are left look the same. -/
  ahead : s.stream.ahead.map V.view = s'.stream.ahead.map V.view
  /-- The texts are read in the same way. -/
  config : s'.config = s.config
  /-- The rules stand in the same place. -/
  scope : s'.scope = s.scope
  /-- Diagnostics are held back on both sides or on neither. -/
  recovering : s'.recovering = s.recovering
  /-- Both runs have been ended or neither. -/
  halted : s'.halted = s.halted
  /-- The same was reported, but for quotations. -/
  diagnostics : s.diagnostics.toList.map (Diagnostic.seenAs V.view)
    = s'.diagnostics.toList.map (Diagnostic.seenAs V.view)

namespace States

variable {V} {s s' : State}

theorem current (h : V.States s s') : V.view s.current = V.view s'.current := by
  obtain ⟨ts, hts⟩ := s.stream.exists_ahead
  obtain ⟨ts', hts'⟩ := s'.stream.exists_ahead
  have hahead := h.ahead
  rw [hts, hts', List.map_cons, List.map_cons] at hahead
  exact (List.cons.inj hahead).1

theorem kind (h : V.States s s') : s'.kind = s.kind := (V.kind_of_view h.current).symm

theorem remaining (h : V.States s s') : s.stream.remaining = s'.stream.remaining := by
  have hlen := congrArg List.length h.ahead
  simpa [TokenStream.length_ahead] using hlen

theorem atBoundary (h : V.States s s') : s'.atBoundary = s.atBoundary := by
  rw [State.atBoundary, State.atBoundary, h.scope, h.kind]

theorem atEnd (h : V.States s s') : s'.stream.atEnd = s.stream.atEnd := by
  have hlen := h.remaining
  simp only [TokenStream.remaining] at hlen
  rw [TokenStream.atEnd, TokenStream.atEnd, Bool.eq_iff_iff, List.isEmpty_iff, List.isEmpty_iff,
    ← List.length_eq_zero_iff, ← List.length_eq_zero_iff, hlen]

theorem skip (h : V.States s s') : V.States s.skip s'.skip := by
  refine ⟨h.valid.reads s.stream.reads_next, h.valid'.reads s'.stream.reads_next, ?_, h.config,
    h.scope, h.recovering, h.halted, h.diagnostics⟩
  have hahead := h.ahead
  change s.stream.next.ahead.map V.view = s'.stream.next.ahead.map V.view
  have hend := h.atEnd
  cases he : s.stream.atEnd with
  | true =>
    rwa [TokenStream.next_eq_self_of_atEnd he, TokenStream.next_eq_self_of_atEnd (hend.trans he)]
  | false =>
    have hend' := hend.trans he
    rw [TokenStream.atEnd, List.isEmpty_eq_false_iff] at he hend'
    rw [TokenStream.ahead_next_of_ne_nil he, TokenStream.ahead_next_of_ne_nil hend',
      List.map_cons, List.map_cons] at hahead
    exact (List.cons.inj hahead).2

theorem bump (h : V.States s s') : V.States s.bump s'.bump :=
  ⟨h.skip.valid, h.skip.valid', h.skip.ahead, h.config, h.scope, rfl, h.halted, h.diagnostics⟩

theorem kindAfter (h : V.States s s') : s.kindAfter = s'.kindAfter := by
  rw [State.kindAfter, State.kindAfter, TokenStream.lookahead_succ, TokenStream.lookahead_succ]
  exact h.skip.kind.symm

theorem note (h : V.States s s') (e e' : Event) : V.States (s.note e) (s'.note e') :=
  ⟨h.valid, h.valid', h.ahead, h.config, h.scope, h.recovering, h.halted, h.diagnostics⟩

theorem record (h : V.States s s') (kind : Kind) (span span' : Span) :
    V.States (s.record kind span) (s'.record kind span') :=
  ⟨h.valid, h.valid', h.ahead, h.config, h.scope, h.recovering, h.halted, h.diagnostics⟩

theorem inScope (h : V.States s s') (scope : Scope) :
    V.States { s with scope := scope } { s' with scope := scope } :=
  ⟨h.valid, h.valid', h.ahead, h.config, rfl, h.recovering, h.halted, h.diagnostics⟩

theorem report (h : V.States s s') {d d' : Diagnostic}
    (hd : d.seenAs V.view = d'.seenAs V.view) : V.States (s.report d) (s'.report d') := by
  rw [State.report, State.report, h.recovering]
  split
  · exact h.note _ _
  · refine ⟨h.valid, h.valid', h.ahead, h.config, h.scope, rfl, ?_, ?_⟩
    · simp [h.halted, h.config]
    · simp [h.diagnostics, hd]

theorem blame (h : V.States s s') {cause cause' : Diagnostic.Cause}
    (hc : cause.unquoted = cause'.unquoted) : V.States (s.blame cause) (s'.blame cause') :=
  h.report (by rw [Diagnostic.seenAs, Diagnostic.seenAs, hc, h.current])

theorem passOver (h : V.States s s') (n : Nat) : V.States (s.passOver n) (s'.passOver n) := by
  induction n generalizing s s' with
  | zero => exact h
  | succ n ih =>
    rw [State.passOver, State.passOver, h.atEnd, h.halted, h.atBoundary]
    split
    · exact h
    · exact ih h.skip

theorem resync (h : V.States s s') (start start' : Nat) :
    V.States (s.resync start).2 (s'.resync start').2 := by
  have hpass := h.passOver s.stream.remaining
  rw [State.resync, State.resync, ← h.remaining]
  exact (hpass.note _ _).record _ _ _

end States

/-- Texts that look the same are read in lockstep. -/
def link : Link where
  view := V.view
  values := V.values
  left _ := default
  right _ := default
  spell := V.spell
  behind := 0
  behind' := 0
  States := V.States
  Stopped := V.States
  Position _ _ := True
  kind_of_view := V.kind_of_view
  text_of_view := V.text_of_view
  toLower_of_spell := V.toLower_of_spell
  operator_of_view := V.operator_of_view
  comparison_of_view := V.comparison_of_view
  valid h := h.valid
  valid' h := h.valid'
  current h := h.current
  kindAfter h _ := h.kindAfter
  config h := h.config
  scope h := h.scope
  position _ := trivial
  span _ _ _ _ _ := rfl
  remaining h := ⟨Nat.zero_le _, Nat.zero_le _, .inl h.remaining⟩
  bump h _ := h.bump
  skip h _ := h.skip
  note h e e' := h.note e e'
  record h kind span span' := h.record kind span span'
  inScope h scope := h.inScope scope
  stoppedInScope h scope := h.inScope scope
  delete h _ _ _ := ((h.note _ _).blame rfl).skip
  insert h _ _ := (h.note _ _).blame rfl
  stop h _ := h.blame rfl
  noViable h _ _ _ _ := h.blame rfl
  unknown h _ := h.bump.report (by rw [Diagnostic.seenAs, Diagnostic.seenAs, h.current])

theorem lasting_link : V.link.Lasting where
  remaining h := States.remaining h
  bump h _ := States.bump h
  resync h _ _ _ := ⟨fun _ => rfl, States.resync h _ _⟩
  skipExtraneous {s s'} h _ _ := by
    have h : V.States s s' := h
    have hkinds : s'.boundaryKinds = s.boundaryKinds := by
      rw [State.boundaryKinds, State.boundaryKinds, h.scope]
    rw [State.skipExtraneous, State.skipExtraneous, hkinds]
    exact (h.blame rfl).resync _ _

variable {V}

theorem states_start {tokens tokens' : List Token}
    (h : (TokenStream.seen tokens).map V.view = (TokenStream.seen tokens').map V.view)
    (config : Config) : V.States (.start config tokens) (.start config tokens') :=
  ⟨TokenStream.valid_ofTokens tokens, TokenStream.valid_ofTokens tokens', h, rfl, rfl, rfl, rfl, rfl⟩

end Sight

end PipeQuery
