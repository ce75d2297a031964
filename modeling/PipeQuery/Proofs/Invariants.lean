import PipeQuery.Proofs.Lockstep

/-!
# Invariants of runs

A property of states that each step of a run keeps holds at the end of the run (`Invariant.query`).
A rule that gives up may leave a weaker property behind; it has to be mended when the rest of the
stage is passed over. The property is a link of the run with itself, so the lemmas about links give
it for all the rules of the grammar.
-/

namespace PipeQuery

namespace Grammar

/-- Each step keeps `going`, or `stopped` where it ends a rule. -/
structure Invariant (going stopped : State → Prop) : Prop where
  /-- The tokens are read from their beginning. -/
  valid {s : State} (h : going s) : s.stream.Valid
  /-- A token is matched. -/
  bump {s : State} (h : going s) (hr : s.stream.rest ≠ []) : going s.bump
  /-- A token is passed over. -/
  skip {s : State} (h : going s) (hr : s.stream.rest ≠ []) : going s.skip
  /-- An event is taken down. -/
  note {s : State} (h : going s) (e : Event) : going (s.note e)
  /-- A region is laid down. -/
  record {s : State} (h : going s) (kind : Kind) (span : Span) : going (s.record kind span)
  /-- The rules go to another place. -/
  inScope {s : State} (h : going s) (scope : Scope) : going { s with scope := scope }
  /-- The rules go back to another place. -/
  stoppedInScope {s : State} (h : stopped s) (scope : Scope) : stopped { s with scope := scope }
  /-- A token is blamed and passed over in front of one that is expected. -/
  delete {s : State} (h : going s) (hr : s.stream.rest ≠ []) (expected : KindSet) :
    going ((s.note (.deleting s.current)).blame (.extraneous expected)).skip
  /-- The end of a stage is blamed, and the expected token is taken for granted. -/
  insert {s : State} (h : going s) (hb : s.atBoundary = true) (expected : KindSet) :
    going ((s.note (.inserting expected s.current)).blame (.missing expected))
  /-- The next token is blamed, and the rule gives up. -/
  stop {s : State} (h : going s) (cause : Diagnostic.Cause) : stopped (s.blame cause)
  /-- A comparison is matched, and then blamed for being none of the known ones. -/
  unknown {s : State} (h : going s) (hk : s.kind = .comparison) :
    stopped (s.bump.report ⟨.mismatched {.comparison}, s.current⟩)
  /-- A stage that could not be read is passed over. -/
  resync {s : State} (h : stopped s) (i : Nat) : going (s.resync i).2
  /-- What stands behind a command is passed over. -/
  skipExtraneous {s : State} (h : going s) (hk : s.kind ≠ .pipe) (hb : s.atBoundary = false) :
    going s.skipExtraneous

theorem rest_ne_nil {s : State} (hs : s.stream.Valid) (hk : s.kind ≠ .endOfInput) :
    s.stream.rest ≠ [] := fun hr => hk (hs.kind_eq_endOfInput_iff.2 hr)

namespace Invariant

variable {going stopped : State → Prop}

/-- An invariant of a run, along with all that the run shares with itself. -/
def link (I : Invariant going stopped) : Link where
  view := id
  values := False
  left _ := default
  right _ := default
  spell := id
  behind := 0
  behind' := 0
  States s s' := Sight.whole.States s s' ∧ going s
  Stopped s s' := Sight.whole.States s s' ∧ stopped s
  Position _ _ := True
  kind_of_view := Sight.whole.kind_of_view
  text_of_view _ hv := hv.elim
  toLower_of_spell h := congrArg String.toLower h
  operator_of_view _ hv := hv.elim
  comparison_of_view := Sight.whole.comparison_of_view
  valid h := h.1.valid
  valid' h := h.1.valid'
  current h := h.1.current
  kindAfter h _ := h.1.kindAfter
  config h := h.1.config
  scope h := h.1.scope
  position _ := trivial
  span _ _ _ _ _ := rfl
  remaining h := ⟨Nat.zero_le _, Nat.zero_le _, .inl h.1.remaining⟩
  bump h hk := ⟨h.1.bump, I.bump h.2 (rest_ne_nil h.1.valid hk.ne_end)⟩
  skip h hk := ⟨h.1.skip, I.skip h.2 (rest_ne_nil h.1.valid hk.ne_end)⟩
  note h e e' := ⟨h.1.note e e', I.note h.2 e⟩
  record h kind span span' := ⟨h.1.record kind span span', I.record h.2 kind span⟩
  inScope h scope := ⟨h.1.inScope scope, I.inScope h.2 scope⟩
  stoppedInScope h scope := ⟨h.1.inScope scope, I.stoppedInScope h.2 scope⟩
  delete h hb _ hk := ⟨Sight.whole.link.delete h.1 hb hk,
    I.delete h.2 (rest_ne_nil h.1.valid (Link.inside_of_not_atBoundary hb).ne_end) _⟩
  insert h hb expected := ⟨Sight.whole.link.insert h.1 hb expected, I.insert h.2 hb expected⟩
  stop h cause := ⟨Sight.whole.link.stop h.1 cause, I.stop h.2 cause⟩
  noViable h _ _ _ expected := ⟨Sight.whole.link.noViable h.1 trivial expected, I.stop h.2 _⟩
  unknown h hk := ⟨Sight.whole.link.unknown h.1 hk, I.unknown h.2 hk⟩

theorem lasting_link (I : Invariant going stopped) : I.link.Lasting where
  remaining h := h.1.remaining
  bump {s s'} h hk := by
    have hr : s.stream.rest ≠ [] := rest_ne_nil h.1.valid (by simp [hk])
    exact ⟨h.1.bump, I.bump h.2 hr⟩
  resync h i i' _ := ⟨fun _ => rfl, h.1.resync i i', I.resync h.2 i⟩
  skipExtraneous h hk hb :=
    ⟨Sight.whole.lasting_link.skipExtraneous h.1 hk hb, I.skipExtraneous h.2 hk hb⟩

/-- What every step keeps is kept by a whole query. -/
theorem query (I : Invariant going stopped) (levels : Nat) {s : State} (h : going s) :
    going (query levels s).2 := by
  have hs := I.valid h
  have hself : I.link.States s s := ⟨⟨hs, hs, rfl, rfl, rfl, rfl, rfl, rfl⟩, h⟩
  exact (I.lasting_link.query levels hself).2.2

end Invariant

end Grammar

end PipeQuery
