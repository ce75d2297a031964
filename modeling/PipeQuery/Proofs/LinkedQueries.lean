import PipeQuery.Proofs.LinkedRules
import PipeQuery.Proofs.SoundQuery

/-!
# Queries on two texts

A link that holds over the end of a stage is `Lasting`: pipes are matched on both sides, a stage
that cannot be read is passed over on both sides, and so is what stands behind a whole command. Then
a whole query is read in the same way (`Lasting.query`), stage by stage and level by level.
-/

namespace PipeQuery

open Grammar

namespace Link

/-- States stay related from stage to stage. -/
structure Lasting (E : Link) : Prop where
  /-- As many tokens are left. -/
  remaining {s s' : State} (h : E.States s s') : s.stream.remaining = s'.stream.remaining
  /-- A pipe is matched. -/
  bump {s s' : State} (h : E.States s s') (hk : s.kind = .pipe) : E.States s.bump s'.bump
  /-- A stage that could not be read is passed over. -/
  resync {s s' : State} (h : E.Stopped s s') {i i' : Nat} (hi : E.Position i i') :
    (E.values → E.seen.span (s.resync i).1 = E.seen'.span (s'.resync i').1) ∧
      E.States (s.resync i).2 (s'.resync i').2
  /-- What stands behind a command is passed over. -/
  skipExtraneous {s s' : State} (h : E.States s s') (hk : s.kind ≠ .pipe)
    (hb : s.atBoundary = false) : E.States s.skipExtraneous s'.skipExtraneous

namespace Lasting

variable {E : Link} {s s' : State} {α : Type}

/-- A command is the same on both sides, or the stage is an error on both. -/
theorem stage (hE : E.Lasting) {P : State → Prop} {recast : Recast → α → α} {r r' : Rule α}
    (hr : E.Rules P (E.Alike recast) r r') (hP : P s) (kind : Kind) (span : α → Span)
    (error : Span → α) (herror : ∀ σ span, recast σ (error span) = error (σ.span span))
    (h : E.States s s') :
    E.Alike recast (stage r kind span error s).1 (stage r' kind span error s').1 ∧
      E.States (stage r kind span error s).2 (stage r' kind span error s').2 := by
  have hout := hr s s' h hP
  rw [Grammar.stage, Grammar.stage]
  generalize r.run s = x at hout ⊢
  generalize r'.run s' = x' at hout ⊢
  cases hout with
  | answer hab ht => exact ⟨hab, E.record ht _ _ _⟩
  | stop ht =>
    obtain ⟨hspan, hs⟩ := hE.resync ht (E.position h)
    refine ⟨fun hv => ?_, hs⟩
    dsimp only
    rw [herror, herror, hspan hv]

/-- Stages with the tokens in front of them, which are the same up to their spans. -/
def StagesAlike (E : Link) :
    List (Token × ProcessingCommand) → List (Token × ProcessingCommand) → Prop :=
  E.Alike fun σ => List.map fun stage => (E.view stage.1, stage.2.recast E.view σ)

section

variable {inner : Expressions}

theorem stagesUpTo (hE : E.Lasting) (hi : Rules.Linked E inner) (n : Nat)
    {stages stages' : List (Token × ProcessingCommand)} (hst : StagesAlike E stages stages')
    (h : E.States s s') :
    StagesAlike E (stagesUpTo inner n stages s).1 (stagesUpTo inner n stages' s').1 ∧
      E.States (stagesUpTo inner n stages s).2 (stagesUpTo inner n stages' s').2 := by
  induction n generalizing stages stages' s s' with
  | zero => exact ⟨Alike.reverse hst, h⟩
  | succ n ih =>
    have hkind : s.kind = s'.kind := Link.kind h
    have hbound : s'.atBoundary = s.atBoundary := Link.atBoundary h
    by_cases hk : s.kind = .pipe
    · rw [stagesUpTo_pipe hk, stagesUpTo_pipe (hkind ▸ hk)]
      obtain ⟨hcommand, ht⟩ := hE.stage (P := Any) (Rules.processingCommand hi) trivial
        .processingCommand ProcessingCommand.span .error (fun _ _ => rfl) (hE.bump h hk)
      refine ih (Alike.cons (fun hv => ?_) hst) ht
      exact Prod.ext (E.current h) (hcommand hv)
    · have hk' : s'.kind ≠ .pipe := by rwa [← hkind]
      cases hb : s.atBoundary with
      | true =>
        rw [stagesUpTo_boundary hk hb, stagesUpTo_boundary hk' (hbound.trans hb)]
        exact ⟨Alike.reverse hst, h⟩
      | false =>
        rw [stagesUpTo_extraneous hk hb, stagesUpTo_extraneous hk' (hbound.trans hb)]
        exact ih hst (hE.skipExtraneous h hk hb)

theorem pipeline (hE : E.Lasting) (hi : Rules.Linked E inner) {query query' : Rule Query}
    (hq : E.Rules Any (E.Alike (Query.recast E.view)) query query') (h : E.States s s') :
    E.Alike (Query.recast E.view) (pipeline inner query s).1 (pipeline inner query' s').1 ∧
      E.States (pipeline inner query s).2 (pipeline inner query' s').2 := by
  have hsource := Rules.sourceCommand hi (P := Any) (Q := Any)
    (fun _ _ _ => trivial) (Rules.subquery hq) fun _ _ => trivial
  have hstage := hE.stage hsource trivial .sourceCommand SourceCommand.span .error
    (fun _ _ => by rw [SourceCommand.recast]) h
  obtain ⟨hfirst, ht⟩ := hstage
  rw [Grammar.pipeline, Grammar.pipeline, sourceStage, sourceStage]
  generalize Grammar.stage _ _ _ _ s = x at hfirst ht ⊢
  generalize Grammar.stage _ _ _ _ s' = x' at hfirst ht ⊢
  obtain ⟨first, t⟩ := x
  obtain ⟨first', t'⟩ := x'
  dsimp only
  obtain ⟨hstages, hu⟩ := hE.stagesUpTo hi t.stream.remaining alike_nil ht
  rw [← hE.remaining ht]
  refine ⟨fun hv => ?_, hu⟩
  rw [Query.recast_ofStages, Query.recast_ofStages, hfirst hv]
  exact congrArg (Query.ofStages _) (hstages hv)

end

/-- A query is read in the same way, however deep it nests. -/
theorem query (hE : E.Lasting) (levels : Nat) (h : E.States s s') :
    E.Alike (Query.recast E.view) (query levels s).1 (query levels s').1 ∧
      E.States (query levels s).2 (query levels s').2 := by
  induction levels generalizing s s' with
  | zero => exact hE.pipeline (Rules.expressions 0) Rules.tooDeep h
  | succ levels ih =>
    exact hE.pipeline (Rules.expressions (levels + 1))
      (fun _ _ h _ => .answer (ih h).1 (ih h).2) h

end Lasting

end Link

end PipeQuery
