import PipeQuery.Proofs.CallStacks
import PipeQuery.Proofs.Regions

/-!
# Reading comes to an end

Every rule is a function of its state, so it answers; but the depth of the rules and the turns of
their loops are bounded by numbers. None of these bounds is ever what ends a run.

* The rules call each other down to the depth that they count, whatever more is allowed, and on the
  way from a rule to a call of the same rule a token is read (`Descends`). This holds although a
  missing token is taken for granted without a token being read, although brackets are, and although
  a `NOT` that was passed over on trial may be given back.
* Each turn of the loop of a query reads a token (`iteration`), and so does each value of a rule that
  is repeated (`Repeated`). So the loops end where nothing is left to do (`LoopsEnd`).

## Main statement

* `reading_ends`
-/

namespace PipeQuery

namespace Grammar

open State Rule

variable {α : Type} {s : State}

/-! ## The loop of a query -/

/-- One turn of the loop of a query: a stage behind a pipe is read, or what stands behind a command
is passed over. At the end of the query there is none. -/
def iteration (inner : Expressions) (s : State) :
    Option (List (Token × ProcessingCommand) × State) :=
  if s.kind = .pipe then
    let (command, t) := processingStage inner s.bump
    some ([(s.current, command)], t)
  else if s.atBoundary then none
  else some ([], s.skipExtraneous)

/-- The stages are read turn by turn. -/
theorem stagesUpTo_succ (inner : Expressions) (n : Nat) (stages : List (Token × ProcessingCommand))
    (s : State) :
    stagesUpTo inner (n + 1) stages s =
      match iteration inner s with
      | some (new, t) => stagesUpTo inner n (new ++ stages) t
      | none => (stages.reverse, s) := by
  rw [stagesUpTo, iteration]
  split
  · rfl
  · split <;> rfl

/-- Where nothing is left there is no turn. -/
theorem iteration_eq_none {inner : Expressions} (hs : s.stream.Valid)
    (hr : s.stream.remaining ≤ 0) : iteration inner s = none := by
  have hk : s.kind = .endOfInput :=
    hs.kind_eq_endOfInput_iff.2 (List.length_eq_zero_iff.1 (Nat.le_zero.1 hr))
  rw [iteration, if_neg (by simp [hk]), if_pos (atBoundary_iff.2 (.inr (.inl hk)))]

section

variable {inner : Expressions} [inner.Lawful true]

/-- Each turn reads a token. -/
theorem remaining_iteration {new : List (Token × ProcessingCommand)} {t : State} (hs : s.Regular)
    (h : iteration inner s = some (new, t)) :
    t.Regular ∧ t.stream.remaining < s.stream.remaining := by
  unfold iteration at h
  split at h
  · next hk =>
    have hbump : s.Steps true s.bump := .single (.bump s)
    have hstage := steps_processingStage inner s.bump
    have hlt := remaining_bump_lt hs.valid (by simp [hk])
    have hle := remaining_le_of_steps hstage
    obtain rfl : (processingStage inner s.bump).2 = t := by
      simpa using congrArg (Option.map Prod.snd) h
    exact ⟨hstage.regular (hbump.regular hs), by omega⟩
  · split at h
    · cases h
    · next hb =>
      obtain rfl : s.skipExtraneous = t := by simpa using congrArg (Option.map Prod.snd) h
      exact ⟨(steps_skipExtraneous s).regular hs,
        remaining_skipExtraneous hs (Bool.eq_false_iff.2 hb)⟩

/-- The loop goes on as long as there is a turn, however many turns are allowed. -/
theorem stagesUpTo_eq_of_le {n m : Nat} (hs : s.Regular) (hn : s.stream.remaining ≤ n)
    (hm : s.stream.remaining ≤ m) (stages : List (Token × ProcessingCommand)) :
    stagesUpTo inner n stages s = stagesUpTo inner m stages s := by
  induction n generalizing m s stages with
  | zero =>
    cases m with
    | zero => rfl
    | succ m => rw [stagesUpTo_succ, iteration_eq_none hs.valid hn, stagesUpTo]
  | succ n ih =>
    cases m with
    | zero => rw [stagesUpTo_succ, iteration_eq_none hs.valid hm, stagesUpTo]
    | succ m =>
      rw [stagesUpTo_succ, stagesUpTo_succ]
      cases hturn : iteration inner s with
      | none => rfl
      | some turn =>
        obtain ⟨new, t⟩ := turn
        obtain ⟨ht, hlt⟩ := remaining_iteration hs hturn
        exact ih ht (by omega) (by omega) _

end

/-- Behind the stages there is no further turn. -/
theorem iteration_stagesUpTo (levels : Nat) (hs : s.Regular)
    (stages : List (Token × ProcessingCommand)) :
    iteration (expressions levels) (stagesUpTo (expressions levels) s.stream.remaining stages s).2
      = none := by
  obtain ⟨hk, hb⟩ := atBoundary_stagesUpTo (expressions levels) s.stream.remaining stages hs
    (Nat.le_refl _)
  rw [iteration, if_neg hk, if_pos hb]

/-! ## Rules that are repeated -/

/-- The rules that are repeated until they answer that there is no more. -/
inductive Repeated (inner : Expressions) : {α : Type} → Rule (Option α) → Prop
  /-- What stands behind a token of a kind. -/
  | behind {α : Type} {kind : Kind} (hk : kind ≠ .endOfInput) {r : Rule α} (hr : Lawful true r) :
    Repeated inner (behind kind r)
  /-- An infix operator and its right operand. -/
  | operatorLink (power : Nat) : Repeated inner (operatorLink inner power)
  /-- A connective and its right operand. -/
  | connectiveLink (power : Nat) : Repeated inner (connectiveLink inner power)

namespace Repeated

variable {inner : Expressions} {r : Rule (Option α)}

theorem lawful [inner.Lawful true] (h : Repeated inner r) : Lawful true r := by
  cases h with
  | behind _ hr => infer_instance
  | operatorLink power => infer_instance
  | connectiveLink power => infer_instance

/-- A value takes a token at least. -/
theorem progress [inner.Lawful true] (h : Repeated inner r) : Link.Rules.Progress r := by
  cases h with
  | behind hk hr => exact Link.Rules.progress_behind hk
  | operatorLink power => exact Link.Rules.progress_operatorLink power
  | connectiveLink power => exact Link.Rules.progress_connectiveLink power

/-- Where nothing is left there is no more. -/
theorem run_of_remaining (h : Repeated inner r) (hs : s.stream.Valid)
    (hr : s.stream.remaining ≤ 0) : r.run s = (some none, s) := by
  have hk : s.kind = .endOfInput :=
    hs.kind_eq_endOfInput_iff.2 (List.length_eq_zero_iff.1 (Nat.le_zero.1 hr))
  cases h with
  | behind hne _ =>
    unfold Grammar.behind accept at?
    simp [run_bind, hk, hne.symm]
  | operatorLink power =>
    unfold Grammar.operatorLink linkOf
    simp [run_bind, hk, ArithmeticOp.ofKind?]
  | connectiveLink power =>
    unfold Grammar.connectiveLink linkOf
    simp [run_bind, hk, Connective.ofKind?]

/-- The rule is repeated as long as it has a value, however often it may be. -/
theorem run_upTo_eq_of_le [inner.Lawful true] (h : Repeated inner r) {n m : Nat}
    (hs : s.stream.Valid) (hn : s.stream.remaining ≤ n) (hm : s.stream.remaining ≤ m)
    (values : List α) :
    (upTo r n values).run s = (upTo r m values).run s := by
  induction n generalizing m s values with
  | zero =>
    cases m with
    | zero => rfl
    | succ m =>
      rw [upTo_succ, run_bind, h.run_of_remaining hs hn]
      rfl
  | succ n ih =>
    cases m with
    | zero =>
      rw [upTo_succ, run_bind, h.run_of_remaining hs hm]
      rfl
    | succ m =>
      rw [upTo_succ, upTo_succ, run_bind, run_bind]
      have hsteps : s.Steps true (r.run s).2 := h.lawful.steps s
      cases hrun : r.run s with
      | mk o t =>
        rw [hrun] at hsteps
        rcases o with _ | _ | a
        · rfl
        · rfl
        · have hsteps : s.Steps true t := hsteps
          obtain ⟨ps, hps⟩ := hsteps.reads
          have hlt := h.progress s t a hs hrun
          exact ih (hs.reads hps) (by omega) (by omega) _

end Repeated

/-! ## Tokens that are passed over -/

/-- Tokens are passed over as long as there is one to pass over, however many may be. -/
theorem passOver_eq_of_le {n m : Nat} (hn : s.stream.remaining ≤ n) (hm : s.stream.remaining ≤ m) :
    s.passOver n = s.passOver m := by
  have hend (hr : s.stream.remaining ≤ 0) : s.stream.atEnd = true :=
    List.isEmpty_iff_length_eq_zero.2 (Nat.le_zero.1 hr)
  induction n generalizing m s with
  | zero =>
    cases m with
    | zero => rfl
    | succ m => simp [passOver, hend hn]
  | succ n ih =>
    cases m with
    | zero => simp [passOver, hend hm]
    | succ m =>
      have hnext : s.skip.stream.remaining = s.stream.remaining - 1 :=
        TokenStream.remaining_next s.stream
      rw [passOver, passOver]
      split
      · rfl
      · exact ih (by omega) (by omega) fun hr =>
          List.isEmpty_iff_length_eq_zero.2 (Nat.le_zero.1 hr)

/-! ## Runs -/

/-- On the way from a rule to a call of the same rule a token is read; the calls come last one
first. -/
def Descends (stack : List Frame) : Prop :=
  stack.Pairwise fun inner outer => inner.rule = outer.rule → inner.remaining < outer.remaining

instance (stack : List Frame) : Decidable (Descends stack) := by
  unfold Descends; infer_instance

/-- A watched rule does what a rule does, and all the stacks of its calls descend. -/
structure Watched.Ends (x : Watched α) (w : Watch) (r : Rule α) : Prop where
  /-- The answer. -/
  answer : (x w).1 = (r.run w.state).1
  /-- The state behind it. -/
  state : (x w).2.state = (r.run w.state).2
  /-- The stacks of the calls. -/
  descends : ∀ stack ∈ (x w).2.calls, Descends stack

theorem CallOrder.Follows.ends {levels : Nat} {f : Frame} {x : Watched α} {r : Rule α} {w : Watch}
    (h : falling.Follows levels f w.state x r) (hs : w.state.stream.Valid)
    (hlevels : w.levels = levels) (hstack : w.stack = []) (hcalls : w.calls = []) :
    x.Ends w r := by
  obtain ⟨calls, hrun, hall⟩ := h hs w rfl hlevels
  refine ⟨by rw [hrun], by rw [hrun], fun stack hmem => ?_⟩
  rw [hrun, hcalls, List.append_nil] at hmem
  obtain ⟨fs, rfl, hpairwise, -⟩ := hall stack hmem
  rw [hstack, List.append_nil]
  refine hpairwise.imp fun hbelow hrule => ?_
  rcases hbelow with hlt | ⟨-, hlt⟩
  · exact hlt
  · rw [hrule] at hlt
    exact absurd hlt (Nat.lt_irrefl _)

/-- The loops of the grammar end where nothing is left to do. Their bounds do not end them: any
greater bound comes to the same. -/
structure Expressions.LoopsEnd (inner : Expressions) (s : State) : Prop where
  /-- Each turn of the loop of a query reads a token. -/
  turn {new : List (Token × ProcessingCommand)} {t : State}
    (h : iteration inner s = some (new, t)) : t.stream.remaining < s.stream.remaining
  /-- The loop of a query ends where there is no further turn. -/
  last (stages : List (Token × ProcessingCommand)) :
    iteration inner (stagesUpTo inner s.stream.remaining stages s).2 = none
  /-- The bound of the loop of a query. -/
  stages {n : Nat} (hn : s.stream.remaining ≤ n) (stages : List (Token × ProcessingCommand)) :
    stagesUpTo inner n stages s = stagesUpTo inner s.stream.remaining stages s
  /-- Each value of a rule that is repeated takes a token. -/
  value {α : Type} {r : Rule (Option α)} (hr : Repeated inner r) {a : α} {t : State}
    (h : r.run s = (some (some a), t)) : t.stream.remaining < s.stream.remaining
  /-- The bound of a rule that is repeated. -/
  values {α : Type} {r : Rule (Option α)} (hr : Repeated inner r) {n : Nat}
    (hn : s.stream.remaining ≤ n) : (upTo r n []).run s = (many r).run s
  /-- The bound of what is passed over. -/
  passed {n : Nat} (hn : s.stream.remaining ≤ n) : s.passOver n = s.passOver s.stream.remaining

theorem loopsEnd (levels : Nat) (hs : s.Regular) : (expressions levels).LoopsEnd s where
  turn h := (remaining_iteration hs h).2
  last := iteration_stagesUpTo levels hs
  stages hn := stagesUpTo_eq_of_le hs hn (Nat.le_refl _)
  value hr _ _ h := hr.progress _ _ _ hs.valid h
  values hr _ hn := hr.run_upTo_eq_of_le hs.valid hn (Nat.le_refl _) []
  passed hn := passOver_eq_of_le hn (Nat.le_refl _)

end Grammar

open Grammar

/-- Whatever the tokens are and however they are to be read, reading them comes to an end. No bound
ends it: a statement or an expression comes out the same whatever depth more is allowed than the one
that the rules count to; on the way from a rule to a call of the same rule a token is read; and so
does each turn of a loop, in any state that a run may come to. -/
theorem reading_ends (tokens : List Token) (config : Config) :
    (∀ n : Nat, config.maxDepth ≤ n →
      (Watched.statement n).Ends (.start config tokens)
          (.total (Grammar.statement config.maxDepth)) ∧
        (Watched.wholeExpression n).Ends (.start config tokens)
          (wholeExpression config.maxDepth)) ∧
      ∀ (levels : Nat) (s : State), s.Regular → (expressions levels).LoopsEnd s := by
  have hs : (Watch.start config tokens).state.stream.Valid := TokenStream.valid_ofTokens tokens
  have hbelow (rule : RuleName) {n : Nat} : (Frame.mk rule n).Below ⟨rule, n + 1⟩ :=
    .inl (Nat.lt_succ_self n)
  refine ⟨fun n hn => ⟨?_, ?_⟩, fun levels s hs => loopsEnd levels hs⟩
  · exact (CallOrder.follows_statement .falling hn _ _ (hbelow .query)).ends hs rfl rfl rfl
  · exact (CallOrder.follows_wholeExpression .falling hn _ _ (hbelow .boolean)).ends hs rfl rfl rfl

/-- The calls that are being answered when a query is read in a bracket that is taken for granted,
behind an `EXPLAIN` at the end of the input. -/
def explainStack : List Frame :=
  [⟨.sourceCommand, 0⟩, ⟨.sourceStage, 0⟩, ⟨.query, 0⟩, ⟨.subquery, 0⟩, ⟨.sourceCommand, 1⟩,
    ⟨.sourceStage, 1⟩, ⟨.query, 1⟩]

/-- The `EXPLAIN` is the token that is read on the way from the one query to the other. -/
theorem reading_ends_explain :
    explainStack ∈
        (Watched.statement 2 (.start { maxDepth := 1 } (explainRow.take 1))).2.calls ∧
      Descends explainStack ∧ (expressions 0).LoopsEnd (.start {} explainRow) := by
  have hstack : explainStack ∈
      (Watched.statement 2 (.start { maxDepth := 1 } (explainRow.take 1))).2.calls := by
    decide +kernel
  have h := reading_ends (explainRow.take 1) { maxDepth := 1 }
  exact ⟨hstack, (h.1 2 (by decide)).1.descends explainStack hstack,
    h.2 0 _ (State.regular_start {} explainRow)⟩

end PipeQuery
