import PipeQuery.Proofs.NestingLimit
import PipeQuery.Proofs.LinkedRules
import PipeQuery.Proofs.WatchedRules

/-!
# Call stacks

What is watched does not change what is read: a watched rule answers as the rule does, and leaves
behind the depth and the stack that it was called with (`CallOrder.Follows`). And the calls that it
puts on the stack stand in an order: each of them has fewer tokens left than the one that it is called
from, or as many and a lower rank (`CallOrder.falling`).

Both are closed under the combinators, so each rule gets them from the rules that it calls.
-/

namespace PipeQuery

namespace Grammar

open State Rule

variable {α β : Type}

/-! ## Orders of calls -/

namespace Frame

/-- There are fewer tokens left, or the rank of the rule is lower. -/
def Below (g f : Frame) : Prop :=
  g.remaining < f.remaining ∨ g.remaining = f.remaining ∧ g.rule.rank < f.rule.rank

theorem Below.trans {e f g : Frame} (h : g.Below f) (h' : f.Below e) : g.Below e := by
  unfold Below at *
  omega

theorem below_of_lt {n m : Nat} (h : n < m) (rule rule' : RuleName) :
    (Frame.mk rule n).Below ⟨rule', m⟩ := .inl h

theorem below_of_rank {n m : Nat} (h : n ≤ m) {rule rule' : RuleName}
    (hr : rule.rank < rule'.rank) : (Frame.mk rule n).Below ⟨rule', m⟩ :=
  (Nat.lt_or_eq_of_le h).imp id (⟨·, hr⟩)

end Frame

theorem lawful_of_spanned {r : Rule (Span → α)} [h : Lawful true (spanned r)] :
    Lawful true r where
  steps s := run_spanned_snd r s ▸ h.steps s
  blames s hs hr := by
    have hnone : ((spanned r).run s).1 = none := by
      unfold spanned
      rw [run_bind, run_ask]
      change ((r >>= _).run s).1 = none
      rw [run_bind]
      generalize r.run s = y at hr
      obtain ⟨_ | g, t⟩ := y
      · rfl
      · cases hr
    exact run_spanned_snd r s ▸ h.blames s hs hnone

/-- How calls may stand on each other: a call that falls below another one may always stand on
it. -/
structure CallOrder where
  /-- A call may stand on another one. -/
  Under : Frame → Frame → Prop
  /-- What may stand on a call may stand on what is under it. -/
  trans {e f g : Frame} (h : Under g f) (h' : Under f e) : Under g e
  /-- A call with fewer tokens left, or of a lower rank. -/
  of_below {f g : Frame} (h : g.Below f) : Under g f

namespace CallOrder

/-- Each call falls below those that it stands on. -/
def falling : CallOrder := ⟨Frame.Below, Frame.Below.trans, id⟩

/-- Any call may stand on any other one. -/
def any : CallOrder := ⟨fun _ _ => True, fun _ _ => trivial, fun _ => trivial⟩

variable (O : CallOrder)

/-- A stack that stands on another one: the new calls are in order, and all of them may stand on
`f`. -/
def Tops (f : Frame) (base stack : List Frame) : Prop :=
  ∃ fs, stack = fs ++ base ∧ fs.Pairwise O.Under ∧ ∀ g ∈ fs, O.Under g f

/-- From a state with a number of levels left, a watched rule does what a rule does, and gives back
the depth and the stack. Its calls may stand on `f`. -/
def Follows (levels : Nat) (f : Frame) (s : State) (x : Watched α) (r : Rule α) : Prop :=
  s.stream.Valid → ∀ w : Watch, w.state = s → w.levels = levels →
    ∃ calls, x w = ((r.run s).1, { w with state := (r.run s).2, calls := calls ++ w.calls }) ∧
      ∀ stack ∈ calls, O.Tops f w.stack stack

/-- A watched rule with a name: wherever it may be called, it does what a rule does. -/
def Serves (rule : RuleName) (levels : Nat) (x : Watched α) (r : Rule α) : Prop :=
  ∀ (s : State) (f : Frame), O.Under ⟨rule, s.stream.remaining⟩ f → O.Follows levels f s x r

theorem ne_endOfInput_of_beq {k kind : Kind} (h : (k == kind) = true) (hk : kind ≠ .endOfInput) :
    k ≠ .endOfInput := fun he => hk ((beq_iff_eq.1 h).symm.trans he)

variable {O} {levels : Nat} {f : Frame} {s : State} {x : Watched α} {r : Rule α} {rule : RuleName}

namespace Follows

/-- The tokens that are left are known to be read from their beginning. -/
theorem of_valid (h : s.stream.Valid → O.Follows levels f s x r) : O.Follows levels f s x r :=
  fun hs => h hs hs

theorem lift (r : Rule α) : O.Follows levels f s (.lift r) r := by
  rintro - w rfl -
  exact ⟨[], rfl, by simp⟩

theorem pure (a : α) : O.Follows levels f s (pure a) (pure a) := by
  rintro - w rfl -
  exact ⟨[], rfl, by simp⟩

/-- If any call may stand on any other one, it does not matter where a rule is called. -/
theorem of_any (h : any.Follows levels f s x r) {f' : Frame} : any.Follows levels f' s x r := by
  intro hs w hw hlevels
  obtain ⟨calls, hrun, hcalls⟩ := h hs w hw hlevels
  exact ⟨calls, hrun, fun stack hstack =>
    let ⟨fs, heq, hfs, _⟩ := hcalls stack hstack
    ⟨fs, heq, hfs, fun _ _ => trivial⟩⟩

/-- A rule behind another one, which leaves no more tokens than there were. -/
theorem bind [hl : Lawful true r] {g : α → Watched β} {h : α → Rule β}
    (hx : O.Follows levels f s x r)
    (hg : ∀ a t, r.run s = (some a, t) → t.stream.remaining ≤ s.stream.remaining →
      O.Follows levels f t (g a) (h a)) :
    O.Follows levels f s (x >>= g) (r >>= h) := by
  intro hs w hw hlevels
  obtain ⟨calls, hrun, hcalls⟩ := hx hs w hw hlevels
  have hsteps : s.Steps true (r.run s).2 := hl.steps s
  rw [run_bind]
  cases hr : r.run s with
  | mk o t =>
    rw [hr] at hsteps hrun
    cases o with
    | none => exact ⟨calls, Watched.bind_of_none hrun, hcalls⟩
    | some a =>
      obtain ⟨ps, hps⟩ := hsteps.reads
      have hlevels' : t.config.maxDepth - w.depth = levels := by
        rw [hsteps.config, ← hw]
        exact hlevels
      obtain ⟨calls', hrun', hcalls'⟩ := hg a t hr (remaining_le_of_steps hsteps) (hs.reads hps)
        { w with state := t, calls := calls ++ w.calls } rfl hlevels'
      refine ⟨calls' ++ calls, ?_, fun stack hstack => ?_⟩
      · rw [Watched.bind_of_some hrun, List.append_assoc]
        exact hrun'
      · exact (List.mem_append.1 hstack).elim (hcalls' stack) (hcalls stack)

/-- What stands behind a rule that calls no others. -/
theorem after [Lawful true r] {g : α → Watched β} {h : α → Rule β}
    (hg : ∀ a t, t.stream.remaining ≤ s.stream.remaining → O.Follows levels f t (g a) (h a)) :
    O.Follows levels f s (.lift r >>= g) (r >>= h) :=
  (lift r).bind fun a t _ => hg a t

/-- What stands behind a look at the state. -/
theorem ask {φ : State → α} {g : α → Watched β} {h : α → Rule β}
    (hg : O.Follows levels f s (g (φ s)) (h (φ s))) :
    O.Follows levels f s (.lift (ask φ) >>= g) (Rule.ask φ >>= h) := by
  refine (lift _).bind fun a t hrun _ => ?_
  obtain ⟨rfl, rfl⟩ : φ s = a ∧ s = t := by simpa using hrun
  exact hg

/-- What stands behind a rule that matches one token. -/
theorem bump [Lawful true r] {g : α → Watched β} {h : α → Rule β} (hk : s.kind ≠ .endOfInput)
    (hr : (r.run s).2 = s.bump)
    (hg : ∀ a t, t.stream.remaining < s.stream.remaining → O.Follows levels f t (g a) (h a)) :
    O.Follows levels f s (.lift r >>= g) (r >>= h) := by
  refine .of_valid fun hs => (lift r).bind fun a t hrun _ => hg a t ?_
  rw [hrun] at hr
  rw [show t = s.bump from hr]
  exact remaining_bump_lt hs hk

/-- A rule whose value takes the span of its tokens. -/
theorem spanned {x : Watched (Span → α)} {r : Rule (Span → α)} [Lawful true (spanned r)]
    (h : O.Follows levels f s x r) : O.Follows levels f s (.spanned x) (spanned r) := by
  have : Lawful true r := lawful_of_spanned
  exact .ask (h.bind fun _ _ _ _ => .lift _)

/-! ### Repetition -/

theorem upTo {x : Watched (Option α)} {r : Rule (Option α)} [Lawful true r]
    (h : ∀ t : State, t.stream.remaining ≤ s.stream.remaining → O.Follows levels f t x r)
    (n : Nat) (values : List α) :
    O.Follows levels f s (.upTo x n values) (upTo r n values) := by
  induction n generalizing s values with
  | zero => exact .pure _
  | succ n ih =>
    rw [Watched.upTo, upTo_succ]
    refine (h s (Nat.le_refl _)).bind fun o t _ hle => ?_
    cases o with
    | none => exact .pure _
    | some a => exact ih (fun u hu => h u (Nat.le_trans hu hle)) _

theorem many {x : Watched (Option α)} {r : Rule (Option α)} [Lawful true r]
    (h : ∀ t : State, t.stream.remaining ≤ s.stream.remaining → O.Follows levels f t x r) :
    O.Follows levels f s (.many x) (many r) := by
  rintro hs w rfl hlevels
  exact upTo h _ [] hs w rfl hlevels

theorem behind [Lawful true r] {kind : Kind} (hk : kind ≠ .endOfInput)
    (h : ∀ t : State, t.stream.remaining < s.stream.remaining → O.Follows levels f t x r) :
    O.Follows levels f s (.behind kind x) (behind kind r) := by
  unfold Watched.behind Grammar.behind
  refine .of_valid fun hs => (lift _).bind fun token t hrun _ => ?_
  cases token with
  | none => exact .pure _
  | some token =>
    refine (h t ?_).bind fun _ _ _ _ => .pure _
    change Rule.run (if (s.kind == kind) = true then _ else _) s = _ at hrun
    split at hrun
    · next heq =>
      obtain rfl : s.bump = t := congrArg Prod.snd hrun
      exact remaining_bump_lt hs (ne_endOfInput_of_beq heq hk)
    · cases hrun

/-- The operand of a link is read behind its operator. -/
theorem linkOf {Op T : Type} {ofKind? : Kind → Option Op} {leftPower : Op → Nat} {power : Nat}
    {x : Op → Watched T} {r : Op → Rule T} [∀ op, Lawful true (r op)]
    (hend : ofKind? .endOfInput = none)
    (h : ∀ op (t : State), t.stream.remaining < s.stream.remaining →
      O.Follows levels f t (x op) (r op)) :
    O.Follows levels f s (.linkOf ofKind? leftPower x power)
      (linkOf ofKind? leftPower r power) := by
  unfold Watched.linkOf Grammar.linkOf
  refine .ask ?_
  cases hop : ofKind? s.kind with
  | some op =>
    have hk : s.kind ≠ .endOfInput := fun he => by simp [he, hend] at hop
    dsimp only
    split
    · exact .pure _
    · exact .bump hk rfl fun operator t ht => (h op t ht).bind fun right u _ _ => .pure _
  | none => exact .pure _

theorem parenthesised [Lawful true r]
    (h : ∀ t : State, t.stream.remaining ≤ s.stream.remaining → O.Follows levels f t x r) :
    O.Follows levels f s (.parenthesised x) (parenthesised r) := by
  unfold Watched.parenthesised Grammar.parenthesised
  exact .after fun _ t ht => (h t ht).bind fun _ _ _ _ => .after fun _ _ _ => .pure _

/-! ### Calls and levels -/

theorem called (h : O.Follows levels ⟨rule, s.stream.remaining⟩ s x r)
    (hf : O.Under ⟨rule, s.stream.remaining⟩ f) : O.Follows levels f s (.called rule x) r := by
  rintro hs w rfl hlevels
  let frame : Frame := ⟨rule, w.state.stream.remaining⟩
  let v : Watch := { w with stack := frame :: w.stack, calls := (frame :: w.stack) :: w.calls }
  obtain ⟨calls, hrun, hcalls⟩ := h hs v rfl hlevels
  refine ⟨calls ++ [frame :: w.stack], ?_, fun stack hstack => ?_⟩
  · change ((x v).1, { (x v).2 with stack := (x v).2.stack.tail }) = _
    rw [hrun, List.append_assoc]
    rfl
  · rcases List.mem_append.1 hstack with hstack | hstack
    · obtain ⟨fs, rfl, hfs, hall⟩ := hcalls stack hstack
      refine ⟨fs ++ [frame], by simp [v], ?_, fun g hg => ?_⟩
      · exact List.pairwise_append.2 ⟨hfs, List.pairwise_singleton _ _, by simpa using hall⟩
      · rcases List.mem_append.1 hg with hg | hg
        · exact O.trans (hall g hg) hf
        · exact List.mem_singleton.1 hg ▸ hf
    · obtain rfl := List.mem_singleton.1 hstack
      exact ⟨[frame], rfl, List.pairwise_singleton _ _, by simpa using hf⟩

theorem nested (h : O.Follows levels f s x r) :
    O.Follows (levels + 1) f s (.nested x) r := by
  intro hs w hw hlevels
  have hdepth : ¬ w.state.config.maxDepth ≤ w.depth := fun hle => by
    rw [Watch.levels, Nat.sub_eq_zero_of_le hle] at hlevels
    exact Nat.succ_ne_zero _ hlevels.symm
  obtain ⟨calls, hrun, hcalls⟩ := h hs { w with depth := w.depth + 1 } hw (by
    rw [Watch.levels] at hlevels ⊢
    change w.state.config.maxDepth - (w.depth + 1) = levels
    omega)
  refine ⟨calls, ?_, hcalls⟩
  rw [Watched.nested, if_neg hdepth, hrun]
  rfl

/-- Where no level is left, the nesting is blamed. -/
theorem nested_zero : O.Follows 0 f s (.nested x) tooDeep := by
  intro hs w hw hlevels
  have hdepth : w.state.config.maxDepth ≤ w.depth := Nat.le_of_sub_eq_zero hlevels
  obtain ⟨calls, hrun, hcalls⟩ := lift (O := O) (f := f) tooDeep hs w hw hlevels
  refine ⟨calls, ?_, hcalls⟩
  rw [Watched.nested, if_pos hdepth]
  exact hrun

/-! ### Scopes -/

/-- A scope that is left as it was entered. -/
theorem inside [hl : Lawful true r] {enter : Scope → Scope} {leave : Scope → Scope → Scope}
    (hleave : leave s.scope (enter s.scope) = s.scope)
    (h : O.Follows levels f { s with scope := enter s.scope } x r) :
    O.Follows levels f s (.inside enter leave x) (within enter r) := by
  rintro hs w rfl hlevels
  obtain ⟨calls, hrun, hcalls⟩ := h hs (w.rescope enter) rfl hlevels
  have hscope : (r.run { w.state with scope := enter w.state.scope }).2.scope
      = enter w.state.scope := (hl.steps _).scope
  refine ⟨calls, ?_, hcalls⟩
  rw [run_within]
  change ((x (w.rescope enter)).1, (x (w.rescope enter)).2.rescope (leave w.state.scope)) = _
  rw [hrun]
  generalize r.run { w.state with scope := enter w.state.scope } = y at hscope ⊢
  obtain ⟨a, t⟩ := y
  change (a, Watch.mk { t with scope := leave w.state.scope t.scope } _ _ _) = _
  rw [show t.scope = enter w.state.scope from hscope, hleave]
  rfl

end Follows

namespace Serves

theorem called (h : ∀ s : State, O.Follows levels ⟨rule, s.stream.remaining⟩ s x r) :
    O.Serves rule levels (.called rule x) r := fun s _ hf => (h s).called hf

theorem lift (r : Rule α) : O.Serves rule levels (.lift r) r := fun _ _ _ => .lift r

variable {rule' : RuleName} {n : Nat}

/-- A call from a rule of a higher rank. -/
theorem call (h : O.Serves rule levels x r) (hle : s.stream.remaining ≤ n)
    (hr : rule.rank < rule'.rank) : O.Follows levels ⟨rule', n⟩ s x r :=
  h s _ (O.of_below (Frame.below_of_rank hle hr))

/-- A call from a rule that has read a token. -/
theorem callAfter (h : O.Serves rule levels x r) (hlt : s.stream.remaining < n) :
    O.Follows levels ⟨rule', n⟩ s x r :=
  h s _ (O.of_below (Frame.below_of_lt hlt _ _))

theorem separated [Lawful true r] (h : O.Serves rule levels x r)
    (hr : rule.rank < RuleName.list.rank) {kind : Kind} (hk : kind ≠ .endOfInput) :
    O.Serves .list levels (.separated kind x) (separated kind r) := by
  refine .called fun s => ?_
  unfold Grammar.separated
  exact (h.call (Nat.le_refl _) hr).bind fun first t _ ht =>
    (Follows.many fun u hu => .behind hk fun v hv => h.callAfter (by omega)).bind
      fun rest u _ _ => .pure _

theorem arguments [Lawful true r] (h : O.Serves rule levels x r)
    (hr : rule.rank < RuleName.list.rank) :
    O.Serves .arguments levels (.arguments x) (arguments r) := by
  refine .called fun s => .parenthesised fun t ht => .ask ?_
  split
  · exact .pure _
  · exact (h.separated hr (by decide)).call ht (by decide)

end Serves

/-! ## Expressions -/

/-- Rules for expressions that are watched. -/
structure ServesExpressions (O : CallOrder) (levels : Nat) (E : Watched.Expressions)
    (inner : Expressions) : Prop where
  /-- Conditions do what the rules do. -/
  boolean (power : Nat) : O.Serves .boolean levels (E.boolean power) (inner.boolean power)
  /-- Arithmetic does what the rules do. -/
  operator (power : Nat) : O.Serves .operator levels (E.operator power) (inner.operator power)

namespace ServesExpressions

variable {E : Watched.Expressions} {inner : Expressions} [inner.Lawful true]
  (h : O.ServesExpressions levels E inner)

include h

theorem value : O.Serves .value levels (.value E) (value inner) := by
  refine .called fun s => ?_
  unfold Grammar.value
  refine ((h.operator 0).call (Nat.le_refl _) (by decide)).bind fun left t _ ht => .ask ?_
  split
  · next hk =>
    refine .bump (ne_endOfInput_of_beq hk (by decide)) rfl fun operator u hu => ?_
    cases ComparisonOp.ofText? operator.text with
    | some op => exact ((h.operator 0).callAfter (by omega)).bind fun right v _ _ => .pure _
    | none => exact .lift _
  · exact .pure _

theorem scalarArgument :
    O.Serves .scalarArgument levels (.scalarArgument E) (scalarArgument inner) := by
  refine .called fun s => ?_
  unfold Grammar.scalarArgument
  refine .ask (.ask ?_)
  split
  · exact .after fun span t _ => .pure _
  · exact (h.value.call (Nat.le_refl _) (by decide)).bind fun v t _ _ => .pure _

theorem primary : O.Serves .primary levels (.primary E) (primary inner) := by
  refine .called fun s => ?_
  unfold Grammar.primary
  refine .ask ?_
  split
  · exact .after fun constant t _ => .pure _
  · split
    · next hk =>
      have hopen : ((expect .leftParen).run s).2 = s.bump := by
        rw [expect, Link.Rules.run_expectAny, if_pos (by simp [hk])]
        rfl
      refine .spanned ((?_ : O.Follows _ _ _ (.parenthesised _) (parenthesised _)).bind
        fun e t _ _ => .pure _)
      exact .bump (by simp [hk]) hopen fun _ t ht => ((h.boolean 0).callAfter ht).bind
        fun _ _ _ _ => .after fun _ _ _ => .pure _
    · split
      · next hk =>
        refine .ask ?_
        split
        · refine .spanned (.bump (fun he => ?_) (Link.Rules.run_identifierOf_of_mem hk)
            fun name t ht => (((h.boolean 0).arguments (by decide)).callAfter ht).bind
              fun args u _ _ => .pure _)
          rw [he] at hk
          exact absurd hk (by decide)
        · exact .after fun name t _ => .pure _
      · exact .lift _

theorem operand : O.Serves .operand levels (.operand E) (operand inner) := by
  refine .called fun s => ?_
  unfold Grammar.operand
  refine .ask ?_
  cases hsign : Sign.ofKind? s.kind with
  | some sign =>
    have hk : s.kind ≠ .endOfInput := fun he => by simp [he, Sign.ofKind?] at hsign
    exact .spanned (.bump hk rfl fun operator t ht =>
      ((h.operator _).callAfter ht).bind fun e u _ _ => .pure _)
  | none =>
    dsimp only
    split
    · next hk =>
      exact .spanned (.bump (by simp [hk]) rfl fun name t ht =>
        (((Serves.lift _ : O.Serves .primary _ _ _).arguments (by decide)).callAfter ht).bind
          fun args u _ _ => .pure _)
    · split
      · next hk =>
        exact .spanned (.bump (by simp [hk]) rfl fun name t ht =>
          ((h.scalarArgument.arguments (by decide)).callAfter ht).bind fun args u _ _ => .pure _)
      · split
        · exact (h.primary.call (Nat.le_refl _) (by decide)).bind fun p t _ _ => .pure _
        · exact .lift _

theorem operatorLink (power : Nat) :
    O.Serves .operatorLink levels (.operatorLink E power) (operatorLink inner power) :=
  .called fun _ => .linkOf rfl fun _ _ ht => (h.operator _).callAfter ht

theorem operatorChain (power : Nat) (s : State) :
    O.Follows levels ⟨.operator, s.stream.remaining⟩ s (.operatorChain E power)
      (operatorChain inner power) := by
  unfold Watched.operatorChain Grammar.operatorChain
  exact (h.operand.call (Nat.le_refl _) (by decide)).bind fun first t _ ht =>
    (Follows.many fun u hu => (h.operatorLink power).call (by omega) (by decide)).bind
      fun links u _ _ => .pure _

theorem test (start : Nat) (tested : ValueExpr) :
    O.Serves .test levels (.test E start tested) (test inner start tested) := by
  refine .called fun s => ?_
  unfold Grammar.test
  rw [Watched.trialNegation_eq]
  refine .after fun negation t ht => .ask ?_
  split
  · next hk =>
    refine .bump (by simp [hk]) rfl fun keyword u hu => ?_
    exact (Follows.parenthesised fun v hv =>
      (h.value.separated (by decide) (by decide)).callAfter (by omega)).bind fun items v _ _ =>
        .lift _
  · cases PatternKind.ofKind? t.kind with
    | some pattern => exact .after fun keyword u _ => .after fun literal v _ => .lift _
    | none => exact .pure _

theorem condition : O.Serves .condition levels (.condition E) (condition inner) := by
  refine .called fun s => ?_
  unfold Grammar.condition
  refine .ask (.ask ?_)
  split
  · next hk =>
    exact .spanned (.bump (by simp [hk]) rfl fun operator t ht =>
      ((h.boolean _).callAfter ht).bind fun e u _ _ => .pure _)
  · split
    · exact .after fun call t _ => .pure _
    · split
      · refine .ask ((h.value.call (Nat.le_refl _) (by decide)).bind fun tested t _ ht => ?_)
        split
        · exact (h.test _ tested).call ht (by decide)
        · exact .pure _
      · exact .lift _

theorem connectiveLink (power : Nat) :
    O.Serves .connectiveLink levels (.connectiveLink E power) (connectiveLink inner power) :=
  .called fun _ => .linkOf rfl fun _ _ ht => (h.boolean _).callAfter ht

theorem connectiveChain (power : Nat) (s : State) :
    O.Follows levels ⟨.boolean, s.stream.remaining⟩ s (.connectiveChain E power)
      (connectiveChain inner power) := by
  unfold Watched.connectiveChain Grammar.connectiveChain
  exact (h.condition.call (Nat.le_refl _) (by decide)).bind fun first t _ ht =>
    (Follows.many fun u hu => (h.connectiveLink power).call (by omega) (by decide)).bind
      fun links u _ _ => .pure _

end ServesExpressions

/-- Expressions on every level; where no level is left, it does not matter what would be read. -/
theorem servesExpressions (O : CallOrder) {n levels : Nat} (h : levels ≤ n) :
    O.ServesExpressions levels (Watched.expressions n) (expressions levels) := by
  have hzero {α : Type} (rule : RuleName) (x : Watched α) :
      O.Serves rule 0 (.called rule (.nested x)) tooDeep := .called fun s => .nested_zero
  induction n generalizing levels with
  | zero =>
    obtain rfl := Nat.le_zero.1 h
    exact ⟨fun power => hzero .boolean (.lift tooDeep),
      fun power => hzero .operator (.lift tooDeep)⟩
  | succ n ih =>
    cases levels with
    | zero =>
      exact ⟨fun power => hzero .boolean (.connectiveChain (Watched.expressions n) power),
        fun power => hzero .operator (.operatorChain (Watched.expressions n) power)⟩
    | succ levels =>
      have hinner := ih (Nat.le_of_succ_le_succ h)
      exact ⟨fun power => .called fun s => .nested (hinner.connectiveChain power s),
        fun power => .called fun s => .nested (hinner.operatorChain power s)⟩

/-! ## Commands -/

/-- What is read in brackets: wherever a query may be called, it does what a rule does one level
deeper. -/
def ServesNested (O : CallOrder) (levels : Nat) (x : Watched Query) (query : Rule Query) : Prop :=
  ∀ (s : State) (f : Frame), O.Under ⟨.query, s.stream.remaining⟩ f →
    O.Follows levels f s (.nested (.enclosed x))
      (within (fun scope => { scope with subqueries := scope.subqueries + 1 }) query)

theorem serves_subquery {x : Watched Query} {query : Rule Query} [Lawful true query]
    (hquery : O.ServesNested levels x query) :
    O.Serves .subquery levels (.subquery x) (subquery query) := by
  refine .called fun s => ?_
  unfold Grammar.subquery
  exact .ask (.after fun left t ht =>
    (hquery t _ (O.of_below (Frame.below_of_rank ht (by decide)))).bind fun q u _ _ =>
      .after fun right v _ => .after fun recorded w _ => .pure _)

namespace ServesExpressions

variable {E : Watched.Expressions} {inner : Expressions} [inner.Lawful true]
  (h : O.ServesExpressions levels E inner)

include h

theorem field : O.Serves .field levels (.field E) (field inner) :=
  .called fun _ => .spanned (.after fun name t ht =>
    ((h.boolean 0).call ht (by decide)).bind fun e u _ _ => .pure _)

theorem fields : O.Serves .list levels (.fields E) (fields inner) :=
  h.field.separated (by decide) (by decide)

theorem sortKey : O.Serves .sortKey levels (.sortKey E) (sortKey inner) :=
  .called fun _ => .spanned (((h.boolean 0).call (Nat.le_refl _) (by decide)).bind fun e t _ _ =>
    .after fun order u _ => .after fun nulls v _ => .pure _)

/-- What stands behind the keyword of a command. -/
theorem processingClause (kind : Kind) :
    Option.Rel (fun x r => ∀ (n : Nat) (s : State), s.stream.remaining < n →
        O.Follows levels ⟨.processingCommand, n⟩ s x r)
      (Watched.processingClause? E kind) (processingClause? inner kind) := by
  have hleaves {α : Type} (r : Rule α) [Lawful true r] :
      O.Serves .list levels (.separated .comma (.lift r)) (separated .comma r) :=
    (Serves.lift r : O.Serves .primary _ _ _).separated (by decide) (by decide)
  unfold processingClause?
  split
  · exact .some fun n s hs => (h.fields.callAfter hs).bind fun fields t _ _ => .pure _
  · exact .some fun n s _ => .after fun count t _ => .pure _
  · exact .some fun n s _ => .after fun names t _ => .pure _
  · exact .some fun n s _ => .after fun names t _ => .pure _
  · exact .some fun n s hs => ((hleaves _).callAfter hs).bind fun clauses t _ _ => .pure _
  · exact .some fun n s _ => .after fun names t _ => .pure _
  · refine .some fun n s hs => .after fun names t ht => .after fun pattern u hu => .ask ?_
    split
    · exact ((hleaves _).callAfter (by omega)).bind fun options v _ _ => .pure _
    · exact .pure _
  · exact .some fun n s _ => .after fun names t _ => .after fun pattern u _ => .pure _
  · exact .some fun n s hs => ((h.sortKey.separated (by decide) (by decide)).callAfter hs).bind
      fun keys t _ _ => .pure _
  · refine .some fun n s hs => .ask ?_
    have hgrouping (aggregates : Option (List Field)) (t : State) :
        O.Follows levels ⟨.processingCommand, n⟩ t
          (ProcessingClause.stats aggregates <$> Watched.lift (Grammar.behind .kwBy qualifiedNames))
          (ProcessingClause.stats aggregates <$> Grammar.behind .kwBy qualifiedNames) :=
      .after fun grouping u _ => .pure _
    split
    · have haggregates : O.Follows levels ⟨.processingCommand, n⟩ s (some <$> Watched.fields E)
          (some <$> Grammar.fields inner) :=
        (h.fields.callAfter hs).bind fun fields t _ _ => .pure _
      exact haggregates.bind fun aggregates t _ _ => hgrouping aggregates t
    · exact hgrouping none s
  · exact .some fun n s hs => (Follows.inside rfl ((h.boolean 0).callAfter hs)).bind
      fun condition t _ _ => .pure _
  · exact .some fun n s _ => .after fun names t _ => .pure _
  · exact .some fun n s hs => .after fun policy t ht => .after fun matched u hu =>
      (Follows.behind (by decide) fun v hv => (hleaves _).callAfter (by omega)).bind
        fun clauses v _ _ => .pure _
  · unfold Watched.processingClause?
    split <;> first | exact .none | exact absurd rfl (by assumption)

theorem processingCommand :
    O.Serves .processingCommand levels (.processingCommand E) (processingCommand inner) := by
  refine .called fun s => ?_
  have hl : Lawful true (Grammar.processingCommand inner) := inferInstance
  unfold Grammar.processingCommand at hl ⊢
  refine .spanned (.after fun noted t ht => .ask ?_)
  have hclause := h.processingClause t.kind
  cases hr : processingClause? inner t.kind with
  | none =>
    rw [hr] at hclause
    cases hx : Watched.processingClause? E t.kind with
    | some x => rw [hx] at hclause; cases hclause
    | none => exact .lift _
  | some clause =>
    rw [hr] at hclause
    cases hx : Watched.processingClause? E t.kind with
    | none => rw [hx] at hclause; cases hclause
    | some x =>
      rw [hx] at hclause
      have hk : t.kind ≠ .endOfInput := fun he => by simp [he, processingClause?] at hr
      have := lawful_processingClause inner true hr
      obtain ⟨hclause⟩ := hclause
      exact .bump hk rfl fun keyword u hu => (hclause _ u (by omega)).bind fun c v _ _ => .pure _

/-- A source command, given what is read in its brackets. -/
theorem sourceCommand {x : Watched Query} {query : Rule Query} [Lawful true query]
    (hquery : O.ServesNested levels x query) :
    O.Serves .sourceCommand levels (.sourceCommand E x) (sourceCommand inner query) := by
  have hsubquery := serves_subquery hquery
  have hnames : O.Serves .list levels (.separated .comma (.lift (identifierOf sourceNames)))
      (separated .comma (identifierOf sourceNames)) :=
    (Serves.lift _ : O.Serves .primary _ _ _).separated (by decide) (by decide)
  refine .called fun s => ?_
  have hl : Lawful true (Grammar.sourceCommand inner query) := inferInstance
  unfold Grammar.sourceCommand at hl ⊢
  refine .spanned (.after fun noted t ht => .ask (.ask ?_))
  cases hkind : t.kind with
  | kwExplain =>
    exact .bump (by simp [hkind]) rfl fun keyword u hu =>
      (hsubquery.callAfter (by omega)).bind fun q v _ _ => .pure _
  | kwFrom =>
    exact .bump (by simp [hkind]) rfl fun keyword u hu =>
      (hnames.callAfter (by omega)).bind fun names v _ _ => .pure _
  | kwRow =>
    exact .bump (by simp [hkind]) rfl fun keyword u hu =>
      (h.fields.callAfter (by omega)).bind fun fields v _ _ => .pure _
  | kwShow =>
    refine .ask ?_
    cases ShowTarget.ofKind? t.kindAfter with
    | some target => exact .after fun keyword u _ => .after fun word v _ => .pure _
    | none => exact .after fun skipped u _ => .lift _
  | _ => exact .lift _

end ServesExpressions

/-! ## Queries -/

theorem Follows.stage (h : O.Follows levels f s x r) (kind : Kind)
    (span : α → Span) (error : Span → α) :
    O.Follows levels f s (.stage x kind span error) (total (stage r kind span error)) := by
  rintro hs w rfl hlevels
  obtain ⟨calls, hrun, hcalls⟩ := h hs w rfl hlevels
  refine ⟨calls, ?_, hcalls⟩
  rw [run_total, Grammar.stage, Watched.stage, hrun]
  cases r.run w.state with
  | mk o t => cases o <;> rfl

section

variable {E : Watched.Expressions} {inner : Expressions} [inner.Lawful true]
  (h : O.ServesExpressions levels E inner)

include h

theorem ServesExpressions.processingStage :
    O.Serves .processingStage levels (.processingStage E) (total (processingStage inner)) :=
  .called fun _ => .stage (h.processingCommand.call (Nat.le_refl _) (by decide)) _ _ _

theorem Follows.stagesUpTo {m : Nat} (hs : s.stream.remaining ≤ m) (n : Nat)
    (stages : List (Token × ProcessingCommand)) :
    O.Follows levels ⟨.query, m⟩ s (.stagesUpTo E n stages)
      (total (stagesUpTo inner n stages)) := by
  induction n generalizing s stages with
  | zero => exact .pure _
  | succ n ih =>
    have : Lawful true (total (Grammar.processingStage inner)) :=
      lawful_total (steps_processingStage inner)
    have hskip : Lawful true (change (·.skipExtraneous)) := lawful_change steps_skipExtraneous
    rw [total_stagesUpTo_succ]
    refine .ask ?_
    split
    · next hk =>
      refine .bump (ne_endOfInput_of_beq hk (by decide)) rfl fun bar t ht => ?_
      exact (h.processingStage.callAfter (by omega)).bind fun command u _ hu => ih (by omega) _
    · refine .ask ?_
      split
      · exact .pure _
      · exact .after fun skipped t ht => ih (by omega) stages

/-- The first stage, given what is read in its brackets. -/
theorem ServesExpressions.sourceStage {x : Watched Query} {query : Rule Query}
    [Lawful true query] (hquery : O.ServesNested levels x query) :
    O.Serves .sourceStage levels (.sourceStage E x) (total (sourceStage inner query)) :=
  .called fun _ => .stage ((h.sourceCommand hquery).call (Nat.le_refl _) (by decide)) _ _ _

/-- A query, given what is read in its brackets. -/
theorem ServesExpressions.pipeline {x : Watched Query} {query : Rule Query} [Lawful true query]
    (hquery : O.ServesNested levels x query) :
    O.Serves .query levels (.called .query (.pipeline E x)) (total (pipeline inner query)) := by
  have hlawful : Lawful true (total (Grammar.sourceStage inner query)) :=
    lawful_total fun s => steps_stage (Grammar.sourceCommand inner query) _ _ _ s
  have hlawful' : Lawful true (total (laterStages inner)) :=
    lawful_total fun s => steps_stagesUpTo inner _ _ s
  refine .called fun s => ?_
  rw [total_pipeline]
  refine ((h.sourceStage hquery).call (Nat.le_refl _) (by decide)).bind fun first t _ ht => ?_
  have hstages : O.Follows levels ⟨.query, s.stream.remaining⟩ t
      (fun w => Watched.stagesUpTo E w.state.stream.remaining [] w)
      (total (laterStages inner)) := by
    rintro hs w rfl hlevels
    exact Follows.stagesUpTo h ht w.state.stream.remaining [] hs w rfl hlevels
  exact hstages.bind fun stages u _ _ => .pure _

end

theorem within_tooDeep (scope : Scope → Scope) : within scope tooDeep = (tooDeep : Rule α) := by
  funext s
  have hreport (d : Diagnostic) :
      { State.report { s with scope := scope s.scope } d with scope := s.scope }
        = s.report d := by
    unfold State.report
    split <;> rfl
  exact congrArg (Prod.mk none) (hreport _)

/-- A query in brackets, given what is read one level deeper. -/
theorem servesNested_innerQuery {x : Watched Query}
    (hx : ∀ k, levels = k + 1 → O.Serves .query k x (total (query k))) :
    O.ServesNested levels x (innerQuery levels) := by
  intro s f hf
  cases levels with
  | zero =>
    rw [innerQuery, within_tooDeep]
    exact .nested_zero
  | succ k => exact .nested (.inside rfl (hx k rfl _ f hf))

/-- Queries on every level; where no level is left, it does not matter what would be read. -/
theorem serves_query (O : CallOrder) {n levels : Nat} (h : levels ≤ n) :
    O.Serves .query levels (Watched.query n) (total (query levels)) := by
  induction n generalizing levels with
  | zero =>
    rw [query_eq]
    exact (servesExpressions O h).pipeline (servesNested_innerQuery fun k hk => by omega)
  | succ n ih =>
    rw [query_eq]
    exact (servesExpressions O h).pipeline (servesNested_innerQuery fun k hk => ih (by omega))

/-- A query in brackets on every level. -/
theorem servesNested (O : CallOrder) (levels : Nat) :
    O.ServesNested levels (Watched.innerQuery levels) (innerQuery levels) :=
  servesNested_innerQuery fun k hk => by
    subst hk
    exact serves_query O (Nat.le_refl k)

theorem follows_statement (O : CallOrder) {n levels : Nat} (h : levels ≤ n) (s : State) (f : Frame)
    (hf : O.Under ⟨.query, s.stream.remaining⟩ f) :
    O.Follows levels f s (Watched.statement n) (total (statement levels)) :=
  (serves_query O h s f hf).bind fun _ _ _ _ => .lift _

theorem follows_wholeExpression (O : CallOrder) {n levels : Nat} (h : levels ≤ n) (s : State)
    (f : Frame) (hf : O.Under ⟨.boolean, s.stream.remaining⟩ f) :
    O.Follows levels f s (Watched.wholeExpression n) (wholeExpression levels) := by
  unfold Grammar.wholeExpression
  refine ((servesExpressions O h).boolean 0 s f hf).bind fun e t _ _ => .ask ?_
  split
  · exact .pure _
  · exact .lift _

end CallOrder

end Grammar

end PipeQuery
