import PipeQuery.Proofs.ConcreteTrees

/-!
# Trees from marks

A tree can be written down as a row of marks: a node is opened and closed again, and a token stands
by itself. `ConcreteTree.build?` is the plain builder that follows such a row. It gives up where a
node is closed that is not open, and where the row leaves anything but a single node.

`ConcreteTree.pass` is the row that one pass over the tokens makes of some regions, whatever they
are: in front of each token the open nodes that have come to their end are closed, as far as the
innermost open ones have, and the regions that begin at the token are opened. The tree of some tokens
and regions is what the plain builder makes of that row under a single root, so the row is balanced.
No mark loses a token (`Work.leaves_run?`), so the tokens are the leaves of the tree, each one once
(`lossless_ofRegions`).
-/

namespace PipeQuery

namespace ConcreteTree

/-- A step in writing down a tree. -/
inductive Mark where
  /-- A node of a kind begins. -/
  | opening (kind : Kind)
  /-- A token. -/
  | token (token : Token)
  /-- The innermost open node ends. -/
  | closing
deriving DecidableEq, Repr

/-- The token of a mark. -/
def Mark.token? : Mark → Option Token
  | token t => some t
  | _ => none

/-! ## The plain builder -/

/-- A tree that is built mark by mark. -/
structure Work where
  /-- The open nodes, innermost first, each one with its kind and the trees in front of it, last one
  first. -/
  nodes : List (Kind × List ConcreteTree)
  /-- The trees under the innermost open node, last one first. -/
  trees : List ConcreteTree

namespace Work

/-- The work behind a mark. No node can be closed where none is open. -/
def follow? (w : Work) : Mark → Option Work
  | .opening kind => some ⟨(kind, w.trees) :: w.nodes, []⟩
  | .token t => some ⟨w.nodes, .leaf t :: w.trees⟩
  | .closing =>
    match w.nodes with
    | [] => none
    | (kind, before) :: nodes => some ⟨nodes, .node kind w.trees.reverse :: before⟩

/-- The work behind a row of marks. -/
def run? (w : Work) : List Mark → Option Work
  | [] => some w
  | m :: ms => (w.follow? m).bind (·.run? ms)

end Work

/-- The tree that a row of marks makes, if it makes a single node. -/
def build? (ms : List Mark) : Option ConcreteTree :=
  match Work.run? ⟨[], []⟩ ms with
  | some ⟨[], [.node kind children]⟩ => some (.node kind children)
  | _ => none

namespace Work

variable {w w' : Work} {m : Mark} {ms ms' : List Mark}

theorem run?_append : w.run? (ms ++ ms') = (w.run? ms).bind (·.run? ms') := by
  induction ms generalizing w with
  | nil => rfl
  | cons m ms ih =>
    rw [List.cons_append, run?, run?, Option.bind_assoc]
    congr 1
    funext w'
    exact ih

/-- Runs one after the other. -/
theorem run?_trans {w'' : Work} (h : w.run? ms = some w') (h' : w'.run? ms' = some w'') :
    w.run? (ms ++ ms') = some w'' := by
  rw [run?_append, h]
  exact h'

/-- The tokens that have been taken down. -/
def leaves (w : Work) : List Token :=
  (w.nodes.reverse.flatMap fun node => node.2.reverse.flatMap ConcreteTree.leaves)
    ++ w.trees.reverse.flatMap ConcreteTree.leaves

theorem leaves_follow? (h : w.follow? m = some w') : w'.leaves = w.leaves ++ m.token?.toList := by
  cases m with
  | opening kind =>
    obtain rfl := Option.some.inj h
    simp [leaves, Mark.token?]
  | token t =>
    obtain rfl := Option.some.inj h
    simp [leaves, Mark.token?]
  | closing =>
    obtain ⟨nodes, trees⟩ := w
    cases nodes with
    | nil => cases h
    | cons node nodes =>
      obtain rfl := Option.some.inj h
      simp [leaves, Mark.token?, leaves_node]

/-- Whichever marks are followed, no token is lost, and none is taken down twice. -/
theorem leaves_run? (h : w.run? ms = some w') :
    w'.leaves = w.leaves ++ ms.filterMap Mark.token? := by
  induction ms generalizing w with
  | nil =>
    obtain rfl := Option.some.inj h
    simp
  | cons m ms ih =>
    rw [run?, Option.bind_eq_some_iff] at h
    obtain ⟨w₁, hm, hms⟩ := h
    rw [ih hms, leaves_follow? hm, List.append_assoc]
    cases m <;> rfl

end Work

/-! ## The row of marks of one pass -/

/-- The marks of a token. One that is no token of the language has a node of its own. -/
def tokenMarks (t : Token) : List Mark :=
  if t.kind = .error then [.opening .error, .token t, .closing] else [.token t]

/-- The marks that a pass over some tokens makes from a position on, with the stops of the nodes
that are open there, innermost first. In the end all open nodes are closed. -/
def pass (regions : List Region) : Nat → List Nat → List Token → List Mark
  | _, stops, [] => stops.map fun _ => .closing
  | i, stops, t :: tokens =>
    let begun := regions.filter (·.span.start = i)
    (stops.takeWhile (· ≤ i)).map (fun _ => .closing) ++
      (begun.map (.opening ·.kind) ++
        (tokenMarks t ++
          pass regions (i + 1) ((begun.map (·.span.stop)).reverse ++ stops.dropWhile (· ≤ i))
            tokens))

/-- A pass takes down each token once, in order. -/
theorem tokens_pass (regions : List Region) (i : Nat) (stops : List Nat) (tokens : List Token) :
    (pass regions i stops tokens).filterMap Mark.token? = tokens := by
  induction tokens generalizing i stops with
  | nil => simp [pass, Mark.token?]
  | cons t tokens ih =>
    have ht : (tokenMarks t).filterMap Mark.token? = [t] := by
      unfold tokenMarks
      split <;> rfl
    have hnone {α : Type} {f : α → Mark} (hf : ∀ a, (f a).token? = none) (as : List α) :
        (as.map f).filterMap Mark.token? = [] := by
      rw [List.filterMap_map]
      exact List.filterMap_eq_nil_iff.2 fun a _ => hf a
    rw [pass, List.filterMap_append, List.filterMap_append, List.filterMap_append, ih, ht,
      hnone fun _ => rfl, hnone fun _ => rfl]
    rfl

/-! ## Building a tree follows the marks -/

namespace Builder

variable {i : Nat} {b : Builder} {openings : List Opening} {trees : List ConcreteTree}
  {pending : List Region}

/-- The work of a tree that is being built under some open nodes. -/
def work (openings : List Opening) (trees : List ConcreteTree) : Work :=
  ⟨openings.map (fun o => (o.kind, o.before)) ++ [(.statement, [])], trees⟩

theorem run?_closeAt (i : Nat) (openings : List Opening) (trees : List ConcreteTree) :
    (work openings trees).run?
        (((openings.map Opening.stop).takeWhile (· ≤ i)).map fun _ => .closing)
      = some (work (closeAt i openings trees).1 (closeAt i openings trees).2) ∧
    (closeAt i openings trees).1.map Opening.stop
      = (openings.map Opening.stop).dropWhile (· ≤ i) := by
  induction openings generalizing trees with
  | nil => exact ⟨rfl, rfl⟩
  | cons o openings ih =>
    rw [closeAt, List.map_cons]
    by_cases ho : o.stop ≤ i
    · rw [if_pos ho, List.takeWhile_cons_of_pos (by simpa using ho),
        List.dropWhile_cons_of_pos (by simpa using ho)]
      exact ih _
    · rw [if_neg ho, List.takeWhile_cons_of_neg (by simpa using ho),
        List.dropWhile_cons_of_neg (by simpa using ho)]
      exact ⟨rfl, rfl⟩

theorem run?_closeAll (openings : List Opening) (trees : List ConcreteTree) :
    (work openings trees).run? ((openings.map Opening.stop).map fun _ => .closing)
      = some (work [] (closeAll openings trees)) := by
  induction openings generalizing trees with
  | nil => rfl
  | cons o openings ih => exact ih _

theorem run?_tokenMarks (openings : List Opening) (trees : List ConcreteTree) (t : Token) :
    (work openings trees).run? (tokenMarks t) = some (work openings (tokenTree t :: trees)) := by
  unfold tokenMarks tokenTree
  split <;> rfl

/-- All the regions that begin at a position are opened there. As none begins in front of it, none
is left out, and the later ones are still to come. -/
theorem run?_openAt (hle : ∀ r ∈ pending, i ≤ r.span.start)
    (horder : pending.Pairwise fun r r' => r.span.start ≤ r'.span.start) (b : Builder) :
    let begun := pending.filter (·.span.start = i)
    (work b.openings b.trees).run? (begun.map (.opening ·.kind))
      = some (work (openAt i pending b).openings (openAt i pending b).trees) ∧
    (openAt i pending b).openings.map Opening.stop
      = (begun.map (·.span.stop)).reverse ++ b.openings.map Opening.stop ∧
    (openAt i pending b).pending = pending.filter (i + 1 ≤ ·.span.start) := by
  induction pending generalizing b with
  | nil => exact ⟨rfl, rfl, rfl⟩
  | cons r pending ih =>
    have hr := hle r (List.mem_cons_self ..)
    have hrest := fun r' hr' => hle r' (List.mem_cons_of_mem r hr')
    rw [List.pairwise_cons] at horder
    rw [openAt, if_neg (by omega)]
    by_cases hstart : r.span.start = i
    · obtain ⟨hrun, hstops, hlater⟩ := ih hrest horder.2
        { b with openings := ⟨r.kind, r.span.stop, b.trees⟩ :: b.openings, trees := [] }
      rw [if_pos hstart, List.filter_cons_of_pos (by simpa using hstart),
        List.filter_cons_of_neg (by simp; omega)]
      refine ⟨hrun, ?_, hlater⟩
      rw [hstops]
      simp
    · have hahead : ∀ r' ∈ r :: pending, i < r'.span.start := by
        intro r' hr'
        rcases List.mem_cons.1 hr' with rfl | hr'
        · omega
        · have := horder.1 r' hr'
          omega
      have hnone : (r :: pending).filter (·.span.start = i) = [] := by
        rw [List.filter_eq_nil_iff]
        intro r' hr'
        simpa using (hahead r' hr').ne'
      rw [if_neg hstart, hnone]
      exact ⟨rfl, rfl, (List.filter_eq_self.2 fun r' hr' => decide_eq_true (hahead r' hr')).symm⟩

/-- What is added in front of a token and for it. -/
theorem add_eq (b : Builder) (i : Nat) (t : Token) :
    let closed := { b with
      openings := (closeAt i b.openings b.trees).1, trees := (closeAt i b.openings b.trees).2 }
    let opened := openAt i b.pending closed
    (b.add i t).openings = opened.openings ∧ (b.add i t).trees = tokenTree t :: opened.trees ∧
      (b.add i t).pending = opened.pending := by
  intro closed opened
  obtain ⟨textEnd, events, hcheck⟩ := checkToken_eq t opened
  show (checkToken t opened).openings = _ ∧ tokenTree t :: (checkToken t opened).trees = _ ∧
    (checkToken t opened).pending = _
  rw [hcheck]
  exact ⟨rfl, rfl, rfl⟩

variable {regions : List Region}

/-- A step of the building follows the marks in front of its token and for it. -/
theorem run?_add (horder : regions.Pairwise fun r r' => r.span.start ≤ r'.span.start)
    (hpending : b.pending = regions.filter (i ≤ ·.span.start)) (t : Token) :
    let begun := regions.filter (·.span.start = i)
    let stops := b.openings.map Opening.stop
    (work b.openings b.trees).run? ((stops.takeWhile (· ≤ i)).map (fun _ => .closing) ++
        (begun.map (.opening ·.kind) ++ tokenMarks t))
      = some (work (b.add i t).openings (b.add i t).trees) ∧
    (b.add i t).openings.map Opening.stop
      = (begun.map (·.span.stop)).reverse ++ stops.dropWhile (· ≤ i) ∧
    (b.add i t).pending = regions.filter (i + 1 ≤ ·.span.start) := by
  intro begun stops
  obtain ⟨hclose, hstill⟩ := run?_closeAt i b.openings b.trees
  let closed : Builder := { b with
    openings := (closeAt i b.openings b.trees).1, trees := (closeAt i b.openings b.trees).2 }
  have hahead : ∀ r ∈ b.pending, i ≤ r.span.start := by simp [hpending]
  obtain ⟨hopen, hstops, hlater⟩ := run?_openAt hahead (hpending ▸ horder.filter _) closed
  obtain ⟨hopenings, htrees, hpending'⟩ := add_eq b i t
  -- a region that begins here, or later, has not been met yet
  have hfilter (p : Region → Bool) (hp : ∀ r, p r = true → i ≤ r.span.start) :
      b.pending.filter p = regions.filter p := by
    rw [hpending, List.filter_filter]
    apply List.filter_congr
    intro r _
    cases hr : p r with
    | true => simp [hp r hr]
    | false => rfl
  have hbegun : b.pending.filter (·.span.start = i) = begun := hfilter _ (by simp; omega)
  rw [hbegun] at hopen hstops
  rw [hopenings, htrees, hpending']
  have hrun := Work.run?_trans hclose (Work.run?_trans hopen (run?_tokenMarks _ _ t))
  refine ⟨hrun, ?_, ?_⟩
  · rw [hstops, hstill]
  · rw [hlater, hfilter _ (by simp; omega)]

/-- A pass follows its marks to the end, where all nodes are closed. -/
theorem run?_pass (horder : regions.Pairwise fun r r' => r.span.start ≤ r'.span.start)
    (hpending : b.pending = regions.filter (i ≤ ·.span.start)) (tokens : List Token) :
    (work b.openings b.trees).run? (pass regions i (b.openings.map Opening.stop) tokens)
      = some (work [] (closeAll (b.addAll i tokens).openings (b.addAll i tokens).trees)) := by
  induction tokens generalizing b i with
  | nil => exact run?_closeAll b.openings b.trees
  | cons t tokens ih =>
    obtain ⟨hrun, hstops, hlater⟩ := run?_add horder hpending t
    have hrest := ih hlater
    rw [hstops] at hrest
    have := Work.run?_trans hrun hrest
    rw [pass, addAll]
    simpa only [List.append_assoc] using this

end Builder

/-- The regions that have tokens are in the order of their starts. -/
theorem starts_openingOrder (regions : List Region) :
    (openingOrder regions).Pairwise fun r r' => r.span.start ≤ r'.span.start := by
  refine (pairwise_openingOrder regions).imp fun {r r'} h => ?_
  rw [opensBefore_iff] at h
  omega

/-- The row of marks that some tokens and regions make: a root, and under it those of one pass. -/
def marks (tokens : List Token) (regions : List Region) : List Mark :=
  .opening .statement :: (pass (openingOrder regions) 0 [] tokens ++ [.closing])

/-- Whatever the tokens and the regions are, the marks of one pass over them are balanced under a
single root, and the tree is what the plain builder makes of them. Its leaves are the tokens, each
one once and in order, so its text is all of their texts. -/
theorem lossless_ofRegions (tokens : List Token) (regions : List Region) :
    ∃ trees, (ofRegions tokens regions).1 = .node .statement trees ∧
      build? (marks tokens regions) = some (.node .statement trees) ∧
      (ofRegions tokens regions).1.leaves = tokens ∧
      (ofRegions tokens regions).1.text = String.join (tokens.map Token.text) := by
  let b := (Builder.start regions).addAll 0 tokens
  let trees := (Builder.closeAll b.openings b.trees).reverse
  have hpending : (Builder.start regions).pending
      = (openingOrder regions).filter (0 ≤ ·.span.start) := by simp [Builder.start]
  have hpass := Builder.run?_pass (starts_openingOrder regions) hpending tokens
  have hroot : (Builder.work [] (Builder.closeAll b.openings b.trees)).run? [.closing]
      = some ⟨[], [.node .statement trees]⟩ := rfl
  have hrun : Work.run? ⟨[], []⟩ (marks tokens regions) = some ⟨[], [.node .statement trees]⟩ :=
    Work.run?_trans (w := Builder.work [] []) hpass hroot
  have hleaves : (ofRegions tokens regions).1.leaves = tokens := by
    have hrow : (marks tokens regions).filterMap Mark.token? = tokens := by
      show (pass (openingOrder regions) 0 [] tokens ++ [Mark.closing]).filterMap Mark.token? = tokens
      rw [List.filterMap_append, tokens_pass]
      exact List.append_nil tokens
    have hleaves := Work.leaves_run? hrun
    rw [hrow] at hleaves
    show (node .statement trees).leaves = tokens
    simpa [Work.leaves] using hleaves
  refine ⟨trees, rfl, ?_, hleaves, ?_⟩
  · rw [build?, hrun]
  · rw [text, hleaves]

end ConcreteTree

end PipeQuery
