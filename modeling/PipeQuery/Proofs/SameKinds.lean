import PipeQuery.Proofs.Acceptance
import PipeQuery.Proofs.Lockstep

/-!
# Texts of the same kinds

Whether a text is read without a diagnostic depends on the kinds of the tokens that the grammar sees,
and of the comparisons on whether they are known ones (`isOk_congr`). Two texts that are alike in
this are read in lockstep.
-/

namespace PipeQuery

open Grammar

/-- What of a token decides how the grammar goes on. -/
def Token.shape (t : Token) : Token :=
  ⟨t.kind, if t.kind = .comparison ∧ (ComparisonOp.ofText? t.text).isSome = true then "==" else "",
    0, 0, 0, 0⟩

/-- The shapes of a stretch. -/
def shapesOf (ps : List Placed) : List Token := ps.map (·.1.shape)

namespace Token

variable {t t' : Token}

theorem kind_of_shape (h : t.shape = t'.shape) : t.kind = t'.kind := by
  change t.shape.kind = t'.shape.kind
  rw [h]

theorem shape_of_isEnd (h : t.kind = .endOfInput) (h' : t'.kind = .endOfInput) :
    t.shape = t'.shape := by
  simp [shape, h, h']

theorem comparison_of_shape (h : t.shape = t'.shape) (hk : t.kind = .comparison) :
    (ComparisonOp.ofText? t.text).isSome = (ComparisonOp.ofText? t'.text).isSome := by
  have hk' : t'.kind = .comparison := (kind_of_shape h).symm.trans hk
  have htext := congrArg Token.text h
  simp only [shape, hk, hk', true_and] at htext
  cases hs : (ComparisonOp.ofText? t.text).isSome <;>
    cases hs' : (ComparisonOp.ofText? t'.text).isSome <;> simp_all

end Token

/-- The shapes of tokens are seen. -/
def Sight.shapes : Sight where
  view := Token.shape
  values := False
  spell := id
  kind_of_view := Token.kind_of_shape
  text_of_view _ hv := hv.elim
  toLower_of_spell h := congrArg String.toLower h
  operator_of_view _ hv := hv.elim
  comparison_of_view := Token.comparison_of_shape

/-- Whether a text is read without a diagnostic depends on the shapes of its tokens only. -/
theorem isOk_congr {tokens tokens' : List Token}
    (h : shapesOf (TokenStream.significant tokens) = shapesOf (TokenStream.significant tokens'))
    (config : Config) : (parse tokens config).isOk = (parse tokens' config).isOk := by
  have hseen : (TokenStream.seen tokens).map Token.shape
      = (TokenStream.seen tokens').map Token.shape := by
    have hend := Token.shape_of_isEnd (TokenStream.valid_ofTokens tokens).kind_endToken
      (TokenStream.valid_ofTokens tokens').kind_endToken
    simp only [shapesOf] at h
    simp [TokenStream.seen, Function.comp_def, h, hend]
  have hstart : Sight.shapes.States (.start config tokens) (.start config tokens') :=
    Sight.states_start hseen config
  have hend : Sight.shapes.States _ _ :=
    (Sight.shapes.lasting_link.query config.maxDepth hstart).2
  have hlength := congrArg List.length hend.diagnostics
  rw [Bool.eq_iff_iff, isOk_parse, isOk_parse, ← Array.size_eq_zero_iff, ← Array.size_eq_zero_iff]
  simp only [List.length_map, Array.length_toList] at hlength
  exact iff_of_eq (congrArg (· = 0) hlength)

end PipeQuery
