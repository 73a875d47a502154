import Mathlib
import Offside.Proofs.Parse.Parameters
import Offside.Proofs.Ty

namespace Offside

open Parse Grammar

/-- What is known where the right side of a definition is read. A function has a scope of its own, in
which its parameters have types. -/
def Context.forBody (c : Context) (params : List String) (ts : List Ty) : Context :=
  if params = [] then c else (params.zip ts).foldl (fun c p => c.setValue p.1 p.2) c.enter

namespace Grammar

variable {below : Option Grammar} {ws : List Piece} {f : String} {params : List String}
  {ts : List Ty} {r : Ty}

/-- Each parameter takes one arrow of the type. -/
theorem paramTys?_arrows (hcount : params.length = ts.length) :
    paramTys? (Ty.arrows ts r) params = some (params.zip ts) := by
  induction params generalizing ts with
  | nil => cases Ty.arrows ts r <;> rfl
  | cons x xs ih =>
    cases ts with
    | nil => cases hcount
    | cons t ts =>
      rw [Ty.arrows_cons, paramTys?, ih (Nat.succ.inj hcount)]
      rfl

/-- A single name is read as itself, with what is known about it. -/
theorem sequence_passes_name (hword : IsVariable f) :
    Passes (fun _ => sequenceAbove below) (namePieces [f] ++ (.symbol, "=") :: ws)
      (fun c => some (.name f (c.value? f))) ((.symbol, "=") :: ws) := by
  refine .ofSteps fun n hn => (terms_passes (by simpa using hword) ?_).bind .pure
  rw [List.length_append] at hn
  exact Nat.lt_of_le_of_lt (Nat.le_add_right _ _) hn

theorem value_resumes (htype : f ≠ "type") (hword : IsVariable f) :
    Resumes (above below).statement
      (do return some (.expression (← variableDefinition below f)))
      (namePieces [f] ++ [(.symbol, "=")]) :=
  definition_resumes htype (sequence_passes_name hword) fun _ => rfl

section

variable {rest : TokenStream} {c : Context} {b : Expr} {t : ParseState}

/-- A value of another type than the declared one is refused. -/
theorem variableDefinition_wrong {u : Ty} (hdeclared : c.value? f = some r)
    (hvalue : nested below inner ⟨rest, c⟩ = .ok b t) (hty : b.ty = some u) (hne : u ≠ r) :
    variableDefinition below f ⟨rest, c⟩ = .error (.type (.wrongDefinition f r u)) t := by
  have hchecked : Expr.checkedDefine f b (some r) = .error (.type (.wrongDefinition f r u)) := by
    unfold Expr.checkedDefine
    rw [hty]
    exact if_neg hne
  have hknown : valueTy? f ⟨rest, c⟩ = .ok (some r) ⟨rest, c⟩ := by rw [← hdeclared]; rfl
  unfold variableDefinition
  rw [bind_of_ok hknown, bind_of_ok hvalue, hchecked]
  rfl

/-- Nothing is asked of the body. -/
theorem functionDefinition_annotated (hparams : params ≠ [])
    (hdeclared : c.value? f = some (Ty.arrows ts r)) (hcount : params.length = ts.length)
    (hbody : nested below inner ⟨rest, c.forBody params ts⟩ = .ok b t) :
    functionDefinition below f params ⟨rest, c⟩ =
      .ok (.function f params b (some (Ty.arrows ts r)))
        { t with context := t.context.exit } := by
  have hknown : valueTy? f ⟨rest, c⟩ = .ok (some (Ty.arrows ts r)) ⟨rest, c⟩ := by
    rw [← hdeclared]
    rfl
  have htyped : bindParams f params (some (Ty.arrows ts r)) ⟨rest, c.enter⟩ =
      .ok () ⟨rest, c.forBody params ts⟩ := by
    unfold bindParams Context.forBody
    dsimp only
    rw [paramTys?_arrows hcount, if_neg hparams]
    exact setValues_ok _ _
  have hscope : inScope (do bindParams f params (some (Ty.arrows ts r)); nested below inner)
      ⟨rest, c⟩ = .ok b { t with context := t.context.exit } := by
    unfold inScope
    rw [bind_of_ok htyped, hbody]
  unfold functionDefinition
  rw [bind_of_ok hknown, bind_of_ok hscope]
  rfl

end

end Grammar

namespace Parse

/-- The name `f` has a declared type, with an arrow for each parameter of its definition and `r`
behind them, and the right side of the definition is read as `b`. A value whose type does not match
`r` in either direction is refused. A function is accepted, whatever the types of `b` and `r` are. -/
theorem statement_annotated {below : Option Grammar} {s rest : TokenStream} {c : Context}
    {f : String} {params : List String} {ts : List Ty} {r : Ty} {b : Expr} {t : ParseState}
    (htype : f ≠ "type") (hwords : ∀ x ∈ f :: params, IsVariable x)
    (hhead : s.Leads (namePieces (f :: params) ++ [(.symbol, "=")]) rest)
    (hdeclared : c.value? f = some (Ty.arrows ts r)) (hcount : params.length = ts.length)
    (hbody : nested below inner ⟨rest, c.forBody params ts⟩ = .ok b t) :
    (params = [] → ∀ u, b.ty = some u → ¬ u.fits r → ¬ r.fits u →
      (above below).statement ⟨s, c⟩ = .error (.type (.wrongDefinition f r u)) t) ∧
    (params ≠ [] → (above below).statement ⟨s, c⟩ =
      .ok (some (.expression (.function f params b (some (Ty.arrows ts r)))))
        { t with context := t.context.exit }) := by
  refine ⟨?_, fun hparams => ?_⟩
  · rintro rfl u hty hfits -
    obtain rfl : ts = [] := List.eq_nil_of_length_eq_zero hcount.symm
    have hne : u ≠ r := by
      rintro rfl
      exact hfits u.fits_self
    have hrefused : variableDefinition below f ⟨rest, c⟩ =
        .error (.type (.wrongDefinition f r u)) t :=
      variableDefinition_wrong hdeclared hbody hty hne
    rw [value_resumes htype (hwords f List.mem_cons_self) s rest hhead c]
    exact bind_of_error hrefused
  · have hstatement : Resumes (above below).statement _ _ :=
      statement_resumes (.definition hparams htype hwords)
    rw [hstatement s rest hhead c]
    exact bind_of_ok (functionDefinition_annotated hparams hdeclared hcount hbody)

set_option maxRecDepth 4000 in
theorem statement_annotated_both :
    let grammar := above (beneath maxNesting)
    let c := Context.empty.setValue "f" (.function .int .string)
    let d := Context.empty.setValue "x" .string
    (TokenStream.ofSource "f n = n").Leads (namePieces ["f", "n"] ++ [(.symbol, "=")])
        { length := 7, rest := [' ', 'n'] } ∧
      (TokenStream.ofSource "x = 1").Leads (namePieces ["x"] ++ [(.symbol, "=")])
        { length := 5, rest := [' ', '1'] } ∧
      grammar.statement (.ofSource "f n = n" c) =
        .ok (some (.expression
          (.function "f" ["n"] (.name "n" (some .int)) (some (.function .int .string)))))
          ⟨{ length := 7, rest := [] }, c⟩ ∧
      grammar.statement (.ofSource "x = 1" d) =
        .error (.type (.wrongDefinition "x" .string .int)) ⟨{ length := 5, rest := [] }, d⟩ := by
  intro grammar c d
  have hfunction : (TokenStream.ofSource "f n = n").Leads
      (namePieces ["f", "n"] ++ [(.symbol, "=")]) { length := 7, rest := [' ', 'n'] } := by
    refine ⟨⟨.name, "f", ⟨0, 1⟩⟩, { length := 7, rest := " n = n".toList }, ?_, rfl,
      ⟨.name, "n", ⟨2, 3⟩⟩, { length := 7, rest := " = n".toList }, ?_, rfl,
      ⟨.symbol, "=", ⟨4, 5⟩⟩, { length := 7, rest := " n".toList }, ?_, rfl, rfl⟩ <;> cbv
  have hvalue : (TokenStream.ofSource "x = 1").Leads (namePieces ["x"] ++ [(.symbol, "=")])
      { length := 5, rest := [' ', '1'] } := by
    refine ⟨⟨.name, "x", ⟨0, 1⟩⟩, { length := 5, rest := " = 1".toList }, ?_, rfl,
      ⟨.symbol, "=", ⟨2, 3⟩⟩, { length := 5, rest := " 1".toList }, ?_, rfl, rfl⟩ <;> cbv
  have hbody : nested (beneath maxNesting) inner
      ⟨{ length := 7, rest := [' ', 'n'] }, c.forBody ["n"] [.int]⟩ =
      .ok (.name "n" (some .int)) ⟨{ length := 7, rest := [] }, c.forBody ["n"] [.int]⟩ := by
    unfold c
    cbv
  have hone : nested (beneath maxNesting) inner
      ⟨{ length := 5, rest := [' ', '1'] }, d.forBody [] []⟩ =
      .ok (.constant (.int 1)) ⟨{ length := 5, rest := [] }, d⟩ := by
    unfold d
    cbv
  have haccepted := (statement_annotated (by decide) (by simp [IsVariable]) hfunction rfl rfl
    hbody).2 (List.cons_ne_nil _ _)
  have hrefused := (statement_annotated (by decide) (by simp [IsVariable]) hvalue rfl rfl hone).1
    rfl .int rfl (by decide) (by decide)
  exact ⟨hfunction, hvalue, haccepted, hrefused⟩

set_option maxRecDepth 4000 in
/-- A function that is declared to give a string and gives an integer is accepted. The same value
under a name with the same declared result is refused. -/
theorem parse_unchecked_result :
    ¬ Ty.fits .int .string ∧ ¬ Ty.fits .string .int ∧
      Program.parse "f : Int -> String\nf n = n" = .ok
        [.function "f" ["n"] (.name "n" (some .int)) (some (Ty.arrows [.int] .string))] ∧
      (Expr.name "n" (some .int)).ty = some .int ∧
      Program.parse "x : String\nx = 1" = .error (.type (.wrongDefinition "x" .string .int)) := by
  refine ⟨by decide, by decide, ?_, rfl, ?_⟩ <;> cbv

end Parse

end Offside
