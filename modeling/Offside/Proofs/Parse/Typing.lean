import Mathlib
import Offside.Program
import Offside.Proofs.Parse.Lockstep

namespace Offside

namespace Parse

open Accord Offside.Expr

variable (less : Prop)

/-- A statement that has been read while two runs were alike. -/
def StatementAlike (w w' : Accord) : Option Statement → Option Statement → Prop
  | some (.expression e), some (.expression f) => Since (Alike less e f) (¬ e.All Settled) w w'
  | some .declaration, some .declaration | none, none => w' = w
  | _, _ => False

theorem statementOfRoom_follows (w : Accord) :
    Follows less w (Grammar.ofRoom Grammar.maxNesting).statement
      (Grammar.ofRoom Grammar.maxNesting).statement
      ((Grammar.alike less).Stated (Grammar.simpleHeight (Grammar.maxNesting + 1)) w) :=
  (Grammar.ofRoom_level (P := Grammar.alike less) nofun nofun rfl).statement w

theorem statementWithin_follows (steps : Nat) (w : Accord) :
    Follows less w (statementWithin steps) (statementWithin steps) (StatementAlike less w) := by
  induction steps with
  | zero => exact .pure rfl
  | succ steps ih =>
    refine .blindBind .skipLines fun _ => ?_
    refine (statementOfRoom_follows less w).bind fun w' o o' ho => ?_
    have hstated := Grammar.stated_inv ho
    cases o with
    | none =>
      obtain ⟨rfl, rfl⟩ := hstated
      refine .blindBind .next fun o => ?_
      cases o with
      | none => exact .pure rfl
      | some token =>
        dsimp only
        split
        · exact ih
        · exact .fail _ _
    | some found =>
      cases found with
      | expression e =>
        obtain ⟨f, rfl, hread⟩ := hstated
        exact .blindBind terminator_blind fun _ => .pure hread.tree
      | declaration =>
        obtain ⟨rfl, -, h⟩ := hstated
        exact .blindBind terminator_blind fun _ => .pure h

theorem statement_follows (w : Accord) :
    Follows less w statement statement (StatementAlike less w) :=
  .blindBind .steps fun steps => statementWithin_follows less steps w

theorem expressionsWithin_follows (steps : Nat) (w : Accord) :
    Follows less w (expressionsWithin steps) (expressionsWithin steps) fun w' es fs =>
      Since (List.Forall₂ (Alike less) es fs) (¬ ∀ e ∈ es, e.All Settled) w w' := by
  induction steps generalizing w with
  | zero => exact .pure (.intro .nil w)
  | succ steps ih =>
    refine (statement_follows less w).bind fun w' o o' ho => ?_
    match o, o', ho with
    | none, none, ho =>
      obtain rfl : w' = w := ho
      exact .pure (.intro .nil w')
    | some .declaration, some .declaration, ho =>
      obtain rfl : w' = w := ho
      exact ih w'
    | some (.expression e), some (.expression f), hef =>
      refine (ih w').bind fun w₂ es fs hes => .pure (hef.trans hes .cons fun hlost hall => ?_)
      rw [List.forall_mem_cons] at hall
      exact hlost.elim (fun hlost => hlost hall.1) fun hlost => hlost hall.2

/-- Both runs begin at the same tokens. -/
theorem parse_follows {source : String} {c d : Context} {es : List Expr}
    (h : Program.parse source c = .ok es) (hless : less → d.Within c)
    (hsettled : less → ∀ e ∈ es, e.All Settled) :
    (∃ fs, Program.parse source d = .ok fs ∧ List.Forall₂ (Alike less) es fs) ∨
      ¬ less ∧ ∃ cause, Program.parse source d = .error (.type cause) := by
  obtain ⟨s, hs⟩ := run_ok h
  have hexpressions : Follows less .alike expressions expressions _ :=
    .blindBind .steps fun steps => expressionsWithin_follows less steps .alike
  obtain ⟨fs, t, ht, -, hfs⟩ | ⟨hn, cause, t, ht⟩ | ⟨hl, fs, hlost⟩ :=
    hexpressions (.ofSource source c) (.ofSource source d) es s ⟨rfl, hless⟩ hs
  · obtain ⟨hfs⟩ := hfs
    exact .inl ⟨fs, run_of_ok ht, hfs⟩
  · exact .inr ⟨hn, cause, run_of_error ht⟩
  · obtain ⟨hnot⟩ | ⟨hnot⟩ := hlost
    exact absurd (hsettled hl) hnot

end Parse

namespace Program

open Offside.Expr

theorem javaScript_erasedAll (es : List Expr) : javaScript (es.map erased) = javaScript es := by
  simp only [javaScript, List.map_map, Function.comp_def, javaScript_erased]

/-- Types of values and aliases never change what a source says. In any two contexts in which it can
be read, the expressions are the same but for their static types, and so is the program made of
them; all that types can do is to have a source refused. -/
theorem parse_erased {source : String} {c : Context} {es : List Expr}
    (h : parse source c = .ok es) (d : Context) :
    (∃ fs, parse source d = .ok fs ∧ fs.map erased = es.map erased ∧
        javaScript fs = javaScript es) ∨
      ∃ cause, parse source d = .error (.type cause) := by
  obtain ⟨fs, hfs, halike⟩ | ⟨-, cause, hcause⟩ :=
    Parse.parse_follows False h (fun hf => hf.elim) fun hf => hf.elim
  · have herased := Alike.map_erased halike
    refine .inl ⟨fs, hfs, herased, ?_⟩
    rw [← javaScript_erasedAll fs, herased, javaScript_erasedAll]
  · exact .inr ⟨cause, hcause⟩

set_option maxRecDepth 4000 in
theorem parse_erased_two_typings :
    let source := "g : T\nx = f 1\ng x"
    let whole := (Context.empty.setValue "f" (.function .int .int)).setAlias "T"
      (.function .int .bool)
    let decimal := (Context.empty.setValue "f" (.function .int .float)).setAlias "T"
      (.function .float .string)
    ∃ es fs, parse source whole = .ok es ∧ parse source decimal = .ok fs ∧
      es.map ty = [some .int, some .bool] ∧ fs.map ty = [some .float, some .string] ∧
      fs.map erased = es.map erased ∧ javaScript fs = javaScript es := by
  intro source whole decimal
  let read (t u : Ty) : List Expr :=
    [.define "x" (.apply (.name "f" (some (.function .int t))) [.constant (.int 1)]) (some t),
      .apply (.name "g" (some (.function t u))) [.name "x" (some t)]]
  have hwhole : parse source whole = .ok (read .int .bool) := by cbv
  have hdecimal : parse source decimal = .ok (read .float .string) := by cbv
  obtain ⟨fs, hfs, herased, htext⟩ | ⟨cause, hcause⟩ := parse_erased hwhole decimal
  · cases hfs.symm.trans hdecimal
    exact ⟨_, _, hwhole, hdecimal, rfl, rfl, herased, htext⟩
  · cases hcause.symm.trans hdecimal

/-- With the same aliases and less known about the types of values, a source is read alike if it
defines no function and no name within the value that is given to it. -/
theorem parse_within {source : String} {c d : Context} {es : List Expr}
    (h : parse source c = .ok es) (hwithin : d.Within c)
    (hsettled : ∀ e ∈ es, e.All Settled) :
    ∃ fs, parse source d = .ok fs ∧ fs.map erased = es.map erased := by
  obtain ⟨fs, hfs, halike⟩ | ⟨hn, -⟩ :=
    Parse.parse_follows True h (fun _ => hwithin) fun _ => hsettled
  · exact ⟨fs, hfs, Alike.map_erased halike⟩
  · exact absurd True.intro hn

set_option maxRecDepth 4000 in
theorem parse_within_unknown_function :
    let source := "y : T\nx = f \"a\"\nx + y"
    let less := Context.empty.setAlias "T" .int
    let more := less.setValue "f" (.function .string .int)
    ∃ es fs, parse source more = .ok es ∧ less.Within more ∧ (∀ e ∈ es, e.All Settled) ∧
      parse source less = .ok fs ∧ fs.map erased = es.map erased := by
  intro source less more
  let es : List Expr :=
    [.define "x" (.apply (.name "f" (some (.function .string .int))) [.constant (.string "a")])
      (some .int), .arithmetic .add (.name "x" (some .int)) (.name "y" (some .int))]
  have hparse : parse source more = .ok es := by cbv
  have hwithin : less.Within more := ⟨fun _ => rfl, fun _ _ h => by cases h⟩
  have hsettled : ∀ e ∈ es, e.All Settled := by
    simp [es, All, nodes, nodesOfAll, Settled, assigned, assignedInAll]
  obtain ⟨fs, hfs, herased⟩ := parse_within hparse hwithin hsettled
  exact ⟨es, fs, hparse, hwithin, hsettled, hfs, herased⟩

set_option maxRecDepth 4000 in
/-- A definition whose value defines the same name: the type of the whole is recorded without a look
at the one that is known by then, unless a type was known before the value was read. -/
theorem parse_within_redefined :
    ¬ ∀ (source : String) (c d : Context) (es : List Expr), d.Within c →
      (∀ e ∈ es, e.All fun n => ∀ f params body t, n ≠ .function f params body t) →
      parse source c = .ok es → ∃ fs, parse source d = .ok fs := by
  intro h
  let source := "x = f (x = \"a\")\nx + 1"
  let more := Context.empty.setValue "f" (.function .string .int)
  let es : List Expr :=
    [.define "x" (.apply (.name "f" (some (.function .string .int)))
      [.define "x" (.constant (.string "a")) (some .string)]) (some .int),
      .arithmetic .add (.name "x" (some .int)) (.constant (.int 1))]
  have hparse : parse source more = .ok es := by cbv
  have hwithin : Context.empty.Within more := ⟨fun _ => rfl, fun _ _ h => by cases h⟩
  have hrefused : parse source {} =
      .error (.type (.notNumeric .add (some .string) (some .int))) := by cbv
  obtain ⟨fs, hfs⟩ := h source more {} es hwithin
    (by simp [es, All, nodes, nodesOfAll]) hparse
  cases hrefused.symm.trans hfs

end Program

end Offside
