import Mathlib
import Offside.Eval.Evaluate
import Offside.Proofs.Bind

namespace Offside

/-- An environment, and how many evaluations are open in it. The count has to be taken back on every
way out, and calls work in copies that have counts of their own. -/
structure CountingEnvironment where
  env : Environment
  depth : Nat := 0

abbrev CountingEval := EStateM Error CountingEnvironment

namespace CountingEval

variable {α β : Type}

/-- A computation that opens no evaluation. -/
def plain (p : Eval α) : CountingEval α := fun s =>
  match p s.env with
  | .ok a env => .ok a { s with env }
  | .error e env => .error e { s with env }

/-- Opens an evaluation, unless as many are open as may be, and closes it however it ends. -/
def counted (c : CountingEval α) : CountingEval α := fun s =>
  if Expr.maxEvaluations ≤ s.depth then .error (.runtime .nestedTooDeeply) s
  else
    match c { s with depth := s.depth + 1 } with
    | .ok a t => .ok a { t with depth := t.depth - 1 }
    | .error e t => .error e { t with depth := t.depth - 1 }

/-- The computation in an environment where so many evaluations are open. What becomes of the count
is not seen. -/
def atDepth (c : CountingEval α) (depth : Nat) : Eval α := fun env =>
  match c ⟨env, depth⟩ with
  | .ok a t => .ok a t.env
  | .error e t => .error e t.env

/-- Calls a function. Each body is evaluated in a copy, which begins with the count of the caller and
is dropped with its own. -/
def callWith (host : Host) (run : Expr → CountingEval Value) (callee : Value)
    (arguments : List Value) : CountingEval Value := fun s =>
  plain (callee.callWith host (fun body => (run body).atDepth s.depth) arguments) s

/-- Evaluates an expression. The recursion may be cut off where no evaluation can be opened. The
count sees to it that this does not show. -/
def evaluate (host : Host) : (fuel : Nat) → Expr → CountingEval Value
  | 0, _ => plain (Eval.fail .nestedTooDeeply)
  | fuel + 1, e => counted <|
    match e with
    | .constant value => return .ofLiteral value
    | .name x _ => do
      match ← plain (Eval.find? x) with
      | some v => return v
      | none => plain (Eval.fail (.undefinedName x))
    | .comparison op left right => do
      let a ← evaluate host fuel left
      let b ← evaluate host fuel right
      return .bool (← plain (Eval.check (op.apply a b)))
    | .connective op left right => do
      let a ← evaluate host fuel left
      if op.isDecidedBy a then return a else evaluate host fuel right
    | .arithmetic op left right => do
      let a ← evaluate host fuel left
      let b ← evaluate host fuel right
      plain (Eval.check (op.apply a b))
    | .define x value _ => do
      let v ← evaluate host fuel value
      plain (Eval.define x v)
      return v
    | .apply callee arguments => do
      let f ← evaluate host fuel callee
      let vs ← arguments.mapM (evaluate host fuel)
      callWith host (evaluate host fuel) f vs
    | .member target key => do
      let v ← evaluate host fuel target
      match Key.ofExpr? key with
      | some k => plain (Eval.check (v.member k))
      | none =>
        let k ← plain (Eval.check (Key.ofValue (← evaluate host fuel key)))
        plain (Eval.check (v.member k))
    | .lambda params body => plain (Eval.newFunction params body [])
    | .function f _ _ _ => plain (Eval.fail (.onlyCompiled f))

/-- Where so many evaluations are open, the counting computation does what the other one does, and
leaves the count as it was. -/
def Mirrors (depth : Nat) (c : CountingEval α) (p : Eval α) : Prop :=
  ∀ env, c ⟨env, depth⟩ = plain p ⟨env, depth⟩

namespace Mirrors

variable {depth : Nat} {c : CountingEval α} {p : Eval α} {f : α → CountingEval β} {g : α → Eval β}

theorem plain (p : Eval α) : Mirrors depth (CountingEval.plain p) p := fun _ => rfl

theorem pure (a : α) : Mirrors depth (Pure.pure a) (Pure.pure a) := fun _ => rfl

theorem bind (hc : Mirrors depth c p) (hf : ∀ a, Mirrors depth (f a) (g a)) :
    Mirrors depth (c >>= f) (p >>= g) := by
  intro env
  have hrun := hc env
  unfold CountingEval.plain at hrun ⊢
  dsimp only at hrun ⊢
  cases hp : p env with
  | ok a after =>
    rw [hp] at hrun
    rw [bind_of_ok hrun, bind_of_ok hp]
    exact hf a after
  | error e after =>
    rw [hp] at hrun
    rw [bind_of_error hrun, bind_of_error hp]

theorem mapM {γ : Type} {f : γ → CountingEval α} {g : γ → Eval α}
    (hf : ∀ a, Mirrors depth (f a) (g a)) (as : List γ) :
    Mirrors depth (as.mapM f) (as.mapM g) := by
  induction as with
  | nil => exact pure []
  | cons a as ih =>
    rw [List.mapM_cons, List.mapM_cons]
    exact (hf a).bind fun b => ih.bind fun bs => pure (b :: bs)

theorem atDepth_eq (h : Mirrors depth c p) : c.atDepth depth = p := by
  funext env
  rw [atDepth, h env]
  unfold CountingEval.plain
  dsimp only
  cases p env <;> rfl

theorem callWith {host : Host} {run : Expr → CountingEval Value} {run' : Expr → Eval Value}
    (h : ∀ e, Mirrors depth (run e) (run' e)) (f : Value) (vs : List Value) :
    Mirrors depth (CountingEval.callWith host run f vs) (f.callWith host run' vs) := by
  intro env
  have hbodies : (fun body => (run body).atDepth depth) = run' :=
    funext fun body => (h body).atDepth_eq
  rw [CountingEval.callWith, hbodies]

/-- The evaluation that is opened is closed again. -/
theorem counted (hdepth : depth < Expr.maxEvaluations) (h : Mirrors (depth + 1) c p) :
    Mirrors depth (CountingEval.counted c) p := by
  intro env
  have hrun := h env
  unfold CountingEval.counted
  rw [if_neg (Nat.not_le.2 hdepth)]
  dsimp only
  rw [hrun]
  unfold CountingEval.plain
  dsimp only
  cases p env <;> rfl

end Mirrors

/-- The evaluations that are open and the room that is left make up all that may nest. -/
theorem evaluate_mirrors (host : Host) {fuel depth : Nat}
    (hfuel : Expr.maxEvaluations ≤ depth + fuel) (e : Expr) :
    Mirrors depth (evaluate host fuel e)
      (e.evaluateWithin host (Expr.maxEvaluations - depth)) := by
  induction fuel generalizing depth e with
  | zero =>
    rw [Nat.sub_eq_zero_of_le (by omega : Expr.maxEvaluations ≤ depth)]
    exact .plain _
  | succ fuel ih =>
    by_cases hdepth : depth < Expr.maxEvaluations
    · obtain ⟨room, hroom, hless⟩ : ∃ room, Expr.maxEvaluations - depth = room + 1 ∧
          Expr.maxEvaluations - (depth + 1) = room := ⟨_, by omega, rfl⟩
      have hdeeper (e : Expr) :
          Mirrors (depth + 1) (evaluate host fuel e) (e.evaluateWithin host room) := by
        rw [← hless]
        exact ih (by omega) e
      rw [hroom]
      refine .counted hdepth ?_
      cases e with
      | constant value => exact .pure _
      | name x t =>
        refine .bind (.plain _) fun o => ?_
        cases o with
        | some v => exact .pure v
        | none => exact .plain _
      | comparison op left right =>
        exact (hdeeper left).bind fun a => (hdeeper right).bind fun b =>
          .bind (.plain _) fun c => .pure _
      | connective op left right =>
        refine (hdeeper left).bind fun a => ?_
        split
        · exact .pure a
        · exact hdeeper right
      | arithmetic op left right =>
        exact (hdeeper left).bind fun a => (hdeeper right).bind fun b => .plain _
      | define x value t =>
        exact (hdeeper value).bind fun v => .bind (.plain _) fun _ => .pure v
      | apply callee arguments =>
        exact (hdeeper callee).bind fun f => .bind (.mapM hdeeper arguments) fun vs =>
          .callWith hdeeper f vs
      | member target key =>
        refine (hdeeper target).bind fun v => ?_
        cases Key.ofExpr? key with
        | some k => exact .plain _
        | none => exact (hdeeper key).bind fun w => .bind (.plain _) fun k => .plain _
      | lambda params body => exact .plain _
      | function f params body t => exact .plain _
    · rw [Nat.sub_eq_zero_of_le (Nat.not_lt.1 hdepth)]
      exact fun env => if_pos (Nat.not_lt.1 hdepth)

end CountingEval

end Offside
