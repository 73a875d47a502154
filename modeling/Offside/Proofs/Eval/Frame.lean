import Mathlib
import Offside.Proofs.Eval.Counter
import Offside.Proofs.Eval.Matching

namespace Offside

/-- The state that a computation ends in, whether it has failed or not. -/
def finalState {ε σ α : Type} : EStateM.Result ε σ α → σ
  | .ok _ s => s
  | .error _ s => s

namespace Expr

mutual

/-- The names that a tree defines outside of the bodies of functions. -/
def stored : Expr → List String
  | .constant _ | .name _ _ | .lambda _ _ | .function _ _ _ _ => []
  | .comparison _ left right => left.stored ++ right.stored
  | .connective _ left right => left.stored ++ right.stored
  | .arithmetic _ left right => left.stored ++ right.stored
  | .define x value _ => value.stored ++ [x]
  | .apply callee arguments => callee.stored ++ storedInAll arguments
  | .member target key => target.stored ++ key.stored

def storedInAll : List Expr → List String
  | [] => []
  | e :: es => e.stored ++ storedInAll es

end

theorem stored_subset_storedInAll {e : Expr} {es : List Expr} (h : e ∈ es) :
    e.stored ⊆ storedInAll es := by
  induction es with
  | nil => cases h
  | cons e' es ih =>
    rw [storedInAll]
    cases h with
    | head => exact List.subset_append_left _ _
    | tail _ h => exact List.subset_append_of_subset_right _ (ih h)

end Expr

namespace Eval

variable {α β : Type}

/-- The state before a computation and the one after it are related, whether it fails or not. -/
def Leads (R : Environment → Environment → Prop) (p : Eval α) : Prop :=
  ∀ env, R env (finalState (p env))

/-- What may be said of the states before and after computations that define these names. -/
structure Traces (R : List String → Environment → Environment → Prop) : Prop where
  refl (names : List String) (env : Environment) : R names env env
  trans {names : List String} {env between after : Environment} :
    R names env between → R names between after → R names env after
  mono {names more : List String} {env after : Environment} :
    R names env after → names ⊆ more → R more env after
  identity (env : Environment) : R [] env { env with unused := env.unused + 1 }
  native (env : Environment) (reply : Reply) : R [] env (finalState (reply.outcome env))
  define (x : String) (v : Value) (env : Environment) :
    R [x] env { env with bindings := env.bindings.insert x v }
  /-- Whatever is bound in a copy is dropped with it. -/
  copy {names : List String} {env after : Environment} {entries : List (String × Value)} :
    R names { env with bindings := env.bindings.insertAll entries } after →
      R [] env { after with bindings := env.bindings }

namespace Traces

variable {R : List String → Environment → Environment → Prop} (h : Traces R)
  {names more : List String} {p : Eval α} {f : α → Eval β}
include h

theorem leads_mono (hp : Leads (R names) p) (hmore : names ⊆ more) : Leads (R more) p :=
  fun env => h.mono (hp env) hmore

theorem pure (a : α) : Leads (R names) (Pure.pure a) := fun env => h.refl names env

theorem throw (e : Error) : Leads (R names) (MonadExcept.throw e : Eval α) :=
  fun env => h.refl names env

theorem bind (hp : Leads (R names) p) (hf : ∀ a, Leads (R names) (f a)) :
    Leads (R names) (p >>= f) := by
  intro env
  have hfirst := hp env
  cases hrun : p env with
  | ok a between =>
    rw [hrun] at hfirst
    rw [bind_of_ok hrun]
    exact h.trans hfirst (hf a between)
  | error e after =>
    rw [hrun] at hfirst
    rw [bind_of_error hrun]
    exact hfirst

theorem mapM {γ : Type} {f : γ → Eval α} {as : List γ} (hf : ∀ a ∈ as, Leads (R names) (f a)) :
    Leads (R names) (as.mapM f) := by
  induction as with
  | nil => exact h.pure []
  | cons a as ih =>
    rw [List.forall_mem_cons] at hf
    rw [List.mapM_cons]
    exact h.bind hf.1 fun b => h.bind (ih hf.2) fun bs => h.pure (b :: bs)

theorem check (r : Except RuntimeError α) : Leads (R names) (Eval.check r) := by
  cases r with
  | ok a => exact h.pure a
  | error cause => exact h.throw _

theorem newFunction (params : List String) (body : Expr) (bound : List Value) :
    Leads (R names) (Eval.newFunction params body bound) :=
  fun env => h.mono (h.identity env) (List.nil_subset names)

theorem inCopy (entries : List (String × Value)) (hp : Leads (R names) p) :
    Leads (R []) (Eval.inCopy entries p) := by
  intro env
  have hcopy := h.copy (hp { env with bindings := env.bindings.insertAll entries })
  unfold Eval.inCopy
  cases hrun : p { env with bindings := env.bindings.insertAll entries } with
  | ok a after =>
    rw [hrun] at hcopy
    exact hcopy
  | error e after =>
    rw [hrun] at hcopy
    exact hcopy

/-- A call defines no name for its caller. -/
theorem callWithin {host : Host} {run : Expr → Eval Value}
    (hrun : ∀ e, ∃ names, Leads (R names) (run e)) (stack : Nat) (v : Value)
    (arguments : List Value) : Leads (R []) (v.callWithin host run stack arguments) := by
  induction stack, v, arguments using Value.call_induct with
  | overfull stack i params body bound arguments hmany =>
    rw [Value.callWithin_overfull host run stack i body hmany]
    exact h.throw _
  | function stack i params body bound arguments missing hmissing ih =>
    rw [Value.callWithin_function host run stack i body hmissing]
    split
    · exact h.newFunction _ _ _
    · next hmany =>
      -- If no argument was missing, none is dropped and the stack gets less instead.
      obtain ⟨names, hbody⟩ := hrun body
      refine h.bind (h.inCopy _ hbody) fun result => Value.passOn_cases (fun _ => h.pure result)
        (h.throw _) fun left hleft hless hpos => ih _ _ _ ?_
      rw [List.length_drop] at hpos ⊢
      omega
  | native stack i name arguments =>
    rw [Value.callWithin_native]
    exact fun env => h.native env _
  | other stack v arguments hkind =>
    rw [Value.callWithin_of_kind host run stack hkind]
    exact h.throw _

/-- An evaluation defines no other names than its tree does outside of functions. -/
theorem evaluateWithin (host : Host) (room : Nat) (e : Expr) :
    Leads (R e.stored) (e.evaluateWithin host room) := by
  induction room generalizing e with
  | zero => exact h.throw _
  | succ room ih =>
    cases e with
    | constant value => exact h.pure _
    | name x t =>
      have hfind : Leads (R []) (Eval.find? x) := fun env => h.refl [] env
      refine h.bind hfind fun o => ?_
      cases o with
      | some v => exact h.pure v
      | none => exact h.throw _
    | comparison op left right =>
      have hleft := h.leads_mono (ih left) (List.subset_append_left _ right.stored)
      have hright := h.leads_mono (ih right) (List.subset_append_right left.stored _)
      exact h.bind hleft fun a => h.bind hright fun b => h.bind (h.check _) fun c => h.pure _
    | connective op left right =>
      have hleft := h.leads_mono (ih left) (List.subset_append_left _ right.stored)
      have hright := h.leads_mono (ih right) (List.subset_append_right left.stored _)
      refine h.bind hleft fun a => ?_
      split
      · exact h.pure a
      · exact hright
    | arithmetic op left right =>
      have hleft := h.leads_mono (ih left) (List.subset_append_left _ right.stored)
      have hright := h.leads_mono (ih right) (List.subset_append_right left.stored _)
      exact h.bind hleft fun a => h.bind hright fun b => h.check _
    | define x value t =>
      have hvalue := h.leads_mono (ih value) (List.subset_append_left _ [x])
      have hx (v : Value) : Leads (R [x]) (Eval.define x v) := h.define x v
      refine h.bind hvalue fun v => h.bind ?_ fun _ => h.pure v
      exact h.leads_mono (hx v) (List.subset_append_right value.stored _)
    | apply callee arguments =>
      have hcallee := h.leads_mono (ih callee)
        (List.subset_append_left _ (Expr.storedInAll arguments))
      refine h.bind hcallee fun f => h.bind (h.mapM fun a ha => ?_) fun vs => ?_
      · exact h.leads_mono (ih a)
          (List.subset_append_of_subset_right _ (Expr.stored_subset_storedInAll ha))
      · exact h.leads_mono (h.callWithin (fun body => ⟨_, ih body⟩) host.stack f vs)
          (List.nil_subset _)
    | member target key =>
      have htarget := h.leads_mono (ih target) (List.subset_append_left _ key.stored)
      have hkey := h.leads_mono (ih key) (List.subset_append_right target.stored _)
      refine h.bind htarget fun v => ?_
      cases Key.ofExpr? key with
      | some k => exact h.check _
      | none => exact h.bind hkey fun w => h.bind (h.check _) fun k => h.check _
    | lambda params body => exact h.newFunction _ _ _
    | function f params body t => exact h.throw _

end Traces

/-- The computation binds no other names than these, whether it fails or not. -/
def Binds (names : List String) (p : Eval α) : Prop :=
  ∀ env x, x ∉ names → (finalState (p env)).bindings.find? x = env.bindings.find? x

theorem traces_bindings : Traces fun names env after =>
    ∀ x, x ∉ names → after.bindings.find? x = env.bindings.find? x where
  refl _ _ _ _ := rfl
  trans hfirst hsecond x hx := (hsecond x hx).trans (hfirst x hx)
  mono h hmore x hx := h x fun hmem => hx (hmore hmem)
  identity _ _ _ := rfl
  native _ reply _ _ := by
    unfold Reply.outcome
    cases reply.result <;> rfl
  define _ v env _ hy := env.bindings.find?_insert_of_ne v (List.ne_of_not_mem_cons hy)
  copy _ _ _ := rfl

end Eval

open Eval

/-- An evaluation binds no other names than those that are defined outside of functions. -/
theorem Expr.evaluateWithin_binds (host : Host) (room : Nat) (e : Expr) :
    Binds e.stored (e.evaluateWithin host room) :=
  traces_bindings.evaluateWithin host room e

/-- A call binds no name for its caller. -/
theorem Value.callWithin_binds (host : Host) (room stack : Nat) (v : Value)
    (arguments : List Value) :
    Binds [] (v.callWithin host (Expr.evaluateWithin host room) stack arguments) :=
  traces_bindings.callWithin (fun e => ⟨_, e.evaluateWithin_binds host room⟩) stack v arguments

namespace CountingEval

variable {α : Type}

theorem finalState_plain (p : Eval α) (s : CountingEnvironment) :
    finalState (plain p s) = { s with env := finalState (p s.env) } := by
  unfold plain
  cases p s.env <;> rfl

/-- However an evaluation ends, as many evaluations are open as before, and a name is bound as before
unless the tree defines it outside of the bodies of functions. So is every name after a call of any
function. An evaluator that counts does nothing else than one that is given the room that is left,
and the recursion is never cut off. -/
theorem evaluate_frame (host : Host) (spare : Nat) (e : Expr) (s : CountingEnvironment) :
    let fuel := Expr.maxEvaluations + spare
    let t := finalState (evaluate host fuel e s)
    evaluate host fuel e s = plain (e.evaluateWithin host (Expr.maxEvaluations - s.depth)) s ∧
      t.depth = s.depth ∧
      (∀ x, x ∉ e.stored → t.env.bindings.find? x = s.env.bindings.find? x) ∧
      ∀ f vs u,
        let w := finalState (callWith host (evaluate host fuel) f vs u)
        w.depth = u.depth ∧ ∀ x, w.env.bindings.find? x = u.env.bindings.find? x := by
  intro fuel t
  have hfuel (depth : Nat) : Expr.maxEvaluations ≤ depth + fuel := by omega
  have hrun : evaluate host fuel e s = _ := evaluate_mirrors host (hfuel s.depth) e s.env
  have ht : t = { s with env := finalState (e.evaluateWithin host _ s.env) } :=
    (congrArg finalState hrun).trans (finalState_plain _ s)
  refine ⟨hrun, ?_, fun x hx => ?_, fun f vs u => ?_⟩
  · rw [ht]
  · rw [ht]
    exact e.evaluateWithin_binds host _ s.env x hx
  · have hcall : callWith host (evaluate host fuel) f vs u = plain (f.callWith host _ vs) u :=
      Mirrors.callWith (evaluate_mirrors host (hfuel u.depth)) f vs u.env
    intro w
    have hw : w = _ := (congrArg finalState hcall).trans (finalState_plain _ u)
    rw [hw]
    exact ⟨rfl, fun x => f.callWithin_binds host _ host.stack vs u.env x List.not_mem_nil⟩

end CountingEval

end Offside
