import Mathlib
import Offside.Proofs.Eval.Adequacy
import Offside.Proofs.Eval.Kinds
import Offside.Proofs.Eval.Natives
import Offside.Proofs.Expr.Nodes

namespace Offside

/-- An anonymous function has at least one parameter. -/
def Expr.Parametrized : Expr → Prop
  | .lambda params _ => params ≠ []
  | _ => True

/-- Every function in the value, or in its members or bound arguments, has parameters and waits for
at least one of them. -/
inductive Value.WellFormed : Value → Prop
  | int (n : Int64) : WellFormed (.int n)
  | float (x : Float) : WellFormed (.float x)
  | string (s : String) : WellFormed (.string s)
  | bool (b : Bool) : WellFormed (.bool b)
  | function {id : Nat} {params : List String} {body : Expr} {bound : List Value}
      (hparams : params ≠ []) (hwaits : bound.length < params.length)
      (hbody : body.All Expr.Parametrized) (hbound : ∀ v ∈ bound, v.WellFormed) :
      WellFormed (.function id params body bound)
  | native (id : Nat) (name : String) : WellFormed (.native id name)
  | record {id : Nat} {members : List (String × Value)}
      (hmembers : ∀ m ∈ members, m.2.WellFormed) : WellFormed (.record id members)

/-- The values that are bound and those that the host keeps are well formed. -/
structure Environment.WellFormed (env : Environment) : Prop where
  bindings : ∀ x v, env.bindings.find? x = some v → v.WellFormed
  memory : ∀ v ∈ env.memory, v.WellFormed

/-- Natives give well-formed values for well-formed ones. -/
abbrev Host.WellFormed (host : Host) : Prop := host.Preserves Value.WellFormed

/-- The process goes on, in a well-formed environment, with a value that has `P` if it has one. -/
def Outcome.Keeps {α : Type} (P : α → Prop) : Outcome α → Prop
  | .ok a env => P a ∧ env.WellFormed
  | .error cause env => cause ≠ .aborted ∧ env.WellFormed

abbrev Outcome.WellFormed (r : Outcome Value) : Prop := r.Keeps Value.WellFormed

theorem Value.HasTy.wellFormed {v : Value} {t : Ty} (h : v.HasTy t) : v.WellFormed := by
  cases h with
  | int n | intNumber n => exact .int n
  | float x | floatNumber x => exact .float x
  | string s => exact .string s
  | bool b => exact .bool b

open Eval

namespace Environment

theorem WellFormed.insert {env : Environment} (h : env.WellFormed) (x : String) {v : Value}
    (hv : v.WellFormed) :
    ({ env with bindings := env.bindings.insert x v } : Environment).WellFormed := by
  refine ⟨fun y w hy => ?_, h.memory⟩
  rw [Bindings.find?_insert] at hy
  split at hy
  · cases hy
    exact hv
  · exact h.bindings y w hy

theorem WellFormed.insertAll {env : Environment} (h : env.WellFormed)
    {entries : List (String × Value)} (hentries : ∀ e ∈ entries, e.2.WellFormed) :
    ({ env with bindings := env.bindings.insertAll entries } : Environment).WellFormed := by
  unfold Bindings.insertAll
  induction entries generalizing env with
  | nil => exact h
  | cons e entries ih =>
    rw [List.forall_mem_cons] at hentries
    exact ih (h.insert e.1 hentries.1) hentries.2

theorem WellFormed.withArguments {env : Environment} (h : env.WellFormed) (params : List String)
    {arguments : List Value} (harguments : ∀ v ∈ arguments, v.WellFormed) :
    (env.withArguments params arguments).WellFormed :=
  h.insertAll fun e he => harguments e.2 (List.of_mem_zip he).2

theorem WellFormed.withBindingsOf {env after : Environment} (hafter : after.WellFormed)
    (henv : env.WellFormed) : (after.withBindingsOf env).WellFormed :=
  ⟨henv.bindings, hafter.memory⟩

end Environment

namespace Arithmetic

theorem wellFormed_apply {op : Arithmetic} {a b v : Value} (h : op.apply a b = .ok v) :
    v.WellFormed := by
  obtain hty | ⟨-, z, rfl⟩ := hasTy_apply h
  · exact hty.wellFormed
  · exact .float z

end Arithmetic

theorem Value.WellFormed.member {v w : Value} {k : Key} (hv : v.WellFormed)
    (h : v.member k = .ok w) : w.WellFormed := by
  unfold Value.member at h
  split at h
  · next members key =>
    split at h
    · next u hu =>
      cases h
      cases hv with
      | record hmembers =>
        obtain ⟨before, after, rfl, -⟩ := List.lookup_eq_some_iff.1 hu
        exact hmembers (k.text, _) (by simp)
    · cases h
  · split at h
    · cases h
      exact .string _
    · cases h
  · cases h
    exact .int _
  · cases h
  · cases h

namespace Eval

variable {α β : Type} {P : α → Prop} {Q : β → Prop}

/-- In well-formed environments the computation keeps things well formed. -/
def Keeps (P : α → Prop) (p : Eval α) : Prop := ∀ env, env.WellFormed → Outcome.Keeps P (p env)

theorem Keeps.pure {a : α} (ha : P a) : Keeps P (Pure.pure a) := fun _ henv => ⟨ha, henv⟩

theorem Keeps.fail (cause : RuntimeError) : Keeps P (Eval.fail cause : Eval α) :=
  fun _ henv => ⟨nofun, henv⟩

theorem Keeps.bind {p : Eval α} {f : α → Eval β} (hp : Keeps P p) (hf : ∀ a, P a → Keeps Q (f a)) :
    Keeps Q (p >>= f) := by
  intro env henv
  have hfirst := hp env henv
  cases hrun : p env with
  | ok a between =>
    rw [hrun] at hfirst
    rw [bind_of_ok hrun]
    exact hf a hfirst.1 between hfirst.2
  | error cause after =>
    rw [hrun] at hfirst
    rw [bind_of_error hrun]
    exact hfirst

theorem Keeps.check {r : Except RuntimeError α} (hr : ∀ a, r = .ok a → P a) :
    Keeps P (Eval.check r) := by
  cases r with
  | ok a => exact .pure (hr a rfl)
  | error cause => exact .fail cause

theorem Keeps.mapM {γ : Type} {f : γ → Eval α} {as : List γ} (hf : ∀ a ∈ as, Keeps P (f a)) :
    Keeps (fun bs => bs.length = as.length ∧ ∀ b ∈ bs, P b) (as.mapM f) := by
  induction as with
  | nil => exact .pure ⟨rfl, List.forall_mem_nil _⟩
  | cons a as ih =>
    rw [List.forall_mem_cons] at hf
    rw [List.mapM_cons]
    refine hf.1.bind fun b hb => (ih hf.2).bind fun bs hbs => .pure ⟨?_, ?_⟩
    · rw [List.length_cons, List.length_cons, hbs.1]
    · exact List.forall_mem_cons.2 ⟨hb, hbs.2⟩

theorem Keeps.newFunction {params : List String} {body : Expr} {bound : List Value}
    (hwaits : bound.length < params.length) (hbody : body.All Expr.Parametrized)
    (hbound : ∀ v ∈ bound, v.WellFormed) :
    Keeps Value.WellFormed (Eval.newFunction params body bound) := by
  have hparams : params ≠ [] := List.ne_nil_of_length_pos (Nat.zero_lt_of_lt hwaits)
  exact fun env henv => ⟨.function hparams hwaits hbody hbound, henv.bindings, henv.memory⟩

theorem Keeps.inCopy {p : Eval α} (hp : Keeps P p) (params : List String) {arguments : List Value}
    (harguments : ∀ v ∈ arguments, v.WellFormed) :
    Keeps P (Eval.inCopy (params.zip arguments) p) := by
  intro env henv
  have hcopy := hp _ (henv.withArguments params harguments)
  unfold Environment.withArguments at hcopy
  unfold Eval.inCopy
  cases hrun : p { env with bindings := env.bindings.insertAll (params.zip arguments) } with
  | ok a after =>
    rw [hrun] at hcopy
    exact ⟨hcopy.1, hcopy.2.withBindingsOf henv⟩
  | error cause after =>
    rw [hrun] at hcopy
    exact ⟨hcopy.1, hcopy.2.withBindingsOf henv⟩

theorem Keeps.ask {host : Host} (hhost : host.WellFormed) (id : Nat) (name : String)
    {arguments : List Value} (harguments : ∀ v ∈ arguments, v.WellFormed) :
    Keeps Value.WellFormed (Eval.ask host id name arguments) := by
  intro env henv
  obtain ⟨hmemory, hresult⟩ := hhost ⟨id, name, arguments, env.memory, env.unused⟩ harguments
    henv.memory
  unfold Eval.ask Reply.outcome
  cases hreply : (host.call ⟨id, name, arguments, env.memory, env.unused⟩).result with
  | ok v => exact ⟨hresult v hreply, henv.bindings, hmemory⟩
  | error cause => exact ⟨nofun, henv.bindings, hmemory⟩

end Eval

section

variable {host : Host} (hhost : host.WellFormed) {run : Expr → Eval Value}
  (hrun : ∀ e, e.All Expr.Parametrized → Keeps Value.WellFormed (run e))
include hhost hrun

/-- A function that waits for arguments has less to pass on to its result than it has been given, so
calls of well-formed values take nothing of the stack. -/
theorem Value.WellFormed.keeps_callWithin {v : Value} (hv : v.WellFormed) (stack : Nat)
    {arguments : List Value} (harguments : ∀ a ∈ arguments, a.WellFormed) :
    Keeps Value.WellFormed (v.callWithin host run stack arguments) := by
  induction hlength : arguments.length using Nat.strongRecOn generalizing v arguments with
  | ind length ih =>
    cases hv with
    | @function id params body bound hparams hwaits hbody hbound =>
      obtain ⟨missing, hmissing⟩ := Nat.exists_eq_add_of_le (Nat.le_of_lt hwaits)
      rw [callWithin_function host run stack id body hmissing.symm]
      split
      · refine .newFunction ?_ hbody (List.forall_mem_append.2 ⟨hbound, harguments⟩)
        rw [List.length_append]
        omega
      · have htaken : ∀ w ∈ bound ++ arguments.take missing, w.WellFormed :=
          List.forall_mem_append.2
            ⟨hbound, fun w hw => harguments w (List.mem_of_mem_take hw)⟩
        have hdropped : ∀ w ∈ arguments.drop missing, w.WellFormed :=
          fun w hw => harguments w (List.mem_of_mem_drop hw)
        refine ((hrun body hbody).inCopy params htaken).bind fun w hw => ?_
        have hless := List.length_drop (i := missing) (l := arguments)
        generalize arguments.drop missing = rest at hdropped hless
        unfold passOn
        cases rest with
        | nil => exact .pure hw
        | cons next others =>
          dsimp only
          rw [if_neg (by omega)]
          rw [List.length_cons] at hless
          exact ih _ (by rw [List.length_cons]; omega) hw hdropped rfl
    | native id name =>
      rw [callWithin_native]
      exact .ask hhost id name harguments
    | _ =>
      rw [callWithin_of_kind host run stack (by simp [kind])]
      exact .fail _

theorem Expr.keeps_finish {e : Expr} (he : e.All Parametrized) {vs : List Value}
    (hcount : vs.length = e.parts.length) (hvs : ∀ v ∈ vs, v.WellFormed) :
    Keeps Value.WellFormed (e.finish host run vs) := by
  cases e with
  | constant value =>
    obtain rfl := List.eq_nil_of_length_eq_zero hcount
    exact .pure (Value.hasTy_ofLiteral value).wellFormed
  | name x t =>
    obtain rfl := List.eq_nil_of_length_eq_zero hcount
    intro env henv
    have hfind : find? x env = .ok (env.bindings.find? x) env := rfl
    change Outcome.Keeps _ ((find? x >>= _) env)
    rw [bind_of_ok hfind]
    cases hx : env.bindings.find? x with
    | some v => exact ⟨henv.bindings x v hx, henv⟩
    | none => exact ⟨nofun, henv⟩
  | comparison op left right =>
    obtain ⟨a, b, rfl⟩ := List.length_eq_two.1 hcount
    refine .check fun v hv => ?_
    cases hc : op.apply a b with
    | ok c =>
      rw [hc] at hv
      cases hv
      exact .bool c
    | error cause =>
      rw [hc] at hv
      cases hv
  | connective op left right =>
    obtain ⟨a, rfl⟩ := List.length_eq_one_iff.1 hcount
    have hparts := all_operation.1 (show (operation (.connective op) left right).All _ from he)
    rw [finish]
    split
    · exact .pure (List.forall_mem_singleton.1 hvs)
    · exact hrun right hparts.2.2
  | arithmetic op left right =>
    obtain ⟨a, b, rfl⟩ := List.length_eq_two.1 hcount
    exact .check fun v => Arithmetic.wellFormed_apply
  | define x value t =>
    obtain ⟨v, rfl⟩ := List.length_eq_one_iff.1 hcount
    have hv : v.WellFormed := List.forall_mem_singleton.1 hvs
    exact fun env henv => ⟨hv, henv.insert x hv⟩
  | apply callee arguments =>
    obtain ⟨f, vs, rfl⟩ := List.exists_cons_of_length_eq_add_one hcount
    rw [List.forall_mem_cons] at hvs
    exact hvs.1.keeps_callWithin hhost hrun host.stack hvs.2
  | member target key =>
    cases hkey : Key.ofExpr? key with
    | some k =>
      simp only [parts, hkey, Option.isSome_some, if_true] at hcount
      obtain ⟨v, rfl⟩ := List.length_eq_one_iff.1 hcount
      simp only [finish, hkey]
      exact .check fun w => (List.forall_mem_singleton.1 hvs).member
    | none =>
      simp only [parts, hkey, Option.isSome_none, Bool.false_eq_true, if_false] at hcount
      obtain ⟨v, w, rfl⟩ := List.length_eq_two.1 hcount
      simp only [finish, hkey]
      refine .check fun u hu => ?_
      cases hw : Key.ofValue w with
      | ok k =>
        rw [hw] at hu
        exact (hvs v List.mem_cons_self).member hu
      | error cause =>
        rw [hw] at hu
        cases hu
  | lambda params body =>
    obtain rfl := List.eq_nil_of_length_eq_zero hcount
    have hparts := all_lambda.1 he
    exact .newFunction (List.length_pos_iff.2 hparts.1) hparts.2 (List.forall_mem_nil _)
  | function f params body t =>
    obtain rfl := List.eq_nil_of_length_eq_zero hcount
    exact .fail _

end

namespace Expr

theorem All.parts {P : Expr → Prop} {e : Expr} (he : e.All P) : ∀ p ∈ e.parts, p.All P := by
  cases e with
  | comparison op left right =>
    obtain ⟨-, hboth⟩ := all_operation.1 (show (operation (.comparison op) left right).All P from he)
    simpa [Expr.parts] using hboth
  | connective op left right =>
    obtain ⟨-, hboth⟩ := all_operation.1 (show (operation (.connective op) left right).All P from he)
    simpa [Expr.parts] using hboth.1
  | arithmetic op left right =>
    obtain ⟨-, hboth⟩ := all_operation.1 (show (operation (.arithmetic op) left right).All P from he)
    simpa [Expr.parts] using hboth
  | define x value t => simpa [Expr.parts] using (all_define.1 he).2
  | apply callee arguments => exact List.forall_mem_cons.2 (all_apply.1 he).2
  | member target key =>
    obtain ⟨-, htarget, hkey⟩ := all_member.1 he
    intro p hp
    rw [Expr.parts] at hp
    split at hp
    · rwa [List.mem_singleton.1 hp]
    · rcases List.mem_pair.1 hp with rfl | rfl
      · exact htarget
      · exact hkey
  | _ => exact List.forall_mem_nil _

theorem keeps_evaluateWithin {host : Host} (hhost : host.WellFormed) (room : Nat) {e : Expr}
    (he : e.All Parametrized) : Keeps Value.WellFormed (e.evaluateWithin host room) := by
  induction room generalizing e with
  | zero => exact .fail _
  | succ room ih =>
    rw [evaluateWithin_succ]
    refine (Keeps.mapM fun p hp => ih (he.parts p hp)).bind fun vs hvs => ?_
    exact keeps_finish hhost (fun _ => ih) he hvs.1 hvs.2

/-- In any room, the evaluation of an expression whose anonymous functions have parameters, in an
environment of well-formed values, has one outcome by the rules, which do not bound calls and do not
let a function be given more than it waits for. It is the one that is computed, and its value and
its environment are well formed. -/
theorem evaluateWithin_wellFormed {host : Host} (hhost : host.WellFormed) {e : Expr}
    (he : e.All Parametrized) {env : Environment} (henv : env.WellFormed) (room : Nat) :
    Evaluates host.call room e env (e.evaluateWithin host room env) ∧
      (∀ r, Evaluates host.call room e env r → r = e.evaluateWithin host room env) ∧
      Outcome.WellFormed (e.evaluateWithin host room env) := by
  have hgood := keeps_evaluateWithin hhost room he env henv
  have hends : ¬ Outcome.Aborts (e.evaluateWithin host room env) := by
    generalize e.evaluateWithin host room env = r at hgood
    cases r with
    | ok v after => exact id
    | error cause after => exact hgood.1
  have hrules := (e.follows_evaluateWithin host room env).resolve_left hends
  exact ⟨hrules, fun r hr => Evaluates.unique room _ _ _ _ hr hrules, hgood⟩

set_option maxRecDepth 4000 in
theorem evaluateWithin_wellFormed_surplus :
    let e := Expr.apply (.lambda ["f"] (.name "f" none)) [.name "k" none, .constant (.int 2)]
    let waiting := Value.function 0 ["a", "b"] (.name "b" none) [.int 1]
    let env : Environment := { bindings := Bindings.empty.insert "k" waiting, unused := 1 }
    let result : Outcome Value := .ok (.int 2) { env with unused := 2 }
    Host.sample.WellFormed ∧ e.All Parametrized ∧ env.WellFormed ∧
      Evaluates Host.sample.call maxEvaluations e env result ∧
      (∀ r, Evaluates Host.sample.call maxEvaluations e env r → r = result) ∧
      Outcome.WellFormed result := by
  intro e waiting env result
  have hhost : Host.sample.WellFormed := Host.sample_preserves .int .float .string
  have he : e.All Parametrized := by simp [e, Parametrized]
  have hwaiting : waiting.WellFormed :=
    .function (by decide) (by decide) (all_name.2 True.intro) (by simp [Value.WellFormed.int])
  have hempty : Environment.empty.WellFormed := ⟨nofun, nofun⟩
  have henv : env.WellFormed := ⟨(hempty.insert "k" hwaiting).bindings, nofun⟩
  have hvalue : e.evaluateWithin Host.sample maxEvaluations env = result := by
    unfold e env result waiting
    cbv
  have hmain := evaluateWithin_wellFormed hhost he henv maxEvaluations
  rw [hvalue] at hmain
  exact ⟨hhost, he, henv, hmain⟩

end Expr

end Offside
