import Mathlib
import Offside.Proofs.Eval.Call

namespace Offside

open Eval Filter

/-- The same natives in a process with another stack. -/
def Host.withStack (host : Host) (stack : Nat) : Host := { host with stack }

/-- The process dies. -/
def Outcome.Aborts {α : Type} : Outcome α → Prop
  | .ok _ _ => False
  | .error cause _ => cause = .aborted

namespace Eval

variable {α β : Type}

/-- The outcome follows from the rules, unless the process dies. -/
def Follows (rules : Environment → Outcome α → Prop) (p : Eval α) : Prop :=
  ∀ env, Outcome.Aborts (p env) ∨ rules env (p env)

/-- The outcome where there is stack enough. -/
def ComesTo (p : (stack : Nat) → Eval α) (env : Environment) (r : Outcome α) : Prop :=
  ¬ r.Aborts ∧ ∀ᶠ stack in atTop, p stack env = r

namespace ComesTo

variable {p : Nat → Eval α} {f : Nat → α → Eval β} {env between after : Environment}

theorem const {p : Eval α} (h : ¬ Outcome.Aborts (p env)) : ComesTo (fun _ => p) env (p env) :=
  ⟨h, .of_forall fun _ => rfl⟩

theorem bind {a : α} {r : Outcome β} (hp : ComesTo p env (.ok a between))
    (hf : ComesTo (fun stack => f stack a) between r) :
    ComesTo (fun stack => p stack >>= f stack) env r := by
  refine ⟨hf.1, ?_⟩
  filter_upwards [hp.2, hf.2] with stack hfirst hrest
  rw [bind_of_ok hfirst, hrest]

theorem bind_error {cause : Error} (hp : ComesTo p env (.error cause after)) :
    ComesTo (fun stack => p stack >>= f stack) env (.error cause after) := by
  refine ⟨hp.1, ?_⟩
  filter_upwards [hp.2] with stack hfirst
  exact bind_of_error hfirst

end ComesTo

end Eval

theorem not_aborts_check (r : Except RuntimeError Value) (env : Environment) :
    ¬ Outcome.Aborts ((check r : Eval Value) env) := by
  cases r with
  | ok v => exact id
  | error cause => rintro ⟨⟩

theorem Reply.not_aborts (reply : Reply) (env : Environment) : ¬ (reply.outcome env).Aborts := by
  unfold Reply.outcome
  cases reply.result with
  | ok v => exact id
  | error cause => rintro ⟨⟩

variable {host : Host} {run : Expr → Environment → Outcome Value → Prop}

section

variable {f : Expr → Eval Value} (h : ∀ e, Follows (run e) (f e))
include h

theorem follows_mapM (es : List Expr) : Follows (InOrder run es) (es.mapM f) := by
  intro env
  induction es generalizing env with
  | nil => exact .inr .nil
  | cons e es ih =>
    have hfirst := h e env
    rw [List.mapM_cons]
    cases hf : f e env with
    | error cause after =>
      rw [hf] at hfirst
      rw [bind_of_error hf]
      exact hfirst.imp id .first
    | ok v between =>
      rw [hf] at hfirst
      have hv : run e env (.ok v between) := hfirst.resolve_left id
      have hothers := ih between
      rw [bind_of_ok hf]
      cases hes : es.mapM f between with
      | error cause after =>
        rw [hes] at hothers
        rw [bind_of_error hes]
        exact hothers.imp id (.later hv)
      | ok vs after =>
        rw [hes] at hothers
        rw [bind_of_ok hes]
        exact .inr (.cons hv (hothers.resolve_left id))

theorem follows_callWithin (host : Host) (stack : Nat) (v : Value) (arguments : List Value) :
    Follows (Calls host.call run v arguments) (v.callWithin host f stack arguments) := by
  induction stack, v, arguments using Value.call_induct with
  | overfull stack i params body bound arguments hmany =>
    intro env
    rw [Value.callWithin_overfull host f stack i body hmany arguments]
    exact .inl rfl
  | function stack i params body bound arguments missing hmissing ih =>
    intro env
    rw [Value.callWithin_function host f stack i body hmissing arguments]
    split
    · next hfew => exact .inr (.waits hmissing hfew)
    · next hmany =>
      have henough := Nat.not_lt.1 hmany
      have hbody := h body (env.withArguments params (bound ++ arguments.take missing))
      cases hf : f body (env.withArguments params (bound ++ arguments.take missing)) with
      | error cause after =>
        rw [hf] at hbody
        rw [bind_of_error (Value.inCopy_of_error hf)]
        exact hbody.imp id fun hbody => .fails ⟨hmissing, henough, hbody⟩
      | ok w after =>
        rw [hf] at hbody
        rw [bind_of_ok (Value.inCopy_of_ok hf)]
        have henters : Enters run params body bound arguments env missing (.ok w after) :=
          ⟨hmissing, henough, hbody.resolve_left id⟩
        have hlength := List.length_drop (i := missing) (l := arguments)
        refine Value.passOn_cases (Q := fun p => Outcome.Aborts (p (after.withBindingsOf env)) ∨
          Calls host.call run _ arguments env (p (after.withBindingsOf env)))
          (fun hnone => .inr (.returns henters (by omega))) (.inl rfl)
          fun left hleft hless hpos => ?_
        refine (ih left w _ ?_ (after.withBindingsOf env)).imp id (.passesOn henters (by omega))
        omega
  | native stack i name arguments =>
    intro env
    rw [Value.callWithin_native]
    exact .inr .native
  | other stack v arguments hkind =>
    intro env
    rw [Value.callWithin_of_kind host f stack hkind]
    exact .inr (.notFunction hkind)

theorem follows_finish (host : Host) (e : Expr) (vs : List Value) :
    Follows (Finishes host.call run e vs) (e.finish host f vs) := by
  intro env
  unfold Expr.finish
  split
  · exact .inr .constant
  · next x t =>
    have hfind : find? x env = .ok (env.bindings.find? x) env := rfl
    rw [bind_of_ok hfind]
    cases hx : env.bindings.find? x with
    | some v => exact .inr (.name hx)
    | none => exact .inr (.undefined hx)
  · exact .inr .comparison
  · next op left right a =>
    cases ha : op.isDecidedBy a with
    | true => exact .inr (.decided ha)
    | false => exact (h right env).imp id (.undecided ha)
  · exact .inr .arithmetic
  · exact .inr .define
  · exact (follows_callWithin h host host.stack _ _ env).imp id .apply
  · next target key v keys =>
    match hkey : Key.ofExpr? key, keys with
    | some k, [] => exact .inr (.member hkey)
    | none, [w] => exact .inr (.memberAt hkey)
    | some k, _ :: _ => exact .inl rfl
    | none, [] => exact .inl rfl
    | none, _ :: _ :: _ => exact .inl rfl
  · exact .inr .lambda
  · exact .inr .function
  · exact .inl rfl

end

/-- What an evaluation comes to follows from the rules, unless the process dies. -/
theorem Expr.follows_evaluateWithin (host : Host) (room : Nat) (e : Expr) :
    Follows (Evaluates host.call room e) (e.evaluateWithin host room) := by
  induction room generalizing e with
  | zero => exact fun _ => .inr rfl
  | succ room ih =>
    intro env
    have hparts := follows_mapM ih e.parts env
    rw [evaluateWithin_succ]
    cases hvs : e.parts.mapM (evaluateWithin host room) env with
    | error cause after =>
      rw [hvs] at hparts
      rw [bind_of_error hvs]
      exact hparts.imp id .part
    | ok vs between =>
      rw [hvs] at hparts
      rw [bind_of_ok hvs]
      exact (follows_finish ih host e vs between).imp id (.whole (hparts.resolve_left id))

section

variable {f : Nat → Expr → Eval Value}
  (h : ∀ e env r, run e env r → ComesTo (fun stack => f stack e) env r)
include h

theorem InOrder.comesTo {es : List Expr} {env : Environment} {r : Outcome (List Value)}
    (hin : InOrder run es env r) : ComesTo (fun stack => es.mapM (f stack)) env r := by
  induction hin with
  | nil => exact .const id
  | cons hfirst _ ih =>
    simp only [List.mapM_cons]
    exact .bind (h _ _ _ hfirst) (.bind ih (.const id))
  | first hfirst =>
    simp only [List.mapM_cons]
    exact .bind_error (h _ _ _ hfirst)
  | later hfirst _ ih =>
    simp only [List.mapM_cons]
    exact .bind (h _ _ _ hfirst) (.bind_error ih)

/-- Each call in a row takes a piece of the stack, so a call with a piece less comes to the same. -/
theorem Calls.comesTo {v : Value} {arguments : List Value} {env : Environment} {r : Outcome Value}
    (hcalls : Calls host.call run v arguments env r) :
    ComesTo (fun stack => v.callWith (host.withStack stack) (f stack) arguments) env r := by
  -- The calls in a row leave `less` of the stack, whatever it is.
  have hrow : ¬ r.Aborts ∧ ∃ less, ∀ᶠ stack in atTop, ∀ left, less ≤ left →
      v.callWithin (host.withStack stack) (f stack) left arguments env = r := by
    induction hcalls with
    | waits hmissing hfew =>
      refine ⟨id, 0, .of_forall fun stack left _ => ?_⟩
      rw [Value.callWithin_function _ _ _ _ _ hmissing, if_pos hfew]
    | fails henters =>
      have hbody := h _ _ _ henters.body
      refine ⟨hbody.1, 0, ?_⟩
      filter_upwards [hbody.2] with stack hstack left _
      rw [Value.callWithin_function _ _ _ _ _ henters.missing_eq,
        if_neg (Nat.not_lt.2 henters.enough), bind_of_error (Value.inCopy_of_error hstack)]
    | returns henters hall =>
      have hbody := h _ _ _ henters.body
      refine ⟨id, 0, ?_⟩
      filter_upwards [hbody.2] with stack hstack left _
      rw [Value.callWithin_function _ _ _ _ _ henters.missing_eq,
        if_neg (Nat.not_lt.2 henters.enough), bind_of_ok (Value.inCopy_of_ok hstack),
        List.drop_of_length_le hall.le]
      rfl
    | @passesOn id missing params body bound arguments env after w r henters hmany hrest ih =>
      obtain ⟨hr, less, hless⟩ := ih
      have hbody := h _ _ _ henters.body
      refine ⟨hr, less + 1, ?_⟩
      filter_upwards [hbody.2, hless] with stack hstack hless left hleft
      obtain ⟨more, rfl⟩ := Nat.exists_eq_add_of_le hleft
      rw [Value.callWithin_function _ _ _ _ _ henters.missing_eq,
        if_neg (Nat.not_lt.2 henters.enough), bind_of_ok (Value.inCopy_of_ok hstack),
        Nat.add_right_comm, Value.passOn_of_pos]
      · refine hless _ ?_
        split <;> omega
      · rw [List.length_drop]
        omega
    | native =>
      refine ⟨Reply.not_aborts _ _, 0, .of_forall fun stack left _ => ?_⟩
      rw [Value.callWithin_native]
      rfl
    | notFunction hkind =>
      refine ⟨by rintro ⟨⟩, 0, .of_forall fun stack left _ => ?_⟩
      rw [Value.callWithin_of_kind _ _ _ hkind]
      rfl
  obtain ⟨hr, less, hless⟩ := hrow
  refine ⟨hr, ?_⟩
  filter_upwards [hless, eventually_ge_atTop less] with stack hstack henough
  exact hstack stack henough

theorem Finishes.comesTo {e : Expr} {vs : List Value} {env : Environment} {r : Outcome Value}
    (hrest : Finishes host.call run e vs env r) :
    ComesTo (fun stack => e.finish (host.withStack stack) (f stack) vs) env r := by
  cases hrest with
  | constant => exact .const id
  | @name x t env v hx =>
    have hfind : find? x env = .ok (some v) env := congrArg (EStateM.Result.ok · env) hx
    exact ⟨id, .of_forall fun stack => bind_of_ok hfind⟩
  | @undefined x t env hx =>
    have hfind : find? x env = .ok none env := congrArg (EStateM.Result.ok · env) hx
    exact ⟨by rintro ⟨⟩, .of_forall fun stack => bind_of_ok hfind⟩
  | comparison => exact .const (not_aborts_check _ _)
  | decided ha =>
    simp only [Expr.finish, if_pos ha]
    exact .const id
  | undecided ha hright =>
    simp only [Expr.finish, ha]
    exact h _ _ _ hright
  | arithmetic => exact .const (not_aborts_check _ _)
  | define => exact .const id
  | apply hcall => exact hcall.comesTo h
  | member hkey =>
    simp only [Expr.finish, hkey]
    exact .const (not_aborts_check _ _)
  | memberAt hkey =>
    simp only [Expr.finish, hkey]
    exact .const (not_aborts_check _ _)
  | lambda => exact .const id
  | function => exact .const (by rintro ⟨⟩)

end

theorem Evaluates.comesTo {room : Nat} {e : Expr} {env : Environment} {r : Outcome Value}
    (h : Evaluates host.call room e env r) :
    ComesTo (fun stack => e.evaluateWithin (host.withStack stack) room) env r := by
  induction room generalizing e env r with
  | zero =>
    rw [show r = .error (.runtime .nestedTooDeeply) env from h]
    exact .const (by rintro ⟨⟩)
  | succ room ih =>
    let f (stack : Nat) (e : Expr) := e.evaluateWithin (host.withStack stack) room
    have hf : ∀ e env r, Evaluates host.call room e env r → ComesTo (fun stack => f stack e) env r :=
      fun _ _ _ => ih
    simp only [Expr.evaluateWithin_succ]
    cases h with
    | part hparts => exact .bind_error (hparts.comesTo hf)
    | whole hparts hrest => exact .bind (hparts.comesTo hf) (hrest.comesTo hf)

/-- The rules give the outcomes of evaluations that have stack enough. -/
theorem evaluates_iff {room : Nat} {e : Expr} {env : Environment} {r : Outcome Value} :
    Evaluates host.call room e env r ↔
      ComesTo (fun stack => e.evaluateWithin (host.withStack stack) room) env r := by
  refine ⟨fun h => h.comesTo, fun ⟨hr, hstack⟩ => ?_⟩
  obtain ⟨stack, rfl⟩ := hstack.exists
  exact (e.follows_evaluateWithin (host.withStack stack) room env).resolve_left hr

theorem calls_of_callWith {room stack : Nat} {v : Value} {arguments : List Value}
    {env : Environment}
    (h : ¬ Outcome.Aborts (v.callWith (host.withStack stack)
      (Expr.evaluateWithin (host.withStack stack) room) arguments env)) :
    Calls host.call (Evaluates host.call room) v arguments env (v.callWith (host.withStack stack)
      (Expr.evaluateWithin (host.withStack stack) room) arguments env) :=
  (follows_callWithin (Expr.follows_evaluateWithin (host.withStack stack) room)
    (host.withStack stack) stack v arguments env).resolve_left h

/-- The rules give the outcomes of calls that have stack enough. -/
theorem calls_iff {room : Nat} {v : Value} {arguments : List Value} {env : Environment}
    {r : Outcome Value} :
    Calls host.call (Evaluates host.call room) v arguments env r ↔
      ComesTo (fun stack => v.callWith (host.withStack stack)
        (Expr.evaluateWithin (host.withStack stack) room) arguments) env r := by
  let f (stack : Nat) (e : Expr) := e.evaluateWithin (host.withStack stack) room
  have hf : ∀ e env r, Evaluates host.call room e env r → ComesTo (fun stack => f stack e) env r :=
    fun _ _ _ h => h.comesTo
  refine ⟨fun h => h.comesTo hf, fun ⟨hr, hstack⟩ => ?_⟩
  obtain ⟨stack, rfl⟩ := hstack.exists
  exact calls_of_callWith hr

end Offside
