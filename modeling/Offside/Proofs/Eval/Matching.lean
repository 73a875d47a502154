import Mathlib
import Offside.Program
import Offside.Proofs.Eval.Call
import Offside.Proofs.Eval.Kinds
import Offside.Proofs.Eval.Natives
import Offside.Proofs.Expr.Rename

namespace Offside

open Eval

/-- The same value, where `ids` gives the identities of the second run and `code` holds of functions
that correspond. -/
inductive Value.Matches (ids : Nat → Nat) (code : Expr → Expr → Prop) : Value → Value → Prop
  | int (n : Int64) : Matches ids code (.int n) (.int n)
  | float (x : Float) : Matches ids code (.float x) (.float x)
  | string (s : String) : Matches ids code (.string s) (.string s)
  | bool (b : Bool) : Matches ids code (.bool b) (.bool b)
  | function {i : Nat} {params params' : List String} {body body' : Expr}
      {bound bound' : List Value} (hcode : code (.lambda params body) (.lambda params' body'))
      (hcount : params.length = params'.length) (hlength : bound.length = bound'.length)
      (hbound : ∀ e ∈ bound.zip bound', Matches ids code e.1 e.2) :
      Matches ids code (.function i params body bound) (.function (ids i) params' body' bound')
  | native (i : Nat) (name : String) : Matches ids code (.native i name) (.native (ids i) name)
  | record {i : Nat} {members members' : List (String × Value)}
      (hkeys : members.map (·.1) = members'.map (·.1))
      (hmembers : ∀ e ∈ members.zip members', Matches ids code e.1.2 e.2.2) :
      Matches ids code (.record i members) (.record (ids i) members')

/-- Environments that look the same through `S`, now and after any number of new identities. -/
structure Environment.Matches (ids : Nat → Nat) (code : Expr → Expr → Prop) (S : Names)
    (env env' : Environment) : Prop where
  bindings : ∀ x y, S x y →
    Option.Rel (Value.Matches ids code) (env.bindings.find? x) (env'.bindings.find? y)
  unknown : ∀ x y, S x y → env.bindings.find? x = none → x = y
  unused : ∀ k, ids (env.unused + k) = env'.unused + k
  memory : List.Forall₂ (Value.Matches ids code) env.memory env'.memory
  output : env.output = env'.output

/-- Both results are related, or both are the same error. -/
inductive Answers {ε α β : Type} (R : α → β → Prop) : Except ε α → Except ε β → Prop
  | ok {a : α} {b : β} (h : R a b) : Answers R (.ok a) (.ok b)
  | error (cause : ε) : Answers R (.error cause) (.error cause)

theorem Answers.refl {ε α : Type} (r : Except ε α) : Answers Eq r r := by
  cases r with
  | ok a => exact .ok rfl
  | error cause => exact .error cause

inductive Outcome.Matches {α β : Type} (E : Environment → Environment → Prop) (R : α → β → Prop) :
    Outcome α → Outcome β → Prop
  | ok {a : α} {b : β} {env env' : Environment} (h : R a b) (henv : E env env') :
      Matches E R (.ok a env) (.ok b env')
  | error (cause : Error) {env env' : Environment} (henv : E env env') :
      Matches E R (.error cause env) (.error cause env')

theorem Outcome.Matches.mono {α β : Type} {E E' : Environment → Environment → Prop}
    {R R' : α → β → Prop} (hE : ∀ env env', E env env' → E' env env')
    (hR : ∀ a b, R a b → R' a b) {r : Outcome α} {r' : Outcome β} (h : Outcome.Matches E R r r') :
    Outcome.Matches E' R' r r' := by
  cases h with
  | ok h henv => exact .ok (hR _ _ h) (hE _ _ henv)
  | error cause henv => exact .error cause (hE _ _ henv)

/-- What a body does in a copy of the bindings is seen in its outcome only. -/
theorem Outcome.Matches.inCopy {α β : Type} {E E' : Environment → Environment → Prop}
    {R : α → β → Prop} {p : Eval α} {q : Eval β} {env env' : Environment}
    {entries entries' : List (String × Value)}
    (h : Outcome.Matches E R (p { env with bindings := env.bindings.insertAll entries })
      (q { env' with bindings := env'.bindings.insertAll entries' }))
    (hrestored : ∀ after after', E after after' →
      E' (after.withBindingsOf env) (after'.withBindingsOf env')) :
    Outcome.Matches E' R (inCopy entries p env) (inCopy entries' q env') := by
  unfold Eval.inCopy
  generalize p _ = r, q _ = r' at h ⊢
  cases h with
  | ok hv hafter => exact .ok hv (hrestored _ _ hafter)
  | error cause hafter => exact .error cause (hrestored _ _ hafter)

/-- The same is asked of natives, but for identities and the code of functions. -/
structure Request.Matches (ids : Nat → Nat) (code : Expr → Expr → Prop) (q q' : Request) :
    Prop where
  id : ids q.id = q'.id
  name : q.name = q'.name
  arguments : List.Forall₂ (Value.Matches ids code) q.arguments q'.arguments
  memory : List.Forall₂ (Value.Matches ids code) q.memory q'.memory
  unused : ∀ k, ids (q.unused + k) = q'.unused + k

structure Reply.Matches (ids : Nat → Nat) (code : Expr → Expr → Prop) (r r' : Reply) : Prop where
  lines : r.lines = r'.lines
  made : r.made = r'.made
  memory : List.Forall₂ (Value.Matches ids code) r.memory r'.memory
  result : Answers (Value.Matches ids code) r.result r'.result

/-- The natives do the same with values that match. -/
def Host.Respects (host : Host) (ids : Nat → Nat) (code : Expr → Expr → Prop) : Prop :=
  ∀ q q', Request.Matches ids code q q' → Reply.Matches ids code (host.call q) (host.call q')

namespace Eval

/-- Computations that keep environments related and have related outcomes. -/
def Matches {α β : Type} (E : Environment → Environment → Prop) (R : α → β → Prop) (p : Eval α)
    (q : Eval β) : Prop :=
  ∀ env env', E env env' → Outcome.Matches E R (p env) (q env')

variable {α β γ δ : Type} {E : Environment → Environment → Prop} {R : α → β → Prop}
  {R' : γ → δ → Prop}

theorem Matches.pure {a : α} {b : β} (h : R a b) :
    Matches E R (Pure.pure a : Eval α) (Pure.pure b : Eval β) :=
  fun _ _ henv => .ok h henv

theorem Matches.throw (cause : Error) :
    Matches E R (MonadExcept.throw cause : Eval α) (MonadExcept.throw cause : Eval β) :=
  fun _ _ henv => .error cause henv

theorem Matches.bind {p : Eval α} {q : Eval β} {f : α → Eval γ} {g : β → Eval δ}
    (hp : Matches E R p q) (hf : ∀ a b, R a b → Matches E R' (f a) (g b)) :
    Matches E R' (p >>= f) (q >>= g) := by
  intro env env' henv
  have h := hp env env' henv
  show Outcome.Matches E R' (EStateM.bind p f env) (EStateM.bind q g env')
  unfold EStateM.bind
  generalize p env = r, q env' = r' at h
  cases h with
  | ok hab hafter => exact hf _ _ hab _ _ hafter
  | error cause hafter => exact .error cause hafter

theorem Matches.check {r : Except RuntimeError α} {r' : Except RuntimeError β}
    (h : Answers R r r') : Matches E R (check r) (check r') := by
  cases h with
  | ok h => exact .pure h
  | error cause => exact .throw _

theorem Matches.mapM {ε φ : Type} {T : ε → φ → Prop} {f : ε → Eval α} {g : φ → Eval β}
    (hf : ∀ a b, T a b → Matches E R (f a) (g b)) {as : List ε} {bs : List φ}
    (h : List.Forall₂ T as bs) : Matches E (List.Forall₂ R) (as.mapM f) (bs.mapM g) := by
  induction h with
  | nil => exact .pure .nil
  | cons hab _ ih =>
    rw [List.mapM_cons, List.mapM_cons]
    exact .bind (hf _ _ hab) fun _ _ ha => .bind ih fun _ _ has => .pure (.cons ha has)

end Eval

variable {ids : Nat → Nat} {code : Expr → Expr → Prop}

namespace Value

variable {v v' w w' : Value}

theorem Matches.ofFunction {i j : Nat} (hid : ids i = j) {params params' : List String}
    {body body' : Expr} {bound bound' : List Value}
    (hcode : code (.lambda params body) (.lambda params' body'))
    (hcount : params.length = params'.length)
    (hbound : List.Forall₂ (Matches ids code) bound bound') :
    Matches ids code (.function i params body bound) (.function j params' body' bound') := by
  obtain ⟨hlength, hzip⟩ := List.forall₂_iff_zip.1 hbound
  rw [← hid]
  exact .function hcode hcount hlength fun e he => hzip (a := e.1) (b := e.2) he

theorem Matches.mono {code' : Expr → Expr → Prop} (hcode : ∀ params body params' body',
      code (.lambda params body) (.lambda params' body') →
        code' (.lambda params body) (.lambda params' body'))
    (h : v.Matches ids code v') : v.Matches ids code' v' := by
  induction h with
  | int n => exact .int n
  | float x => exact .float x
  | string s => exact .string s
  | bool b => exact .bool b
  | function h hcount hlength _ ih => exact .function (hcode _ _ _ _ h) hcount hlength ih
  | native i name => exact .native i name
  | record hkeys _ ih => exact .record hkeys ih

theorem Matches.kind_eq (h : v.Matches ids code v') : v.kind = v'.kind := by
  cases h <;> rfl

theorem Matches.number?_eq (h : v.Matches ids code v') : v.number? = v'.number? := by
  cases h <;> rfl

theorem Matches.isTruthy_eq (h : v.Matches ids code v') : v.isTruthy = v'.isTruthy := by
  cases h <;> rfl

theorem Matches.ofValue_eq (h : v.Matches ids code v') : Key.ofValue v = Key.ofValue v' := by
  cases h <;> rfl

theorem Matches.isDecidedBy_eq (op : Connective) (h : v.Matches ids code v') :
    op.isDecidedBy v = op.isDecidedBy v' := by
  cases op <;> simp only [Connective.isDecidedBy, h.isTruthy_eq]

theorem Matches.looselyEquals_eq (hids : ids.Injective) (hv : v.Matches ids code v')
    (hw : w.Matches ids code w') : v.looselyEquals w = v'.looselyEquals w' := by
  cases hv <;> cases hw <;> simp only [looselyEquals, hids.eq_iff]

/-- Arithmetic sees numbers only. -/
theorem Matches.arithmetic_eq (hids : ids.Injective) (op : Arithmetic)
    (hv : v.Matches ids code v') (hw : w.Matches ids code w') : op.apply v w = op.apply v' w' := by
  simp only [Arithmetic.apply, hv.number?_eq, hw.number?_eq, hv.kind_eq, hw.kind_eq,
    hv.looselyEquals_eq hids hw]

theorem Matches.comparison_eq (hids : ids.Injective) (op : Comparison)
    (hv : v.Matches ids code v') (hw : w.Matches ids code w') : op.apply v w = op.apply v' w' := by
  have hequal := hv.looselyEquals_eq hids hw
  cases op with
  | equal => exact congrArg Except.ok hequal
  | notEqual => exact congrArg (fun b => Except.ok !b) hequal
  | _ => cases hv <;> cases hw <;> rfl

theorem HasTy.matches {t : Ty} (h : v.HasTy t) : v.Matches ids code v := by
  cases h with
  | int n | intNumber n => exact .int n
  | float x | floatNumber x => exact .float x
  | string s => exact .string s
  | bool b => exact .bool b

theorem answers_arithmetic (hids : ids.Injective) (op : Arithmetic)
    (hv : v.Matches ids code v') (hw : w.Matches ids code w') :
    Answers (Matches ids code) (op.apply v w) (op.apply v' w') := by
  rw [← hv.arithmetic_eq hids op hw]
  cases h : op.apply v w with
  | error cause => exact .error cause
  | ok u =>
    obtain hty | ⟨-, z, rfl⟩ := Arithmetic.hasTy_apply h
    · exact .ok hty.matches
    · exact .ok (.float z)

theorem lookup_matches {members members' : List (String × Value)}
    (hkeys : members.map (·.1) = members'.map (·.1))
    (hmembers : ∀ e ∈ members.zip members', Matches ids code e.1.2 e.2.2) (key : String) :
    Option.Rel (Matches ids code) (members.lookup key) (members'.lookup key) := by
  induction members generalizing members' with
  | nil =>
    cases members' with
    | nil => exact .none
    | cons m members' => cases hkeys
  | cons m members ih =>
    cases members' with
    | nil => cases hkeys
    | cons m' members' =>
      obtain ⟨hkey, hkeys⟩ := List.cons.inj hkeys
      change m.1 = m'.1 at hkey
      rw [List.zip_cons_cons, List.forall_mem_cons] at hmembers
      rw [List.lookup_cons, List.lookup_cons, ← hkey]
      split
      · exact .some hmembers.1
      · exact ih hkeys hmembers.2

theorem answers_member_string (s : String) (key : Key) :
    Answers (Matches ids code) ((Value.string s).member key) ((Value.string s).member key) := by
  cases h : (Value.string s).member key with
  | error cause => exact .error cause
  | ok w =>
    unfold Value.member at h
    split at h
    · next hrecord => cases hrecord
    · split at h
      · cases h
        exact .ok (.string _)
      · cases h
    · cases h
      exact .ok (.int _)
    · cases h
    · next hno => exact (hno s rfl).elim

theorem Matches.member (h : v.Matches ids code v') (key : Key) :
    Answers (Matches ids code) (v.member key) (v'.member key) := by
  cases h with
  | @record _ members members' hkeys hmembers =>
    have hfound := lookup_matches hkeys hmembers key.text
    simp only [Value.member]
    generalize members.lookup key.text = a, members'.lookup key.text = a' at hfound ⊢
    cases hfound with
    | none => exact .error _
    | some h => exact .ok h
  | string s => exact answers_member_string s key
  | _ => cases key <;> exact .error _

theorem Matches.render_eq (h : v.Matches ids code v') : v.render = v'.render := by
  cases h with
  | function _ hcount => simp only [render, hcount]
  | record hkeys => simp only [render, hkeys]
  | _ => rfl

theorem renderLine_eq {vs vs' : List Value} (h : List.Forall₂ (Matches ids code) vs vs') :
    renderLine vs = renderLine vs' := by
  have hmap : vs.map render = vs'.map render := by
    induction h with
    | nil => rfl
    | cons h _ ih => rw [List.map_cons, List.map_cons, h.render_eq, ih]
  rw [renderLine, renderLine, hmap]

end Value

theorem Value.Matches.absolute? {v v' : Value} (h : v.Matches ids code v') :
    Option.Rel (Value.Matches ids code) (Host.absolute? v) (Host.absolute? v') := by
  cases h with
  | int n =>
    rw [Host.absolute?]
    split
    · exact .none
    · exact .some (.int _)
  | float x => exact .some (.float _)
  | _ => exact .none

theorem Host.sample_respects (ids : Nat → Nat) (code : Expr → Expr → Prop) :
    Host.sample.Respects ids code := by
  intro q q' h
  have hrefused (e : HostError) : Reply.Matches ids code (q.refuse e) (q'.refuse e) :=
    ⟨rfl, rfl, h.memory, .error e⟩
  have hanswered {v v' : Value} (hv : v.Matches ids code v') :
      Reply.Matches ids code (q.answer v) (q'.answer v') := ⟨rfl, rfl, h.memory, .ok hv⟩
  have harguments := h.arguments
  show Reply.Matches ids code (sampleReply q) (sampleReply q')
  unfold sampleReply unknown
  rw [← h.name]
  split
  · unfold printLine
    rw [Value.renderLine_eq harguments]
    exact ⟨rfl, rfl, h.memory, .ok (.string _)⟩
  · unfold absolute
    generalize q.arguments = arguments, q'.arguments = arguments' at harguments
    rcases harguments with _ | @⟨v, v', _, _, hv, _ | ⟨_, _⟩⟩
    · exact hrefused _
    · have hfound := hv.absolute?
      dsimp only
      generalize absolute? v = a, absolute? v' = a' at hfound
      cases hfound with
      | none => exact hrefused _
      | some hv => exact hanswered hv
    · exact hrefused _
  · unfold identity
    generalize q.arguments = arguments, q'.arguments = arguments' at harguments
    rcases harguments with _ | ⟨hv, _ | ⟨_, _⟩⟩
    · exact hrefused _
    · exact hanswered hv
    · exact hrefused _
  · unfold count
    rw [harguments.length_eq]
    exact hanswered (.int _)
  · exact hrefused _
  · exact hrefused _

section

variable {code' : Expr → Expr → Prop} (hcode : ∀ params body params' body',
  code (.lambda params body) (.lambda params' body') →
    code' (.lambda params body) (.lambda params' body'))
include hcode

theorem Request.Matches.mono {q q' : Request} (h : Request.Matches ids code q q') :
    Request.Matches ids code' q q' where
  id := h.id
  name := h.name
  arguments := h.arguments.imp fun _ _ hv => hv.mono hcode
  memory := h.memory.imp fun _ _ hv => hv.mono hcode
  unused := h.unused

theorem Reply.Matches.mono {r r' : Reply} (h : Reply.Matches ids code r r') :
    Reply.Matches ids code' r r' where
  lines := h.lines
  made := h.made
  memory := h.memory.imp fun _ _ hv => hv.mono hcode
  result := by
    have hresult := h.result
    generalize r.result = a, r'.result = a' at hresult
    cases hresult with
    | ok hv => exact .ok (hv.mono hcode)
    | error e => exact .error e

end

namespace Environment

variable {S T : Names} {env env' : Environment}

theorem Matches.mono_code {code' : Expr → Expr → Prop} (hcode : ∀ params body params' body',
      code (.lambda params body) (.lambda params' body') →
        code' (.lambda params body) (.lambda params' body'))
    (h : env.Matches ids code S env') : env.Matches ids code' S env' where
  bindings x y hxy := by
    have hfound := h.bindings x y hxy
    generalize env.bindings.find? x = a, env'.bindings.find? y = b at hfound
    cases hfound with
    | none => exact .none
    | some hv => exact .some (hv.mono hcode)
  unknown := h.unknown
  unused := h.unused
  memory := h.memory.imp fun _ _ hv => hv.mono hcode
  output := h.output

theorem Matches.mono (h : env.Matches ids code T env') (hST : ∀ x y, S x y → T x y) :
    env.Matches ids code S env' where
  bindings x y hxy := h.bindings x y (hST x y hxy)
  unknown x y hxy := h.unknown x y (hST x y hxy)
  unused := h.unused
  memory := h.memory
  output := h.output

theorem Matches.bind (h : env.Matches ids code S env') (x y : String) {v v' : Value}
    (hv : v.Matches ids code v') :
    ({ env with bindings := env.bindings.insert x v } : Environment).Matches ids code (S.bind x y)
      { env' with bindings := env'.bindings.insert y v' } where
  bindings := by
    rintro a b (⟨rfl, rfl⟩ | ⟨ha, hb, hab⟩)
    · rw [Bindings.find?_insert_self, Bindings.find?_insert_self]
      exact .some hv
    · rw [Bindings.find?_insert_of_ne _ _ ha, Bindings.find?_insert_of_ne _ _ hb]
      exact h.bindings a b hab
  unknown := by
    rintro a b (⟨rfl, rfl⟩ | ⟨ha, hb, hab⟩) hnone
    · rw [Bindings.find?_insert_self] at hnone
      cases hnone
    · rw [Bindings.find?_insert_of_ne _ _ ha] at hnone
      exact h.unknown a b hab hnone
  unused := h.unused
  memory := h.memory
  output := h.output

theorem Matches.withArguments (h : env.Matches ids code S env') {params params' : List String}
    (hcount : params.length = params'.length) {arguments arguments' : List Value}
    (harguments : List.Forall₂ (Value.Matches ids code) arguments arguments')
    (henough : params.length ≤ arguments.length) :
    (env.withArguments params arguments).Matches ids code (S.bindAll (params.zip params'))
      (env'.withArguments params' arguments') := by
  unfold Environment.withArguments
  induction params generalizing S env env' params' arguments arguments' with
  | nil =>
    cases params' with
    | nil => exact h
    | cons y params' => cases hcount
  | cons x params ih =>
    cases params' with
    | nil => cases hcount
    | cons y params' =>
      cases harguments with
      | nil => cases henough
      | cons hv harguments =>
        exact ih (h.bind x y hv) (Nat.succ.inj hcount) harguments (Nat.le_of_succ_le_succ henough)

/-- Names that stand for each other may be given matching values. -/
theorem Matches.define (hS : S.Exact) {x y : String} (hxy : S x y)
    (h : env.Matches ids code S env') {v v' : Value} (hv : v.Matches ids code v') :
    ({ env with bindings := env.bindings.insert x v } : Environment).Matches ids code S
      { env' with bindings := env'.bindings.insert y v' } := by
  refine (h.bind x y hv).mono fun a b hab => ?_
  by_cases ha : a = x
  · exact .inl ⟨ha, (hS a b x y hab hxy).1 ha⟩
  · exact .inr ⟨ha, fun hb => ha ((hS a b x y hab hxy).2 hb), hab⟩

theorem Matches.withBindingsOf {after after' : Environment} (h : env.Matches ids code S env')
    (hafter : after.Matches ids code T after') :
    (after.withBindingsOf env).Matches ids code S (after'.withBindingsOf env') where
  bindings := h.bindings
  unknown := h.unknown
  unused := hafter.unused
  memory := hafter.memory
  output := hafter.output

end Environment

/-- Evaluations that keep environments matching and have matching values or the same error. -/
abbrev Eval.Parallel (ids : Nat → Nat) (code : Expr → Expr → Prop) (S : Names)
    (p q : Eval Value) : Prop :=
  Eval.Matches (Environment.Matches ids code S) (Value.Matches ids code) p q

/-- The bodies of functions that correspond do the same wherever they are called from. -/
def Bodies (ids : Nat → Nat) (code : Expr → Expr → Prop) (S : Names) (run : Expr → Eval Value) :
    Prop :=
  ∀ params params' body body', code (.lambda params body) (.lambda params' body') →
    Eval.Parallel ids code (S.bindAll (params.zip params')) (run body) (run body')

section

variable {S : Names} {params params' : List String} {bound bound' arguments arguments' : List Value}

theorem newFunction_matches {body body' : Expr}
    (hcode : code (.lambda params body) (.lambda params' body'))
    (hcount : params.length = params'.length)
    (hbound : List.Forall₂ (Value.Matches ids code) bound bound') :
    Eval.Parallel ids code S
      (newFunction params body bound) (newFunction params' body' bound') := by
  intro env env' henv
  have hid : ids env.unused = env'.unused := henv.unused 0
  have hnext : ∀ k, ids (env.unused + 1 + k) = env'.unused + 1 + k := fun k => by
    rw [Nat.add_assoc, Nat.add_assoc]
    exact henv.unused (1 + k)
  exact .ok (.ofFunction hid hcode hcount hbound)
    ⟨henv.bindings, henv.unknown, hnext, henv.memory, henv.output⟩

theorem inCopy_matches {p q : Eval Value} (hcount : params.length = params'.length)
    (harguments : List.Forall₂ (Value.Matches ids code) arguments arguments')
    (henough : params.length ≤ arguments.length)
    (h : Eval.Parallel ids code (S.bindAll (params.zip params')) p q) :
    Eval.Parallel ids code S
      (inCopy (params.zip arguments) p) (inCopy (params'.zip arguments') q) := by
  intro env env' henv
  exact .inCopy (h _ _ (henv.withArguments hcount harguments henough)) fun _ _ =>
    henv.withBindingsOf

theorem Reply.Matches.outcome {r r' : Reply} (h : r.Matches ids code r') {env env' : Environment}
    (henv : env.Matches ids code S env') :
    Outcome.Matches (Environment.Matches ids code S) (Value.Matches ids code) (r.outcome env)
      (r'.outcome env') := by
  have hafter : Environment.Matches ids code S
      { env with
        unused := env.unused + r.made, memory := r.memory, output := env.output ++ r.lines }
      { env' with
        unused := env'.unused + r'.made, memory := r'.memory
        output := env'.output ++ r'.lines } := by
    refine ⟨henv.bindings, henv.unknown, fun k => ?_, h.memory, ?_⟩
    · rw [← h.made, Nat.add_assoc, Nat.add_assoc]
      exact henv.unused (r.made + k)
    · rw [henv.output, h.lines]
  have hresult := h.result
  unfold Reply.outcome
  dsimp only
  generalize r.result = a, r'.result = a' at hresult ⊢
  cases hresult with
  | ok hv => exact .ok hv hafter
  | error cause => exact .error _ hafter

theorem ask_matches {host : Host} (hhost : host.Respects ids code) (i : Nat) (name : String)
    (harguments : List.Forall₂ (Value.Matches ids code) arguments arguments') :
    Eval.Parallel ids code S (ask host i name arguments) (ask host (ids i) name arguments') := by
  intro env env' henv
  have hasked : Request.Matches ids code ⟨i, name, arguments, env.memory, env.unused⟩
      ⟨ids i, name, arguments', env'.memory, env'.unused⟩ :=
    ⟨rfl, rfl, harguments, henv.memory, henv.unused⟩
  exact (hhost _ _ hasked).outcome henv

/-- Calls of matching functions have matching outcomes. A call passes on fewer arguments than it
got, or has less stack left. -/
theorem Bodies.callWithin {host : Host} (hhost : host.Respects ids code) {run : Expr → Eval Value}
    (hrun : Bodies ids code S run) {v v' : Value} (hv : v.Matches ids code v')
    (harguments : List.Forall₂ (Value.Matches ids code) arguments arguments') (stack : Nat) :
    Eval.Parallel ids code S
      (v.callWithin host run stack arguments) (v'.callWithin host run stack arguments') := by
  induction stack, v, arguments using Value.call_induct generalizing v' arguments' with
  | overfull stack i params body bound arguments hmany =>
    cases hv with
    | function hcode hcount hlength hbound =>
      rw [Value.callWithin_overfull host run stack i body hmany,
        Value.callWithin_overfull host run stack _ _ (by rwa [← hcount, ← hlength])]
      exact .throw _
  | function stack i params body bound arguments missing hmissing ih =>
    cases hv with
    | @function _ _ params' _ body' _ bound' hcode hcount hlength hbound =>
      have hbound : List.Forall₂ (Value.Matches ids code) bound bound' :=
        List.forall₂_iff_zip.2 ⟨hlength, fun he => hbound _ he⟩
      rw [Value.callWithin_function host run stack i body hmissing,
        Value.callWithin_function host run stack _ body' (by rw [← hcount, ← hlength, hmissing]),
        ← harguments.length_eq]
      split
      · exact newFunction_matches hcode hcount (List.rel_append hbound harguments)
      · next hmany =>
        have henough : params.length ≤ (bound ++ arguments.take missing).length := by
          rw [List.length_append, List.length_take]
          omega
        have htaken := List.rel_append hbound (List.forall₂_take missing harguments)
        refine .bind (inCopy_matches hcount htaken henough (hrun _ _ _ _ hcode)) fun r r' hr => ?_
        have hrest := List.forall₂_drop missing harguments
        -- If no argument was missing, none is dropped and the stack gets less instead.
        refine Value.passOn_cases₂ hrest.length_eq (fun _ => .pure hr) (.throw _)
          fun left hleft hless hpos => ih _ _ _ ?_ hr hrest
        rw [List.length_drop] at hpos ⊢
        omega
  | native stack i name arguments =>
    cases hv with
    | native =>
      rw [Value.callWithin_native, Value.callWithin_native]
      exact ask_matches hhost i name harguments
  | other stack v arguments hkind =>
    rw [Value.callWithin_of_kind host run stack hkind,
      Value.callWithin_of_kind host run stack (hv.kind_eq ▸ hkind), hv.kind_eq]
    exact .throw _

end

namespace Expr

variable {shared : String → Prop} {S : Names} {host : Host} {e e' : Expr}

/-- An evaluation follows the same program under other names, through names that are one to one and
keep the shared ones. -/
theorem Renamed.evaluateWithin
    (hhost : host.Respects ids (Renamed shared code (.same shared))) (hids : ids.Injective)
    (room : Nat) (he : Renamed shared code S e e') (hS : S.Exact) (hshared : ∀ x, shared x → S x x) :
    Eval.Parallel ids (Renamed shared code (.same shared)) S
      (e.evaluateWithin host room) (e'.evaluateWithin host room) := by
  induction room generalizing S e e' with
  | zero => exact .throw _
  | succ room ih =>
    -- A body is run among the names of its caller, who may have any `S` that keeps the shared ones.
    have hbodies : Bodies ids (Renamed shared code (.same shared)) S
        (Expr.evaluateWithin host room) := by
      intro params params' body body' hcode
      cases hcode with
      | lambda _ _ hkept hbody =>
        have hmore := Names.bindAll_mono (S := .same shared) (T := S)
          (by rintro x y ⟨rfl, hx⟩; exact hshared x hx) (params.zip params')
        exact ih (hbody.mono hmore) (hS.bindAll _) fun x hx => hmore x x (hkept x hx)
    cases he with
    | constant value => exact .pure (Value.hasTy_ofLiteral value).matches
    | @name _ x y t t' hxy =>
      refine .bind (R := fun a b => Option.Rel _ a b ∧ (a = none → x = y))
        (fun env env' henv => .ok ⟨henv.bindings x y hxy, henv.unknown x y hxy⟩ henv) ?_
      rintro a b ⟨hfound, hunknown⟩
      cases hfound with
      | none =>
        rw [hunknown rfl]
        exact .throw _
      | some hv => exact .pure hv
    | @comparison _ op _ _ _ _ hleft hright =>
      refine .bind (ih hleft hS hshared) fun a a' ha => .bind (ih hright hS hshared) fun b b' hb => ?_
      rw [ha.comparison_eq hids op hb]
      refine .bind (.check (Answers.refl _)) fun c c' hc => ?_
      rw [hc]
      exact .pure (.bool c')
    | connective hleft hright =>
      refine .bind (ih hleft hS hshared) fun a a' ha => ?_
      rw [ha.isDecidedBy_eq]
      split
      · exact .pure ha
      · exact ih hright hS hshared
    | @arithmetic _ op _ _ _ _ hleft hright =>
      exact .bind (ih hleft hS hshared) fun a a' ha => .bind (ih hright hS hshared) fun b b' hb =>
        .check (Value.answers_arithmetic hids op ha hb)
    | define hxy hvalue =>
      refine .bind (ih hvalue hS hshared) fun v v' hv env env' henv => ?_
      exact .ok hv (henv.define hS hxy hv)
    | apply hcallee hlength harguments =>
      refine .bind (ih hcallee hS hshared) fun f f' hf => ?_
      have hall := List.forall₂_iff_zip.2 ⟨hlength, fun he => harguments _ he⟩
      refine .bind (.mapM (fun a b hab => ih hab hS hshared) hall) fun vs vs' hvs => ?_
      exact hbodies.callWithin hhost hf hvs host.stack
    | @member _ _ _ key _ htarget hstated hkey =>
      refine .bind (ih htarget hS hshared) fun v v' hv => ?_
      rw [← hstated]
      cases hnone : Key.ofExpr? key with
      | some k => exact .check (hv.member k)
      | none =>
        refine .bind (ih (hkey hnone) hS hshared) fun w w' hw => ?_
        rw [hw.ofValue_eq]
        refine .bind (.check (Answers.refl _)) fun k k' hk => ?_
        rw [hk]
        exact .check (hv.member k')
    | lambda hcode hcount hkept hbody =>
      exact newFunction_matches (.lambda hcode hcount hkept hbody) hcount .nil
    | function => exact .throw _

theorem Renamed.evaluateAll
    (hhost : host.Respects ids (Renamed shared code (.same shared))) (hids : ids.Injective) (hS : S.Exact)
    (hshared : ∀ x, shared x → S x x) {es es' : List Expr}
    (h : List.Forall₂ (Renamed shared code S) es es') :
    Eval.Parallel ids (Renamed shared code (.same shared)) S
      (Program.evaluateAll host es) (Program.evaluateAll host es') := by
  induction h with
  | nil => exact .throw _
  | cons he hes ih =>
    have hfirst := he.evaluateWithin hhost hids maxEvaluations hS hshared
    cases hes with
    | nil => exact hfirst
    | cons _ _ => exact .bind hfirst fun _ _ _ => ih

end Expr

end Offside
