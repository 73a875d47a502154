import Mathlib
import Offside.Proofs.Eval.Matching

namespace Offside

/-- Every identity in a value satisfies `P`, and every function in it satisfies `Q`. -/
inductive Value.Over (P : Nat → Prop) (Q : Expr → Prop) : Value → Prop
  | int (n : Int64) : Over P Q (.int n)
  | float (x : Float) : Over P Q (.float x)
  | string (s : String) : Over P Q (.string s)
  | bool (b : Bool) : Over P Q (.bool b)
  | function {i : Nat} {params : List String} {body : Expr} {bound : List Value} (hid : P i)
      (hcode : Q (.lambda params body)) (hbound : ∀ v ∈ bound, Over P Q v) :
      Over P Q (.function i params body bound)
  | native {i : Nat} (hid : P i) (name : String) : Over P Q (.native i name)
  | record {i : Nat} {members : List (String × Value)} (hid : P i)
      (hmembers : ∀ m ∈ members, Over P Q m.2) : Over P Q (.record i members)

/-- So it is with the values that are bound and those that the host keeps. -/
structure Environment.Over (P : Nat → Prop) (Q : Expr → Prop) (env : Environment) : Prop where
  bindings : ∀ x v, env.bindings.find? x = some v → v.Over P Q
  memory : ∀ v ∈ env.memory, v.Over P Q

theorem Environment.over_empty (P : Nat → Prop) (Q : Expr → Prop) : Environment.empty.Over P Q := by
  refine ⟨fun x v hx => ?_, List.forall_mem_nil _⟩
  cases hx

variable {ids : Nat → Nat} {code : Expr → Expr → Prop} {shared : String → Prop} {host : Host}

theorem exists_mem_zip {α β : Type} {as : List α} {bs : List β} (hlength : as.length = bs.length)
    {a : α} (ha : a ∈ as) : ∃ b, (a, b) ∈ as.zip bs := by
  obtain ⟨i, hi, rfl⟩ := List.getElem_of_mem ha
  have hzip : i < (as.zip bs).length := by
    rw [List.length_zip]
    omega
  exact ⟨bs[i], List.getElem_zip ▸ List.getElem_mem hzip⟩

theorem eq_map_of_zip {α β : Type} {f : α → β} {as : List α} {bs : List β}
    (hlength : as.length = bs.length) (h : ∀ e ∈ as.zip bs, e.2 = f e.1) : bs = as.map f := by
  have hsame : List.Forall₂ (fun a b => f a = b) as bs :=
    List.forall₂_iff_zip.2 ⟨hlength, fun he => (h _ he).symm⟩
  rw [← List.forall₂_map_left_iff, List.forall₂_eq_eq_eq] at hsame
  exact hsame.symm

namespace Value

/-- The identity of a function that exists in the second run only is left out. -/
def skip (n i : Nat) : Nat := if i < n then i else i + 1

theorem skip_injective (n : Nat) : (skip n).Injective := by
  intro i j h
  unfold skip at h
  split at h <;> split at h <;> omega

theorem skip_of_lt {n i : Nat} (h : i < n) : skip n i = i := if_pos h

theorem skip_add (n k : Nat) : skip n (n + k) = n + 1 + k := by
  unfold skip
  rw [if_neg (by omega)]
  omega

variable {P P' : Nat → Prop} {Q Q' : Expr → Prop} {v v' : Value}

theorem Over.mono (h : v.Over P Q) (hP : ∀ i, P i → P' i) (hQ : ∀ e, Q e → Q' e) :
    v.Over P' Q' := by
  induction h with
  | int n => exact .int n
  | float x => exact .float x
  | string s => exact .string s
  | bool b => exact .bool b
  | function hid hcode _ ih => exact .function (hP _ hid) (hQ _ hcode) ih
  | native hid name => exact .native (hP _ hid) name
  | record hid _ ih => exact .record (hP _ hid) ih

theorem Over.all (hP : ∀ i, P i) (hQ : ∀ e, Q e) : (v : Value) → v.Over P Q
  | .int n => .int n
  | .float x => .float x
  | .string s => .string s
  | .bool b => .bool b
  | .function i _ _ _ => .function (hP i) (hQ _) fun v _ => .all hP hQ v
  | .native i name => .native (hP i) name
  | .record i members => .record (hP i) fun m hm =>
    have : sizeOf m.2 < sizeOf members :=
      Nat.lt_of_lt_of_le (by cases m; simp) (Nat.le_of_lt (List.sizeOf_lt_of_mem hm))
    .all hP hQ m.2

/-- Identities that stay change nothing. -/
theorem Over.relabel_eq (h : v.Over P Q) (hids : ∀ i, P i → ids i = i) : v.relabel ids = v := by
  induction h with
  | function hid _ _ ih =>
    rw [relabel, relabelAll_eq_map, List.map_congr_left ih, List.map_id', hids _ hid]
  | native hid name => rw [relabel, hids _ hid]
  | record hid _ ih =>
    rw [relabel, relabelMembers_eq_map, hids _ hid,
      List.map_congr_left fun m hm => by rw [ih m hm], List.map_id']
  | _ => rfl

/-- A value whose functions see nothing but shared names matches itself with other identities. -/
theorem Over.matches_relabel (hcode : ∀ e, e.All (Expr.Sees shared) → code e e)
    (h : v.Over P (·.All (Expr.Sees shared))) :
    v.Matches ids (Expr.Renamed shared code (.same shared)) (v.relabel ids) := by
  induction h with
  | int n => exact .int n
  | float x => exact .float x
  | string s => exact .string s
  | bool b => exact .bool b
  | @function i params body bound hid hsees _ ih =>
    rw [relabel, relabelAll_eq_map]
    refine .ofFunction rfl (.refl hcode hsees fun x hx => ⟨rfl, ?_⟩) rfl
      (List.forall₂_map_right_iff.2 (List.forall₂_same.2 ih))
    obtain ⟨hx, hout⟩ := List.mem_filter.1 hx
    exact (hsees.self x hx).resolve_left (of_decide_eq_true hout)
  | native hid name => exact .native _ name
  | @record i members hid _ ih =>
    rw [relabel, relabelMembers_eq_map]
    refine .record (by rw [List.map_map]; rfl) fun e he => ?_
    rw [← List.map_prod_left_eq_zip] at he
    obtain ⟨m, hm, rfl⟩ := List.mem_map.1 he
    exact ih m hm

theorem Over.matches (hcode : ∀ e, e.All (Expr.Sees shared) → code e e)
    (hids : ∀ i, P i → ids i = i) (h : v.Over P (·.All (Expr.Sees shared))) :
    v.Matches ids (Expr.Renamed shared code (.same shared)) v := by
  have hsame : v.Matches ids (Expr.Renamed shared code (.same shared)) (v.relabel ids) :=
    h.matches_relabel hcode
  rwa [h.relabel_eq hids] at hsame

/-- Where functions that correspond are the same, only identities differ. -/
theorem Matches.eq_relabel (hcode : ∀ e e', code e e' → e = e') (h : v.Matches ids code v') :
    v' = v.relabel ids := by
  induction h with
  | function h hcount hlength _ ih =>
    cases hcode _ _ h
    rw [relabel, relabelAll_eq_map, eq_map_of_zip hlength ih]
  | @record i members members' hkeys _ ih =>
    rw [← List.forall₂_eq_eq_eq, List.forall₂_map_left_iff, List.forall₂_map_right_iff] at hkeys
    obtain ⟨hlength, hsame⟩ := List.forall₂_iff_zip.1 hkeys
    have hmembers : members' = members.map fun m => (m.1, m.2.relabel ids) :=
      eq_map_of_zip hlength fun e he => Prod.ext (hsame he).symm (ih e he)
    rw [relabel, relabelMembers_eq_map, hmembers]
  | _ => rfl

theorem Matches.over (hcode : ∀ e e', code e e' → Q e) (h : v.Matches ids code v') :
    v.Over (fun _ => True) Q := by
  induction h with
  | int n => exact .int n
  | float x => exact .float x
  | string s => exact .string s
  | bool b => exact .bool b
  | function h _ hlength _ ih =>
    refine .function trivial (hcode _ _ h) fun v hv => ?_
    obtain ⟨v', hzip⟩ := exists_mem_zip hlength hv
    exact ih _ hzip
  | native i name => exact .native trivial name
  | record hkeys _ ih =>
    refine .record trivial fun m hm => ?_
    have hlength := congrArg List.length hkeys
    rw [List.length_map, List.length_map] at hlength
    obtain ⟨m', hzip⟩ := exists_mem_zip hlength hm
    exact ih _ hzip

end Value

/-- An environment matches itself with other identities to give out, if its functions see nothing but
shared names and the identities that have been given out stay. -/
theorem Environment.Over.matches {P : Nat → Prop} {env : Environment}
    (h : env.Over P (·.All (Expr.Sees shared))) (hcode : ∀ e, e.All (Expr.Sees shared) → code e e)
    (hids : ∀ i, P i → ids i = i) {S : Names} (hS : ∀ x y, S x y → x = y) {unused : Nat}
    (hnext : ∀ k, ids (env.unused + k) = unused + k) :
    env.Matches ids (Expr.Renamed shared code (.same shared)) S { env with unused } where
  bindings x y hxy := by
    rw [← hS x y hxy]
    change Option.Rel _ (env.bindings.find? x) (env.bindings.find? x)
    cases hx : env.bindings.find? x with
    | none => exact .none
    | some v => exact .some ((h.bindings x v hx).matches hcode hids)
  unknown x y hxy _ := hS x y hxy
  unused := hnext
  memory := List.forall₂_same.2 fun v hv => (h.memory v hv).matches hcode hids
  output := rfl

/-- The same code, whose functions see nothing but shared names. -/
def SameCode (shared : String → Prop) (e e' : Expr) : Prop := e = e' ∧ e.All (Expr.Sees shared)

theorem SameCode.refl (e : Expr) (h : e.All (Expr.Sees shared)) : SameCode shared e e := ⟨rfl, h⟩

theorem Value.Matches.sameCode {S : Names} {v v' : Value}
    (h : v.Matches ids (Expr.Renamed shared (SameCode shared) S) v') :
    v' = v.relabel ids ∧ v.Over (fun _ => True) (·.All (Expr.Sees shared)) := by
  have hcode : v.Matches ids (SameCode shared) v' :=
    h.mono fun _ _ _ _ => Expr.Renamed.code_of_lambda
  exact ⟨hcode.eq_relabel fun _ _ => And.left, hcode.over fun _ _ => And.right⟩

theorem forall₂_sameCode {S : Names} {vs vs' : List Value}
    (h : List.Forall₂ (Value.Matches ids (Expr.Renamed shared (SameCode shared) S)) vs vs') :
    vs' = vs.map (Value.relabel ids) ∧
      ∀ v ∈ vs, v.Over (fun _ => True) (·.All (Expr.Sees shared)) := by
  induction h with
  | nil => exact ⟨rfl, List.forall_mem_nil _⟩
  | cons hv _ ih =>
    obtain ⟨rfl, hover⟩ := hv.sameCode
    exact ⟨by rw [ih.1, List.map_cons], List.forall_mem_cons.2 ⟨hover, ih.2⟩⟩

/-- Natives do the same for values that differ in identities, as far as they give no function that
sees other names. -/
theorem Host.Preserves.respects
    (hhost : host.Preserves (Value.Over (fun _ => True) (·.All (Expr.Sees shared))))
    (hids : ids.Injective) :
    host.Respects ids (Expr.Renamed shared (SameCode shared) (.same shared)) := by
  intro q q' h
  obtain ⟨harguments, hover⟩ := forall₂_sameCode h.arguments
  obtain ⟨hmemory, hkept⟩ := forall₂_sameCode h.memory
  have hq' : q' = q.relabel ids := by
    cases q'
    simp only [Request.relabel, Request.mk.injEq]
    exact ⟨h.id.symm, h.name.symm, harguments, hmemory, (h.unused 0).symm⟩
  obtain ⟨hmemory', hresult⟩ := hhost q hover hkept
  have hnext : ids q.unused = q'.unused := h.unused 0
  rw [hq', host.impartial ids q hids fun k => by rw [h.unused, hnext]]
  refine ⟨rfl, rfl, ?_, ?_⟩
  · exact List.forall₂_map_right_iff.2 (List.forall₂_same.2 fun v hv =>
      (hmemory' v hv).matches_relabel SameCode.refl)
  · change Answers _ (host.call q).result ((host.call q).result.map (Value.relabel ids))
    cases hreply : (host.call q).result with
    | ok v => exact .ok ((hresult v hreply).matches_relabel SameCode.refl)
    | error e => exact .error e

namespace Expr

/-- Functions may use any name of their callers. -/
theorem all_sees (e : Expr) : e.All (Sees fun _ => True) := by
  intro n _
  cases n with
  | lambda params body => exact fun x _ => .inr trivial
  | _ => trivial

theorem renamed_self {S : Names} (hS : ∀ x, S x x) (e : Expr) :
    Renamed (fun _ => True) (SameCode fun _ => True) S e e :=
  .refl SameCode.refl e.all_sees fun x _ => hS x

theorem eq_of_renamed_lambda {S : Names} {params params' : List String} {body body' : Expr}
    (h : Renamed shared (SameCode shared) S (.lambda params body) (.lambda params' body')) :
    Expr.lambda params body = .lambda params' body' := h.code_of_lambda.1

end Expr

/-- A value matches itself under identities that stay. -/
theorem Value.Over.matches_self {P : Nat → Prop} {v : Value} (h : v.Over P fun _ => True)
    (hids : ∀ i, P i → ids i = i) : v.Matches ids Eq v :=
  have hsees := h.mono (fun _ hi => hi) fun e _ => e.all_sees
  (hsees.matches SameCode.refl hids).mono fun _ _ _ _ => Expr.eq_of_renamed_lambda

theorem Environment.Over.matches_self {P : Nat → Prop} {env : Environment}
    (h : env.Over P fun _ => True) (hids : ∀ i, P i → ids i = i) {unused : Nat}
    (hnext : ∀ k, ids (env.unused + k) = unused + k) :
    env.Matches ids Eq Eq { env with unused } := by
  have hsees : env.Over P (·.All (Expr.Sees fun _ => True)) :=
    ⟨fun x v hx => (h.bindings x v hx).mono (fun _ hi => hi) fun e _ => e.all_sees,
      fun v hv => (h.memory v hv).mono (fun _ hi => hi) fun e _ => e.all_sees⟩
  have hsame := hsees.matches SameCode.refl hids (fun _ _ hxy => hxy) hnext
  exact hsame.mono_code fun _ _ _ _ => Expr.eq_of_renamed_lambda

theorem renamed_of_eq {e e' : Expr} (h : e = e') :
    Expr.Renamed (fun _ => True) (SameCode fun _ => True) (.same fun _ => True) e e' :=
  h ▸ e.renamed_self fun _ => ⟨rfl, trivial⟩

section

variable (hids : ids.Injective)
include hids

theorem Host.respects_self (host : Host) :
    host.Respects ids
      (Expr.Renamed (fun _ => True) (SameCode fun _ => True) (.same fun _ => True)) := by
  have hall (v : Value) : v.Over (fun _ => True) (·.All (Expr.Sees fun _ => True)) :=
    .all (fun _ => trivial) Expr.all_sees v
  have hkept : host.Preserves (Value.Over (fun _ => True) (·.All (Expr.Sees fun _ => True))) :=
    fun _ _ _ => ⟨fun v _ => hall v, fun v _ => hall v⟩
  exact hkept.respects hids

/-- Which identities values have does not matter to an evaluation, but only which of them are the
same. -/
theorem Expr.evaluateWithin_parallel {S : Names} (hS : S.Exact) (hself : ∀ x, S x x) (host : Host)
    (room : Nat) (e : Expr) :
    Eval.Parallel ids Eq S (e.evaluateWithin host room) (e.evaluateWithin host room) := by
  intro env env' henv
  have hrun := (e.renamed_self hself).evaluateWithin (host.respects_self hids) hids room hS
    (fun x _ => hself x) env env' (henv.mono_code fun _ _ _ _ => renamed_of_eq)
  exact hrun.mono (fun _ _ h => h.mono_code fun _ _ _ _ => eq_of_renamed_lambda)
    fun _ _ h => h.mono fun _ _ _ _ => eq_of_renamed_lambda

theorem Host.respects (host : Host) : host.Respects ids Eq := by
  intro q q' h
  have hreply := host.respects_self hids q q' (h.mono fun _ _ _ _ => renamed_of_eq)
  exact hreply.mono fun _ _ _ _ => Expr.eq_of_renamed_lambda

theorem Value.callWithin_parallel {v v' : Value} (hv : v.Matches ids Eq v')
    {arguments arguments' : List Value}
    (harguments : List.Forall₂ (Value.Matches ids Eq) arguments arguments') (host : Host)
    (room stack : Nat) :
    Eval.Parallel ids Eq Eq (v.callWithin host (Expr.evaluateWithin host room) stack arguments)
      (v'.callWithin host (Expr.evaluateWithin host room) stack arguments') := by
  refine Bodies.callWithin (host.respects hids) ?_ hv harguments stack
  rintro params params' body body' hcode
  cases hcode
  exact body.evaluateWithin_parallel hids (Names.exact_eq.bindAll _)
    (fun _ => Names.bindAll_self (.inr rfl)) host room

end

end Offside
