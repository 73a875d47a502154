import Mathlib
import Offside.Proofs.Parse.Frame

namespace Offside

namespace Ty

/-- How many functions and lists stand one in the other. -/
def depth : Ty → Nat
  | .function input output => max input.depth output.depth + 1
  | .list element => element.depth + 1
  | _ => 0

theorem depth_ofName? {name : String} {t : Ty} (h : ofName? name = some t) : t.depth = 0 := by
  unfold ofName? at h
  split at h <;> first | cases h; rfl | cases h

theorem depth_output? {t u : Ty} (h : t.output? = some u) : u.depth ≤ t.depth := by
  cases t with
  | function input output =>
    cases h
    simp only [depth]
    omega
  | _ => cases h

theorem depth_afterArguments {n m : Nat} {o : Option Ty} (h : ∀ t ∈ o, t.depth ≤ m) :
    ∀ t ∈ afterArguments n o, t.depth ≤ m := by
  induction n generalizing o with
  | zero => exact h
  | succ n ih =>
    refine ih fun u hu => ?_
    obtain ⟨t, ht, hu⟩ := Option.bind_eq_some_iff.1 hu
    exact Nat.le_trans (depth_output? hu) (h t ht)

end Ty

/-- The depth of the deepest type of a table. -/
def deepest : List (String × Ty) → Nat
  | [] => 0
  | (_, t) :: older => max t.depth (deepest older)

theorem depth_le_deepest {entries : List (String × Ty)} {x : String} {t : Ty}
    (h : (x, t) ∈ entries) : t.depth ≤ deepest entries := by
  induction entries with
  | nil => cases h
  | cons entry older ih =>
    simp only [deepest]
    rcases List.mem_cons.1 h with rfl | h
    · exact Nat.le_max_left _ _
    · exact Nat.le_trans (ih h) (Nat.le_max_right _ _)

theorem deepest_le_cons (x : String) (t : Ty) (entries : List (String × Ty)) :
    deepest entries ≤ deepest ((x, t) :: entries) :=
  Nat.le_max_right _ _

namespace Context

open Grammar

/-- The aliases of all scopes, the newest first. -/
def aliases (c : Context) : List (String × Ty) :=
  c.scopes.flatMap fun scope => scope.aliases.entries

/-- The values of all scopes, the newest first. -/
def values (c : Context) : List (String × Ty) :=
  c.scopes.flatMap fun scope => scope.values.entries

theorem aliases_setAlias (c : Context) (x : String) (t : Ty) :
    (c.setAlias x t).aliases = (x, t) :: c.aliases := rfl

theorem mem_entries_of_find? {b : Bindings Ty} {x : String} {t : Ty} (h : b.find? x = some t) :
    (x, t) ∈ b.entries := by
  obtain ⟨newer, older, hentries, -⟩ := List.lookup_eq_some_iff.1 h
  simp [hentries]

theorem mem_aliases_of_alias? {c : Context} {x : String} {t : Ty} (h : c.alias? x = some t) :
    (x, t) ∈ c.aliases := by
  obtain ⟨scope, hscope, hfind⟩ := List.exists_of_findSome?_eq_some h
  exact List.mem_flatMap.2 ⟨scope, hscope, mem_entries_of_find? hfind⟩

theorem mem_values_of_value? {c : Context} {x : String} {t : Ty} (h : c.value? x = some t) :
    (x, t) ∈ c.values := by
  obtain ⟨scope, hscope, hfind⟩ := List.exists_of_findSome?_eq_some h
  exact List.mem_flatMap.2 ⟨scope, hscope, mem_entries_of_find? hfind⟩

/-- Each alias is at most `maxNesting` deeper than those before it. -/
def Graded (entries : List (String × Ty)) : Prop :=
  ∀ x t older, (x, t) :: older <:+ entries → t.depth ≤ maxNesting + deepest older

theorem Graded.cons {entries : List (String × Ty)} (h : Graded entries) {t : Ty}
    (ht : t.depth ≤ maxNesting + deepest entries) (x : String) : Graded ((x, t) :: entries) := by
  intro y u older hsuffix
  rcases List.suffix_cons_iff.1 hsuffix with heq | hsuffix
  · cases heq
    exact ht
  · exact h y u older hsuffix

/-- No type is more than `maxNesting` deeper than the aliases. -/
structure Bounded (c : Context) : Prop where
  aliases : Graded c.aliases
  values : ∀ v ∈ c.values, v.2.depth ≤ maxNesting + deepest c.aliases

theorem bounded_empty : Bounded {} where
  aliases x t older h := by cases List.suffix_nil.1 h
  values v hv := nomatch hv

theorem Bounded.setAlias {c : Context} (h : c.Bounded) {t : Ty}
    (ht : t.depth ≤ maxNesting + deepest c.aliases) (x : String) : (c.setAlias x t).Bounded where
  aliases := h.aliases.cons ht x
  values v hv := by
    have hold := h.values v hv
    have hle := deepest_le_cons x t c.aliases
    rw [aliases_setAlias]
    omega

theorem Bounded.setValue {c : Context} (h : c.Bounded) {t : Ty}
    (ht : t.depth ≤ maxNesting + deepest c.aliases) (x : String) : (c.setValue x t).Bounded where
  aliases := h.aliases
  values := List.forall_mem_cons.2 ⟨ht, h.values⟩

theorem Bounded.enter {c : Context} (h : c.Bounded) : c.enter.Bounded := ⟨h.aliases, h.values⟩

end Context

namespace Parse

open Grammar

/-- The context is bounded, stands in these scopes, and has an alias at least so deep. -/
structure Holding (outer : List Scope) (k : Nat) (s : ParseState) : Prop where
  outer : s.context.outer = outer
  bounded : s.context.Bounded
  deep : k ≤ deepest s.context.aliases

theorem Holding.mono {outer : List Scope} {k j : Nat} {s : ParseState} (h : Holding outer j s)
    (hkj : k ≤ j) : Holding outer k s :=
  ⟨h.outer, h.bounded, Nat.le_trans hkj h.deep⟩

/-- The context stays bounded. What is read later sees at least the aliases that were seen before.
-/
abbrev measuring : Tracking where
  World := Nat
  Index := List Scope
  At := Holding
  Fails := Holding
  Later k j := k ≤ j
  Inside _ := True
  Took k _ j := j = k
  refl := Nat.le_refl
  trans := Nat.le_trans
  later h := Nat.le_of_eq h.symm
  inside _ := trivial
  inside_mono _ _ := trivial
  fails_mono h hs := hs.mono h
  fails _ hs := hs
  next {_ _ s} hs := by
    have hsame (tokens : TokenStream) : Holding _ _ { s with tokens } :=
      ⟨hs.outer, hs.bounded, hs.deep⟩
    cases s.tokens.next with
    | error e t => exact hsame t
    | ok o t =>
      cases o with
      | none => exact hsame t
      | some token => exact ⟨hsame _, _, rfl, hsame t⟩
  skipLines hs := ⟨hs.outer, hs.bounded, hs.deep⟩

namespace measuring

variable {k : Nat}

theorem word {kind : TokenKind} {text : String} {j : Nat}
    (h : TookWord measuring.Took kind text k j) : j = k := by
  obtain ⟨token, -, h⟩ := h
  exact h

theorem names {names : List String} {k j : measuring.World}
    (h : TookNames measuring.Took k j names) : j = k := by
  induction h with
  | nil => rfl
  | cons _ htoken _ ih => exact ih.trans htoken

theorem valueTy? (x : String) :
    measuring.Holds k (Parse.valueTy? x) fun j o => ∀ t ∈ o, t.depth ≤ maxNesting + j :=
  fun _ s hs => ⟨deepest s.context.aliases, hs.deep, ⟨hs.outer, hs.bounded, Nat.le_refl _⟩,
    fun _ ht => hs.bounded.values _ (Context.mem_values_of_value? ht)⟩

theorem setValue (x : String) {t : Ty} (ht : t.depth ≤ maxNesting + k) :
    measuring.Holds k (Parse.setValue x t) fun _ _ => True := by
  intro outer s hs
  have hdeep := hs.deep
  exact ⟨k, Nat.le_refl k, ⟨hs.outer, hs.bounded.setValue (by omega) x, hdeep⟩, trivial⟩

theorem setAlias (x : String) {t : Ty} (ht : t.depth ≤ maxNesting + k) :
    measuring.Holds k (Parse.setAlias x t) fun _ _ => True := by
  intro outer s hs
  have hdeep := hs.deep
  have hmore := deepest_le_cons x t s.context.aliases
  exact ⟨k, Nat.le_refl k,
    ⟨hs.outer, hs.bounded.setAlias (by omega) x, Nat.le_trans hdeep hmore⟩, trivial⟩

/-- The scope is left in the context in which it was entered. -/
theorem inScope {α : Type} {p : Parse α} {R : Nat → α → Prop} (h : measuring.Holds k p R) :
    measuring.Holds k (Parse.inScope p) fun _ _ => True := by
  intro outer s hs
  have hleave : ∀ t, Holding s.context.scopes k t →
      Holding outer k { t with context := t.context.exit } := by
    intro t ht
    have hexit : t.context.exit = s.context := by
      rw [Context.exit, ht.outer]
      rfl
    exact ⟨hexit ▸ hs.outer, hexit ▸ hs.bounded, hexit ▸ hs.deep⟩
  have henter : ∀ t, t = s → Holding s.context.scopes k { t with context := t.context.enter } := by
    rintro _ rfl
    exact ⟨rfl, hs.bounded.enter, hs.deep⟩
  refine (h s.context.scopes).inScope henter ?_ hleave s rfl
  rintro a t ⟨j, hkj, ht, -⟩
  exact ⟨k, Nat.le_refl k, hleave t (ht.mono hkj), trivial⟩

end measuring

end Parse

namespace Grammar

open Parse Offside.Expr

/-- The static type of the tree, where it is known, is at most `maxNesting` deeper than the aliases.
-/
def Shallow (k : Nat) (e : Expr) : Prop := ∀ t ∈ e.ty, t.depth ≤ maxNesting + k

theorem Shallow.mono {k j : Nat} {e : Expr} (h : Shallow k e) (hkj : k ≤ j) : Shallow j e :=
  fun t ht => Nat.le_trans (h t ht) (Nat.add_le_add_left hkj _)

theorem shallow_of_ty_none {k : Nat} {e : Expr} (h : e.ty = none) : Shallow k e := by
  intro t ht
  rw [h] at ht
  cases ht

theorem shallow_of_depth {k : Nat} {e : Expr} {t : Ty} (h : e.ty = some t) (ht : t.depth = 0) :
    Shallow k e := by
  intro u hu
  rw [h] at hu
  cases hu
  omega

theorem shallow_constant (k : Nat) (value : Literal) : Shallow k (.constant value) :=
  shallow_of_depth rfl (by cases value <;> rfl)

theorem shallow_operation {k : Nat} (op : Operator) (left right : Expr) :
    Shallow k (operation op left right) := by
  cases op with
  | arithmetic op => exact shallow_of_depth rfl (by cases op <;> rfl)
  | comparison op => exact shallow_of_ty_none rfl
  | connective op => exact shallow_of_ty_none rfl

theorem shallow_of_checkedApply {k : Nat} {terms : List Expr} {expected : Option Ty} {e : Expr}
    (hterms : ∀ t ∈ terms, Shallow k t) (h : checkedApply terms expected = .ok e) :
    Shallow k e := by
  obtain ⟨callee, arguments, rfl, rfl⟩ := eq_apply_of_checked h
  exact Ty.depth_afterArguments (hterms callee List.mem_cons_self)

theorem shallow_of_checkedDefine {k : Nat} {x : String} {value e : Expr} {declared : Option Ty}
    (hvalue : Shallow k value) (hdeclared : ∀ t ∈ declared, t.depth ≤ maxNesting + k)
    (h : checkedDefine x value declared = .ok e) : Shallow k e := by
  rw [eq_define_of_checked h]
  intro t ht
  rcases Option.or_eq_some_iff.1 ht with ht | ⟨-, ht⟩
  · exact hvalue t ht
  · exact hdeclared t ht

/-- The type has been read where the aliases were so deep, and is at most so much deeper than they
are by now. -/
structure ReadTy (n k j : Nat) (t : Ty) : Prop where
  later : k ≤ j
  depth : t.depth ≤ n + j

namespace ReadTy

variable {n k i j : Nat} {t u : Ty}

theorem deeper (h : ReadTy n k j t) : ReadTy (n + 1) k j t where
  later := h.later
  depth := by
    have hdepth := h.depth
    omega

theorem list (h : ReadTy n k j t) : ReadTy (n + 1) k j (.list t) where
  later := h.later
  depth := by
    have hdepth := h.depth
    simp only [Ty.depth]
    omega

theorem function (h : ReadTy n k i t) (h' : ReadTy n i j u) :
    ReadTy (n + 1) k j (.function t u) where
  later := Nat.le_trans h.later h'.later
  depth := by
    have hlater := h'.later
    have hinput := h.depth
    have houtput := h'.depth
    simp only [Ty.depth]
    omega

end ReadTy

/-- The tree has been read where the aliases were so deep, and is no deeper than they are by now. -/
structure ReadShallow (k j : Nat) (e : Expr) : Prop where
  later : k ≤ j
  shallow : Shallow j e

theorem shallow_of_chained {k j : Nat} {es es' : List Expr}
    (h : Chained (fun k j e _ => ReadShallow k j e) k j es es') :
    k ≤ j ∧ ∀ e ∈ es, Shallow j e := by
  induction h with
  | nil => exact ⟨Nat.le_refl _, List.forall_mem_nil _⟩
  | cons h _ ih =>
    refine ⟨Nat.le_trans h.later ih.1, List.forall_mem_cons.2 ⟨h.shallow.mono ih.1, ih.2⟩⟩

theorem resolveTy_depth (name : String) (n k : Nat) :
    measuring.Holds k (resolveTy name) fun j t => ReadTy n k j t := by
  refine fun _ => .get fun s hs => ?_
  split
  · next t ht =>
    have hread : ReadTy n k (deepest s.context.aliases) t := by
      refine ⟨hs.deep, ?_⟩
      rcases Option.or_eq_some_iff.1 ht with ht | ⟨-, ht⟩
      · have hprimitive := Ty.depth_ofName? ht
        omega
      · have halias := depth_le_deepest (Context.mem_aliases_of_alias? ht)
        omega
    refine .pure ?_
    rintro _ rfl
    exact ⟨_, hs.deep, ⟨hs.outer, hs.bounded, Nat.le_refl _⟩, hread⟩
  · exact .throw fun u hu => hu ▸ hs

theorem integer_shallow (digits : String) (k : Nat) :
    measuring.Holds k (integer digits) fun j e => ReadShallow k j e := by
  unfold integer
  dsimp only
  split
  · exact .pure ⟨Nat.le_refl k, shallow_constant k _⟩
  · exact .throw trivial _

theorem word_shallow (name : String) (k : Nat) :
    measuring.Holds k (word name) fun j e => ReadShallow k j e := by
  have hconstant (b : Bool) : ReadShallow k k (.constant (.bool b)) :=
    ⟨Nat.le_refl k, shallow_constant k _⟩
  unfold word
  split
  · exact .pure (hconstant true)
  · split
    · exact .pure (hconstant false)
    · exact (measuring.valueTy? name).bind fun j t hj ht => .pure ⟨hj, ht⟩

theorem application_shallow {k j : Nat} {terms : List Expr} (hkj : k ≤ j)
    (hterms : ∀ t ∈ terms, Shallow j t) :
    measuring.Holds j (application terms) fun i e => ReadShallow k i e := by
  have hchecked : measuring.Holds j (check (checkedApply terms (chainTy terms.tail)))
      fun i e => ReadShallow k i e :=
    .check trivial fun e he => ⟨hkj, shallow_of_checkedApply hterms he⟩
  refine (Tracking.Holds.comesNext (T := measuring) j .symbol "=").bind fun i b _ hi => ?_
  subst hi
  split
  · split
    · refine .check trivial fun e he => ⟨hkj, shallow_of_checkedApply (fun t ht => ?_) he⟩
      obtain ⟨x, -, rfl⟩ := List.mem_map.1 ht
      exact shallow_of_ty_none rfl
    · exact hchecked
  · exact hchecked

theorem depth_of_paramTys? {m : Nat} {t : Ty} {params : List String} {typed : List (String × Ty)}
    (ht : t.depth ≤ m) (htyped : paramTys? t params = some typed) :
    ∀ p ∈ typed, p.2.depth ≤ m := by
  induction params generalizing t typed with
  | nil =>
    rw [paramTys?] at htyped
    cases htyped
    exact fun _ hp => nomatch hp
  | cons x params ih =>
    cases t with
    | function input output =>
      obtain ⟨rest, hrest, rfl⟩ := Option.map_eq_some_iff.1 htyped
      simp only [Ty.depth] at ht
      have hinput : input.depth ≤ m := by omega
      exact List.forall_mem_cons.2 ⟨hinput, ih (by omega) hrest⟩
    | _ => cases htyped

theorem setAlias_shallow {room k j : Nat} (x : String) {t : Ty} (hroom : room ≤ maxNesting)
    (ht : ReadTy room k j t) : measuring.Holds j (setAlias x t) fun _ _ => True := by
  have hdepth := ht.depth
  exact (measuring.setAlias x (by omega)).post fun _ _ _ _ => trivial

theorem typing_shallow {below : Option Grammar} {room k : Nat} (hroom : room ≤ maxNesting)
    (hty : measuring.Holds k (nested below functionTy) fun j t => ReadTy room k j t) (e : Expr) :
    measuring.Holds k (typing below e) fun _ _ => True := by
  cases e with
  | name x t =>
    refine hty.bind fun j t _ ht => ?_
    have hdepth := ht.depth
    exact (measuring.setValue x (by omega)).post fun _ _ _ _ => trivial
  | _ => exact .throw trivial _

theorem bindParams_shallow {k : Nat} (name : String) (params : List String) {declared : Option Ty}
    (hdeclared : ∀ t ∈ declared, t.depth ≤ maxNesting + k) :
    measuring.Holds k (bindParams name params declared) fun _ _ => True := by
  cases declared with
  | none => exact .pure trivial
  | some t =>
    unfold bindParams
    dsimp only
    split
    · next typed htyped =>
      have hdepths := depth_of_paramTys? (hdeclared t rfl) htyped
      clear htyped
      induction typed generalizing k with
      | nil => exact .pure trivial
      | cons p ps ih =>
        rw [List.forall_mem_cons] at hdepths
        have hfirst := measuring.setValue p.1 hdepths.1
        refine hfirst.bind fun j _ hj _ => ih (fun u hu => ?_) fun q hq => ?_
        · exact Nat.le_trans (hdeclared u hu) (Nat.add_le_add_left hj _)
        · exact Nat.le_trans (hdepths.2 q hq) (Nat.add_le_add_left hj _)
    · exact .throw trivial _

section

variable {below : Option Grammar}
  (hinner : ∀ k, measuring.Holds k (nested below inner) fun j e => ReadShallow k j e)
include hinner

theorem functionDefinition_shallow (name : String) (params : List String) (k : Nat) :
    measuring.Holds k (functionDefinition below name params) fun j e => ReadShallow k j e := by
  refine (measuring.valueTy? name).bind fun j declared hj hdeclared => ?_
  have hbody : measuring.Holds j (do
      bindParams name params declared
      nested below inner) fun _ _ => True :=
    (bindParams_shallow name params hdeclared).bind fun i _ _ _ =>
      (hinner i).post fun _ _ _ _ => trivial
  refine (measuring.inScope hbody).bind fun i body hi _ => .pure ⟨Nat.le_trans hj hi, ?_⟩
  exact Shallow.mono (e := .function name params body declared) hdeclared hi

theorem variableDefinition_shallow (name : String) (k : Nat) :
    measuring.Holds k (variableDefinition below name) fun j e => ReadShallow k j e := by
  refine (measuring.valueTy? name).bind fun j declared hj hdeclared => ?_
  refine (hinner j).bind fun i value _ hvalue => ?_
  have hdefine : measuring.Holds i (check (checkedDefine name value declared))
      fun l e => i = l ∧ Shallow i e := by
    refine .check trivial fun e he => ⟨rfl, shallow_of_checkedDefine hvalue.shallow ?_ he⟩
    exact fun t ht => Nat.le_trans (hdeclared t ht) (Nat.add_le_add_left hvalue.later _)
  refine hdefine.bind fun l e _ ⟨hl, he⟩ => ?_
  subst hl
  have hread : ReadShallow k i e := ⟨Nat.le_trans hj hvalue.later, he⟩
  split
  · next t hty =>
    refine (measuring.setValue name (he t hty)).bind fun m _ hm _ => .pure ?_
    exact ⟨Nat.le_trans hread.later hm, he.mono hm⟩
  · exact .pure hread

theorem definition_shallow (target : Expr) (k : Nat) :
    measuring.Holds k (definition below target) fun j e => ReadShallow k j e := by
  unfold definition
  split
  · exact functionDefinition_shallow hinner _ _ k
  · exact variableDefinition_shallow hinner _ k
  · exact .throw trivial _

end

/-- A type is at most as much deeper than the aliases as levels may be opened for it. -/
def shallow : Productions measuring.judgement where
  Rooms room room' := room' = room ∧ room ≤ maxNesting
  Typed n k j t _ := ReadTy n k j t
  Tree _ k j e _ := ReadShallow k j e
  Declared _ _ := True
  rooms h := ⟨Nat.succ.inj h.1, Nat.le_of_succ_le h.2⟩
  cut h := nomatch h.1
  resolve _ h n := by
    cases h
    exact (resolveTy_depth _ n _).alone
  deeper := ReadTy.deeper
  list hlist h := by
    cases measuring.word hlist
    exact h.list
  groupTy hopen h hclose := by
    cases measuring.word hopen
    cases measuring.word hclose
    exact h
  arrow h harrow h' := by
    cases measuring.word harrow
    exact h.function h'
  higher _ h := h
  integer _ h := by
    cases h
    exact (integer_shallow _ _).alone
  float _ h := ⟨Nat.le_of_eq h.symm, shallow_constant _ _⟩
  string _ h := ⟨Nat.le_of_eq h.symm, shallow_constant _ _⟩
  word _ h := by
    cases h
    exact (word_shallow _ _).alone
  group hopen h hclose := by
    cases measuring.word hopen
    cases measuring.word hclose
    exact h
  member h hdot hkey := by
    cases measuring.word hdot
    exact ⟨Nat.le_trans h.later hkey.later, shallow_of_ty_none rfl⟩
  application _ h _ := by
    obtain ⟨hlater, hterms⟩ := shallow_of_chained h
    exact (application_shallow hlater hterms).alone
  operation _ h _ htoken h' := by
    cases htoken
    refine .check trivial fun e he => ⟨e, Nat.le_trans h.later h'.later, ?_⟩
    rw [eq_operation_of_checked he]
    exact shallow_operation _ _ _
  lambda hslash hparams harrow h := by
    cases measuring.word harrow
    cases measuring.names hparams
    cases measuring.word hslash
    exact ⟨h.later, shallow_of_ty_none rfl⟩
  aliasing hrooms _ _ _ _ h := (setAlias_shallow _ hrooms.2 h).alone
  typing hrooms hty _ _ := (typing_shallow hrooms.2 (.ofFirst (hty _ trivial)) _).alone
  definition _ hinner h hequals := by
    cases measuring.word hequals
    have hinner (k : Nat) := Tracking.Holds.ofFirst (hinner k trivial)
    refine ((definition_shallow hinner _ _).post fun _ e _ he => ?_).alone
    exact ⟨Nat.le_trans h.later he.later, he.shallow⟩

end Grammar

namespace Parse

open Grammar

theorem statement_holding (outer : List Scope) (k : Nat) :
    Triple (Holding outer k) statement (fun _ => Holding outer k) (Holding outer k) := by
  have hlevel := ofRoom_level (P := shallow) nofun nofun ⟨rfl, Nat.le_refl maxNesting⟩
  have hcall : measuring.Holds k statement fun _ _ => True := by
    refine .steps fun steps => Tracking.Holds.post
      (Tracking.Holds.statementWithin (T := measuring) (Q := fun _ _ _ => True) (fun k => ?_)
        steps k) fun _ _ _ _ => trivial
    refine Tracking.Holds.post (hlevel.statement k) ?_
    rintro j o - ⟨o', ho⟩
    cases o with
    | none => exact (stated_inv ho).2
    | some found => trivial
  refine (hcall outer).post ?_
  rintro o s ⟨j, hk, hs, -⟩
  exact hs.mono hk

theorem afterCalls_holding (source : String) (n : Nat) :
    Holding [] 0 ((ParseState.ofSource source).afterCalls n) := by
  have hstart : Holding [] 0 (ParseState.ofSource source) :=
    ⟨rfl, Context.bounded_empty, Nat.zero_le _⟩
  exact (statement_holding [] 0).afterCalls (fun _ _ h => h) hstart n

/-- After any calls, whether they have failed or not: the type of an alias is at most `maxNesting`
deeper than those of the aliases before it, and the type of a value than those of all aliases. -/
theorem afterCalls_depths (source : String) (n : Nat) :
    (∀ x t older, (x, t) :: older <:+ ((ParseState.ofSource source).afterCalls n).context.aliases →
        t.depth ≤ maxNesting + deepest older) ∧
      ∀ x t, (x, t) ∈ ((ParseState.ofSource source).afterCalls n).context.values →
        t.depth ≤ maxNesting + deepest ((ParseState.ofSource source).afterCalls n).context.aliases := by
  obtain ⟨haliases, hvalues⟩ := (afterCalls_holding source n).bounded
  exact ⟨haliases, fun x t hmem => hvalues (x, t) hmem⟩

/-- So many lists of a type. -/
def lists (t : Ty) : Nat → Ty
  | 0 => t
  | n + 1 => .list (lists t n)

def listsText (cs : List Char) : Nat → List Char
  | 0 => cs
  | n + 1 => ['L', 'i', 's', 't', ' '] ++ listsText cs n

/-- An alias of 63 lists, and another one of two lists of it. -/
def splicedText : List Char :=
  "type A = ".toList ++ listsText ("Int\ntype B = ".toList ++ listsText ['A'] 2) 63

set_option maxRecDepth 4000 in
theorem aliases_splicedText :
    ((ParseState.ofSource (String.ofList splicedText)).afterCalls 2).context.aliases =
      [("B", lists .int 65), ("A", lists .int 63)] := by
  unfold ParseState.ofSource TokenStream.ofSource
  rw [String.toList_ofList]
  cbv

/-- The second alias takes the first one with it and is deeper than any type expression. -/
theorem afterCalls_depths_spliced :
    ("B", lists .int 65) ∈
        ((ParseState.ofSource (String.ofList splicedText)).afterCalls 2).context.aliases ∧
      (lists .int 65).depth = maxNesting + 1 ∧
      ¬ ∀ source n, ∀ a ∈ ((ParseState.ofSource source).afterCalls n).context.aliases,
        a.2.depth ≤ maxNesting := by
  have hmem : ("B", lists .int 65) ∈
      ((ParseState.ofSource (String.ofList splicedText)).afterCalls 2).context.aliases := by
    rw [aliases_splicedText]
    exact List.mem_cons_self
  have hdepth : (lists .int 65).depth = maxNesting + 1 := by decide
  refine ⟨hmem, hdepth, fun h => ?_⟩
  have hle : (lists .int 65).depth ≤ maxNesting := h _ 2 _ hmem
  omega

end Parse

end Offside
