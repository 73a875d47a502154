import Offside.Proofs.Parse.Calls

namespace Offside

/-- A reader that counts how many levels of nesting are open, where the grammar is given the levels
that are left. A count has to be taken back on every way out: around groups, bodies and types by one,
behind a row of operators or members to what it was before the row. -/
structure CountingState where
  reader : ParseState
  levels : Nat := 0

abbrev Counting := EStateM Error CountingState

namespace Counting

variable {α : Type}

/-- A parser that opens no level. -/
def plain (p : Parse α) : Counting α := fun s =>
  match p s.reader with
  | .ok a t => .ok a { s with reader := t }
  | .error e t => .error e { s with reader := t }

def descend : Counting Unit := fun s =>
  if s.levels < Grammar.maxNesting then .ok () { s with levels := s.levels + 1 }
  else .error (.parse .nestedTooDeeply) s

/-- Closes a level, however the parser ends. -/
def closing (c : Counting α) : Counting α := fun s =>
  match c s with
  | .ok a t => .ok a { t with levels := t.levels - 1 }
  | .error e t => .error e { t with levels := t.levels - 1 }

/-- Closes all levels that the parser leaves open, however it ends. -/
def restoring (c : Counting α) : Counting α := fun s =>
  match c s with
  | .ok a t => .ok a { t with levels := s.levels }
  | .error e t => .error e { t with levels := s.levels }

/-- Runs a parser in a scope of its own, which is left however the parser ends. -/
def inScope (c : Counting α) : Counting α := fun s =>
  match c { s with reader.context := s.reader.context.enter } with
  | .ok a t => .ok a { t with reader.context := t.reader.context.exit }
  | .error e t => .error e { t with reader.context := t.reader.context.exit }

end Counting

/-- The parsers of `Grammar`, in a reader that counts. -/
structure CountingGrammar where
  functionTy : Counting Ty
  tyAtom : Counting Ty
  simpleTerm : Counting (Option Expr)
  /-- Leaves a level open for each member that it reads. -/
  members : Expr → Counting Expr
  sequence : Counting (Option Expr)
  product : Counting (Option Expr)
  /-- Leaves a level open for each operator that it reads. -/
  fold : Tier → Expr → Counting Expr
  statement : Counting (Option Statement)
  inner : Counting Expr

namespace CountingGrammar

open Parse Counting

variable {α : Type}

/-- The recursion may be cut off where no level is left. The count sees to it that this does not
show. -/
def enter (below : Option CountingGrammar) (p : CountingGrammar → Counting α) : Counting α :=
  match below with
  | none => plain (fail .nestedTooDeeply)
  | some g => p g

/-- Opens a level for a parser. -/
def nested (below : Option CountingGrammar) (p : CountingGrammar → Counting α) : Counting α := do
  descend
  closing (enter below p)

/-- Opens a level that stays open. -/
def deeper (below : Option CountingGrammar) (p : CountingGrammar → Counting α) : Counting α := do
  descend
  enter below p

def tyAtomAbove (below : Option CountingGrammar) : Counting Ty := do
  match ← plain next with
  | none => plain (fail (.missingType none))
  | some token =>
    if token.is .delimiter "(" then
      let t ← nested below functionTy
      plain (expect .delimiter ")")
      return t
    else if token.is .name "List" then return .list (← nested below tyAtom)
    else if token.kind = .name then plain (Grammar.resolveTy token.text)
    else plain (fail (.missingType (some token.text)))

def functionTyAbove (below : Option CountingGrammar) : Counting Ty := do
  let input ← tyAtomAbove below
  if ← plain (accept .symbol "->") then return .function input (← nested below functionTy)
  else return input

def simpleTermAbove (below : Option CountingGrammar) : Counting (Option Expr) := do
  match ← plain next with
  | none => return none
  | some token =>
    match token.kind with
    | .integer => some <$> plain (Grammar.integer token.text)
    | .float => return some (.constant (.float (Decimal.readFloat token.text.toList)))
    | .string => return some (.constant (.string token.text))
    | .name => some <$> plain (Grammar.word token.text)
    | _ =>
      if token.is .delimiter "(" then
        let e ← nested below inner
        plain (expect .delimiter ")")
        return some e
      else
        plain (push token)
        return none

def membersAbove (below : Option CountingGrammar) (e : Expr) : Counting Expr := do
  if ← plain (accept .symbol ".") then
    deeper below fun g => do
      match ← g.simpleTerm with
      | none => plain (fail .missingMember)
      | some key => g.members (.member e key)
  else return e

def termAbove (below : Option CountingGrammar) : Counting (Option Expr) := do
  match ← simpleTermAbove below with
  | none => return none
  | some e => some <$> restoring (membersAbove below e)

def termsAbove (below : Option CountingGrammar) : (steps : Nat) → Counting (List Expr)
  | 0 => return []
  | steps + 1 => do
    match ← termAbove below with
    | none => return []
    | some e => return e :: (← termsAbove below steps)

def sequenceAbove (below : Option CountingGrammar) : Counting (Option Expr) := do
  match ← termsAbove below (← plain steps) with
  | [] => return none
  | [e] => return some e
  | terms => some <$> plain (Grammar.application terms)

def operand (g : CountingGrammar) : Tier → Counting (Option Expr)
  | .sum => g.product
  | .product => g.sequence

def foldAbove (below : Option CountingGrammar) (tier : Tier) (left : Expr) : Counting Expr := do
  match ← plain next with
  | none => return left
  | some token =>
    match Grammar.operatorOf? tier token with
    | none =>
      plain (push token)
      return left
    | some op =>
      deeper below fun g => do
        match ← g.operand tier with
        | none => plain (fail (.missingOperand op))
        | some right => g.fold tier (← plain (check (Expr.checkedOperation op left right)))

def productAbove (below : Option CountingGrammar) : Counting (Option Expr) := do
  match ← sequenceAbove below with
  | none => return none
  | some e => some <$> restoring (foldAbove below .product e)

def sumAbove (below : Option CountingGrammar) : Counting (Option Expr) := do
  match ← productAbove below with
  | none => return none
  | some e => some <$> restoring (foldAbove below .sum e)

def typeAlias (below : Option CountingGrammar) : Counting Unit := do
  let name ← plain name
  plain (expect .symbol "=")
  let t ← nested below functionTy
  plain (setAlias name t)

def typing (below : Option CountingGrammar) : Expr → Counting Unit
  | .name name _ => do
    let t ← nested below functionTy
    plain (setValue name t)
  | _ => plain (fail .annotatedExpression)

def lambda (below : Option CountingGrammar) : Counting Expr := do
  let params ← plain names
  plain (expect .symbol "->")
  return .lambda params (← nested below inner)

def functionDefinition (below : Option CountingGrammar) (name : String) (params : List String) :
    Counting Expr := do
  let declared ← plain (valueTy? name)
  let body ← Counting.inScope do
    plain (Grammar.bindParams name params declared)
    nested below inner
  return .function name params body declared

def variableDefinition (below : Option CountingGrammar) (name : String) : Counting Expr := do
  let declared ← plain (valueTy? name)
  let value ← nested below inner
  let e ← plain (check (Expr.checkedDefine name value declared))
  match declared, e.ty with
  | none, some t => plain (setValue name t)
  | _, _ => pure ()
  return e

def definition (below : Option CountingGrammar) (target : Expr) : Counting Expr :=
  match target.headNames?, target with
  | some (name :: params), _ => functionDefinition below name params
  | _, .name name _ => variableDefinition below name
  | _, _ => plain (fail .assignedExpression)

def statementAbove (below : Option CountingGrammar) : Counting (Option Statement) := do
  if ← plain (accept .name "type") then
    typeAlias below
    return some .declaration
  else if ← plain (accept .symbol "\\") then return some (.expression (← lambda below))
  else
    match ← sumAbove below with
    | none => return none
    | some e =>
      if ← plain (accept .symbol ":") then
        typing below e
        return some .declaration
      else if ← plain (accept .symbol "=") then return some (.expression (← definition below e))
      else return some (.expression e)

def innerAbove (below : Option CountingGrammar) : Counting Expr := do
  match ← statementAbove below with
  | some (.expression e) => return e
  | some .declaration => plain (fail .nestedDeclaration)
  | none =>
    match ← plain next with
    | none => plain (fail (.missingExpression none))
    | some token =>
      plain (fail (.missingExpression (if token.kind = .terminator then none else some token.text)))

def above (below : Option CountingGrammar) : CountingGrammar where
  functionTy := functionTyAbove below
  tyAtom := tyAtomAbove below
  simpleTerm := simpleTermAbove below
  members := membersAbove below
  sequence := sequenceAbove below
  product := productAbove below
  fold := foldAbove below
  statement := statementAbove below
  inner := innerAbove below

/-- The recursion is cut off at so many levels. -/
def ofFuel : Nat → CountingGrammar
  | 0 => above none
  | fuel + 1 => above (some (ofFuel fuel))

end CountingGrammar

namespace Counting

open Parse

def statementWithin (fuel : Nat) : (steps : Nat) → Counting (Option Statement)
  | 0 => return none
  | steps + 1 => do
    plain skipLines
    match ← (CountingGrammar.ofFuel fuel).statement with
    | some statement =>
      plain terminator
      return some statement
    | none =>
      match ← plain next with
      | none => return none
      | some token =>
        if token.kind = .terminator then statementWithin fuel steps
        else plain (fail (.unexpected token))

def statement (fuel : Nat) : Counting (Option Statement) := do
  statementWithin fuel (← plain Parse.steps)

end Counting

/-- The state that a counting reader is left in after so many calls. A failed call does not stop
it. -/
def CountingState.afterCalls (fuel : Nat) (s : CountingState) : Nat → CountingState
  | 0 => s
  | n + 1 =>
    match Counting.statement fuel (s.afterCalls fuel n) with
    | .ok _ t => t
    | .error _ t => t

namespace Parse

variable {α β : Type}

/-- The innermost scope stands in these, and at most so many tokens are handed back. -/
structure Lending (outer : List Scope) (n : Nat) (s : ParseState) : Prop where
  outer : s.context.outer = outer
  pending : s.tokens.pending.length ≤ n

/-- One token is all that can come from those handed back. -/
theorem next_lending (outer : List Scope) :
    Triple (Lending outer 1) next (fun _ => Lending outer 0) (Lending outer 1) := by
  intro s hs
  have hpending := hs.pending
  unfold next TokenStream.next
  cases hback : s.tokens.pending with
  | cons t pending =>
    rw [hback, List.length_cons] at hpending
    exact ⟨hs.outer, by simpa using hpending⟩
  | nil =>
    have hread := TokenStream.read_spec s.tokens (Lexeme.skipBlanks false s.tokens.rest)
    have hnone {t : TokenStream} (ht : t.pending = s.tokens.pending) : t.pending.length ≤ 0 := by
      rw [ht, hback]
      exact Nat.le_refl 0
    dsimp only
    cases h : s.tokens.read (Lexeme.skipBlanks false s.tokens.rest) with
    | ok o t =>
      rw [h] at hread
      cases o with
      | none => exact ⟨hs.outer, hnone hread.2.2⟩
      | some token => exact ⟨hs.outer, hnone hread.2⟩
    | error e t =>
      rw [h] at hread
      exact ⟨hs.outer, Nat.le_succ_of_le (hnone hread.2)⟩

/-- At most one token is handed back at a time, and scopes that are entered are left. -/
abbrev lending : Tracking where
  World := Unit
  Index := List Scope
  At outer _ := Lending outer 1
  Fails outer _ := Lending outer 1
  Later _ _ := True
  Inside _ := True
  Took _ _ _ := True
  refl _ := trivial
  trans _ _ := trivial
  later _ := trivial
  inside _ := trivial
  inside_mono _ _ := trivial
  fails_mono _ hs := hs
  fails _ hs := hs
  next {outer _ s} hs := by
    have hnext := next_lending outer s hs
    unfold next at hnext
    cases h : s.tokens.next with
    | error e t =>
      rw [h] at hnext
      exact hnext
    | ok o t =>
      rw [h] at hnext
      have hlate : Lending outer 1 { s with tokens := t } :=
        ⟨hnext.outer, Nat.le_succ_of_le hnext.pending⟩
      cases o with
      | none => exact hlate
      | some token => exact ⟨⟨hnext.outer, Nat.succ_le_succ hnext.pending⟩, (), trivial, hlate⟩
  skipLines {_ _ s} hs := by
    have hle := (List.dropWhile_suffix (l := s.tokens.pending)
      fun t => decide (t.kind = .terminator)).length_le
    exact ⟨hs.outer, Nat.le_trans hle hs.pending⟩

theorem lending_quiet : lending.Quiet where
  setAlias hs _ _ := ⟨hs.outer, hs.pending⟩
  setValue hs _ _ := ⟨hs.outer, hs.pending⟩
  inScope {_ w p R} h := by
    intro outer s hs
    have hleave : ∀ t, Lending s.context.scopes 1 t →
        Lending outer 1 { t with context := t.context.exit } := by
      intro t ht
      have hexit : t.context.exit = s.context := by
        rw [Context.exit, ht.outer]
        rfl
      exact ⟨(congrArg Context.outer hexit).trans hs.outer, ht.pending⟩
    have henter : ∀ t, t = s →
        Lending s.context.scopes 1 { t with context := t.context.enter } := by
      rintro _ rfl
      exact ⟨rfl, hs.pending⟩
    exact (h s.context.scopes).inScope henter
      (fun _ t ⟨w', hw', ht, ha⟩ => ⟨w', hw', hleave t ht, ha⟩) hleave s rfl

theorem statement_lending (outer : List Scope) :
    Triple (Lending outer 1) (Grammar.ofRoom Grammar.maxNesting).statement
      (fun _ => Lending outer 1) (Lending outer 1) := by
  have h := ((Grammar.heights lending lending_quiet).growth.level Grammar.maxNesting).statement ()
  exact (h outer).post fun _ _ ⟨_, _, hs, _⟩ => hs

/-- What is handed back is a delimiter. -/
def Delimited (s : ParseState) : Prop := ∀ token ∈ s.tokens.pending, token.kind = .delimiter

theorem terminator_delimited (outer : List Scope) :
    Triple (Lending outer 1) terminator (fun _ => Delimited) fun _ => True := by
  have hnone : ∀ s, Lending outer 0 s → Delimited s := by
    intro s hs token htoken
    rw [List.length_eq_zero_iff.1 (Nat.le_zero.1 hs.pending)] at htoken
    cases htoken
  have hnext := (next_lending outer).consequence (fun _ => id) (fun _ _ => id) fun _ _ => trivial
  refine hnext.bind fun o => ?_
  cases o with
  | none => exact .pure hnone
  | some token =>
    dsimp only
    split
    · exact .pure hnone
    · next hkind =>
      intro s hs t ht
      obtain rfl | ht := List.mem_cons.1 ht
      · exact hkind
      · exact hnone s hs t ht
    · exact .fail fun _ _ => trivial

theorem statementWithin_delimited (outer : List Scope) (steps : Nat) :
    Triple (Lending outer 1) (statementWithin steps) (fun o s => o.isSome → Delimited s)
      fun _ => True := by
  have hforget {α : Type} {n m : Nat} {p : Parse α}
      (h : Triple (Lending outer n) p (fun _ => Lending outer m) (Lending outer 1)) :
      Triple (Lending outer n) p (fun _ => Lending outer m) fun _ => True :=
    h.consequence (fun _ => id) (fun _ _ => id) fun _ _ => trivial
  induction steps with
  | zero => exact .pure fun _ _ h => nomatch h
  | succ steps ih =>
    have hskip : Triple (Lending outer 1) skipLines (fun _ => Lending outer 1) fun _ => True :=
      fun s hs => lending.skipLines (w := ()) hs
    refine hskip.bind fun _ => (hforget (statement_lending outer)).bind fun o => ?_
    cases o with
    | some found => exact (terminator_delimited outer).bind fun _ => .pure fun _ hs _ => hs
    | none =>
      refine (hforget (next_lending outer)).bind fun o => ?_
      cases o with
      | none => exact .pure fun _ _ h => nomatch h
      | some token =>
        dsimp only
        split
        · exact ih.pre fun s hs => ⟨hs.outer, Nat.le_succ_of_le hs.pending⟩
        · exact .fail fun _ _ => trivial

/-- Calls leave the scopes alone that were there before the first of them. -/
theorem afterCalls_lending {s : ParseState} (hs : s.tokens.pending = []) (n : Nat) :
    Lending s.context.outer 1 (s.afterCalls n) := by
  have hstart : Lending s.context.outer 1 s := ⟨rfl, by rw [hs]; exact Nat.zero_le 1⟩
  have hcall : lending.Holds () statement _ := .steps fun n =>
    (Grammar.heights lending lending_quiet).growth.statementWithin n ()
  exact Triple.afterCalls (hcall s.context.outer) (fun _ _ ⟨_, _, ht, _⟩ => ht) hstart n

end Parse

namespace Counting

open Parse

variable {α β : Type}

theorem descend_of_lt (s : ParseState) {d : Nat} (hd : d < Grammar.maxNesting) :
    descend ⟨s, d⟩ = .ok () ⟨s, d + 1⟩ := if_pos hd

theorem descend_of_not_lt (s : ParseState) {d : Nat} (hd : ¬ d < Grammar.maxNesting) :
    descend ⟨s, d⟩ = .error (.parse .nestedTooDeeply) ⟨s, d⟩ := if_neg hd

theorem plain_bind (p : Parse α) (f : α → Parse β) (s : CountingState) :
    plain (p >>= f) s = (plain p >>= fun a => plain (f a)) s := by
  show plain (EStateM.bind p f) s = EStateM.bind (plain p) (fun a => plain (f a)) s
  unfold plain EStateM.bind
  dsimp only
  cases p s.reader <;> rfl

/-- With `d` levels open the counting parser does what the other one does, and gives all levels back.
-/
def Balanced (d : Nat) (c : Counting α) (p : Parse α) : Prop :=
  ∀ s : ParseState, c ⟨s, d⟩ = plain p ⟨s, d⟩

namespace Balanced

variable {d : Nat} {c : Counting α} {p : Parse α} {f : α → Counting β} {q : α → Parse β}

theorem plain (p : Parse α) : Balanced d (Counting.plain p) p := fun _ => rfl

theorem pure (a : α) : Balanced d (Pure.pure a) (Pure.pure a) := fun _ => rfl

theorem fail (cause : ParseError) :
    Balanced d (Counting.plain (Parse.fail cause : Parse α)) (Parse.fail cause) := plain _

theorem bind (hc : Balanced d c p) (hf : ∀ a, Balanced d (f a) (q a)) :
    Balanced d (c >>= f) (p >>= q) := by
  intro s
  rw [plain_bind]
  refine bind_congr (hc s) fun a t ht => ?_
  unfold Counting.plain at ht
  split at ht <;> cases ht
  exact hf a _

theorem map {g : α → β} (hc : Balanced d c p) : Balanced d (g <$> c) (g <$> p) := by
  rw [← bind_pure_comp, ← bind_pure_comp]
  exact hc.bind fun a => pure (g a)

/-- Behind a parser that gives all levels back a row is closed as well as before it. -/
theorem restoringBind (hc : Balanced d c p) (hf : ∀ a, Balanced d (restoring (f a)) (q a)) :
    Balanced d (restoring (c >>= f)) (p >>= q) := by
  intro s
  rw [plain_bind]
  have hs := hc s
  unfold restoring
  cases hp : Counting.plain p ⟨s, d⟩ with
  | error e t =>
    rw [bind_of_error (hs.trans hp), bind_of_error hp]
    unfold Counting.plain at hp
    split at hp <;> cases hp
    rfl
  | ok a t =>
    rw [bind_of_ok (hs.trans hp), bind_of_ok hp]
    unfold Counting.plain at hp
    split at hp <;> cases hp
    exact hf a _

/-- The two tests may be decided in two ways. -/
theorem branch {φ : Prop} {dec dec' : Decidable φ} {c' : Counting α} {p' : Parse α}
    (h : φ → Balanced d c p) (h' : ¬ φ → Balanced d c' p') :
    Balanced d (@ite _ φ dec c c') (@ite _ φ dec' p p') := by
  by_cases hφ : φ
  · rw [if_pos hφ, if_pos hφ]
    exact h hφ
  · rw [if_neg hφ, if_neg hφ]
    exact h' hφ

theorem restoring (hc : Balanced d c p) : Balanced d (restoring c) p := by
  intro s
  unfold Counting.restoring
  rw [hc]
  unfold Counting.plain
  cases p s <;> rfl

theorem inScope (hc : Balanced d c p) :
    Balanced d (Counting.inScope c) (Parse.inScope p) := by
  intro s
  unfold Counting.inScope
  rw [hc]
  unfold Counting.plain Parse.inScope
  dsimp only
  cases p { s with context := s.context.enter } <;> rfl

end Balanced

end Counting

namespace CountingGrammar

open Parse Counting

variable {α : Type} {d : Nat}

/-- With `d` levels open, every parser of the one grammar does what that of the other one does. -/
structure Counts (d : Nat) (c : CountingGrammar) (g : Grammar) : Prop where
  functionTy : Balanced d c.functionTy g.functionTy
  tyAtom : Balanced d c.tyAtom g.tyAtom
  simpleTerm : Balanced d c.simpleTerm g.simpleTerm
  members (e : Expr) : Balanced d (restoring (c.members e)) (g.members e)
  sequence : Balanced d c.sequence g.sequence
  product : Balanced d c.product g.product
  fold (tier : Tier) (e : Expr) : Balanced d (restoring (c.fold tier e)) (g.fold tier e)
  statement : Balanced d c.statement g.statement
  inner : Balanced d c.inner g.inner

/-- A grammar has no level left where the count refuses one. -/
inductive Beneath (d : Nat) : Option CountingGrammar → Option Grammar → Prop
  | refused {cs : Option CountingGrammar} (hd : ¬ d < Grammar.maxNesting) : Beneath d cs none
  | opened {c : CountingGrammar} {g : Grammar} (hd : d < Grammar.maxNesting)
      (h : Counts (d + 1) c g) : Beneath d (some c) (some g)

section

variable {cs : Option CountingGrammar} {gs : Option Grammar} (h : Beneath d cs gs)
include h

theorem nested_balanced {p : CountingGrammar → Counting α} {q : Grammar → Parse α}
    (hp : ∀ c g, Counts (d + 1) c g → Balanced (d + 1) (p c) (q g)) :
    Balanced d (nested cs p) (Grammar.nested gs q) := by
  cases h with
  | refused hd =>
    intro s
    exact bind_of_error (descend_of_not_lt s hd)
  | opened hd hcounts =>
    intro s
    refine (bind_of_ok (descend_of_lt s hd)).trans ?_
    show closing (p _) ⟨s, d + 1⟩ = plain (q _) ⟨s, d⟩
    unfold closing
    rw [hp _ _ hcounts]
    unfold plain
    cases q _ s <;> rfl

/-- The levels of a row are given back once, behind all of it. -/
theorem deeper_balanced {p : CountingGrammar → Counting α} {q : Grammar → Parse α}
    (hp : ∀ c g, Counts (d + 1) c g → Balanced (d + 1) (restoring (p c)) (q g)) :
    Balanced d (restoring (deeper cs p)) (Grammar.nested gs q) := by
  cases h with
  | refused hd =>
    intro s
    unfold restoring deeper
    rw [bind_of_error (descend_of_not_lt s hd)]
    rfl
  | @opened c g hd hcounts =>
    intro s
    have hrow := hp c g hcounts s
    unfold restoring deeper
    rw [bind_of_ok (descend_of_lt s hd)]
    show (match p c ⟨s, d + 1⟩ with
      | .ok a t => EStateM.Result.ok a { t with levels := d }
      | .error e t => .error e { t with levels := d }) = plain (q g) ⟨s, d⟩
    unfold restoring at hrow
    unfold plain at hrow ⊢
    dsimp only at hrow ⊢
    generalize p c ⟨s, d + 1⟩ = counted at hrow ⊢
    generalize q g s = uncounted at hrow ⊢
    cases counted <;> cases uncounted <;> cases hrow <;> rfl

theorem tyAtomAbove_balanced : Balanced d (tyAtomAbove cs) (Grammar.tyAtomAbove gs) := by
  refine (Balanced.plain _).bind fun o => ?_
  cases o with
  | none => exact .fail _
  | some token =>
    have hty := nested_balanced h fun c g hg => hg.functionTy
    have hatom := nested_balanced h fun c g hg => hg.tyAtom
    refine .branch (fun _ => ?_) fun _ => .branch (fun _ => ?_) fun _ => .branch (fun _ => ?_)
      fun _ => ?_
    · exact hty.bind fun t => (Balanced.plain _).bind fun _ => .pure t
    · exact hatom.bind fun t => .pure _
    · exact .plain _
    · exact .fail _

theorem functionTyAbove_balanced :
    Balanced d (functionTyAbove cs) (Grammar.functionTyAbove gs) := by
  have hty := nested_balanced h fun c g hg => hg.functionTy
  refine (tyAtomAbove_balanced h).bind fun t => (Balanced.plain _).bind fun b => ?_
  cases b with
  | true => exact hty.bind fun t' => .pure _
  | false => exact .pure t

theorem simpleTermAbove_balanced :
    Balanced d (simpleTermAbove cs) (Grammar.simpleTermAbove gs) := by
  refine (Balanced.plain _).bind fun o => ?_
  cases o with
  | none => exact Balanced.pure none
  | some token =>
    have hinner := nested_balanced h fun c g hg => hg.inner
    dsimp only
    cases token.kind
    case integer => exact .map (.plain _)
    case float => exact .pure _
    case string => exact .pure _
    case name => exact .map (.plain _)
    all_goals
      refine .branch (fun _ => ?_) fun _ => (Balanced.plain _).bind fun _ => .pure none
      exact hinner.bind fun e => (Balanced.plain _).bind fun _ => .pure _

theorem membersAbove_balanced (e : Expr) :
    Balanced d (restoring (membersAbove cs e)) (Grammar.membersAbove gs e) := by
  refine (Balanced.plain _).restoringBind fun b => ?_
  cases b with
  | false => exact (Balanced.pure e).restoring
  | true =>
    refine deeper_balanced h fun c g hg => hg.simpleTerm.restoringBind fun o => ?_
    cases o with
    | none => exact (Balanced.fail _).restoring
    | some key => exact hg.members _

theorem termAbove_balanced : Balanced d (termAbove cs) (Grammar.termAbove gs) := by
  refine (simpleTermAbove_balanced h).bind fun o => ?_
  cases o with
  | none => exact .pure none
  | some e => exact .map (membersAbove_balanced h e)

theorem termsAbove_balanced (steps : Nat) :
    Balanced d (termsAbove cs steps) (Grammar.termsAbove gs steps) := by
  induction steps with
  | zero => exact .pure []
  | succ steps ih =>
    refine (termAbove_balanced h).bind fun o => ?_
    cases o with
    | none => exact .pure []
    | some e => exact ih.bind fun es => .pure (e :: es)

theorem sequenceAbove_balanced :
    Balanced d (sequenceAbove cs) (Grammar.sequenceAbove gs) := by
  refine (Balanced.plain _).bind fun n => (termsAbove_balanced h n).bind fun es => ?_
  match es with
  | [] => exact .pure none
  | [e] => exact .pure _
  | e :: e' :: es => exact .map (.plain _)

theorem foldAbove_balanced (tier : Tier) (left : Expr) :
    Balanced d (restoring (foldAbove cs tier left)) (Grammar.foldAbove gs tier left) := by
  refine (Balanced.plain _).restoringBind fun o => ?_
  cases o with
  | none => exact (Balanced.pure left).restoring
  | some token =>
    dsimp only
    cases Grammar.operatorOf? tier token with
    | none => exact ((Balanced.plain _).bind fun _ => .pure left).restoring
    | some op =>
      refine deeper_balanced h fun c g hg => ?_
      have hoperand : Balanced (d + 1) (c.operand tier) (g.operand tier) := by
        cases tier with
        | sum => exact hg.product
        | product => exact hg.sequence
      refine hoperand.restoringBind fun o => ?_
      cases o with
      | none => exact (Balanced.fail _).restoring
      | some right => exact (Balanced.plain _).restoringBind fun e => hg.fold tier e

theorem productAbove_balanced : Balanced d (productAbove cs) (Grammar.productAbove gs) := by
  refine (sequenceAbove_balanced h).bind fun o => ?_
  cases o with
  | none => exact .pure none
  | some e => exact .map (foldAbove_balanced h .product e)

theorem sumAbove_balanced : Balanced d (sumAbove cs) (Grammar.sumAbove gs) := by
  refine (productAbove_balanced h).bind fun o => ?_
  cases o with
  | none => exact .pure none
  | some e => exact .map (foldAbove_balanced h .sum e)

theorem typeAlias_balanced : Balanced d (typeAlias cs) (Grammar.typeAlias gs) := by
  have hty := nested_balanced h fun c g hg => hg.functionTy
  refine (Balanced.plain _).bind fun x => (Balanced.plain _).bind fun _ => ?_
  exact hty.bind fun t => .plain _

theorem typing_balanced (e : Expr) : Balanced d (typing cs e) (Grammar.typing gs e) := by
  cases e with
  | name x t =>
    exact (nested_balanced h fun c g hg => hg.functionTy).bind fun t => .plain _
  | _ => exact .fail _

theorem lambda_balanced : Balanced d (lambda cs) (Grammar.lambda gs) := by
  have hinner := nested_balanced h fun c g hg => hg.inner
  refine (Balanced.plain _).bind fun params => (Balanced.plain _).bind fun _ => ?_
  exact hinner.bind fun body => .pure _

theorem functionDefinition_balanced (name : String) (params : List String) :
    Balanced d (functionDefinition cs name params)
      (Grammar.functionDefinition gs name params) := by
  have hinner := nested_balanced h fun c g hg => hg.inner
  refine (Balanced.plain _).bind fun declared => ?_
  exact ((Balanced.plain _).bind fun _ => hinner).inScope.bind fun body => .pure _

theorem variableDefinition_balanced (name : String) :
    Balanced d (variableDefinition cs name) (Grammar.variableDefinition gs name) := by
  have hinner := nested_balanced h fun c g hg => hg.inner
  refine (Balanced.plain _).bind fun declared => hinner.bind fun value =>
    (Balanced.plain _).bind fun e => ?_
  cases declared with
  | some t => exact .pure e
  | none =>
    dsimp only
    cases e.ty with
    | none => exact .pure e
    | some t => exact (Balanced.plain _).bind fun _ => .pure e

theorem definition_balanced (target : Expr) :
    Balanced d (definition cs target) (Grammar.definition gs target) := by
  unfold definition Grammar.definition
  rcases target.headNames? with _ | _ | ⟨name, params⟩
  case some.cons => exact functionDefinition_balanced h name params
  all_goals
    cases target with
    | name x t => exact variableDefinition_balanced h x
    | _ => exact .fail _

theorem statementAbove_balanced :
    Balanced d (statementAbove cs) (Grammar.statementAbove gs) := by
  have haccept (kind : TokenKind) (text : String) :
      Balanced d (plain (accept kind text)) (accept kind text) := .plain _
  refine (haccept .name "type").bind fun b => ?_
  cases b with
  | true => exact (typeAlias_balanced h).bind fun _ => .pure _
  | false =>
    refine (haccept .symbol "\\").bind fun b => ?_
    cases b with
    | true => exact (lambda_balanced h).bind fun e => .pure _
    | false =>
      refine (sumAbove_balanced h).bind fun o => ?_
      cases o with
      | none => exact .pure none
      | some e =>
        refine (haccept .symbol ":").bind fun b => ?_
        cases b with
        | true => exact (typing_balanced h e).bind fun _ => .pure _
        | false =>
          refine (haccept .symbol "=").bind fun b => ?_
          cases b with
          | true => exact (definition_balanced h e).bind fun d => .pure _
          | false => exact .pure _

theorem innerAbove_balanced : Balanced d (innerAbove cs) (Grammar.innerAbove gs) := by
  refine (statementAbove_balanced h).bind fun o => ?_
  match o with
  | some (.expression e) => exact .pure e
  | some .declaration => exact .fail _
  | none =>
    refine (Balanced.plain _).bind fun o => ?_
    cases o with
    | none => exact .fail _
    | some token => exact .fail _

theorem above_counts : Counts d (above cs) (Grammar.above gs) where
  functionTy := functionTyAbove_balanced h
  tyAtom := tyAtomAbove_balanced h
  simpleTerm := simpleTermAbove_balanced h
  members := membersAbove_balanced h
  sequence := sequenceAbove_balanced h
  product := productAbove_balanced h
  fold := foldAbove_balanced h
  statement := statementAbove_balanced h
  inner := innerAbove_balanced h

end

/-- The levels that are open and those that are left make up all that there are. -/
theorem ofFuel_counts {room fuel d : Nat} (hroom : d + room = Grammar.maxNesting)
    (hfuel : room ≤ fuel) : Counts d (ofFuel fuel) (Grammar.ofRoom room) := by
  induction room generalizing fuel d with
  | zero =>
    have hd : ¬ d < Grammar.maxNesting := by omega
    cases fuel with
    | zero => exact above_counts (.refused hd)
    | succ fuel => exact above_counts (.refused hd)
  | succ room ih =>
    cases fuel with
    | zero => exact absurd hfuel (Nat.not_succ_le_zero room)
    | succ fuel =>
      exact above_counts (.opened (by omega) (ih (by omega) (Nat.le_of_succ_le_succ hfuel)))

end CountingGrammar

namespace Counting

open Parse

theorem statementWithin_balanced {fuel : Nat} (hfuel : Grammar.maxNesting ≤ fuel) (steps : Nat) :
    Balanced 0 (statementWithin fuel steps) (Parse.statementWithin steps) := by
  induction steps with
  | zero => exact .pure none
  | succ steps ih =>
    have hgrammar := CountingGrammar.ofFuel_counts (Nat.zero_add _) hfuel
    refine (Balanced.plain _).bind fun _ => hgrammar.statement.bind fun o => ?_
    cases o with
    | some found => exact (Balanced.plain _).bind fun _ => .pure _
    | none =>
      refine (Balanced.plain _).bind fun o => ?_
      cases o with
      | none => exact .pure none
      | some token => exact .branch (fun _ => ih) fun _ => .fail _

theorem statement_balanced {fuel : Nat} (hfuel : Grammar.maxNesting ≤ fuel) :
    Balanced 0 (statement fuel) Parse.statement :=
  (Balanced.plain _).bind fun n => statementWithin_balanced hfuel n

end Counting

namespace CountingState

open Parse Counting

variable {fuel : Nat}

theorem afterCalls_eq (hfuel : Grammar.maxNesting ≤ fuel) (s : ParseState) (n : Nat) :
    afterCalls fuel ⟨s, 0⟩ n = ⟨s.afterCalls n, 0⟩ := by
  induction n with
  | zero => rfl
  | succ n ih =>
    rw [afterCalls, ih, statement_balanced hfuel, afterCalls_succ]
    unfold plain stateAfter
    dsimp only
    cases Parse.statement (s.afterCalls n) <;> rfl

/-- However a call ends, no level of nesting is open after it, as many scopes are open as before it,
and at most one token is handed back, which is a delimiter if the call has found a statement. A
reader that counts its levels is in no other states than one that is given the levels that are left,
and the same comes of the calls. The recursion is never cut off. -/
theorem counted_calls_tidy (spare : Nat) (source : String) (context : Context) (n : Nat) :
    let fuel := Grammar.maxNesting + spare
    let start := ParseState.ofSource source context
    let s := afterCalls fuel ⟨start, 0⟩ n
    let t := afterCalls fuel ⟨start, 0⟩ (n + 1)
    s.reader = start.afterCalls n ∧ Counting.statement fuel s = plain Parse.statement s ∧
      t.levels = 0 ∧ t.reader.context.depth = s.reader.context.depth ∧
      t.reader.tokens.pending.length ≤ 1 ∧
      ∀ found, Counting.statement fuel s = .ok (some found) t → Delimited t.reader := by
  intro fuel start s t
  have hfuel : Grammar.maxNesting ≤ fuel := Nat.le_add_right _ _
  have hs : s = ⟨start.afterCalls n, 0⟩ := afterCalls_eq hfuel start n
  have ht : t = ⟨start.afterCalls (n + 1), 0⟩ := afterCalls_eq hfuel start (n + 1)
  have hbefore : Lending start.context.outer 1 (start.afterCalls n) := afterCalls_lending rfl n
  have hafter : Lending start.context.outer 1 (start.afterCalls (n + 1)) :=
    afterCalls_lending rfl (n + 1)
  have hagrees := statement_balanced hfuel (start.afterCalls n)
  rw [hs, ht]
  refine ⟨rfl, hagrees, rfl, ?_, hafter.pending, fun found hfound => ?_⟩
  · show (start.afterCalls (n + 1)).context.outer.length + 1 =
      (start.afterCalls n).context.outer.length + 1
    rw [hbefore.outer, hafter.outer]
  · have hcall : Parse.statement (start.afterCalls n) =
        .ok (some found) (start.afterCalls (n + 1)) := by
      rw [hagrees] at hfound
      unfold plain at hfound
      split at hfound <;> cases hfound
      assumption
    exact (statementWithin_delimited _ _).ok hbefore hcall rfl

end CountingState

end Offside
