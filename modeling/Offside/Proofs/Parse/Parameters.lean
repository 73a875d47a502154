import Mathlib
import Offside.Program
import Offside.Proofs.Parse.Mention
import Offside.Proofs.Token.Ahead

namespace Offside

namespace TokenStream

/-- The pieces come one after another, and what is left after them is `rest`. -/
def Leads : TokenStream → List Piece → TokenStream → Prop
  | s, [], rest => s = rest
  | s, w :: ws, rest => ∃ token t, s.next = .ok (some token) t ∧ (token.kind, token.text) = w ∧
    Leads t ws rest

variable {s rest : TokenStream} {ws : List Piece}

theorem Leads.length_le (h : s.Leads ws rest) : ws.length ≤ s.size := by
  induction ws generalizing s with
  | nil => exact Nat.zero_le _
  | cons w ws ih =>
    obtain ⟨token, t, ht, -, hws⟩ := h
    exact Nat.lt_of_le_of_lt (ih hws) (next_some ht)

end TokenStream

namespace Parse

variable {α β : Type}

/-- In any context the parser reads the pieces up to `rest` and leaves the context as it is. What it
gives may depend on the context, and so may the parser. -/
def Passes (p : Context → Parse α) (ws : List Piece) (a : Context → α) (rest : List Piece) : Prop :=
  ∀ s last, s.Leads ws last →
    ∃ t, t.Leads rest last ∧ ∀ c, p c ⟨s, c⟩ = .ok (a c) ⟨t, c⟩

namespace Passes

variable {p : Context → Parse α} {f : Context → α → Parse β} {a : Context → α} {b : Context → β}
  {ws mid rest : List Piece}

theorem pure : Passes (fun c => Pure.pure (a c)) ws a ws :=
  fun s _ hs => ⟨s, hs, fun _ => rfl⟩

theorem bind (hp : Passes p ws a mid) (hf : Passes (fun c => f c (a c)) mid b rest) :
    Passes (fun c => p c >>= f c) ws b rest := by
  intro s last hs
  obtain ⟨t, ht, hpt⟩ := hp s last hs
  obtain ⟨u, hu, hfu⟩ := hf t last ht
  exact ⟨u, hu, fun c => (bind_of_ok (hpt c)).trans (hfu c)⟩

theorem map {g : α → β} (hp : Passes p ws a rest) :
    Passes (fun c => g <$> p c) ws (fun c => g (a c)) rest := by
  simp only [← bind_pure_comp]
  exact hp.bind .pure

theorem check {r : Context → Except Error α} (h : ∀ c, r c = .ok (a c)) :
    Passes (fun c => Parse.check (r c)) ws a ws := by
  simp only [h]
  exact pure

theorem valueTy? (x : String) : Passes (fun _ => Parse.valueTy? x) ws (·.value? x) ws :=
  fun s _ hs => ⟨s, hs, fun _ => rfl⟩

/-- There are more steps than pieces. -/
theorem ofSteps {f : Context → Nat → Parse β}
    (h : ∀ n, ws.length < n → Passes (fun c => f c n) ws b rest) :
    Passes (fun c => Parse.steps >>= f c) ws b rest := by
  intro s last hs
  obtain ⟨t, ht, hft⟩ := h (s.size + 1) (Nat.lt_succ_of_le hs.length_le) s last hs
  exact ⟨t, ht, fun c => (bind_of_ok rfl).trans (hft c)⟩

theorem ofNext {f : Context → Option Token → Parse β} {w : Piece}
    (h : ∀ t : Token, (t.kind, t.text) = w → Passes (fun c => f c (some t)) ws b rest) :
    Passes (fun c => Parse.next >>= f c) (w :: ws) b rest := by
  rintro s last ⟨token, t, ht, hw, hws⟩
  obtain ⟨u, hu, hfu⟩ := h token hw t last hws
  have hnext (c : Context) : Parse.next ⟨s, c⟩ = .ok (some token) ⟨t, c⟩ := by
    unfold Parse.next
    rw [ht]
  exact ⟨u, hu, fun c => (bind_of_ok (hnext c)).trans (hfu c)⟩

theorem handBack {q : Context → Parse β} (t : Token)
    (h : Passes q ((t.kind, t.text) :: ws) b rest) :
    Passes (fun c => do Parse.push t; q c) ws b rest := by
  intro s last hs
  obtain ⟨u, hu, hq⟩ := h (s.push t) last ⟨t, s, rfl, rfl, hs⟩
  exact ⟨u, hu, fun c => (bind_of_ok rfl).trans (hq c)⟩

end Passes

variable {ws : List Piece} {w : Piece} {kind : TokenKind} {text : String}

theorem accept_passes (kind : TokenKind) (text : String) :
    Passes (fun _ => accept kind text) ((kind, text) :: ws) (fun _ => true) ws := by
  refine .ofNext fun t ht => ?_
  dsimp only
  rw [if_pos (Token.is_iff.2 ht)]
  exact .pure

theorem accept_misses (h : w ≠ (kind, text)) :
    Passes (fun _ => accept kind text) (w :: ws) (fun _ => false) (w :: ws) := by
  refine .ofNext fun t ht => ?_
  dsimp only
  rw [if_neg fun hi => h (ht ▸ Token.is_iff.1 hi)]
  exact .handBack t (ht ▸ .pure)

theorem expect_passes (kind : TokenKind) (text : String) :
    Passes (fun _ => expect kind text) ((kind, text) :: ws) (fun _ => ()) ws :=
  (accept_passes kind text).bind .pure

theorem comesNext_passes (kind : TokenKind) (text : String) :
    Passes (fun _ => comesNext kind text) ((kind, text) :: ws) (fun _ => true)
      ((kind, text) :: ws) := by
  refine .ofNext fun t ht => .handBack t ?_
  rw [Token.is_iff.2 ht]
  exact ht ▸ .pure

theorem name?_passes (x : String) :
    Passes (fun _ => name?) ((.name, x) :: ws) (fun _ => some x) ws := by
  refine .ofNext fun t ht => ?_
  injection ht with hkind htext
  dsimp only
  rw [if_pos hkind, htext]
  exact .pure

theorem name?_misses (h : w.1 ≠ .name) :
    Passes (fun _ => name?) (w :: ws) (fun _ => none) (w :: ws) := by
  refine .ofNext fun t ht => ?_
  dsimp only
  rw [if_neg fun hk => h (ht ▸ hk)]
  exact .handBack t (ht ▸ .pure)

def namePieces (names : List String) : List Piece := names.map (.name, ·)

theorem namesWithin_passes (h : w.1 ≠ .name) {xs : List String} {n : Nat} (hn : xs.length < n) :
    Passes (fun _ => namesWithin n) (namePieces xs ++ w :: ws) (fun _ => xs) (w :: ws) := by
  induction xs generalizing n with
  | nil =>
    cases n with
    | zero => cases hn
    | succ n => exact (name?_misses h).bind .pure
  | cons x xs ih =>
    cases n with
    | zero => cases hn
    | succ n =>
      exact (name?_passes x).bind ((ih (Nat.lt_of_succ_lt_succ hn)).bind .pure)

theorem names_passes (h : w.1 ≠ .name) (xs : List String) :
    Passes (fun _ => names) (namePieces xs ++ w :: ws) (fun _ => xs) (w :: ws) := by
  refine .ofSteps fun n hn => namesWithin_passes h ?_
  rw [List.length_append, namePieces, List.length_map] at hn
  omega

end Parse

namespace Grammar

open Parse Offside.Expr

variable {below : Option Grammar} {ws : List Piece} {w : Piece}

theorem word_passes {x : String} (htrue : x ≠ "True") (hfalse : x ≠ "False") :
    Passes (fun _ => word x) ws (fun c => .name x (c.value? x)) ws := by
  unfold word
  simp only [if_neg htrue, if_neg hfalse]
  exact (Passes.valueTy? x).bind .pure

theorem term_passes {x : String} (htrue : x ≠ "True") (hfalse : x ≠ "False")
    (hdot : w ≠ (.symbol, ".")) :
    Passes (fun _ => termAbove below) ((.name, x) :: w :: ws)
      (fun c => some (.name x (c.value? x))) (w :: ws) := by
  have hsimple : Passes (fun _ => simpleTermAbove below) ((.name, x) :: w :: ws)
      (fun c => some (.name x (c.value? x))) (w :: ws) := by
    refine .ofNext fun t ht => ?_
    injection ht with hkind htext
    dsimp only
    rw [hkind, htext]
    exact .map (word_passes htrue hfalse)
  exact hsimple.bind (.map ((accept_misses hdot).bind .pure))

theorem term_misses (text : String) :
    Passes (fun _ => termAbove below) ((.symbol, text) :: ws) (fun _ => none)
      ((.symbol, text) :: ws) := by
  have hsimple : Passes (fun _ => simpleTermAbove below) ((.symbol, text) :: ws) (fun _ => none)
      ((.symbol, text) :: ws) := by
    refine .ofNext fun t ht => ?_
    have hback : Passes (fun _ => do push t; return none) ws (fun _ => (none : Option Expr))
        ((.symbol, text) :: ws) := .handBack t (ht ▸ .pure)
    injection ht with hkind htext
    have hopen : ¬ t.is .delimiter "(" = true := by simp [Token.is, hkind]
    dsimp only
    rw [hkind, if_neg hopen]
    exact hback
  exact hsimple.bind .pure

/-- A word that is a literal is not a name. -/
def IsVariable (x : String) : Prop := x ≠ "True" ∧ x ≠ "False"

theorem terms_passes {xs : List String} (hxs : ∀ x ∈ xs, IsVariable x) {n : Nat}
    (hn : xs.length < n) :
    Passes (fun _ => termsAbove below n) (namePieces xs ++ (.symbol, "=") :: ws)
      (fun c => xs.map fun x => .name x (c.value? x)) ((.symbol, "=") :: ws) := by
  induction xs generalizing n with
  | nil =>
    cases n with
    | zero => cases hn
    | succ n => exact (term_misses "=").bind .pure
  | cons x xs ih =>
    rw [List.forall_mem_cons] at hxs
    cases n with
    | zero => cases hn
    | succ n =>
      have hterm : Passes (fun _ => termAbove below)
          ((.name, x) :: (namePieces xs ++ (.symbol, "=") :: ws))
          (fun c => some (.name x (c.value? x))) (namePieces xs ++ (.symbol, "=") :: ws) := by
        cases xs with
        | nil => exact term_passes hxs.1.1 hxs.1.2 (by decide)
        | cons y ys => exact term_passes hxs.1.1 hxs.1.2 nofun
      exact hterm.bind ((ih hxs.2 (Nat.lt_of_succ_lt_succ hn)).bind .pure)

/-- The head of a definition, whose names have no types. -/
def headTree (f : String) (params : List String) : Expr :=
  .apply (.name f none) (params.map (.name · none))

theorem mapM_asName?_names (t : String → Option Ty) (xs : List String) :
    (xs.map fun x => Expr.name x (t x)).mapM asName? = some xs := by
  induction xs with
  | nil => rfl
  | cons x xs ih =>
    rw [List.map_cons, List.mapM_cons, ih]
    rfl

theorem headNames?_headTree (f : String) (params : List String) :
    (headTree f params).headNames? = some (f :: params) :=
  mapM_asName?_names (fun _ => none) (f :: params)

theorem application_passes (f : String) (params : List String) :
    Passes (fun c => application ((f :: params).map fun x => .name x (c.value? x)))
      ((.symbol, "=") :: ws) (fun _ => headTree f params) ((.symbol, "=") :: ws) := by
  refine (comesNext_passes _ _).bind ?_
  simp only [mapM_asName?_names, if_true]
  exact .check fun _ => rfl

theorem sequence_passes {f : String} {params : List String} (hparams : params ≠ [])
    (hwords : ∀ x ∈ f :: params, IsVariable x) :
    Passes (fun _ => sequenceAbove below) (namePieces (f :: params) ++ (.symbol, "=") :: ws)
      (fun _ => some (headTree f params)) ((.symbol, "=") :: ws) := by
  obtain ⟨p, ps, rfl⟩ := List.exists_cons_of_ne_nil hparams
  refine .ofSteps fun n hn => (terms_passes hwords ?_).bind (.map (application_passes f (p :: ps)))
  rw [List.length_append, namePieces, List.length_map] at hn
  omega

theorem fold_misses (tier : Tier) (e : Context → Expr) :
    Passes (fun c => foldAbove below tier (e c)) ((.symbol, "=") :: ws) e
      ((.symbol, "=") :: ws) := by
  refine .ofNext fun t ht => ?_
  have hnone : operatorOf? tier t = none := by
    injection ht with hkind htext
    unfold operatorOf?
    rw [if_pos hkind, htext]
    rfl
  dsimp only
  rw [hnone]
  exact .handBack t (ht ▸ .pure)

theorem sum_passes {target : Context → Expr} {mid : List Piece}
    (hsequence : Passes (fun _ => sequenceAbove below) mid (fun c => some (target c))
      ((.symbol, "=") :: ws)) :
    Passes (fun _ => sumAbove below) mid (fun c => some (target c)) ((.symbol, "=") :: ws) := by
  have hproduct : Passes (fun _ => productAbove below) mid (fun c => some (target c))
      ((.symbol, "=") :: ws) := hsequence.bind (.map (fold_misses .product target))
  exact hproduct.bind (.map (fold_misses .sum target))

end Grammar

namespace Parse

variable {α β : Type}

/-- Behind the pieces, `q` is what is left of `p`. -/
def Resumes (p q : Parse α) (ws : List Piece) : Prop :=
  ∀ s last, s.Leads ws last → ∀ c, p ⟨s, c⟩ = q ⟨last, c⟩

theorem Resumes.refl (p : Parse α) : Resumes p p [] := by
  rintro s last rfl c
  rfl

theorem Passes.resumes {p : Parse α} {f : α → Parse β} {a : Context → α} {q : Parse β}
    {ws mid : List Piece} (hp : Passes (fun _ => p) ws a mid)
    (hf : ∀ c, Resumes (f (a c)) q mid) : Resumes (p >>= f) q ws := by
  intro s last hs c
  obtain ⟨t, ht, hpt⟩ := hp s last hs
  exact (bind_of_ok (hpt c)).trans (hf c t last ht c)

/-- The words before the body of a function. A definition has a name and at least one parameter. -/
inductive Opens (params : List String) : Option String → List Piece → Prop
  | lambda : Opens params none ((.symbol, "\\") :: (namePieces params ++ [(.symbol, "->")]))
  | definition {f : String} (hparams : params ≠ []) (htype : f ≠ "type")
      (hwords : ∀ x ∈ f :: params, Grammar.IsVariable x) :
      Opens params (some f) (namePieces (f :: params) ++ [(.symbol, "=")])

end Parse

namespace Grammar

open Parse Offside.Expr

variable {below : Option Grammar}

/-- What is read behind the head of a function. -/
def functionBody (below : Option Grammar) (params : List String) : Option String → Parse Expr
  | none => return .lambda params (← nested below inner)
  | some f => functionDefinition below f params

/-- Behind what begins with a name and is read up to `=`, a definition of it is read. -/
theorem definition_resumes {f : String} (htype : f ≠ "type") {ws : List Piece}
    {target : Context → Expr} (hsequence : Passes (fun _ => sequenceAbove below) ((.name, f) :: ws)
      (fun c => some (target c)) [(.symbol, "=")]) {q : Parse Expr}
    (hq : ∀ c, definition below (target c) = q) :
    Resumes (above below).statement (do return some (.expression (← q))) ((.name, f) :: ws) := by
  show Resumes (statementAbove below) _ _
  have hstart (kind : TokenKind) (text : String) (h : (.name, f) ≠ (kind, text)) :
      Passes (fun _ => accept kind text) ((.name, f) :: ws) (fun _ => false) ((.name, f) :: ws) :=
    accept_misses h
  refine (hstart .name "type" fun heq => htype (congrArg Prod.snd heq)).resumes fun _ => ?_
  refine (hstart .symbol "\\" nofun).resumes fun _ => ?_
  refine (sum_passes hsequence).resumes fun c => ?_
  refine (accept_misses (by decide)).resumes fun _ => (accept_passes _ _).resumes fun _ => ?_
  simp only [if_true, hq]
  exact .refl _

theorem statement_resumes {params : List String} {f? : Option String} {ws : List Piece}
    (h : Opens params f? ws) :
    Resumes (above below).statement
      (do return some (.expression (← functionBody below params f?))) ws := by
  cases h with
  | lambda =>
    show Resumes (statementAbove below) _ _
    refine (accept_misses (by decide)).resumes fun _ => (accept_passes _ _).resumes fun _ => ?_
    simp only [if_true, lambda, functionBody, bind_assoc]
    exact (names_passes (by decide) params).resumes fun _ =>
      (expect_passes _ _).resumes fun _ => .refl _
  | @definition f hparams htype hwords =>
    refine definition_resumes htype (sequence_passes hparams hwords) fun c => ?_
    unfold definition
    rw [headNames?_headTree]
    rfl

end Grammar

namespace Parse

variable {α β : Type}

/-- In both states the parser gives the same and leaves the same tokens, or fails alike. -/
def Parallel (p : Parse α) (s t : ParseState) : Prop :=
  (∃ a s' t', p s = .ok a s' ∧ p t = .ok a t' ∧ t'.tokens = s'.tokens) ∨
    ∃ e s' t', p s = .error e s' ∧ p t = .error e t'

variable {p : Parse α} {f : α → Parse β} {s t : ParseState}

theorem Concurs.parallel {N : String → Prop} {Q : α → Prop} (h : Concurs N p Q)
    (hst : Agreeing N s t) : Parallel p s t := by
  refine (h s t hst).imp_left ?_
  rintro ⟨a, s', t', hs, ht, hst', -⟩
  exact ⟨a, s', t', hs, ht, hst'.tokens⟩

theorem Blind.parallel (h : Blind p) (hst : t.tokens = s.tokens) : Parallel p s t := by
  have hrun := h s.tokens s.context t.context
  rw [show (⟨s.tokens, t.context⟩ : ParseState) = t by rw [← hst]] at hrun
  cases hs : p s with
  | ok a s' =>
    rw [hs] at hrun
    exact .inl ⟨a, s', _, hs, hrun.2, rfl⟩
  | error e s' =>
    rw [hs] at hrun
    exact .inr ⟨e, s', _, hs, hrun.2⟩

theorem Parallel.bind (hp : Parallel p s t)
    (hf : ∀ a s' t', t'.tokens = s'.tokens → Parallel (f a) s' t') : Parallel (p >>= f) s t := by
  unfold Parallel
  obtain ⟨a, s', t', hs, ht, hst⟩ | ⟨e, s', t', hs, ht⟩ := hp
  · rw [bind_of_ok hs, bind_of_ok ht]
    exact hf a s' t' hst
  · rw [bind_of_error hs, bind_of_error ht]
    exact .inr ⟨e, s', t', rfl, rfl⟩

theorem Parallel.inScope (h : Parallel p { s with context := s.context.enter }
      { t with context := t.context.enter }) : Parallel (Parse.inScope p) s t := by
  unfold Parallel Parse.inScope
  obtain ⟨a, s', t', hs, ht, hst⟩ | ⟨e, s', t', hs, ht⟩ := h
  · rw [hs, ht]
    exact .inl ⟨a, _, _, rfl, rfl, hst⟩
  · rw [hs, ht]
    exact .inr ⟨e, _, _, rfl, rfl⟩

end Parse

namespace Grammar

open Parse Offside.Expr

/-- Types of parameters hide what is known about other values with their names. -/
theorem value?_setValues {typed : List (String × Ty)} {c d : Context}
    (h : ∀ x, x ∉ typed.map (·.1) → c.value? x = d.value? x) (x : String) :
    (typed.foldl (fun c p => c.setValue p.1 p.2) c).value? x =
      (typed.foldl (fun c p => c.setValue p.1 p.2) d).value? x := by
  induction typed generalizing c d with
  | nil => exact h x List.not_mem_nil
  | cons p ps ih =>
    refine ih fun y hy => ?_
    rw [Context.value?_setValue, Context.value?_setValue]
    split
    · rfl
    · next hne => exact h y (List.not_mem_cons_of_ne_of_not_mem hne hy)

theorem alias?_setValues (typed : List (String × Ty)) (c : Context) (x : String) :
    (typed.foldl (fun c p => c.setValue p.1 p.2) c).alias? x = c.alias? x := by
  induction typed generalizing c with
  | nil => rfl
  | cons p ps ih => exact ih (c.setValue p.1 p.2)

theorem paramTys?_names {t : Ty} {params : List String} {typed : List (String × Ty)}
    (h : paramTys? t params = some typed) : typed.map (·.1) = params := by
  induction params generalizing t typed with
  | nil =>
    cases t <;> cases h <;> rfl
  | cons x xs ih =>
    cases t with
    | function input output =>
      obtain ⟨rest, hrest, rfl⟩ := Option.map_eq_some_iff.1 h
      rw [List.map_cons, ih hrest]
    | _ => cases h

section

variable {below : Option Grammar} (h : ∀ N, Concurs N (nested below inner) (Targets N))
  {rest : TokenStream} {c d : Context} {params : List String}
  (halias : ∀ x, c.alias? x = d.alias? x) (hvalue : ∀ x, x ∉ params → c.value? x = d.value? x)
include h halias hvalue

theorem inner_parallel (hbody : ∀ x ∈ params, rest.Mentions x → c.value? x = d.value? x) :
    Parallel (nested below inner) ⟨rest, c⟩ ⟨rest, d⟩ := by
  have hmentioned : ∀ x, rest.Mentions x → c.value? x = d.value? x := by
    intro x hx
    by_cases hparam : x ∈ params
    · exact hbody x hparam hx
    · exact hvalue x hparam
  have hinner := h fun x => c.value? x = d.value? x
  exact hinner.parallel ⟨rfl, hmentioned, fun x => (halias x).symm, fun x hx => hx.symm⟩

/-- Parameters with types hide all that the contexts disagree on. -/
theorem typedBody_parallel (f : String) (t : Ty) :
    Parallel (do bindParams f params (some t); nested below inner) ⟨rest, c⟩ ⟨rest, d⟩ := by
  unfold bindParams
  dsimp only
  split
  · next typed htyped =>
    rw [← paramTys?_names htyped] at hvalue
    unfold Parallel
    rw [bind_of_ok (setValues_ok typed _), bind_of_ok (setValues_ok typed _)]
    refine inner_parallel h (fun x => ?_) (fun x (_ : x ∉ []) => ?_) (List.forall_mem_nil _)
    · rw [alias?_setValues, alias?_setValues, halias x]
    · exact value?_setValues hvalue x
  · exact .inr ⟨_, _, _, rfl, rfl⟩

theorem functionBody_parallel {f? : Option String} (hname : ∀ f ∈ f?, c.value? f = d.value? f)
    (hbody : (∃ f ∈ f?, c.value? f ≠ none) ∨
      ∀ x ∈ params, rest.Mentions x → c.value? x = d.value? x) :
    Parallel (functionBody below params f?) ⟨rest, c⟩ ⟨rest, d⟩ := by
  cases f? with
  | none =>
    have hmentions := hbody.resolve_left nofun
    exact (inner_parallel h halias hvalue hmentions).bind fun e s t hst =>
      (Blind.pure _).parallel hst
  | some f =>
    have hscope : Parallel (inScope do bindParams f params (c.value? f); nested below inner)
        ⟨rest, c⟩ ⟨rest, d⟩ := by
      refine Parallel.inScope ?_
      cases hdeclared : c.value? f with
      | some t => exact typedBody_parallel (c := c.enter) (d := d.enter) h halias hvalue f t
      | none =>
        -- A scope is opened, but without a declared type no parameter is recorded in it.
        refine inner_parallel (c := c.enter) (d := d.enter) h halias hvalue
          (hbody.resolve_left ?_)
        rintro ⟨g, ⟨⟩, hknown⟩
        exact hknown hdeclared
    have hfunction := hscope.bind (f := fun body => pure (Expr.function f params body (c.value? f)))
      fun e s t hst => (Blind.pure _).parallel hst
    have hdefinition (c : Context) : functionBody below params (some f) ⟨rest, c⟩ =
        (do
          let body ← inScope do bindParams f params (c.value? f); nested below inner
          return Expr.function f params body (c.value? f)) ⟨rest, c⟩ := bind_of_ok rfl
    unfold Parallel
    rw [hdefinition, hdefinition, ← hname f rfl]
    exact hfunction

end

end Grammar

namespace Parse

open Grammar

theorem run_eq_of_parallel {α : Type} {p : Parse α} {source : String} {c d : Context}
    (h : Parallel p (.ofSource source c) (.ofSource source d)) : run p source c = run p source d := by
  obtain ⟨a, s, t, hs, ht, -⟩ | ⟨e, s, t, hs, ht⟩ := h
  · rw [run_of_ok hs, run_of_ok ht]
  · rw [run_of_error hs, run_of_error ht]

theorem skipLines_ofSource (source : String) (c : Context) :
    skipLines (.ofSource source c) = .ok () ⟨(TokenStream.ofSource source).skipLines, c⟩ := rfl

/-- A source begins with the head of a function, and two contexts differ at most in the types of
values with the names of its parameters. The function is read alike if it has a declared type, or
if no parameter is mentioned behind the head whose name the contexts disagree on. -/
theorem run_statement_head {source : String} {params : List String} {f? : Option String}
    {ws : List Piece} {body : TokenStream} (hhead : Opens params f? ws)
    (hsource : (TokenStream.ofSource source).skipLines.Leads ws body) {c d : Context}
    (halias : ∀ x, c.alias? x = d.alias? x) (hvalue : ∀ x, x ∉ params → c.value? x = d.value? x)
    (hname : ∀ f ∈ f?, c.value? f = d.value? f)
    (hbody : (∃ f ∈ f?, c.value? f ≠ none) ∨
      ∀ x ∈ params, body.Mentions x → c.value? x = d.value? x) :
    run statement source c = run statement source d := by
  refine run_eq_of_parallel ?_
  have hinner (N : String → Prop) := nested_inner_concurs N maxNesting
  have hfunction := functionBody_parallel hinner halias hvalue hname hbody
  have hrun := hfunction.bind (f := fun e => do terminator; return some (Statement.expression e))
    fun e s t hst => ((terminator_blind.bind fun _ => .pure _).parallel hst)
  have hstart (context : Context) : statement (.ofSource source context) =
      (do
        let e ← functionBody (beneath maxNesting) params f?
        terminator
        return some (Statement.expression e)) ⟨body, context⟩ := by
    have hstatement : Resumes (above (beneath maxNesting)).statement _ ws :=
      statement_resumes hhead
    show statementWithin ((TokenStream.ofSource source).size + 1) (.ofSource source context) = _
    rw [statementWithin, ofRoom_eq_above, bind_of_ok (skipLines_ofSource source context),
      bind_eq (hstatement _ _ hsource context), bind_assoc]
    rfl
  unfold Parallel
  rw [hstart, hstart]
  exact hrun

set_option maxRecDepth 4000 in
theorem run_statement_head_declared :
    let source := "f x = x + 1"
    let head := namePieces ["f", "x"] ++ [(.symbol, "=")]
    let c := Context.empty.setValue "f" (.function .int .int)
    let d := c.setValue "x" .string
    let body : TokenStream := { length := 11, rest := " x + 1".toList }
    Opens ["x"] (some "f") head ∧ (TokenStream.ofSource source).skipLines.Leads head body ∧
      (∀ x, c.alias? x = d.alias? x) ∧ (∀ x, x ∉ ["x"] → c.value? x = d.value? x) ∧
      c.value? "f" = d.value? "f" ∧ c.value? "f" ≠ none ∧
      c.value? "x" = none ∧ d.value? "x" = some .string ∧
      run statement source c = run statement source d := by
  intro source head c d body
  have hhead : Opens ["x"] (some "f") head :=
    .definition (by decide) (by decide) (by simp [Grammar.IsVariable])
  have hsource : (TokenStream.ofSource source).skipLines.Leads head body := by
    refine ⟨⟨.name, "f", ⟨0, 1⟩⟩, { length := 11, rest := " x = x + 1".toList }, ?_, rfl,
      ⟨.name, "x", ⟨2, 3⟩⟩, { length := 11, rest := " = x + 1".toList }, ?_, rfl,
      ⟨.symbol, "=", ⟨4, 5⟩⟩, { length := 11, rest := " x + 1".toList }, ?_, rfl, rfl⟩ <;> cbv
  have halias : ∀ x, c.alias? x = d.alias? x := fun _ => rfl
  have hvalue : ∀ x, x ∉ ["x"] → c.value? x = d.value? x := by
    intro x hx
    have hne : x ≠ "x" := fun heq => hx (heq ▸ List.mem_cons_self)
    exact ((Context.value?_setValue c "x" x .string).trans (if_neg hne)).symm
  have hname : c.value? "f" = d.value? "f" := hvalue "f" (by decide)
  have hknown : c.value? "f" ≠ none := Option.some_ne_none _
  refine ⟨hhead, hsource, halias, hvalue, hname, hknown, rfl, rfl, ?_⟩
  refine run_statement_head hhead hsource halias hvalue ?_ (.inl ⟨"f", rfl, hknown⟩)
  rintro f ⟨⟩
  exact hname

set_option maxRecDepth 4000 in
/-- Without a declared type, what is known about another value refuses the body of a function. -/
theorem run_statement_leaks :
    let source := "\\x -> x + 1"
    let d := Context.empty.setValue "x" .string
    Opens ["x"] none ((.symbol, "\\") :: (namePieces ["x"] ++ [(.symbol, "->")])) ∧
      (∀ x, x ∉ ["x"] → Context.empty.value? x = d.value? x) ∧
      run statement source .empty = .ok (some (.expression
        (.lambda ["x"] (.arithmetic .add (.name "x" none) (.constant (.int 1)))))) ∧
      run statement source d = .error (.type (.notNumeric .add (some .string) (some .int))) := by
  intro source d
  refine ⟨.lambda, fun x hx => ?_, ?_, ?_⟩
  · rw [Context.value?_setValue, if_neg fun heq => hx (by simp [heq])]
  · unfold source
    cbv
  · unfold source d
    cbv

end Parse

end Offside
