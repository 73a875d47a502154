import Offside.Proofs.Expr.Nodes
import Offside.Proofs.Parse.Calls
import Offside.Proofs.Token.Names

namespace Offside

/-- What a source can write in a node by itself. -/
def Expr.Lexical : Expr → Prop
  | .constant (.int n) => 0 ≤ n.toInt
  | .name x _ => IsName x
  | .arithmetic op _ _ => op ≠ .equal
  | .define x _ _ => IsName x
  | .lambda params _ => ∀ x ∈ params, IsName x
  | .function f params _ _ => ∀ x ∈ f :: params, IsName x
  | _ => True

theorem Expr.lexical_operation {op : Operator} (left right : Expr) (h : op ≠ .arithmetic .equal) :
    (operation op left right).Lexical := by
  cases op with
  | arithmetic op => exact fun he => h (congrArg _ he)
  | comparison op => exact True.intro
  | connective op => exact True.intro

namespace Expr

theorem isName_of_asName? {e : Expr} {x : String} (he : e.All Lexical) (h : e.asName? = some x) :
    IsName x := by
  cases e with
  | name y t =>
    cases h
    exact all_name.1 he
  | _ => cases h

theorem isName_of_mapM_asName? {es : List Expr} {names : List String}
    (hes : ∀ e ∈ es, e.All Lexical) (h : es.mapM asName? = some names) :
    ∀ x ∈ names, IsName x := by
  intro x hx
  obtain ⟨e, he, hname⟩ := exists_asName?_of_mapM h x hx
  exact isName_of_asName? (hes e he) hname

theorem isName_of_headNames? {e : Expr} {names : List String} (he : e.All Lexical)
    (h : e.headNames? = some names) : ∀ x ∈ names, IsName x := by
  cases e with
  | apply callee arguments =>
    have hall := all_apply.1 he
    exact isName_of_mapM_asName? (List.forall_mem_cons.2 hall.2) h
  | _ => cases h

end Expr

namespace Parse

def Named : Assertion := fun s => s.tokens.Named

/-- Only names stand for names. -/
abbrev naming : Tracking where
  World := Unit
  Index := Unit
  At _ _ := Named
  Fails _ _ := Named
  Later _ _ := True
  Inside _ := True
  Took _ token _ := token.Named
  refl _ := trivial
  trans _ _ := trivial
  later _ := trivial
  inside _ := trivial
  inside_mono _ _ := trivial
  fails_mono _ hs := hs
  fails _ hs := hs
  next {_ _ s} hs := by
    have hnext := TokenStream.next_named hs
    cases h : s.tokens.next with
    | error e t =>
      rw [h] at hnext
      exact hnext
    | ok o t =>
      rw [h] at hnext
      cases o with
      | none => exact hnext.2
      | some token =>
        have htoken := hnext.1 token rfl
        exact ⟨TokenStream.named_push hnext.2 htoken, (), htoken, hnext.2⟩
  skipLines hs := TokenStream.named_skipLines hs

theorem naming_quiet : naming.Quiet :=
  Tracking.quiet_of_tokens (fun _ _ _ _ hs => hs) fun _ _ _ _ hs => hs

theorem isName_of_tookNames {w w' : naming.World} {names : List String}
    (h : TookNames naming.Took w w' names) : ∀ x ∈ names, IsName x := by
  induction h with
  | nil => exact List.forall_mem_nil _
  | cons hkind htoken _ ih => exact List.forall_mem_cons.2 ⟨htoken hkind, ih⟩

end Parse

namespace Grammar

open Parse Offside.Expr

def lexical : QuietGrowth naming where
  quiet := naming_quiet
  Tree _ _ _ e := e.All Lexical
  higher _ h := h
  integer _ _ hn := by
    refine all_constant.2 ?_
    show 0 ≤ (Int64.ofNat _).toInt
    rw [Int64.toInt_ofNat_of_lt hn]
    exact Int.natCast_nonneg _
  float _ _ := all_constant.2 True.intro
  string _ _ := all_constant.2 True.intro
  bool _ _ _ _ := all_constant.2 True.intro
  name hkind htoken _ := all_name.2 (htoken hkind)
  group _ h _ := h
  member h _ hkey := all_member.2 ⟨True.intro, h, hkey⟩
  apply h :=
    all_apply.2 ⟨True.intro, List.forall_mem_cons.1 (h.forall_mem fun _ _ _ _ he => he)⟩
  head h hnames heq := by
    have hes := h.forall_mem fun _ _ _ _ he => he
    refine all_apply.2 ⟨True.intro, List.forall_mem_cons.1 ?_⟩
    rw [← heq, List.forall_mem_map]
    exact fun x hx => all_name.2 (isName_of_mapM_asName? hes hnames x hx)
  operation h hop _ h' := by
    obtain ⟨-, -, -, hne⟩ := operatorOf?_spec hop
    exact all_operation.2 ⟨lexical_operation _ _ hne, h, h'⟩
  lambda _ hparams _ h := all_lambda.2 ⟨isName_of_tookNames hparams, h⟩
  function h hnames _ hbody _ := all_function.2 ⟨isName_of_headNames? h hnames, hbody⟩
  define h _ hvalue _ := all_define.2 ⟨all_name.1 h, hvalue⟩

end Grammar

namespace Parse

open Offside.Expr

/-- Every call gives a tree that a source can write, as long as only names stand for names. -/
theorem statement_lexical : Triple Named statement
    (fun o s => Named s ∧ ∀ e, o = some (.expression e) → e.All Lexical) Named := by
  have h : naming.Holds () statement _ :=
    .steps fun n => Grammar.lexical.growth.statementWithin n ()
  refine (h ()).post fun o s ⟨_, _, hs, ho⟩ => ⟨hs, ?_⟩
  rintro e rfl
  obtain ⟨_, _, _, ⟨_, he⟩, _⟩ := ho
  exact he

theorem afterCalls_named (source : String) (context : Context) (k : Nat) :
    Named ((ParseState.ofSource source context).afterCalls k) := by
  have hstart : Named (.ofSource source context) := fun _ ht => nomatch ht
  exact Triple.afterCalls statement_lexical (fun _ _ h => h.1) hstart k

end Parse

open Parse in
/-- A call of the parser has given the tree, for some source and after any calls before. -/
def Expr.Returned (e : Expr) : Prop :=
  ∃ source context k t, statement ((ParseState.ofSource source context).afterCalls k) =
    .ok (some (.expression e)) t

namespace Parse

theorem expressionsWithin_returned {source : String} {context : Context} {steps k : Nat}
    {s t : ParseState} {es : List Expr} (hs : (ParseState.ofSource source context).afterCalls k = s)
    (h : expressionsWithin steps s = .ok es t) : ∀ e ∈ es, e.Returned := by
  induction steps generalizing k s es with
  | zero =>
    cases h
    exact fun e he => nomatch he
  | succ steps ih =>
    have hnext {o : Option Statement} {u : ParseState} (ho : statement s = .ok o u) :
        (ParseState.ofSource source context).afterCalls (k + 1) = u := by
      rw [afterCalls_succ, hs, stateAfter_of_ok ho]
    obtain ⟨u, ho, rfl⟩ | ⟨u, ho, hrest⟩ | ⟨u, e, rest, ho, hrest, rfl⟩ :=
      expressionsWithin_cases h
    · exact fun e he => nomatch he
    · exact ih (hnext ho) hrest
    · rw [List.forall_mem_cons]
      exact ⟨⟨source, context, k, u, hs ▸ ho⟩, ih (hnext ho) hrest⟩

/-- The trees of a program are trees that calls have returned. -/
theorem parse_returned {source : String} {context : Context} {es : List Expr}
    (h : Program.parse source context = .ok es) : ∀ e ∈ es, e.Returned := by
  obtain ⟨t, ht⟩ := run_ok h
  exact expressionsWithin_returned (k := 0) rfl ht

end Parse

namespace Expr

theorem Returned.lexical {e : Expr} (h : e.Returned) : e.All Lexical := by
  obtain ⟨source, context, k, t, hs⟩ := h
  exact (Parse.statement_lexical.ok (Parse.afterCalls_named source context k) hs).2 e rfl

end Expr

end Offside
