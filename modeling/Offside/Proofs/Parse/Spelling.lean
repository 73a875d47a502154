import Mathlib
import Offside.Proofs.Expr.Nodes
import Offside.Proofs.Parse.Calls
import Offside.Proofs.Token.Leaves

namespace Offside

def Literal.leaf : Literal → Leaf
  | .int n => .integer n.toInt
  | .float x => .float x
  | .string s => .string s
  | .bool b => .bool b

namespace Expr

mutual

/-- The words of a tree in the order of the source. -/
def leaves : Expr → List Leaf
  | .constant value => [value.leaf]
  | .name x _ => [.ofName x]
  | .comparison op left right => left.leaves ++ .symbol op.symbol :: right.leaves
  | .connective op left right => left.leaves ++ .symbol op.symbol :: right.leaves
  | .arithmetic op left right => left.leaves ++ .symbol op.symbol :: right.leaves
  | .define x value _ => .ofName x :: .symbol "=" :: value.leaves
  | .apply callee arguments => callee.leaves ++ leavesOfAll arguments
  | .member target key => target.leaves ++ .symbol "." :: key.leaves
  | .lambda params body =>
    .symbol "\\" :: params.map .ofName ++ .symbol "->" :: body.leaves
  | .function f params body _ =>
    .ofName f :: params.map .ofName ++ .symbol "=" :: body.leaves

def leavesOfAll : List Expr → List Leaf
  | [] => []
  | e :: es => e.leaves ++ leavesOfAll es

end

theorem leavesOfAll_eq_flatMap (es : List Expr) : leavesOfAll es = es.flatMap leaves := by
  induction es with
  | nil => rfl
  | cons e es ih => rw [leavesOfAll, ih, List.flatMap_cons]

theorem leaves_names (names : List String) :
    (names.map (Expr.name · none)).flatMap leaves = names.map Leaf.ofName := by
  induction names with
  | nil => rfl
  | cons x names ih => rw [List.map_cons, List.flatMap_cons, ih, leaves]; rfl

theorem leaves_of_mapM_asName? {es : List Expr} {names : List String}
    (h : es.mapM asName? = some names) : es.flatMap leaves = names.map Leaf.ofName := by
  have hleaves : ∀ e ∈ es, e.leaves = e.asName?.toList.map Leaf.ofName := by
    intro e he
    obtain ⟨x, t, rfl⟩ := exists_name_of_mapM_asName? h e he
    rfl
  rw [List.flatMap_congr hleaves, ← List.flatMap_map asName? fun x => x.toList.map Leaf.ofName,
    map_asName? h, List.flatMap_map]
  exact (List.map_eq_flatMap ..).symm

theorem leaves_of_headNames? {e : Expr} {names : List String} (h : e.headNames? = some names) :
    e.leaves = names.map Leaf.ofName := by
  cases e with
  | apply callee arguments =>
    rw [leaves, leavesOfAll_eq_flatMap, ← List.flatMap_cons]
    exact leaves_of_mapM_asName? h
  | _ => cases h

theorem leaves_operation (op : Operator) (left right : Expr) :
    (operation op left right).leaves = left.leaves ++ .symbol op.symbol :: right.leaves := by
  cases op <;> rfl

end Expr

namespace Parse

/-- `total` are the leaves of `read` and of what is still to be read. -/
def Behind (total : Option (List Leaf)) (read : List Leaf) : Assertion :=
  fun s => s.tokens.leaves.map (read ++ ·) = total

/-- The leaves of what has been read, next to those of what is still to be read. -/
abbrev spelling : Tracking where
  World := List Leaf
  Index := Option (List Leaf)
  At := Behind
  Fails _ _ _ := True
  Later _ _ := True
  Inside _ := True
  Took read token read' := read' = read ++ token.leaf?.toList
  refl _ := trivial
  trans _ _ := trivial
  later _ := trivial
  inside _ := trivial
  inside_mono _ _ := trivial
  fails_mono _ _ := trivial
  fails _ _ := trivial
  next {total read s} hs := by
    have hnext := TokenStream.next_leaves s.tokens
    unfold Behind at hs
    cases h : s.tokens.next with
    | error e t => trivial
    | ok o t =>
      rw [h] at hnext
      simp only [hnext, Option.map_map] at hs
      cases o with
      | none => exact hs
      | some token =>
        refine ⟨?_, _, rfl, ?_⟩
        · simpa [Behind, TokenStream.leaves_push, Function.comp_def] using hs
        · simpa [Behind, Function.comp_def] using hs
  skipLines {total read s} hs := by
    show s.tokens.skipLines.leaves.map _ = total
    rw [TokenStream.leaves_skipLines]
    exact hs

theorem spelling_quiet : spelling.Quiet :=
  Tracking.quiet_of_tokens (fun _ _ _ _ hs => hs) fun _ _ _ _ _ => trivial

theorem spelling_leaf {kind : TokenKind} {token : Token} {read read' : List Leaf}
    (h : spelling.Took read token read') (hkind : token.kind = kind) :
    read' = read ++ (Leaf.ofWord? kind token.text).toList :=
  hkind ▸ h

theorem spelling_word {kind : TokenKind} {text : String} {read read' : List Leaf}
    (h : TookWord spelling.Took kind text read read') :
    read' = read ++ (Leaf.ofWord? kind text).toList := by
  obtain ⟨token, htoken, rfl⟩ := h
  simp only [Token.is, Bool.and_eq_true, decide_eq_true_eq] at htoken
  rw [Token.leaf?, htoken.1, htoken.2]

theorem spelling_names {names : List String} {read read' : spelling.World}
    (h : TookNames spelling.Took read read' names) : read' = read ++ names.map Leaf.ofName := by
  induction h with
  | nil => exact (List.append_nil _).symm
  | cons hkind htoken _ ih =>
    rw [ih, spelling_leaf htoken hkind]
    simp [Leaf.ofWord?]

theorem spelling_blank {read read' : spelling.World} (h : spelling.Blank read read') :
    read' = read := by
  induction h with
  | refl => rfl
  | step hkind htoken _ ih =>
    rw [ih, spelling_leaf htoken hkind]
    exact List.append_nil _

theorem spelling_terms {es es' : List Expr}
    {read read' : List Leaf} (h : Chained (fun w w' e _ => w' = w ++ e.leaves) read read' es es') :
    read' = read ++ es.flatMap Expr.leaves := by
  induction h with
  | nil => exact (List.append_nil _).symm
  | cons h _ ih => rw [ih, h, List.flatMap_cons, List.append_assoc]

end Parse

namespace Grammar

open Parse Offside.Expr

/-- A tree is read word by word. -/
def spelled : QuietGrowth spelling where
  quiet := spelling_quiet
  Tree _ read read' e := read' = read ++ e.leaves
  higher _ h := h
  integer hkind h hn := by
    rw [spelling_leaf h hkind, leaves, Literal.leaf, Int64.toInt_ofNat_of_lt hn]
    rfl
  float hkind h := spelling_leaf h hkind
  string hkind h := spelling_leaf h hkind
  bool b hkind htext h := by
    rw [spelling_leaf h hkind, htext]
    cases b <;> rfl
  name hkind h _ := spelling_leaf h hkind
  group hopen h hclose := by
    rw [spelling_word hclose, h, spelling_word hopen]
    simp [Leaf.ofWord?]
  member h hdot hkey := by
    rw [hkey, spelling_word hdot, h]
    simp [leaves, Leaf.ofWord?]
  apply h := by
    rw [spelling_terms h, leaves, leavesOfAll_eq_flatMap, List.flatMap_cons]
  head h hnames heq := by
    rw [spelling_terms h, leaves, leavesOfAll_eq_flatMap, ← List.flatMap_cons, ← heq, leaves_names,
      leaves_of_mapM_asName? hnames]
  operation h hop htoken h' := by
    obtain ⟨hkind, htext, -⟩ := operatorOf?_spec hop
    rw [h', htoken, h, leaves_operation, Token.leaf?, hkind, htext]
    simp [Leaf.ofWord?]
  lambda hslash hparams harrow h := by
    rw [h, spelling_word harrow, spelling_names hparams, spelling_word hslash]
    simp [leaves, Leaf.ofWord?]
  function h hnames hequals hbody _ := by
    rw [hbody, spelling_word hequals, h, leaves_of_headNames? hnames]
    simp [leaves, Leaf.ofWord?]
  define h hequals hvalue _ := by
    rw [hvalue, spelling_word hequals, h]
    simp [leaves, Leaf.ofWord?]

end Grammar

namespace Parse

open Offside.Expr

/-- A call takes away the leaves of the tree that it gives. -/
theorem statement_leaves {s t : ParseState} {o : Option Statement} (h : statement s = .ok o t) :
    match o with
    | none => s.tokens.leaves = some []
    | some (.expression e) => s.tokens.leaves = t.tokens.leaves.map (e.leaves ++ ·)
    | some .declaration => True := by
  have hwithin := Grammar.spelled.growth.statementWithin (s.tokens.size + 1) ([] : List Leaf)
  obtain ⟨read, -, hs, ho⟩ := (hwithin s.tokens.leaves).ok (s := s) (by simp [Behind]) h
  cases o with
  | none =>
    have hend := atEnd_of_statement h
    have hnil : t.tokens.leaves = some [] := by
      rw [TokenStream.leaves, hend.1, hend.2.2, Lexeme.leaves_nil (by rw [Lexeme.skipBlanks])]
      rfl
    rw [spelling_blank ho] at hs
    simpa [Behind, hnil] using hs.symm
  | some found =>
    cases found with
    | declaration => exact True.intro
    | expression e =>
      obtain ⟨v, v', hbefore, ⟨-, htree⟩, hafter⟩ := ho
      have hread : read = e.leaves := by
        rw [spelling_blank hafter, htree, spelling_blank hbefore, List.nil_append]
      rw [hread] at hs
      exact hs.symm

/-- Reading statement after statement finds trees with all leaves that there are, unless one of the
calls meets a declaration. -/
theorem expressionsWithin_leaves {steps : Nat} {s t : ParseState} {es : List Expr}
    (hsteps : s.tokens.size < steps) (h : expressionsWithin steps s = .ok es t)
    (hexpr : ∀ k u, statement (s.afterCalls k) ≠ .ok (some .declaration) u) :
    s.tokens.leaves = some (es.flatMap leaves) := by
  induction steps generalizing s es with
  | zero => omega
  | succ steps ih =>
    obtain ⟨u, hs, rfl⟩ | ⟨u, hs, -⟩ | ⟨u, e, rest, hs, hrest, rfl⟩ := expressionsWithin_cases h
    · exact statement_leaves hs
    · exact absurd hs (hexpr 0 u)
    · have hleaves := statement_leaves hs
      have hsize := size_lt_of_statement hs
      have hlater (k : Nat) (v : ParseState) :
          statement (u.afterCalls k) ≠ .ok (some .declaration) v := by
        rw [← stateAfter_of_ok hs]
        exact hexpr (k + 1) v
      rw [hleaves, ih (by omega) hrest hlater, List.flatMap_cons]
      rfl

/-- No word of a source is lost, duplicated or moved: if it can be read and every call finds an
expression or the end, the trees have the leaves of the tokens. -/
theorem parse_leaves {source : String} {context : Context} {es : List Expr}
    (h : Program.parse source context = .ok es)
    (hexpr : ∀ k u, statement ((ParseState.ofSource source context).afterCalls k) ≠
      .ok (some .declaration) u) :
    ∃ ts, (TokenStream.ofSource source).tokens = .ok ts ∧
      es.flatMap leaves = ts.filterMap Token.leaf? := by
  obtain ⟨t, ht⟩ := run_ok h
  have hleaves : (TokenStream.ofSource source).leaves = some (es.flatMap leaves) :=
    expressionsWithin_leaves (Nat.lt_succ_self _) ht hexpr
  rw [TokenStream.tokens_leaves] at hleaves
  obtain ⟨ts, hts, he⟩ := Option.map_eq_some_iff.1 hleaves
  refine ⟨ts, ?_, he.symm⟩
  cases htokens : (TokenStream.ofSource source).tokens with
  | error e =>
    rw [htokens] at hts
    cases hts
  | ok ts' =>
    rw [htokens] at hts
    cases hts
    rfl

set_option maxRecDepth 4000 in
theorem parse_leaves_two_lines :
    ∃ es ts, Program.parse "f x =\n  (x - 1) * y.z\n\\a True -> f (a x) \"s\"" = .ok es ∧
      (TokenStream.ofSource "f x =\n  (x - 1) * y.z\n\\a True -> f (a x) \"s\"").tokens = .ok ts ∧
      es.flatMap leaves = ts.filterMap Token.leaf? := by
  let first := Expr.function "f" ["x"]
    (.arithmetic .multiply (.arithmetic .subtract (.name "x" none) (.constant (.int 1)))
      (.member (.name "y" none) (.name "z" none))) none
  let second := Expr.lambda ["a", "True"]
    (.apply (.name "f" none) [.apply (.name "a" none) [.name "x" none], .constant (.string "s")])
  let source := "f x =\n  (x - 1) * y.z\n\\a True -> f (a x) \"s\""
  let between : ParseState := ⟨⟨44, "\\a True -> f (a x) \"s\"".toList, [], []⟩, {}⟩
  have hparse : Program.parse source = .ok [first, second] := by cbv
  have hfirst : statement (.ofSource source) = .ok (some (.expression first)) between := by cbv
  have hsecond : statement between = .ok (some (.expression second)) ⟨⟨44, [], [], []⟩, {}⟩ := by
    cbv
  have hs : (ParseState.ofSource source).afterCalls 1 = between := by
    rw [afterCalls_succ, ParseState.afterCalls, stateAfter_of_ok hfirst]
  have hend : (ParseState.ofSource source).afterCalls 2 = ⟨⟨44, [], [], []⟩, {}⟩ := by
    rw [afterCalls_succ, hs, stateAfter_of_ok hsecond]
  obtain ⟨ts, hts, he⟩ := parse_leaves hparse fun k u hu => by
    rcases k with _ | _ | k
    · cases hu.symm.trans hfirst
    · rw [hs] at hu
      cases hu.symm.trans hsecond
    · have hk : ((ParseState.ofSource source).afterCalls (k + 2)).tokens.AtEnd := by
        have h : ((ParseState.mk ⟨44, [], [], []⟩ {}).afterCalls k).tokens.AtEnd :=
          afterCalls_of_atEnd ⟨rfl, rfl, rfl⟩ k
        rwa [← hend] at h
      obtain ⟨v, hv, -⟩ := statement_of_atEnd hk
      cases hu.symm.trans hv
  exact ⟨_, ts, hparse, hts, he⟩

end Parse

end Offside
