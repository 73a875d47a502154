import Offside.Program
import Offside.Proofs.Expr.Nodes

namespace Offside

def Operator.javaScript : Operator → String
  | .arithmetic op => if op = .equal then "===" else op.symbol
  | .comparison op => op.javaScript
  | .connective op => op.symbol

/-- What brackets and blanks hold together. A chain of links tells all of a tree but how far the
callee of a call and the target of a member reach. -/
inductive Link where
  | assign (x : String)
  /-- A name, a number or a truth value. -/
  | word (text : String)
  | quoted (text : String)
  | group (chain : List Link)
  | lambda (params : List String) (body : List Link)
  | function (f : String) (params : List String) (body : List Link)
  | operator (op : Operator)
  | call (arguments : List (List Link))
  | field (x : String)
  | index (key : List Link)

/-- Texts with commas between them. -/
def separated : List (List Char) → List Char
  | [] => []
  | cs :: rest => cs ++ rest.flatMap fun ds => ',' :: ' ' :: ds

theorem intercalate_eq_separated (texts : List (List Char)) :
    [',', ' '].intercalate texts = separated texts := by
  induction texts with
  | nil => rfl
  | cons cs texts ih =>
    cases texts with
    | nil => simp [separated]
    | cons ds texts =>
      rw [List.intercalate_cons_cons, ih]
      simp [separated]

namespace Link

def varWord : List Char := "var ".toList

def assignWord : List Char := " = ".toList

def functionWord : List Char := "function ".toList

def returnWord : List Char := " \x7b return ".toList

def returnEnd : List Char := "; \x7d".toList

/-- A list of parameters and a body that returns a value. -/
def scopeChars (params : List String) (body : List Char) : List Char :=
  '(' :: (separated (params.map String.toList) ++ ')' :: (returnWord ++ (body ++ returnEnd)))

mutual

def chars : Link → List Char
  | .assign x => varWord ++ (x.toList ++ assignWord)
  | .word text => text.toList
  | .quoted text => Text.Quoted.encode text.toList
  | .group chain => '(' :: (charsOf chain ++ [')'])
  | .lambda params body => '(' :: (functionWord ++ (scopeChars params (charsOf body) ++ [')']))
  | .function f params body => functionWord ++ (f.toList ++ scopeChars params (charsOf body))
  | .operator op => ' ' :: (op.javaScript.toList ++ [' '])
  | .call arguments => '(' :: (separated (charsOfAll arguments) ++ [')'])
  | .field x => '.' :: x.toList
  | .index key => '[' :: (charsOf key ++ [']'])

def charsOf : List Link → List Char
  | [] => []
  | link :: chain => link.chars ++ charsOf chain

def charsOfAll : List (List Link) → List (List Char)
  | [] => []
  | chain :: chains => charsOf chain :: charsOfAll chains

end

theorem charsOfAll_eq_map (chains : List (List Link)) : charsOfAll chains = chains.map charsOf := by
  induction chains with
  | nil => rfl
  | cons chain chains ih => rw [charsOfAll, ih, List.map_cons]

theorem charsOf_append (chain chain' : List Link) :
    charsOf (chain ++ chain') = charsOf chain ++ charsOf chain' := by
  induction chain with
  | nil => rfl
  | cons link chain ih => rw [List.cons_append, charsOf, ih, charsOf, List.append_assoc]

theorem charsOf_singleton (link : Link) : charsOf [link] = link.chars := by
  rw [charsOf, charsOf, List.append_nil]

end Link

def Literal.link : Literal → Link
  | .string s => .quoted s
  | value => .word value.javaScript

namespace Expr

open Link

/-- The chain of an operand. -/
def operandLinks (e : Expr) (chain : List Link) : List Link :=
  if e.isAtomic then chain else [.group chain]

def operationLinks (op : Operator) (left right : List Link) : List Link :=
  if op = .arithmetic .power then [.word "Math", .field "pow", .call [left, right]]
  else left ++ .operator op :: right

def keyLink (key : Expr) (chain : List Link) : Link :=
  match key with
  | .name x _ => .field x
  | _ => .index chain

mutual

def links : Expr → List Link
  | .constant value => [value.link]
  | .name x _ => [.word x]
  | .comparison op left right =>
    operationLinks (.comparison op) (left.operandLinks left.links) (right.operandLinks right.links)
  | .connective op left right =>
    operationLinks (.connective op) (left.operandLinks left.links) (right.operandLinks right.links)
  | .arithmetic op left right =>
    operationLinks (.arithmetic op) (left.operandLinks left.links) (right.operandLinks right.links)
  | .define x value _ => .assign x :: value.links
  | .apply callee arguments => callee.links ++ [.call (linksOfAll arguments)]
  | .member target key =>
    if target.javaScript = hostName then key.links else target.links ++ [keyLink key key.links]
  | .lambda params body => [.lambda params body.links]
  | .function f params body _ => [.function f params body.links]

def linksOfAll : List Expr → List (List Link)
  | [] => []
  | e :: es => e.links :: linksOfAll es

end

theorem linksOfAll_eq_map (es : List Expr) : linksOfAll es = es.map links := by
  induction es with
  | nil => rfl
  | cons e es ih => rw [linksOfAll, ih, List.map_cons]

theorem links_operation (op : Operator) (left right : Expr) :
    (operation op left right).links =
      operationLinks op (left.operandLinks left.links) (right.operandLinks right.links) := by
  cases op <;> rw [operation, links]

theorem isAtomic_operation (op : Operator) (left right : Expr) :
    (operation op left right).isAtomic = false := by
  cases op <;> rfl

theorem javaScript_operation {op : Operator} (h : op ≠ .arithmetic .power) (left right : Expr) :
    (operation op left right).javaScript =
      left.operand left.javaScript ++ " " ++ op.javaScript ++ " " ++
        right.operand right.javaScript := by
  cases op with
  | arithmetic op =>
    rw [operation, javaScript]
    · rfl
    · exact fun he => h (congrArg _ he)
  | comparison op => rw [operation, javaScript]; rfl
  | connective op => rw [operation, javaScript]; rfl

theorem toList_literal (value : Literal) : value.javaScript.toList = value.link.chars := by
  cases value with
  | string s =>
    rw [Literal.javaScript, Text.quote, String.toList_ofList, Literal.link, chars]
  | _ => rfl

theorem toList_operand {e : Expr} (h : e.javaScript.toList = charsOf e.links) :
    (e.operand e.javaScript).toList = charsOf (e.operandLinks e.links) := by
  unfold operand operandLinks
  split
  · exact h
  · rw [charsOf_singleton, chars, ← h, String.toList_append, String.toList_append]
    rfl

theorem toList_separated (texts : List String) :
    (", ".intercalate texts).toList = separated (texts.map String.toList) := by
  rw [String.toList_intercalate]
  exact intercalate_eq_separated _

theorem toList_scope (before : String) (params : List String) (body : String) :
    (before ++ "(" ++ ", ".intercalate params ++ ") " ++ returning body).toList =
      before.toList ++ scopeChars params body.toList := by
  have hclose : ") ".toList = [')', ' '] := rfl
  have hword : returnWord = ' ' :: "\x7b return ".toList := by decide
  have hend : "; \x7d".toList = returnEnd := rfl
  have hopen : "(".toList = ['('] := rfl
  unfold returning
  rw [scopeChars, ← toList_separated, ← hend, hword]
  simp only [String.toList_append, hopen, hclose, List.append_assoc, List.cons_append,
    List.nil_append]

theorem toList_memberText {target : String} (h : target ≠ hostName) (key : Expr) (text : String) :
    (memberText target key text).toList = target.toList ++
      match key with
      | .name _ _ => '.' :: text.toList
      | _ => '[' :: (text.toList ++ [']']) := by
  unfold memberText
  rw [if_neg h]
  cases key with
  | name x t =>
    rw [String.toList_append, String.toList_append, List.append_assoc]
    rfl
  | _ =>
    simp only [String.toList_append, List.append_assoc]
    rfl

theorem toList_javaScript (e : Expr) : e.javaScript.toList = charsOf e.links := by
  induction e using Expr.induction with
  | constant value => rw [javaScript, links, charsOf_singleton, toList_literal]
  | name x t => rw [javaScript, links, charsOf_singleton, chars]
  | operation op left right hleft hright =>
    rw [links_operation, operationLinks]
    split
    · next h =>
      rw [h, operation, javaScript]
      simp [charsOf, chars, charsOfAll, separated, toList_operand hleft, toList_operand hright]
    · next h =>
      rw [javaScript_operation h]
      simp [charsOf_append, charsOf, chars, toList_operand hleft, toList_operand hright]
  | define x value t ih =>
    rw [javaScript, links, charsOf, chars, ← ih]
    simp only [String.toList_append, List.append_assoc, varWord, assignWord]
  | apply callee arguments hcallee harguments =>
    have hall : (javaScripts arguments).map String.toList = charsOfAll (linksOfAll arguments) := by
      rw [javaScripts_eq_map, linksOfAll_eq_map, charsOfAll_eq_map, List.map_map, List.map_map]
      exact List.map_congr_left harguments
    rw [javaScript, links, charsOf_append, charsOf_singleton, chars, ← hall, ← hcallee,
      ← toList_separated]
    simp only [String.toList_append, List.append_assoc]
    rfl
  | member target key htarget hkey =>
    rw [javaScript, links]
    split
    · next h =>
      unfold memberText
      rw [if_pos h, hkey]
    · next h =>
      rw [toList_memberText h, charsOf_append, charsOf_singleton, ← htarget]
      cases key with
      | name x t => rfl
      | _ =>
        rw [keyLink, chars, ← hkey]
        intro x t heq
        cases heq
  | lambda params body ih =>
    have hopen : "(function (" = "(function " ++ "(" := by decide
    have hword : "(function ".toList = '(' :: functionWord := by decide
    rw [javaScript, links, charsOf_singleton, chars, ← ih, hopen, String.toList_append,
      toList_scope, hword, List.append_assoc]
    rfl
  | function f params body t ih =>
    rw [javaScript, links, charsOf_singleton, chars, ← ih, toList_scope, String.toList_append,
      List.append_assoc]
    rfl

end Expr

theorem Program.javaScript_append (xs ys : List Expr) :
    javaScript (xs ++ ys) = javaScript xs ++ javaScript ys := by
  unfold javaScript
  rw [List.map_append, String.join_append]

end Offside
