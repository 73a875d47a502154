import Mathlib
import Offside.Program
import Offside.Proofs.JavaScript.Link
import Offside.Proofs.Parse.Lexical
import Offside.Proofs.Text.Brackets
import Offside.Proofs.Token.Ahead

namespace Offside

open Lexeme Text

theorem isInert_of_isNameChar {c : Char} (h : isNameChar c = true) : isInert c = true := by
  have hne {d : Char} (hd : isNameChar d = false) : c ≠ d := fun heq => by
    rw [← heq, h] at hd
    cases hd
  have hcontrol : isControl c = false := by
    obtain ⟨hlow, hhigh⟩ := toNat_of_isNameChar h
    simp only [isControl, Bool.or_eq_false_iff, Bool.and_eq_false_iff, decide_eq_false_iff_not]
    omega
  have hbrackets : ∀ p ∈ brackets, isNameChar p.1 = false ∧ isNameChar p.2 = false := by decide
  simp only [isInert, hcontrol, Bool.not_false, Bool.true_and, Bool.and_eq_true, bne_iff_ne,
    Bool.not_eq_true', List.any_eq_false, Bool.or_eq_true, beq_iff_eq, not_or]
  exact ⟨hne rfl, fun p hp => ⟨hne (hbrackets p hp).1, hne (hbrackets p hp).2⟩⟩

theorem balanced_of_isNameChar {cs : List Char} (h : ∀ c ∈ cs, isNameChar c = true) : Balanced cs :=
  .ofInert (List.all_eq_true.2 fun c hc => isInert_of_isNameChar (h c hc))

namespace Decimal

theorem digits_isInert (n : Nat) : ∀ c ∈ digits n, isInert c = true := fun c hc =>
  isInert_of_isNameChar (by simp [isNameChar, digits_isDigit n c hc])

theorem balanced_integer (n : Int) : Balanced (integer n).toList := by
  have hnatural : Balanced (natural n.natAbs).toList := by
    rw [natural, String.toList_ofList]
    exact .ofInert (List.all_eq_true.2 (digits_isInert _))
  unfold integer
  split
  · rw [String.toList_append]
    exact (Balanced.ofInert rfl).append hnatural
  · exact hnatural

theorem balanced_positional (layout : Layout) {ds : List Char}
    (hds : ∀ c ∈ ds, isInert c = true) (magnitude : Int) :
    Balanced (layout.positional ds magnitude) := by
  refine .ofInert (List.all_eq_true.2 fun c hc => ?_)
  rcases Layout.mem_positional hc with hdigit | rfl | rfl
  · exact hds c hdigit
  · rfl
  · rfl

theorem balanced_write (x : Float) : Balanced (Layout.plain.write x).toList := by
  have hsign (negative : Bool) : Balanced (if negative then "-" else "").toList := by
    cases negative with
    | false => exact .nil
    | true => exact .ofInert rfl
  unfold Layout.write
  split
  · exact .ofInert rfl
  · rw [String.toList_append]
    exact (hsign _).append (.ofInert rfl)
  · rw [String.toList_append, String.toList_ofList]
    refine (hsign _).append ?_
    split
    · exact balanced_positional _ (List.all_eq_true.1 rfl) 0
    · exact balanced_positional _ (fun c hc => digits_isInert _ c (Layout.mem_of_mem_dropZeros hc)) _

end Decimal

theorem IsName.balanced {x : String} (h : IsName x) : Balanced x.toList := by
  obtain ⟨_, _, _, _, hchars⟩ := isName_iff.1 h
  exact balanced_of_isNameChar hchars

theorem balanced_separated {texts : List (List Char)} (h : ∀ cs ∈ texts, Balanced cs) :
    Balanced (separated texts) := by
  cases texts with
  | nil => exact .nil
  | cons cs rest =>
    rw [List.forall_mem_cons] at h
    refine h.1.append ?_
    have hrest := h.2
    clear h
    induction rest with
    | nil => exact .nil
    | cons ds rest ih =>
      rw [List.forall_mem_cons] at hrest
      have hcomma : Balanced [',', ' '] := .ofInert rfl
      exact (hcomma.append hrest.1).append (ih hrest.2)

theorem balanced_parenthesized {cs : List Char} (h : Balanced cs) : Balanced ('(' :: (cs ++ [')'])) :=
  h.bracketed (by decide)

theorem balanced_names {params : List String} (h : ∀ x ∈ params, IsName x) :
    Balanced (separated (params.map String.toList)) := by
  refine balanced_separated fun cs hcs => ?_
  obtain ⟨x, hx, rfl⟩ := List.mem_map.1 hcs
  exact (h x hx).balanced

namespace Link

theorem balanced_scope {params : List String} (hparams : ∀ x ∈ params, IsName x) {body : List Char}
    (hbody : Balanced body) : Balanced (scopeChars params body) := by
  have htext : scopeChars params body =
      '(' :: (separated (params.map String.toList) ++ [')']) ++
        ' ' :: ('\x7b' :: ((" return ".toList ++ (body ++ "; ".toList)) ++ ['\x7d'])) := by
    have hopen : returnWord = ' ' :: '\x7b' :: " return ".toList := by decide
    have hclose : returnEnd = "; ".toList ++ ['\x7d'] := by decide
    rw [scopeChars, hopen, hclose]
    simp only [List.cons_append, List.append_assoc, List.nil_append]
  have hreturn : Balanced (" return ".toList ++ (body ++ "; ".toList)) :=
    (Balanced.ofInert rfl).append (hbody.append (.ofInert rfl))
  rw [htext]
  exact (balanced_parenthesized (balanced_names hparams)).append
    (.cons rfl (hreturn.bracketed (by decide)))

theorem balanced_function {params : List String} (hparams : ∀ x ∈ params, IsName x)
    {before body : List Char} (hbefore : Balanced before) (hbody : Balanced body) :
    Balanced (functionWord ++ (before ++ scopeChars params body)) :=
  (Balanced.ofInert rfl).append (hbefore.append (balanced_scope hparams hbody))

theorem balanced_operator (op : Operator) : Balanced (Link.operator op).chars := by
  rw [chars]
  rcases op with op | op | op <;> cases op <;> exact .ofInert rfl

end Link

namespace Expr

open Link

theorem balanced_literal (value : Literal) : Balanced value.javaScript.toList := by
  cases value with
  | int n => exact Decimal.balanced_integer _
  | float x => exact Decimal.balanced_write x
  | string s =>
    rw [Literal.javaScript, quote, String.toList_ofList]
    exact CodeReader.scan_isString (Json.isString_encode s.toList)
  | bool b => cases b <;> exact .ofInert rfl

theorem balanced_operandLinks {e : Expr} {chain : List Link} (h : Balanced (charsOf chain)) :
    Balanced (charsOf (e.operandLinks chain)) := by
  unfold operandLinks
  split
  · exact h
  · rw [charsOf_singleton, chars]
    exact balanced_parenthesized h

theorem balanced_operationLinks (op : Operator) {left right : List Link}
    (hleft : Balanced (charsOf left)) (hright : Balanced (charsOf right)) :
    Balanced (charsOf (operationLinks op left right)) := by
  unfold operationLinks
  split
  · have hcall : Balanced (Link.call [left, right]).chars := by
      rw [chars, charsOfAll_eq_map]
      refine balanced_parenthesized (balanced_separated ?_)
      simpa using ⟨hleft, hright⟩
    have hpower : Balanced "Math.pow".toList := .ofInert rfl
    exact hpower.append (hcall.append .nil)
  · rw [charsOf_append, charsOf]
    exact hleft.append ((balanced_operator op).append hright)

theorem balanced_keyLink {key : Expr} {chain : List Link} (hkey : key.All Lexical)
    (h : Balanced (charsOf chain)) : Balanced (keyLink key chain).chars := by
  unfold keyLink
  split
  · rw [chars]
    exact .cons rfl (all_name.1 hkey : IsName _).balanced
  · rw [chars]
    exact h.bracketed (by decide)

/-- The text of a tree that a source can write closes what it opens. -/
theorem balanced_javaScript {e : Expr} (he : e.All Lexical) : Balanced e.javaScript.toList := by
  rw [toList_javaScript]
  induction e using Expr.induction with
  | constant value =>
    rw [links, charsOf_singleton, ← toList_literal]
    exact balanced_literal value
  | name x t =>
    rw [links, charsOf_singleton, chars]
    exact (all_name.1 he : IsName x).balanced
  | operation op left right hleft hright =>
    obtain ⟨-, hl, hr⟩ := all_operation.1 he
    rw [links_operation]
    exact balanced_operationLinks op (balanced_operandLinks (hleft hl)) (balanced_operandLinks (hright hr))
  | define x value t ih =>
    obtain ⟨hx, hvalue⟩ := all_define.1 he
    rw [links, charsOf, chars]
    have hvar : Balanced varWord := .ofInert rfl
    have hassign : Balanced assignWord := .ofInert rfl
    exact (hvar.append ((hx : IsName x).balanced.append hassign)).append (ih hvalue)
  | apply callee arguments hcallee harguments =>
    obtain ⟨-, hc, ha⟩ := all_apply.1 he
    rw [links, charsOf_append, charsOf_singleton, chars, linksOfAll_eq_map, charsOfAll_eq_map,
      List.map_map]
    refine (hcallee hc).append (balanced_parenthesized (balanced_separated fun cs hcs => ?_))
    obtain ⟨a, hmem, rfl⟩ := List.mem_map.1 hcs
    exact harguments a hmem (ha a hmem)
  | member target key htarget hkey =>
    obtain ⟨-, ht, hk⟩ := all_member.1 he
    rw [links]
    split
    · exact hkey hk
    · rw [charsOf_append, charsOf_singleton]
      exact (htarget ht).append (balanced_keyLink hk (hkey hk))
  | lambda params body ih =>
    obtain ⟨hparams, hbody⟩ := all_lambda.1 he
    rw [links, charsOf_singleton, chars, ← List.append_assoc]
    have hfunction := balanced_function hparams .nil (ih hbody)
    exact balanced_parenthesized hfunction
  | function f params body t ih =>
    obtain ⟨hnames, hbody⟩ := all_function.1 he
    have hall := List.forall_mem_cons.1 (hnames : ∀ x ∈ f :: params, IsName x)
    rw [links, charsOf_singleton, chars]
    exact balanced_function hall.2 hall.1.balanced (ih hbody)

end Expr

/-- Lines that are ended one after another are the lines of the text. -/
theorem splitOn_flatMap {lines : List (List Char)} (h : ∀ line ∈ lines, '\n' ∉ line) :
    (lines.flatMap (· ++ ['\n'])).splitOn '\n' = lines ++ [[]] := by
  induction lines with
  | nil => rfl
  | cons line lines ih =>
    rw [List.forall_mem_cons] at h
    have hline : ∀ c ∈ line, (c == '\n') = false := fun c hc =>
      beq_false_of_ne fun heq => h.1 (heq ▸ hc)
    have hrest := ih h.2
    rw [List.splitOn] at hrest ⊢
    rw [List.flatMap_cons, List.append_assoc, List.singleton_append,
      List.splitOnP_append_cons_of_forall_mem hline '\n' rfl, hrest, List.cons_append]

namespace Program

/-- The line of an expression. -/
def line (e : Expr) : List Char := e.javaScript.toList ++ [';']

theorem toList_javaScript_eq (es : List Expr) :
    (javaScript es).toList = (es.map line).flatMap (· ++ ['\n']) := by
  induction es with
  | nil => rfl
  | cons e es ih =>
    have hcons : javaScript (e :: es) = javaScript [e] ++ javaScript es := javaScript_append [e] es
    have hone : (javaScript [e]).toList = line e ++ ['\n'] := by
      simp [javaScript, String.join, line]
    rw [hcons, String.toList_append, hone, ih, List.map_cons, List.flatMap_cons]

theorem balanced_line {e : Expr} (he : e.Returned) : Balanced (line e) :=
  (Expr.balanced_javaScript he.lexical).append (.ofInert rfl)

/-- The code of a source has a line for each expression, which ends in a semicolon and closes what it
opens. The code of several programs is put together from theirs. -/
theorem javaScript_lines :
    (∀ source context es, parse source context = .ok es →
      (javaScript es).toList.splitOn '\n' = es.map line ++ [[]] ∧
        ∀ e ∈ es, WellBracketed (line e) ∧ ∀ c ∈ line e, ' ' ≤ c) ∧
      ∀ xs ys, javaScript (xs ++ ys) = javaScript xs ++ javaScript ys := by
  refine ⟨fun source context es hparse => ?_, javaScript_append⟩
  have hbalanced : ∀ e ∈ es, Balanced (line e) := fun e he =>
    balanced_line (Parse.parse_returned hparse e he)
  refine ⟨?_, fun e he => ⟨(hbalanced e he).wellBracketed, (hbalanced e he).printable⟩⟩
  rw [toList_javaScript_eq]
  refine splitOn_flatMap fun cs hcs hbreak => ?_
  obtain ⟨e, he, rfl⟩ := List.mem_map.1 hcs
  exact absurd ((hbalanced e he).printable '\n' hbreak) (by decide)

/-- Brackets in strings need not be closed. -/
theorem javaScript_lines_strings :
    let source := "f = \\x -> x.\")\"\nf \"[\""
    let key := Expr.member (.name "x" none) (.constant (.string ")"))
    let es := [Expr.define "f" (.lambda ["x"] key) none,
      .apply (.name "f" none) [.constant (.string "[")]]
    parse source = .ok es ∧
      (javaScript es).toList.splitOn '\n' = es.map line ++ [[]] ∧
      WellBracketed (line (.apply (.name "f" none) [.constant (.string "[")])) := by
  intro source key es
  have hparse : parse source = .ok es := by cbv
  obtain ⟨hlines, hall⟩ := javaScript_lines.1 source {} es hparse
  exact ⟨hparse, hlines, (hall _ (List.mem_cons_of_mem _ List.mem_cons_self)).1⟩

/-- A control character that is not one of the first 32 stands in a string as it is. -/
theorem javaScript_raw_control :
    parse "\"\x7f\"" = .ok [.constant (.string "\x7f")] ∧
      (javaScript [.constant (.string "\x7f")]).toList = ['"', '\x7f', '"', ';', '\n'] ∧
      isControl '\x7f' = true ∧ '\x7f' ≠ '\n' := by
  have hparse : parse "\"\x7f\"" = .ok [.constant (.string "\x7f")] := by cbv
  exact ⟨hparse, rfl, rfl, by decide⟩

end Program

end Offside
