import Offside.Proofs.JavaScript.Link
import Offside.Proofs.Parse.Lexical
import Offside.Proofs.Text.Json

namespace Offside

open Lexeme

/-- The chains of trees. Only one that is a head stands by itself; the others go on with one. -/
inductive Phrase : (isHead : Bool) → List Link → Prop
  | done : Phrase false []
  | assign {x : String} {chain : List Link} : IsName x → Phrase true chain →
    Phrase true (.assign x :: chain)
  | word {c : Char} {text : String} {chain : List Link} : c ∈ text.toList.head? →
    (∀ d ∈ text.toList, isNameChar d = true) → Phrase false chain →
    Phrase true (.word text :: chain)
  | quoted {text : String} {chain : List Link} : Phrase false chain →
    Phrase true (.quoted text :: chain)
  | group {inner chain : List Link} : Phrase true inner → Phrase false chain →
    Phrase true (.group inner :: chain)
  | lambda {params : List String} {body chain : List Link} : (∀ x ∈ params, IsName x) →
    Phrase true body → Phrase false chain → Phrase true (.lambda params body :: chain)
  | function {f : String} {params : List String} {body chain : List Link} :
    (∀ x ∈ f :: params, IsName x) → Phrase true body → Phrase false chain →
    Phrase true (.function f params body :: chain)
  | operator {op : Operator} {chain : List Link} : op ≠ .arithmetic .equal →
    op ≠ .arithmetic .power → Phrase true chain → Phrase false (.operator op :: chain)
  | call {arguments : List (List Link)} {chain : List Link} : (∀ a ∈ arguments, Phrase true a) →
    Phrase false chain → Phrase false (.call arguments :: chain)
  | field {x : String} {chain : List Link} : IsName x → Phrase false chain →
    Phrase false (.field x :: chain)
  | index {key chain : List Link} : Phrase true key → Phrase false chain →
    Phrase false (.index key :: chain)

/-- What stands behind a chain in a text: nothing, or what closes the chain around it. -/
def Closes (rest : List Char) : Prop := ∀ c ∈ rest.head?, c = ')' ∨ c = ']' ∨ c = ',' ∨ c = ';'

theorem Closes.of_cons {c : Char} {rest : List Char}
    (h : c = ')' ∨ c = ']' ∨ c = ',' ∨ c = ';') : Closes (c :: rest) :=
  fun _ hd => Option.mem_some.1 hd ▸ h

theorem Closes.ends {rest : List Char} (h : Closes rest) : Ends isNameChar rest := by
  intro c hc
  rcases h c hc with rfl | rfl | rfl | rfl <;> rfl

/-- The kinds of links, and the end of a chain. -/
inductive Lead where
  | done
  | assign
  | word
  | quoted
  | group
  | lambda
  | function
  | operator
  | call
  | field
  | index

def leadOf : List Link → Lead
  | [] => .done
  | .assign _ :: _ => .assign
  | .word _ :: _ => .word
  | .quoted _ :: _ => .quoted
  | .group _ :: _ => .group
  | .lambda _ _ :: _ => .lambda
  | .function _ _ _ :: _ => .function
  | .operator _ :: _ => .operator
  | .call _ :: _ => .call
  | .field _ :: _ => .field
  | .index _ :: _ => .index

/-- The character behind a blank. -/
def behindBlank : List Char → Option Char
  | ' ' :: c :: _ => some c
  | _ => none

/-- The character behind the first word and a blank. -/
def behindWord (cs : List Char) : Option Char := behindBlank (cs.dropWhile isNameChar)

/-- The kind of the first link, read off a text. -/
def headLead (cs : List Char) : Lead :=
  match cs with
  | '"' :: _ => .quoted
  | '(' :: rest => if behindWord rest = some '(' then .lambda else .group
  | _ =>
    if (behindWord cs).any isLetter then
      if cs.head? = some 'v' then .assign else .function
    else .word

/-- The kind of a further link. -/
def tailLead : List Char → Lead
  | ' ' :: _ => .operator
  | '(' :: _ => .call
  | '.' :: _ => .field
  | '[' :: _ => .index
  | _ => .done

theorem Operator.javaScript_spec (op : Operator) :
    ∃ c cs, op.javaScript.toList = c :: cs ∧ isLetter c = false ∧ c ≠ '(' ∧
      ∀ d ∈ op.javaScript.toList, (d != ' ') = true := by
  rcases op with op | op | op <;> cases op <;>
    exact ⟨_, _, rfl, by decide, by decide, List.all_eq_true.1 rfl⟩

/-- The symbol in a source of an operator with the given symbol in JavaScript. -/
def sourceSymbol (symbol : String) : String :=
  if symbol = "===" then "==" else if symbol = "!==" then "/=" else symbol

theorem Operator.symbol_of_javaScript (op : Operator) : sourceSymbol op.javaScript = op.symbol := by
  rcases op with op | op | op <;> cases op <;> rfl

theorem Operator.javaScript_inj {op op' : Operator} (h : op ≠ .arithmetic .equal)
    (h' : op' ≠ .arithmetic .equal) (he : op.javaScript = op'.javaScript) : op = op' := by
  have hs := congrArg (fun s => ofSymbol? (sourceSymbol s)) he
  rw [symbol_of_javaScript, symbol_of_javaScript, ofSymbol?_symbol op h,
    ofSymbol?_symbol op' h'] at hs
  exact Option.some.inj hs

namespace Phrase

open Link

variable {chain chain' : List Link} {rest rest' : List Char}

theorem append {b : Bool} (h : Phrase b chain) (h' : Phrase false chain') :
    Phrase b (chain ++ chain') := by
  induction h with
  | done => exact h'
  | assign hx _ ih => exact .assign hx ih
  | word hw hc _ ih => exact .word hw hc ih
  | quoted _ ih => exact .quoted ih
  | group hinner _ _ ih => exact .group hinner ih
  | lambda hparams hbody _ _ ih => exact .lambda hparams hbody ih
  | function hnames hbody _ _ ih => exact .function hnames hbody ih
  | operator he hp _ ih => exact .operator he hp ih
  | call harguments _ _ ih => exact .call harguments ih
  | field hx _ ih => exact .field hx ih
  | index hkey _ _ ih => exact .index hkey ih

theorem tailLead_eq (h : Phrase false chain) (hrest : Closes rest) :
    tailLead (charsOf chain ++ rest) = leadOf chain := by
  cases h with
  | done =>
    cases rest with
    | nil => rfl
    | cons c rest => rcases hrest c rfl with rfl | rfl | rfl | rfl <;> rfl
  | _ => rfl

theorem tail_ends (h : Phrase false chain) (hrest : Closes rest) :
    Ends isNameChar (charsOf chain ++ rest) := by
  cases h with
  | done => exact hrest.ends
  | _ => exact fun c hc => Option.mem_some.1 hc ▸ rfl

/-- A further link that begins with a blank is an operator. -/
theorem behindBlank_tail (h : Phrase false chain) (hrest : Closes rest) :
    ∀ c ∈ behindBlank (charsOf chain ++ rest), isLetter c = false ∧ c ≠ '(' := by
  cases h with
  | done =>
    cases rest with
    | nil =>
      intro c hc
      cases hc
    | cons d rest =>
      intro c hc
      rcases hrest d rfl with rfl | rfl | rfl | rfl <;> cases hc
  | operator _ _ _ =>
    rename_i op _ _ _ _
    obtain ⟨d, ds, hd, hletter, hparen, -⟩ := op.javaScript_spec
    intro c hc
    rw [charsOf, chars, hd] at hc
    cases hc
    exact ⟨hletter, hparen⟩
  | _ =>
    intro c hc
    cases hc

theorem behindWord_name {x : String} (hx : IsName x) {w : List Char}
    (hw : ∀ c ∈ w, isNameChar c = true) (rest : List Char) :
    ∃ c, behindWord (w ++ ' ' :: (x.toList ++ rest)) = some c ∧ isLetter c = true := by
  obtain ⟨c, cs, hc, hletter, -⟩ := isName_iff.1 hx
  have hblank : Ends isNameChar (' ' :: (x.toList ++ rest)) := fun d hd =>
    Option.mem_some.1 hd ▸ rfl
  refine ⟨c, ?_, hletter⟩
  rw [behindWord, dropWhile_append hw hblank, hc]
  rfl

/-- Only the parameters of a function stand in parentheses behind a word and a blank. -/
theorem behindWord_head (h : Phrase true chain) (hrest : Closes rest) :
    behindWord (charsOf chain ++ rest) ≠ some '(' := by
  have hletter {x : String} (hx : IsName x) {w : List Char}
      (hw : ∀ c ∈ w, isNameChar c = true) (rest : List Char) :
      behindWord (w ++ ' ' :: (x.toList ++ rest)) ≠ some '(' := by
    obtain ⟨c, hc, hl⟩ := behindWord_name hx hw rest
    rw [hc]
    intro heq
    cases heq
    exact absurd hl (by decide)
  cases h with
  | assign hx _ =>
    rw [charsOf, chars, List.append_assoc, List.append_assoc, List.append_assoc]
    exact hletter hx (w := ['v', 'a', 'r']) (List.all_eq_true.1 rfl) _
  | word hw hchars htail =>
    rw [charsOf, chars, List.append_assoc, behindWord,
      dropWhile_append hchars (htail.tail_ends hrest)]
    exact fun h => (behindBlank_tail htail hrest _ h).2 rfl
  | function hnames _ _ =>
    rw [charsOf, chars, List.append_assoc, List.append_assoc, List.append_assoc]
    exact hletter (List.forall_mem_cons.1 hnames).1
      (w := ['f', 'u', 'n', 'c', 't', 'i', 'o', 'n']) (List.all_eq_true.1 rfl) _
  | _ =>
    intro heq
    cases heq

theorem headLead_word {c : Char} (hc : isNameChar c = true) (cs : List Char) :
    headLead (c :: cs) =
      if (behindWord (c :: cs)).any isLetter then if c = 'v' then .assign else .function
      else .word := by
  unfold headLead
  split
  · next h =>
    cases h
    cases hc
  · next h =>
    cases h
    cases hc
  · simp

/-- A word with a name behind it declares the name. -/
theorem headLead_declaration {x : String} (hx : IsName x) {c : Char} {w : List Char}
    (hw : ∀ d ∈ c :: w, isNameChar d = true) (rest : List Char) :
    headLead (c :: w ++ ' ' :: (x.toList ++ rest)) =
      if c = 'v' then .assign else .function := by
  obtain ⟨d, hd, hletter⟩ := behindWord_name hx hw rest
  rw [List.cons_append] at hd ⊢
  rw [headLead_word (hw c List.mem_cons_self), hd, Option.any_some, if_pos hletter]

theorem headLead_eq (h : Phrase true chain) (hrest : Closes rest) :
    headLead (charsOf chain ++ rest) = leadOf chain := by
  cases h with
  | assign hx _ =>
    rw [charsOf, chars, List.append_assoc, List.append_assoc, List.append_assoc]
    exact headLead_declaration hx (c := 'v') (w := ['a', 'r']) (List.all_eq_true.1 rfl) _
  | function hnames _ _ =>
    rw [charsOf, chars, List.append_assoc, List.append_assoc, List.append_assoc]
    exact headLead_declaration (List.forall_mem_cons.1 hnames).1 (c := 'f')
      (w := ['u', 'n', 'c', 't', 'i', 'o', 'n']) (List.all_eq_true.1 rfl) _
  | @word c text chain hc hchars htail =>
    have hany : (behindWord (text.toList ++ (charsOf chain ++ rest))).any isLetter = false := by
      rw [behindWord, dropWhile_append hchars (htail.tail_ends hrest), Option.any_eq_false]
      exact fun d hd => by simp [(behindBlank_tail htail hrest d hd).1]
    rw [charsOf, chars, List.append_assoc]
    cases htext : text.toList with
    | nil =>
      rw [htext] at hc
      cases hc
    | cons d ds =>
      rw [htext] at hany hchars
      rw [List.cons_append] at hany ⊢
      rw [headLead_word (hchars d List.mem_cons_self), hany]
      rfl
  | @group inner chain hinner htail =>
    have hne : behindWord (charsOf inner ++ ')' :: (charsOf chain ++ rest)) ≠ some '(' :=
      behindWord_head hinner (.of_cons (.inl rfl))
    rw [charsOf, chars, List.cons_append, List.cons_append, List.append_assoc, List.append_assoc]
    exact if_neg hne
  | _ => rfl

/-- Kinds are read off the text. -/
theorem leadOf_eq {b : Bool} (h : Phrase b chain) (h' : Phrase b chain') (hrest : Closes rest)
    (hrest' : Closes rest') (he : charsOf chain ++ rest = charsOf chain' ++ rest') :
    leadOf chain = leadOf chain' := by
  cases b with
  | true => rw [← headLead_eq h hrest, ← headLead_eq h' hrest', he]
  | false => rw [← tailLead_eq h hrest, ← tailLead_eq h' hrest', he]

theorem opens (h : Phrase true chain) : ∃ c cs, charsOf chain = c :: cs ∧ c ≠ ')' := by
  cases h with
  | assign _ _ => exact ⟨_, _, rfl, by decide⟩
  | @word c text chain hc hchars _ =>
    cases htext : text.toList with
    | nil =>
      rw [htext] at hc
      cases hc
    | cons d ds =>
      refine ⟨d, ds ++ charsOf chain, by rw [charsOf, chars, htext, List.cons_append], ?_⟩
      intro heq
      subst heq
      exact absurd (hchars ')' (htext ▸ List.mem_cons_self)) (by decide)
  | quoted _ => exact ⟨_, _, rfl, by decide⟩
  | group _ _ => exact ⟨_, _, rfl, by decide⟩
  | lambda _ _ _ => exact ⟨_, _, rfl, by decide⟩
  | function _ _ _ => exact ⟨_, _, rfl, by decide⟩

end Phrase

section

variable {α : Type} {chars : α → List Char} {P : α → Prop}

/-- No other good text begins like that of `a` and is closed behind it. -/
def Unique (chars : α → List Char) (P : α → Prop) (a : α) : Prop :=
  ∀ b rest rest', P b → Closes rest → Closes rest' → chars a ++ rest = chars b ++ rest' →
    a = b ∧ rest = rest'

theorem closes_commas (as : List α) (rest : List Char) :
    Closes ((as.flatMap fun a => ',' :: ' ' :: chars a) ++ ')' :: rest) := by
  cases as with
  | nil => exact .of_cons (.inl rfl)
  | cons a as => exact .of_cons (.inr (.inr (.inl rfl)))

theorem commas_inj {as bs : List α} {rest rest' : List Char} (has : ∀ a ∈ as, Unique chars P a)
    (hbs : ∀ b ∈ bs, P b)
    (h : (as.flatMap fun a => ',' :: ' ' :: chars a) ++ ')' :: rest =
      (bs.flatMap fun b => ',' :: ' ' :: chars b) ++ ')' :: rest') : as = bs ∧ rest = rest' := by
  induction as generalizing bs with
  | nil =>
    cases bs with
    | nil => exact ⟨rfl, List.cons.inj h |>.2⟩
    | cons b bs => cases h
  | cons a as ih =>
    cases bs with
    | nil => cases h
    | cons b bs =>
      rw [List.forall_mem_cons] at has hbs
      simp only [List.flatMap_cons, List.cons_append, List.append_assoc, List.cons.injEq,
        true_and] at h
      obtain ⟨hab, hrest⟩ := has.1 b _ _ hbs.1 (closes_commas as rest) (closes_commas bs rest') h
      obtain ⟨habs, hr⟩ := ih has.2 hbs.2 hrest
      exact ⟨by rw [hab, habs], hr⟩

theorem separated_inj {as bs : List α} {rest rest' : List Char}
    (hopens : ∀ a, P a → ∃ c cs, chars a = c :: cs ∧ c ≠ ')') (hgood : ∀ a ∈ as, P a)
    (has : ∀ a ∈ as, Unique chars P a) (hbs : ∀ b ∈ bs, P b)
    (h : separated (as.map chars) ++ ')' :: rest = separated (bs.map chars) ++ ')' :: rest') :
    as = bs ∧ rest = rest' := by
  cases as with
  | nil =>
    cases bs with
    | nil => exact ⟨rfl, List.cons.inj h |>.2⟩
    | cons b bs =>
      obtain ⟨c, cs, hc, hne⟩ := hopens b (List.forall_mem_cons.1 hbs).1
      rw [List.map_cons, separated, hc] at h
      exact absurd (List.cons.inj h).1.symm hne
  | cons a as =>
    rw [List.forall_mem_cons] at hgood has
    cases bs with
    | nil =>
      obtain ⟨c, cs, hc, hne⟩ := hopens a hgood.1
      rw [List.map_cons, separated, hc] at h
      exact absurd (List.cons.inj h).1 hne
    | cons b bs =>
      rw [List.forall_mem_cons] at hbs
      simp only [List.map_cons, separated, List.flatMap_map, List.append_assoc] at h
      obtain ⟨hab, hrest⟩ := has.1 b _ _ hbs.1 (closes_commas as rest) (closes_commas bs rest') h
      obtain ⟨habs, hr⟩ := commas_inj has.2 hbs.2 hrest
      exact ⟨by rw [hab, habs], hr⟩

end

theorem IsName.chars {x : String} (h : IsName x) : ∀ c ∈ x.toList, isNameChar c = true := by
  obtain ⟨-, -, -, -, hchars⟩ := isName_iff.1 h
  exact hchars

theorem IsName.append_inj {x y : String} {rest rest' : List Char} (hx : IsName x) (hy : IsName y)
    (hrest : Ends isNameChar rest) (hrest' : Ends isNameChar rest')
    (h : x.toList ++ rest = y.toList ++ rest') : x = y ∧ rest = rest' := by
  obtain ⟨hxy, hr⟩ := append_inj_of_ends hx.chars hy.chars hrest hrest' h
  exact ⟨String.toList_inj.1 hxy, hr⟩

theorem params_inj {xs ys : List String} {rest rest' : List Char} (hxs : ∀ x ∈ xs, IsName x)
    (hys : ∀ y ∈ ys, IsName y)
    (h : separated (xs.map String.toList) ++ ')' :: rest =
      separated (ys.map String.toList) ++ ')' :: rest') : xs = ys ∧ rest = rest' := by
  refine separated_inj (P := IsName) (fun x hx => ?_) hxs (fun x hx => ?_) hys h
  · obtain ⟨c, cs, hc, hl, -⟩ := isName_iff.1 hx
    refine ⟨c, cs, hc, ?_⟩
    intro heq
    subst heq
    exact absurd hl (by decide)
  · exact fun y rest rest' hy hr hr' he => (hxs x hx).append_inj hy hr.ends hr'.ends he

namespace Link

open Phrase

variable {rest rest' : List Char}

theorem assign_inj {x y : String} (hx : IsName x) (hy : IsName y)
    (h : (assign x).chars ++ rest = (assign y).chars ++ rest') :
    assign x = assign y ∧ rest = rest' := by
  simp only [chars, List.append_assoc, List.append_cancel_left_eq] at h
  have hend (r : List Char) : Ends isNameChar (assignWord ++ r) := fun c hc =>
    Option.mem_some.1 hc ▸ rfl
  obtain ⟨rfl, hmore⟩ := hx.append_inj hy (hend _) (hend _) h
  exact ⟨rfl, List.append_cancel_left hmore⟩

theorem word_inj {v w : String} (hv : ∀ c ∈ v.toList, isNameChar c = true)
    (hw : ∀ c ∈ w.toList, isNameChar c = true) (hrest : Ends isNameChar rest)
    (hrest' : Ends isNameChar rest') (h : (word v).chars ++ rest = (word w).chars ++ rest') :
    word v = word w ∧ rest = rest' := by
  obtain ⟨htext, hmore⟩ := append_inj_of_ends hv hw hrest hrest' h
  exact ⟨by rw [String.toList_inj.1 htext], hmore⟩

theorem quoted_inj {v w : String} (h : (quoted v).chars ++ rest = (quoted w).chars ++ rest') :
    quoted v = quoted w ∧ rest = rest' := by
  obtain ⟨htext, hmore⟩ := Text.Quoted.encode_append_inj h
  exact ⟨by rw [String.toList_inj.1 htext], hmore⟩

theorem group_inj {inner inner' : List Link} (hinner : Unique charsOf (Phrase true) inner)
    (hinner' : Phrase true inner')
    (h : (group inner).chars ++ rest = (group inner').chars ++ rest') :
    group inner = group inner' ∧ rest = rest' := by
  simp only [chars, List.cons_append, List.append_assoc, List.nil_append, List.cons.injEq,
    true_and] at h
  have hclose (r : List Char) : Closes (')' :: r) := .of_cons (.inl rfl)
  obtain ⟨rfl, hmore⟩ := hinner _ _ _ hinner' (hclose _) (hclose _) h
  exact ⟨rfl, (List.cons.inj hmore).2⟩

theorem scope_inj {xs ys : List String} {body body' : List Link} (hxs : ∀ x ∈ xs, IsName x)
    (hys : ∀ y ∈ ys, IsName y) (hbody : Unique charsOf (Phrase true) body)
    (hbody' : Phrase true body')
    (h : scopeChars xs (charsOf body) ++ rest = scopeChars ys (charsOf body') ++ rest') :
    xs = ys ∧ body = body' ∧ rest = rest' := by
  simp only [scopeChars, List.cons_append, List.append_assoc, List.cons.injEq, true_and] at h
  obtain ⟨hparams, h⟩ := params_inj hxs hys h
  have hclose (rest : List Char) : Closes (returnEnd ++ rest) := .of_cons (.inr (.inr (.inr rfl)))
  obtain ⟨hbodies, h⟩ := hbody body' _ _ hbody' (hclose rest) (hclose rest')
    (List.append_cancel_left h)
  exact ⟨hparams, hbodies, List.append_cancel_left h⟩

theorem lambda_inj {xs ys : List String} {body body' : List Link} (hxs : ∀ x ∈ xs, IsName x)
    (hys : ∀ y ∈ ys, IsName y) (hbody : Unique charsOf (Phrase true) body)
    (hbody' : Phrase true body')
    (h : (lambda xs body).chars ++ rest = (lambda ys body').chars ++ rest') :
    lambda xs body = lambda ys body' ∧ rest = rest' := by
  simp only [chars, List.cons_append, List.append_assoc, List.nil_append, List.cons.injEq,
    true_and, List.append_cancel_left_eq] at h
  obtain ⟨rfl, rfl, hmore⟩ := scope_inj hxs hys hbody hbody' h
  exact ⟨rfl, (List.cons.inj hmore).2⟩

theorem function_inj {f g : String} {xs ys : List String} {body body' : List Link}
    (hf : ∀ x ∈ f :: xs, IsName x) (hg : ∀ y ∈ g :: ys, IsName y)
    (hbody : Unique charsOf (Phrase true) body) (hbody' : Phrase true body')
    (h : (function f xs body).chars ++ rest = (function g ys body').chars ++ rest') :
    function f xs body = function g ys body' ∧ rest = rest' := by
  rw [List.forall_mem_cons] at hf hg
  simp only [chars, List.append_assoc, List.append_cancel_left_eq] at h
  have hend (r : List Char) : Ends isNameChar ('(' :: r) := fun c hc =>
    Option.mem_some.1 hc ▸ rfl
  obtain ⟨rfl, hscope⟩ := hf.1.append_inj hg.1 (hend _) (hend _) h
  obtain ⟨rfl, rfl, hmore⟩ := scope_inj hf.2 hg.2 hbody hbody' hscope
  exact ⟨rfl, hmore⟩

theorem operator_inj {op op' : Operator} (hop : op ≠ .arithmetic .equal)
    (hop' : op' ≠ .arithmetic .equal)
    (h : (operator op).chars ++ rest = (operator op').chars ++ rest') :
    operator op = operator op' ∧ rest = rest' := by
  simp only [chars, List.cons_append, List.append_assoc, List.nil_append, List.cons.injEq,
    true_and] at h
  obtain ⟨-, -, -, -, -, hchars⟩ := op.javaScript_spec
  obtain ⟨-, -, -, -, -, hchars'⟩ := op'.javaScript_spec
  have hend (r : List Char) : Ends (· != ' ') (' ' :: r) := fun c hc => Option.mem_some.1 hc ▸ rfl
  obtain ⟨htext, hmore⟩ := append_inj_of_ends hchars hchars' (hend _) (hend _) h
  obtain rfl := Operator.javaScript_inj hop hop' (String.toList_inj.1 htext)
  exact ⟨rfl, (List.cons.inj hmore).2⟩

theorem call_inj {as bs : List (List Link)} (has : ∀ a ∈ as, Phrase true a)
    (hunique : ∀ a ∈ as, Unique charsOf (Phrase true) a) (hbs : ∀ b ∈ bs, Phrase true b)
    (h : (call as).chars ++ rest = (call bs).chars ++ rest') :
    call as = call bs ∧ rest = rest' := by
  simp only [chars, charsOfAll_eq_map, List.cons_append, List.append_assoc, List.nil_append,
    List.cons.injEq, true_and] at h
  obtain ⟨rfl, hmore⟩ := separated_inj (fun _ => opens) has hunique hbs h
  exact ⟨rfl, hmore⟩

theorem field_inj {x y : String} (hx : IsName x) (hy : IsName y) (hrest : Ends isNameChar rest)
    (hrest' : Ends isNameChar rest') (h : (field x).chars ++ rest = (field y).chars ++ rest') :
    field x = field y ∧ rest = rest' := by
  simp only [chars, List.cons_append, List.cons.injEq, true_and] at h
  obtain ⟨rfl, hmore⟩ := hx.append_inj hy hrest hrest' h
  exact ⟨rfl, hmore⟩

theorem index_inj {key key' : List Link} (hkey : Unique charsOf (Phrase true) key)
    (hkey' : Phrase true key') (h : (index key).chars ++ rest = (index key').chars ++ rest') :
    index key = index key' ∧ rest = rest' := by
  simp only [chars, List.cons_append, List.append_assoc, List.nil_append, List.cons.injEq,
    true_and] at h
  have hclose (r : List Char) : Closes (']' :: r) := .of_cons (.inr (.inl rfl))
  obtain ⟨rfl, hmore⟩ := hkey _ _ _ hkey' (hclose _) (hclose _) h
  exact ⟨rfl, (List.cons.inj hmore).2⟩

end Link

open Link

variable {chain chain' : List Link} {rest rest' : List Char}

/-- Only chains that begin alike have to be told apart. -/
theorem Unique.of_lead {b : Bool} (h : Phrase b chain)
    (hunique : ∀ {chain' rest rest'}, Phrase b chain' → leadOf chain = leadOf chain' →
      Closes rest → Closes rest' → charsOf chain ++ rest = charsOf chain' ++ rest' →
      chain = chain' ∧ rest = rest') : Unique charsOf (Phrase b) chain :=
  fun _ _ _ h' hrest hrest' he => hunique h' (h.leadOf_eq h' hrest hrest' he) hrest hrest' he

/-- Two chains are told apart by their first links, and then by what follows. -/
theorem Unique.cons {b : Bool} {l l' : Link} (hchain : Unique charsOf (Phrase b) chain)
    (hchain' : Phrase b chain') (hrest : Closes rest) (hrest' : Closes rest')
    (hlink : l.chars ++ (charsOf chain ++ rest) = l'.chars ++ (charsOf chain' ++ rest') →
      l = l' ∧ charsOf chain ++ rest = charsOf chain' ++ rest')
    (he : charsOf (l :: chain) ++ rest = charsOf (l' :: chain') ++ rest') :
    l :: chain = l' :: chain' ∧ rest = rest' := by
  rw [charsOf, charsOf, List.append_assoc, List.append_assoc] at he
  obtain ⟨rfl, hmore⟩ := hlink he
  obtain ⟨rfl, hr⟩ := hchain _ _ _ hchain' hrest hrest' hmore
  exact ⟨rfl, hr⟩

theorem Phrase.unique {b : Bool} (h : Phrase b chain) : Unique charsOf (Phrase b) chain := by
  induction h with
  | done =>
    refine .of_lead .done fun h' hl _ _ he => ?_
    cases h' with
    | done => exact ⟨rfl, he⟩
    | _ => cases hl
  | assign hx hchain ih =>
    refine .of_lead (.assign hx hchain) fun h' hl hrest hrest' he => ?_
    cases h' with
    | assign hy hchain' => exact ih.cons hchain' hrest hrest' (assign_inj hx hy) he
    | _ => cases hl
  | word hc hv hchain ih =>
    refine .of_lead (.word hc hv hchain) fun h' hl hrest hrest' he => ?_
    cases h' with
    | word _ hw hchain' =>
      have hends := hchain.tail_ends hrest
      exact ih.cons hchain' hrest hrest' (word_inj hv hw hends (hchain'.tail_ends hrest')) he
    | _ => cases hl
  | quoted hchain ih =>
    refine .of_lead (.quoted hchain) fun h' hl hrest hrest' he => ?_
    cases h' with
    | quoted hchain' => exact ih.cons hchain' hrest hrest' quoted_inj he
    | _ => cases hl
  | group hinner hchain ihinner ih =>
    refine .of_lead (.group hinner hchain) fun h' hl hrest hrest' he => ?_
    cases h' with
    | group hinner' hchain' =>
      exact ih.cons hchain' hrest hrest' (group_inj ihinner hinner') he
    | _ => cases hl
  | lambda hxs hbody hchain ihbody ih =>
    refine .of_lead (.lambda hxs hbody hchain) fun h' hl hrest hrest' he => ?_
    cases h' with
    | lambda hys hbody' hchain' =>
      exact ih.cons hchain' hrest hrest' (lambda_inj hxs hys ihbody hbody') he
    | _ => cases hl
  | function hf hbody hchain ihbody ih =>
    refine .of_lead (.function hf hbody hchain) fun h' hl hrest hrest' he => ?_
    cases h' with
    | function hg hbody' hchain' =>
      exact ih.cons hchain' hrest hrest' (function_inj hf hg ihbody hbody') he
    | _ => cases hl
  | operator hop hpower hchain ih =>
    refine .of_lead (.operator hop hpower hchain) fun h' hl hrest hrest' he => ?_
    cases h' with
    | operator hop' _ hchain' =>
      exact ih.cons hchain' hrest hrest' (operator_inj hop hop') he
    | _ => cases hl
  | call has hchain ihas ih =>
    refine .of_lead (.call has hchain) fun h' hl hrest hrest' he => ?_
    cases h' with
    | call hbs hchain' => exact ih.cons hchain' hrest hrest' (call_inj has ihas hbs) he
    | _ => cases hl
  | field hx hchain ih =>
    refine .of_lead (.field hx hchain) fun h' hl hrest hrest' he => ?_
    cases h' with
    | field hy hchain' =>
      have hends := hchain.tail_ends hrest
      exact ih.cons hchain' hrest hrest' (field_inj hx hy hends (hchain'.tail_ends hrest')) he
    | _ => cases hl
  | index hkey hchain ihkey ih =>
    refine .of_lead (.index hkey hchain) fun h' hl hrest hrest' he => ?_
    cases h' with
    | index hkey' hchain' => exact ih.cons hchain' hrest hrest' (index_inj ihkey hkey') he
    | _ => cases hl

end Offside
