import Mathlib
import Offside.Proofs.Decimal.Digits
import Offside.Proofs.JavaScript.Phrase

namespace Offside

open Lexeme Link

namespace Expr

/-- What cannot be told apart by its text is left out: numbers with a fraction, powers, which are
calls in JavaScript, and names with a meaning there. -/
def Plain : Expr → Prop
  | .constant (.float _) => False
  | .arithmetic .power _ _ => False
  | .name x _ => x ∉ ["Native", "Math", "true", "false"]
  | _ => True

theorem integer_word {n : Int64} (h : 0 ≤ n.toInt) :
    Phrase true [.word (Literal.int n).javaScript] := by
  obtain ⟨c, cs, hc, -⟩ := Decimal.natural_head n.toInt.natAbs
  have hdigits := Decimal.digits_isDigit n.toInt.natAbs
  rw [Literal.javaScript, Decimal.integer_of_nonneg h]
  refine .word (c := c) (by rw [hc]; rfl) (fun d hd => ?_) .done
  rw [Decimal.natural, String.toList_ofList] at hd
  simp [isNameChar, hdigits d hd]

theorem name_word {x : String} (hx : IsName x) : Phrase true [.word x] := by
  obtain ⟨c, cs, hc, -, hchars⟩ := isName_iff.1 hx
  exact .word (c := c) (by rw [hc]; rfl) hchars .done

theorem links_phrase {e : Expr} (hl : e.All Lexical) (hp : e.All Plain) : Phrase true e.links := by
  have hoperand {e : Expr} (h : Phrase true e.links) : Phrase true (e.operandLinks e.links) := by
    unfold operandLinks
    split
    · exact h
    · exact .group h .done
  induction e using Expr.induction with
  | constant value =>
    rw [all_constant] at hl hp
    cases value with
    | int n => exact integer_word hl
    | float x => exact hp.elim
    | string s => exact .quoted .done
    | bool b => cases b <;> exact name_word (by decide)
  | name x t => exact name_word (all_name.1 hl)
  | operation op left right hleft hright =>
    rw [all_operation] at hl hp
    have hl' := hoperand (hleft hl.2.1 hp.2.1)
    have hr' := hoperand (hright hl.2.2 hp.2.2)
    rw [links_operation, operationLinks]
    split
    · refine .append (name_word (x := "Math") (by decide)) (.field (by decide) (.call ?_ .done))
      exact List.forall_mem_cons.2 ⟨hl', List.forall_mem_singleton.2 hr'⟩
    · next hpower =>
      refine hl'.append (.operator ?_ hpower hr')
      intro heq
      subst heq
      exact hl.1 rfl
  | define x value t ih =>
    rw [all_define] at hl hp
    rw [links]
    exact .assign hl.1 (ih hl.2 hp.2)
  | apply callee arguments hcallee harguments =>
    rw [all_apply] at hl hp
    rw [links, linksOfAll_eq_map]
    refine (hcallee hl.2.1 hp.2.1).append (.call (List.forall_mem_map.2 fun a ha => ?_) .done)
    exact harguments a ha (hl.2.2 a ha) (hp.2.2 a ha)
  | member target key htarget hkey =>
    rw [all_member] at hl hp
    have hk := hkey hl.2.2 hp.2.2
    rw [links]
    split
    · exact hk
    · refine (htarget hl.2.1 hp.2.1).append ?_
      cases key with
      | name x t => exact .field (all_name.1 hl.2.2) .done
      | _ => exact .index hk .done
  | lambda params body ih =>
    rw [all_lambda] at hl hp
    rw [links]
    exact .lambda hl.1 (ih hl.2 hp.2) .done
  | function f params body t ih =>
    rw [all_function] at hl hp
    rw [links]
    exact .function hl.1 (ih hl.2 hp.2) .done

theorem javaScript_eq_iff {e₁ e₂ : Expr} (h₁ : Phrase true e₁.links) (h₂ : Phrase true e₂.links) :
    e₁.javaScript = e₂.javaScript ↔ e₁.links = e₂.links := by
  rw [← String.toList_inj, toList_javaScript, toList_javaScript]
  refine ⟨fun h => ?_, fun h => by rw [h]⟩
  have hclose : Closes [] := fun c hc => nomatch hc
  have he : charsOf e₁.links ++ [] = charsOf e₂.links ++ [] := by rw [h]
  exact (h₁.unique _ _ _ h₂ hclose hclose he).1

/-- JavaScript takes what follows a tree like this into its last operand or its value. -/
def isOpen : Expr → Bool
  | .comparison _ _ _ | .connective _ _ _ | .arithmetic _ _ _ | .define _ _ _ => true
  | _ => false

/-- A callee and the target of a member end where they seem to. -/
def Delimited : Expr → Prop
  | .apply callee _ => callee.isOpen = false
  | .member target _ => target.isOpen = false
  | _ => True

/-- The kinds of trees, as far as their chains tell them apart. -/
inductive Shape where
  | atom
  | operation
  | define
  | apply
  | member
  | lambda
  | function

def shape : Expr → Shape
  | .constant _ | .name _ _ => .atom
  | .comparison _ _ _ | .connective _ _ _ | .arithmetic _ _ _ => .operation
  | .define _ _ _ => .define
  | .apply _ _ => .apply
  | .member _ _ => .member
  | .lambda _ _ => .lambda
  | .function _ _ _ _ => .function

theorem shape_operation (op : Operator) (left right : Expr) :
    (operation op left right).shape = .operation := by
  cases op <;> rfl

theorem eq_operation_of_shape {e : Expr} (h : e.shape = .operation) :
    ∃ op left right, e = operation op left right := by
  cases e with
  | comparison op left right => exact ⟨.comparison op, left, right, rfl⟩
  | connective op left right => exact ⟨.connective op, left, right, rfl⟩
  | arithmetic op left right => exact ⟨.arithmetic op, left, right, rfl⟩
  | _ => cases h

end Expr

namespace Link

/-- A link that takes in all that follows. -/
def isOpen : Link → Bool
  | .assign _ | .operator _ => true
  | _ => false

def shapeOf (chain : List Link) : Expr.Shape :=
  match chain.find? isOpen, chain.getLast? with
  | some (.assign _), _ => .define
  | some _, _ => .operation
  | none, some (.call _) => .apply
  | none, some (.field _) | none, some (.index _) => .member
  | none, some (.lambda _ _) => .lambda
  | none, some (.function _ _ _) => .function
  | none, _ => .atom

end Link

namespace Expr

theorem ne_power_of_plain {op : Operator} {left right : Expr}
    (h : (operation op left right).Plain) : op ≠ .arithmetic .power := by
  intro heq
  subst heq
  exact h

/-- The name of the host is the only tree with its text. -/
theorem links_ne_host {e : Expr} (hl : e.All Lexical) (hp : e.All Plain) :
    e.links ≠ [.word hostName] := by
  have hmem {l : Link} {chain : List Link} (hne : l ≠ .word hostName) (h : l ∈ chain) :
      chain ≠ [.word hostName] := by
    intro heq
    subst heq
    exact hne (List.mem_singleton.1 h)
  induction e using Expr.induction with
  | constant value =>
    rw [all_constant] at hl hp
    cases value with
    | int n =>
      obtain ⟨c, cs, hc, hletter⟩ := Decimal.natural_head n.toInt.natAbs
      intro h
      injection h with h
      injection h with h
      rw [Literal.javaScript, Decimal.integer_of_nonneg hl] at h
      rw [h] at hc
      cases hc
      cases hletter
    | float x => exact hp.elim
    | string s =>
      intro heq
      cases heq
    | bool b =>
      intro h
      injection h with h
      injection h with h
      cases b <;> exact absurd h (by decide)
  | name x t =>
    intro h
    cases h
    exact all_name.1 hp (by decide)
  | operation op left right hleft hright =>
    rw [all_operation] at hp
    rw [links_operation, operationLinks, if_neg (ne_power_of_plain hp.1)]
    exact hmem (l := .operator op) (by intro h; cases h) (by simp)
  | define x value t ih =>
    intro heq
    cases heq
  | apply callee arguments hcallee harguments =>
    rw [links]
    exact hmem (l := .call (linksOfAll arguments)) (by intro h; cases h) (by simp)
  | member target key htarget hkey =>
    rw [all_member] at hl hp
    rw [links]
    split
    · exact hkey hl.2.2 hp.2.2
    · have hne : keyLink key key.links ≠ .word hostName := by
        intro heq
        cases key <;> cases heq
      exact hmem hne (by simp)
  | lambda params body ih =>
    intro heq
    cases heq
  | function f params body t ih =>
    intro heq
    cases heq

theorem javaScript_ne_host {e : Expr} (hl : e.All Lexical) (hp : e.All Plain) :
    e.javaScript ≠ hostName := by
  intro h
  have hhost : Phrase true (Expr.name hostName none).links := name_word (by decide)
  exact links_ne_host hl hp ((javaScript_eq_iff (links_phrase hl hp) hhost).1 h)

/-- Nodes of trees that can be read back from their chains. -/
def Readable (n : Expr) : Prop := n.Lexical ∧ n.Plain ∧ n.Delimited

section

variable {e : Expr}

theorem links_member {target key : Expr} (h : target.All Readable) :
    (Expr.member target key).links = target.links ++ [keyLink key key.links] := by
  have hne := javaScript_ne_host (h.imp fun _ hn => hn.1) (h.imp fun _ hn => hn.2.1)
  rw [links, if_neg hne]

theorem links_operation_of_readable {op : Operator} {left right : Expr}
    (h : (operation op left right).Readable) :
    (operation op left right).links =
      left.operandLinks left.links ++ .operator op :: right.operandLinks right.links := by
  rw [links_operation, operationLinks, if_neg (ne_power_of_plain h.2.1)]

theorem links_closed (h : e.All Readable) (hclosed : e.isOpen = false) :
    ∀ link ∈ e.links, link.isOpen = false := by
  induction e using Expr.induction with
  | constant value => cases value <;> exact List.forall_mem_singleton.2 rfl
  | name x t => exact List.forall_mem_singleton.2 rfl
  | operation op left right _ _ => cases op <;> cases hclosed
  | define x value t _ => cases hclosed
  | apply callee arguments hcallee _ =>
    rw [all_apply] at h
    rw [links, List.forall_mem_append]
    exact ⟨hcallee h.2.1 h.1.2.2, List.forall_mem_singleton.2 rfl⟩
  | member target key htarget _ =>
    rw [all_member] at h
    rw [links_member h.2.1, List.forall_mem_append]
    exact ⟨htarget h.2.1 h.1.2.2, List.forall_mem_singleton.2 (by cases key <;> rfl)⟩
  | lambda params body _ => exact List.forall_mem_singleton.2 rfl
  | function f params body t _ => exact List.forall_mem_singleton.2 rfl

theorem operandLinks_closed (h : e.All Readable) :
    ∀ link ∈ e.operandLinks e.links, (!link.isOpen) = true := by
  unfold operandLinks
  split
  · next hatomic =>
    have hclosed : e.isOpen = false := by cases e <;> first | rfl | cases hatomic
    exact fun link hlink => by rw [links_closed h hclosed link hlink]; rfl
  · exact List.forall_mem_singleton.2 rfl

theorem shapeOf_links (h : e.All Readable) : shapeOf e.links = e.shape := by
  have hclosed {e : Expr} (h : e.All Readable) (he : e.isOpen = false) :
      e.links.find? Link.isOpen = none :=
    List.find?_eq_none.2 fun link hlink => by rw [links_closed h he link hlink]; decide
  cases e using Expr.induction with
  | constant value => cases value <;> rfl
  | name x t => rfl
  | operation op left right _ _ =>
    have hall := all_operation.1 h
    have hfind : (operation op left right).links.find? Link.isOpen = some (.operator op) := by
      rw [links_operation_of_readable hall.1, List.find?_append, List.find?_eq_none.2]
      · rfl
      · exact fun link hlink => by simpa using operandLinks_closed hall.2.1 link hlink
    rw [shapeOf, hfind, shape_operation]
  | define x value t _ => rfl
  | apply callee arguments _ _ =>
    rw [shapeOf, hclosed h rfl, links, List.getLast?_concat]
    rfl
  | member target key _ _ =>
    rw [shapeOf, hclosed h rfl, links_member (all_member.1 h).2.1, List.getLast?_concat]
    cases key <;> rfl
  | lambda params body _ => rfl
  | function f params body t _ => rfl

end

theorem integer_ne_name {n : Int64} {x : String} (hn : 0 ≤ n.toInt) (hx : IsName x) :
    (Literal.int n).javaScript ≠ x := by
  obtain ⟨c, cs, hc, hletter⟩ := Decimal.natural_head n.toInt.natAbs
  obtain ⟨d, ds, hd, hletter', -⟩ := isName_iff.1 hx
  intro heq
  subst heq
  rw [Literal.javaScript, Decimal.integer_of_nonneg hn, hc] at hd
  cases hd
  cases hletter.symm.trans hletter'

theorem integer_inj {m n : Int64} (hm : 0 ≤ m.toInt) (hn : 0 ≤ n.toInt)
    (h : (Literal.int m).javaScript = (Literal.int n).javaScript) : m = n := by
  rw [Literal.javaScript, Literal.javaScript, Decimal.integer_of_nonneg hm,
    Decimal.integer_of_nonneg hn] at h
  have habs := Decimal.natural_inj h
  exact Int64.toInt_inj.1 (by omega)

theorem bool_isName (b : Bool) : IsName (Literal.bool b).javaScript := by
  cases b <;> decide

theorem atom_cases {e : Expr} (h : e.Readable) (hs : e.shape = .atom) :
    (∃ n, e = .constant (.int n) ∧ 0 ≤ n.toInt) ∨ (∃ b, e = .constant (.bool b)) ∨
      (∃ s, e = .constant (.string s)) ∨
      ∃ x t, e = .name x t ∧ IsName x ∧ ∀ b, (Literal.bool b).javaScript ≠ x := by
  cases e with
  | constant value =>
    cases value with
    | int n => exact .inl ⟨n, rfl, h.1⟩
    | float x => exact h.2.1.elim
    | string s => exact .inr (.inr (.inl ⟨s, rfl⟩))
    | bool b => exact .inr (.inl ⟨b, rfl⟩)
  | name x t =>
    refine .inr (.inr (.inr ⟨x, t, rfl, h.1, fun b hb => h.2.1 ?_⟩))
    cases b <;> exact hb ▸ by decide
  | _ => cases hs

theorem erased_eq_of_atom {e₁ e₂ : Expr} (h₁ : e₁.Readable) (h₂ : e₂.Readable)
    (hs₁ : e₁.shape = .atom) (hs₂ : e₂.shape = .atom) (h : e₁.links = e₂.links) :
    e₁.erased = e₂.erased := by
  have hword {v w : String} (h : [Link.word v] = [Link.word w]) : v = w := by
    injection h with h
    injection h
  rcases atom_cases h₁ hs₁ with ⟨m, rfl, hm⟩ | ⟨a, rfl⟩ | ⟨s, rfl⟩ | ⟨x, t, rfl, hx, hne⟩ <;>
    rcases atom_cases h₂ hs₂ with ⟨n, rfl, hn⟩ | ⟨b, rfl⟩ | ⟨s', rfl⟩ | ⟨y, u, rfl, hy, hne'⟩
  · rw [integer_inj hm hn (hword h)]
  · exact absurd (hword h) (integer_ne_name hm (bool_isName b))
  · cases h
  · exact absurd (hword h) (integer_ne_name hm hy)
  · exact absurd (hword h.symm) (integer_ne_name hn (bool_isName a))
  · have hab := hword h
    cases a <;> cases b <;> first | rfl | exact absurd hab (by decide)
  · cases h
  · exact absurd (hword h) (hne' a)
  · cases h
  · cases h
  · cases h
    rfl
  · cases h
  · exact absurd (hword h.symm) (integer_ne_name hn hx)
  · exact absurd (hword h.symm) (hne b)
  · cases h
  · rw [erased, erased, hword h]

theorem links_ne_group {e : Expr} (h : e.isAtomic = true) (chain : List Link) :
    e.links ≠ [.group chain] := by
  cases e with
  | constant value => cases value <;> exact fun h => nomatch h
  | name x t => exact fun h => nomatch h
  | apply callee arguments =>
    intro he
    have hcall : Link.call (linksOfAll arguments) ∈ (Expr.apply callee arguments).links :=
      List.mem_append_right _ List.mem_cons_self
    rw [he] at hcall
    cases List.mem_singleton.1 hcall
  | _ => cases h

theorem erased_eq_of_operand {e₁ e₂ : Expr} (ih : e₁.links = e₂.links → e₁.erased = e₂.erased)
    (h : e₁.operandLinks e₁.links = e₂.operandLinks e₂.links) : e₁.erased = e₂.erased := by
  unfold operandLinks at h
  split at h <;> split at h
  · exact ih h
  · exact absurd h (links_ne_group ‹_› _)
  · exact absurd h.symm (links_ne_group ‹_› _)
  · injection h with h
    injection h with h
    exact ih h

theorem erased_eq_of_key {k₁ k₂ : Expr} (ih : k₁.links = k₂.links → k₁.erased = k₂.erased)
    (h : keyLink k₁ k₁.links = keyLink k₂ k₂.links) : k₁.erased = k₂.erased := by
  unfold keyLink at h
  split at h <;> split at h
  · injection h with h
    rw [erased, erased, h]
  · cases h
  · cases h
  · injection h with h
    exact ih h

theorem map_eq_of_map_eq {α β γ : Type} {f : α → β} {g : α → γ} {as bs : List α}
    (hfg : ∀ a ∈ as, ∀ b ∈ bs, f a = f b → g a = g b) (h : as.map f = bs.map f) :
    as.map g = bs.map g := by
  induction as generalizing bs with
  | nil =>
    cases bs with
    | nil => rfl
    | cons b bs => cases h
  | cons a as ih =>
    cases bs with
    | nil => cases h
    | cons b bs =>
      injection h with hab h
      rw [List.map_cons, List.map_cons, hfg a List.mem_cons_self b List.mem_cons_self hab,
        ih (fun a ha b hb => hfg a (List.mem_cons_of_mem _ ha) b (List.mem_cons_of_mem _ hb)) h]

theorem shape_eq_of_links {e₁ e₂ : Expr} (h₁ : e₁.All Readable) (h₂ : e₂.All Readable)
    (h : e₁.links = e₂.links) : e₂.shape = e₁.shape := by
  rw [← shapeOf_links h₁, ← shapeOf_links h₂, h]

/-- Trees with closed callees and targets can be read back from their chains. -/
theorem erased_eq_of_links {e₁ e₂ : Expr} (h₁ : e₁.All Readable) (h₂ : e₂.All Readable)
    (h : e₁.links = e₂.links) : e₁.erased = e₂.erased := by
  induction e₁ using Expr.induction generalizing e₂ with
  | constant value => exact erased_eq_of_atom h₁.self h₂.self rfl (shape_eq_of_links h₁ h₂ h) h
  | name x t => exact erased_eq_of_atom h₁.self h₂.self rfl (shape_eq_of_links h₁ h₂ h) h
  | operation op left right hleft hright =>
    have hs := shape_eq_of_links h₁ h₂ h
    rw [shape_operation] at hs
    obtain ⟨op', left', right', rfl⟩ := eq_operation_of_shape hs
    rw [all_operation] at h₁ h₂
    rw [links_operation_of_readable h₁.1, links_operation_of_readable h₂.1] at h
    have hend (op : Operator) (chain : List Link) :
        Ends (fun link => !link.isOpen) (.operator op :: chain) :=
      fun _ hl => Option.mem_some.1 hl ▸ rfl
    obtain ⟨hl, hr⟩ := append_inj_of_ends (operandLinks_closed h₁.2.1)
      (operandLinks_closed h₂.2.1) (hend _ _) (hend _ _) h
    injection hr with hop hr
    injection hop with hop
    rw [erased_operation, erased_operation, hop, erased_eq_of_operand (hleft h₁.2.1 h₂.2.1) hl,
      erased_eq_of_operand (hright h₁.2.2 h₂.2.2) hr]
  | define x value t ih =>
    have hs := shape_eq_of_links h₁ h₂ h
    cases e₂ with
    | define y value' t' =>
      rw [all_define] at h₁ h₂
      injection h with hx h
      injection hx with hx
      rw [erased, erased, hx, ih h₁.2 h₂.2 h]
    | _ => cases hs
  | apply callee arguments hcallee harguments =>
    have hs := shape_eq_of_links h₁ h₂ h
    cases e₂ with
    | apply callee' arguments' =>
      rw [all_apply] at h₁ h₂
      rw [links, links] at h
      obtain ⟨hc, ha⟩ := List.append_inj' h rfl
      injection ha with ha
      injection ha with ha
      rw [linksOfAll_eq_map, linksOfAll_eq_map] at ha
      rw [erased, erased, hcallee h₁.2.1 h₂.2.1 hc, erasedAll_eq_map, erasedAll_eq_map,
        map_eq_of_map_eq (fun a hm b hm' => harguments a hm (h₁.2.2 a hm) (h₂.2.2 b hm')) ha]
    | _ => cases hs
  | member target key htarget hkey =>
    have hs := shape_eq_of_links h₁ h₂ h
    cases e₂ with
    | member target' key' =>
      rw [all_member] at h₁ h₂
      rw [links_member h₁.2.1, links_member h₂.2.1] at h
      obtain ⟨ht, hk⟩ := List.append_inj' h rfl
      injection hk with hk
      rw [erased, erased, htarget h₁.2.1 h₂.2.1 ht, erased_eq_of_key (hkey h₁.2.2 h₂.2.2) hk]
    | _ => cases hs
  | lambda params body ih =>
    have hs := shape_eq_of_links h₁ h₂ h
    cases e₂ with
    | lambda params' body' =>
      rw [all_lambda] at h₁ h₂
      injection h with h
      injection h with hparams hbody
      rw [erased, erased, hparams, ih h₁.2 h₂.2 hbody]
    | _ => cases hs
  | function f params body t ih =>
    have hs := shape_eq_of_links h₁ h₂ h
    cases e₂ with
    | function f' params' body' t' =>
      rw [all_function] at h₁ h₂
      injection h with h
      injection h with hf hparams hbody
      rw [erased, erased, hf, hparams, ih h₁.2 h₂.2 hbody]
    | _ => cases hs

/-- Arguments behind an operator node go to its last operand. -/
theorem javaScript_apply_operation {op : Operator} (hop : op ≠ .arithmetic .power)
    (left : Expr) {right : Expr} (hright : right.isAtomic = true) (arguments : List Expr) :
    (Expr.apply (operation op left right) arguments).javaScript =
      (operation op left (.apply right arguments)).javaScript := by
  rw [← String.toList_inj, toList_javaScript, toList_javaScript, links, links_operation,
    links_operation, operationLinks, operationLinks, if_neg hop, if_neg hop]
  have hoperand : right.operandLinks right.links = right.links := if_pos hright
  have happly (chain : List Link) : (Expr.apply right arguments).operandLinks chain = chain := rfl
  rw [hoperand, happly, links, List.append_assoc, List.cons_append]

/-- Two trees have the same text just when they are chains of the same links. They are then the same
tree, static types aside, if no callee and no target of a member is an operator node or a
definition. -/
theorem javaScript_unambiguous {e₁ e₂ : Expr} (h₁ : e₁.Returned) (h₂ : e₂.Returned)
    (hp₁ : e₁.All Plain) (hp₂ : e₂.All Plain) :
    (e₁.javaScript = e₂.javaScript ↔ e₁.links = e₂.links) ∧
      (e₁.All Delimited → e₂.All Delimited → e₁.javaScript = e₂.javaScript →
        e₁.erased = e₂.erased) := by
  have hiff := javaScript_eq_iff (links_phrase h₁.lexical hp₁) (links_phrase h₂.lexical hp₂)
  refine ⟨hiff, fun hd₁ hd₂ h => ?_⟩
  have hr₁ : e₁.All Readable := h₁.lexical.and (hp₁.and hd₁)
  have hr₂ : e₂.All Readable := h₂.lexical.and (hp₂.and hd₂)
  exact erased_eq_of_links hr₁ hr₂ (hiff.1 h)

set_option maxRecDepth 4000 in
theorem javaScript_unambiguous_typed :
    let typed := Expr.arithmetic .add (.name "x" (some .int)) (.constant (.int 1))
    let untyped := Expr.arithmetic .add (.name "x" none) (.constant (.int 1))
    typed.Returned ∧ untyped.Returned ∧ typed.All Plain ∧ untyped.All Plain ∧
      typed.links = untyped.links ∧ typed.erased = untyped.erased := by
  intro typed untyped
  have htyped : typed.Returned := ⟨"x : Int\nx + 1", {}, 1,
    ⟨⟨13, [], [], []⟩, Context.empty.setValue "x" .int⟩, by cbv⟩
  have huntyped : untyped.Returned := ⟨"(x) + 1", {}, 0, ⟨⟨7, [], [], []⟩, {}⟩, by cbv⟩
  have hplain : typed.All Plain := by simp [typed, All, nodes, Plain]
  have hplain' : untyped.All Plain := by simp [untyped, All, nodes, Plain]
  have hdelimited : typed.All Delimited := by simp [typed, All, nodes, Delimited]
  have hdelimited' : untyped.All Delimited := by simp [untyped, All, nodes, Delimited]
  obtain ⟨hiff, hsame⟩ := javaScript_unambiguous htyped huntyped hplain hplain'
  exact ⟨htyped, huntyped, hplain, hplain', hiff.1 (by rfl), hsame hdelimited hdelimited' (by rfl)⟩

set_option maxRecDepth 4000 in
/-- An application of a disjunction has the text of the disjunction with an application. -/
theorem javaScript_ambiguous :
    ¬ ∀ e₁ e₂ : Expr, e₁.Returned → e₂.Returned → e₁.All Plain → e₂.All Plain →
      e₁.javaScript = e₂.javaScript → e₁.erased = e₂.erased := by
  intro h
  let applied := Expr.apply (operation (.connective .or) (.name "a" none) (.name "b" none))
    [.name "c" none]
  let operand := operation (.connective .or) (.name "a" none)
    (.apply (.name "b" none) [.name "c" none])
  have happlied : applied.Returned := ⟨"(a || b) c", {}, 0, ⟨⟨10, [], [], []⟩, {}⟩, by cbv⟩
  have hoperand : operand.Returned := ⟨"a || b c", {}, 0, ⟨⟨8, [], [], []⟩, {}⟩, by cbv⟩
  have htext : applied.javaScript = operand.javaScript :=
    javaScript_apply_operation (by decide) _ rfl _
  have hplain : applied.All Plain := by
    simp [applied, operation, All, nodes, nodesOfAll, Plain]
  have hplain' : operand.All Plain := by
    simp [operand, operation, All, nodes, nodesOfAll, Plain]
  have hsame := h applied operand happlied hoperand hplain hplain' htext
  change Expr.apply _ _ = Expr.connective _ _ _ at hsame
  cases hsame

end Expr

end Offside
