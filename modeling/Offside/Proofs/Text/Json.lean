import Mathlib
import Offside.Expr.JavaScript

namespace Offside.Text.Json

/-- The one or two units of 16 bits that stand for a character. -/
def units (c : Char) : List Nat :=
  if c.toNat < 0x10000 then [c.toNat]
  else [0xD800 + (c.toNat - 0x10000) / 0x400, 0xDC00 + (c.toNat - 0x10000) % 0x400]

def unitsOf (cs : List Char) : List Nat := cs.flatMap units

/-- What may stand behind a backslash, and the character that it stands for. -/
def shortForms : List (Char × Char) :=
  [('"', '"'), ('\\', '\\'), ('/', '/'), ('b', '\x08'), ('f', '\x0c'), ('n', '\n'), ('r', '\r'),
    ('t', '\t')]

def hexValue? (c : Char) : Option Nat :=
  if '0' ≤ c ∧ c ≤ '9' then some (c.toNat - '0'.toNat)
  else if 'a' ≤ c ∧ c ≤ 'f' then some (c.toNat - 'a'.toNat + 10)
  else if 'A' ≤ c ∧ c ≤ 'F' then some (c.toNat - 'A'.toNat + 10)
  else none

/-- One character of a string as it is written, and its units. -/
inductive IsItem : (text : List Char) → List Nat → Prop
  | plain {c : Char} (hprintable : ' ' ≤ c) (hquote : c ≠ '"') (hbackslash : c ≠ '\\') :
      IsItem [c] (units c)
  | short {letter c : Char} (hletter : (letter, c) ∈ shortForms) :
      IsItem ['\\', letter] (units c)
  | unit {a b c d : Char} {i j k l : Nat} (ha : hexValue? a = some i) (hb : hexValue? b = some j)
      (hc : hexValue? c = some k) (hd : hexValue? d = some l) :
      IsItem ['\\', 'u', a, b, c, d] [((i * 16 + j) * 16 + k) * 16 + l]

inductive AreItems : (text : List Char) → List Nat → Prop
  | nil : AreItems [] []
  | cons {item rest : List Char} {us vs : List Nat} (hitem : IsItem item us)
      (hrest : AreItems rest vs) : AreItems (item ++ rest) (us ++ vs)

/-- A string in quotes. -/
def IsString (text : List Char) (us : List Nat) : Prop :=
  ∃ items, text = '"' :: (items ++ ['"']) ∧ AreItems items us

/-- No character stands where the units of pairs are. -/
theorem toNat_not_surrogate (c : Char) : c.toNat < 0xD800 ∨ 0xDFFF < c.toNat ∧ c.toNat < 0x110000 :=
  c.valid

theorem units_append_inj {c d : Char} {r r' : List Nat} (h : units c ++ r = units d ++ r') :
    c = d ∧ r = r' := by
  have hc := toNat_not_surrogate c
  have hd := toNat_not_surrogate d
  have hchar : c.toNat = d.toNat → c = d := Char.toNat_inj.1
  unfold units at h
  split at h <;> split at h <;>
    simp only [List.cons_append, List.nil_append, List.cons.injEq] at h
  · exact ⟨hchar h.1, h.2⟩
  · omega
  · omega
  · exact ⟨hchar (by omega), h.2.2⟩

theorem units_ne_nil (c : Char) : units c ≠ [] := by
  unfold units
  split <;> exact nofun

theorem unitsOf_inj {cs ds : List Char} (h : unitsOf cs = unitsOf ds) : cs = ds := by
  induction cs generalizing ds with
  | nil =>
    cases ds with
    | nil => rfl
    | cons d ds => exact absurd (List.append_eq_nil_iff.1 h.symm).1 (units_ne_nil d)
  | cons c cs ih =>
    cases ds with
    | nil => exact absurd (List.append_eq_nil_iff.1 h).1 (units_ne_nil c)
    | cons d ds =>
      obtain ⟨rfl, hrest⟩ := units_append_inj h
      rw [ih hrest]

theorem shortForms_unique {p q : Char × Char} (hp : p ∈ shortForms) (hq : q ∈ shortForms)
    (h : p.1 = q.1) : p = q := by
  have hall : ∀ p ∈ shortForms, ∀ q ∈ shortForms, p.1 = q.1 → p = q := by decide
  exact hall p hp q hq h

theorem u_not_shortForm {c : Char} : ('u', c) ∉ shortForms := by
  have hall : ∀ p ∈ shortForms, p.1 ≠ 'u' := by decide
  exact fun h => hall _ h rfl

theorem IsItem.unique {text text' r r' : List Char} {us us' : List Nat} (h : IsItem text us)
    (h' : IsItem text' us') (heq : text ++ r = text' ++ r') : text = text' ∧ us = us' := by
  cases h with
  | plain _ _ hbackslash =>
    cases h' with
    | plain =>
      cases heq
      exact ⟨rfl, rfl⟩
    | short | unit =>
      cases heq
      exact absurd rfl hbackslash
  | short hletter =>
    cases h' with
    | plain _ _ hbackslash =>
      cases heq
      exact absurd rfl hbackslash
    | short hletter' =>
      cases heq
      cases shortForms_unique hletter hletter' rfl
      exact ⟨rfl, rfl⟩
    | unit =>
      cases heq
      exact absurd hletter u_not_shortForm
  | unit ha hb hc hd =>
    cases h' with
    | plain _ _ hbackslash =>
      cases heq
      exact absurd rfl hbackslash
    | short hletter' =>
      cases heq
      exact absurd hletter' u_not_shortForm
    | unit ha' hb' hc' hd' =>
      cases heq
      cases ha.symm.trans ha'
      cases hb.symm.trans hb'
      cases hc.symm.trans hc'
      cases hd.symm.trans hd'
      exact ⟨rfl, rfl⟩

theorem IsItem.head_ne {text : List Char} {us : List Nat} (h : IsItem text us) (r : List Char) :
    (text ++ r).head? ≠ some '"' := by
  cases h with
  | plain _ hquote _ => exact fun h => hquote (Option.some.inj h)
  | short => exact nofun
  | unit => exact nofun

/-- Items end at the first quote that is no part of one. -/
theorem AreItems.unique {text text' r r' : List Char} {us us' : List Nat} (h : AreItems text us)
    (h' : AreItems text' us') (heq : text ++ '"' :: r = text' ++ '"' :: r') :
    text = text' ∧ us = us' := by
  induction h generalizing text' us' with
  | nil =>
    cases h' with
    | nil => exact ⟨rfl, rfl⟩
    | cons hitem' _ =>
      rw [List.append_assoc] at heq
      exact absurd (congrArg List.head? heq.symm) (hitem'.head_ne _)
  | cons hitem _ ih =>
    cases h' with
    | nil =>
      rw [List.append_assoc] at heq
      exact absurd (congrArg List.head? heq) (hitem.head_ne _)
    | cons hitem' hrest' =>
      rw [List.append_assoc, List.append_assoc] at heq
      obtain ⟨rfl, rfl⟩ := hitem.unique hitem' heq
      obtain ⟨rfl, rfl⟩ := ih hrest' (List.append_cancel_left heq)
      exact ⟨rfl, rfl⟩

theorem IsString.unique {text text' r r' : List Char} {us us' : List Nat} (h : IsString text us)
    (h' : IsString text' us') (heq : text ++ r = text' ++ r') : text = text' ∧ us = us' := by
  obtain ⟨items, rfl, hitems⟩ := h
  obtain ⟨items', rfl, hitems'⟩ := h'
  simp only [List.cons_append, List.append_assoc, List.nil_append, List.cons.injEq, true_and] at heq
  obtain ⟨rfl, rfl⟩ := hitems.unique hitems' heq
  exact ⟨rfl, rfl⟩

theorem IsString.units_unique {text : List Char} {us us' : List Nat} (h : IsString text us)
    (h' : IsString text us') : us = us' := (h.unique (r := []) h' rfl).2

theorem hexValue?_printable {c : Char} {i : Nat} (h : hexValue? c = some i) : ' ' ≤ c := by
  have hzero : ' ' ≤ '0' := by decide
  have ha : ' ' ≤ 'a' := by decide
  have hA : ' ' ≤ 'A' := by decide
  unfold hexValue? at h
  split at h
  · next hc => exact hzero.trans hc.1
  split at h
  · next hc => exact ha.trans hc.1
  split at h
  · next hc => exact hA.trans hc.1
  · cases h

theorem IsItem.printable {text : List Char} {us : List Nat} (h : IsItem text us) :
    ∀ c ∈ text, ' ' ≤ c := by
  cases h with
  | plain hprintable => simpa using hprintable
  | short hletter =>
    have hall : ∀ p ∈ shortForms, ' ' ≤ p.1 := by decide
    simpa using hall _ hletter
  | unit ha hb hc hd =>
    simpa using ⟨hexValue?_printable ha, hexValue?_printable hb, hexValue?_printable hc,
      hexValue?_printable hd⟩

/-- No control character stands in a string. -/
theorem IsString.printable {text : List Char} {us : List Nat} (h : IsString text us) :
    ∀ c ∈ text, ' ' ≤ c := by
  obtain ⟨items, rfl, hitems⟩ := h
  have hall : ∀ c ∈ items, ' ' ≤ c := by
    induction hitems with
    | nil => exact nofun
    | cons hitem _ ih => exact List.forall_mem_append.2 ⟨hitem.printable, ih⟩
  have hquote : ∀ c ∈ ['"'], ' ' ≤ c := List.forall_mem_singleton.2 (by decide)
  exact List.forall_mem_append.2 ⟨hquote, List.forall_mem_append.2 ⟨hall, hquote⟩⟩

theorem hexValue?_hexDigit {d : Nat} (h : d < 16) : hexValue? (Quoted.hexDigit d) = some d := by
  have hall : ∀ d < 16, hexValue? (Quoted.hexDigit d) = some d := by decide +kernel
  exact hall d h

theorem isItem_control {c : Char} (h : c < ' ') :
    IsItem ['\\', 'u', '0', '0', Quoted.hexDigit (c.toNat / 16), Quoted.hexDigit (c.toNat % 16)]
      (units c) := by
  have hlt : c.toNat < 32 := h
  have hzero : hexValue? '0' = some 0 := rfl
  have hhigh := hexValue?_hexDigit (show c.toNat / 16 < 16 by omega)
  have hlow := hexValue?_hexDigit (show c.toNat % 16 < 16 by omega)
  have hunits : units c = [((0 * 16 + 0) * 16 + c.toNat / 16) * 16 + c.toNat % 16] := by
    rw [units, if_pos (by omega)]
    congr 1
    omega
  rw [hunits]
  exact .unit hzero hzero hhigh hlow

theorem isItem_escape (c : Char) : IsItem (Quoted.escape c) (units c) := by
  have hshort {letter d : Char} (h : c = d) (hletter : (letter, d) ∈ shortForms) :
      IsItem ['\\', letter] (units c) := by
    rw [h]
    exact .short hletter
  unfold Quoted.escape
  split
  · next h => exact hshort h (by decide)
  split
  · next h => exact hshort h (by decide)
  split
  · next h => exact hshort h (by decide)
  split
  · next h => exact hshort h (by decide)
  split
  · next h => exact hshort h (by decide)
  split
  · next h => exact hshort h (by decide)
  split
  · next h => exact hshort h (by decide)
  split
  · next h => exact isItem_control h
  · next hquote hbackslash _ _ _ _ _ hprintable =>
    exact .plain (not_lt.1 hprintable) hquote hbackslash

theorem isString_encode (cs : List Char) : IsString (Quoted.encode cs) (unitsOf cs) := by
  refine ⟨cs.flatMap Quoted.escape, rfl, ?_⟩
  induction cs with
  | nil => exact .nil
  | cons c cs ih => exact .cons (isItem_escape c) ih

end Offside.Text.Json

namespace Offside.Text.Quoted

/-- A literal ends where its text does. -/
theorem encode_append_inj {cs ds r r' : List Char} (h : encode cs ++ r = encode ds ++ r') :
    cs = ds ∧ r = r' := by
  obtain ⟨htext, hunits⟩ := (Json.isString_encode cs).unique (Json.isString_encode ds) h
  rw [htext] at h
  exact ⟨Json.unitsOf_inj hunits, List.append_cancel_left h⟩

end Offside.Text.Quoted

namespace Offside.Expr

open Text

theorem isString_javaScript (s : String) :
    Json.IsString (Expr.constant (.string s)).javaScript.toList (Json.unitsOf s.toList) := by
  rw [javaScript, Literal.javaScript, quote, String.toList_ofList]
  exact Json.isString_encode s.toList

/-- The text of a string constant is a string for its value, and no first part of the text is a
string already. Different values have different texts. -/
theorem javaScript_string (s : String) :
    let text := (Expr.constant (.string s)).javaScript.toList
    (∃ items, text = '"' :: (items ++ ['"'])) ∧ (∀ c ∈ text, ' ' ≤ c) ∧
      (∀ n us, Json.IsString (text.take n) us ↔
        text.length ≤ n ∧ us = Json.unitsOf s.toList) ∧
      (∀ t : String, Json.IsString text (Json.unitsOf t.toList) ↔ t = s) ∧
      ∀ t : String,
        (Expr.constant (.string t)).javaScript = (Expr.constant (.string s)).javaScript ↔ t = s := by
  intro text
  have hstring : Json.IsString text (Json.unitsOf s.toList) := isString_javaScript s
  have hvalue {t : String} (h : Json.IsString text (Json.unitsOf t.toList)) : t = s :=
    String.toList_inj.1 (Json.unitsOf_inj (h.units_unique hstring))
  have ⟨items, hitems, _⟩ := hstring
  refine ⟨⟨items, hitems⟩, hstring.printable, fun n us => ⟨fun h => ?_, ?_⟩,
    fun t => ⟨hvalue, ?_⟩, fun t => ⟨fun h => hvalue ?_, fun h => by rw [h]⟩⟩
  · have heq : text.take n ++ text.drop n = text ++ [] := by simp
    obtain ⟨hwhole, hus⟩ := h.unique hstring heq
    exact ⟨(List.take_eq_self_iff text).1 hwhole, hus⟩
  · rintro ⟨hn, rfl⟩
    rw [List.take_of_length_le hn]
    exact hstring
  · rintro rfl
    exact hstring
  · have hother := isString_javaScript t
    rwa [h] at hother

end Offside.Expr
