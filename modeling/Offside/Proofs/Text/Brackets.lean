import Mathlib
import Offside.Proofs.Text.Json

namespace Offside.Text

/-- The first 32 characters of each half of the first 256, and the last one of the first half. -/
def isControl (c : Char) : Bool := c.toNat < 0x20 || 0x7f ≤ c.toNat && c.toNat < 0xa0

/-- The brackets, each with the one that closes it. -/
def brackets : List (Char × Char) := [('(', ')'), ('[', ']'), ('\x7b', '\x7d')]

inductive Within where
  | code
  | string
  /-- Behind a backslash. -/
  | escape
  /-- In an escape of which so many hexadecimal digits are missing. -/
  | digits (missing : Nat)
  deriving DecidableEq

/-- What a reader is in, and the brackets that it has to meet outside of strings, the next one
first. -/
structure CodeReader where
  within : Within := .code
  due : List Char := []
  deriving DecidableEq

namespace CodeReader

/-- Reads a character, unless it must not stand there. -/
def step (r : CodeReader) (c : Char) : Option CodeReader :=
  match r.within with
  | .code =>
    if isControl c then none
    else if c = '"' then some { r with within := .string }
    else
      match brackets.lookup c with
      | some closing => some { r with due := closing :: r.due }
      | none =>
        if c ∈ brackets.map Prod.snd then
          if r.due.head? = some c then some { r with due := r.due.tail } else none
        else some r
  | .string =>
    if c = '"' then some { r with within := .code }
    else if c = '\\' then some { r with within := .escape }
    else if ' ' ≤ c then some r
    else none
  | .escape =>
    if c = 'u' then some { r with within := .digits 4 }
    else if c ∈ Json.shortForms.map Prod.fst then some { r with within := .string }
    else none
  | .digits missing =>
    if (Json.hexValue? c).isSome then
      some { r with within := if missing ≤ 1 then .string else .digits (missing - 1) }
    else none

def scan (r : CodeReader) (cs : List Char) : Option CodeReader := cs.foldlM step r

end CodeReader

open CodeReader

/-- Every bracket outside of strings is closed by its own kind in the order of opening, every string
is complete, and no control character stands outside of strings. -/
def WellBracketed (cs : List Char) : Prop := scan {} cs = some {}

instance (cs : List Char) : Decidable (WellBracketed cs) :=
  inferInstanceAs (Decidable (scan {} cs = some {}))

namespace CodeReader

variable {r r' : CodeReader} {c : Char} {cs ds : List Char}

@[simp] theorem scan_nil (r : CodeReader) : r.scan [] = some r := rfl

theorem scan_cons (r : CodeReader) (c : Char) (cs : List Char) :
    r.scan (c :: cs) = (r.step c).bind fun r' => r'.scan cs := List.foldlM_cons

theorem scan_append (r : CodeReader) (cs ds : List Char) :
    r.scan (cs ++ ds) = (r.scan cs).bind fun r' => r'.scan ds := List.foldlM_append

theorem printable_of_not_isControl (h : isControl c = false) : ' ' ≤ c := by
  rw [isControl, Bool.or_eq_false_iff, decide_eq_false_iff_not] at h
  exact Nat.le_of_not_lt h.1

theorem step_printable (h : r.step c = some r') : ' ' ≤ c := by
  unfold step at h
  split at h
  · split at h
    · cases h
    · next hcontrol => exact printable_of_not_isControl (Bool.eq_false_iff.2 hcontrol)
  · split at h
    · next hquote => exact hquote ▸ by decide
    split at h
    · next hbackslash => exact hbackslash ▸ by decide
    split at h
    · next hprintable => exact hprintable
    · cases h
  · split at h
    · next hu => exact hu ▸ by decide
    split at h
    · next hshort =>
      have hall : ∀ p ∈ Json.shortForms, ' ' ≤ p.1 := by decide
      obtain ⟨p, hp, rfl⟩ := List.mem_map.1 hshort
      exact hall p hp
    · cases h
  · split at h
    · next hdigit =>
      obtain ⟨i, hi⟩ := Option.isSome_iff_exists.1 hdigit
      exact Json.hexValue?_printable hi
    · cases h

theorem scan_printable (h : r.scan cs = some r') : ∀ c ∈ cs, ' ' ≤ c := by
  induction cs generalizing r with
  | nil => exact List.forall_mem_nil _
  | cons c cs ih =>
    rw [scan_cons] at h
    obtain ⟨between, hstep, hrest⟩ := Option.bind_eq_some_iff.1 h
    exact List.forall_mem_cons.2 ⟨step_printable hstep, ih hrest⟩

theorem scan_isItem {us : List Nat} (h : Json.IsItem cs us) (due : List Char) :
    scan ⟨.string, due⟩ cs = some ⟨.string, due⟩ := by
  cases h with
  | plain hprintable hquote hbackslash => simp [scan_cons, step, hprintable, hquote, hbackslash]
  | @short letter c hletter =>
    have hmem : letter ∈ Json.shortForms.map Prod.fst := List.mem_map_of_mem hletter
    have hu : letter ≠ 'u' := fun heq => Json.u_not_shortForm (heq ▸ hletter)
    have hbackslash : step ⟨.string, due⟩ '\\' = some ⟨.escape, due⟩ := rfl
    rw [scan_cons, hbackslash, Option.bind_some, scan_cons, step, if_neg hu, if_pos hmem,
      Option.bind_some, scan_nil]
  | unit ha hb hc hd => simp [scan_cons, step, ha, hb, hc, hd]

theorem scan_areItems {us : List Nat} (h : Json.AreItems cs us) (due : List Char) :
    scan ⟨.string, due⟩ cs = some ⟨.string, due⟩ := by
  induction h with
  | nil => rfl
  | cons hitem _ ih => rw [scan_append, scan_isItem hitem, Option.bind_some, ih]

/-- A string is complete at its last quote. -/
theorem scan_isString {us : List Nat} (h : Json.IsString cs us) (due : List Char) :
    scan ⟨.code, due⟩ cs = some ⟨.code, due⟩ := by
  obtain ⟨items, rfl, hitems⟩ := h
  have hopen : step ⟨.code, due⟩ '"' = some ⟨.string, due⟩ := rfl
  have hclose : scan ⟨.string, due⟩ ['"'] = some ⟨.code, due⟩ := rfl
  rw [scan_cons, hopen, Option.bind_some, scan_append, scan_areItems hitems, Option.bind_some,
    hclose]

end CodeReader

/-- Outside of strings the text is read without a trace, whatever has to be closed behind it. -/
def Balanced (cs : List Char) : Prop := ∀ due, scan ⟨.code, due⟩ cs = some ⟨.code, due⟩

/-- No quote, no bracket and no control character. -/
def isInert (c : Char) : Bool :=
  !isControl c && c != '"' && !brackets.any fun p => c == p.1 || c == p.2

theorem step_of_isInert {c : Char} (h : isInert c = true) (due : List Char) :
    CodeReader.step ⟨.code, due⟩ c = some ⟨.code, due⟩ := by
  simp only [isInert, Bool.and_eq_true, Bool.not_eq_true', bne_iff_ne, List.any_eq_false,
    Bool.or_eq_true, beq_iff_eq, not_or] at h
  obtain ⟨⟨hcontrol, hquote⟩, hbrackets⟩ := h
  have hlookup : brackets.lookup c = none := by
    rw [List.lookup_eq_none_iff]
    exact fun p hp => bne_iff_ne.2 (hbrackets p hp).1
  have hclosing : c ∉ brackets.map Prod.snd := by
    intro hmem
    obtain ⟨p, hp, rfl⟩ := List.mem_map.1 hmem
    exact (hbrackets p hp).2 rfl
  rw [CodeReader.step, hcontrol, if_neg Bool.false_ne_true, if_neg hquote, hlookup]
  exact if_neg hclosing

namespace Balanced

variable {cs ds : List Char}

theorem nil : Balanced [] := fun _ => rfl

theorem append (h : Balanced cs) (h' : Balanced ds) : Balanced (cs ++ ds) := fun due => by
  rw [scan_append, h due, Option.bind_some, h' due]

theorem ofInert (h : cs.all isInert = true) : Balanced cs := by
  intro due
  induction cs with
  | nil => rfl
  | cons c cs ih =>
    rw [List.all_cons, Bool.and_eq_true] at h
    rw [scan_cons, step_of_isInert h.1, Option.bind_some, ih h.2]

theorem cons {c : Char} (hc : isInert c = true) (h : Balanced cs) : Balanced (c :: cs) := fun due => by
  rw [scan_cons, step_of_isInert hc, Option.bind_some, h due]

theorem bracketed {opening closing : Char} (hpair : (opening, closing) ∈ brackets)
    (h : Balanced cs) : Balanced (opening :: (cs ++ [closing])) := by
  intro due
  have hopen : ∀ p ∈ brackets, step ⟨.code, due⟩ p.1 = some ⟨.code, p.2 :: due⟩ := by
    simp [brackets, step, isControl, List.lookup]
  have hclose : ∀ p ∈ brackets, step ⟨.code, p.2 :: due⟩ p.2 = some ⟨.code, due⟩ := by
    simp [brackets, step, isControl, List.lookup]
  rw [scan_cons, hopen _ hpair, Option.bind_some, scan_append, h (closing :: due),
    Option.bind_some, scan_cons, hclose _ hpair, Option.bind_some, scan_nil]

theorem wellBracketed (h : Balanced cs) : WellBracketed cs := h []

example : WellBracketed "f(\"(\", [x])".toList ∧ ¬ WellBracketed "f([x)]".toList ∧
    ¬ WellBracketed "f(\"x)".toList := by decide

theorem printable (h : Balanced cs) : ∀ c ∈ cs, ' ' ≤ c := scan_printable (h [])

end Balanced

end Offside.Text
