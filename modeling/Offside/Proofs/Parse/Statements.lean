import Offside.Proofs.Parse.Calls
import Offside.Proofs.Parse.Typing
import Offside.Proofs.Token.Ahead
import Offside.Proofs.Token.Words

namespace Offside

namespace TokenStream

/-- What comes next. -/
abbrev Step := EStateM.Result Error TokenStream (Option Token)

/-- Neither a word nor a failure comes next: a terminator, or nothing. -/
def Pause (r : Step) : Prop :=
  match r with
  | .ok none _ => True
  | .ok (some t) _ => t.kind = .terminator
  | .error _ _ => False

/-- No expression begins here: nothing comes but, at most, a delimiter. -/
def Quiet (r : Step) : Prop :=
  match r with
  | .ok none _ => True
  | .ok (some t) s => t.kind = .terminator ∨ t.kind = .delimiter ∧ Pause s.next
  | .error _ _ => False

theorem Pause.quiet {r : Step} (h : Pause r) : Quiet r := by
  match r, h with
  | .ok none _, _ => exact True.intro
  | .ok (some t) _, h => exact .inl h

variable {s t : TokenStream}

/-- Nothing is left but line breaks and comments. -/
def Blank (s : TokenStream) : Prop := s.skipLines.rest = [] ∧ s.skipLines.pending = []

theorem blank_of_nil (hrest : s.rest = []) (hpending : s.pending = []) : s.Blank := by
  unfold Blank skipLines
  rw [hrest, hpending, Lexeme.skipBlanks]
  exact ⟨rfl, rfl⟩

/-- Where the text is used up the open lines are paid back. -/
theorem next_of_nil (hrest : s.rest = []) (hpending : s.pending = []) :
    Pause s.next ∧ ∀ o t, s.next = .ok o t → t.rest = [] ∧ t.pending = [] := by
  obtain ⟨length, rest, indents, pending⟩ := s
  subst hrest hpending
  rw [next, Lexeme.skipBlanks, read]
  cases indents with
  | nil =>
    refine ⟨True.intro, ?_⟩
    rintro o t ⟨⟩
    exact ⟨rfl, rfl⟩
  | cons width outer =>
    refine ⟨rfl, ?_⟩
    rintro o t ⟨⟩
    exact ⟨rfl, rfl⟩

/-- Behind blank lines a word comes next, unless nothing is left. -/
theorem blank_iff_pause : s.Blank ↔ Pause s.skipLines.next := by
  constructor
  · exact fun h => (next_of_nil h.1 h.2).1
  intro h
  cases hp : s.skipLines.pending with
  | cons t pending =>
    have hkind : ¬ t.kind = .terminator := by
      have hhead := List.head?_dropWhile_not (fun t : Token => decide (t.kind = .terminator)) s.pending
      rw [show s.pending.dropWhile _ = t :: pending from hp] at hhead
      simpa using hhead
    rw [next, hp] at h
    exact absurd h hkind
  | nil =>
    refine ⟨?_, hp⟩
    cases hrest : s.skipLines.rest with
    | nil => rfl
    | cons c cs =>
      have hidem := Lexeme.skipBlanks_idem true s.rest
      rw [show Lexeme.skipBlanks true s.rest = c :: cs from hrest] at hidem
      obtain ⟨hblank, hbreak, hcomment⟩ := Lexeme.noComment_of_skipBlanks hidem
      have hskip : Lexeme.skipBlanks false (c :: cs) = c :: cs :=
        Lexeme.skipBlanks_of_noComment hblank (by simp) hcomment
      rw [next, hp] at h
      dsimp only at h
      rw [hrest, hskip, read, if_neg (by simp [hbreak rfl])] at h
      split at h
      · next word hread =>
        obtain ⟨ds, -, hword⟩ := Lexeme.isWord_of_read hread
        exact absurd h hword.kind_ne_terminator
      · exact h.elim

end TokenStream

namespace Parse

open TokenStream

variable {α β : Type} {r : Step}

/-- Every result of the parser is in `P`. -/
def Gives (p : Parse α) (P : α → Prop) : Prop := ∀ s a t, p s = .ok a t → P a

namespace Gives

variable {P : α → Prop} {q : Parse β}

theorem pure {a : α} (h : P a) : Gives (Pure.pure a) P := by
  rintro s a' t ⟨⟩
  exact h

theorem andThen (q : Parse β) {f : β → Parse α} (hf : ∀ b, Gives (f b) P) : Gives (q >>= f) P := by
  intro s a t h
  obtain ⟨b, u, -, ha⟩ := bind_ok h
  exact hf b u a t ha

theorem map {f : β → α} (h : Gives q fun b => P (f b)) : Gives (f <$> q) P := by
  intro s a t ha
  rw [← bind_pure_comp] at ha
  obtain ⟨b, u, hb, ha⟩ := bind_ok ha
  cases ha
  exact h s b t hb

end Gives

/-- The token that comes next is known. -/
def Before (r : Step) : Assertion := fun s => s.tokens.next = r

/-- What has not been found is left where it is, and where no expression begins nothing is found. -/
def Missed (r : Step) (found : α → Bool) (a : α) : Assertion := fun s =>
  (found a = false → Before r s) ∧ (Quiet r → found a = false)

/-- A parser that finds nothing leaves what comes next. It finds nothing where no expression begins,
and does not fail where not even a delimiter comes. -/
def Misses (r : Step) (found : α → Bool) (p : Parse α) : Prop :=
  Triple (Before r) p (Missed r found) fun _ => ¬ Pause r

namespace Misses

variable {found : α → Bool} {found' : β → Bool} {p : Parse α} {f : α → Parse β}

theorem pure {a : α} (h : found a = false) : Misses r found (Pure.pure a) :=
  Triple.pure fun _ hs => ⟨fun _ => hs, fun _ => h⟩

/-- Something is found only where an expression may begin. -/
theorem surely {P : Assertion} (hr : ¬ Quiet r) (h : Gives p fun a => found a = true) :
    Triple P p (Missed r found) fun _ => ¬ Pause r := by
  intro s _
  cases hp : p s with
  | error e t => exact fun hpause => hr hpause.quiet
  | ok a t =>
    have ha := h s a t hp
    exact ⟨fun hno => absurd (ha.symm.trans hno) nofun, fun hquiet => absurd hquiet hr⟩

theorem bind (hp : Misses r found p) (hno : ∀ a, found a = false → Misses r found' (f a))
    (hyes : ∀ a, found a = true → Gives (f a) fun b => found' b = true) :
    Misses r found' (p >>= f) := by
  refine Triple.bind hp fun a => ?_
  cases ha : found a with
  | false => exact (hno a ha).pre fun s hs => hs.1 ha
  | true =>
    intro s hs
    have hquiet : ¬ Quiet r := fun hquiet => absurd (ha.symm.trans (hs.2 hquiet)) nofun
    exact surely (P := fun _ => True) hquiet (hyes a ha) s True.intro

theorem option {p : Parse (Option α)} {f : Option α → Parse β}
    (hp : Misses r Option.isSome p) (hnone : Misses r found' (f none))
    (hsome : ∀ a, Gives (f (some a)) fun b => found' b = true) : Misses r found' (p >>= f) := by
  refine hp.bind (fun o ho => ?_) fun o ho => ?_
  · cases o with
    | none => exact hnone
    | some a => cases ho
  · obtain ⟨a, rfl⟩ := Option.isSome_iff_exists.1 ho
    exact hsome a

/-- The token that is read is known. Where there is none, nothing is found. -/
theorem next {f : Option Token → Parse α} {a : α} (hnone : f none = Pure.pure a)
    (ha : found a = false) (hsome : ∀ t u, r = .ok (some t) u →
      Triple (fun s => s.tokens = u) (f (some t)) (Missed r found) fun _ => ¬ Pause r) :
    Misses r found (Parse.next >>= f) := by
  refine Triple.bind
    (Q := fun o s => r = .ok o s.tokens ∧ (o = none → Before r s)) ?_ fun o => ?_
  · intro s hs
    unfold Before at hs
    unfold Parse.next
    rw [hs]
    cases r with
    | error e u => exact id
    | ok o u =>
      refine ⟨rfl, ?_⟩
      rintro rfl
      exact next_of_none hs
  · cases o with
    | none =>
      rw [hnone]
      exact Triple.pure fun s hs => ⟨fun _ => hs.2 rfl, fun _ => ha⟩
    | some t => exact fun s hs => hsome t s.tokens hs.1 s rfl

/-- The token is handed back. -/
theorem push {u : TokenStream} {t : Token} {a : α} (hr : r = .ok (some t) u)
    (ha : found a = false) :
    Triple (fun s => s.tokens = u) (do Parse.push t; Pure.pure a) (Missed r found)
      fun _ => ¬ Pause r := by
  intro s hs
  subst hs hr
  exact ⟨fun _ => rfl, fun _ => ha⟩

end Misses

theorem acceptWord_misses {kind : TokenKind} {text : String}
    (hkind : kind = .name ∨ kind = .symbol) : Misses r id (accept kind text) := by
  refine Misses.next rfl rfl fun t u hr => ?_
  dsimp only
  split
  · next ht =>
    have hword : ¬ Quiet r := by
      have hsame : t.kind = kind := congrArg Prod.fst (Token.is_iff.1 ht)
      rw [hr]
      rintro (hpause | hdelimiter) <;> rcases hkind with rfl | rfl <;> simp_all
    exact Misses.surely hword (.pure rfl)
  · exact Misses.push hr rfl

end Parse

namespace Grammar

open Parse TokenStream

variable {r : Step} {below : Option Grammar}

/-- Without words there is no expression within a larger one. -/
def Barren (g : Grammar) : Prop :=
  ∀ r, Pause r → Triple (Before r) g.inner (fun _ _ => False) fun _ => True

theorem simpleTermAbove_misses (h : Pause r ∨ ∀ g ∈ below, g.Barren) :
    Misses r Option.isSome (simpleTermAbove below) := by
  refine Misses.next rfl rfl fun t u hr => ?_
  have hword (hkind : t.kind ≠ .terminator) (hkind' : t.kind ≠ .delimiter) : ¬ Quiet r := by
    rw [hr]
    rintro (hpause | hdelimiter)
    · exact hkind hpause
    · exact hkind' hdelimiter.1
  dsimp only
  split
  · next hkind =>
    exact Misses.surely (hword (by simp [hkind]) (by simp [hkind])) (.map fun _ _ _ _ => rfl)
  · next hkind => exact Misses.surely (hword (by simp [hkind]) (by simp [hkind])) (.pure rfl)
  · next hkind => exact Misses.surely (hword (by simp [hkind]) (by simp [hkind])) (.pure rfl)
  · next hkind =>
    exact Misses.surely (hword (by simp [hkind]) (by simp [hkind])) (.map fun _ _ _ _ => rfl)
  split
  · next ht =>
    have hkind : t.kind = .delimiter := congrArg Prod.fst (Token.is_iff.1 ht)
    have hpause : ¬ Pause r := by
      rw [hr]
      exact fun hpause => nomatch hkind.symm.trans hpause
    by_cases hquiet : Quiet r
    · -- Nothing comes behind the parenthesis.
      have hbehind : Pause u.next := by
        rw [hr] at hquiet
        exact (hquiet.resolve_left fun hkind' => nomatch hkind.symm.trans hkind').2
      have hinner : Triple (fun s => s.tokens = u) (nested below inner) (fun _ _ => False)
          fun _ => ¬ Pause r := by
        cases below with
        | none => exact .fail fun _ _ => hpause
        | some g =>
          have hg := h.resolve_left hpause g rfl u.next hbehind
          exact hg.consequence (fun s hs => congrArg TokenStream.next hs) (fun _ _ => id)
            fun _ _ => hpause
      exact hinner.bind fun e s hs => hs.elim
    · exact Misses.surely hquiet (.andThen _ fun e => .andThen _ fun _ => .pure rfl)
  · exact Misses.push hr rfl

section

variable (h : Misses r Option.isSome (simpleTermAbove below))
include h

theorem termAbove_misses : Misses r Option.isSome (termAbove below) :=
  h.option (.pure rfl) fun _ => .map fun _ _ _ _ => rfl

theorem termsAbove_misses (steps : Nat) :
    Misses r (fun es => !es.isEmpty) (termsAbove below steps) := by
  cases steps with
  | zero => exact .pure rfl
  | succ steps =>
    exact (termAbove_misses h).option (.pure rfl) fun _ => .andThen _ fun _ => .pure rfl

theorem sequenceAbove_misses : Misses r Option.isSome (sequenceAbove below) := by
  refine Triple.get fun s hs => ?_
  refine Triple.pre ?_ fun t ht => ht ▸ hs
  refine Misses.bind (termsAbove_misses h _) (fun es hes => ?_) fun es hes => ?_
  · cases es with
    | nil => exact .pure rfl
    | cons e es => cases hes
  · split
    · cases hes
    · exact .pure rfl
    · exact .map fun _ _ _ _ => rfl

theorem productAbove_misses : Misses r Option.isSome (productAbove below) :=
  (sequenceAbove_misses h).option (.pure rfl) fun _ => .map fun _ _ _ _ => rfl

theorem sumAbove_misses : Misses r Option.isSome (sumAbove below) :=
  (productAbove_misses h).option (.pure rfl) fun _ => .map fun _ _ _ _ => rfl

theorem statementAbove_misses : Misses r Option.isSome (statementAbove below) := by
  refine (acceptWord_misses (.inl rfl)).bind (fun b hb => ?_) fun b hb => ?_
  · obtain rfl : b = false := hb
    refine (acceptWord_misses (.inr rfl)).bind (fun b hb => ?_) fun b hb => ?_
    · obtain rfl : b = false := hb
      refine (sumAbove_misses h).option (.pure rfl) fun e => ?_
      refine .andThen _ fun b => ?_
      cases b with
      | true => exact .andThen _ fun _ => .pure rfl
      | false =>
        refine .andThen _ fun b => ?_
        cases b with
        | true => exact .andThen _ fun _ => .pure rfl
        | false => exact .pure rfl
    · obtain rfl : b = true := hb
      exact .andThen _ fun _ => .pure rfl
  · obtain rfl : b = true := hb
    exact .andThen _ fun _ => .pure rfl

end

theorem above_barren (below : Option Grammar) : (above below).Barren := by
  intro r hr
  have hterm : Misses r Option.isSome (simpleTermAbove below) := simpleTermAbove_misses (.inl hr)
  have hstatement := statementAbove_misses hterm
  refine Triple.bind (hstatement.consequence (fun _ => id) (fun _ _ => id) fun _ _ => True.intro)
    fun o => ?_
  cases o with
  | some statement => exact fun s hs => nomatch hs.2 hr.quiet
  | none => exact Triple.trivial.bind fun o => by cases o <;> exact .fail fun _ _ => True.intro

theorem statement_misses (r : Step) (room : Nat) :
    Misses r Option.isSome (ofRoom room).statement := by
  rw [ofRoom_eq_above]
  refine statementAbove_misses (simpleTermAbove_misses (.inr fun g hg => ?_))
  cases room with
  | zero => cases hg
  | succ room =>
    cases hg
    exact ofRoom_eq_above room ▸ above_barren (beneath room)

end Grammar

namespace Parse

open TokenStream

variable {s t : ParseState} {st : Statement}

/-- The statement that begins here, on any line. -/
def lineStatement : Parse (Option Statement) := do
  skipLines
  (Grammar.ofRoom Grammar.maxNesting).statement

theorem lineStatement_eq (s : ParseState) : lineStatement s =
    (Grammar.ofRoom Grammar.maxNesting).statement { s with tokens := s.tokens.skipLines } := rfl

/-- What comes behind blank lines stays there unless a statement is found. -/
theorem lineStatement_spec (s : ParseState) : match lineStatement s with
    | .ok o t => Missed s.tokens.skipLines.next Option.isSome o t
    | .error _ _ => ¬ Pause s.tokens.skipLines.next := by
  have hstatement := Grammar.statement_misses s.tokens.skipLines.next Grammar.maxNesting
    { s with tokens := s.tokens.skipLines } rfl
  rw [lineStatement_eq]
  revert hstatement
  cases (Grammar.ofRoom Grammar.maxNesting).statement { s with tokens := s.tokens.skipLines } with
  | ok o t => exact id
  | error e t => exact id

/-- What a call does where no statement is found. -/
def missed (again : Parse (Option Statement)) : Parse (Option Statement) := do
  match ← next with
  | none => return none
  | some token => if token.kind = .terminator then again else fail (.unexpected token)

theorem statementWithin_succ (steps : Nat) : statementWithin (steps + 1) = (do
    match ← lineStatement with
    | some statement =>
      terminator
      return some statement
    | none => missed (statementWithin steps)) :=
  (bind_assoc skipLines _ _).symm

theorem next_of_tokens {o : Option Token} {u : TokenStream} (h : s.tokens.next = .ok o u) :
    next s = .ok o { s with tokens := u } := by
  rw [next, h]

theorem missed_of_none {again : Parse (Option Statement)} {u : TokenStream}
    (h : s.tokens.next = .ok none u) : missed again s = .ok none { s with tokens := u } := by
  rw [missed, bind_of_ok (next_of_tokens h)]
  rfl

theorem missed_of_some {again : Parse (Option Statement)} {token : Token} {u : TokenStream}
    (h : s.tokens.next = .ok (some token) u) (hkind : token.kind = .terminator) :
    missed again s = again { s with tokens := u } := by
  rw [missed, bind_of_ok (next_of_tokens h)]
  show (if token.kind = .terminator then again else _) _ = _
  rw [if_pos hkind]

/-- Where only blank lines are left no statement is found, however many steps there are. -/
theorem statementWithin_of_blank (h : s.tokens.Blank) (steps : Nat) :
    ∃ t, statementWithin steps s = .ok none t := by
  induction steps generalizing s with
  | zero => exact ⟨s, rfl⟩
  | succ steps ih =>
    have hspec := lineStatement_spec s
    have hpause := blank_iff_pause.1 h
    rw [statementWithin_succ]
    cases hs : lineStatement s with
    | error e u =>
      rw [hs] at hspec
      exact absurd hpause hspec
    | ok o u =>
      rw [hs] at hspec
      rw [bind_of_ok hs]
      cases o with
      | some st => exact nomatch hspec.2 hpause.quiet
      | none =>
        have hnext : u.tokens.next = s.tokens.skipLines.next := hspec.1 rfl
        obtain ⟨-, hrest⟩ := next_of_nil h.1 h.2
        rw [← hnext] at hpause hrest
        cases hn : u.tokens.next with
        | error e v =>
          rw [hn] at hpause
          exact hpause.elim
        | ok o v =>
          rw [hn] at hpause
          cases o with
          | none => exact ⟨_, missed_of_none hn⟩
          | some token =>
            dsimp only
            rw [missed_of_some hn hpause]
            exact ih (blank_of_nil (hrest _ _ hn).1 (hrest _ _ hn).2)

theorem statement_of_blank (h : s.tokens.Blank) : ∃ t, statement s = .ok none t :=
  statementWithin_of_blank h _

/-- A statement is missed only where nothing but blank lines is left. -/
theorem missed_blank {u v : ParseState} {o : Option Statement} {steps : Nat}
    (hs : lineStatement s = .ok none u) (h : missed (statementWithin steps) u = .ok o v) :
    s.tokens.Blank ∧ o = none := by
  have hspec := lineStatement_spec s
  rw [hs] at hspec
  have hnext : u.tokens.next = s.tokens.skipLines.next := hspec.1 rfl
  have hblank : Pause u.tokens.next → s.tokens.Blank := fun hpause =>
    blank_iff_pause.2 (hnext ▸ hpause)
  cases hn : u.tokens.next with
  | error e w =>
    have hread : next u = .error e { u with tokens := w } := by
      rw [next, hn]
    rw [missed, bind_of_error hread] at h
    cases h
  | ok o' w =>
    rw [hn] at hblank
    cases o' with
    | none =>
      rw [missed_of_none hn] at h
      cases h
      exact ⟨hblank True.intro, rfl⟩
    | some token =>
      by_cases hkind : token.kind = .terminator
      · have hs := hblank hkind
        rw [missed_of_some hn hkind] at h
        have hrest := (next_of_nil hs.1 hs.2).2
        rw [← hnext] at hrest
        obtain ⟨hw, hpending⟩ := hrest _ _ hn
        obtain ⟨t, ht⟩ := statementWithin_of_blank (s := { u with tokens := w })
          (blank_of_nil hw hpending) steps
        rw [ht] at h
        cases h
        exact ⟨hs, rfl⟩
      · rw [missed, bind_of_ok (next_of_tokens hn)] at h
        change (if token.kind = .terminator then _ else fail _) _ = _ at h
        rw [if_neg hkind] at h
        cases h

/-- A statement is read where blank lines have been skipped, with what ends it. -/
theorem statement_some : statement s = .ok (some st) t ↔
    ∃ u, lineStatement s = .ok (some st) u ∧ terminator u = .ok () t := by
  have hsteps : statement s = statementWithin (s.tokens.size + 1) s := rfl
  rw [hsteps, statementWithin_succ]
  constructor
  · intro h
    obtain ⟨o, u, hu, h⟩ := bind_ok h
    cases o with
    | none => exact nomatch (missed_blank hu h).2
    | some st' =>
      obtain ⟨⟨⟩, v, hv, h⟩ := bind_ok h
      cases h
      exact ⟨u, hu, hv⟩
  · rintro ⟨u, hu, ht⟩
    rw [bind_of_ok hu]
    exact bind_of_ok ht

theorem statement_none : (∃ t, statement s = .ok none t) ↔ s.tokens.Blank := by
  constructor
  · rintro ⟨t, h⟩
    have hsteps : statement s = statementWithin (s.tokens.size + 1) s := rfl
    rw [hsteps, statementWithin_succ] at h
    obtain ⟨o, u, hu, h⟩ := bind_ok h
    cases o with
    | none => exact (missed_blank hu h).1
    | some st =>
      obtain ⟨⟨⟩, v, hv, h⟩ := bind_ok h
      cases h
  · exact fun h => statementWithin_of_blank h _

/-- No statement begins where at most a delimiter comes. -/
theorem not_quiet_of_lineStatement {u : ParseState} (h : lineStatement s = .ok (some st) u) :
    ¬ Quiet s.tokens.skipLines.next := by
  intro hquiet
  have hspec := lineStatement_spec s
  rw [h] at hspec
  exact nomatch hspec.2 hquiet

/-- Statements one after another, with the expressions among them. -/
inductive Row : ParseState → List Expr → ParseState → Prop
  | nil {s : ParseState} : Row s [] s
  | declaration {s t u : ParseState} {es : List Expr}
      (hs : statement s = .ok (some .declaration) t) (h : Row t es u) : Row s es u
  | expression {s t u : ParseState} {e : Expr} {es : List Expr}
      (hs : statement s = .ok (some (.expression e)) t) (h : Row t es u) : Row s (e :: es) u

theorem row_of_expressionsWithin {steps : Nat} {es : List Expr} (hsteps : s.tokens.size < steps)
    (h : expressionsWithin steps s = .ok es t) : ∃ u, Row s es u ∧ u.tokens.Blank := by
  induction steps generalizing s es with
  | zero => omega
  | succ steps ih =>
    rcases expressionsWithin_cases h with
      ⟨u, hu, rfl⟩ | ⟨u, hu, hrest⟩ | ⟨u, e, rest, hu, hrest, rfl⟩
    · exact ⟨s, .nil, statement_none.1 ⟨u, hu⟩⟩
    · have hlt := size_lt_of_statement hu
      obtain ⟨v, hv, hblank⟩ := ih (by omega) hrest
      exact ⟨v, .declaration hu hv, hblank⟩
    · have hlt := size_lt_of_statement hu
      obtain ⟨v, hv, hblank⟩ := ih (by omega) hrest
      exact ⟨v, .expression hu hv, hblank⟩

theorem expressionsWithin_of_row {steps : Nat} {es : List Expr} {u : ParseState}
    (hsteps : s.tokens.size < steps) (h : Row s es u) (hu : u.tokens.Blank) :
    ∃ t, expressionsWithin steps s = .ok es t := by
  induction h generalizing steps with
  | @nil s =>
    obtain ⟨t, ht⟩ := statement_of_blank hu
    cases steps with
    | zero => exact ⟨s, rfl⟩
    | succ steps => exact ⟨t, bind_of_ok ht⟩
  | declaration hs _ ih =>
    have hlt := size_lt_of_statement hs
    cases steps with
    | zero => omega
    | succ steps =>
      obtain ⟨v, hv⟩ := ih (Nat.lt_of_lt_of_le hlt (Nat.le_of_lt_succ hsteps)) hu
      exact ⟨v, (bind_of_ok hs).trans hv⟩
  | expression hs _ ih =>
    have hlt := size_lt_of_statement hs
    cases steps with
    | zero => omega
    | succ steps =>
      obtain ⟨v, hv⟩ := ih (Nat.lt_of_lt_of_le hlt (Nat.le_of_lt_succ hsteps)) hu
      exact ⟨v, (bind_of_ok hs).trans (bind_of_ok hv)⟩

/-- A program is read statement by statement, until only blank lines are left. -/
theorem parse_iff_row {source : String} {c : Context} {es : List Expr} :
    Program.parse source c = .ok es ↔ ∃ t, Row (.ofSource source c) es t ∧ t.tokens.Blank := by
  constructor
  · intro h
    obtain ⟨t, ht⟩ := run_ok h
    exact row_of_expressionsWithin (Nat.lt_succ_self _) ht
  · rintro ⟨t, ht, hblank⟩
    obtain ⟨u, hu⟩ := expressionsWithin_of_row (Nat.lt_succ_self _) ht hblank
    have hexpressions : expressions (.ofSource source c) = .ok es u := hu
    exact run_of_ok hexpressions

end Parse

end Offside
