import Offside.Proofs.Parse.Statements

namespace Offside

namespace TokenStream

/-- The stream after what came next has been handed back. -/
def putBack (s : TokenStream) (o : Option Token) : TokenStream := o.elim s s.push

/-- What comes next in two streams. Behind words the streams are in `C`, and in `R` anywhere within
a statement. Nothing is asked where the first one fails. -/
inductive Meets (C R : TokenStream → TokenStream → Prop) : Step → Step → Prop
  | word {token : Token} {span : Span} {s t : TokenStream} (hkind : token.kind ≠ .terminator)
      (h : C s t) : Meets C R (.ok (some token) s) (.ok (some { token with span }) t)
  | stop {o o' : Option Token} {s t : TokenStream} (ho : Wordless o) (ho' : Concludes o')
      (h : R (s.putBack o) (t.putBack o')) : Meets C R (.ok o s) (.ok o' t)
  | failure {e : Error} {s : TokenStream} {r : Step} : Meets C R (.error e s) r

/-- The streams give the same words, and a word that is handed back comes again in both. -/
structure Companions (C R : TokenStream → TokenStream → Prop) : Prop where
  behind {s t : TokenStream} : C s t → R s t
  back {s t : TokenStream} {token : Token} (span : Span) : C s t → token.kind ≠ .terminator →
    R (s.push token) (t.push { token with span })
  next {s t : TokenStream} : R s t → Meets C R s.next t.next

end TokenStream

namespace Parse

open TokenStream

variable {α β : Type}

/-- From states with tokens in `P` and the same context, what `p` gives is related to what `q`
gives, and the tokens that are left are in `P` and the contexts the same, or `q` fails with an error
in `E`. -/
def Simulates (P : TokenStream → TokenStream → Prop) (E : Error → Prop) (p q : Parse α)
    (S : α → α → Prop) : Prop :=
  ∀ s t a s', P s.tokens t.tokens → t.context = s.context → p s = .ok a s' →
    match q t with
    | .ok b t' => S a b ∧ P s'.tokens t'.tokens ∧ t'.context = s'.context
    | .error e _ => E e

namespace Simulates

variable {P : TokenStream → TokenStream → Prop} {E : Error → Prop} {p q : Parse α}
  {S : α → α → Prop}

theorem pure {a b : α} (h : S a b) : Simulates P E (Pure.pure a) (Pure.pure b) S := by
  rintro s t _ _ hP hcontext ⟨⟩
  exact ⟨h, hP, hcontext⟩

/-- Nothing is asked where the first parser gives no result. -/
theorem never (h : ∀ s a t, p s ≠ .ok a t) : Simulates P E p q S :=
  fun s _ a s' _ _ hp => absurd hp (h s a s')

theorem fail {cause : ParseError} (h : E (.parse cause)) : Simulates P E p (Parse.fail cause) S :=
  fun _ _ _ _ _ _ _ => h

theorem check (r : Except Error α) (h : ∀ a, r = .ok a → S a a) :
    Simulates P E (Parse.check r) (Parse.check r) S := by
  cases r with
  | ok a => exact pure (h a rfl)
  | error e => exact never fun _ _ _ => nofun

theorem bind {f g : α → Parse β} {T : β → β → Prop} (hp : Simulates P E p q S)
    (hf : ∀ a b, S a b → Simulates P E (f a) (g b) T) : Simulates P E (p >>= f) (q >>= g) T := by
  intro s t b s' hP hcontext hb
  obtain ⟨a, u, ha, hb⟩ := bind_ok hb
  have hq := hp s t a u hP hcontext ha
  cases hqt : q t with
  | error e v =>
    rw [hqt] at hq
    rw [bind_of_error hqt]
    exact hq
  | ok a' v =>
    rw [hqt] at hq
    obtain ⟨hS, hP, hcontext⟩ := hq
    rw [bind_of_ok hqt]
    exact hf a a' hS u v b s' hP hcontext hb

theorem post {T : α → α → Prop} (h : Simulates P E p q S) (hT : ∀ a b, S a b → T a b) :
    Simulates P E p q T := by
  rw [← bind_pure p, ← bind_pure q]
  exact h.bind fun a b hab => pure (hT a b hab)

/-- What neither reads tokens nor depends on them. -/
theorem context {p : Parse α} (h : ∀ s a s', p s = .ok a s' →
    s'.tokens = s.tokens ∧ ∀ tokens, p { s with tokens } = .ok a { s' with tokens }) :
    Simulates P E p p fun a b => b = a := by
  rintro s ⟨tokens, context⟩ a s' hP rfl hp
  obtain ⟨hs', hp⟩ := h s a s' hp
  rw [hp tokens]
  exact ⟨rfl, hs'.symm ▸ hP, rfl⟩

theorem inScope (h : Simulates P E p q S) :
    Simulates P E (Parse.inScope p) (Parse.inScope q) S := by
  intro s t a s' hP hcontext hp
  unfold Parse.inScope at hp ⊢
  cases hs : p { s with context := s.context.enter } with
  | error e u =>
    rw [hs] at hp
    cases hp
  | ok a' u =>
    rw [hs] at hp
    cases hp
    have hq := h { s with context := s.context.enter } { t with context := t.context.enter } a u hP
      (congrArg Context.enter hcontext) hs
    cases hqt : q { t with context := t.context.enter } with
    | error e v =>
      rw [hqt] at hq
      exact hq
    | ok b v =>
      rw [hqt] at hq
      exact ⟨hq.1, hq.2.1, congrArg Context.exit hq.2.2⟩

/-- A bound on the steps of a loop does not show once it is large enough for what is left. -/
theorem steps {f g : Nat → Parse α} (h : ∀ n, Simulates P E (f n) (g n) S) (hf : SelfEnding f)
    (hg : SelfEnding g) : Simulates P E (Parse.steps >>= f) (Parse.steps >>= g) S := by
  intro s t a s' hP hcontext ha
  have hs : f (s.tokens.size + 1) s = .ok a s' := ha
  have hmax := hf (s.tokens.size + 1) (max s.tokens.size t.tokens.size + 1) s (by omega) (by omega)
  have ht := h _ s t a s' hP hcontext (hmax.symm.trans hs)
  rw [hg _ (t.tokens.size + 1) t (by omega) (by omega)] at ht
  exact ht

end Simulates

theorem leave_run (a : α) (o : Option Token) (s : ParseState) :
    leave a o s = .ok a { s with tokens := s.tokens.putBack o } := by
  cases o <;> rfl

theorem next_ok {s u : ParseState} {o : Option Token} (h : next s = .ok o u) :
    ∃ tokens, s.tokens.next = .ok o tokens ∧ u = { s with tokens } := by
  unfold next at h
  cases hs : s.tokens.next with
  | error e v =>
    rw [hs] at h
    cases h
  | ok o' v =>
    rw [hs] at h
    cases h
    exact ⟨v, rfl, rfl⟩

variable {C R : TokenStream → TokenStream → Prop} {E : Error → Prop}

/-- Where a word comes the parsers go on behind it or leave it. Where none comes they leave what
came, or the first parser fails. -/
theorem next_simulates (hM : Companions C R) {f g : Option Token → Parse α} {S : α → α → Prop}
    (hstop : (∃ a b, S a b ∧ ∀ o, Concludes o → f o = leave a o ∧ g o = leave b o) ∨
      ∀ o, Wordless o → ∀ s a t, f o s ≠ .ok a t)
    (hword : ∀ token span, token.kind ≠ .terminator →
      Simulates R E (f (some token)) (g (some { token with span })) S ∨
        ∃ a b, S a b ∧ f (some token) = leave a (some token) ∧
          g (some { token with span }) = leave b (some { token with span })) :
    Simulates R E (next >>= f) (next >>= g) S := by
  intro s t a s' hR hcontext hp
  obtain ⟨o, u, ho, ha⟩ := bind_ok hp
  obtain ⟨v, hv, rfl⟩ := next_ok ho
  have hmeets := hM.next hR
  rw [hv] at hmeets
  generalize ht : t.tokens.next = r at hmeets
  cases hmeets with
  | word hkind h =>
    rw [bind_of_ok (next_of_tokens ht)]
    obtain hsim | ⟨b, c, hS, hf, hg⟩ := hword _ _ hkind
    · exact hsim { s with tokens := v } { t with tokens := _ } a s' (hM.behind h) hcontext ha
    · rw [hf, leave_run] at ha
      cases ha
      rw [hg, leave_run]
      exact ⟨hS, hM.back _ h hkind, hcontext⟩
  | stop ho ho' h =>
    rw [bind_of_ok (next_of_tokens ht)]
    obtain ⟨b, c, hS, hleave⟩ | hfail := hstop
    · rw [(hleave _ ho.concludes).1, leave_run] at ha
      cases ha
      rw [(hleave _ ho').2, leave_run]
      exact ⟨hS, h, hcontext⟩
    · exact absurd ha (hfail _ ho _ a s')

/-- What is asked for has to come, and so it may be what stops all other parsers. -/
theorem expect_simulates (hM : Companions C R) {kind : TokenKind} (hkind : kind ≠ .terminator)
    (text : String) : Simulates R E (expect kind text) (expect kind text) fun _ _ => True := by
  unfold expect accept
  rw [bind_assoc]
  refine next_simulates hM (.inr fun o ho s a t => ?_) fun token span _ => .inl ?_
  · cases o with
    | none => nofun
    | some token =>
      have his : ¬ token.is kind text = true := fun his =>
        hkind ((Prod.mk.inj (Token.is_iff.1 his)).1.symm.trans (ho token rfl))
      dsimp only
      rw [if_neg his]
      nofun
  · dsimp only
    by_cases his : token.is kind text = true
    · rw [if_pos his, if_pos (show Token.is { token with span } kind text = true from his)]
      exact .pure trivial
    · rw [if_neg his]
      exact .never fun _ _ _ => nofun

/-- Two runs over streams that give the same words. Different numbers of tokens may be left. -/
abbrev simulation (hM : Companions C R) (E : Error → Prop) : Judgement where
  World := Unit
  Holds w p q S := Simulates R E p q (S w)
  Inside _ := True
  Took _ token _ := token.kind ≠ .terminator
  Skewed := True
  inside _ := trivial
  pure h := .pure h
  bind h hf := h.bind fun a b hab => hf () a b id hab
  fail _ _ _ := .never fun _ _ _ => nofun
  next {_ _ f g S} hstop hword := by
    refine next_simulates hM ?_ fun token span hkind => ?_
    · cases hstop with
      | leaving a b h hf => exact .inl ⟨a, b, h, hf⟩
      | failing _ hf =>
        refine .inr fun o ho s a t => ?_
        obtain ⟨cause, hf⟩ := hf o ho
        rw [hf]
        nofun
    · have hturn := hword token span hkind
      generalize f (some token) = p at hturn ⊢
      generalize g (some { token with span }) = q at hturn ⊢
      cases hturn with
      | taken h => exact .inl (h () hkind)
      | left h => exact .inr ⟨_, _, h, rfl, rfl⟩
  expect hkind _ text := (expect_simulates hM hkind text).post fun _ _ _ =>
    ⟨⟨_, text, ⟨0, 0⟩⟩, by simp [Token.is], hkind⟩
  steps h hends := .steps h (hends trivial).1 (hends trivial).2

end Parse

namespace Grammar

open Parse TokenStream

variable {α : Type} {C R : TokenStream → TokenStream → Prop} {E : Error → Prop}

theorem resolveTy_simulates (x : String) :
    Simulates R E (resolveTy x) (resolveTy x) fun t t' => t' = t := by
  refine .context fun s t s' hp => ?_
  cases hs : (Ty.ofName? x).or (s.context.alias? x) with
  | none => cases (resolveTy_of_none hs).symm.trans hp
  | some t' =>
    cases (resolveTy_of_some hs).symm.trans hp
    exact ⟨rfl, fun tokens => resolveTy_of_some hs⟩

theorem valueTy?_simulates (x : String) :
    Simulates R E (valueTy? x) (valueTy? x) fun t t' => t' = t := by
  refine .context ?_
  rintro s _ _ ⟨⟩
  exact ⟨rfl, fun _ => rfl⟩

theorem setAlias_simulates (x : String) (t : Ty) :
    Simulates R E (setAlias x t) (setAlias x t) fun u v => v = u := by
  refine .context ?_
  rintro s _ _ ⟨⟩
  exact ⟨rfl, fun _ => rfl⟩

theorem setValue_simulates (x : String) (t : Ty) :
    Simulates R E (setValue x t) (setValue x t) fun u v => v = u := by
  refine .context ?_
  rintro s _ _ ⟨⟩
  exact ⟨rfl, fun _ => rfl⟩

theorem integer_simulates (digits : String) :
    Simulates R E (integer digits) (integer digits) fun e f => f = e := by
  unfold integer
  dsimp only
  split
  · exact .pure rfl
  · exact .never fun _ _ _ => nofun

theorem word_simulates (x : String) : Simulates R E (word x) (word x) fun e f => f = e := by
  unfold word
  split
  · exact .pure rfl
  · split
    · exact .pure rfl
    · refine (valueTy?_simulates x).bind ?_
      rintro t _ rfl
      exact .pure rfl

theorem application_simulates (hM : Companions C R) (terms : List Expr) :
    Simulates R E (application terms) (application terms) fun e f => f = e := by
  have hequals := (simulation hM E).comesNext (.inr rfl) "=" ()
  refine Simulates.bind hequals ?_
  rintro b _ ⟨-, rfl⟩
  split
  · split
    · exact .check _ fun _ _ => rfl
    · exact .check _ fun _ _ => rfl
  · exact .check _ fun _ _ => rfl

theorem bindParams_simulates (name : String) (params : List String) (declared : Option Ty) :
    Simulates R E (bindParams name params declared) (bindParams name params declared)
      fun _ _ => True := by
  cases declared with
  | none => exact .pure trivial
  | some t =>
    unfold bindParams
    dsimp only
    split
    · next typed _ =>
      clear * -
      induction typed with
      | nil => exact .pure trivial
      | cons p typed ih => exact (setValue_simulates p.1 p.2).bind fun _ _ _ => ih
    · exact .never fun _ _ _ => nofun

section

variable {below below' : Option Grammar}

theorem typing_simulates
    (hty : Simulates R E (nested below functionTy) (nested below' functionTy) fun t t' => t' = t)
    (e : Expr) : Simulates R E (typing below e) (typing below' e) fun _ _ => True := by
  cases e with
  | name x t =>
    refine hty.bind ?_
    rintro _ t rfl
    exact (setValue_simulates x t).post fun _ _ _ => trivial
  | _ => exact .never fun _ _ _ => nofun

variable (hinner : Simulates R E (nested below inner) (nested below' inner) fun e f => f = e)
include hinner

theorem functionDefinition_simulates (name : String) (params : List String) :
    Simulates R E (functionDefinition below name params) (functionDefinition below' name params)
      fun e f => f = e := by
  refine (valueTy?_simulates name).bind ?_
  rintro _ declared rfl
  refine ((bindParams_simulates name params declared).bind fun _ _ _ => hinner).inScope.bind ?_
  rintro body _ rfl
  exact .pure rfl

theorem variableDefinition_simulates (name : String) :
    Simulates R E (variableDefinition below name) (variableDefinition below' name)
      fun e f => f = e := by
  refine (valueTy?_simulates name).bind ?_
  rintro declared _ rfl
  refine hinner.bind ?_
  rintro value _ rfl
  refine (Simulates.check (S := fun e f => f = e) _ fun _ _ => rfl).bind ?_
  rintro e _ rfl
  split
  · exact (setValue_simulates name _).bind fun _ _ _ => .pure rfl
  · exact .pure rfl

theorem definition_simulates (target : Expr) :
    Simulates R E (definition below target) (definition below' target) fun e f => f = e := by
  unfold definition
  split
  · exact functionDefinition_simulates hinner _ _
  · exact variableDefinition_simulates hinner _
  · exact .never fun _ _ _ => nofun

end

theorem eq_of_chained {World : Type} {w w' : World} {es fs : List Expr}
    (h : Chained (fun _ _ e f => f = e) w w' es fs) : fs = es := by
  induction h with
  | nil => rfl
  | cons h _ ih => rw [h, ih]

/-- The same is read. If the second run has fewer levels it may fail for that. -/
abbrev same (hM : Companions C R) (E : Error → Prop) : Productions (simulation hM E) where
  Rooms room room' := room' < room → E (.parse .nestedTooDeeply)
  Typed _ _ _ t t' := t' = t
  Tree _ _ _ e f := f = e
  Declared _ _ := True
  rooms h hlt := h (Nat.succ_lt_succ hlt)
  cut {_ _ w S} h _ := Simulates.fail (S := S w) (h (Nat.succ_pos _))
  resolve _ _ _ := resolveTy_simulates _
  deeper h := h
  list _ h := congrArg Ty.list h
  groupTy _ h _ := h
  arrow h _ h' := congrArg₂ Ty.function h h'
  higher _ h := h
  integer _ _ := integer_simulates _
  float _ _ := rfl
  string _ _ := rfl
  word _ _ := word_simulates _
  group _ h _ := h
  member h _ hkey := congrArg₂ Expr.member h hkey
  application _ h _ := by
    cases eq_of_chained h
    exact application_simulates hM _
  operation _ h _ _ h' := by
    cases h
    cases h'
    exact .check _ fun _ _ => rfl
  lambda _ _ _ h := congrArg (Expr.lambda _) h
  aliasing _ _ _ _ _ h := by
    cases h
    exact (setAlias_simulates (R := R) (E := E) _ _).post fun _ _ _ => trivial
  typing _ hty h _ := by
    cases h
    exact typing_simulates (R := R) (E := E) (hty () trivial) _
  definition _ hinner h _ := by
    cases h
    exact definition_simulates (R := R) (E := E)
      (Simulates.post (hinner () trivial) fun _ _ he => he) _

section

variable (hM : Companions C R) {room room' : Nat}
  (hE : room' < room → E (.parse .nestedTooDeeply))
include hM hE

theorem ofRoom_simulates : (same hM E).Level room (ofRoom room) (ofRoom room') := by
  have hrooms : (same hM E).Rooms room room' := hE
  exact ofRoom_level (fun _ => namesWithin_selfEnding) (fun _ => termsAbove_selfEnding) hrooms

theorem statement_simulates : Simulates R E (ofRoom room).statement (ofRoom room').statement
    fun o o' => o' = o := by
  have h := (ofRoom_simulates hM hE).statement ()
  refine Simulates.post h fun o o' ho => ?_
  have hstated := stated_inv ho
  cases o with
  | none => exact hstated.1
  | some found =>
    cases found with
    | declaration => exact hstated.1
    | expression e =>
      obtain ⟨_, rfl, hread⟩ := hstated
      exact congrArg (fun e => some (Statement.expression e)) hread.tree

/-- A run with as many levels simulates the other one, and a run with fewer does but for asking for
more of them. -/
theorem inner_simulates : Simulates R E (ofRoom room).inner (ofRoom room').inner
    fun e f => f = e := by
  have h := (ofRoom_simulates hM hE).inner (w := ()) trivial
  exact Simulates.post h fun _ _ he => he.tree

end

end Grammar

end Offside
