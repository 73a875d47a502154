import Mathlib
import Offside.Proofs.Expr.Nodes
import Offside.Proofs.Parse.Calls

namespace Offside

namespace Expr

mutual

/-- The names that a tree defines outside of the bodies of function definitions. -/
def assigned : Expr → List String
  | .constant _ | .name _ _ | .function _ _ _ _ => []
  | .comparison _ left right => left.assigned ++ right.assigned
  | .connective _ left right => left.assigned ++ right.assigned
  | .arithmetic _ left right => left.assigned ++ right.assigned
  | .define x value _ => value.assigned ++ [x]
  | .apply callee arguments => callee.assigned ++ assignedInAll arguments
  | .member target key => target.assigned ++ key.assigned
  | .lambda _ body => body.assigned

def assignedInAll : List Expr → List String
  | [] => []
  | e :: es => e.assigned ++ assignedInAll es

end

theorem assignedInAll_eq_flatMap (es : List Expr) : assignedInAll es = es.flatMap assigned := by
  induction es with
  | nil => rfl
  | cons e es ih => rw [assignedInAll, ih, List.flatMap_cons]

theorem assigned_apply (callee : Expr) (arguments : List Expr) :
    (Expr.apply callee arguments).assigned = (callee :: arguments).flatMap assigned := by
  rw [assigned, assignedInAll_eq_flatMap, List.flatMap_cons]

theorem assigned_operation (op : Operator) (left right : Expr) :
    (operation op left right).assigned = left.assigned ++ right.assigned := by
  cases op <;> rfl

theorem assigned_erased (e : Expr) : e.erased.assigned = e.assigned := by
  induction e using Expr.induction with
  | constant value => rfl
  | name x t => rfl
  | operation op left right hleft hright =>
    rw [erased_operation, assigned_operation, assigned_operation, hleft, hright]
  | define x value t ih => rw [erased, assigned, assigned, ih]
  | apply callee arguments hcallee harguments =>
    rw [erased, assigned, assigned, hcallee, erasedAll_eq_map, assignedInAll_eq_flatMap,
      assignedInAll_eq_flatMap, List.flatMap_map, List.flatMap_def, List.flatMap_def,
      List.map_congr_left harguments]
  | member target key htarget hkey => rw [erased, assigned, assigned, htarget, hkey]
  | lambda params body ih => rw [erased, assigned, assigned, ih]
  | function f params body t ih => rfl

theorem assigned_of_mapM_asName? {es : List Expr} {names : List String}
    (h : es.mapM asName? = some names) : es.flatMap assigned = [] := by
  refine List.flatMap_eq_nil_iff.2 fun e he => ?_
  obtain ⟨x, t, rfl⟩ := exists_name_of_mapM_asName? h e he
  rfl

theorem assigned_of_headNames? {e : Expr} {names : List String} (h : e.headNames? = some names) :
    e.assigned = [] := by
  cases e with
  | apply callee arguments =>
    rw [assigned_apply]
    exact assigned_of_mapM_asName? h
  | _ => cases h

end Expr

/-- `d` knows what `c` knows, and at most the types of further names. -/
structure Context.Extends (d c : Context) (names : List String) : Prop where
  outer : d.outer = c.outer
  aliases : d.innermost.aliases = c.innermost.aliases
  value? (x : String) : d.value? x = c.value? x ∨ c.value? x = none ∧ x ∈ names
  eq_of_nil : names = [] → d = c

namespace Context

theorem Extends.refl (c : Context) (names : List String) : c.Extends c names :=
  ⟨rfl, rfl, fun _ => .inl rfl, fun _ => rfl⟩

theorem Extends.mono {c d : Context} {names more : List String} (h : d.Extends c names)
    (hmore : names ⊆ more) : d.Extends c more :=
  ⟨h.outer, h.aliases, fun x => (h.value? x).imp_right fun hx => ⟨hx.1, hmore hx.2⟩,
    fun hnil => h.eq_of_nil (List.subset_nil.1 (hnil ▸ hmore))⟩

theorem Extends.eq_of_notMem {c d : Context} {names : List String} (h : d.Extends c names)
    {x : String} (hx : x ∉ names) : d.value? x = c.value? x :=
  (h.value? x).resolve_right fun hmem => hx hmem.2

theorem Extends.eq_of_some {c d : Context} {names : List String} (h : d.Extends c names)
    {x : String} {t : Ty} (hx : c.value? x = some t) : d.value? x = some t := by
  obtain he | ⟨hn, -⟩ := h.value? x
  · rw [he, hx]
  · rw [hx] at hn
    cases hn

theorem Extends.alias? {c d : Context} {names : List String} (h : d.Extends c names) (x : String) :
    d.alias? x = c.alias? x := by
  rw [Context.alias?, Context.alias?, scopes, scopes, List.findSome?_cons, List.findSome?_cons,
    h.outer, h.aliases]

theorem Extends.setValue {c d : Context} {names : List String} (h : d.Extends c names)
    {x : String} (hx : c.value? x = none) (t : Ty) :
    (d.setValue x t).Extends c (names ++ [x]) := by
  refine ⟨h.outer, h.aliases, fun y => ?_, fun hnil => absurd hnil (by simp)⟩
  rw [value?_setValue]
  split
  · next hy => exact .inr ⟨hy ▸ hx, by simp [hy]⟩
  · exact (h.mono (List.subset_append_left _ _)).value? y

end Context

namespace Parse

variable {α β : Type}

/-- The parser neither looks at the context nor changes it. -/
def Blind (p : Parse α) : Prop :=
  ∀ tokens c d, match p ⟨tokens, c⟩ with
    | .ok a s => s.context = c ∧ p ⟨tokens, d⟩ = .ok a ⟨s.tokens, d⟩
    | .error e s => s.context = c ∧ p ⟨tokens, d⟩ = .error e ⟨s.tokens, d⟩

namespace Blind

variable {p : Parse α} {f : α → Parse β}

theorem ok (h : Blind p) {s t : ParseState} {a : α} (hp : p s = .ok a t) (d : Context) :
    t.context = s.context ∧ p ⟨s.tokens, d⟩ = .ok a ⟨t.tokens, d⟩ := by
  have hh := h s.tokens s.context d
  rw [hp] at hh
  exact hh

theorem pure (a : α) : Blind (Pure.pure a) := fun _ _ _ => ⟨rfl, rfl⟩

theorem fail (cause : ParseError) : Blind (Parse.fail cause : Parse α) := fun _ _ _ => ⟨rfl, rfl⟩

theorem bind (hp : Blind p) (hf : ∀ a, Blind (f a)) : Blind (p >>= f) := by
  intro tokens c d
  have hh := hp tokens c d
  show match EStateM.bind p f ⟨tokens, c⟩ with
    | .ok b s => s.context = c ∧ EStateM.bind p f ⟨tokens, d⟩ = .ok b ⟨s.tokens, d⟩
    | .error e s => s.context = c ∧ EStateM.bind p f ⟨tokens, d⟩ = .error e ⟨s.tokens, d⟩
  unfold EStateM.bind
  cases h : p ⟨tokens, c⟩ with
  | ok a s =>
    rw [h] at hh
    obtain ⟨rfl, hd⟩ := hh
    rw [hd]
    exact hf a s.tokens s.context d
  | error e s =>
    rw [h] at hh
    obtain ⟨hc, hd⟩ := hh
    rw [hd]
    exact ⟨hc, rfl⟩

theorem next : Blind Parse.next := by
  intro tokens c d
  unfold Parse.next
  dsimp only
  cases tokens.next with
  | ok o t => exact ⟨rfl, rfl⟩
  | error e t => exact ⟨rfl, rfl⟩

theorem push (t : Token) : Blind (Parse.push t) := fun _ _ _ => ⟨rfl, rfl⟩

theorem skipLines : Blind Parse.skipLines := fun _ _ _ => ⟨rfl, rfl⟩

theorem steps : Blind Parse.steps := fun _ _ _ => ⟨rfl, rfl⟩

end Blind

theorem accept_blind (kind : TokenKind) (text : String) : Blind (accept kind text) := by
  refine Blind.next.bind fun o => ?_
  cases o with
  | none => exact .pure false
  | some t =>
    dsimp only
    split
    · exact .pure true
    · exact (Blind.push t).bind fun _ => .pure false

theorem expect_blind (kind : TokenKind) (text : String) : Blind (expect kind text) := by
  refine (accept_blind kind text).bind fun b => ?_
  cases b with
  | true => exact .pure ()
  | false => exact .fail _

theorem comesNext_blind (kind : TokenKind) (text : String) : Blind (comesNext kind text) := by
  refine Blind.next.bind fun o => ?_
  cases o with
  | none => exact .pure false
  | some t => exact (Blind.push t).bind fun _ => .pure _

theorem terminator_blind : Blind terminator := by
  refine Blind.next.bind fun o => ?_
  cases o with
  | none => exact .pure ()
  | some token =>
    dsimp only
    split
    · exact .pure ()
    · exact .push token
    · exact .fail _

def Extending (c : Context) (names : List String) : Assertion := fun s => s.context.Extends c names

/-- Besides names that have got a type before, the parser gives types to names of its result. -/
def Assigns (p : Parse α) (names : α → List String) : Prop :=
  ∀ c before, Triple (Extending c before) p (fun a => Extending c (before ++ names a))
    (fun _ => True)

/-- The parser does not leave the scope in which it begins. -/
def Stays (p : Parse α) : Prop :=
  ∀ outer, Triple (fun s => s.context.outer = outer) p (fun _ s => s.context.outer = outer)
    (fun _ => True)

theorem Stays.bind {p : Parse α} {f : α → Parse β} (hp : Stays p) (hf : ∀ a, Stays (f a)) :
    Stays (p >>= f) :=
  fun outer => (hp outer).bind fun a => hf a outer

theorem Assigns.stays {p : Parse α} {names : α → List String} (h : Assigns p names) : Stays p := by
  intro outer s hs
  have hp := h s.context [] s (.refl _ _)
  cases hr : p s with
  | ok a t =>
    rw [hr] at hp
    exact hp.outer.trans hs
  | error e t => trivial

/-- What is read in a scope of its own leaves nothing behind. -/
theorem Stays.inScope {p : Parse α} (h : Stays p) : Assigns (Parse.inScope p) fun _ => [] := by
  intro c before s hs
  have hp := h s.context.scopes { s with context := s.context.enter } rfl
  unfold Parse.inScope
  cases hr : p { s with context := s.context.enter } with
  | ok a t =>
    rw [hr] at hp
    have hexit : t.context.exit = s.context := by
      rw [Context.exit, hp]
      rfl
    show t.context.exit.Extends c (before ++ [])
    rw [hexit, List.append_nil]
    exact hs
  | error e t => trivial

/-- The names that have got a type in a context, as long as no declaration is read. -/
abbrev framing : Tracking where
  World := Option (List String)
  Index := Context
  At c known s := ∀ names ∈ known, Extending c names s
  Fails _ _ _ := True
  Later _ _ := True
  Inside _ := True
  Took known _ known' := known' = known
  refl _ := trivial
  trans _ _ := trivial
  later _ := trivial
  inside _ := trivial
  inside_mono _ _ := trivial
  fails_mono _ _ := trivial
  fails _ _ := trivial
  next {_ _ s} hs := by
    cases s.tokens.next with
    | error e t => trivial
    | ok o t =>
      cases o with
      | none => exact hs
      | some token => exact ⟨hs, _, rfl, hs⟩
  skipLines hs := hs

theorem framing_leaf {token : Token} {known known' : Option (List String)} {e : Expr}
    (h : framing.Took known token known') (he : e.assigned = []) :
    known' = known.map (· ++ e.assigned) := by
  rw [he]
  simpa using h

theorem framing_word {kind : TokenKind} {text : String} {known known' : Option (List String)}
    (h : TookWord framing.Took kind text known known') : known' = known := by
  obtain ⟨token, -, h⟩ := h
  exact h

theorem framing_names {names : List String} {known known' : framing.World}
    (h : TookNames framing.Took known known' names) : known' = known := by
  induction h with
  | nil => rfl
  | cons _ htoken _ ih => exact ih.trans htoken

theorem framing_blank {known known' : framing.World} (h : framing.Blank known known') :
    known' = known := by
  induction h with
  | refl => rfl
  | step _ htoken _ ih => exact ih.trans htoken

theorem framing_terms {es es' : List Expr} {known known' : Option (List String)}
    (h : Chained (fun w w' e _ => w' = w.map (· ++ e.assigned)) known known' es es') :
    known' = known.map (· ++ es.flatMap Expr.assigned) := by
  induction h with
  | nil => simp
  | cons h _ ih => simp [ih, h, Function.comp_def]

/-- Behind a declaration nothing is known. -/
theorem framing_forget {known : framing.World} {p : Parse α} {R : framing.World → α → Prop}
    (h : ∀ a, R none a) : framing.Holds known p R :=
  fun _ => (Triple.trivial (P := framing.At _ known)).consequence (fun _ => id)
    (fun a _ _ => ⟨none, trivial, nofun, h a⟩) fun _ => id

theorem Assigns.framing {p : Parse α} {names : α → List String} (h : Assigns p names)
    (known : framing.World) :
    framing.Holds known p fun known' a => known' = known.map (· ++ names a) := by
  cases known with
  | none => exact framing_forget fun _ => rfl
  | some before =>
    refine fun c => (h c before).consequence (fun s hs => hs before rfl) ?_ fun _ => id
    intro a s hs
    refine ⟨some (before ++ names a), trivial, ?_, rfl⟩
    rintro _ ⟨⟩
    exact hs

theorem assigns_of_framing {p : Parse α} {names : α → List String}
    (h : ∀ known, framing.Holds known p fun known' a => known' = known.map (· ++ names a)) :
    Assigns p names := by
  intro c before
  refine (h (some before) c).consequence (fun s hs => ?_) ?_ fun _ => id
  · rintro _ ⟨⟩
    exact hs
  · rintro a s ⟨known, -, hs, heq⟩
    exact hs _ heq

end Parse

namespace Grammar

open Parse Offside.Expr

variable {below : Option Grammar}

theorem bindParams_stays (name : String) (params : List String) (declared : Option Ty) :
    Stays (bindParams name params declared) := by
  cases declared with
  | none => exact fun _ _ hs => hs
  | some t =>
    unfold bindParams
    dsimp only
    split
    · next typed htyped =>
      clear htyped
      induction typed with
      | nil => exact fun _ _ hs => hs
      | cons p ps ih => exact Stays.bind (fun _ _ hs => hs) fun _ => ih
    · exact fun _ _ _ => trivial

theorem functionDefinition_assigns (hinner : Assigns (nested below inner) assigned) (name : String)
    (params : List String) : Assigns (functionDefinition below name params) assigned := by
  intro c before
  have hdeclared : Triple (Extending c before) (valueTy? name) (fun _ => Extending c before)
      (fun _ => True) := fun _ hs => hs
  refine hdeclared.bind fun declared => ?_
  have hscope := (bindParams_stays name params declared).bind fun _ => hinner.stays
  exact (hscope.inScope c before).bind fun body => .pure fun _ => id

/-- The name has got no type before its value is read; its value may define it, though. -/
theorem variableDefinition_assigns (hinner : Assigns (nested below inner) assigned)
    (name : String) : Assigns (variableDefinition below name) assigned := by
  intro c before
  have hknown : Triple (Extending c before) (valueTy? name)
      (fun declared s => Extending c before s ∧ (declared = none → c.value? name = none))
      (fun _ => True) := by
    refine fun s hs => ⟨hs, fun hnone => ?_⟩
    cases ht : c.value? name with
    | none => rfl
    | some t => cases hnone.symm.trans (hs.eq_of_some ht)
  refine hknown.bind fun declared => .assume fun hnone => (hinner c before).bind fun value => ?_
  have hchecked : Triple (Extending c (before ++ value.assigned))
      (check (checkedDefine name value declared))
      (fun e s => Extending c (before ++ value.assigned) s ∧ e.assigned = value.assigned ++ [name])
      (fun _ => True) := by
    refine .check (fun e he s hs => ⟨hs, ?_⟩) fun _ _ => trivial
    rw [eq_define_of_checked he]
    rfl
  refine hchecked.bind fun e => .assume fun he => ?_
  split
  · next t _ =>
    intro s hs
    show (s.context.setValue name t).Extends c (before ++ e.assigned)
    rw [he, ← List.append_assoc]
    exact hs.setValue (hnone rfl) t
  · refine .pure fun s hs => hs.mono ?_
    rw [he, ← List.append_assoc]
    exact List.subset_append_left _ _

theorem definition_assigns (hinner : Assigns (nested below inner) assigned) (target : Expr) :
    Assigns (definition below target) assigned := by
  unfold definition
  split
  · exact functionDefinition_assigns hinner _ _
  · exact variableDefinition_assigns hinner _
  · exact fun _ _ _ _ => trivial

def frames : Growth framing where
  Tree _ known known' e := known' = known.map (· ++ e.assigned)
  higher _ h := h
  integer _ h _ := framing_leaf h rfl
  float _ h := framing_leaf h rfl
  string _ h := framing_leaf h rfl
  bool _ _ _ h := framing_leaf h rfl
  name _ h _ := framing_leaf h rfl
  group hopen h hclose := by rw [framing_word hclose, h, framing_word hopen]
  member h hdot hkey := by simp [hkey, framing_word hdot, h, assigned, Function.comp_def]
  apply h := by rw [framing_terms h, assigned_apply]
  head {_ _ _ _ _ _ _ names} h hnames heq := by
    have hnil : (names.map (Expr.name · none)).flatMap assigned = [] := by simp [assigned]
    rw [framing_terms h, assigned_apply, ← heq, hnil, assigned_of_mapM_asName? hnames]
  operation h _ htoken h' := by
    rw [h', htoken, h, assigned_operation]
    simp [Function.comp_def]
  lambda hslash hparams harrow h := by
    rw [h, framing_word harrow, framing_names hparams, framing_word hslash, assigned]
  aliasing _ _ _ := framing_forget fun _ => trivial
  typing _ _ _ := framing_forget fun _ => trivial
  definition {_ _ below w _ _ e} hinner h hequals := by
    have hassigns := assigns_of_framing fun known => hinner known trivial
    rw [framing_word hequals, h]
    obtain ⟨x, params, hnames, -⟩ | ⟨x, t, rfl, -⟩ | hfails := definition_cases below e
    · simpa [assigned_of_headNames? hnames] using (definition_assigns hassigns e).framing w
    · simpa [assigned] using (definition_assigns hassigns (.name x t)).framing w
    · rw [hfails]
      exact .throw trivial _

theorem nested_inner_assigns (room : Nat) : Assigns (nested (beneath room) inner) assigned :=
  assigns_of_framing fun _ => frames.nested_inner room trivial

end Grammar

namespace Parse

/-- An expression that is read leaves aliases and known types alone. The names that get a type are
names that it defines, and not in the body of a function definition. The definition of a function
changes nothing at all. -/
theorem expression_only_extends {s t : ParseState} {e : Expr}
    (h : statement s = .ok (some (.expression e)) t) :
    (∀ x, t.context.alias? x = s.context.alias? x) ∧
    (∀ x ty, s.context.value? x = some ty → t.context.value? x = some ty) ∧
    (∀ x, s.context.value? x = none → t.context.value? x ≠ none → x ∈ e.assigned) ∧
    (∀ f params body ty, e = .function f params body ty → t.context = s.context) := by
  have hext : t.context.Extends s.context e.assigned := by
    have hwithin := Grammar.frames.statementWithin (s.tokens.size + 1) (some [])
    have hstart : framing.At s.context (some []) s := fun _ _ => .refl _ _
    obtain ⟨known, -, ht, v, v', hbefore, ⟨-, htree⟩, hafter⟩ :=
      (hwithin s.context).ok hstart h
    refine ht e.assigned ?_
    rw [framing_blank hafter, htree, framing_blank hbefore]
    rfl
  refine ⟨hext.alias?, fun x ty => hext.eq_of_some, fun x hx ht => ?_, ?_⟩
  · obtain he | ⟨-, hmem⟩ := hext.value? x
    · exact absurd (he.trans hx) ht
    · exact hmem
  · rintro f params body ty rfl
    exact hext.eq_of_nil rfl

theorem expression_only_extends_two_lines :
    let source := "x = (y = 2) * 3\nf a = (z = 4)"
    let e := Expr.define "x" (.arithmetic .multiply
      (.define "y" (.constant (.int 2)) (some .int)) (.constant (.int 3))) (some .number)
    let f := Expr.function "f" ["a"] (.define "z" (.constant (.int 4)) (some .int)) none
    let s : ParseState := ⟨⟨29, "f a = (z = 4)".toList, [], []⟩,
      (Context.empty.setValue "y" .int).setValue "x" .number⟩
    statement (.ofSource source) = .ok (some (.expression e)) s ∧
      (∀ x, s.context.value? x ≠ none → x ∈ ["y", "x"]) ∧
      ∃ t, statement s = .ok (some (.expression f)) t ∧ t.context = s.context := by
  intro source e f s
  have hfirst : statement (.ofSource source) = .ok (some (.expression e)) s := by cbv
  have hsecond : statement s = .ok (some (.expression f)) ⟨⟨29, [], [], []⟩, s.context⟩ := by
    subst s
    cbv
  obtain ⟨-, -, hgain, -⟩ := expression_only_extends hfirst
  obtain ⟨-, -, -, hfunction⟩ := expression_only_extends hsecond
  exact ⟨hfirst, fun x => hgain x rfl, _, hsecond, hfunction _ _ _ _ rfl⟩

end Parse

end Offside
