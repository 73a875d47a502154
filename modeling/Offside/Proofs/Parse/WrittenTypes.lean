import Mathlib
import Offside.Proofs.Parse.Verdict
import Offside.Proofs.Parse.TypeDepth
import Offside.Proofs.Token.Written

namespace Offside

open Lexeme Parse

theorem Lexeme.readable_arrow : Readable (.symbol, "->") := by
  refine ⟨'-', ['>'], [], rfl, rfl, fun _ => by decide, ?_⟩
  exact .symbol rfl rfl rfl (List.all_eq_true.1 rfl) (ends_nil _)

theorem Lexeme.readable_colon : Readable (.symbol, ":") := by
  refine ⟨':', [], [], rfl, rfl, fun _ => by decide, ?_⟩
  exact .symbol rfl rfl rfl nofun (ends_nil _)

namespace Ty

/-- What stands alone or between two marks. -/
def enclosed {α : Type} (bare : Bool) (before : α) (xs : List α) (behind : α) : List α :=
  if bare then xs else before :: xs ++ [behind]

theorem toList_render_function (input output : Ty) : (function input output).render.toList =
    enclosed (!input.isFunction) '(' input.render.toList ')' ++
      " -> ".toList ++ output.render.toList := by
  simp only [render, String.toList_append]
  cases input.isFunction <;> simp [enclosed]

theorem toList_render_list (element : Ty) : (list element).render.toList =
    "List ".toList ++ enclosed element.isPrimitive '(' element.render.toList ')' := by
  simp only [render, String.toList_append]
  cases element.isPrimitive <;> simp [enclosed]

/-- The pieces of what is put in parentheses unless it is one word. -/
abbrev grouped (bare : Bool) (ws : List Piece) : List Piece :=
  enclosed bare (.delimiter, "(") ws (.delimiter, ")")

/-- The words of the written form. -/
def pieces : Ty → List Piece
  | .string => [(.name, "String")]
  | .bool => [(.name, "Bool")]
  | .int => [(.name, "Int")]
  | .float => [(.name, "Float")]
  | .number => [(.name, "Number")]
  | .function input output => grouped (!input.isFunction) input.pieces ++ (.symbol, "->") ::
      output.pieces
  | .list element => (.name, "List") :: grouped element.isPrimitive element.pieces

/-- The text is read as the pieces before whatever ends a word. -/
def WrittenAs (text : List Char) (ws : List Piece) : Prop :=
  ∀ rest vs, Ends isNameChar rest → Lexes rest vs → Lexes (text ++ rest) (ws ++ vs)

theorem WrittenAs.grouped {text : List Char} {ws : List Piece} (h : WrittenAs text ws)
    (bare : Bool) : WrittenAs (enclosed bare '(' text ')') (grouped bare ws) := by
  intro rest vs hrest hvs
  cases bare with
  | true => exact h rest vs hrest hvs
  | false =>
    have hclose : Lexes (')' :: rest) ((.delimiter, ")") :: vs) := .paren (.inr rfl) hvs
    have hend : Ends isNameChar (')' :: rest) := fun c hc => Option.mem_some.1 hc ▸ rfl
    have hinner := h _ _ hend hclose
    have hopen : Lexes ('(' :: (text ++ ')' :: rest))
        ((.delimiter, "(") :: (ws ++ (.delimiter, ")") :: vs)) := .paren (.inl rfl) hinner
    simpa [enclosed] using hopen

theorem ends_blank (cs : List Char) : Ends isNameChar (' ' :: cs) :=
  fun _ hc => Option.mem_some.1 hc ▸ rfl

theorem writtenAs_render (t : Ty) : WrittenAs t.render.toList t.pieces := by
  induction t with
  | function input output hinput houtput =>
    intro rest vs hrest hvs
    have harrow : Lexes ("->".toList ++ ' ' :: (output.render.toList ++ rest))
        ((.symbol, "->") :: (output.pieces ++ vs)) :=
      readable_arrow.lexes (parted_cons (.inl rfl) _) (houtput _ _ hrest hvs).blank
    have hwhole := hinput.grouped (!input.isFunction) _ _ (ends_blank _) harrow.blank
    rw [toList_render_function, pieces]
    simpa using hwhole
  | list element helement =>
    intro rest vs hrest hvs
    have hwhole := Lexes.name (x := "List") rfl (ends_blank _)
      (helement.grouped element.isPrimitive _ _ hrest hvs).blank
    rw [toList_render_list, pieces]
    simpa using hwhole
  | _ => exact fun rest vs hrest hvs => Lexes.name rfl hrest hvs

end Ty

namespace Grammar

variable {c : Context} {below : Option Grammar} {ws rest : List Piece} {t : Ty} {room : Nat}

theorem resolveTy_readsIn {x : String} (h : Ty.ofName? x = some t) :
    ReadsIn c (resolveTy x) ws t ws := by
  unfold resolveTy
  refine Verdict.bind (Q := fun _ => FacingIn c ws) (fun s hs => hs) fun s => ?_
  simp only [h, Option.some_or]
  exact ReadsIn.pure

theorem tyAtom_nameIn {x : String} (h : Ty.ofName? x = some t) (hlist : x ≠ "List") :
    ReadsIn c (tyAtomAbove below) ((.name, x) :: rest) t rest := by
  refine Verdict.ofNext fun token ht => ?_
  obtain ⟨hkind, htext⟩ := Prod.mk.inj ht
  have hopen : ¬ token.is .delimiter "(" = true := by simp [Token.is, hkind]
  have hname : ¬ token.is .name "List" = true := by simp [Token.is, htext, hlist]
  dsimp only
  rw [if_neg hopen, if_neg hname, if_pos hkind, htext]
  exact resolveTy_readsIn h

theorem tyAtom_listIn (h : ReadsIn c (tyAtomAbove (beneath room)) ws t rest) :
    ReadsIn c (tyAtomAbove (beneath (room + 1))) ((.name, "List") :: ws) (.list t) rest := by
  refine Verdict.ofNext fun token ht => ?_
  have hopen : ¬ token.is .delimiter "(" = true := by simp [Token.is, (Prod.mk.inj ht).1]
  dsimp only
  rw [if_neg hopen, if_pos (Token.is_iff.2 ht)]
  have hnested : ReadsIn c (nested (beneath (room + 1)) tyAtom) ws t rest := by
    show ReadsIn c (ofRoom room).tyAtom ws t rest
    rwa [ofRoom_eq_above]
  exact hnested.bind .pure

theorem nested_functionTyIn (h : ReadsIn c (functionTyAbove (beneath room)) ws t rest) :
    ReadsIn c (nested (beneath (room + 1)) functionTy) ws t rest := by
  show ReadsIn c (ofRoom room).functionTy ws t rest
  rwa [ofRoom_eq_above]

theorem tyAtom_groupIn
    (h : ReadsIn c (functionTyAbove (beneath room)) ws t ((.delimiter, ")") :: rest)) :
    ReadsIn c (tyAtomAbove (beneath (room + 1))) ((.delimiter, "(") :: ws) t rest := by
  refine Verdict.ofNext fun token ht => ?_
  dsimp only
  rw [if_pos (Token.is_iff.2 ht)]
  exact (nested_functionTyIn h).bind ((expect_readsIn _ _).bind .pure)

theorem functionTy_oneIn (h : ReadsIn c (tyAtomAbove below) ws t rest)
    (hrest : rest.head? ≠ some (.symbol, "->")) :
    ReadsIn c (functionTyAbove below) ws t rest :=
  h.bind ((accept_skipsIn hrest).bind .pure)

theorem functionTy_arrowIn {input output : Ty} {mid : List Piece}
    (hinput : ReadsIn c (tyAtomAbove (beneath (room + 1))) ws input ((.symbol, "->") :: mid))
    (houtput : ReadsIn c (functionTyAbove (beneath room)) mid output rest) :
    ReadsIn c (functionTyAbove (beneath (room + 1))) ws (.function input output) rest :=
  hinput.bind ((accept_readsIn _ _).bind ((nested_functionTyIn houtput).bind .pure))

/-- There are levels enough to read the written form wherever it stands. -/
structure ReadsTy (c : Context) (t : Ty) : Prop where
  atom : t.isFunction = false → ∀ room rest, 2 * t.depth ≤ room →
    ReadsIn c (tyAtomAbove (beneath room)) (t.pieces ++ rest) t rest
  function : ∀ room rest, 2 * t.depth ≤ room → rest.head? ≠ some (.symbol, "->") →
    ReadsIn c (functionTyAbove (beneath room)) (t.pieces ++ rest) t rest

theorem ReadsTy.ofAtom
    (h : ∀ room rest, 2 * t.depth ≤ room →
      ReadsIn c (tyAtomAbove (beneath room)) (t.pieces ++ rest) t rest) : ReadsTy c t :=
  ⟨fun _ => h, fun room rest hroom hrest => functionTy_oneIn (h room rest hroom) hrest⟩

theorem ReadsTy.grouped (h : ReadsTy c t) {bare : Bool} (hbare : bare = true → t.isFunction = false)
    (hroom : 2 * t.depth + 1 ≤ room) :
    ReadsIn c (tyAtomAbove (beneath room)) (Ty.grouped bare t.pieces ++ rest) t rest := by
  cases bare with
  | true => exact h.atom (hbare rfl) room rest (by omega)
  | false =>
    obtain ⟨room, rfl⟩ : ∃ n, room = n + 1 := ⟨room - 1, by omega⟩
    have hgroup := tyAtom_groupIn (h.function room ((.delimiter, ")") :: rest) (by omega) nofun)
    simpa [Ty.enclosed] using hgroup

theorem readsTy (c : Context) (t : Ty) : ReadsTy c t := by
  induction t with
  | function input output hinput houtput =>
    refine ⟨nofun, fun room rest hroom hrest => ?_⟩
    rw [Ty.depth] at hroom
    obtain ⟨room, rfl⟩ : ∃ n, room = n + 1 := ⟨room - 1, by omega⟩
    rw [Ty.pieces, List.append_assoc]
    exact functionTy_arrowIn (hinput.grouped (by simp) (by omega))
      (houtput.function room rest (by omega) hrest)
  | list element helement =>
    refine .ofAtom fun room rest hroom => ?_
    rw [Ty.depth] at hroom
    obtain ⟨room, rfl⟩ : ∃ n, room = n + 1 := ⟨room - 1, by omega⟩
    refine tyAtom_listIn (helement.grouped (fun hbare => ?_) (by omega))
    cases element with
    | function input output => cases hbare
    | _ => rfl
  | _ => exact .ofAtom fun room rest _ => tyAtom_nameIn rfl (by decide)

theorem typing_readsIn (h : ReadsIn c (nested below functionTy) ws t rest) (x : String)
    (ty : Option Ty) : Verdict (FacingIn c ws) (typing below (.name x ty))
      (fun _ => FacingIn (c.setValue x t) rest) fun _ => False :=
  Verdict.after h fun _ hs => ⟨congrArg (·.setValue x t) hs.1, hs.2⟩

/-- A name, a colon and a type. -/
theorem statement_typingIn {x : String} (hx : x ≠ "type" ∧ x ≠ "True" ∧ x ≠ "False")
    (ht : 2 * t.depth ≤ room) :
    Verdict (FacingIn c ((.name, x) :: (.symbol, ":") :: t.pieces)) (ofRoom (room + 1)).statement
      (Found (· = .declaration) (FacingIn (c.setValue x t) [])) fun _ => False := by
  obtain ⟨htype, htrue, hfalse⟩ := hx
  have hcolon (op : Operator) : op.symbol ≠ ":" := by
    rcases op with op | op | op <;> cases op <;> decide
  have hdot : ((TokenKind.symbol, ":") :: t.pieces).head? ≠ some (.symbol, ".") := fun heq =>
    absurd (Prod.mk.inj (Option.some.inj heq)).2 (by decide)
  have hbare : Bare ((.symbol, ":") :: t.pieces) := fun w hw => .inr (Option.mem_some.1 hw ▸ rfl)
  have hname : ReadsIn c (simpleTermAbove (beneath (room + 1)))
      ((.name, x) :: (.symbol, ":") :: t.pieces) (some (.name x (c.value? x)))
      ((.symbol, ":") :: t.pieces) := simpleTerm_nameIn htrue hfalse
  have hsum := sum_of_term (E := fun _ => False) (term_of_simple (.found hname) hdot) hbare
    fun op hop => hcolon op (Prod.mk.inj (Option.some.inj hop)).2.symm
  have hread : ReadsIn c (nested (beneath (room + 1)) functionTy) t.pieces t [] := by
    have h := nested_functionTyIn ((readsTy c t).function room [] ht nofun)
    rwa [List.append_nil] at h
  have hword : ((TokenKind.name, x) :: (.symbol, ":") :: t.pieces).head? ≠ some (.name, "type") :=
    fun heq => htype (Prod.mk.inj (Option.some.inj heq)).2
  rw [ofRoom_eq_above]
  refine Verdict.after (accept_skipsIn hword) (Verdict.after (accept_skipsIn nofun)
    (hsum.option fun e he => ?_))
  subst he
  exact Verdict.after (accept_readsIn _ _) ((typing_readsIn hread x _).bind fun _ =>
    Verdict.pure fun s hs => ⟨⟨_, rfl, rfl⟩, hs⟩)

end Grammar

namespace Ty

open Grammar

theorem facing_render (c : Context) (t : Ty) : FacingIn c t.pieces (.ofSource t.render c) := by
  have hlexes := writtenAs_render t [] [] (ends_nil _) .nil
  rw [List.append_nil, List.append_nil] at hlexes
  exact ⟨rfl, hlexes _ _ rfl⟩

/-- Whoever reads the written form with levels enough gets the type back. -/
theorem render_injective : Function.Injective render := by
  intro t u h
  -- Both are read from one text with one number of levels, which serves either.
  have hread (v : Ty) (hv : v = t ∨ v = u) := by
    have hroom : 2 * v.depth ≤ 2 * t.depth + 2 * u.depth := by
      rcases hv with rfl | rfl <;> omega
    exact ((readsTy {} v).function (2 * t.depth + 2 * u.depth) [] hroom nofun).total
      (by rw [List.append_nil]; exact facing_render {} v)
  obtain ⟨t', s, ht, rfl, -⟩ := hread t (.inl rfl)
  obtain ⟨u', s', hu, rfl, -⟩ := hread u (.inr rfl)
  rw [← h, ht] at hu
  cases hu
  rfl

end Ty

namespace Parse

/-- A type is read back from its written form, and no other type is written so. -/
theorem statement_rendered :
    (∀ (x : String) (t : Ty) (c : Context), IsName x ∧ x ∉ ["type", "True", "False"] →
      t.depth ≤ 31 →
      ∃ s, statement (.ofSource (x ++ " : " ++ t.render) c) = .ok (some .declaration) s ∧
        s.context = c.setValue x t ∧ s.context.value? x = some t ∧ s.tokens.Blank) ∧
      Function.Injective Ty.render := by
  refine ⟨fun x t c hx ht => ?_, Ty.render_injective⟩
  obtain ⟨hname, hx⟩ := hx
  have hx : x ≠ "type" ∧ x ≠ "True" ∧ x ≠ "False" := by simpa using hx
  have hsource : (x ++ " : " ++ t.render).toList =
      x.toList ++ ' ' :: (":".toList ++ ' ' :: t.render.toList) := by simp
  have hlexes : Lexes (x ++ " : " ++ t.render).toList
      ((.name, x) :: (.symbol, ":") :: t.pieces) := by
    have hty := Ty.writtenAs_render t [] [] (ends_nil _) .nil
    rw [List.append_nil, List.append_nil] at hty
    rw [hsource]
    exact .name hname (Ty.ends_blank _)
      (readable_colon.lexes (parted_cons (.inl rfl) _) hty.blank).blank
  have hskip : skipBlanks true (x ++ " : " ++ t.render).toList =
      (x ++ " : " ++ t.render).toList := by
    rw [hsource]
    exact skipBlanks_name hname true _
  have hroom : 2 * t.depth ≤ 63 := by omega
  have hstatement := Grammar.statement_typingIn (c := c) hx hroom
  obtain ⟨a, s, rfl, hs, hcontext, hblank⟩ | ⟨e, s, hfalse, -⟩ :=
    statement_of_verdict ⟨rfl, hlexes _ _ rfl⟩ hskip hstatement
  · refine ⟨s, hs, hcontext, ?_, hblank⟩
    rw [hcontext, Context.value?_setValue, if_pos rfl]
  · exact hfalse.elim

theorem statement_rendered_nested :
    let t := Ty.function (.list (.function (.list .int) .bool))
      (.function (.function .string .number) (.list (.list .float)))
    let c := (Context.empty.setAlias "Int" .string).setValue "x" .bool
    (IsName "x" ∧ "x" ∉ ["type", "True", "False"]) ∧ t.depth ≤ 31 ∧
      ∃ s, statement (.ofSource
          "x : List (List Int -> Bool) -> (String -> Number) -> List (List Float)" c) =
          .ok (some .declaration) s ∧
        s.context = c.setValue "x" t ∧ s.context.value? "x" = some t ∧ s.tokens.Blank := by
  intro t c
  have hx : IsName "x" ∧ "x" ∉ ["type", "True", "False"] := by decide
  have ht : t.depth ≤ 31 := by decide
  have hsource : "x" ++ " : " ++ t.render =
      "x : List (List Int -> Bool) -> (String -> Number) -> List (List Float)" := by decide
  obtain ⟨s, hs, hvalue⟩ := statement_rendered.1 "x" t c hx ht
  rw [hsource] at hs
  exact ⟨hx, ht, s, hs, hvalue⟩

end Parse

end Offside
