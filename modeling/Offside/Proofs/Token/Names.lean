import Offside.Proofs.Token.Sequence

namespace Offside

namespace Lexeme

section

variable {α : Type} {p : α → Bool} {as bs rest rest' : List α}

/-- What a run of `p` is followed by does not make it longer. -/
def Ends (p : α → Bool) (rest : List α) : Prop := ∀ a ∈ rest.head?, p a = false

theorem ends_nil (p : α → Bool) : Ends p [] := by
  intro a ha
  cases ha

theorem takeWhile_append (h : ∀ a ∈ as, p a = true) (hrest : Ends p rest) :
    (as ++ rest).takeWhile p = as := by
  rw [List.takeWhile_append_of_pos h]
  cases rest with
  | nil => exact List.append_nil as
  | cons a rest =>
    rw [List.takeWhile_cons_of_neg (by simp [hrest a rfl])]
    exact List.append_nil as

theorem dropWhile_append (h : ∀ a ∈ as, p a = true) (hrest : Ends p rest) :
    (as ++ rest).dropWhile p = rest := by
  rw [List.dropWhile_append_of_pos h]
  cases rest with
  | nil => rfl
  | cons a rest => exact List.dropWhile_cons_of_neg (by simp [hrest a rfl])

theorem append_inj_of_ends (has : ∀ a ∈ as, p a = true) (hbs : ∀ b ∈ bs, p b = true)
    (hrest : Ends p rest) (hrest' : Ends p rest') (h : as ++ rest = bs ++ rest') :
    as = bs ∧ rest = rest' := by
  have htake := congrArg (List.takeWhile p) h
  have hdrop := congrArg (List.dropWhile p) h
  rw [takeWhile_append has hrest, takeWhile_append hbs hrest'] at htake
  rw [dropWhile_append has hrest, dropWhile_append hbs hrest'] at hdrop
  exact ⟨htake, hdrop⟩

end

def isName : List Char → Bool
  | [] => false
  | c :: cs => isLetter c && cs.all isNameChar

theorem isName_iff {cs : List Char} :
    isName cs = true ↔
      ∃ c ds, cs = c :: ds ∧ isLetter c = true ∧ ∀ d ∈ cs, isNameChar d = true := by
  cases cs with
  | nil => simp [isName]
  | cons c cs =>
    have hletter : isLetter c = true → isNameChar c = true := fun h => by simp [isNameChar, h]
    simp only [isName, Bool.and_eq_true, List.all_eq_true, List.cons.injEq, List.forall_mem_cons]
    constructor
    · intro h
      exact ⟨c, cs, ⟨rfl, rfl⟩, h.1, hletter h.1, h.2⟩
    · intro h
      obtain ⟨_, _, ⟨rfl, -⟩, hc, -, hcs⟩ := h
      exact ⟨hc, hcs⟩

theorem readString_kind {cs : List Char} {word : Word} (h : readString cs = .ok word) :
    word.kind = .string := by
  unfold readString at h
  dsimp only at h
  split at h <;> cases h
  rfl

theorem readLongString_kind {cs : List Char} {word : Word} (h : readLongString cs = .ok word) :
    word.kind = .string := by
  unfold readLongString at h
  split at h <;> cases h
  rfl

theorem readNumber_kind (cs : List Char) : (readNumber cs).kind ≠ .name := by
  unfold readNumber
  dsimp only
  split
  · split
    · exact fun h => nomatch h
    · exact fun h => nomatch h
  · exact fun h => nomatch h

theorem read_isName {c : Char} {cs : List Char} {word : Word} (h : read c cs = .ok word)
    (hk : word.kind = .name) : isName word.text = true := by
  unfold read at h
  split at h
  · have hs : word.kind = .string := by
      split at h
      · exact readLongString_kind h
      · exact readString_kind h
    cases hs.symm.trans hk
  split at h
  · next hc =>
    cases h
    rw [isName, hc, Bool.true_and]
    exact List.all_takeWhile
  split at h
  · cases h
    exact absurd hk (readNumber_kind _)
  split at h
  · cases h
    cases hk
  · cases h
    cases hk

end Lexeme

def IsName (x : String) : Prop := Lexeme.isName x.toList = true

instance (x : String) : Decidable (IsName x) :=
  inferInstanceAs (Decidable (Lexeme.isName x.toList = true))

def Token.Named (t : Token) : Prop := t.kind = .name → IsName t.text

namespace TokenStream

open Lexeme

theorem read_named {s t : TokenStream} {text : List Char} {token : Token}
    (h : s.read text = .ok (some token) t) : token.Named := by
  fun_induction read s text with
  | case1 s hs => cases h
  | case2 s width outer hs =>
    cases h
    intro heq
    cases heq
  | case3 s c cs hc hw ih => exact ih h
  | case4 s c cs hc hw =>
    cases h
    intro heq
    cases heq
  | case5 s c cs hc word hr =>
    cases h
    intro hk
    rw [IsName, String.toList_ofList]
    exact read_isName hr hk
  | case6 s c cs hc rest hr => cases h

/-- The names among the tokens that were handed back are names. -/
def Named (s : TokenStream) : Prop := ∀ t ∈ s.pending, t.Named

theorem next_named {s : TokenStream} (hs : s.Named) :
    match s.next with
    | .ok o t => (∀ token ∈ o, token.Named) ∧ t.Named
    | .error _ t => t.Named := by
  unfold next
  cases hp : s.pending with
  | cons token pending =>
    rw [Named, hp, List.forall_mem_cons] at hs
    exact ⟨fun _ h => Option.mem_some.1 h ▸ hs.1, hs.2⟩
  | nil =>
    have hr := read_spec s (Lexeme.skipBlanks false s.rest)
    dsimp only
    cases h : s.read (Lexeme.skipBlanks false s.rest) with
    | ok o t =>
      rw [h] at hr
      cases o with
      | none =>
        refine ⟨fun _ h => (nomatch h), ?_⟩
        rw [Named, hr.2.2, hp]
        exact fun _ h => nomatch h
      | some token =>
        refine ⟨fun _ ht => Option.mem_some.1 ht ▸ read_named h, ?_⟩
        rw [Named, hr.2, hp]
        exact fun _ h => nomatch h
    | error e t =>
      rw [h] at hr
      dsimp only
      rw [Named, hr.2, hp]
      exact fun _ h => nomatch h

theorem named_push {s : TokenStream} {t : Token} (hs : s.Named) (ht : t.Named) :
    (s.push t).Named := by
  rw [Named, push, List.forall_mem_cons]
  exact ⟨ht, hs⟩

theorem named_skipLines {s : TokenStream} (hs : s.Named) : s.skipLines.Named :=
  fun t ht => hs t ((List.dropWhile_sublist _).subset ht)

end TokenStream

end Offside
