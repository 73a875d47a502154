import Offside.Proofs.Operator
import Offside.Proofs.Parse.Tracking
import Offside.Proofs.Token.Sequence

namespace Offside

namespace Parse

variable {α β : Type}

/-- At least `k` of the `n` units of size that there were are used up. -/
def Spent (n k : Nat) : Assertion := fun s => s.tokens.size + k ≤ n

theorem Spent.less {n k j : Nat} {s : ParseState} (h : Spent n k s) (hj : j ≤ k) :
    Spent n j s := by
  unfold Spent at h ⊢
  omega

/-- Nothing is handed back that has not been read before, and a failure has been paid for. -/
abbrev progress : Tracking where
  World := Nat
  Index := Nat
  At := Spent
  Fails n k := Spent n (max k 1)
  Later k k' := k ≤ k'
  Inside k := 1 ≤ k
  Took k _ k' := k' = k + 1
  refl := Nat.le_refl
  trans := Nat.le_trans
  later h := h ▸ Nat.le_succ _
  inside h := h ▸ Nat.succ_pos _
  inside_mono h hk := Nat.le_trans hk h
  fails_mono h hs := hs.less (by omega)
  fails hk hs := hs.less (by omega)
  next {n k s} hs := by
    unfold Spent at hs
    cases h : s.tokens.next with
    | error e t =>
      have ht := TokenStream.next_error h
      show t.size + max k 1 ≤ n
      omega
    | ok o t =>
      cases o with
      | none =>
        have ht := TokenStream.next_none h
        show t.size + k ≤ n
        omega
      | some token =>
        have ht := TokenStream.next_some h
        have hpush := TokenStream.size_push t token
        refine ⟨?_, k + 1, rfl, ?_⟩
        · show (t.push token).size + k ≤ n
          omega
        · show t.size + (k + 1) ≤ n
          omega
  skipLines {n k s} hs := by
    have hle := TokenStream.size_skipLines_le s.tokens
    unfold Spent at hs
    show s.tokens.skipLines.size + k ≤ n
    omega

theorem progress_quiet : progress.Quiet :=
  Tracking.quiet_of_tokens (fun _ _ _ _ hs => hs) fun _ _ _ _ hs => hs

/-- What a run has used up. -/
theorem size_of_progress {p : Parse α} {R : Nat → α → Prop} (h : progress.Holds 0 p R)
    {s t : ParseState} {a : α} (hp : p s = .ok a t) :
    ∃ k, R k a ∧ t.tokens.size + k ≤ s.tokens.size := by
  obtain ⟨k, -, ht, ha⟩ := (h s.tokens.size).ok (Nat.le_refl _) hp
  exact ⟨k, ha, ht⟩

theorem next_size_lt {s t : ParseState} {token : Token} (h : next s = .ok (some token) t) :
    t.tokens.size < s.tokens.size := by
  unfold next at h
  cases hn : s.tokens.next with
  | error e u =>
    rw [hn] at h
    cases h
  | ok o u =>
    rw [hn] at h
    cases h
    exact TokenStream.next_some hn

theorem name?_size_lt {s t : ParseState} {x : String} (h : name? s = .ok (some x) t) :
    t.tokens.size < s.tokens.size := by
  obtain ⟨k, ⟨y, hname⟩, hsize⟩ := size_of_progress (progress.judgement.name? (0 : Nat)) h
  obtain ⟨token, -, -, htook⟩ := progress.judgement.named_first hname
  obtain rfl : k = 0 + 1 := htook
  exact hsize

end Parse

namespace Grammar

open Parse

theorem operatorOf?_spec {tier : Tier} {t : Token} {op : Operator}
    (h : operatorOf? tier t = some op) :
    t.kind = .symbol ∧ t.text = op.symbol ∧ op.tier = tier ∧ op ≠ .arithmetic .equal := by
  unfold operatorOf? at h
  split at h
  · next hkind =>
    obtain ⟨hop, htier⟩ := Option.filter_eq_some_iff.1 h
    exact ⟨hkind, (Operator.symbol_ofSymbol? hop).symm, of_decide_eq_true htier,
      Operator.ne_equal_of_ofSymbol? hop⟩
  · cases h

theorem termAbove_size_lt {room : Nat} {s t : ParseState} {e : Expr}
    (h : termAbove (beneath room) s = .ok (some e) t) : t.tokens.size < s.tokens.size := by
  obtain ⟨k, ⟨hk, -⟩, hsize⟩ :=
    size_of_progress ((heights progress progress_quiet).growth.term room (0 : Nat)) h
  have hk : 1 ≤ k := hk
  omega

/-- A statement that is found has been paid for, and so has a failure. -/
theorem statement_spent (n : Nat) :
    Triple (Spent n 0) (ofRoom maxNesting).statement (fun o => Spent n o.isSome.toNat)
      (Spent n 1) := by
  have h := ((heights progress progress_quiet).growth.level maxNesting).statement (0 : Nat)
  refine (h n).post fun o s ⟨k, _, hs, o', ho⟩ => ?_
  have hfirst := stated_inv ho
  cases o with
  | none => exact hs.less (Nat.zero_le k)
  | some found =>
    refine hs.less (j := 1) ?_
    cases found with
    | declaration => exact hfirst.2.1
    | expression e =>
      obtain ⟨e', -, h⟩ := hfirst
      exact h.inside

end Grammar

end Offside
