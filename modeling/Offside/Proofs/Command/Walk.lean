import Mathlib
import Offside.Proofs.Command.FileTree

namespace Offside.FileTree

open Offside.Path

/-- What is relied on of a walk through the directory at `path`: it meets the directory and
everything below, and nothing else, a directory right before what lies in it, and the names in a
directory in order. It does not fail. -/
structure IsWalk (t : FileTree) (path : String) (met : List (Except Failure WalkEntry)) : Prop where
  mem_iff (r : Except Failure WalkEntry) : r ∈ met ↔
    ∃ below e, t.entry? (location (names path) ++ below) = some e ∧
      r = .ok ⟨below, !e.isDirectory⟩
  ordered : met.Pairwise fun r r' =>
    ∀ entry entry', r = .ok entry → r' = .ok entry' → entry.names < entry'.names

variable {t : FileTree}

theorem mem_below_iff (ht : t.WellFormed) {place : List String} {entry : WalkEntry} :
    entry ∈ t.below place ↔ ∃ below e, t.entry? (place ++ below) = some e ∧
      entry = ⟨below, !e.isDirectory⟩ := by
  have hentries (p : List String) (e : FileEntry) :
      (p, e) ∈ ([], FileEntry.directory) :: t.entries ↔ t.entry? p = some e := by
    by_cases hp : p = []
    · subst hp
      have hnot : ([], e) ∉ t.entries := fun hmem => (ht.named hmem).1 rfl
      simp [hnot, eq_comm]
    · rw [ht.entry?_eq_some_iff hp, List.mem_cons, Prod.mk.injEq, or_iff_right fun h => hp h.1]
  rw [below, List.mem_filterMap]
  constructor
  · rintro ⟨⟨p, e⟩, hmem, hbelow⟩
    dsimp only at hbelow
    split at hbelow
    · next hprefix =>
      obtain ⟨rest, rfl⟩ := List.isPrefixOf_iff_prefix.1 hprefix
      rw [List.drop_left] at hbelow
      exact ⟨rest, e, (hentries _ _).1 hmem, (Option.some.inj hbelow).symm⟩
    · cases hbelow
  · rintro ⟨rest, e, hentry, rfl⟩
    refine ⟨(place ++ rest, e), (hentries _ _).2 hentry, ?_⟩
    dsimp only
    rw [if_pos (List.isPrefixOf_iff_prefix.2 (List.prefix_append _ _)), List.drop_left]

theorem pairwise_below (ht : t.WellFormed) (place : List String) :
    (t.below place).Pairwise fun entry entry' => entry.names ≠ entry'.names := by
  have hunique : (([], FileEntry.directory) :: t.entries).Pairwise fun a b => a.1 ≠ b.1 := by
    refine List.pairwise_cons.2 ⟨fun entry hmem => ?_, List.pairwise_map.1 ht.unique⟩
    exact fun hnil => (ht.named hmem).1 hnil.symm
  refine List.pairwise_filterMap.2 (hunique.imp fun hne entry hentry entry' hentry' heq => hne ?_)
  split at hentry
  · next hprefix =>
    split at hentry'
    · next hprefix' =>
      obtain ⟨rest, hrest⟩ := List.isPrefixOf_iff_prefix.1 hprefix
      obtain ⟨rest', hrest'⟩ := List.isPrefixOf_iff_prefix.1 hprefix'
      rw [← hrest, List.drop_left] at hentry
      rw [← hrest', List.drop_left] at hentry'
      cases hentry
      cases hentry'
      rw [← hrest, ← hrest']
      exact congrArg (place ++ ·) heq
    · cases hentry'
  · cases hentry

/-- Walks in memory are such walks. -/
theorem isWalk_walk (ht : t.WellFormed) {path : String} (hroot : t.isDirectory path = true) :
    t.IsWalk path (t.walk path) := by
  have hfind : ∃ e, t.find path = .ok e := by
    unfold isDirectory at hroot
    split at hroot
    · next h => exact ⟨_, h⟩
    · cases hroot
  obtain ⟨e, hfind⟩ := hfind
  have hplace : t.place path = .ok (location (names path)) :=
    follow_eq_ok_iff.2 ⟨(open_of_isDirectory hroot).1, rfl⟩
  rw [walk, hfind, hplace]
  dsimp only
  refine ⟨fun r => ?_, ?_⟩
  · simp only [List.mem_map, List.mem_mergeSort, mem_below_iff ht]
    constructor
    · rintro ⟨_, ⟨below, e, hentry, rfl⟩, rfl⟩
      exact ⟨below, e, hentry, rfl⟩
    · rintro ⟨below, e, hentry, rfl⟩
      exact ⟨_, ⟨below, e, hentry, rfl⟩, rfl⟩
  · have hsorted := @List.pairwise_mergeSort WalkEntry
      (fun a b => (List.decidableLE a.names b.names).decide)
      (fun a b c hab hbc =>
        decide_eq_true (List.le_trans (of_decide_eq_true hab) (of_decide_eq_true hbc)))
      (fun a b => by
        rw [Bool.or_eq_true]
        exact (List.le_total a.names b.names).imp decide_eq_true decide_eq_true)
      (t.below (location (names path)))
    have hdifferent := (List.mergeSort_perm (t.below (location (names path)))
      fun a b => (List.decidableLE a.names b.names).decide).pairwise_iff
        (fun {a b} h => h.symm) |>.2 (pairwise_below ht _)
    refine List.pairwise_map.2 ((hsorted.and hdifferent).imp fun ⟨hle, hne⟩ => ?_)
    rintro _ _ ⟨⟩ ⟨⟩
    exact (List.le_iff_lt_or_eq.1 (of_decide_eq_true hle)).resolve_right hne

end Offside.FileTree
