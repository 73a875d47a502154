import Mathlib
import Offside.Command.FileTree
import Offside.Proofs.Command.Path

namespace Offside.FileTree

open Offside.Path

/-- Where a name leads from a directory. -/
def move (place : List String) (name : String) : List String :=
  if name = "." then place else if name = ".." then place.dropLast else place ++ [name]

/-- Where names lead if there are all the directories on the way. -/
def location (names : List String) : List String := names.foldl move []

theorem location_concat (names : List String) (name : String) :
    location (names ++ [name]) = move (location names) name := by
  rw [location, List.foldl_append]
  rfl

theorem location_append_dots (names : List String) (k : Nat) :
    location (names ++ List.replicate k ".") = location names := by
  induction k with
  | zero => simp
  | succ k ih => rw [List.replicate_succ', ← List.append_assoc, location_concat, ih, move, if_pos rfl]

theorem location_append_names (names : List String) {entries : List String}
    (h : ∀ e ∈ entries, IsEntryName e) : location (names ++ entries) = location names ++ entries := by
  induction entries using List.reverseRecOn with
  | nil => simp
  | append_singleton entries e ih =>
    have he : IsEntryName e := h e (by simp)
    rw [← List.append_assoc, location_concat, ih fun d hd => h d (by simp [hd]), move,
      if_neg he.ne_dot, if_neg he.ne_dots, List.append_assoc]

theorem location_of_endsIn {path : String} {before word : List Char} (h : EndsIn path before word)
    (hdot : word ≠ ['.']) (hdots : word ≠ ['.', '.']) :
    location (names path) = location (namesOf before) ++ [String.ofList word] := by
  have hname : IsEntryName (String.ofList word) :=
    ⟨fun heq => h.ne_nil (String.ofList_inj.1 heq), fun heq => hdot (String.ofList_inj.1 heq),
      fun heq => hdots (String.ofList_inj.1 heq), by simpa using h.no_slash⟩
  have hnames : ∀ e ∈ [String.ofList word], IsEntryName e := by simpa using hname
  rw [h.names_eq, location_append_names _ hnames]

/-- The names lead on from there. -/
def Passes (names place : List String) : Prop :=
  ∃ before name after, names = before ++ name :: after ∧ location before = place

/-- The names lead there, or on from there. -/
def Visits (names place : List String) : Prop :=
  ∃ before, before <+: names ∧ location before = place

theorem visits_iff {names place : List String} :
    Visits names place ↔ Passes names place ∨ location names = place := by
  constructor
  · intro ⟨before, ⟨after, hafter⟩, hplace⟩
    cases after with
    | nil => exact .inr (by rw [← hafter, List.append_nil, hplace])
    | cons name after => exact .inl ⟨before, name, after, hafter.symm, hplace⟩
  · intro h
    rcases h with ⟨before, name, after, hnames, hplace⟩ | hplace
    · exact ⟨before, ⟨name :: after, hnames.symm⟩, hplace⟩
    · exact ⟨names, List.prefix_refl _, hplace⟩

theorem passes_concat {names : List String} {name : String} {place : List String} :
    Passes (names ++ [name]) place ↔ Visits names place := by
  constructor
  · intro ⟨before, n, after, hnames, hplace⟩
    refine ⟨before, ?_, hplace⟩
    rcases List.eq_nil_or_concat after with rfl | ⟨after, last, rfl⟩
    · obtain ⟨rfl, -⟩ := List.append_inj' hnames rfl
      exact List.prefix_refl _
    · rw [List.concat_eq_append, ← List.cons_append, ← List.append_assoc] at hnames
      obtain ⟨rfl, -⟩ := List.append_inj' hnames rfl
      exact List.prefix_append _ _
  · intro ⟨before, ⟨rest, hrest⟩, hplace⟩
    cases rest with
    | nil => exact ⟨before, name, [], by rw [← hrest, List.append_nil], hplace⟩
    | cons n rest => exact ⟨before, n, rest ++ [name], by simp [← hrest], hplace⟩

theorem visits_concat {names : List String} {name : String} {place : List String} :
    Visits (names ++ [name]) place ↔ Visits names place ∨ location (names ++ [name]) = place := by
  rw [visits_iff, passes_concat]

theorem not_passes_nil (place : List String) : ¬ Passes [] place := by
  intro ⟨before, name, after, hnames, _⟩
  cases before <;> cases hnames

theorem visits_self (names : List String) : Visits names (location names) :=
  ⟨names, List.prefix_refl _, rfl⟩

theorem visits_nil {place : List String} : Visits [] place ↔ place = [] := by
  constructor
  · intro ⟨before, hbefore, hplace⟩
    rw [List.prefix_nil.1 hbefore] at hplace
    exact hplace.symm
  · intro h
    exact ⟨[], List.prefix_refl _, h.symm⟩

theorem visits_append_dots {names : List String} {place : List String} (k : Nat) :
    Visits (names ++ List.replicate k ".") place ↔ Visits names place := by
  induction k with
  | zero => simp
  | succ k ih =>
    have hdots : names ++ List.replicate (k + 1) "." = names ++ List.replicate k "." ++ ["."] := by
      rw [List.replicate_succ', List.append_assoc]
    have hlocation := location_append_dots names (k + 1)
    rw [hdots] at hlocation
    rw [hdots, visits_concat, ih, hlocation]
    refine ⟨fun h => ?_, .inl⟩
    rcases h with h | rfl
    · exact h
    · exact visits_self names

/-- There are all the directories on the way. -/
def Open (t : FileTree) (names : List String) : Prop :=
  ∀ place, Passes names place → t.entry? place = some .directory

/-- No file stands in the way. -/
def Clear (t : FileTree) (names : List String) : Prop :=
  ∀ place, Passes names place → ∀ content, t.entry? place ≠ some (.file content)

variable {t : FileTree}

@[simp] theorem entry?_nil (t : FileTree) : t.entry? [] = some .directory := rfl

theorem entry?_insert (t : FileTree) {place : List String} (h : place ≠ []) (e : FileEntry)
    (q : List String) :
    entry? (t.insert place e) q = if q = place then some e else t.entry? q := by
  by_cases hq : q = []
  · subst hq
    rw [entry?_nil, if_neg (Ne.symm h), entry?_nil]
  · have hfilter : (t.entries.filter (·.1 != place)).lookup q =
        if q = place then none else t.entries.lookup q := by
      induction t.entries with
      | nil => simp
      | cons entry entries ih =>
        obtain ⟨p, e⟩ := entry
        by_cases hp : p = place
        · subst hp
          by_cases hqp : q = p
          · simpa [hqp] using ih
          · simpa [hqp, List.lookup_cons, beq_false_of_ne hqp] using ih
        · by_cases hqp : q = p
          · subst hqp
            simp [hp]
          · simpa [hp, List.lookup_cons, beq_false_of_ne hqp] using ih
    unfold entry? insert
    rw [if_neg hq, if_neg hq, List.lookup_cons]
    by_cases hp : q = place
    · simp [hp]
    · rw [hfilter]
      simp [hp, beq_false_of_ne hp]

theorem entry?_insert_self (t : FileTree) {place : List String} (h : place ≠ []) (e : FileEntry) :
    entry? (t.insert place e) place = some e := by
  rw [entry?_insert t h, if_pos rfl]

theorem entry?_insert_of_ne (t : FileTree) {place q : List String} (h : place ≠ []) (e : FileEntry)
    (hne : q ≠ place) : entry? (t.insert place e) q = t.entry? q := by
  rw [entry?_insert t h, if_neg hne]

theorem step_of_directory {place : List String} (h : t.entry? place = some .directory)
    (name : String) : t.step place name = .ok (move place name) := by
  rw [step, h]
  rfl

/-- What the names of a path lead to, one after another. -/
def follow (t : FileTree) (names : List String) : Except FileError (List String) :=
  names.foldlM t.step []

theorem follow_concat (t : FileTree) (names : List String) (name : String) :
    t.follow (names ++ [name]) = (t.follow names).bind fun p => t.step p name := by
  rw [follow, List.foldlM_append]
  have hone (p : List String) : [name].foldlM t.step p = t.step p name := by
    rw [List.foldlM_cons]
    cases t.step p name <;> rfl
  simp only [hone]
  rfl

theorem open_concat {names : List String} {name : String} :
    t.Open (names ++ [name]) ↔ t.Open names ∧ t.entry? (location names) = some .directory := by
  simp only [Open, passes_concat, visits_iff, or_imp, forall_and, forall_eq']

theorem clear_concat {names : List String} {name : String} :
    t.Clear (names ++ [name]) ↔
      t.Clear names ∧ ∀ content, t.entry? (location names) ≠ some (.file content) := by
  simp only [Clear, passes_concat, visits_iff, or_imp, forall_and, forall_eq']

theorem open_nil (t : FileTree) : t.Open [] := fun place h => absurd h (not_passes_nil place)

theorem follow_eq_ok_iff {names place : List String} :
    t.follow names = .ok place ↔ t.Open names ∧ location names = place := by
  induction names using List.reverseRecOn generalizing place with
  | nil =>
    refine ⟨fun h => ⟨open_nil t, Except.ok.inj h⟩, fun h => congrArg Except.ok h.2⟩
  | append_singleton names name ih =>
    rw [follow_concat, open_concat, location_concat]
    constructor
    · intro h
      cases hfollow : t.follow names with
      | error e =>
        rw [hfollow] at h
        cases h
      | ok p =>
        rw [hfollow] at h
        obtain ⟨hopen, rfl⟩ := ih.1 hfollow
        change t.step (location names) name = .ok place at h
        cases hentry : t.entry? (location names) with
        | none => simp [step, hentry] at h
        | some e =>
          cases e with
          | file content => simp [step, hentry] at h
          | directory =>
            rw [step_of_directory hentry] at h
            exact ⟨⟨hopen, rfl⟩, Except.ok.inj h⟩
    · intro ⟨⟨hopen, hentry⟩, hplace⟩
      rw [ih.2 ⟨hopen, rfl⟩]
      change t.step (location names) name = .ok place
      rw [step_of_directory hentry, hplace]

/-- Where no file stands in the way, only something missing can stop them. -/
theorem follow_of_not_open {names : List String} (hclear : t.Clear names) (h : ¬ t.Open names) :
    t.follow names = .error .notFound := by
  induction names using List.reverseRecOn with
  | nil => exact absurd (open_nil t) h
  | append_singleton names name ih =>
    rw [clear_concat] at hclear
    rw [open_concat] at h
    rw [follow_concat]
    by_cases hopen : t.Open names
    · rw [follow_eq_ok_iff.2 ⟨hopen, rfl⟩]
      change t.step (location names) name = .error .notFound
      cases hentry : t.entry? (location names) with
      | none => simp [step, hentry]
      | some e =>
        cases e with
        | file content => exact absurd hentry (hclear.2 content)
        | directory => exact absurd ⟨hopen, hentry⟩ h
    · rw [ih hclear.1 hopen]
      rfl

/-- A path leads to what there is at its location. -/
theorem find_of_open {path : String} (h : t.Open (names path)) {e : FileEntry}
    (he : t.entry? (location (names path)) = some e)
    (hslash : path.endsWith "/" = true → e = .directory) : t.find path = .ok e := by
  have hplace : t.place path = .ok (location (names path)) := follow_eq_ok_iff.2 ⟨h, rfl⟩
  unfold find
  rw [hplace]
  by_cases hend : path.endsWith "/" = true
  · obtain rfl := hslash hend
    simp [bind, Except.bind, hend, step_of_directory he, move, he, pure, Except.pure]
  · simp [bind, Except.bind, hend, he, pure, Except.pure]

theorem isDirectory_of_open {path : String} (h : t.Open (names path))
    (he : t.entry? (location (names path)) = some .directory) : t.isDirectory path = true := by
  rw [isDirectory, find_of_open h he fun _ => rfl]

theorem open_of_find {path : String} {e : FileEntry} (h : t.find path = .ok e) :
    t.Open (names path) ∧ t.entry? (location (names path)) = some e ∧
      (path.endsWith "/" = true → e = .directory) := by
  unfold find at h
  cases hplace : t.place path with
  | error cause =>
    rw [hplace] at h
    cases h
  | ok place =>
    obtain ⟨hopen, rfl⟩ := follow_eq_ok_iff.1 hplace
    rw [hplace] at h
    cases hentry : t.entry? (location (names path)) with
    | none =>
      by_cases hend : path.endsWith "/" = true <;>
        simp [bind, Except.bind, hend, pure, Except.pure, step, hentry] at h
    | some found =>
      cases found with
      | directory =>
        refine ⟨hopen, ?_⟩
        by_cases hend : path.endsWith "/" = true <;>
          simp_all [bind, Except.bind, pure, Except.pure, step_of_directory hentry, move]
      | file content =>
        refine ⟨hopen, ?_⟩
        by_cases hend : path.endsWith "/" = true <;>
          simp_all [bind, Except.bind, pure, Except.pure, step]

theorem open_of_isDirectory {path : String} (h : t.isDirectory path = true) :
    t.Open (names path) ∧ t.entry? (location (names path)) = some .directory := by
  have hfind : t.find path = .ok .directory := by
    unfold isDirectory at h
    split at h
    · next hfind => exact hfind
    · cases h
  obtain ⟨hopen, hentry, -⟩ := open_of_find hfind
  exact ⟨hopen, hentry⟩

theorem open_of_read {path : String} {content : ByteArray} (h : t.read path = .ok content) :
    t.Open (names path) ∧ t.entry? (location (names path)) = some (.file content) ∧
      path.endsWith "/" = false := by
  have hfind : t.find path = .ok (.file content) := by
    unfold read at h
    cases hfind : t.find path with
    | error e =>
      rw [hfind] at h
      cases h
    | ok e =>
      rw [hfind] at h
      cases e with
      | file found =>
        have hcontent : found = content := Except.ok.inj h
        rw [hcontent]
      | directory => cases h
  obtain ⟨hopen, hentry, hslash⟩ := open_of_find hfind
  exact ⟨hopen, hentry, Bool.eq_false_iff.2 fun hend => nomatch hslash hend⟩

theorem read_of_open {path : String} (h : t.Open (names path)) {content : ByteArray}
    (he : t.entry? (location (names path)) = some (.file content))
    (hslash : path.endsWith "/" = false) : t.read path = .ok content := by
  have hfind : t.find path = .ok (.file content) := find_of_open h he (by simp [hslash])
  rw [read, hfind]
  rfl

theorem isDirectory_of_read {path : String} {content : ByteArray} (h : t.read path = .ok content) :
    t.isDirectory path = false := by
  refine Bool.eq_false_iff.2 fun hdirectory => ?_
  have hentry := (open_of_read h).2.1
  rw [(open_of_isDirectory hdirectory).2] at hentry
  cases hentry

theorem write_of_open {path : String} (h : t.Open (names path))
    (he : t.entry? (location (names path)) ≠ some .directory)
    (hslash : path.endsWith "/" = false) (content : ByteArray) :
    t.write path content = .ok (t.insert (location (names path)) (.file content)) := by
  have hplace : t.place path = .ok (location (names path)) := follow_eq_ok_iff.2 ⟨h, rfl⟩
  have hany : Option.any FileEntry.isDirectory (t.entry? (location (names path))) = false := by
    cases hentry : t.entry? (location (names path)) with
    | none => rfl
    | some e =>
      cases e with
      | file content => rfl
      | directory => exact absurd hentry he
  rw [write, hplace]
  simp [bind, Except.bind, hslash, hany, pure, Except.pure]

theorem open_of_write {t' : FileTree} {path : String} {content : ByteArray}
    (h : t.write path content = .ok t') :
    t.Open (names path) ∧ t.entry? (location (names path)) ≠ some .directory ∧
      path.endsWith "/" = false ∧ t' = t.insert (location (names path)) (.file content) := by
  unfold write at h
  cases hplace : t.place path with
  | error e =>
    rw [hplace] at h
    cases h
  | ok place =>
    obtain ⟨hopen, rfl⟩ := follow_eq_ok_iff.1 hplace
    rw [hplace] at h
    change (if _ then _ else _) = Except.ok t' at h
    split at h
    · cases h
    · next hfree =>
      rw [Bool.or_eq_true, not_or, Bool.not_eq_true] at hfree
      refine ⟨hopen, fun hdirectory => hfree.2 ?_, hfree.1, (Except.ok.inj h).symm⟩
      rw [hdirectory]
      rfl

theorem makeDirectory_of_none {path : String} (h : t.Open (names path))
    (he : t.entry? (location (names path)) = none) :
    t.makeDirectory path = .ok (t.insert (location (names path)) .directory) := by
  have hplace : t.place path = .ok (location (names path)) := follow_eq_ok_iff.2 ⟨h, rfl⟩
  rw [makeDirectory, hplace]
  simp [bind, Except.bind, he, pure, Except.pure]

theorem makeDirectory_of_some {path : String} (h : t.Open (names path)) {e : FileEntry}
    (he : t.entry? (location (names path)) = some e) : t.makeDirectory path = .error .exists := by
  have hplace : t.place path = .ok (location (names path)) := follow_eq_ok_iff.2 ⟨h, rfl⟩
  rw [makeDirectory, hplace]
  simp [bind, Except.bind, he, throw, throwThe, MonadExceptOf.throw]

theorem makeDirectory_of_not_open {path : String} (hclear : t.Clear (names path))
    (h : ¬ t.Open (names path)) : t.makeDirectory path = .error .notFound := by
  have hplace : t.place path = .error .notFound := follow_of_not_open hclear h
  rw [makeDirectory, hplace]
  rfl

theorem open_of_makeDirectory {t' : FileTree} {path : String} (h : t.makeDirectory path = .ok t') :
    t.Open (names path) ∧ t.entry? (location (names path)) = none ∧
      t' = t.insert (location (names path)) .directory := by
  unfold makeDirectory at h
  cases hplace : t.place path with
  | error e =>
    rw [hplace] at h
    cases h
  | ok place =>
    obtain ⟨hopen, rfl⟩ := follow_eq_ok_iff.1 hplace
    rw [hplace] at h
    cases hentry : t.entry? (location (names path)) with
    | some e => simp [bind, Except.bind, hentry, throw, throwThe, MonadExceptOf.throw] at h
    | none =>
      simp only [bind, Except.bind, hentry] at h
      exact ⟨hopen, rfl, (Except.ok.inj h).symm⟩

/-- A path to a file that there can be: no file stands in its way, and it leads neither to a directory
nor to a place that it passes. -/
structure Writable (t : FileTree) (path : String) : Prop where
  clear : t.Clear (names path)
  free : t.entry? (location (names path)) ≠ some .directory
  apart : ¬ Passes (names path) (location (names path))
  slash : path.endsWith "/" = false

theorem Writable.ne_empty {path : String} (h : t.Writable path) : path ≠ "" := by
  rintro rfl
  exact h.free rfl

theorem Writable.isTrimmed {path : String} (h : t.Writable path) : IsTrimmed path := by
  refine isTrimmed_of_slash h.slash fun before hnames => h.apart ?_
  rw [hnames, location_concat, move, if_pos rfl]
  exact passes_concat.2 (visits_self before)

/-- A file can be written to where one can be read. -/
theorem writable_of_read {path : String} {content : ByteArray} (h : t.read path = .ok content) :
    t.Writable path := by
  obtain ⟨hopen, hentry, hslash⟩ := open_of_read h
  have hfree : t.entry? (location (names path)) ≠ some .directory := by simp [hentry]
  exact ⟨fun place hpasses => by simp [hopen place hpasses], hfree,
    fun hpasses => hfree (hopen _ hpasses), hslash⟩

/-- Every entry has one place, which lies in a directory and is made of names. -/
structure WellFormed (t : FileTree) : Prop where
  unique : (t.entries.map Prod.fst).Nodup
  named {place : List String} {e : FileEntry} : (place, e) ∈ t.entries →
    place ≠ [] ∧ ∀ name ∈ place, IsEntryName name
  inside {place : List String} {name : String} {e : FileEntry} :
    (place ++ [name], e) ∈ t.entries → t.entry? place = some .directory

namespace WellFormed

variable {place : List String} {e : FileEntry}

theorem entry?_eq_some_iff (ht : t.WellFormed) (hne : place ≠ []) :
    t.entry? place = some e ↔ (place, e) ∈ t.entries := by
  unfold entry?
  rw [if_neg hne]
  have hunique := ht.unique
  generalize t.entries = entries at hunique ⊢
  induction entries with
  | nil => simp
  | cons entry entries ih =>
    obtain ⟨p, e'⟩ := entry
    rw [List.map_cons, List.nodup_cons] at hunique
    by_cases hp : place = p
    · subst hp
      have hnot : (place, e) ∉ entries := fun hmem =>
        hunique.1 (List.mem_map.2 ⟨(place, e), hmem, rfl⟩)
      simp [hnot, eq_comm]
    · simp [List.lookup_cons, beq_false_of_ne hp, ih hunique.2, hp]

theorem directory_of_append (ht : t.WellFormed) {rest : List String} (hne : rest ≠ [])
    (h : t.entry? (place ++ rest) = some e) : t.entry? place = some .directory := by
  induction rest using List.reverseRecOn generalizing e with
  | nil => exact absurd rfl hne
  | append_singleton rest name ih =>
    rw [← List.append_assoc] at h
    have hmem : (place ++ rest ++ [name], e) ∈ t.entries :=
      (ht.entry?_eq_some_iff (by simp)).1 h
    have hdirectory := ht.inside hmem
    rcases List.eq_nil_or_concat rest with rfl | ⟨rs, r, rfl⟩
    · rwa [List.append_nil] at hdirectory
    · exact ih (by simp) hdirectory

theorem isEntryName (ht : t.WellFormed) (h : t.entry? place = some e) :
    ∀ name ∈ place, IsEntryName name := by
  by_cases hne : place = []
  · subst hne
    exact fun _ hmem => nomatch hmem
  · exact (ht.named ((ht.entry?_eq_some_iff hne).1 h)).2

theorem directory_dropLast (ht : t.WellFormed) (h : t.entry? place = some .directory) :
    t.entry? place.dropLast = some .directory := by
  rcases List.eq_nil_or_concat place with rfl | ⟨rest, name, rfl⟩
  · exact h
  · rw [List.concat_eq_append] at h ⊢
    rw [List.dropLast_concat]
    exact ht.directory_of_append (List.cons_ne_nil name []) h

/-- A file is read through its own name. -/
theorem endsIn_of_read (ht : t.WellFormed) {path : String} {content : ByteArray}
    (h : t.read path = .ok content) :
    EndsIn path (split path).1 (split path).2 ∧ (split path).2 ≠ ['.'] ∧
      (split path).2 ≠ ['.', '.'] := by
  obtain ⟨hopen, hentry, hslash⟩ := open_of_read h
  have hlast {before : List String} {name : String} (hnames : names path = before ++ [name]) :
      name ≠ "." ∧ name ≠ ".." := by
    rw [hnames] at hopen hentry
    rw [location_concat] at hentry
    have hbefore := (open_concat.1 hopen).2
    constructor
    · rintro rfl
      rw [move, if_pos rfl, hbefore] at hentry
      cases hentry
    · rintro rfl
      rw [move, if_neg (by decide), if_pos rfl, ht.directory_dropLast hbefore] at hentry
      cases hentry
  have hne : path ≠ "" := by
    rintro rfl
    cases hentry
  have htrimmed : IsTrimmed path := isTrimmed_of_slash hslash fun before hnames =>
    (hlast hnames).1 rfl
  have hend := htrimmed.endsIn hne
  obtain ⟨hdot, hdots⟩ := hlast hend.names_eq
  refine ⟨hend, fun hword => hdot ?_, fun hword => hdots ?_⟩
  · rw [hword]
  · rw [hword]

end WellFormed

theorem wellFormed_of_entries (hunique : (t.entries.map Prod.fst).Nodup)
    (h : ∀ entry ∈ t.entries, entry.1 ≠ [] ∧ (∀ name ∈ entry.1, IsEntryName name) ∧
      (t.entry? entry.1.dropLast).any FileEntry.isDirectory = true) : t.WellFormed where
  unique := hunique
  named hmem := ⟨(h _ hmem).1, (h _ hmem).2.1⟩
  inside {place name e} hmem := by
    obtain ⟨-, -, hdirectory⟩ := h _ hmem
    rw [List.dropLast_concat] at hdirectory
    cases hentry : t.entry? place with
    | none =>
      rw [hentry] at hdirectory
      cases hdirectory
    | some found =>
      rw [hentry] at hdirectory
      cases found with
      | file content => cases hdirectory
      | directory => rfl

end Offside.FileTree
