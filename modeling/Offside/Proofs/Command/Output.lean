import Mathlib
import Offside.Command.Run
import Offside.Proofs.Command.FileTree

namespace Offside

open FileTree Offside.Path

/-- The directories are there, and everything else is as it was. -/
structure FileTree.Made (t t' : FileTree) (dirs : List String → Prop) : Prop where
  made {place : List String} : dirs place → t'.entry? place = some .directory
  kept {place : List String} : ¬ dirs place → t'.entry? place = t.entry? place

theorem FileTree.made_empty (t : FileTree) : t.Made t (Visits (names "")) where
  made hplace := by rw [visits_nil.1 hplace, entry?_nil]
  kept _ := rfl

theorem FileTree.Made.not_file {t t' : FileTree} {dirs : List String → Prop} (h : t.Made t' dirs)
    {place : List String} (hplace : ∀ content, t.entry? place ≠ some (.file content)) :
    ∀ content, t'.entry? place ≠ some (.file content) := by
  intro content hcontent
  by_cases hdirs : dirs place
  · rw [h.made hdirs] at hcontent
    cases hcontent
  · rw [h.kept hdirs] at hcontent
    exact hplace content hcontent

theorem FileTree.Made.trans {t t' t'' : FileTree} {dirs dirs' : List String → Prop}
    (h : t.Made t' dirs) (h' : t'.Made t'' dirs') (hdirs : ∀ place, dirs place → dirs' place) :
    t.Made t'' dirs' where
  made := h'.made
  kept hplace := (h'.kept hplace).trans (h.kept fun hmade => hplace (hdirs _ hmade))

namespace Command

variable {s s' : Machine} {path : String} {above : List String} {t : FileTree}

/-- What works on a file tree in memory. -/
abbrev OnMachine (α : Type) := StateM Machine α

theorem makeDirectory_run_ok (h : s.tree.makeDirectory path = .ok t) :
    (Disk.makeDirectory path : OnMachine _) s = (.ok (), { s with tree := t }) := by
  show s.change (s.tree.makeDirectory path) = _
  rw [h]
  rfl

theorem makeDirectory_run_error {e : FileError} (h : s.tree.makeDirectory path = .error e) :
    (Disk.makeDirectory path : OnMachine _) s = (.error e, s) := by
  show s.change (s.tree.makeDirectory path) = _
  rw [h]
  rfl

theorem settle_run (h : s.tree.isDirectory path = true) (e : FileError) :
    makeDirectories.settle (m := OnMachine) path (.error e) s = (.ok (), s) := by
  show (if s.tree.isDirectory path = true then pure (.ok ()) else pure (.error e) :
    OnMachine (Except FileError Unit)) s = _
  rw [if_pos h]
  rfl

theorem makeDirectories_of_ok (h : s.tree.makeDirectory path = .ok t) :
    makeDirectories (m := OnMachine) (path :: above) s = (.ok (), { s with tree := t }) := by
  rw [makeDirectories]
  show StateT.bind _ _ s = _
  simp only [StateT.bind, makeDirectory_run_ok h]
  rfl

theorem makeDirectories_of_exists (h : s.tree.makeDirectory path = .error .exists)
    (hdirectory : s.tree.isDirectory path = true) :
    makeDirectories (m := OnMachine) (path :: above) s = (.ok (), s) := by
  rw [makeDirectories]
  show StateT.bind _ _ s = _
  simp only [StateT.bind, makeDirectory_run_error h]
  exact settle_run hdirectory .exists

/-- After the directories above it a directory can be made, if it has not come to be with them. -/
theorem makeDirectories_of_notFound (h : s.tree.makeDirectory path = .error .notFound)
    (habove : makeDirectories (m := OnMachine) above s = (.ok (), s')) :
    (s'.tree.makeDirectory path = .ok t →
      makeDirectories (m := OnMachine) (path :: above) s = (.ok (), { s' with tree := t })) ∧
    (s'.tree.makeDirectory path = .error .exists → s'.tree.isDirectory path = true →
      makeDirectories (m := OnMachine) (path :: above) s = (.ok (), s')) := by
  have hrun : makeDirectories (m := OnMachine) (path :: above) s =
      (do makeDirectories.settle path (← Disk.makeDirectory path) : OnMachine _) s' := by
    rw [makeDirectories]
    show StateT.bind _ _ s = _
    simp only [StateT.bind, makeDirectory_run_error h]
    show StateT.bind _ _ s = _
    simp only [StateT.bind, habove]
    rfl
  rw [hrun]
  constructor
  · intro hok
    show StateT.bind _ _ s' = _
    simp only [StateT.bind, makeDirectory_run_ok hok]
    rfl
  · intro hexists hdirectory
    show StateT.bind _ _ s' = _
    simp only [StateT.bind, makeDirectory_run_error hexists]
    exact settle_run hdirectory .exists

/-- Where a path is open, its own directory is all that can be missing. -/
theorem exists_made_of_open (hopen : t.Open (names path))
    (hfile : ∀ content, t.entry? (location (names path)) ≠ some (.file content)) :
    ∃ t', t.Made t' (Visits (names path)) ∧
      (t.makeDirectory path = .ok t' ∨
        t.makeDirectory path = .error .exists ∧ t.isDirectory path = true ∧ t' = t) := by
  cases hentry : t.entry? (location (names path)) with
  | some e =>
    cases e with
    | file content => exact absurd hentry (hfile content)
    | directory =>
      refine ⟨t, ⟨fun hplace => ?_, fun _ => rfl⟩, .inr ⟨makeDirectory_of_some hopen hentry,
        isDirectory_of_open hopen hentry, rfl⟩⟩
      rcases visits_iff.1 hplace with hpasses | rfl
      · exact hopen _ hpasses
      · exact hentry
  | none =>
    have hne : location (names path) ≠ [] := by
      intro hnil
      rw [hnil] at hentry
      cases hentry
    refine ⟨t.insert (location (names path)) .directory, ⟨fun {place} hplace => ?_, fun {place} hplace => ?_⟩,
      .inl (makeDirectory_of_none hopen hentry)⟩
    · rw [entry?_insert t hne]
      split
      · rfl
      · next hplace' => exact hopen _ ((visits_iff.1 hplace).resolve_right (Ne.symm hplace'))
    · exact entry?_insert_of_ne t hne _ fun heq => hplace (visits_iff.2 (.inr heq.symm))

/-- A path passes what its parent visits; steps to the same directory do not count. -/
theorem passes_iff_visits_parent (hpath : IsTrimmed path) (hempty : path ≠ "") {place : List String} :
    Passes (names path) place ↔ Visits (names (parent path)) place := by
  obtain ⟨k, name, hnames⟩ := names_eq_parent hpath hempty
  rw [hnames, passes_concat, visits_append_dots]

/-- A directory that is missing with others above it is made after them. -/
theorem makeDirectories_of_above (hpath : IsTrimmed path) (hempty : path ≠ "")
    (hmissing : s.tree.makeDirectory path = .error .notFound)
    (hfile : ∀ content, s.tree.entry? (location (names path)) ≠ some (.file content))
    (habove : makeDirectories (m := OnMachine) above s = (.ok (), { s with tree := t }))
    (hmade : s.tree.Made t (Visits (names (parent path)))) :
    ∃ t', makeDirectories (m := OnMachine) (path :: above) s = (.ok (), { s with tree := t' }) ∧
      s.tree.Made t' (Visits (names path)) := by
  have hopen : t.Open (names path) := fun place hplace =>
    hmade.made ((passes_iff_visits_parent hpath hempty).1 hplace)
  obtain ⟨t', hmade', hresult⟩ := exists_made_of_open hopen (hmade.not_file hfile)
  have hboth : s.tree.Made t' (Visits (names path)) := hmade.trans hmade' fun place hplace =>
    visits_iff.2 (.inl ((passes_iff_visits_parent hpath hempty).2 hplace))
  obtain ⟨hcaseOk, hcaseExists⟩ := makeDirectories_of_notFound (t := t') hmissing habove
  rcases hresult with hok | ⟨hexists, hdirectory, rfl⟩
  · exact ⟨t', hcaseOk hok, hboth⟩
  · exact ⟨t', hcaseExists hexists hdirectory, hboth⟩

/-- All directories on a path are made, the outer ones first. -/
theorem makeDirectories_run {steps : Nat} (hsteps : path.length ≤ steps)
    (hpath : path = "" ∨ path = "/" ∨ IsTrimmed path)
    (hclear : ∀ place, Visits (names path) place →
      ∀ content, s.tree.entry? place ≠ some (.file content)) :
    ∃ t, makeDirectories (m := OnMachine) (ancestorsWithin steps path) s = (.ok (), { s with tree := t }) ∧
      s.tree.Made t (Visits (names path)) := by
  -- Over the parents outwards, as far as the directories are missing.
  induction steps generalizing path with
  | zero =>
    have hempty : path = "" := by simpa using hsteps
    subst hempty
    exact ⟨s.tree, rfl, made_empty s.tree⟩
  | succ steps ih =>
    by_cases hempty : path = ""
    · subst hempty
      exact ⟨s.tree, rfl, made_empty s.tree⟩
    rw [ancestorsWithin, if_neg hempty]
    by_cases hopen : s.tree.Open (names path)
    · obtain ⟨t, hmade, hok | ⟨hexists, hdirectory, rfl⟩⟩ :=
        exists_made_of_open hopen (hclear _ (visits_self _))
      · exact ⟨t, makeDirectories_of_ok hok, hmade⟩
      · exact ⟨s.tree, makeDirectories_of_exists hexists hdirectory, hmade⟩
    have htrimmed : IsTrimmed path := by
      rcases hpath with h | rfl | h
      · exact absurd h hempty
      · exact absurd (open_nil s.tree) hopen
      · exact h
    have hpasses {place : List String} (h : Visits (names (parent path)) place) :
        Visits (names path) place :=
      visits_iff.2 (.inl ((passes_iff_visits_parent htrimmed hempty).2 h))
    have hshorter : (parent path).length ≤ steps :=
      Nat.le_of_lt_succ (Nat.lt_of_lt_of_le (length_parent_lt hempty) hsteps)
    obtain ⟨t, habove, hmade⟩ := ih hshorter (parent_cases path) fun place h => hclear place (hpasses h)
    have hmissing : s.tree.makeDirectory path = .error .notFound :=
      makeDirectory_of_not_open (fun place h => hclear place (visits_iff.2 (.inl h))) hopen
    exact makeDirectories_of_above htrimmed hempty hmissing (hclear _ (visits_self _)) habove hmade

section

variable {σ α β : Type} {x : Action (StateM σ) α} {f : α → Action (StateM σ) β} {a : α} {e : Failure}
  {c c' : σ}

theorem run_bind_ok (h : x.run c = (.ok a, c')) : (x >>= f).run c = (f a).run c' := by
  rw [ExceptT.run_bind]
  show StateT.bind _ _ c = _
  simp only [StateT.bind, h]
  rfl

theorem run_bind_error (h : x.run c = (.error e, c')) : (x >>= f).run c = (.error e, c') := by
  rw [ExceptT.run_bind]
  show StateT.bind _ _ c = _
  simp only [StateT.bind, h]
  rfl

theorem run_during {r : Except Failure α} (text : String) (h : x.run c = (r, c')) :
    (during text x).run c = (r.mapError (Failure.during text), c') := by
  show StateT.map (Except.mapError (Failure.during text)) x.run c = _
  simp only [StateT.map, h]
  rfl

theorem run_attempt {operation : StateM σ (Except FileError α)} {r : Except FileError α}
    (h : operation c = (r, c')) :
    (attempt operation).run c = (r.mapError fun e => ⟨e.message, []⟩, c') := by
  have hreport : (attempt operation).run = operation >>= fun r =>
      pure (r.mapError fun e => ⟨e.message, []⟩) := rfl
  rw [hreport]
  show StateT.bind _ _ c = _
  simp only [StateT.bind, h]
  rfl

theorem run_bind_eq_ok_iff {b : β} :
    (x >>= f).run c = (.ok b, c') ↔ ∃ a between, x.run c = (.ok a, between) ∧
      (f a).run between = (.ok b, c') := by
  constructor
  · intro h
    cases hfirst : x.run c with
    | mk r between =>
      cases r with
      | ok a => exact ⟨a, between, rfl, (run_bind_ok hfirst).symm.trans h⟩
      | error e =>
        rw [run_bind_error hfirst] at h
        cases h
  · intro ⟨a, between, hfirst, hrest⟩
    exact (run_bind_ok hfirst).trans hrest

theorem run_during_eq_ok_iff {text : String} :
    (during text x).run c = (.ok a, c') ↔ x.run c = (.ok a, c') := by
  cases h : x.run c with
  | mk r after =>
    rw [run_during text h, Prod.mk.injEq, Prod.mk.injEq]
    cases r <;> simp [Except.mapError]

theorem run_attempt_eq_ok_iff {operation : StateM σ (Except FileError α)} :
    (attempt operation).run c = (.ok a, c') ↔ operation c = (.ok a, c') := by
  cases h : operation c with
  | mk r after =>
    rw [run_attempt h, Prod.mk.injEq, Prod.mk.injEq]
    cases r <;> simp [Except.mapError]

variable [Disk (StateM σ)]

/-- An output is written after the directories that it lies in have been made. -/
theorem writeOutput_eq_ok_iff {path text : String} :
    (writeOutput (m := StateM σ) path text).run c = (.ok (), c') ↔
      ∃ between, makeDirectories (m := StateM σ) (ancestors (parent path)) c = (.ok (), between) ∧
        (Disk.write path text.toUTF8 : StateM σ _) between = (.ok (), c') := by
  unfold writeOutput
  by_cases hparent : parent path = ""
  · simp only [hparent, bne_self_eq_false, Bool.false_eq_true, if_false]
    rw [run_during_eq_ok_iff, run_attempt_eq_ok_iff]
    constructor
    · exact fun hwrite => ⟨c, rfl, hwrite⟩
    · intro ⟨between, hmake, hwrite⟩
      obtain rfl : c = between := (Prod.mk.inj hmake).2
      exact hwrite
  · simp only [bne_iff_ne, ne_eq, hparent, not_false_eq_true, if_true]
    rw [run_bind_eq_ok_iff]
    simp only [run_during_eq_ok_iff, run_attempt_eq_ok_iff]
    exact ⟨fun ⟨_, h⟩ => h, fun h => ⟨(), h⟩⟩

end

end Command

/-- A file has been written where the names lead, and everything else is as it was but for the
directories on the way. -/
structure FileTree.Written (t t' : FileTree) (names : List String) (content : ByteArray) : Prop where
  file : t'.entry? (location names) = some (.file content)
  made {place : List String} : Passes names place → t'.entry? place = some .directory
  kept {place : List String} : place ≠ location names → ¬ Passes names place →
    t'.entry? place = t.entry? place

theorem FileTree.Written.read {t t' : FileTree} {path : String} {content : ByteArray}
    (h : t.Written t' (names path) content) (hslash : path.endsWith "/" = false) :
    t'.read path = .ok content :=
  read_of_open (fun _ => h.made) h.file hslash

namespace Command

variable {s : Machine} {path : String}

theorem writeOutput_run (hpath : s.tree.Writable path) (text : String) :
    ∃ t, (writeOutput (m := OnMachine) path text).run s = (.ok (), { s with tree := t }) ∧
      s.tree.Written t (names path) text.toUTF8 := by
  have hpasses {place : List String} :
      Passes (names path) place ↔ Visits (names (parent path)) place :=
    passes_iff_visits_parent hpath.isTrimmed hpath.ne_empty
  obtain ⟨t, hmake, hmade⟩ := makeDirectories_run (s := s) (Nat.le_refl _)
    (parent_cases path) fun place h => hpath.clear place (hpasses.2 h)
  have hopen : t.Open (names path) := fun place h => hmade.made (hpasses.1 h)
  have hentry : t.entry? (location (names path)) ≠ some .directory := by
    rw [hmade.kept fun h => hpath.apart (hpasses.2 h)]
    exact hpath.free
  have hne : location (names path) ≠ [] := by
    intro hnil
    rw [hnil] at hentry
    exact hentry rfl
  have hwrite : (Disk.write path text.toUTF8 : OnMachine _) { s with tree := t } =
      (.ok (), { s with tree := t.insert (location (names path)) (.file text.toUTF8) }) := by
    show Machine.change _ (t.write path text.toUTF8) = _
    rw [write_of_open hopen hentry hpath.slash]
    rfl
  refine ⟨t.insert (location (names path)) (.file text.toUTF8),
    writeOutput_eq_ok_iff.2 ⟨_, hmake, hwrite⟩, ?_, ?_, ?_⟩
  · rw [entry?_insert_self t hne]
  · intro place hplace
    have hplaceNe : place ≠ location (names path) := fun heq => hpath.apart (heq ▸ hplace)
    rw [entry?_insert_of_ne t hne _ hplaceNe]
    exact hopen place hplace
  · intro place hplaceNe hplace
    rw [entry?_insert_of_ne t hne _ hplaceNe]
    exact hmade.kept fun h => hplace (hpasses.2 h)

/-- What a source of the given content compiles to. -/
def Emit.Compiles (emit : Emit) (content out : ByteArray) : Prop :=
  ∃ text es, String.fromUTF8? content = some text ∧ Program.parse text = .ok es ∧
    out = (emit.render es).toUTF8

variable {emit : Emit} {content : ByteArray}

theorem fromUTF8?_toUTF8 (text : String) : String.fromUTF8? text.toUTF8 = some text := by
  have hvalid : text.toUTF8.IsValidUTF8 := text.isValidUTF8
  unfold String.fromUTF8?
  rw [dif_pos hvalid]
  rfl

theorem decode_toUTF8 (text : String) : decode text.toUTF8 = .ok text := by
  rw [decode, fromUTF8?_toUTF8]

theorem readSource_run (hread : s.tree.read path = .ok content) :
    (readSource (m := OnMachine) path).run s =
      (((decode content).mapError fun e => ⟨e.message, []⟩).mapError
        (Failure.during ("failed to read input file " ++ path)), s) := by
  refine run_during _ (run_attempt ?_)
  show (((s.tree.read path).bind decode), s) = _
  rw [hread]
  rfl

/-- Writes an output to its path, or prints it. -/
def deliver {m : Type → Type} [Monad m] [Disk m] (output : Option String) (text : String) :
    Action m Unit :=
  match output with
  | some path => writeOutput path text
  | none => print .out text

section

variable {σ : Type} [Disk (StateM σ)] {c c' : σ} {source : String} {output : Option String}

theorem compile_run {es : List Expr} (hparse : Program.parse source = .ok es)
    (hdeliver : (deliver (m := StateM σ) output (emit.render es)).run c = (.ok (), c')) (run : Bool) :
    (compile (m := StateM σ) source output emit run).run c =
      (if run then evaluate (m := StateM σ) es else pure ()).run c' := by
  unfold compile
  rw [hparse]
  cases output with
  | some path => exact run_bind_ok hdeliver
  | none =>
    show (print (m := StateM σ) .out (emit.render es) >>= fun _ =>
      if run then evaluate es else pure ()).run c = _
    exact run_bind_ok hdeliver

theorem compile_run_error {e : Error} (hparse : Program.parse source = .error e) (run : Bool) :
    (compile (m := StateM σ) source output emit run).run c = (.error ⟨e.message, []⟩, c) := by
  unfold compile
  rw [hparse]
  rfl

end

/-- A file that can be compiled has its output written. -/
theorem compileFile_run {input : String} {out : ByteArray}
    (hread : s.tree.read input = .ok content) (hcompiles : emit.Compiles content out) :
    ∃ text : String, text.toUTF8 = out ∧ ∀ s',
      (writeOutput (m := OnMachine) path text).run s = (.ok (), s') →
        (compileFile (m := OnMachine) input (some path) emit false).run s = (.ok (), s') := by
  obtain ⟨text, es, htext, hparse, hout⟩ := hcompiles
  have hsource : (readSource (m := OnMachine) input).run s = (.ok text, s) := by
    rw [readSource_run hread, decode, htext]
    rfl
  refine ⟨emit.render es, hout.symm, fun s' hwrite => ?_⟩
  have hdeliver : (deliver (m := OnMachine) (some path) (emit.render es)).run s = (.ok (), s') := hwrite
  unfold compileFile
  rw [run_bind_ok hsource]
  exact run_during _ (compile_run hparse hdeliver false)

/-- Nothing comes of a file that cannot be compiled. -/
theorem compileFile_run_error {input : String} (hread : s.tree.read input = .ok content)
    (hfails : ¬ ∃ out, emit.Compiles content out) (output : Option String) (run : Bool) :
    ∃ f, (compileFile (m := OnMachine) input output emit run).run s = (.error f, s) := by
  unfold compileFile
  cases htext : String.fromUTF8? content with
  | none =>
    have hsource := readSource_run hread
    rw [decode, htext] at hsource
    exact ⟨_, run_bind_error hsource⟩
  | some text =>
    have hsource : (readSource (m := OnMachine) input).run s = (.ok text, s) := by
      rw [readSource_run hread, decode, htext]
      rfl
    rw [run_bind_ok hsource]
    cases hparse : Program.parse text with
    | ok es => exact absurd ⟨_, text, es, htext, hparse, rfl⟩ hfails
    | error e => exact ⟨_, run_during _ (compile_run_error hparse run)⟩

end Command

end Offside
