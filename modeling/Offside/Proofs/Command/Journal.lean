import Mathlib
import Offside.Proofs.Command.Directory

namespace Offside

/-- What is done to a machine. -/
inductive Deed where
  | makeDirectory (path : String)
  | write (path : String) (content : ByteArray)
  | print (channel : Channel) (text : String)

namespace Deed

def on : Deed → Machine → Machine
  | .makeDirectory path, s => ((Disk.makeDirectory path : StateM Machine _) s).2
  | .write path content, s => ((Disk.write path content : StateM Machine _) s).2
  | .print channel text, s => s.print channel text

/-- An operation that fails does nothing. -/
def ifDone (d : Deed) : Except FileError Unit → List Deed
  | .ok () => [d]
  | .error _ => []

def IsMaking (d : Deed) : Prop := ∃ path, d = .makeDirectory path

def IsPrint (d : Deed) : Prop := ∃ channel text, d = .print channel text

/-- A line is printed. -/
def ofLine (line : Line) : Deed := .print line.channel (line.text ++ "\n")

/-- Does not write to another path. -/
def WritesOnly (path : String) (d : Deed) : Prop :=
  ∀ other content, d = .write other content → other = path

theorem IsMaking.writesOnly {d : Deed} (h : d.IsMaking) (path : String) : d.WritesOnly path := by
  intro other content heq
  obtain ⟨_, rfl⟩ := h
  cases heq

theorem IsPrint.writesOnly {d : Deed} (h : d.IsPrint) (path : String) : d.WritesOnly path := by
  intro other content heq
  obtain ⟨_, _, rfl⟩ := h
  cases heq

end Deed

/-- The machine after these deeds. -/
def Machine.after (s : Machine) (deeds : List Deed) : Machine := deeds.foldl (fun s d => d.on s) s

theorem Machine.after_append (s : Machine) (first second : List Deed) :
    s.after (first ++ second) = (s.after first).after second := List.foldl_append

/-- What has been printed leaves the files as they are. -/
theorem Machine.tree_after_of_isPrint {deeds : List Deed} (h : ∀ d ∈ deeds, d.IsPrint) (s : Machine) :
    (s.after deeds).tree = s.tree := by
  induction deeds generalizing s with
  | nil => rfl
  | cons d deeds ih =>
    rw [List.forall_mem_cons] at h
    obtain ⟨⟨channel, text, rfl⟩, h⟩ := h
    refine (ih h _).trans ?_
    cases channel <;> rfl

theorem Machine.change_of_error {s : Machine} {r : Except FileError FileTree} {e : FileError}
    (h : (s.change r).1 = .error e) : (s.change r).2 = s := by
  cases r with
  | ok t => cases h
  | error cause => rfl

/-- A machine and what has been done to it so far. -/
structure Journal where
  machine : Machine
  deeds : List Deed := []

/-- What it is after these deeds. -/
def Journal.add (j : Journal) (deeds : List Deed) : Journal :=
  ⟨j.machine.after deeds, j.deeds ++ deeds⟩

theorem Journal.add_nil (j : Journal) : j.add [] = j := by
  rw [add, List.append_nil]
  rfl

theorem Journal.add_append (j : Journal) (first second : List Deed) :
    j.add (first ++ second) = (j.add first).add second := by
  rw [add, add, add, Machine.after_append, List.append_assoc]

/-- Puts down what an operation does. -/
def Journal.enter {α : Type} (operation : StateM Machine α) (deeds : α → List Deed) :
    StateM Journal α := fun j =>
  ((operation j.machine).1, ⟨(operation j.machine).2, j.deeds ++ deeds (operation j.machine).1⟩)

instance : Disk (StateM Journal) where
  isDirectory path := Journal.enter (Disk.isDirectory path) fun _ => []
  walk path := Journal.enter (Disk.walk path) fun _ => []
  read path := Journal.enter (Disk.read path) fun _ => []
  write path content := Journal.enter (Disk.write path content) (Deed.write path content).ifDone
  makeDirectory path := Journal.enter (Disk.makeDirectory path) (Deed.makeDirectory path).ifDone
  input := Journal.enter Disk.input fun _ => []
  print channel text := Journal.enter (Disk.print channel text) fun _ => [.print channel text]

namespace Command

/-- What works on a machine with a journal. -/
abbrev OnJournal (α : Type) := StateM Journal α

/-- The one does to the journal's machine what the other does, which is what it puts down, and puts
down only such deeds. -/
def Records {α : Type} (allowed : Deed → Prop) (x : OnJournal α) (y : OnMachine α) : Prop :=
  ∀ j, ∃ deeds, (∀ d ∈ deeds, allowed d) ∧ (y j.machine).2 = j.machine.after deeds ∧
    x j = ((y j.machine).1, j.add deeds)

namespace Records

variable {α β : Type} {allowed : Deed → Prop}

section

variable {x : OnJournal α} {y : OnMachine α} {f : α → OnJournal β} {g : α → OnMachine β}

theorem imp {more : Deed → Prop} (h : Records allowed x y) (hmore : ∀ d, allowed d → more d) :
    Records more x y := by
  intro j
  obtain ⟨deeds, hdeeds, hrun⟩ := h j
  exact ⟨deeds, fun d hd => hmore d (hdeeds d hd), hrun⟩

theorem enter {deeds : α → List Deed} (hdeeds : ∀ a, ∀ d ∈ deeds a, allowed d)
    (hafter : ∀ s, (y s).2 = s.after (deeds (y s).1)) :
    Records allowed (Journal.enter y deeds) y := by
  intro j
  refine ⟨_, hdeeds _, hafter j.machine, ?_⟩
  rw [Journal.add, ← hafter]
  rfl

theorem pure (a : α) : Records allowed (Pure.pure a) (Pure.pure a) := by
  intro j
  refine ⟨[], List.forall_mem_nil _, rfl, ?_⟩
  rw [j.add_nil]
  rfl

theorem bind (hx : Records allowed x y) (hf : ∀ a, Records allowed (f a) (g a)) :
    Records allowed (x >>= f) (y >>= g) := by
  intro j
  obtain ⟨first, hfirst, hmachine, hrun⟩ := hx j
  obtain ⟨second, hsecond, hlast, hrest⟩ := hf (y j.machine).1 (j.add first)
  have hmiddle : (j.add first).machine = (y j.machine).2 := hmachine.symm
  rw [hmiddle] at hlast hrest
  refine ⟨first ++ second, List.forall_mem_append.2 ⟨hfirst, hsecond⟩, ?_, ?_⟩
  · rw [Machine.after_append, ← hmachine]
    exact hlast
  · rw [j.add_append]
    show StateT.bind _ _ j = _
    simp only [StateT.bind, hrun]
    exact hrest

theorem map {h : α → β} (hx : Records allowed x y) : Records allowed (h <$> x) (h <$> y) := by
  intro j
  obtain ⟨deeds, hdeeds, hmachine, hrun⟩ := hx j
  refine ⟨deeds, hdeeds, hmachine, ?_⟩
  show StateT.map _ _ j = _
  simp only [StateT.map, hrun]
  rfl

end

section

variable {x : Action OnJournal α} {y : Action OnMachine α} {f : α → Action OnJournal β}
  {g : α → Action OnMachine β}

theorem andThen (hx : Records allowed x.run y.run) (hf : ∀ a, Records allowed (f a).run (g a).run) :
    Records allowed (x >>= f).run (y >>= g).run := by
  rw [ExceptT.run_bind, ExceptT.run_bind]
  refine bind hx fun r => ?_
  cases r with
  | ok a => exact hf a
  | error e => exact .pure _

theorem throw (f : Failure) :
    Records allowed (MonadExcept.throw f : Action OnJournal α).run
      (MonadExcept.throw f : Action OnMachine α).run := .pure _

theorem during (text : String) (hx : Records allowed x.run y.run) :
    Records allowed (Command.during text x).run (Command.during text y).run := hx.map

theorem attempt {operation : OnJournal (Except FileError α)} {plain : OnMachine (Except FileError α)}
    (h : Records allowed operation plain) :
    Records allowed (Command.attempt operation).run (Command.attempt plain).run :=
  h.bind fun _ => .pure _

theorem lift {operation : OnJournal α} {plain : OnMachine α} (h : Records allowed operation plain) :
    Records allowed (ExceptT.lift operation : Action OnJournal α).run
      (ExceptT.lift plain : Action OnMachine α).run := h.map

theorem forM {as : List α} {f : α → Action OnJournal Unit} {g : α → Action OnMachine Unit}
    (hf : ∀ a ∈ as, Records allowed (f a).run (g a).run) :
    Records allowed (as.forM f).run (as.forM g).run := by
  induction as with
  | nil => exact .pure _
  | cons a as ih =>
    rw [List.forall_mem_cons] at hf
    exact andThen hf.1 fun _ => ih hf.2

end

theorem isDirectory (path : String) :
    Records allowed (Disk.isDirectory path : OnJournal _) (Disk.isDirectory path) :=
  enter (fun _ => List.forall_mem_nil _) fun _ => rfl

theorem walk (path : String) : Records allowed (Disk.walk path : OnJournal _) (Disk.walk path) :=
  enter (fun _ => List.forall_mem_nil _) fun _ => rfl

theorem read (path : String) : Records allowed (Disk.read path : OnJournal _) (Disk.read path) :=
  enter (fun _ => List.forall_mem_nil _) fun _ => rfl

theorem input : Records allowed (Disk.input : OnJournal _) Disk.input :=
  enter (fun _ => List.forall_mem_nil _) fun _ => rfl

theorem write (path : String) (content : ByteArray) :
    Records (Deed.WritesOnly path) (Disk.write path content : OnJournal _) (Disk.write path content) := by
  refine enter (fun r d hd => ?_) fun s => ?_
  · cases r with
    | ok a =>
      intro other content' heq
      rw [List.mem_singleton.1 hd] at heq
      exact (Deed.write.inj heq).1.symm
    | error e => cases hd
  · cases hresult : ((Disk.write path content : OnMachine _) s).1 with
    | ok a => rfl
    | error e => exact Machine.change_of_error hresult

theorem makeDirectory (path : String) :
    Records Deed.IsMaking (Disk.makeDirectory path : OnJournal _) (Disk.makeDirectory path) := by
  refine enter (fun r d hd => ?_) fun s => ?_
  · cases r with
    | ok a => exact ⟨path, List.mem_singleton.1 hd⟩
    | error e => cases hd
  · cases hresult : ((Disk.makeDirectory path : OnMachine _) s).1 with
    | ok a => rfl
    | error e => exact Machine.change_of_error hresult

theorem print (channel : Channel) (text : String) :
    Records Deed.IsPrint (Command.print (m := OnJournal) channel text).run
      (Command.print (m := OnMachine) channel text).run :=
  lift (enter (fun _ _ hd => ⟨_, _, List.mem_singleton.1 hd⟩) fun _ => rfl)

theorem makeDirectories (paths : List String) :
    Records Deed.IsMaking (Command.makeDirectories (m := OnJournal) paths)
      (Command.makeDirectories (m := OnMachine) paths) := by
  have hsettle (path : String) (r : Except FileError Unit) :
      Records Deed.IsMaking (Command.makeDirectories.settle (m := OnJournal) path r)
        (Command.makeDirectories.settle (m := OnMachine) path r) := by
    cases r with
    | ok a => exact .pure _
    | error e =>
      refine (isDirectory path).bind fun found => ?_
      split
      · exact .pure _
      · exact .pure _
  induction paths with
  | nil => exact .pure _
  | cons path above ih =>
    refine (makeDirectory path).bind fun r => ?_
    split
    · exact .pure _
    · refine ih.bind fun r => ?_
      split
      · exact .pure _
      · exact (makeDirectory path).bind fun r => hsettle path r
    · exact hsettle path _

theorem writeOutput (path text : String) :
    Records (Deed.WritesOnly path) (Command.writeOutput (m := OnJournal) path text).run
      (Command.writeOutput (m := OnMachine) path text).run := by
  have hlast := during ("failed to write output file " ++ path) (attempt (write path text.toUTF8))
  unfold Command.writeOutput
  dsimp only
  split
  · have hmake := (makeDirectories (Path.ancestors (Path.parent path))).imp fun _ hd =>
      hd.writesOnly path
    exact andThen (during _ (attempt hmake)) fun _ => hlast
  · exact hlast

theorem ofError (r : Except Error α) :
    Records allowed (Command.ofError (m := OnJournal) r).run
      (Command.ofError (m := OnMachine) r).run := by
  cases r <;> exact .pure _

theorem readSource (path : String) :
    Records allowed (Command.readSource (m := OnJournal) path).run
      (Command.readSource (m := OnMachine) path).run :=
  during _ (attempt ((read path).bind fun _ => .pure _))

theorem evaluate (es : List Expr) :
    Records Deed.IsPrint (Command.evaluate (m := OnJournal) es).run
      (Command.evaluate (m := OnMachine) es).run := by
  unfold Command.evaluate
  dsimp only
  split
  all_goals
    exact andThen (forM fun line _ => print _ _) fun _ => andThen (ofError _) fun v => print _ _

theorem evaluateIf (run : Bool) (es : List Expr) :
    Records Deed.IsPrint
      (if run then Command.evaluate (m := OnJournal) es else Pure.pure ()).run
      (if run then Command.evaluate (m := OnMachine) es else Pure.pure ()).run := by
  split
  · exact evaluate es
  · exact .pure _

theorem compile {path : String} {output : Option String} (h : ∀ p, output = some p → p = path)
    (source : String) (emit : Emit) (run : Bool) :
    Records (Deed.WritesOnly path) (Command.compile (m := OnJournal) source output emit run).run
      (Command.compile (m := OnMachine) source output emit run).run := by
  refine andThen (ofError _) fun es => ?_
  have hlast := (evaluateIf run es).imp fun _ hd => hd.writesOnly path
  cases output with
  | some p =>
    obtain rfl := h p rfl
    exact andThen (writeOutput p _) fun _ => hlast
  | none => exact andThen ((print _ _).imp fun _ hd => hd.writesOnly path) fun _ => hlast

/-- Only the target is written to. -/
theorem compileFile (input : String) (output : Option String) (emit : Emit) (run : Bool) :
    Records (Deed.WritesOnly (output.getD (Path.withExtension input emit.extension)))
      (Command.compileFile (m := OnJournal) input output emit run).run
      (Command.compileFile (m := OnMachine) input output emit run).run :=
  andThen (readSource input) fun source =>
    during _ (compile (fun _ => Option.some.inj ∘ Eq.symm) source emit run)

theorem compileDirectory (root : String) (output : Option String) (emit : Emit) :
    Records (fun _ => True) (Command.compileDirectory (m := OnJournal) root output emit).run
      (Command.compileDirectory (m := OnMachine) root output emit).run := by
  have hsources : Records (fun _ => True) (sources (m := OnJournal) root).run
      (sources (m := OnMachine) root).run :=
    andThen (lift (walk root)) fun _ => andThen (during _ (.pure _)) fun _ => .pure _
  refine andThen hsources fun names => ?_
  split
  · exact andThen (throw _) fun _ => forM fun _ _ => (compileFile _ _ _ _).imp fun _ _ => trivial
  · exact forM fun _ _ => (compileFile _ _ _ _).imp fun _ _ => trivial

theorem execute (o : Options) :
    Records (fun _ => True) (Command.execute (m := OnJournal) o).run
      (Command.execute (m := OnMachine) o).run := by
  unfold Command.execute
  cases Emit.ofName? o.emit with
  | none => exact .pure _
  | some emit =>
    cases o.input with
    | none =>
      refine andThen (attempt (input.bind fun _ => .pure _)) fun source => ?_
      have hpath : ∀ p, o.output = some p → p = o.output.getD "" := fun p hp => by rw [hp]; rfl
      exact (compile hpath source emit o.run).imp fun _ _ => trivial
    | some path =>
      refine andThen (lift (isDirectory path)) fun found => ?_
      split
      · dsimp only
        split
        · exact andThen (throw _) fun _ => compileDirectory _ _ _
        · exact compileDirectory _ _ _
      · exact (compileFile _ _ _ _).imp fun _ _ => trivial

/-- What does nothing leaves the journal as it is. -/
theorem run_silent {α : Type} {x : OnJournal α} {y : OnMachine α}
    (h : Records (fun _ => False) x y) (j : Journal) : x j = ((y j.machine).1, j) := by
  obtain ⟨deeds, hnone, -, hrun⟩ := h j
  obtain rfl : deeds = [] := List.eq_nil_iff_forall_not_mem.2 hnone
  rw [hrun, j.add_nil]

end Records

section

variable {path : String}

theorem write_run {content : ByteArray} {s' : Machine} {j : Journal}
    (h : (Disk.write path content : OnMachine _) j.machine = (.ok (), s')) :
    (Disk.write path content : OnJournal _) j = (.ok (), j.add [.write path content]) := by
  have hdone : ((Disk.write path content : OnMachine _) j.machine).1 = .ok () := congrArg Prod.fst h
  show (_, Journal.mk _ (j.deeds ++ Deed.ifDone _ _)) = _
  rw [hdone]
  rfl

theorem print_run (j : Journal) (channel : Channel) (text : String) :
    (print (m := OnJournal) channel text).run j = (.ok (), j.add [.print channel text]) := rfl

theorem printLines_run (lines : List Line) (j : Journal) :
    (lines.forM fun line => print (m := OnJournal) line.channel (line.text ++ "\n")).run j =
      (.ok (), j.add (lines.map Deed.ofLine)) := by
  induction lines generalizing j with
  | nil =>
    rw [List.map_nil, j.add_nil]
    rfl
  | cons line lines ih =>
    have hrest := ih (j.add [Deed.ofLine line])
    rw [← j.add_append, List.singleton_append] at hrest
    exact (run_bind_ok (print_run j _ _)).trans hrest

end

/-- A command with a journal: its exit code, and the machine and the journal after it. -/
def record (o : Options) (s : Machine) : Nat × Journal := run (m := OnJournal) o ⟨s, []⟩

section

variable {o : Options} {s : Machine} {j : Journal}

theorem record_of_ok (h : (execute (m := OnJournal) o).run ⟨s, []⟩ = (.ok (), j)) :
    record o s = (0, j) := by
  unfold record run
  show StateT.bind _ _ _ = _
  simp only [StateT.bind, h]
  rfl

theorem record_of_error {f : Failure}
    (h : (execute (m := OnJournal) o).run ⟨s, []⟩ = (.error f, j)) :
    record o s = (1, j.add [.print .err f.report]) := by
  unfold record run
  show StateT.bind _ _ _ = _
  simp only [StateT.bind, h]
  rfl

end

/-- The journal changes neither the exit code nor the machine, which is what the deeds have made of
it. -/
theorem runOn_eq_record (o : Options) (s : Machine) :
    runOn o s = ((record o s).1, (record o s).2.machine) ∧
      (record o s).2.machine = s.after (record o s).2.deeds := by
  have hrun : Records (fun _ => True) (run (m := OnJournal) o) (run (m := OnMachine) o) := by
    refine (Records.execute o).bind fun r => ?_
    cases r with
    | ok a => exact .pure _
    | error f =>
      have hprint : Records (fun _ => True) (Disk.print .err f.report : OnJournal _)
          (Disk.print .err f.report) := .enter (fun _ _ _ => trivial) fun _ => rfl
      exact hprint.bind fun _ => .pure _
  obtain ⟨deeds, -, hmachine, heq⟩ := hrun ⟨s, []⟩
  rw [record, heq]
  exact ⟨Prod.ext rfl hmachine, rfl⟩

end Command

end Offside
