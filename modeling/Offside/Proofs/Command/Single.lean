import Mathlib
import Offside.Proofs.Command.Sources
import Offside.Proofs.Eval.Printed

namespace Offside.Command

open FileTree Offside.Path

variable {s : Machine} {path text : String}

/-- An output is written if and only if there can be a file at its path. -/
theorem writable_iff :
    s.tree.Writable path ↔
      ∃ s', (writeOutput (m := OnMachine) path text).run s = (.ok (), s') := by
  constructor
  · intro h
    obtain ⟨t, hrun, -⟩ := writeOutput_run h text
    exact ⟨_, hrun⟩
  · intro ⟨s', hrun⟩
    obtain ⟨between, hmake, hwrite⟩ := writeOutput_eq_ok_iff.1 hrun
    -- What was there before the directories were made is there still.
    have hspares : Spares (fun _ => True) s between := by
      have havoids : Records (Avoids fun _ => True) _ _ :=
        (Records.makeDirectories (ancestors (parent path))).imp fun _ => avoids_of_isMaking
      have hkept := havoids.spares s
      rwa [hmake] at hkept
    have hkeeps {place : List String} {e : FileEntry} (h : s.tree.entry? place = some e) :
        between.tree.entry? place = some e := hspares place e (.inr trivial) h
    obtain ⟨t, ht⟩ : ∃ t, between.tree.write path text.toUTF8 = .ok t := by
      change between.change (between.tree.write path text.toUTF8) = _ at hwrite
      cases hresult : between.tree.write path text.toUTF8 with
      | ok t => exact ⟨t, rfl⟩
      | error e =>
        rw [hresult] at hwrite
        cases (Prod.mk.inj hwrite).1
    obtain ⟨hopen, hfree, hslash, -⟩ := open_of_write ht
    refine ⟨fun place hpasses content hfile => ?_, fun hdirectory => hfree (hkeeps hdirectory),
      fun hpasses => hfree (hopen _ hpasses), hslash⟩
    have hkept := hkeeps hfile
    rw [hopen place hpasses] at hkept
    cases hkept

/-- What evaluating a program with the console comes to. -/
def evaluation (es : List Expr) : Outcome Value :=
  EStateM.run (do
    Host.installConsole
    Program.evaluateAll Host.console es) .empty

variable {es : List Expr} {v : Value} {env : Environment} {e : Error} {j : Journal}

/-- What the first statements have printed stays in front, wherever the others fail. -/
theorem output_evaluation_append {first : List Expr} (h : evaluation first = .ok v env)
    (rest : List Expr) : env.output <+: (finalState (evaluation (first ++ rest))).output := by
  have hinstall : Host.installConsole .empty = .ok () (finalState (Host.installConsole .empty)) := rfl
  change (Host.installConsole >>= fun _ => Program.evaluateAll Host.console first) .empty = _ at h
  rw [bind_of_ok hinstall] at h
  change _ <+: (finalState ((Host.installConsole >>= fun _ =>
    Program.evaluateAll Host.console (first ++ rest)) .empty)).output
  rw [bind_of_ok hinstall]
  exact Program.output_evaluateAll_append h rest

theorem evaluate_run (h : evaluation es = .ok v env) :
    (evaluate (m := OnJournal) es).run j =
      (.ok (), j.add (env.output.map Deed.ofLine ++
        [.print .out ("Program evaluated to " ++ v.render ++ "\n")])) := by
  unfold evaluation at h
  unfold evaluate
  dsimp only
  rw [h, j.add_append]
  exact run_bind_ok (printLines_run env.output j)

theorem evaluate_run_error (h : evaluation es = .error e env) :
    (evaluate (m := OnJournal) es).run j =
      (.error ⟨e.message, []⟩, j.add (env.output.map Deed.ofLine)) := by
  unfold evaluation at h
  unfold evaluate
  dsimp only
  rw [h]
  exact run_bind_ok (printLines_run env.output j)

/-- These deeds are the output of a command on a machine: a print, or a write after the directories
that the output lies in have been made. -/
inductive Delivers (s : Machine) (text : String) : Option String → List Deed → Prop where
  | printed : Delivers s text none [.print .out text]
  | written {path : String} {makings : List Deed} (hmakings : ∀ d ∈ makings, d.IsMaking)
      (hread : (s.after (makings ++ [.write path text.toUTF8])).tree.read path = .ok text.toUTF8)
      (hwritten : s.tree.Written (s.after (makings ++ [.write path text.toUTF8])).tree (names path)
        text.toUTF8) : Delivers s text (some path) (makings ++ [.write path text.toUTF8])

theorem deliver_run {output : Option String} (h : ∀ path, output = some path → s.tree.Writable path)
    (text : String) :
    ∃ deeds, Delivers s text output deeds ∧
      (deliver (m := OnJournal) output text).run ⟨s, []⟩ = (.ok (), Journal.add ⟨s, []⟩ deeds) := by
  cases output with
  | none => exact ⟨_, .printed, rfl⟩
  | some path =>
    have hpath := h path rfl
    obtain ⟨t, hrun, hwritten⟩ := writeOutput_run hpath text
    obtain ⟨between, hmake, hwrite⟩ := writeOutput_eq_ok_iff.1 hrun
    obtain ⟨makings, hmakings, hafter, hjournal⟩ :=
      Records.makeDirectories (ancestors (parent path)) ⟨s, []⟩
    rw [hmake] at hafter hjournal
    obtain rfl : between = s.after makings := hafter
    have hlast : (Disk.write path text.toUTF8 : OnJournal _) (Journal.add ⟨s, []⟩ makings) =
        (.ok (), (Journal.add ⟨s, []⟩ makings).add [.write path text.toUTF8]) := write_run hwrite
    have htree : (s.after (makings ++ [.write path text.toUTF8])).tree = t := by
      rw [Machine.after_append]
      exact congrArg (fun r => r.2.tree) hwrite
    refine ⟨makings ++ [.write path text.toUTF8], .written hmakings ?_ ?_, ?_⟩
    · rw [htree]
      exact hwritten.read hpath.slash
    · rwa [htree]
    · rw [Journal.add_append]
      exact writeOutput_eq_ok_iff.2 ⟨_, hjournal, hlast⟩

/-- The source that a command reads, from a file or from the input. -/
def Options.Reads (o : Options) (s : Machine) (source : String) : Prop :=
  match o.input with
  | some input => s.tree.read input = .ok source.toUTF8
  | none => s.input = source.toUTF8

/-- The path of the output of a single source. -/
def Options.target? (o : Options) (emit : Emit) : Option String :=
  match o.input with
  | some input => some (o.output.getD (withExtension input emit.extension))
  | none => o.output

variable {o : Options} {emit : Emit} {source : String}

/-- A command on a single source compiles it, with nothing done before. -/
theorem execute_run_source (hemit : Emit.ofName? o.emit = some emit) (hsource : o.Reads s source) :
    ∃ cause : Failure → Failure, ∀ r j,
      (compile (m := OnJournal) source (o.target? emit) emit o.run).run ⟨s, []⟩ = (r, j) →
        (execute (m := OnJournal) o).run ⟨s, []⟩ = (r.mapError cause, j) := by
  unfold Options.Reads at hsource
  unfold Options.target?
  unfold execute
  rw [hemit]
  cases hinput : o.input with
  | none =>
    rw [hinput] at hsource
    refine ⟨id, fun r j hrun => ?_⟩
    have hinput : (attempt do return decode (← Disk.input) : Action OnJournal _).run ⟨s, []⟩ =
        (.ok source, ⟨s, []⟩) := by
      have hsilent : Records (fun _ => False)
          (attempt do return decode (← Disk.input) : Action OnJournal _).run
          (attempt do return decode (← Disk.input) : Action OnMachine _).run :=
        .attempt (Records.input.bind fun _ => .pure _)
      have hplain : (attempt do return decode (← Disk.input) : Action OnMachine _).run s =
          (.ok source, s) := by
        refine run_attempt_eq_ok_iff.2 ?_
        show (decode s.input, s) = _
        rw [hsource, decode_toUTF8]
      rw [hsilent.run_silent, hplain]
    have hid : r.mapError id = r := by cases r <;> rfl
    rw [hid]
    exact (run_bind_ok hinput).trans hrun
  | some input =>
    rw [hinput] at hsource
    refine ⟨Failure.during ("failed to compile " ++ input), fun r j hrun => ?_⟩
    have hdirectory : (ExceptT.lift (Disk.isDirectory input) : Action OnJournal _).run ⟨s, []⟩ =
        (.ok false, ⟨s, []⟩) := by
      have hsilent : Records (fun _ => False)
          (ExceptT.lift (Disk.isDirectory input) : Action OnJournal _).run
          (ExceptT.lift (Disk.isDirectory input) : Action OnMachine _).run :=
        .lift (.isDirectory input)
      rw [hsilent.run_silent, isDirectory_run (isDirectory_of_read hsource)]
    have hread : (readSource (m := OnJournal) input).run ⟨s, []⟩ = (.ok source, ⟨s, []⟩) := by
      have hsilent : Records (fun _ => False) (readSource (m := OnJournal) input).run
          (readSource (m := OnMachine) input).run := .readSource input
      rw [hsilent.run_silent, readSource_run hsource, decode_toUTF8]
      rfl
    dsimp only
    rw [run_bind_ok hdirectory]
    exact (run_bind_ok hread).trans (run_during _ hrun)

/-- After its output a command only prints. -/
theorem record_prints {delivery : List Deed} {cause : Failure → Failure}
    (hexecute : ∀ r j, ((if o.run then evaluate (m := OnJournal) es else pure ()).run
        (Journal.add ⟨s, []⟩ delivery)) = (r, j) →
      (execute (m := OnJournal) o).run ⟨s, []⟩ = (r.mapError cause, j)) :
    ∃ prints, (∀ d ∈ prints, Deed.IsPrint d) ∧ (record o s).2.deeds = delivery ++ prints := by
  obtain ⟨prints, hprints, -, hrun⟩ := Records.evaluateIf o.run es (Journal.add ⟨s, []⟩ delivery)
  have hresult := hexecute _ _ hrun
  cases hcode : ((if o.run then evaluate (m := OnMachine) es else pure ()).run
      (Journal.add ⟨s, []⟩ delivery).machine).1 with
  | ok a =>
    rw [hcode] at hresult
    exact ⟨prints, hprints, by rw [record_of_ok hresult]; rfl⟩
  | error f =>
    rw [hcode] at hresult
    refine ⟨prints ++ [.print .err (cause f).report], ?_, ?_⟩
    · rw [List.forall_mem_append, List.forall_mem_singleton]
      exact ⟨hprints, _, _, rfl⟩
    · rw [record_of_error hresult, ← List.append_assoc]
      rfl

/-- What a command with a single source does, in order. A source that cannot be read leads to a
report and to nothing else. The output of another one stands in front of all that its evaluation
prints, whether that ends in a value or in an error. -/
theorem record_source (hemit : Emit.ofName? o.emit = some emit) (hsource : o.Reads s source)
    (houtput : ∀ path, o.target? emit = some path → s.tree.Writable path) :
    runOn o s = ((record o s).1, s.after (record o s).2.deeds) ∧
      (∀ e, Program.parse source = .error e →
        (record o s).1 ≠ 0 ∧ ∃ report, (record o s).2.deeds = [.print .err report] ∧
          (runOn o s).2 = s.print .err report) ∧
      ∀ es, Program.parse source = .ok es →
        ∃ delivery, Delivers s (emit.render es) (o.target? emit) delivery ∧
          (runOn o s).2.tree = (s.after delivery).tree ∧
          (o.run = false → (record o s).1 = 0 ∧ (record o s).2.deeds = delivery) ∧
          (o.run = true → ∀ v env, evaluation es = .ok v env →
            (record o s).1 = 0 ∧ (record o s).2.deeds =
              delivery ++ (env.output.map Deed.ofLine ++
                [.print .out ("Program evaluated to " ++ v.render ++ "\n")])) ∧
          (o.run = true → ∀ e env, evaluation es = .error e env →
            (record o s).1 ≠ 0 ∧ (∃ report, (record o s).2.deeds =
              delivery ++ (env.output.map Deed.ofLine ++ [.print .err report])) ∧
            ∀ first rest v before, es = first ++ rest → evaluation first = .ok v before →
              before.output <+: env.output) := by
  obtain ⟨cause, hexecute⟩ := execute_run_source hemit hsource
  obtain ⟨hrun, hafter⟩ := runOn_eq_record o s
  rw [hafter] at hrun
  refine ⟨hrun, fun e hparse => ?_, fun es hparse => ?_⟩
  · have hcompile := hexecute _ _ (compile_run_error hparse o.run)
    rw [hrun, record_of_error hcompile]
    exact ⟨one_ne_zero, _, rfl, rfl⟩
  · obtain ⟨delivery, hdelivers, hdeliver⟩ := deliver_run houtput (emit.render es)
    have hcompiled (r : Except Failure Unit) (j : Journal) (hrest : (if o.run then
        evaluate (m := OnJournal) es else pure ()).run (Journal.add ⟨s, []⟩ delivery) = (r, j)) :
        (execute (m := OnJournal) o).run ⟨s, []⟩ = (r.mapError cause, j) :=
      hexecute r j ((compile_run hparse hdeliver o.run).trans hrest)
    obtain ⟨prints, hprints, hdeeds⟩ := record_prints hcompiled
    refine ⟨delivery, hdelivers, ?_, fun hrun => ?_, fun hrun v env hvalue => ?_,
      fun hrun e env herror => ?_⟩
    · rw [hrun, hdeeds, Machine.after_append]
      exact Machine.tree_after_of_isPrint hprints _
    · rw [hrun] at hcompiled
      rw [record_of_ok (hcompiled (.ok ()) _ rfl)]
      exact ⟨rfl, rfl⟩
    · rw [hrun] at hcompiled
      rw [record_of_ok (hcompiled _ _ (evaluate_run hvalue))]
      exact ⟨rfl, rfl⟩
    · rw [hrun] at hcompiled
      rw [record_of_error (hcompiled _ _ (evaluate_run_error herror))]
      refine ⟨one_ne_zero, ⟨_, List.append_assoc _ _ _⟩, fun first rest v before hes hfirst => ?_⟩
      have hprefix := output_evaluation_append hfirst rest
      rw [← hes, herror] at hprefix
      exact hprefix

/-- A line, and then a name that is bound to nothing. -/
def failing : List Expr :=
  [.apply (.member (.member (.name "Native" none) (.name "console" none)) (.name "log" none))
    [.constant (.int 1)], .name "x" none]

set_option maxRecDepth 4000 in
theorem parse_failing : Program.parse "Native.console.log 1\nx" = .ok failing := by cbv

set_option maxRecDepth 4000 in
theorem evaluation_failing :
    evaluation failing = .error (.runtime (.undefinedName "x"))
      { bindings := ⟨[("Native", .record 3 [("console", .record 2
          [("error", .native 1 "console.error"), ("log", .native 0 "console.log")])])]⟩,
        unused := 4, output := [⟨.out, "1"⟩] } := by
  simp only [evaluation, failing, Program.evaluateAll]
  cbv

def failingSource : FileTree := ⟨[(["a.elm"], .file "Native.console.log 1\nx".toUTF8)]⟩

theorem writable_failingSource : failingSource.Writable "a.js" := by
  have hnames : names "a.js" = [] ++ ["a.js"] := by cbv
  have hlocation : location ([] ++ ["a.js"]) = ["a.js"] := by cbv
  have hnone : failingSource.entry? ["a.js"] = none := rfl
  have hpasses {place : List String} (h : Passes ([] ++ ["a.js"]) place) : place = [] :=
    visits_nil.1 (passes_concat.1 h)
  refine ⟨?_, ?_, ?_, by cbv⟩
  all_goals rw [hnames]
  · intro place h
    simp [hpasses h]
  · rw [hlocation, hnone]
    simp
  · intro h
    cases hpasses (hlocation ▸ h)

theorem record_source_failing :
    ∃ makings report, (∀ d ∈ makings, Deed.IsMaking d) ∧
      (record ⟨some "a.elm", none, "js", true⟩ { tree := failingSource }).2.deeds =
        makings ++ [.write "a.js" "console.log(1);\nx;\n".toUTF8] ++
          [.print .out "1\n", .print .err report] := by
  have hemit : Emit.ofName? "js" = some .javaScript := rfl
  have hread : failingSource.read "a.elm" = .ok "Native.console.log 1\nx".toUTF8 := by cbv
  have htarget : Options.target? ⟨some "a.elm", none, "js", true⟩ .javaScript = some "a.js" := by cbv
  have hrender : Emit.javaScript.render failing = "console.log(1);\nx;\n" := by cbv
  obtain ⟨-, -, hparsed⟩ := record_source (o := ⟨some "a.elm", none, "js", true⟩)
    (s := { tree := failingSource }) hemit hread fun path hpath => by
      rw [htarget] at hpath
      rw [← Option.some.inj hpath]
      exact writable_failingSource
  obtain ⟨delivery, hdelivers, -, -, -, hfails⟩ := hparsed failing parse_failing
  obtain ⟨-, ⟨report, hdeeds⟩, -⟩ := hfails rfl _ _ evaluation_failing
  rw [htarget, hrender] at hdelivers
  cases hdelivers with
  | written hmakings _ _ => exact ⟨_, report, hmakings, hdeeds⟩

end Offside.Command
