import Mathlib
import Offside.Proofs.Command.Journal

namespace Offside.Command

open FileTree Offside.Path

/-- Directories and what is at these places are as they were. -/
def Spares (places : List String → Prop) (s s' : Machine) : Prop :=
  ∀ place e, e = .directory ∨ places place → s.tree.entry? place = some e →
    s'.tree.entry? place = some e

/-- Does not write to these places. -/
def Avoids (places : List String → Prop) (d : Deed) : Prop :=
  ∀ path content, d = .write path content → ¬ places (location (names path))

variable {places : List String → Prop}

theorem avoids_of_writesOnly {d : Deed} {path : String} (h : d.WritesOnly path)
    (hplaces : ¬ places (location (names path))) : Avoids places d := by
  intro other content heq
  rwa [h other content heq]

theorem avoids_of_isMaking {d : Deed} (h : d.IsMaking) : Avoids places d := by
  intro path content heq
  obtain ⟨_, rfl⟩ := h
  cases heq

theorem avoids_of_isPrint {d : Deed} (h : d.IsPrint) : Avoids places d := by
  intro path content heq
  obtain ⟨_, _, rfl⟩ := h
  cases heq

/-- A file at such a place is read as before. -/
theorem Spares.read {s s' : Machine} (h : Spares places s s') {path : String} {content : ByteArray}
    (hplace : places (location (names path))) (hread : s.tree.read path = .ok content) :
    s'.tree.read path = .ok content := by
  obtain ⟨hopen, hentry, hslash⟩ := open_of_read hread
  exact read_of_open (fun place hpasses => h place _ (.inl rfl) (hopen place hpasses))
    (h _ _ (.inr hplace) hentry) hslash

/-- A directory is only made where there is nothing, and only a file is replaced. -/
theorem spares_on {d : Deed} (h : Avoids places d) (s : Machine) : Spares places s (d.on s) := by
  intro place e hplace hentry
  cases d with
  | print channel text => cases channel <;> exact hentry
  | makeDirectory path =>
    change (s.change (s.tree.makeDirectory path)).2.tree.entry? place = some e
    cases hmake : s.tree.makeDirectory path with
    | error cause => exact hentry
    | ok t =>
      obtain ⟨-, hnone, rfl⟩ := open_of_makeDirectory hmake
      have hne : location (names path) ≠ [] := fun hnil => by
        rw [hnil] at hnone
        cases hnone
      have hother : place ≠ location (names path) := fun heq => by
        rw [heq, hnone] at hentry
        cases hentry
      exact (entry?_insert_of_ne s.tree hne _ hother).trans hentry
  | write path content =>
    change (s.change (s.tree.write path content)).2.tree.entry? place = some e
    cases hwrite : s.tree.write path content with
    | error cause => exact hentry
    | ok t =>
      obtain ⟨-, hfree, -, rfl⟩ := open_of_write hwrite
      have hne : location (names path) ≠ [] := fun hnil => by
        rw [hnil] at hfree
        exact hfree rfl
      have hother : place ≠ location (names path) := by
        rintro rfl
        rcases hplace with rfl | hplace
        · exact hfree hentry
        · exact h path content rfl hplace
      exact (entry?_insert_of_ne s.tree hne _ hother).trans hentry

theorem spares_after {deeds : List Deed} (h : ∀ d ∈ deeds, Avoids places d) (s : Machine) :
    Spares places s (s.after deeds) := by
  induction deeds generalizing s with
  | nil => exact fun _ _ _ hentry => hentry
  | cons d deeds ih =>
    rw [List.forall_mem_cons] at h
    exact fun place e hplace hentry =>
      ih h.2 (d.on s) place e hplace (spares_on h.1 s place e hplace hentry)

theorem Records.spares {α : Type} {x : OnJournal α} {y : OnMachine α}
    (h : Records (Avoids places) x y) (s : Machine) : Spares places s (y s).2 := by
  obtain ⟨deeds, hdeeds, hafter, -⟩ := h ⟨s, []⟩
  rw [hafter]
  exact spares_after hdeeds s

theorem tree_runOn (o : Options) (s : Machine) :
    (runOn o s).2.tree = ((execute (m := OnMachine) o).run s).2.tree := by
  cases hrun : (execute (m := OnMachine) o).run s with
  | mk r s' =>
    cases r with
    | ok a => rw [runOn_of_ok hrun]
    | error f =>
      rw [runOn_of_error hrun]
      rfl

/-- The paths that a command reads sources from. There are none where a walk fails. -/
def sourcePaths (input : String) (s : Machine) : List String :=
  if s.tree.isDirectory input then
    match ((sources (m := OnMachine) input).run s).1 with
    | .ok files => files.map fun names => join input ("/".intercalate names)
    | .error _ => []
  else [input]

variable {s : Machine} {input path : String}

theorem location_target {name : List Char} (h : fileName? path = some name) (emit : Emit) :
    location (names (withExtension path emit.extension)) = location (namesOf (split path).1) ++
      [String.ofList ((splitName name).1 ++ '.' :: emit.extension.toList)] := by
  have hslash : '/' ∉ emit.extension.toList := by cases emit <;> decide
  have hlength : 3 ≤ ((splitName name).1 ++ '.' :: emit.extension.toList).length := by
    have hext : emit.extension.toList.length = 2 ∨ emit.extension.toList.length = 3 := by
      cases emit <;> decide
    rw [List.length_append, List.length_cons]
    omega
  exact location_of_endsIn (endsIn_withExtension h hslash) (fun heq => by simp [heq] at hlength)
    fun heq => by simp [heq] at hlength

/-- A file has the place of its target only if it has the extension of the output. -/
theorem location_ne_target (ht : s.tree.WellFormed) {content : ByteArray} {emit : Emit}
    (hread : s.tree.read input = .ok content) (hother : extension? input ≠ some emit.extension) :
    location (names input) ≠ location (names (withExtension input emit.extension)) := by
  obtain ⟨hend, hdot, hdots⟩ := ht.endsIn_of_read hread
  rw [location_of_endsIn hend hdot hdots, location_target (hend.fileName? hdot hdots)]
  intro heq
  have hword := String.ofList_inj.1 (List.cons.inj (List.append_cancel_left heq)).1
  exact hother ((hend.extension? hdot hdots).2 hword)

/-- A file is compiled without a change to it, unless it has the extension of the output. -/
theorem execute_keeps_file {o : Options} (hinput : o.input = some input) (houtput : o.output = none)
    (ht : s.tree.WellFormed) {content : ByteArray} (hread : s.tree.read input = .ok content)
    (hother : ∀ emit, Emit.ofName? o.emit = some emit → extension? input ≠ some emit.extension) :
    ((execute (m := OnMachine) o).run s).2.tree.read input = .ok content := by
  cases hemit : Emit.ofName? o.emit with
  | none => rwa [execute_unsupported hemit]
  | some emit =>
    have hother := location_ne_target ht hread (hother emit hemit)
    have havoids : Records (Avoids (· = location (names input))) _ _ :=
      (Records.compileFile input none emit o.run).imp fun _ hd => avoids_of_writesOnly hd hother.symm
    rw [execute_run_file hinput hemit (isDirectory_of_read hread), houtput]
    exact (havoids.spares s).read rfl hread

theorem extension?_of_mem_sources {files : List (List String)} {names : List String}
    (hsources : (sources (m := OnMachine) input).run s = (.ok files, s)) (hnames : names ∈ files) :
    extension? (join input ("/".intercalate names)) = some sourceExtension := by
  rw [run_sources] at hsources
  cases hall : (s.walker s.tree input).mapM id with
  | error f =>
    rw [hall] at hsources
    cases hsources
  | ok entries =>
    rw [hall] at hsources
    obtain rfl := Except.ok.inj (Prod.mk.inj hsources).1
    obtain ⟨entry, hentry, rfl⟩ := List.mem_map.1 hnames
    have hsource := (List.mem_filter.1 hentry).2
    rw [isSource, Bool.and_eq_true, decide_eq_true_eq] at hsource
    exact hsource.2

/-- A source in a directory does not have the place of a target there. -/
theorem location_ne_target_of_source (ht : s.tree.WellFormed) {content : ByteArray} {other : String}
    (hread : s.tree.read path = .ok content) (hext : extension? path = some sourceExtension)
    (hother : extension? other = some sourceExtension) (emit : Emit) :
    location (names path) ≠ location (names (withExtension other emit.extension)) := by
  obtain ⟨hend, hdot, hdots⟩ := ht.endsIn_of_read hread
  obtain ⟨name, hname, -⟩ := Option.bind_eq_some_iff.1 hother
  rw [location_of_endsIn hend hdot hdots, location_target hname]
  intro heq
  have hword := String.ofList_inj.1 (List.cons.inj (List.append_inj' heq rfl).2).1
  rw [(hend.extension? hdot hdots).1 hext] at hword
  -- Read backwards, the two names differ in their first character.
  have hreverse := congrArg List.reverse hword
  cases emit with
  | javaScript => simp [Emit.extension, sourceExtension] at hreverse
  | tree => simp [Emit.extension, sourceExtension] at hreverse

/-- No source of a directory is changed. -/
theorem execute_keeps_directory {o : Options} (hinput : o.input = some input)
    (houtput : o.output = none) (ht : s.tree.WellFormed) (hroot : s.tree.isDirectory input = true)
    (hpath : path ∈ sourcePaths input s) {content : ByteArray}
    (hread : s.tree.read path = .ok content) :
    ((execute (m := OnMachine) o).run s).2.tree.read path = .ok content := by
  cases hemit : Emit.ofName? o.emit with
  | none => rwa [execute_unsupported hemit]
  | some emit =>
    by_cases hrun : o.run = true
    · unfold execute
      rw [hemit, hinput]
      dsimp only
      rw [run_bind_ok (isDirectory_run hroot), if_pos rfl, if_pos hrun]
      exact hread
    rw [Bool.not_eq_true] at hrun
    rw [sourcePaths, if_pos hroot] at hpath
    split at hpath
    · next files hfiles =>
      have hsources : (sources (m := OnMachine) input).run s = (.ok files, s) := by
        rw [run_sources] at hfiles ⊢
        exact Prod.ext hfiles rfl
      obtain ⟨names, hnames, rfl⟩ := List.mem_map.1 hpath
      have hext := extension?_of_mem_sources hsources hnames
      rw [execute_run_directory (b := ⟨input, input, emit⟩) hinput (by rw [houtput]; rfl) hemit hrun
        hroot (List.ne_nil_of_mem hnames) hsources]
      have havoids : Records
          (Avoids (· = location (Path.names (join input ("/".intercalate names)))))
          (forM files fun names => compileFile (m := OnJournal)
            (join input ("/".intercalate names))
            (some (withExtension (join input ("/".intercalate names)) emit.extension)) emit false).run
          (forM files (Batch.compileSource ⟨input, input, emit⟩)).run := by
        refine .forM fun other hmem => (Records.compileFile _ _ emit false).imp fun d hd => ?_
        rw [Option.getD_some] at hd
        exact avoids_of_writesOnly hd
          (location_ne_target_of_source ht hread hext (extension?_of_mem_sources hsources hmem) emit).symm
      exact (havoids.spares s).read rfl hread
    · cases hpath

/-- Without an output path nothing that is compiled is overwritten, unless it is a single file that
has the extension of the output. -/
theorem run_keeps_sources {o : Options} (hinput : o.input = some input) (houtput : o.output = none)
    (ht : s.tree.WellFormed)
    (hother : s.tree.isDirectory input = false →
      ∀ emit, Emit.ofName? o.emit = some emit → extension? input ≠ some emit.extension)
    (hpath : path ∈ sourcePaths input s) {content : ByteArray}
    (hread : s.tree.read path = .ok content) :
    (runOn o s).2.tree.read path = .ok content := by
  rw [tree_runOn]
  cases hroot : s.tree.isDirectory input with
  | true => exact execute_keeps_directory hinput houtput ht hroot hpath hread
  | false =>
    rw [sourcePaths, hroot] at hpath
    obtain rfl : path = input := by simpa using hpath
    exact execute_keeps_file hinput houtput ht hread (hother hroot)

theorem run_keeps_sources_oneSource :
    oneSource.read "in/a.elm" = .ok "1".toUTF8 ∧
      (runOn ⟨some "in/a.elm", none, "js", true⟩ { tree := oneSource }).2.tree.read "in/a.elm" =
        .ok "1".toUTF8 := by
  have hread : oneSource.read "in/a.elm" = .ok "1".toUTF8 := by cbv
  have hext : extension? "in/a.elm" = some "elm" := by cbv
  have hfile : oneSource.isDirectory "in/a.elm" = false := isDirectory_of_read hread
  refine ⟨hread, run_keeps_sources (s := { tree := oneSource })
    (o := ⟨some "in/a.elm", none, "js", true⟩) rfl rfl oneSource_wellFormed (fun _ emit _ => ?_) ?_ hread⟩
  · rw [hext]
    cases emit <;> decide
  · rw [sourcePaths, hfile]
    simp

/-- A file that has the extension of the output is replaced by it. -/
theorem run_replaces_source {o : Options} {emit : Emit} {content : ByteArray} {source : String}
    {es : List Expr} (hinput : o.input = some input) (houtput : o.output = none)
    (hemit : Emit.ofName? o.emit = some emit) (ht : s.tree.WellFormed)
    (hread : s.tree.read input = .ok content) (htext : String.fromUTF8? content = some source)
    (hparse : Program.parse source = .ok es) (hext : extension? input = some emit.extension) :
    (runOn o s).2.tree.read input = .ok (emit.render es).toUTF8 := by
  obtain ⟨hend, hdot, hdots⟩ := ht.endsIn_of_read hread
  obtain ⟨t, hwrite, hwritten⟩ := writeOutput_run (writable_of_read hread) (emit.render es)
  have hnew : t.read input = .ok (emit.render es).toUTF8 := hwritten.read (open_of_read hread).2.2
  have hsource : (readSource (m := OnMachine) input).run s = (.ok source, s) := by
    rw [readSource_run hread, decode, htext]
    rfl
  have havoids : Records (Avoids fun _ => True) _ _ :=
    (Records.evaluateIf o.run es).imp fun _ => avoids_of_isPrint
  rw [tree_runOn, execute_run_file hinput hemit (isDirectory_of_read hread), houtput]
  unfold compileFile
  rw [run_bind_ok hsource, Option.getD_none, (hend.withExtension_eq_iff hdot hdots).2 hext]
  have hkept := (havoids.spares { s with tree := t }).read trivial hnew
  have hdeliver : (deliver (m := OnMachine) (some input) (emit.render es)).run s =
      (.ok (), { s with tree := t }) := hwrite
  rw [← compile_run hparse hdeliver o.run] at hkept
  exact hkept

/-- A file in the language of the output. -/
def oneScript : FileTree := ⟨[(["a.js"], .file "1".toUTF8)]⟩

set_option maxRecDepth 4000 in
theorem run_replaces_source_oneScript :
    oneScript.WellFormed ∧ "a.js" ∈ sourcePaths "a.js" { tree := oneScript } ∧
      oneScript.read "a.js" = .ok "1".toUTF8 ∧
      (runOn ⟨some "a.js", none, "js", false⟩ { tree := oneScript }).2.tree.read "a.js" =
        .ok "1;\n".toUTF8 ∧
      "1;\n".toUTF8 ≠ "1".toUTF8 := by
  have ht : oneScript.WellFormed := wellFormed_of_entries (by decide) (by decide)
  have hread : oneScript.read "a.js" = .ok "1".toUTF8 := by cbv
  have htext : String.fromUTF8? "1".toUTF8 = some "1" := by cbv
  have hparse : Program.parse "1" = .ok [.constant (.int 1)] := by cbv
  have hext : extension? "a.js" = some "js" := by cbv
  have hfile : oneScript.isDirectory "a.js" = false := isDirectory_of_read hread
  refine ⟨ht, ?_, hread, ?_, by decide⟩
  · rw [sourcePaths, hfile]
    simp
  · rw [run_replaces_source (s := { tree := oneScript })
      (o := ⟨some "a.js", none, "js", false⟩) rfl rfl rfl ht hread htext hparse hext]
    have hrender : Emit.javaScript.render [.constant (.int 1)] = "1;\n" := by cbv
    exact congrArg (fun text : String => Except.ok text.toUTF8) hrender

end Offside.Command
