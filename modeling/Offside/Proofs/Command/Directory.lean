import Mathlib
import Offside.Proofs.Command.Output
import Offside.Proofs.Command.Walk

namespace Offside.Command

open FileTree Offside.Path

/-- A source file, by the directories it lies in and its name without the extension. -/
structure Source where
  dirs : List String
  stem : String

namespace Source

def named (p : Source) (extension : String) : List String :=
  p.dirs ++ [p.stem ++ "." ++ extension]

def names (p : Source) : List String := p.named sourceExtension

theorem last_mem_named (p : Source) (extension : String) :
    p.stem ++ "." ++ extension ∈ p.named extension :=
  List.mem_append_right _ (List.mem_singleton_self _)

theorem named_injective (extension : String) :
    Function.Injective fun p : Source => p.named extension := by
  intro p q h
  obtain ⟨hdirs, hname⟩ := List.append_inj' h rfl
  obtain ⟨dirs, stem⟩ := p
  obtain ⟨dirs', stem'⟩ := q
  simp_all

end Source

/-- Depth-first order, with the names of each directory in order. -/
inductive Before : List String → List String → Prop where
  | name {a b : String} {as bs : List String} (h : a < b) : Before (a :: as) (b :: bs)
  | later {a : String} {as bs : List String} (h : Before as bs) : Before (a :: as) (a :: bs)

theorem before_of_lt {as bs : List String} (hlt : as < bs) (hnot : ¬ as <+: bs) :
    Before as bs := by
  induction as generalizing bs with
  | nil => exact absurd List.nil_prefix hnot
  | cons a as ih =>
    cases bs with
    | nil => exact absurd hlt (List.not_lt_nil _)
    | cons b bs =>
      rcases List.cons_lt_cons_iff.1 hlt with hfirst | ⟨rfl, hrest⟩
      · exact .name hfirst
      · exact .later (ih hrest fun h => hnot (List.cons_prefix_cons.2 ⟨rfl, h⟩))

theorem Before.ne {as bs : List String} (h : Before as bs) : as ≠ bs := by
  induction h with
  | name hlt =>
    intro heq
    rw [(List.cons.inj heq).1] at hlt
    exact String.lt_irrefl _ hlt
  | later _ ih => exact fun heq => ih (List.cons.inj heq).2

/-- What a directory is compiled to. -/
structure Batch where
  root : String
  output : String
  emit : Emit

namespace Batch

variable (b : Batch) (p : Source)

/-- The place of a source. -/
def source : List String := location (Path.names b.root) ++ p.names

/-- The names that lead to the target of a source. -/
def way : List String := Path.names b.output ++ p.named b.emit.extension

/-- The place of the target of a source. -/
def target : List String := location (b.way p)

/-- There is such a source below the root. A point in front of a name does not begin an extension. -/
def Has (t : FileTree) : Prop :=
  p.stem ≠ "" ∧ ∃ content, t.entry? (b.source p) = some (.file content)

/-- No target is a directory, and none is reached through a file or through a target. -/
structure Clear (t : FileTree) : Prop where
  target {p : Source} : b.Has p t → t.entry? (b.target p) ≠ some .directory
  way {p : Source} : b.Has p t → t.Clear (b.way p)
  apart {p q : Source} : b.Has p t → b.Has q t → ¬ Passes (b.way p) (b.target q)

/-- The source is there and can be compiled. -/
def Compiles (t : FileTree) (out : ByteArray) : Prop :=
  ∃ content, t.entry? (b.source p) = some (.file content) ∧ b.emit.Compiles content out

/-- The targets of some sources have been written, with the directories on their ways, and nothing
else has changed. -/
structure Wrote (t t' : FileTree) (ps : List Source) : Prop where
  file {p : Source} : p ∈ ps → ∃ out, b.Compiles p t out ∧ t'.entry? (b.target p) = some (.file out)
  made {p : Source} {place : List String} : p ∈ ps → Passes (b.way p) place →
    t'.entry? place = some .directory
  kept {place : List String} : (∀ p ∈ ps, place ≠ b.target p ∧ ¬ Passes (b.way p) place) →
    t'.entry? place = t.entry? place

/-- These are all the sources below the root, in depth-first order. -/
structure Walk (t : FileTree) (ps : List Source) : Prop where
  mem_iff (p : Source) : p ∈ ps ↔ b.Has p t
  ordered : ps.Pairwise fun p q => Before p.names q.names

end Batch

variable {s : Machine} {b : Batch} {t : FileTree}

theorem Batch.Walk.nodup {ps : List Source} (h : b.Walk t ps) : ps.Nodup :=
  h.ordered.imp fun hbefore heq => hbefore.ne (congrArg Source.names heq)

theorem isSource_iff {root : String} {entry : WalkEntry}
    (hnames : ∀ n ∈ entry.names, IsEntryName n) (hne : entry.names ≠ []) :
    isSource root entry = true ↔
      entry.isFile = true ∧ ∃ p : Source, p.stem ≠ "" ∧ p.names = entry.names := by
  obtain ⟨names, isFile⟩ := entry
  obtain rfl | ⟨dirs, name, rfl⟩ := List.eq_nil_or_concat names
  · exact absurd rfl hne
  rw [List.concat_eq_append] at hnames
  have hname : IsEntryName name := hnames name (by simp)
  have hext : '.' ∉ sourceExtension.toList := by decide
  rw [isSource, Bool.and_eq_true, decide_eq_true_eq, List.concat_eq_append,
    extension?_join_iff root dirs hname hext]
  refine and_congr_right fun _ => ⟨fun ⟨stem, hstem, hsplit⟩ => ?_, fun ⟨p, hstem, hp⟩ => ?_⟩
  · exact ⟨⟨dirs, stem⟩, hstem, by rw [Source.names, Source.named, hsplit]⟩
  · obtain ⟨-, hlast⟩ := List.append_inj' hp rfl
    exact ⟨p.stem, hstem, (List.cons.inj hlast).1.symm⟩

/-- No file lies below a file. -/
theorem not_prefix_of_files (ht : t.WellFormed) {place as bs : List String} (hne : as ≠ bs)
    {content content' : ByteArray} (has : t.entry? (place ++ as) = some (.file content))
    (hbs : t.entry? (place ++ bs) = some (.file content')) : ¬ as <+: bs := by
  intro ⟨rest, hrest⟩
  have hrestNe : rest ≠ [] := fun hnil => hne (by rw [← hrest, hnil, List.append_nil])
  rw [← hrest, ← List.append_assoc] at hbs
  have hdirectory := ht.directory_of_append hrestNe hbs
  rw [has] at hdirectory
  cases hdirectory

/-- The sources are those files that a walk has met, if it does not fail, and nothing is changed to
find them. -/
theorem run_sources (root : String) (s : Machine) :
    (sources (m := OnMachine) root).run s =
      ((((s.walker s.tree root).mapM id).mapError (Failure.during ("failed to walk " ++ root))).map
        fun entries => (entries.filter (isSource root)).map WalkEntry.names, s) := by
  have hwalk : (ExceptT.lift (Disk.walk root) : Action OnMachine _).run s =
      (.ok (s.walker s.tree root), s) := rfl
  have hentries : (during (m := OnMachine) ("failed to walk " ++ root)
      (ExceptT.mk (pure ((s.walker s.tree root).mapM id)))).run s =
        (((s.walker s.tree root).mapM id).mapError (Failure.during ("failed to walk " ++ root)), s) :=
    rfl
  unfold sources
  rw [run_bind_ok hwalk]
  cases hall : (s.walker s.tree root).mapM id with
  | ok entries =>
    rw [hall] at hentries
    exact run_bind_ok hentries
  | error f =>
    rw [hall] at hentries
    exact run_bind_error hentries

theorem exists_entries {root : String} {met : List (Except Failure WalkEntry)}
    (hwalk : t.IsWalk root met) : ∃ entries : List WalkEntry, met = entries.map .ok := by
  have hrange : met ∈ Set.range (List.map (Except.ok : WalkEntry → Except Failure WalkEntry)) := by
    rw [Set.range_list_map]
    intro r hr
    obtain ⟨_, _, _, rfl⟩ := (hwalk.mem_iff r).1 hr
    exact ⟨_, rfl⟩
  obtain ⟨entries, hmet⟩ := hrange
  exact ⟨entries, hmet.symm⟩

section

variable {entries : List WalkEntry} (ht : t.WellFormed) (hroot : t.isDirectory b.root = true)
  (hwalk : t.IsWalk b.root (entries.map .ok))
include ht hroot hwalk

/-- The files that a walk takes for sources. -/
theorem mem_sources_iff {names : List String} :
    names ∈ (entries.filter (isSource b.root)).map WalkEntry.names ↔
      ∃ p : Source, b.Has p t ∧ p.names = names := by
  have hmem (entry : WalkEntry) : entry ∈ entries ↔
      ∃ below e, t.entry? (location (Path.names b.root) ++ below) = some e ∧
        entry = ⟨below, !e.isDirectory⟩ := by
    rw [← List.mem_map_of_injective fun _ _ => Except.ok.inj, hwalk.mem_iff]
    simp only [Except.ok.injEq]
  have hsource {below : List String} {e : FileEntry}
      (hentry : t.entry? (location (Path.names b.root) ++ below) = some e) (hne : below ≠ []) :
      isSource b.root ⟨below, !e.isDirectory⟩ = true ↔
        (!e.isDirectory) = true ∧ ∃ p : Source, p.stem ≠ "" ∧ p.names = below :=
    isSource_iff (fun n hn => ht.isEntryName hentry n (List.mem_append_right _ hn)) hne
  rw [List.mem_map]
  constructor
  · rintro ⟨entry, hfilter, rfl⟩
    obtain ⟨hentries, hisSource⟩ := List.mem_filter.1 hfilter
    obtain ⟨below, e, hentry, rfl⟩ := (hmem entry).1 hentries
    cases e with
    | directory => simp [isSource, FileEntry.isDirectory] at hisSource
    | file content =>
      have hne : below ≠ [] := by
        rintro rfl
        rw [List.append_nil, (open_of_isDirectory hroot).2] at hentry
        cases hentry
      obtain ⟨-, p, hstem, rfl⟩ := (hsource hentry hne).1 hisSource
      exact ⟨p, ⟨hstem, content, hentry⟩, rfl⟩
  · rintro ⟨p, ⟨hstem, content, hentry⟩, rfl⟩
    have hne : p.names ≠ [] := List.ne_nil_of_mem (p.last_mem_named _)
    have hentries : ⟨p.names, true⟩ ∈ entries := (hmem _).2 ⟨p.names, .file content, hentry, rfl⟩
    exact ⟨_, List.mem_filter.2 ⟨hentries, (hsource hentry hne).2 ⟨rfl, p, hstem, rfl⟩⟩, rfl⟩

end

theorem pairwise_sources {entries : List WalkEntry} (ht : t.WellFormed)
    (hwalk : t.IsWalk b.root (entries.map .ok)) {ps : List Source} (hhas : ∀ p ∈ ps, b.Has p t)
    (hps : ps.map Source.names = (entries.filter (isSource b.root)).map WalkEntry.names) :
    ps.Pairwise fun p q => Before p.names q.names := by
  have hentries : entries.Pairwise fun entry entry' => entry.names < entry'.names :=
    (List.pairwise_map.1 hwalk.ordered).imp fun h => h _ _ rfl rfl
  have hnames : (ps.map Source.names).Pairwise (· < ·) := by
    rw [hps]
    exact List.pairwise_map.2 (hentries.filter _)
  refine (List.pairwise_map.1 hnames).imp_of_mem fun {p q} hp hq hlt => ?_
  obtain ⟨-, content, hcontent⟩ := hhas p hp
  obtain ⟨-, content', hcontent'⟩ := hhas q hq
  exact before_of_lt hlt (not_prefix_of_files ht (ne_of_lt hlt) hcontent hcontent')

/-- A walk that meets everything in order finds all the sources in depth-first order. -/
theorem sources_run (ht : s.tree.WellFormed) (hroot : s.tree.isDirectory b.root = true)
    (hwalk : s.tree.IsWalk b.root (s.walker s.tree b.root)) :
    ∃ ps, b.Walk s.tree ps ∧
      (sources (m := OnMachine) b.root).run s = (.ok (ps.map Source.names), s) := by
  obtain ⟨entries, hmet⟩ := exists_entries hwalk
  rw [hmet] at hwalk
  have hrange : (entries.filter (isSource b.root)).map WalkEntry.names ∈
      Set.range (List.map Source.names) := by
    rw [Set.range_list_map]
    intro names hnames
    obtain ⟨p, -, hp⟩ := (mem_sources_iff ht hroot hwalk).1 hnames
    exact ⟨p, hp⟩
  obtain ⟨ps, hps⟩ := hrange
  have hmem (p : Source) : p ∈ ps ↔ b.Has p s.tree := by
    rw [← List.mem_map_of_injective (Source.named_injective sourceExtension)]
    change p.names ∈ ps.map Source.names ↔ _
    rw [hps, mem_sources_iff ht hroot hwalk]
    exact ⟨fun ⟨q, hq, heq⟩ => Source.named_injective _ heq ▸ hq, fun hp => ⟨p, hp, rfl⟩⟩
  have hall : (entries.map Except.ok).mapM id = (.ok entries : Except Failure _) := by
    rw [List.mapM_map]
    exact (List.mapM_pure (m := Except Failure) (f := id)).trans (by rw [List.map_id]; rfl)
  refine ⟨ps, ⟨hmem, pairwise_sources ht hwalk (fun p => (hmem p).1) hps⟩, ?_⟩
  rw [run_sources, hmet, hall, hps]
  rfl

theorem isEntryName_withExtension {stem ext other : String} (h : IsEntryName (stem ++ "." ++ ext))
    (hstem : stem ≠ "") (hother : other ≠ "") (hslash : '/' ∉ other.toList) :
    IsEntryName (stem ++ "." ++ other) := by
  have hlength : 3 ≤ (stem ++ "." ++ other).length := by
    have hstemPos : 0 < stem.length := by
      rwa [Nat.pos_iff_ne_zero, ne_eq, String.length_eq_zero_iff]
    have hotherPos : 0 < other.length := by
      rwa [Nat.pos_iff_ne_zero, ne_eq, String.length_eq_zero_iff]
    have hdot : ".".length = 1 := rfl
    rw [String.length_append, String.length_append]
    omega
  have hno : '/' ∉ stem.toList := by
    intro hmem
    exact h.no_slash (by simp [hmem])
  refine ⟨fun heq => ?_, fun heq => ?_, fun heq => ?_, by simp [hno, hslash]⟩
  all_goals
    rw [heq] at hlength
    exact absurd hlength (by decide)

namespace Batch

variable {p q : Source}

theorem Has.isEntryName (ht : t.WellFormed) (h : b.Has p t) : ∀ name ∈ p.names, IsEntryName name := by
  obtain ⟨-, content, hentry⟩ := h
  exact fun name hname => ht.isEntryName hentry name (List.mem_append_right _ hname)

theorem Has.isEntryName_named (ht : t.WellFormed) (h : b.Has p t) (emit : Emit) :
    ∀ name ∈ p.named emit.extension, IsEntryName name := by
  intro name hname
  rcases List.mem_append.1 hname with hdir | hlast
  · exact h.isEntryName ht name (List.mem_append_left _ hdir)
  · rw [List.mem_singleton.1 hlast]
    have hsource : IsEntryName (p.stem ++ "." ++ sourceExtension) :=
      h.isEntryName ht _ (p.last_mem_named _)
    cases emit
    · exact isEntryName_withExtension hsource h.1 (by decide) (by decide)
    · exact isEntryName_withExtension hsource h.1 (by decide) (by decide)

theorem Has.target_eq (ht : t.WellFormed) (h : b.Has p t) :
    b.target p = location (Path.names b.output) ++ p.named b.emit.extension :=
  location_append_names _ (h.isEntryName_named ht b.emit)

/-- Different sources have different targets. -/
theorem target_injOn (ht : t.WellFormed) (hp : b.Has p t) (hq : b.Has q t)
    (h : b.target p = b.target q) : p = q := by
  rw [hp.target_eq ht, hq.target_eq ht] at h
  exact Source.named_injective _ (List.append_cancel_left h)

/-- A target does not have the name of a source. -/
theorem target_ne_source (ht : t.WellFormed) (hp : b.Has p t) : b.target p ≠ b.source q := by
  intro h
  rw [hp.target_eq ht, source, Source.names, Source.named, Source.named, ← List.append_assoc,
    ← List.append_assoc] at h
  -- Read backwards, the two names differ in their first character.
  have hname := congrArg (List.reverse ∘ String.toList) (List.cons.inj (List.append_inj' h rfl).2).1
  cases hemit : b.emit with
  | javaScript => simp [hemit, Emit.extension, sourceExtension] at hname
  | tree => simp [hemit, Emit.extension, sourceExtension] at hname

variable {t' t'' : FileTree} {done : List Source} {place : List String} {out : ByteArray}

theorem wrote_nil (b : Batch) (t : FileTree) : b.Wrote t t [] where
  file h := absurd h List.not_mem_nil
  made h := absurd h List.not_mem_nil
  kept _ := rfl

namespace Wrote

/-- A place holds a target, lies in the way of one, or is as it was. -/
theorem cases (h : b.Wrote t t' done) (place : List String) :
    (∃ p ∈ done, b.target p = place) ∨ (∃ p ∈ done, Passes (b.way p) place) ∨
      t'.entry? place = t.entry? place := by
  by_cases htarget : ∃ p ∈ done, b.target p = place
  · exact .inl htarget
  by_cases hway : ∃ p ∈ done, Passes (b.way p) place
  · exact .inr (.inl hway)
  refine .inr (.inr (h.kept fun p hp => ⟨fun heq => ?_, fun hpasses => ?_⟩))
  · exact htarget ⟨p, hp, heq.symm⟩
  · exact hway ⟨p, hp, hpasses⟩

variable (h : b.Wrote t t' done) (hhas : ∀ p ∈ done, b.Has p t) (hclear : b.Clear t)
include h hhas hclear

theorem directory (hplace : t.entry? place = some .directory) :
    t'.entry? place = some .directory := by
  rcases h.cases place with ⟨p, hp, rfl⟩ | ⟨p, hp, hpasses⟩ | hkept
  · exact absurd hplace (hclear.target (hhas p hp))
  · exact h.made hp hpasses
  · rw [hkept, hplace]

/-- No source is overwritten. -/
theorem source (ht : t.WellFormed) (hq : b.Has q t) :
    t'.entry? (b.source q) = t.entry? (b.source q) := by
  obtain ⟨-, content, hentry⟩ := hq
  rcases h.cases (b.source q) with ⟨p, hp, htarget⟩ | ⟨p, hp, hpasses⟩ | hkept
  · exact absurd htarget (target_ne_source ht (hhas p hp))
  · exact absurd hentry (hclear.way (hhas p hp) _ hpasses content)
  · exact hkept

theorem clear_way (hq : b.Has q t) : t'.Clear (b.way q) := by
  intro place hplace content hentry
  rcases h.cases place with ⟨p, hp, rfl⟩ | ⟨p, hp, hpasses⟩ | hkept
  · exact hclear.apart hq (hhas p hp) hplace
  · rw [h.made hp hpasses] at hentry
    cases hentry
  · rw [hkept] at hentry
    exact hclear.way hq place hplace content hentry

theorem target_ne_directory (hq : b.Has q t) : t'.entry? (b.target q) ≠ some .directory := by
  rcases h.cases (b.target q) with ⟨p, hp, htarget⟩ | ⟨p, hp, hpasses⟩ | hkept
  · obtain ⟨out, -, hfile⟩ := h.file hp
    rw [← htarget, hfile]
    simp
  · exact absurd hpasses (hclear.apart (hhas p hp) hq)
  · rw [hkept]
    exact hclear.target hq

/-- One more target. -/
theorem add (ht : t.WellFormed) (hq : b.Has q t) (hnew : q ∉ done) (hout : b.Compiles q t out)
    (hwritten : t'.Written t'' (b.way q) out) : b.Wrote t t'' (done ++ [q]) where
  file {p} hp := by
    rcases List.mem_append.1 hp with hdone | hlast
    · have hne : b.target p ≠ b.target q := fun heq =>
        hnew (target_injOn ht (hhas p hdone) hq heq ▸ hdone)
      obtain ⟨out', hout', hfile⟩ := h.file hdone
      exact ⟨out', hout', (hwritten.kept hne (hclear.apart hq (hhas p hdone))).trans hfile⟩
    · obtain rfl := List.mem_singleton.1 hlast
      exact ⟨out, hout, hwritten.file⟩
  made {p place} hp hpasses := by
    by_cases hnext : Passes (b.way q) place
    · exact hwritten.made hnext
    rcases List.mem_append.1 hp with hdone | hlast
    · -- The new target does not stand in the way of an old one.
      have hne : place ≠ b.target q := fun heq => hclear.apart (hhas p hdone) hq (heq ▸ hpasses)
      exact (hwritten.kept hne hnext).trans (h.made hdone hpasses)
    · obtain rfl := List.mem_singleton.1 hlast
      exact absurd hpasses hnext
  kept {place} hplace := by
    obtain ⟨hne, hnext⟩ := hplace q (by simp)
    exact (hwritten.kept hne hnext).trans (h.kept fun p hp => hplace p (by simp [hp]))

end Wrote

/-- What is done for one source. -/
def compileSource (b : Batch) (names : List String) : Action OnMachine Unit :=
  compileFile (join b.root ("/".intercalate names))
    (some (withExtension (join b.output ("/".intercalate names)) b.emit.extension)) b.emit false

theorem open_below (ht : t.WellFormed) {root dirs : List String} (hopen : t.Open root)
    (hdirectory : t.entry? (location root ++ dirs) = some .directory) : t.Open (root ++ dirs) := by
  induction dirs using List.reverseRecOn with
  | nil => rwa [List.append_nil]
  | append_singleton dirs d ih =>
    rw [← List.append_assoc] at hdirectory ⊢
    have houter := ht.directory_of_append (List.cons_ne_nil d []) hdirectory
    have hnames : ∀ name ∈ dirs, IsEntryName name := fun name hname =>
      ht.isEntryName houter name (List.mem_append_right _ hname)
    rw [open_concat, location_append_names root hnames]
    exact ⟨ih houter, houter⟩

theorem names_join_named (directory : String) {extension : String}
    (hnames : ∀ name ∈ p.named extension, IsEntryName name) :
    Path.names (join directory ("/".intercalate (p.named extension))) =
      Path.names directory ++ p.named extension := by
  have hdirs : ∀ d ∈ p.dirs, IsEntryName d := fun d hd => hnames d (List.mem_append_left _ hd)
  rw [Source.named, names_join directory hdirs (hnames _ (p.last_mem_named _)),
    List.append_assoc]

/-- The path of a target, from that of its source. -/
theorem Has.withExtension_eq (ht : t.WellFormed) (h : b.Has p t) :
    withExtension (join b.output ("/".intercalate p.names)) b.emit.extension =
      join b.output ("/".intercalate (p.named b.emit.extension)) :=
  withExtension_join b.output p.dirs (h.isEntryName ht _ (p.last_mem_named _)) h.1 (by decide)
    b.emit.extension

theorem Has.names_target (ht : t.WellFormed) (h : b.Has p t) :
    Path.names (join b.output ("/".intercalate (p.named b.emit.extension))) = b.way p :=
  names_join_named b.output (h.isEntryName_named ht b.emit)

section

variable (ht : t.WellFormed) (hroot : t.isDirectory b.root = true) (hclear : b.Clear t)
  (hhas : ∀ p ∈ done, b.Has p t) (hwrote : b.Wrote t s.tree done) (hq : b.Has q t)
include ht hroot hclear hhas hwrote hq

/-- A source is read as it was at first. -/
theorem read_source {content : ByteArray} (hcontent : t.entry? (b.source q) = some (.file content)) :
    s.tree.read (join b.root ("/".intercalate q.names)) = .ok content := by
  have hnames : Path.names (join b.root ("/".intercalate q.names)) = Path.names b.root ++ q.names :=
    names_join_named b.root (hq.isEntryName ht)
  have hlocation : location (Path.names b.root ++ q.names) = b.source q :=
    location_append_names _ (hq.isEntryName ht)
  have hdirs : ∀ d ∈ q.dirs, IsEntryName d := fun d hd =>
    hq.isEntryName ht d (List.mem_append_left _ hd)
  have hname : IsEntryName (q.stem ++ "." ++ sourceExtension) :=
    hq.isEntryName ht _ (q.last_mem_named _)
  have hopen : t.Open (Path.names b.root ++ q.names) := by
    have hparent : t.entry? (location (Path.names b.root) ++ q.dirs) = some .directory := by
      rw [source, Source.names, Source.named, ← List.append_assoc] at hcontent
      exact ht.directory_of_append (List.cons_ne_nil _ []) hcontent
    rw [Source.names, Source.named, ← List.append_assoc, open_concat, location_append_names _ hdirs]
    exact ⟨open_below ht (open_of_isDirectory hroot).1 hparent, hparent⟩
  refine read_of_open ?_ ?_ (endsIn_join b.root q.dirs hname).endsWith_slash
  · rw [hnames]
    exact fun place hplace => hwrote.directory hhas hclear (hopen place hplace)
  · rw [hnames, hlocation, hwrote.source hhas hclear ht hq, hcontent]

theorem compileSource_run (hnew : q ∉ done) {out : ByteArray} (hout : b.Compiles q t out) :
    ∃ t', (b.compileSource q.names).run s = (.ok (), { s with tree := t' }) ∧
      b.Wrote t t' (done ++ [q]) := by
  obtain ⟨content, hcontent, hcompiles⟩ := hout
  have hread := read_source ht hroot hclear hhas hwrote hq hcontent
  have hother : IsEntryName (q.stem ++ "." ++ b.emit.extension) :=
    hq.isEntryName_named ht b.emit _ (q.last_mem_named _)
  have hwritable : s.tree.Writable (join b.output ("/".intercalate (q.named b.emit.extension))) := by
    refine ⟨?_, ?_, ?_, (endsIn_join b.output q.dirs hother).endsWith_slash⟩
    all_goals rw [hq.names_target ht]
    · exact hwrote.clear_way hhas hclear hq
    · exact hwrote.target_ne_directory hhas hclear hq
    · exact hclear.apart hq hq
  obtain ⟨text, rfl, hcompile⟩ := compileFile_run hread hcompiles
  obtain ⟨t', hrun, hwritten⟩ := writeOutput_run hwritable text
  rw [hq.names_target ht] at hwritten
  refine ⟨t', ?_, hwrote.add hhas hclear ht hq hnew ⟨content, hcontent, hcompiles⟩ hwritten⟩
  unfold compileSource
  rw [hq.withExtension_eq ht]
  exact hcompile _ hrun

theorem compileSource_run_error (hfails : ¬ ∃ out, b.Compiles q t out) :
    ∃ f, (b.compileSource q.names).run s = (.error f, s) := by
  obtain ⟨content, hcontent⟩ := hq.2
  have hread := read_source ht hroot hclear hhas hwrote hq hcontent
  exact compileFile_run_error hread (fun ⟨out, hout⟩ => hfails ⟨out, content, hcontent, hout⟩) _ _

end

section

variable (ht : t.WellFormed) (hroot : t.isDirectory b.root = true) (hclear : b.Clear t)
include ht hroot hclear

/-- What has been written grows with every source that is compiled. -/
theorem compileSources_run {ps : List Source} (hwrote : b.Wrote t s.tree done)
    (hhas : ∀ p ∈ done ++ ps, b.Has p t) (hnodup : (done ++ ps).Nodup)
    (hcompiles : ∀ p ∈ ps, ∃ out, b.Compiles p t out) :
    ∃ t', (forM (ps.map Source.names) b.compileSource).run s = (.ok (), { s with tree := t' }) ∧
      b.Wrote t t' (done ++ ps) := by
  -- Over the sources that are left; `Wrote` is about those that are done, from the tree at the start.
  induction ps generalizing done s with
  | nil => exact ⟨s.tree, rfl, by rwa [List.append_nil]⟩
  | cons p ps ih =>
    obtain ⟨out, hout⟩ := hcompiles p (by simp)
    have hnew : p ∉ done := fun hmem =>
      (List.nodup_append.1 hnodup).2.2 p hmem p (by simp) rfl
    obtain ⟨t', hrun, hadded⟩ := compileSource_run ht hroot hclear
      (fun q hq => hhas q (by simp [hq])) hwrote (hhas p (by simp)) hnew hout
    have happend : done ++ p :: ps = done ++ [p] ++ ps := by simp
    rw [happend] at hhas hnodup ⊢
    obtain ⟨t'', hrest, hall⟩ := ih (s := { s with tree := t' }) hadded hhas hnodup
      fun q hq => hcompiles q (by simp [hq])
    refine ⟨t'', ?_, hall⟩
    rw [List.map_cons, List.forM_cons, run_bind_ok hrun]
    exact hrest

/-- The first source that cannot be compiled ends it. -/
theorem compileSources_run_error {p : Source} {rest : List Source}
    (hhas : ∀ q ∈ done ++ p :: rest, b.Has q t) (hnodup : (done ++ p :: rest).Nodup)
    (hcompiles : ∀ q ∈ done, ∃ out, b.Compiles q t out)
    (hfails : ¬ ∃ out, b.Compiles p t out) (hs : s.tree = t) :
    ∃ f t', (forM ((done ++ p :: rest).map Source.names) b.compileSource).run s =
      (.error f, { s with tree := t' }) ∧ b.Wrote t t' done := by
  have hhasDone : ∀ q ∈ done, b.Has q t := fun q hq => hhas q (by simp [hq])
  have hnone : b.Wrote t s.tree [] := hs ▸ wrote_nil b t
  obtain ⟨t', hrun, hwrote⟩ := compileSources_run ht hroot hclear hnone hhasDone
    (List.nodup_append.1 hnodup).1 hcompiles
  obtain ⟨f, hfail⟩ := compileSource_run_error ht hroot hclear (s := { s with tree := t' })
    hhasDone hwrote (hhas p (by simp)) hfails
  refine ⟨f, t', ?_, hwrote⟩
  rw [List.map_append, List.forM_append, List.map_cons, List.forM_cons, run_bind_ok hrun,
    run_bind_error hfail]

end

end Batch

/-- A command on a machine: its exit code, and the machine after it. -/
def runOn (o : Options) (s : Machine) : Nat × Machine := run (m := OnMachine) o s

section

variable {o : Options}

theorem runOn_of_ok {s' : Machine} (h : (execute (m := OnMachine) o).run s = (.ok (), s')) :
    runOn o s = (0, s') := by
  unfold runOn run
  show StateT.bind _ _ s = _
  simp only [StateT.bind, h]
  rfl

theorem runOn_of_error {f : Failure} {s' : Machine}
    (h : (execute (m := OnMachine) o).run s = (.error f, s')) :
    runOn o s = (1, s'.print .err f.report) := by
  unfold runOn run
  show StateT.bind _ _ s = _
  simp only [StateT.bind, h]
  rfl

theorem isDirectory_run {path : String} {found : Bool} (h : s.tree.isDirectory path = found) :
    (ExceptT.lift (Disk.isDirectory path) : Action OnMachine Bool).run s = (.ok found, s) := by
  rw [← h]
  rfl

theorem execute_unsupported (hemit : Emit.ofName? o.emit = none) :
    (execute (m := OnMachine) o).run s =
      (.error ⟨"unsupported emit format: " ++ o.emit, []⟩, s) := by
  unfold execute
  rw [hemit]
  rfl

theorem execute_run_file {input : String} {emit : Emit} (hinput : o.input = some input)
    (hemit : Emit.ofName? o.emit = some emit) (hfile : s.tree.isDirectory input = false) :
    (execute (m := OnMachine) o).run s =
      (compileFile (m := OnMachine) input o.output emit o.run).run s := by
  unfold execute
  rw [hemit, hinput]
  exact run_bind_ok (isDirectory_run hfile)

theorem execute_run_directory (hinput : o.input = some b.root)
    (houtput : o.output.getD b.root = b.output) (hemit : Emit.ofName? o.emit = some b.emit)
    (hrun : o.run = false) (hroot : s.tree.isDirectory b.root = true)
    {files : List (List String)} (hfiles : files ≠ [])
    (hsources : (sources (m := OnMachine) b.root).run s = (.ok files, s)) :
    (execute (m := OnMachine) o).run s = (forM files b.compileSource).run s := by
  have hnonempty : files.isEmpty = false := by simpa using hfiles
  unfold execute
  rw [hemit, hinput]
  dsimp only
  rw [run_bind_ok (isDirectory_run hroot), if_pos rfl, hrun]
  simp only [Bool.false_eq_true, if_false]
  unfold compileDirectory
  rw [run_bind_ok hsources, hnonempty]
  simp only [Bool.false_eq_true, if_false]
  rw [houtput]
  rfl

/-- The sources are compiled one after another, each on its own, up to the first one that cannot be
compiled. -/
theorem run_directory (hinput : o.input = some b.root) (houtput : o.output.getD b.root = b.output)
    (hemit : Emit.ofName? o.emit = some b.emit) (hrun : o.run = false)
    (hroot : s.tree.isDirectory b.root = true) (ht : s.tree.WellFormed)
    (hwalk : s.tree.IsWalk b.root (s.walker s.tree b.root)) (hclear : b.Clear s.tree) :
    ∃ ps, b.Walk s.tree ps ∧
      (∀ p ∈ ps, ∀ q ∈ ps, b.target p = b.target q → p = q) ∧
      (ps ≠ [] → (∀ p ∈ ps, ∃ out, b.Compiles p s.tree out) →
        (runOn o s).1 = 0 ∧ b.Wrote s.tree (runOn o s).2.tree ps ∧
          ∀ q ∈ ps, (runOn o s).2.tree.entry? (b.source q) = s.tree.entry? (b.source q)) ∧
      ∀ done p rest, ps = done ++ p :: rest → (∀ q ∈ done, ∃ out, b.Compiles q s.tree out) →
        (¬ ∃ out, b.Compiles p s.tree out) →
        (runOn o s).1 ≠ 0 ∧ b.Wrote s.tree (runOn o s).2.tree done ∧
          ∀ q ∈ ps, (runOn o s).2.tree.entry? (b.source q) = s.tree.entry? (b.source q) := by
  obtain ⟨ps, hps, hsources⟩ := sources_run ht hroot hwalk
  have hhas : ∀ p ∈ ps, b.Has p s.tree := fun p hp => (hps.mem_iff p).1 hp
  have hnodup : ps.Nodup := hps.nodup
  refine ⟨ps, hps, fun p hp q hq => Batch.target_injOn ht (hhas p hp) (hhas q hq),
    fun hne hcompiles => ?_, fun done p rest hsplit hcompiles hfails => ?_⟩
  · have hexecute := execute_run_directory hinput houtput hemit hrun hroot
      (by simpa using hne) hsources
    obtain ⟨t', hloop, hwrote⟩ := Batch.compileSources_run (s := s) ht hroot hclear
      (Batch.wrote_nil b _) hhas hnodup hcompiles
    rw [runOn_of_ok (hexecute.trans hloop)]
    exact ⟨rfl, hwrote, fun q hq => hwrote.source hhas hclear ht (hhas q hq)⟩
  · have hne : ps ≠ [] := by simp [hsplit]
    have hexecute := execute_run_directory hinput houtput hemit hrun hroot
      (by simpa using hne) hsources
    obtain ⟨f, t', hloop, hwrote⟩ := Batch.compileSources_run_error ht hroot hclear (s := s)
      (hsplit ▸ hhas) (hsplit ▸ hnodup) hcompiles hfails rfl
    rw [hsplit] at hexecute
    rw [runOn_of_error (hexecute.trans hloop)]
    have hhasDone : ∀ q ∈ done, b.Has q s.tree := fun q hq => hhas q (by simp [hsplit, hq])
    exact ⟨by simp, hwrote, fun q hq => hwrote.source hhasDone hclear ht (hhas q hq)⟩

end

/-- A directory with one source. -/
def oneSource : FileTree := ⟨[(["in"], .directory), (["in", "a.elm"], .file "1".toUTF8)]⟩

theorem oneSource_wellFormed : oneSource.WellFormed :=
  wellFormed_of_entries (by decide) (by decide)

theorem source_in (output : String) (emit : Emit) (p : Source) :
    (Batch.mk "in" output emit).source p = "in" :: p.names := by
  have hroot : location (Path.names "in") = ["in"] := by cbv
  rw [Batch.source, hroot, List.singleton_append]

theorem has_oneSource_iff {output : String} {emit : Emit} {p : Source} :
    (Batch.mk "in" output emit).Has p oneSource ↔ p = ⟨[], "a"⟩ := by
  rw [Batch.Has, source_in]
  constructor
  · intro ⟨_, content, hentry⟩
    have hmem := (oneSource_wellFormed.entry?_eq_some_iff (List.cons_ne_nil _ _)).1 hentry
    have hnames : p.names = ["a.elm"] ∧ content = "1".toUTF8 := by simpa [oneSource] using hmem
    have ha : Source.names ⟨[], "a"⟩ = ["a.elm"] := by decide
    exact Source.named_injective sourceExtension (hnames.1.trans ha.symm)
  · intro h
    subst h
    exact ⟨by decide, "1".toUTF8, by cbv⟩

/-- A source in the directory can be compiled if its text can be parsed. -/
theorem compiles_in (output : String) (emit : Emit) {t : FileTree} {p : Source} {text : String}
    (hentry : t.entry? ("in" :: p.names) = some (.file text.toUTF8)) {es : List Expr}
    (hparse : Program.parse text = .ok es) :
    ∃ out, (Batch.mk "in" output emit).Compiles p t out := by
  rw [← source_in output emit] at hentry
  exact ⟨_, _, hentry, text, es, fromUTF8?_toUTF8 text, hparse, rfl⟩

set_option maxRecDepth 4000 in
theorem parse_one : Program.parse "1" = .ok [.constant (.int 1)] := by cbv

theorem way_oneSource {output : String} {dirs : List String} (h : Path.names output = dirs) :
    (Batch.mk "in" output .javaScript).way ⟨[], "a"⟩ = dirs ++ ["a.js"] := by
  have ha : Source.named ⟨[], "a"⟩ "js" = ["a.js"] := by decide
  rw [Batch.way, h]
  exact congrArg (dirs ++ ·) ha

theorem run_directory_oneSource :
    ∃ ps, (Batch.mk "in" "out" .javaScript).Walk oneSource ps ∧
      (runOn ⟨some "in", some "out", "js", false⟩ { tree := oneSource }).1 = 0 ∧
      (Batch.mk "in" "out" .javaScript).Wrote oneSource
        (runOn ⟨some "in", some "out", "js", false⟩ { tree := oneSource }).2.tree ps := by
  have hdirs : Path.names "out" = ["out"] := by cbv
  have hway := way_oneSource hdirs
  have htarget : (Batch.mk "in" "out" .javaScript).target ⟨[], "a"⟩ = ["out", "a.js"] := by
    rw [Batch.target, hway]
    cbv
  have hpasses {place : List String} (h : Passes ["out", "a.js"] place) :
      place = [] ∨ place = ["out"] := by
    change Passes (([] ++ ["out"]) ++ ["a.js"]) place at h
    rw [passes_concat, visits_concat, visits_nil] at h
    exact h.imp_right Eq.symm
  have hclear : (Batch.mk "in" "out" .javaScript).Clear oneSource := by
    constructor
    · intro p hp
      have hnone : oneSource.entry? ["out", "a.js"] = none := rfl
      rw [has_oneSource_iff.1 hp, htarget, hnone]
      simp
    · intro p hp
      rw [has_oneSource_iff.1 hp, hway]
      intro place hplace content
      rcases hpasses hplace with rfl | rfl
      · simp
      · have hnone : oneSource.entry? ["out"] = none := rfl
        simp [hnone]
    · intro p q hp hq
      rw [has_oneSource_iff.1 hp, has_oneSource_iff.1 hq, hway, htarget]
      intro h
      rcases hpasses h with heq | heq
      · cases heq
      · cases heq
  obtain ⟨ps, hwalk, -, hall, -⟩ := run_directory (b := Batch.mk "in" "out" .javaScript)
    (o := ⟨some "in", some "out", "js", false⟩) (s := { tree := oneSource })
    rfl rfl rfl rfl (by cbv) oneSource_wellFormed (isWalk_walk oneSource_wellFormed (by cbv)) hclear
  have hmem : ⟨[], "a"⟩ ∈ ps := (hwalk.mem_iff _).2 (has_oneSource_iff.2 rfl)
  obtain ⟨hcode, hwrote, -⟩ := hall (List.ne_nil_of_mem hmem) fun p hp => by
    rw [has_oneSource_iff.1 ((hwalk.mem_iff p).1 hp)]
    exact compiles_in "out" .javaScript (by cbv) parse_one
  exact ⟨ps, hwalk, hcode, hwrote⟩

/-- Two sources, one of which lies in a directory with the name of the target of the other one. -/
def twoSources : FileTree :=
  ⟨[(["in"], .directory), (["in", "a.elm"], .file "1".toUTF8), (["in", "a.js"], .directory),
    (["in", "a.js", "b.elm"], .file "2".toUTF8)]⟩

theorem twoSources_wellFormed : twoSources.WellFormed :=
  wellFormed_of_entries (by decide) (by decide)

theorem has_twoSources_iff {output : String} {emit : Emit} {p : Source} :
    (Batch.mk "in" output emit).Has p twoSources ↔ p = ⟨[], "a"⟩ ∨ p = ⟨["a.js"], "b"⟩ := by
  rw [Batch.Has, source_in]
  constructor
  · intro ⟨_, content, hentry⟩
    have hmem := (twoSources_wellFormed.entry?_eq_some_iff (List.cons_ne_nil _ _)).1 hentry
    have hnames : p.names = ["a.elm"] ∨ p.names = ["a.js", "b.elm"] := by
      have hfiles : p.names = ["a.elm"] ∧ content = "1".toUTF8 ∨
          p.names = ["a.js", "b.elm"] ∧ content = "2".toUTF8 := by
        simpa [twoSources] using hmem
      exact hfiles.imp And.left And.left
    have ha : Source.names ⟨[], "a"⟩ = ["a.elm"] := by decide
    have hb : Source.names ⟨["a.js"], "b"⟩ = ["a.js", "b.elm"] := by decide
    exact hnames.imp (fun h => Source.named_injective sourceExtension (h.trans ha.symm))
      fun h => Source.named_injective sourceExtension (h.trans hb.symm)
  · rintro (rfl | rfl)
    · exact ⟨by decide, "1".toUTF8, by cbv⟩
    · exact ⟨by decide, "2".toUTF8, by cbv⟩

set_option maxRecDepth 4000 in
theorem compiles_twoSources {output : String} {emit : Emit} {p : Source}
    (hp : (Batch.mk "in" output emit).Has p twoSources) :
    ∃ out, (Batch.mk "in" output emit).Compiles p twoSources out := by
  have htwo : Program.parse "2" = .ok [.constant (.int 2)] := by cbv
  rcases has_twoSources_iff.1 hp with rfl | rfl
  · exact compiles_in output emit (by cbv) parse_one
  · exact compiles_in output emit (by cbv) htwo

set_option maxRecDepth 4000 in
/-- The target of one source is a file by the time it would have to be a directory for the next
one. -/
theorem run_directory_through_target :
    twoSources.WellFormed ∧ twoSources.isDirectory "in" = true ∧
      Emit.ofName? "js" = some .javaScript ∧
      twoSources.IsWalk "in" (({ tree := twoSources } : Machine).walker twoSources "in") ∧
      (∃ p, (Batch.mk "in" "out" .javaScript).Has p twoSources) ∧
      (∀ p, (Batch.mk "in" "out" .javaScript).Has p twoSources →
        twoSources.entry? ((Batch.mk "in" "out" .javaScript).target p) ≠ some .directory ∧
        twoSources.Clear ((Batch.mk "in" "out" .javaScript).way p) ∧
        ∃ out, (Batch.mk "in" "out" .javaScript).Compiles p twoSources out) ∧
      (runOn ⟨some "in", some "out", "js", false⟩ { tree := twoSources }).1 = 1 := by
  have hdirectory : twoSources.isDirectory "in" = true := by cbv
  refine ⟨twoSources_wellFormed, hdirectory, rfl, isWalk_walk twoSources_wellFormed hdirectory,
    ⟨_, has_twoSources_iff.2 (.inl rfl)⟩, fun p hp => ?_, by cbv⟩
  have hdirs : Path.names "out" = ["out"] := by cbv
  -- There is nothing yet under the output directory.
  have hnone (rest : List String) : twoSources.entry? ("out" :: rest) = none := by
    simp [twoSources, entry?, List.lookup]
  refine ⟨?_, fun place hplace content => ?_, compiles_twoSources hp⟩
  · rw [hp.target_eq twoSources_wellFormed, hdirs]
    change twoSources.entry? ("out" :: _) ≠ _
    rw [hnone]
    simp
  · obtain ⟨before, name, after, hsplit, rfl⟩ := hplace
    rw [Batch.way, hdirs] at hsplit
    change "out" :: p.named "js" = before ++ name :: after at hsplit
    have hnames : ∀ n ∈ before, IsEntryName n := by
      intro n hn
      have hmem : n ∈ "out" :: p.named "js" := hsplit ▸ List.mem_append_left _ hn
      rcases List.mem_cons.1 hmem with rfl | hmem
      · decide
      · exact hp.isEntryName_named twoSources_wellFormed .javaScript n hmem
    have hlocation : location before = before := location_append_names [] hnames
    rw [hlocation]
    cases before with
    | nil => simp
    | cons first rest =>
      obtain rfl : "out" = first := (List.cons.inj hsplit).1
      rw [hnone]
      simp

end Offside.Command
