import Mathlib
import Offside.Command.Path

namespace Offside.Path

/-- `names` of a list of characters. -/
def namesOf (cs : List Char) : List String := (names.go [] cs).filter (· != "")

theorem names_eq (path : String) : names path = namesOf path.toList := rfl

theorem go_append_slash (word cs ds : List Char) :
    names.go word (cs ++ '/' :: ds) = names.go word cs ++ names.go [] ds := by
  induction cs generalizing word with
  | nil => simp [names.go]
  | cons c cs ih =>
    simp only [List.cons_append, names.go]
    split
    · rw [ih, List.cons_append]
    · exact ih (c :: word)

theorem go_of_notMem_slash {cs : List Char} (h : '/' ∉ cs) (word : List Char) :
    names.go word cs = [String.ofList (word.reverse ++ cs)] := by
  induction cs generalizing word with
  | nil => simp [names.go]
  | cons c cs ih =>
    rw [List.mem_cons, not_or] at h
    rw [names.go, if_neg (Ne.symm h.1), ih h.2]
    simp

@[simp] theorem namesOf_nil : namesOf [] = [] := by simp [namesOf, names.go]

theorem namesOf_append_slash (cs ds : List Char) :
    namesOf (cs ++ '/' :: ds) = namesOf cs ++ namesOf ds := by
  rw [namesOf, go_append_slash, List.filter_append]
  rfl

theorem namesOf_word {cs : List Char} (h : '/' ∉ cs) (hne : cs ≠ []) :
    namesOf cs = [String.ofList cs] := by
  have hword : String.ofList cs ≠ "" := by
    intro heq
    exact hne (by simpa using congrArg String.toList heq)
  simp [namesOf, go_of_notMem_slash h, hword]

/-- Only slashes and steps to the same directory are dropped. -/
theorem namesOf_trimEnd (cs : List Char) :
    ∃ k, namesOf cs.reverse = namesOf (trimEnd cs).reverse ++ List.replicate k "." := by
  fun_induction trimEnd cs with
  | case1 cs ih =>
    obtain ⟨k, hk⟩ := ih
    refine ⟨k, ?_⟩
    rw [List.reverse_cons, namesOf_append_slash, hk]
    simp
  | case2 cs ih =>
    obtain ⟨k, hk⟩ := ih
    refine ⟨k + 1, ?_⟩
    have hdot : namesOf ['.'] = ["."] := namesOf_word (by decide) (by decide)
    have htext : ('.' :: '/' :: cs).reverse = cs.reverse ++ '/' :: ['.'] := by simp
    rw [htext, namesOf_append_slash, hk, hdot, List.append_assoc, List.replicate_succ']
  | case3 cs _ _ => exact ⟨0, by simp⟩

theorem trimEnd_trimEnd (cs : List Char) : trimEnd (trimEnd cs) = trimEnd cs := by
  fun_induction trimEnd cs with
  | case1 cs ih => exact ih
  | case2 cs ih => exact ih
  | case3 cs h₁ h₂ => rw [trimEnd.eq_3 _ h₁ h₂]

theorem length_trimEnd_le (cs : List Char) : (trimEnd cs).length ≤ cs.length := by
  fun_induction trimEnd cs with
  | case1 cs ih => exact Nat.le_succ_of_le ih
  | case2 cs ih => exact Nat.le_succ_of_le (Nat.le_succ_of_le ih)
  | case3 cs _ _ => exact Nat.le_refl _

/-- Nothing is left to be dropped at the end. -/
def IsTrimmed (path : String) : Prop := trimEnd path.toList.reverse = path.toList.reverse

theorem endsWith_slash_iff {path : String} :
    path.endsWith "/" = true ↔ ∃ cs, path.toList = cs ++ ['/'] := by
  have hslash : "/".toList = ['/'] := rfl
  rw [String.endsWith_eq_endsWith_toSlice, String.Slice.endsWith_string_iff, String.copy_toSlice,
    hslash]
  exact ⟨fun ⟨cs, h⟩ => ⟨cs, h.symm⟩, fun ⟨cs, h⟩ => ⟨cs, h.symm⟩⟩

theorem reverse_ne_slash_of_trimEnd {cs rest : List Char} (h : trimEnd cs = cs) :
    cs ≠ '/' :: rest := by
  intro heq
  subst heq
  have hle := length_trimEnd_le rest
  rw [trimEnd] at h
  rw [h] at hle
  exact absurd hle (Nat.not_succ_le_self _)

/-- Where a path does not end in a slash or in a step to the same directory, nothing is dropped. -/
theorem isTrimmed_of_slash {path : String} (hslash : path.endsWith "/" = false)
    (hdot : ∀ before, names path ≠ before ++ ["."]) : IsTrimmed path := by
  refine trimEnd.eq_3 _ (fun cs hcs => ?_) fun cs hcs => ?_
  · rw [List.reverse_eq_cons_iff] at hcs
    rw [endsWith_slash_iff.2 ⟨_, hcs⟩] at hslash
    cases hslash
  · have htext : path.toList = cs.reverse ++ '/' :: ['.'] := by
      rw [List.reverse_eq_cons_iff.1 hcs, List.reverse_cons, List.append_assoc]
      rfl
    have hword : namesOf ['.'] = ["."] := namesOf_word (by decide) (by decide)
    refine hdot (namesOf cs.reverse) ?_
    rw [names_eq, htext, namesOf_append_slash, hword]

/-- The end of a path, written as what stands before the last name and that name. -/
structure EndsIn (path : String) (before word : List Char) : Prop where
  text : path.toList = before ++ word
  ne_nil : word ≠ []
  no_slash : '/' ∉ word
  slash : before = [] ∨ ∃ cs, before = cs ++ ['/']

theorem dropWhile_ne_slash (cs : List Char) :
    cs.dropWhile (· != '/') = [] ∨ ∃ rest, cs.dropWhile (· != '/') = '/' :: rest := by
  induction cs with
  | nil => exact .inl rfl
  | cons c cs ih =>
    by_cases hc : c = '/'
    · exact .inr ⟨cs, by simp [hc]⟩
    · simpa [hc] using ih

theorem notMem_takeWhile_ne_slash (cs : List Char) : '/' ∉ cs.takeWhile (· != '/') := by
  intro h
  have hslash := List.mem_takeWhile_imp h
  simp at hslash

theorem IsTrimmed.endsIn {path : String} (h : IsTrimmed path) (hne : path ≠ "") :
    EndsIn path (split path).1 (split path).2 := by
  have hsplit : split path = ((path.toList.reverse.dropWhile (· != '/')).reverse,
      (path.toList.reverse.takeWhile (· != '/')).reverse) := by
    rw [split, h]
  rw [hsplit]
  refine ⟨?_, ?_, ?_, ?_⟩
  · rw [← List.reverse_append, List.takeWhile_append_dropWhile, List.reverse_reverse]
  · intro hnil
    rw [List.reverse_eq_nil_iff] at hnil
    cases hcs : path.toList.reverse with
    | nil => exact hne (by simpa using hcs)
    | cons c cs =>
      have hc : c ≠ '/' := fun hc => reverse_ne_slash_of_trimEnd h (hc ▸ hcs)
      simp [hcs, hc] at hnil
  · simpa using notMem_takeWhile_ne_slash path.toList.reverse
  · rcases dropWhile_ne_slash path.toList.reverse with hnil | ⟨rest, hrest⟩
    · simp [hnil]
    · exact .inr ⟨rest.reverse, by simp [hrest]⟩

/-- A parent is nothing, the outermost directory, or trimmed. -/
theorem parent_cases (path : String) :
    parent path = "" ∨ parent path = "/" ∨ IsTrimmed (parent path) := by
  unfold parent
  split
  · exact .inl rfl
  · next before _ =>
    split
    · exact .inr (.inl rfl)
    · next cs hcs =>
      refine .inr (.inr ?_)
      rw [IsTrimmed, String.toList_ofList, List.reverse_reverse]
      exact trimEnd_trimEnd _

theorem names_parent (path : String) :
    ∃ k, namesOf (split path).1 = names (parent path) ++ List.replicate k "." := by
  unfold parent
  split
  · next h =>
    rw [List.reverse_eq_nil_iff] at h
    exact ⟨0, by simp [h, names_eq]⟩
  · obtain ⟨k, hk⟩ := namesOf_trimEnd (split path).1.reverse
    rw [List.reverse_reverse] at hk
    refine ⟨k, ?_⟩
    split
    · next hnil =>
      have hslash : names "/" = [] := by
        rw [names_eq]
        exact (namesOf_append_slash [] []).trans (by simp)
      rw [hk, hnil, hslash]
      simp
    · rw [hk, names_eq, String.toList_ofList]

theorem EndsIn.names_eq {path : String} {before word : List Char} (h : EndsIn path before word) :
    names path = namesOf before ++ [String.ofList word] := by
  rw [Path.names_eq, h.text]
  rcases h.slash with rfl | ⟨cs, rfl⟩
  · simp [namesOf_word h.no_slash h.ne_nil]
  · rw [List.append_assoc, List.singleton_append, namesOf_append_slash, namesOf_append_slash,
      namesOf_word h.no_slash h.ne_nil]
    simp

/-- Up to steps to the same directory, a path goes one name further than its parent. -/
theorem names_eq_parent {path : String} (h : IsTrimmed path) (hne : path ≠ "") :
    ∃ k name, names path = names (parent path) ++ List.replicate k "." ++ [name] := by
  obtain ⟨k, hk⟩ := names_parent path
  exact ⟨k, _, by rw [(h.endsIn hne).names_eq, hk]⟩

theorem length_parent_lt {path : String} (hne : path ≠ "") : (parent path).length < path.length := by
  have hpos : 0 < path.length := by
    rw [← String.length_toList, List.length_pos_iff]
    exact fun hnil => hne (by simpa using hnil)
  have hle : (trimEnd path.toList.reverse).length ≤ path.length := by
    have htrim := length_trimEnd_le path.toList.reverse
    rwa [List.length_reverse, String.length_toList] at htrim
  have htrimmed := trimEnd_trimEnd path.toList.reverse
  generalize hcs : trimEnd path.toList.reverse = cs at hle htrimmed
  have hbefore : (split path).1.reverse = cs.dropWhile (· != '/') := by
    rw [split, hcs, List.reverse_reverse]
  have hdivide := List.takeWhile_append_dropWhile (p := (· != '/')) (l := cs)
  unfold parent
  rw [hbefore]
  rcases dropWhile_ne_slash cs with hnil | ⟨rest, hrest⟩
  · rw [hnil]
    exact hpos
  · rw [hrest] at hdivide ⊢
    have hword : cs.takeWhile (· != '/') ≠ [] := by
      intro hword
      rw [hword] at hdivide
      exact reverse_ne_slash_of_trimEnd htrimmed hdivide.symm
    have hwordPos := List.length_pos_iff.2 hword
    have hlength := congrArg List.length hdivide
    rw [List.length_append, List.length_cons] at hlength
    dsimp only
    split
    · show 1 < path.length
      omega
    · have hrestLe := length_trimEnd_le rest
      rw [← String.length_toList, String.toList_ofList, List.length_reverse, trimEnd]
      omega

/-- A name that a directory can list. -/
structure IsEntryName (name : String) : Prop where
  ne_empty : name ≠ ""
  ne_dot : name ≠ "."
  ne_dots : name ≠ ".."
  no_slash : '/' ∉ name.toList

instance (name : String) : Decidable (IsEntryName name) :=
  decidable_of_iff (name ≠ "" ∧ name ≠ "." ∧ name ≠ ".." ∧ '/' ∉ name.toList)
    ⟨fun ⟨h, h₁, h₂, h₃⟩ => ⟨h, h₁, h₂, h₃⟩, fun ⟨h, h₁, h₂, h₃⟩ => ⟨h, h₁, h₂, h₃⟩⟩

/-- What a path from a directory through others says before its last name. -/
def leading (directory : String) (dirs : List String) : List Char :=
  directory.toList ++ (if directory = "" || directory.endsWith "/" then [] else ['/']) ++
    dirs.flatMap fun d => d.toList ++ ['/']

theorem toList_intercalate_names (dirs : List String) (name : String) :
    ("/".intercalate (dirs ++ [name])).toList =
      dirs.flatMap (fun d => d.toList ++ ['/']) ++ name.toList := by
  have hslash : "/".toList = ['/'] := rfl
  rw [String.toList_intercalate, hslash]
  induction dirs with
  | nil => simp
  | cons d dirs ih =>
    have hnext : ∃ e es, (dirs ++ [name]).map String.toList = e :: es := by
      cases dirs with
      | nil => exact ⟨_, _, rfl⟩
      | cons e es => exact ⟨_, _, rfl⟩
    obtain ⟨e, es, hes⟩ := hnext
    rw [hes] at ih
    rw [List.cons_append, List.map_cons, hes, List.intercalate_cons_cons, ih]
    simp

theorem toList_join (directory : String) (dirs : List String) (name : String) :
    (join directory ("/".intercalate (dirs ++ [name]))).toList =
      leading directory dirs ++ name.toList := by
  have hslash : "/".toList = ['/'] := rfl
  unfold join leading
  split
  · rw [String.toList_append, toList_intercalate_names]
    simp
  · rw [String.toList_append, String.toList_append, toList_intercalate_names, hslash]
    simp

theorem leading_slash (directory : String) (dirs : List String) :
    leading directory dirs = [] ∨ ∃ cs, leading directory dirs = cs ++ ['/'] := by
  unfold leading
  rcases List.eq_nil_or_concat dirs with rfl | ⟨ds, d, rfl⟩
  · split
    · next h =>
      rw [Bool.or_eq_true, decide_eq_true_eq, endsWith_slash_iff] at h
      rcases h with rfl | ⟨cs, hcs⟩
      · exact .inl rfl
      · exact .inr ⟨cs, by simp [hcs]⟩
    · exact .inr ⟨directory.toList, by simp⟩
  · refine .inr ⟨directory.toList ++ (if directory = "" || directory.endsWith "/" then [] else ['/'])
      ++ (ds.flatMap fun d => d.toList ++ ['/']) ++ d.toList, ?_⟩
    rw [List.concat_eq_append, List.flatMap_append, List.flatMap_singleton]
    simp only [List.append_assoc]

theorem namesOf_flatMap {dirs : List String} (h : ∀ d ∈ dirs, IsEntryName d) :
    namesOf (dirs.flatMap fun d => d.toList ++ ['/']) = dirs := by
  induction dirs with
  | nil => simp
  | cons d dirs ih =>
    rw [List.forall_mem_cons] at h
    have hne : d.toList ≠ [] := fun hnil => h.1.ne_empty (by simpa using hnil)
    rw [List.flatMap_cons, List.append_assoc, List.singleton_append, namesOf_append_slash,
      namesOf_word h.1.no_slash hne, ih h.2, String.ofList_toList, List.singleton_append]

theorem namesOf_leading (directory : String) {dirs : List String} (h : ∀ d ∈ dirs, IsEntryName d) :
    namesOf (leading directory dirs) = names directory ++ dirs := by
  unfold leading
  rw [List.append_assoc]
  split
  · next hend =>
    rw [Bool.or_eq_true, decide_eq_true_eq, endsWith_slash_iff] at hend
    rcases hend with rfl | ⟨cs, hcs⟩
    · simp [namesOf_flatMap h, names_eq]
    · rw [names_eq, hcs, List.nil_append, List.append_assoc, List.singleton_append,
        namesOf_append_slash, namesOf_flatMap h, namesOf_append_slash]
      simp
  · rw [List.singleton_append, namesOf_append_slash, namesOf_flatMap h, names_eq]

theorem endsIn_join (directory : String) (dirs : List String) {name : String}
    (hname : IsEntryName name) :
    EndsIn (join directory ("/".intercalate (dirs ++ [name]))) (leading directory dirs)
      name.toList where
  text := toList_join directory dirs name
  ne_nil hnil := hname.ne_empty (by simpa using hnil)
  no_slash := hname.no_slash
  slash := leading_slash directory dirs

theorem names_join (directory : String) {dirs : List String} {name : String}
    (hdirs : ∀ d ∈ dirs, IsEntryName d) (hname : IsEntryName name) :
    names (join directory ("/".intercalate (dirs ++ [name]))) =
      names directory ++ dirs ++ [name] := by
  rw [(endsIn_join directory dirs hname).names_eq, namesOf_leading directory hdirs,
    String.ofList_toList]

/-- A path to an entry of a directory says nothing that could be dropped. -/
theorem EndsIn.isTrimmed {path : String} {before word : List Char} (h : EndsIn path before word)
    (hdot : word ≠ ['.']) : IsTrimmed path := by
  have hslash : '/' ∉ word.reverse := by simpa using h.no_slash
  rw [IsTrimmed, h.text, List.reverse_append]
  cases hword : word.reverse with
  | nil => exact absurd (by simpa using hword) h.ne_nil
  | cons c cs =>
    rw [hword, List.mem_cons, not_or] at hslash
    refine trimEnd.eq_3 _ (fun rest heq => ?_) fun rest heq => ?_
    · exact hslash.1 (List.cons.inj heq).1.symm
    · obtain ⟨rfl, hrest⟩ := List.cons.inj heq
      cases cs with
      | nil => exact hdot (by simpa using congrArg List.reverse hword)
      | cons d ds => exact hslash.2 (by simp [(List.cons.inj hrest).1])

theorem EndsIn.split_eq {path : String} {before word : List Char} (h : EndsIn path before word)
    (hdot : word ≠ ['.']) : split path = (before, word) := by
  have htrimmed : trimEnd path.toList.reverse = path.toList.reverse := h.isTrimmed hdot
  have hword : ∀ c ∈ word.reverse, (c != '/') = true := by
    intro c hc
    have hne : c ≠ '/' := fun heq => h.no_slash (heq ▸ List.mem_reverse.1 hc)
    simpa using hne
  have hbefore : before.reverse = [] ∨ ∃ cs, before.reverse = '/' :: cs := by
    rcases h.slash with rfl | ⟨cs, rfl⟩
    · exact .inl rfl
    · exact .inr ⟨cs.reverse, by simp⟩
  rw [split, htrimmed, h.text, List.reverse_append, List.takeWhile_append_of_pos hword,
    List.dropWhile_append_of_pos hword]
  rcases hbefore with hnil | ⟨cs, hcs⟩
  · simp [List.reverse_eq_nil_iff.1 hnil]
  · simp [hcs, ← List.reverse_eq_iff.1 hcs]

theorem EndsIn.endsWith_slash {path : String} {before word : List Char}
    (h : EndsIn path before word) : path.endsWith "/" = false := by
  rw [← Bool.not_eq_true, endsWith_slash_iff, h.text]
  intro ⟨cs, hcs⟩
  rcases List.eq_nil_or_concat word with hnil | ⟨ws, c, hword⟩
  · exact h.ne_nil hnil
  · rw [hword, List.concat_eq_append, ← List.append_assoc] at hcs
    have hlast : [c] = ['/'] := (List.append_inj' hcs rfl).2
    refine h.no_slash ?_
    rw [hword, List.concat_eq_append, hlast]
    simp

theorem splitName_append {stem ext : List Char} (hstem : stem ≠ []) (hext : '.' ∉ ext) :
    splitName (stem ++ '.' :: ext) = (stem, some ext) := by
  have hno : ∀ c ∈ ext.reverse, (c != '.') = true := by
    intro c hc
    have hne : c ≠ '.' := fun heq => hext (heq ▸ List.mem_reverse.1 hc)
    simpa using hne
  have hreverse : (stem ++ '.' :: ext).reverse = ext.reverse ++ '.' :: stem.reverse := by simp
  have hdrop : (stem ++ '.' :: ext).reverse.dropWhile (· != '.') = '.' :: stem.reverse := by
    rw [hreverse, List.dropWhile_append_of_pos hno]
    simp
  have htake : (stem ++ '.' :: ext).reverse.takeWhile (· != '.') = ext.reverse := by
    rw [hreverse, List.takeWhile_append_of_pos hno]
    simp
  unfold splitName
  rw [hdrop, htake]
  cases hs : stem.reverse with
  | nil => exact absurd (by simpa using hs) hstem
  | cons c before =>
    have hback : (c :: before).reverse = stem := by rw [← hs, List.reverse_reverse]
    simp [hback]

theorem splitName_of_some {name ext : List Char} (h : (splitName name).2 = some ext) :
    (splitName name).1 ≠ [] ∧ name = (splitName name).1 ++ '.' :: ext := by
  unfold splitName at h ⊢
  split at h
  · next c before hdrop =>
    obtain rfl := Option.some.inj h
    refine ⟨by simp, ?_⟩
    have hdivide := List.takeWhile_append_dropWhile (p := (· != '.')) (l := name.reverse)
    rw [hdrop] at hdivide
    have hname := congrArg List.reverse hdivide
    rw [List.reverse_append, List.reverse_cons, List.reverse_reverse, List.append_assoc,
      List.singleton_append] at hname
    exact hname.symm
  · cases h

theorem splitName_of_none {name : List Char} (h : (splitName name).2 = none) :
    (splitName name).1 = name := by
  unfold splitName at h ⊢
  split at h
  · cases h
  · rfl

theorem splitName_fst_subset (name : List Char) : (splitName name).1 ⊆ name := by
  cases hsplit : (splitName name).2 with
  | none => rw [splitName_of_none hsplit]; exact List.Subset.refl name
  | some ext =>
    intro c hc
    rw [(splitName_of_some hsplit).2]
    exact List.mem_append_left _ hc

/-- A name is its own stem with an extension just when it has this extension. -/
theorem eq_splitName_append_iff {name ext : List Char} :
    name = (splitName name).1 ++ '.' :: ext ↔ (splitName name).2 = some ext := by
  refine ⟨fun h => ?_, fun h => (splitName_of_some h).2⟩
  cases hsplit : (splitName name).2 with
  | none =>
    rw [splitName_of_none hsplit] at h
    have hlength := congrArg List.length h
    rw [List.length_append, List.length_cons] at hlength
    omega
  | some other =>
    have hext := List.append_cancel_left ((splitName_of_some hsplit).2.symm.trans h)
    rw [(List.cons.inj hext).2]

theorem EndsIn.fileName? {path : String} {before word : List Char} (h : EndsIn path before word)
    (hdot : word ≠ ['.']) (hdots : word ≠ ['.', '.']) : fileName? path = some word := by
  unfold Path.fileName?
  rw [h.split_eq hdot]
  dsimp only
  split
  · exact absurd rfl h.ne_nil
  · exact absurd rfl hdot
  · exact absurd rfl hdots
  · rfl

theorem IsEntryName.toList_ne {name : String} (h : IsEntryName name) :
    name.toList ≠ ['.'] ∧ name.toList ≠ ['.', '.'] :=
  ⟨fun heq => h.ne_dot (String.toList_inj.1 heq), fun heq => h.ne_dots (String.toList_inj.1 heq)⟩

/-- A name consists of a stem and an extension. -/
theorem extension?_join_iff (directory : String) (dirs : List String) {name ext : String}
    (hname : IsEntryName name) (hext : '.' ∉ ext.toList) :
    extension? (join directory ("/".intercalate (dirs ++ [name]))) = some ext ↔
      ∃ stem, stem ≠ "" ∧ name = stem ++ "." ++ ext := by
  have hend := endsIn_join directory dirs hname
  unfold extension?
  rw [hend.fileName? hname.toList_ne.1 hname.toList_ne.2, Option.bind_some]
  constructor
  · intro h
    obtain ⟨cs, hcs, rfl⟩ := Option.map_eq_some_iff.1 h
    obtain ⟨hstem, htext⟩ := splitName_of_some hcs
    refine ⟨String.ofList (splitName name.toList).1, ?_, ?_⟩
    · intro hnil
      exact hstem (by simpa using congrArg String.toList hnil)
    · rw [← String.toList_inj, String.toList_append, String.toList_append, String.toList_ofList,
        String.toList_ofList]
      simpa using htext
  · intro ⟨stem, hstem, hsplit⟩
    have hne : stem.toList ≠ [] := fun hnil => hstem (by simpa using hnil)
    have htext : name.toList = stem.toList ++ '.' :: ext.toList := by
      rw [hsplit]
      simp
    rw [htext, splitName_append hne hext]
    simp

theorem split_of_fileName? {path : String} {name : List Char} (h : fileName? path = some name) :
    (split path).2 = name := by
  unfold fileName? at h
  split at h
  · cases h
  · cases h
  · cases h
  · exact Option.some.inj h

/-- What ends a path that has been given an extension. -/
theorem endsIn_withExtension {path : String} {name : List Char} (h : fileName? path = some name)
    {ext : String} (hext : '/' ∉ ext.toList) :
    EndsIn (withExtension path ext) (split path).1 ((splitName name).1 ++ '.' :: ext.toList) where
  text := by
    rw [withExtension, h]
    simp
  ne_nil := by simp
  no_slash := by
    have hname : '/' ∉ name := by
      rw [← split_of_fileName? h]
      simpa [split] using notMem_takeWhile_ne_slash (trimEnd path.toList.reverse)
    have hstem : '/' ∉ (splitName name).1 := fun hmem => hname (splitName_fst_subset name hmem)
    simp [hstem, hext]
  slash := by
    rcases dropWhile_ne_slash (trimEnd path.toList.reverse) with hnil | ⟨rest, hrest⟩
    · exact .inl (by simp [split, hnil])
    · exact .inr ⟨rest.reverse, by simp [split, hrest]⟩

theorem EndsIn.toList_withExtension {path : String} {before word : List Char}
    (h : EndsIn path before word) (hdot : word ≠ ['.']) (hdots : word ≠ ['.', '.']) (ext : String) :
    (withExtension path ext).toList = before ++ ((splitName word).1 ++ '.' :: ext.toList) := by
  unfold Path.withExtension
  rw [h.fileName? hdot hdots]
  dsimp only
  rw [h.split_eq hdot]
  simp

theorem EndsIn.extension? {path : String} {before word : List Char} (h : EndsIn path before word)
    (hdot : word ≠ ['.']) (hdots : word ≠ ['.', '.']) {ext : String} :
    extension? path = some ext ↔ word = (splitName word).1 ++ '.' :: ext.toList := by
  rw [eq_splitName_append_iff, Path.extension?, h.fileName? hdot hdots, Option.bind_some,
    Option.map_eq_some_iff]
  constructor
  · rintro ⟨cs, hcs, rfl⟩
    rw [hcs, String.toList_ofList]
  · intro hcs
    exact ⟨_, hcs, String.ofList_toList⟩

theorem EndsIn.withExtension_eq_iff {path : String} {before word : List Char}
    (h : EndsIn path before word) (hdot : word ≠ ['.']) (hdots : word ≠ ['.', '.']) {ext : String} :
    Path.withExtension path ext = path ↔ Path.extension? path = some ext := by
  rw [h.extension? hdot hdots, ← String.toList_inj, h.toList_withExtension hdot hdots, h.text,
    List.append_cancel_left_eq, eq_comm]

/-- Only the extension of the last name changes. -/
theorem withExtension_join (directory : String) (dirs : List String) {stem ext : String}
    (hname : IsEntryName (stem ++ "." ++ ext)) (hstem : stem ≠ "") (hext : '.' ∉ ext.toList)
    (other : String) :
    withExtension (join directory ("/".intercalate (dirs ++ [stem ++ "." ++ ext]))) other =
      join directory ("/".intercalate (dirs ++ [stem ++ "." ++ other])) := by
  have hend := endsIn_join directory dirs hname
  have hne : stem.toList ≠ [] := fun hnil => hstem (by simpa using hnil)
  have htext : (stem ++ "." ++ ext).toList = stem.toList ++ '.' :: ext.toList := by simp
  rw [← String.toList_inj, hend.toList_withExtension hname.toList_ne.1 hname.toList_ne.2, htext,
    splitName_append hne hext, toList_join]
  simp

end Offside.Path
