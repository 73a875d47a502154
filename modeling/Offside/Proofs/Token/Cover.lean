import Mathlib
import Offside.Proofs.Token.Bytes

namespace Offside

theorem byteLength_append (cs ds : List Char) :
    byteLength (cs ++ ds) = byteLength cs + byteLength ds := by
  rw [← Lexeme.length_bytes, Lexeme.bytes_append, List.length_append, Lexeme.length_bytes,
    Lexeme.length_bytes]

theorem bytes_toList (s : String) :
    Lexeme.bytes s.toList = s.toUTF8.data.toList.map Char.ofUInt8 := by
  have hbytes : s.toUTF8 = (s.toList.flatMap String.utf8EncodeChar).toByteArray := by
    rw [String.toUTF8_eq_toByteArray, ← List.utf8Encode, String.utf8Encode_toList]
  rw [hbytes, List.data_toByteArray, List.toList_toArray, List.map_flatMap]
  rfl

theorem byteLength_toList (s : String) : byteLength s.toList = s.utf8ByteSize := by
  rw [← Lexeme.length_bytes, bytes_toList, List.length_map, Array.length_toList]
  exact String.size_toByteArray

/-- The part of a text between two of its bytes. There is none unless they are boundaries between
characters, in this order. -/
def slice? (s : String) (start stop : Nat) : Option String :=
  if h : start ≤ stop ∧ String.Pos.Raw.IsValid s ⟨start⟩ ∧ String.Pos.Raw.IsValid s ⟨stop⟩ then
    some (String.extract ⟨⟨start⟩, h.2.1⟩ ⟨⟨stop⟩, h.2.2⟩)
  else none

theorem slice?_append (before mid after : String) :
    slice? (before ++ (mid ++ after)) before.utf8ByteSize
      (before.utf8ByteSize + mid.utf8ByteSize) = some mid := by
  have hstart : String.Pos.Raw.IsValid (before ++ (mid ++ after)) ⟨before.utf8ByteSize⟩ :=
    String.Pos.Raw.isValid_iff_exists_append.2 ⟨before, mid ++ after, rfl, rfl⟩
  have hstop : String.Pos.Raw.IsValid (before ++ (mid ++ after))
      ⟨before.utf8ByteSize + mid.utf8ByteSize⟩ := by
    refine String.Pos.Raw.isValid_iff_exists_append.2
      ⟨before ++ mid, after, String.append_assoc.symm, ?_⟩
    rw [String.rawEndPos, String.utf8ByteSize_append]
  have hmid : (before.toByteArray ++ (mid.toByteArray ++ after.toByteArray)).extract
      (before.utf8ByteSize + 0) (before.utf8ByteSize + mid.utf8ByteSize) = mid.toByteArray := by
    rw [ByteArray.extract_append_size_add' String.size_toByteArray.symm]
    exact ByteArray.extract_append_eq_left String.size_toByteArray.symm
  unfold slice?
  rw [dif_pos ⟨Nat.le_add_right _ _, hstart, hstop⟩]
  congr 1
  rw [← String.toByteArray_inj, String.toByteArray_extract, String.toByteArray_append,
    String.toByteArray_append]
  exact hmid

/-- The part of a text that is known to stand between others. -/
theorem slice?_of_toList {s : String} {before mid after : List Char}
    (h : s.toList = before ++ (mid ++ after)) :
    slice? s (byteLength before) (byteLength before + byteLength mid) =
      some (String.ofList mid) := by
  have hs : s = String.ofList before ++ (String.ofList mid ++ String.ofList after) := by
    rw [← String.toList_inj, h]
    simp
  have hlength (cs : List Char) : byteLength cs = (String.ofList cs).utf8ByteSize := by
    rw [← byteLength_toList, String.toList_ofList]
  rw [hlength, hlength, hs]
  exact slice?_append _ _ _

namespace Lexeme

/-- Blanks, line breaks and comments, before what follows them. A comment goes on to the end of its
line, or to where every level of it is closed or the text ends. -/
inductive Filler : (gap rest : List Char) → Prop
  | nil {rest : List Char} : Filler [] rest
  | space {c : Char} {gap rest : List Char} (hc : isBlank c = true ∨ isLineBreak c = true)
      (h : Filler gap rest) : Filler (c :: gap) rest
  | line {cs gap rest : List Char} (hcs : ∀ c ∈ cs, isLineBreak c = false)
      (hend : ∀ c ∈ (gap ++ rest).head?, isLineBreak c = true) (h : Filler gap rest) :
      Filler ('-' :: '-' :: (cs ++ gap)) rest
  | block {cs gap rest : List Char} (hcs : afterComment 1 (cs ++ (gap ++ rest)) = gap ++ rest)
      (h : Filler gap rest) : Filler ('\x7b' :: '-' :: (cs ++ gap)) rest

theorem Filler.append {gap text gap' rest : List Char} (h : Filler gap text)
    (h' : Filler gap' rest) (htext : text = gap' ++ rest) : Filler (gap ++ gap') rest := by
  induction h with
  | nil => exact h'
  | space hc _ ih => exact .space hc (ih htext)
  | line hcs hend _ ih =>
    subst htext
    rw [List.cons_append, List.cons_append, List.append_assoc]
    refine .line hcs ?_ (ih rfl)
    rwa [List.append_assoc]
  | block hcs _ ih =>
    subst htext
    rw [List.cons_append, List.cons_append, List.append_assoc]
    refine .block ?_ (ih rfl)
    rwa [List.append_assoc]

theorem exists_append_afterComment (depth : Nat) (cs : List Char) :
    ∃ comment, cs = comment ++ afterComment depth cs := by
  fun_induction afterComment depth cs with
  | case1 cs => exact ⟨[], rfl⟩
  | case2 depth hdepth => exact ⟨[], rfl⟩
  | case3 depth cs ih =>
    obtain ⟨comment, h⟩ := ih
    exact ⟨'\x7b' :: '-' :: comment, congrArg (fun ds => '\x7b' :: '-' :: ds) h⟩
  | case4 depth cs ih =>
    obtain ⟨comment, h⟩ := ih
    exact ⟨'-' :: '\x7d' :: comment, congrArg (fun ds => '-' :: '\x7d' :: ds) h⟩
  | case5 depth c cs hopen hclose ih =>
    obtain ⟨comment, h⟩ := ih
    exact ⟨c :: comment, congrArg (c :: ·) h⟩

theorem exists_filler_skipBlanks (lines : Bool) (cs : List Char) :
    ∃ gap, cs = gap ++ skipBlanks lines cs ∧ Filler gap (skipBlanks lines cs) := by
  fun_induction skipBlanks lines cs with
  | case1 => exact ⟨[], rfl, .nil⟩
  | case2 rest ih =>
    obtain ⟨gap, hgap, hfiller⟩ := ih
    have hsplit := (List.takeWhile_append_dropWhile (p := fun c => !isLineBreak c) (l := rest)).symm
    refine ⟨'-' :: '-' :: (rest.takeWhile (fun c => !isLineBreak c) ++ gap), ?_, .line ?_ ?_ hfiller⟩
    · rw [List.cons_append, List.cons_append, List.append_assoc, ← hgap, ← hsplit]
    · intro c hc
      simpa using List.all_eq_true.1 List.all_takeWhile c hc
    · rw [← hgap]
      intro c hc
      simpa using ends_dropWhile (fun c => !isLineBreak c) rest c hc
  | case3 rest ih =>
    obtain ⟨gap, hgap, hfiller⟩ := ih
    obtain ⟨comment, hcomment⟩ := exists_append_afterComment 1 rest
    refine ⟨'\x7b' :: '-' :: (comment ++ gap), ?_, .block ?_ hfiller⟩
    · rw [List.cons_append, List.cons_append, List.append_assoc, ← hgap, ← hcomment]
    · rw [← hgap, ← hcomment]
  | case4 c rest hline hblock hgap ih =>
    obtain ⟨gap, hrest, hfiller⟩ := ih
    refine ⟨c :: gap, congrArg (c :: ·) hrest, .space ?_ hfiller⟩
    grind
  | case5 c rest hline hblock hgap => exact ⟨[], rfl, .nil⟩

theorem exists_filler_nextLine (width : Nat) (cs : List Char) :
    ∃ gap, cs = gap ++ (nextLine width cs).2 ∧ Filler gap (nextLine width cs).2 := by
  fun_induction nextLine width cs with
  | case1 width => exact ⟨[], rfl, .nil⟩
  | case2 width c cs hc ih =>
    obtain ⟨gap, hgap, hfiller⟩ := ih
    exact ⟨c :: gap, congrArg (c :: ·) hgap, .space (.inr hc) hfiller⟩
  | case3 width c cs hbreak hc ih =>
    obtain ⟨gap, hgap, hfiller⟩ := ih
    exact ⟨c :: gap, congrArg (c :: ·) hgap, .space (.inl hc) hfiller⟩
  | case4 width c cs hbreak hblank => exact ⟨[], rfl, .nil⟩

/-- How many quotes stand on either side of the string that begins here, if there is one. -/
def margin : List Char → Nat
  | '"' :: '"' :: '"' :: _ => 3
  | '"' :: _ => 1
  | _ => 0

/-- A word of the given kind is spelled with `quotation` on either side of its text. -/
def Quotation (kind : TokenKind) (quotation : List Char) : Prop :=
  if kind = .string then quotation = ['"'] ∨ quotation = quotes else quotation = []

theorem margin_eq_zero {c : Char} (h : c ≠ '"') (cs : List Char) : margin (c :: cs) = 0 := by
  unfold margin
  split
  · next heq => exact absurd (List.cons.inj heq).1 h
  · next heq => exact absurd (List.cons.inj heq).1 h
  · rfl

/-- Only a string begins with a quote. -/
theorem IsWord.margin_eq_zero {spelling text rest : List Char} {kind : TokenKind}
    (h : IsWord spelling kind text rest) (hkind : kind ≠ .string) (tail : List Char) :
    margin (spelling ++ tail) = 0 := by
  have hclass {p : Char → Bool} {c : Char} (hc : p c = true) (hquote : p '"' = false) : c ≠ '"' :=
    fun heq => Bool.false_ne_true (hquote.symm.trans (heq ▸ hc))
  cases h with
  | short htext hrest => exact absurd rfl hkind
  | long htext => exact absurd rfl hkind
  | name hc hcs hends => exact Lexeme.margin_eq_zero (hclass hc rfl) _
  | integer hcs hends hpoint =>
    exact Lexeme.margin_eq_zero (hclass (hcs _ List.mem_cons_self) rfl) _
  | float hcs hds hends => exact Lexeme.margin_eq_zero (hclass (hcs _ List.mem_cons_self) rfl) _
  | delimiter hc hquote => exact Lexeme.margin_eq_zero hquote _
  | symbol hletter hdigit hdelimiter hcs hends =>
    refine Lexeme.margin_eq_zero ?_ _
    rintro rfl
    cases hdelimiter

/-- The spelling of a word is its text in quotes, or its text alone. -/
theorem IsWord.quotation {spelling text rest : List Char} {kind : TokenKind}
    (h : IsWord spelling kind text rest) : ∃ quotation, Quotation kind quotation ∧
      spelling = quotation ++ (text ++ quotation) ∧
      margin (spelling ++ rest) = quotation.length := by
  by_cases hkind : kind = .string
  · cases h with
    | @short _ rest htext hrest =>
      refine ⟨['"'], .inl rfl, rfl, ?_⟩
      rw [List.cons_append, List.append_assoc, List.singleton_append]
      unfold margin
      split
      · next heq => exact absurd (List.cons.inj heq).2 (append_quote_ne htext hrest _)
      · rfl
      · next hno => exact absurd rfl (hno _)
    | long htext => exact ⟨quotes, .inr rfl, List.append_assoc _ _ _, rfl⟩
    | _ => cases hkind
  · refine ⟨[], ?_, ?_, h.margin_eq_zero hkind rest⟩
    · rw [Quotation, if_neg hkind]
    · rw [h.spelling_eq hkind, List.nil_append, List.append_nil]

end Lexeme

/-- The token is spelled like this in the source. -/
def Token.SpelledAs (t : Token) (spelling : List Char) : Prop :=
  ∃ quotation, Lexeme.Quotation t.kind quotation ∧
    spelling = quotation ++ (t.text.toList ++ quotation)

/-- Where a token stands, or a string that is not closed. -/
def place? : Except Error Token → Option Span
  | .ok t => some t.span
  | .error (.unclosedString span) => some span
  | .error _ => none

/-- What is found in a text that begins at the byte `start` of its source, with nothing but filler
before, between and behind it. -/
inductive Covered : (start : Nat) → List Char → List (Except Error Token) → Prop
  | nil {start : Nat} {gap : List Char} (h : Lexeme.Filler gap []) : Covered start gap []
  | cons {start : Nat} {gap word rest : List Char} {event : Except Error Token}
      {events : List (Except Error Token)} (hgap : Lexeme.Filler gap (word ++ rest))
      (hplace : place? event =
        some ⟨start + byteLength gap, start + byteLength gap + byteLength word⟩)
      (hspelled : ∀ t, event = .ok t → t.SpelledAs word)
      (h : Covered (start + byteLength gap + byteLength word) rest events) :
      Covered start (gap ++ (word ++ rest)) (event :: events)

namespace Covered

variable {start : Nat} {cs : List Char} {events : List (Except Error Token)}

/-- Places lie within the text and do not end before they begin. -/
theorem bounds (h : Covered start cs events) : ∀ event ∈ events, ∃ span ∈ place? event,
    start ≤ span.start ∧ span.start ≤ span.stop ∧ span.stop ≤ start + byteLength cs := by
  induction h with
  | nil h => exact fun _ h => nomatch h
  | cons hgap hplace hspelled _ ih =>
    rw [List.forall_mem_cons, byteLength_append, byteLength_append]
    constructor
    · refine ⟨_, hplace, ?_, ?_, ?_⟩ <;> dsimp only <;> omega
    · intro event hevent
      obtain ⟨span, hspan, hstart, hle, hstop⟩ := ih event hevent
      exact ⟨span, hspan, by omega, hle, by omega⟩

/-- No place begins before the ones before it have ended. -/
theorem pairwise (h : Covered start cs events) :
    events.Pairwise fun a b => ∀ x ∈ place? a, ∀ y ∈ place? b, x.stop ≤ y.start := by
  induction h with
  | nil h => exact .nil
  | cons hgap hplace hspelled hrest ih =>
    refine .cons (fun event hevent x hx y hy => ?_) ih
    obtain ⟨span, hspan, hstart, -, -⟩ := hrest.bounds event hevent
    rw [Option.mem_def, hplace] at hx
    cases hx
    cases Option.mem_unique hy hspan
    exact hstart

/-- The text of a token is found at its place. -/
theorem slice? {source : String} {done : List Char} (h : Covered start cs events)
    (hsource : source.toList = done ++ cs) (hstart : start = byteLength done) :
    ∀ t, .ok t ∈ events → ∃ spelling, t.SpelledAs spelling ∧
      Offside.slice? source t.span.start t.span.stop = some (String.ofList spelling) := by
  induction h generalizing done with
  | nil h => exact fun _ h => nomatch h
  | @cons start gap word rest event events hgap hplace hspelled _ ih =>
    subst hstart
    rw [← byteLength_append] at ih hplace
    intro t ht
    rcases List.mem_cons.1 ht with rfl | ht
    · refine ⟨word, hspelled t rfl, ?_⟩
      rw [show t.span = _ from Option.some.inj hplace]
      exact slice?_of_toList (hsource.trans (List.append_assoc _ _ _).symm)
    · have hrest : source.toList = done ++ gap ++ word ++ rest := by
        rw [hsource, List.append_assoc, List.append_assoc]
      exact ih hrest (byteLength_append (done ++ gap) word).symm t ht

end Covered

namespace TokenStream

open Lexeme

/-- What is read up to the end, going on after failures. -/
def events (s : TokenStream) : List (Except Error Token) :=
  match _h : s.next with
  | .ok none _ => []
  | .ok (some token) t => .ok token :: t.events
  | .error e t => .error e :: t.events
termination_by s.size
decreasing_by
  · exact next_some ‹_›
  · exact next_error ‹_›

variable {s t : TokenStream}

theorem events_eq (s : TokenStream) :
    s.events = match s.next with
      | .ok none _ => []
      | .ok (some token) t => .ok token :: t.events
      | .error e t => .error e :: t.events := by
  rw [events]
  split
  · next h => rw [h]
  · next h => rw [h]
  · next h => rw [h]

/-- A step from `text` finds `event` there, behind nothing but filler, and leaves `t`. -/
def Finds (s : TokenStream) (text : List Char) (event : Except Error Token) (t : TokenStream) :
    Prop :=
  ∃ gap word, text = gap ++ (word ++ t.rest) ∧ Filler gap (word ++ t.rest) ∧
    place? event = some (s.span (word ++ t.rest) t.rest) ∧
    (∀ token, event = .ok token → token.SpelledAs word) ∧
    t.length = s.length ∧ t.pending = s.pending

theorem Finds.behind {event : Except Error Token} {gap text : List Char}
    (h : s.Finds text event t) (hgap : Filler gap text) : s.Finds (gap ++ text) event t := by
  obtain ⟨gap', word, rfl, hgap', h⟩ := h
  exact ⟨gap ++ gap', word, (List.append_assoc _ _ _).symm, hgap.append hgap' rfl, h⟩

theorem exists_append_read {c : Char} {cs rest : List Char} (h : Lexeme.read c cs = .error rest) :
    ∃ word, c :: cs = word ++ rest := by
  unfold Lexeme.read at h
  split at h
  · split at h
    · next tail =>
      unfold readLongString at h
      split at h
      · cases h
      · cases h
        exact ⟨_, (List.append_nil _).symm⟩
    · unfold readString at h
      dsimp only at h
      split at h
      · cases h
      · cases h
        refine ⟨c :: cs.takeWhile fun c => c != '"' && !isLineBreak c, ?_⟩
        rw [List.cons_append, List.takeWhile_append_dropWhile]
  · split at h
    · cases h
    split at h
    · cases h
    split at h <;> cases h

theorem read_finds (s : TokenStream) (text : List Char) :
    match s.read text with
    | .ok none _ => Filler text []
    | .ok (some token) t => s.Finds text (.ok token) t
    | .error e t => s.Finds text (.error e) t := by
  fun_induction read s text with
  | case1 s hs => exact .nil
  | case2 s width outer hs =>
    refine ⟨[], [], rfl, .nil, rfl, ?_, rfl, rfl⟩
    rintro token ⟨⟩
    exact ⟨[], rfl, rfl⟩
  | case3 s c cs hc hw ih =>
    obtain ⟨gap, hgap, hline⟩ := exists_filler_nextLine 0 cs
    obtain ⟨gap', hgap', hskip⟩ := exists_filler_skipBlanks false (nextLine 0 cs).2
    have hcs : c :: cs = c :: gap ++ gap' ++ Lexeme.skipBlanks false (nextLine 0 cs).2 := by
      rw [List.append_assoc, ← hgap', List.cons_append, ← hgap]
    have hfiller : Filler (c :: gap ++ gap') (Lexeme.skipBlanks false (nextLine 0 cs).2) :=
      .append (.space (.inr hc) hline) hskip hgap'
    rw [hcs]
    revert ih
    cases read { s with indents := (nextLine 0 cs).1 :: s.indents }
        (Lexeme.skipBlanks false (nextLine 0 cs).2) with
    | ok o t =>
      cases o with
      | none => exact fun ih => hfiller.append ih (List.append_nil _).symm
      | some token => exact fun ih => ih.behind hfiller
    | error e t => exact fun ih => ih.behind hfiller
  | case4 s c cs hc hw =>
    refine ⟨[], [c], rfl, .nil, rfl, ?_, rfl, rfl⟩
    rintro token ⟨⟩
    exact ⟨[], rfl, by rw [String.toList_singleton, List.append_nil, List.nil_append]⟩
  | case5 s c cs hc word hr =>
    obtain ⟨ds, rfl, hword⟩ := isWord_of_read hr
    refine ⟨[], c :: ds, rfl, .nil, rfl, ?_, rfl, rfl⟩
    rintro token ⟨⟩
    obtain ⟨quotation, hquotation, hspelling, -⟩ := hword.quotation
    refine ⟨quotation, hquotation, ?_⟩
    dsimp only
    rw [String.toList_ofList, hspelling]
  | case6 s c cs hc rest hr =>
    obtain ⟨word, hword⟩ := exists_append_read hr
    refine ⟨[], word, hword, .nil, ?_, ?_, rfl, rfl⟩
    · rw [hword]
      rfl
    · intro token htoken
      cases htoken

theorem next_finds {s : TokenStream} (hs : s.pending = []) :
    match s.next with
    | .ok none _ => Filler s.rest []
    | .ok (some token) t => s.Finds s.rest (.ok token) t
    | .error e t => s.Finds s.rest (.error e) t := by
  obtain ⟨gap, hgap, hfiller⟩ := exists_filler_skipBlanks false s.rest
  have hread := read_finds s (Lexeme.skipBlanks false s.rest)
  unfold next
  rw [hs]
  dsimp only
  revert hread
  cases s.read (Lexeme.skipBlanks false s.rest) with
  | ok o t =>
    cases o with
    | none =>
      intro hread
      rw [hgap]
      exact hfiller.append hread (List.append_nil _).symm
    | some token =>
      intro hread
      dsimp only
      rw [hgap]
      exact hread.behind hfiller
  | error e t =>
    intro hread
    dsimp only
    rw [hgap]
    exact hread.behind hfiller

theorem position_eq {rest : List Char} {start : Nat} (h : s.length = start + byteLength rest) :
    s.position rest = start := by
  unfold position
  omega

theorem Finds.covered {event : Except Error Token} {start : Nat} (h : s.Finds s.rest event t)
    (hs : s.pending = []) (hstart : s.length = start + byteLength s.rest)
    (ih : ∀ stop, t.pending = [] → t.length = stop + byteLength t.rest →
      Covered stop t.rest t.events) : Covered start s.rest (event :: t.events) := by
  obtain ⟨gap, word, hrest, hgap, hplace, hspelled, hlength, hpending⟩ := h
  rw [hrest] at hstart ⊢
  rw [byteLength_append, byteLength_append] at hstart
  refine .cons hgap ?_ hspelled (ih _ (hpending.trans hs) ?_)
  · have hstop : s.position t.rest = start + byteLength gap + byteLength word :=
      position_eq (by omega)
    have hfirst : s.position (word ++ t.rest) = start + byteLength gap := by
      refine position_eq ?_
      rw [byteLength_append]
      omega
    rw [hplace, span, hfirst, hstop]
  · rw [hlength, hstart]
    omega

/-- What is read up to the end covers the rest of the source. -/
theorem covered_events (s : TokenStream) {start : Nat} (hs : s.pending = [])
    (hstart : s.length = start + byteLength s.rest) : Covered start s.rest s.events := by
  have hfind := next_finds hs
  fun_induction events s generalizing start with
  | case1 s t hnext =>
    rw [hnext] at hfind
    exact .nil hfind
  | case2 s token t hnext ih =>
    rw [hnext] at hfind
    exact hfind.covered hs hstart fun stop ht hstop => ih ht hstop (next_finds ht)
  | case3 s e t hnext ih =>
    rw [hnext] at hfind
    exact hfind.covered hs hstart fun stop ht hstop => ih ht hstop (next_finds ht)

end TokenStream

/-- A reader that walks over the bytes of a source, each of them as the character with its number. It
takes the texts of its tokens out of the source and keeps their places in 32 bits. -/
structure ByteReader where
  source : String
  rest : List Char
  indents : List Nat := []

namespace ByteReader

open Lexeme

def ofSource (source : String) : ByteReader :=
  { source, rest := source.toUTF8.data.toList.map Char.ofUInt8 }

def index (r : ByteReader) (rest : List Char) : Nat := r.source.utf8ByteSize - rest.length

def span (r : ByteReader) (before after : List Char) : Span :=
  ⟨(UInt32.ofNat (r.index before)).toNat, (UInt32.ofNat (r.index after)).toNat⟩

/-- The token between two places, if its text can be taken out of the source. -/
def token? (r : ByteReader) (kind : TokenKind) (before after : List Char) : Option Token :=
  (slice? r.source (r.index before + margin before) (r.index after - margin before)).map fun text =>
    ⟨kind, text, r.span before after⟩

/-- Reads a token as `TokenStream.read` does; there is no result if a text is cut out of place. -/
def read (r : ByteReader) (text : List Char) :
    Option (EStateM.Result Error ByteReader (Option Token)) :=
  match text with
  | [] =>
    match r.indents with
    | [] => some (.ok none { r with rest := [] })
    | _ :: outer =>
      (r.token? .terminator [] []).map fun token =>
        .ok (some token) { r with rest := [], indents := outer }
  | c :: cs =>
    if isLineBreak c then
      if r.indents.headD 0 < (nextLine 0 cs).1 then
        read { r with indents := (nextLine 0 cs).1 :: r.indents }
          (Lexeme.skipBlanks false (nextLine 0 cs).2)
      else
        (r.token? .terminator (c :: cs) cs).map fun token =>
          .ok (some token) { r with rest := cs, indents := r.indents.tail }
    else
      match Lexeme.read c cs with
      | .ok word =>
        (r.token? word.kind (c :: cs) word.rest).map fun token =>
          .ok (some token) { r with rest := word.rest }
      | .error rest => some (.error (.unclosedString (r.span (c :: cs) rest)) { r with rest })
termination_by text.length
decreasing_by
  have := skipBlanks_length_le false (nextLine 0 cs).2
  have := nextLine_length_le 0 cs
  simp only [List.length_cons]
  omega

def next (r : ByteReader) : Option (EStateM.Result Error ByteReader (Option Token)) :=
  r.read (Lexeme.skipBlanks false r.rest)

/-- What the reader comes across up to the end, going on after failures. Every text that it takes out
of the source is in place. -/
inductive Yields : ByteReader → List (Except Error Token) → Prop
  | done {r r' : ByteReader} (h : r.next = some (.ok none r')) : Yields r []
  | token {r r' : ByteReader} {token : Token} {events : List (Except Error Token)}
      (h : r.next = some (.ok (some token) r')) (hrest : Yields r' events) :
      Yields r (.ok token :: events)
  | failure {r r' : ByteReader} {e : Error} {events : List (Except Error Token)}
      (h : r.next = some (.error e r')) (hrest : Yields r' events) :
      Yields r (.error e :: events)

/-- The reader stands where the stream stands, in the bytes that encode what is left of the source. -/
structure Mirrors (r : ByteReader) (s : TokenStream) : Prop where
  size : r.source.utf8ByteSize < 2 ^ 32
  length : s.length = r.source.utf8ByteSize
  suffix : ∃ done, r.source.toList = done ++ s.rest
  rest : r.rest = bytes s.rest
  indents : r.indents = s.indents
  pending : s.pending = []

/-- A step of the reader gives what a step of the stream gives, and they stand in the same place
then. -/
def Mirrored (result : Option (EStateM.Result Error ByteReader (Option Token))) :
    EStateM.Result Error TokenStream (Option Token) → Prop
  | .ok o s => ∃ r, result = some (.ok o r) ∧ r.Mirrors s
  | .error e s => ∃ r, result = some (.error e r) ∧ r.Mirrors s

variable {r : ByteReader} {s : TokenStream} {done word after : List Char}

theorem margin_bytes (cs : List Char) : margin (bytes cs) = margin cs := by
  have hascii : ¬ Foreign '"' := by decide
  unfold margin
  split
  · next tail heq =>
    obtain ⟨ds, rfl, hds⟩ := (bytes_eq_cons hascii).1 heq
    obtain ⟨es, rfl, hes⟩ := (bytes_eq_cons hascii).1 hds
    obtain ⟨fs, rfl, -⟩ := (bytes_eq_cons hascii).1 hes
    rfl
  · next tail hlong heq =>
    obtain ⟨ds, rfl, rfl⟩ := (bytes_eq_cons hascii).1 heq
    split
    · next es hes =>
      rw [(List.cons.inj hes).2, bytes_ascii hascii, bytes_ascii hascii] at hlong
      exact (hlong _ rfl).elim
    · rfl
    · next hshort => exact absurd rfl (hshort ds)
  · next hlong hshort =>
    split
    · next es =>
      rw [bytes_ascii hascii] at hshort
      exact absurd rfl (hshort _)
    · next es =>
      rw [bytes_ascii hascii] at hshort
      exact absurd rfl (hshort _)
    · rfl

theorem index_bytes (h : r.source.toList = done ++ after) :
    r.index (bytes after) = byteLength done := by
  have hlength : r.source.utf8ByteSize = byteLength done + byteLength after := by
    rw [← byteLength_toList, h, byteLength_append]
  rw [index, length_bytes, hlength, Nat.add_sub_cancel]

namespace Mirrors

variable (h : r.Mirrors s)
include h

theorem position (htext : r.source.toList = done ++ after) :
    s.position after = byteLength done := by
  rw [← index_bytes htext, index, length_bytes, TokenStream.position, h.length]

/-- Places fit into 32 bits. -/
theorem span (htext : r.source.toList = done ++ (word ++ after)) :
    r.span (bytes (word ++ after)) (bytes after) = s.span (word ++ after) after := by
  have hafter : r.source.toList = done ++ word ++ after := htext.trans (List.append_assoc _ _ _).symm
  have hsize := h.size
  rw [← byteLength_toList, htext, byteLength_append, byteLength_append] at hsize
  rw [ByteReader.span, TokenStream.span, index_bytes htext, index_bytes hafter, h.position htext,
    h.position hafter, UInt32.toNat_ofNat', UInt32.toNat_ofNat', byteLength_append,
    Nat.mod_eq_of_lt, Nat.mod_eq_of_lt]
  · omega
  · omega

/-- The text of a word is taken out of the source between its quotes. -/
theorem token? {kind : TokenKind} {text quotation : List Char}
    (htext : r.source.toList = done ++ (word ++ after)) (hquotation : Quotation kind quotation)
    (hword : word = quotation ++ (text ++ quotation))
    (hmargin : margin (word ++ after) = quotation.length) :
    r.token? kind (bytes (word ++ after)) (bytes after) =
      some ⟨kind, String.ofList text, s.span (word ++ after) after⟩ := by
  have hlength : byteLength quotation = quotation.length := by
    unfold Quotation at hquotation
    split at hquotation
    · rcases hquotation with rfl | rfl <;> rfl
    · subst hquotation
      rfl
  have hafter : r.source.toList = done ++ word ++ after := htext.trans (List.append_assoc _ _ _).symm
  have hsource : r.source.toList = done ++ quotation ++ (text ++ (quotation ++ after)) := by
    rw [htext, hword]
    simp
  have hslice := slice?_of_toList hsource
  have hstop : byteLength (done ++ word) - quotation.length =
      byteLength (done ++ quotation) + byteLength text := by
    rw [hword, byteLength_append, byteLength_append, byteLength_append, byteLength_append, hlength]
    omega
  rw [ByteReader.token?, margin_bytes, hmargin, index_bytes htext, index_bytes hafter, hstop,
    ← hlength, ← byteLength_append, hslice, h.span htext]
  rfl

/-- The readers have moved on to the same place. -/
theorem moved (hsuffix : ∃ done, r.source.toList = done ++ after) {indents indents' : List Nat}
    (hindents : indents = indents') :
    Mirrors { r with rest := bytes after, indents := indents }
      { s with rest := after, indents := indents' } where
  size := h.size
  length := h.length
  suffix := hsuffix
  rest := rfl
  indents := hindents
  pending := h.pending

end Mirrors

theorem read_mirrored {text : List Char} (h : r.Mirrors s)
    (htext : r.source.toList = done ++ text) : Mirrored (r.read (bytes text)) (s.read text) := by
  fun_induction TokenStream.read s text generalizing r done with
  | case1 s hs =>
    rw [bytes_nil, read, h.indents, hs]
    exact ⟨_, rfl, h.moved ⟨done, htext⟩ rfl⟩
  | case2 s width outer hs =>
    have htoken : r.token? .terminator (bytes ([] ++ [])) (bytes []) =
        some ⟨.terminator, "", s.span [] []⟩ := h.token? htext rfl rfl rfl
    rw [List.nil_append, bytes_nil] at htoken
    rw [bytes_nil, read, h.indents, hs]
    dsimp only
    rw [htoken]
    exact ⟨_, rfl, h.moved ⟨done, htext⟩ rfl⟩
  | case3 s c cs hc hw ih =>
    obtain ⟨gap, hgap, -⟩ := exists_filler_nextLine 0 cs
    obtain ⟨gap', hgap', -⟩ := exists_filler_skipBlanks false (nextLine 0 cs).2
    have hrest : r.source.toList = done ++ c :: gap ++ gap' ++
        Lexeme.skipBlanks false (nextLine 0 cs).2 := by
      rw [htext, List.append_assoc, ← hgap', List.append_assoc, List.cons_append, ← hgap]
    have hstep := ih (r := { r with indents := (nextLine 0 cs).1 :: r.indents })
      { h with indents := congrArg ((nextLine 0 cs).1 :: ·) h.indents } hrest
    rw [bytes_ascii (not_foreign_of_isGap (.inr hc)), read, if_pos hc, nextLine_bytes,
      skipBlanks_bytes, if_pos (by rwa [h.indents])]
    exact hstep
  | case4 s c cs hc hw =>
    have hquote : c ≠ '"' := by
      rintro rfl
      cases hc
    have htoken : r.token? .terminator (bytes ([c] ++ cs)) (bytes cs) =
        some ⟨.terminator, String.singleton c, s.span (c :: cs) cs⟩ :=
      h.token? htext rfl rfl (margin_eq_zero hquote _)
    have hbytes := bytes_ascii (not_foreign_of_isGap (.inr hc)) cs
    rw [List.singleton_append, hbytes] at htoken
    rw [hbytes, read, if_pos hc, nextLine_bytes, h.indents, if_neg hw, htoken]
    exact ⟨_, rfl, h.moved ⟨done ++ [c], by rw [htext, List.append_assoc]; rfl⟩ rfl⟩
  | case5 s c cs hc word hr =>
    obtain ⟨ds, rfl, hword⟩ := isWord_of_read hr
    obtain ⟨quotation, hquotation, hspelling, hmargin⟩ := hword.quotation
    obtain ⟨b, bs, hbytes, hb, hread⟩ := read_bytes c (ds ++ word.rest)
    have htoken := h.token? htext hquotation hspelling hmargin
    rw [List.cons_append, hbytes] at htoken
    rw [hr] at hread
    rw [hbytes, read, if_neg (by simpa [hb] using hc), hread]
    dsimp only [encodeResult, Word.encode]
    rw [htoken]
    exact ⟨_, rfl, h.moved ⟨done ++ c :: ds, by rw [htext, List.append_assoc]; rfl⟩ h.indents⟩
  | case6 s c cs hc rest hr =>
    obtain ⟨word, hword⟩ := TokenStream.exists_append_read hr
    obtain ⟨b, bs, hbytes, hb, hread⟩ := read_bytes c cs
    rw [hword] at htext
    have hspan := h.span htext
    rw [← hword, hbytes] at hspan
    rw [hr] at hread
    rw [hbytes, read, if_neg (by simpa [hb] using hc), hread]
    dsimp only [encodeResult]
    rw [hspan]
    exact ⟨_, rfl, h.moved ⟨done ++ word, by rw [htext, List.append_assoc]⟩ h.indents⟩

theorem next_mirrored (h : r.Mirrors s) : Mirrored r.next s.next := by
  obtain ⟨done, hdone⟩ := h.suffix
  obtain ⟨gap, hgap, -⟩ := exists_filler_skipBlanks false s.rest
  rw [hgap, ← List.append_assoc] at hdone
  have hread := read_mirrored h hdone
  unfold next TokenStream.next
  rw [h.rest, skipBlanks_bytes, h.pending]
  exact hread

/-- The bytes are read to the end as the characters are. -/
theorem yields_events (h : r.Mirrors s) : r.Yields s.events := by
  fun_induction TokenStream.events s generalizing r with
  | case1 s t hs =>
    have hnext := next_mirrored h
    rw [hs] at hnext
    obtain ⟨r', hr, -⟩ := hnext
    exact .done hr
  | case2 s token t hs ih =>
    have hnext := next_mirrored h
    rw [hs] at hnext
    obtain ⟨r', hr, ht⟩ := hnext
    exact .token hr (ih ht)
  | case3 s e t hs ih =>
    have hnext := next_mirrored h
    rw [hs] at hnext
    obtain ⟨r', hr, ht⟩ := hnext
    exact .failure hr (ih ht)

end ByteReader

/-- Every place that a reader of bytes cuts a source at is a boundary between characters. The places
of what it comes across are in order and lie within the source; the text of a token is that of its
place, but for the quotes of a string; and all that is left out are blanks, line breaks and comments. -/
theorem events_cover {source : String} (hsize : source.utf8ByteSize < 2 ^ 32) :
    let events := (TokenStream.ofSource source).events
    (ByteReader.ofSource source).Yields events ∧
      (∀ event ∈ events, ∃ span ∈ place? event,
        span.start ≤ span.stop ∧ span.stop ≤ source.utf8ByteSize) ∧
      (events.Pairwise fun a b => ∀ x ∈ place? a, ∀ y ∈ place? b, x.stop ≤ y.start) ∧
      (∀ t, .ok t ∈ events → ∃ spelling, t.SpelledAs spelling ∧
        slice? source t.span.start t.span.stop = some (String.ofList spelling)) ∧
      Covered 0 source.toList events := by
  intro events
  have hmirrors : (ByteReader.ofSource source).Mirrors (.ofSource source) :=
    { size := hsize
      length := byteLength_toList source
      suffix := ⟨[], rfl⟩
      rest := (bytes_toList source).symm
      indents := rfl
      pending := rfl }
  have hcovered : Covered 0 source.toList events :=
    (TokenStream.ofSource source).covered_events rfl (Nat.zero_add _).symm
  refine ⟨ByteReader.yields_events hmirrors, fun event hevent => ?_, hcovered.pairwise,
    hcovered.slice? (List.nil_append _).symm rfl, hcovered⟩
  obtain ⟨span, hspan, -, hle, hstop⟩ := hcovered.bounds event hevent
  rw [Nat.zero_add, byteLength_toList] at hstop
  exact ⟨span, hspan, hle, hstop⟩

set_option maxRecDepth 4000 in
theorem events_cover_accents :
    let source := "é \"ü\" -- ä\n  \"日"
    let events : List (Except Error Token) := [.ok ⟨.symbol, "é", ⟨0, 2⟩⟩,
      .ok ⟨.string, "ü", ⟨3, 7⟩⟩, .error (.unclosedString ⟨16, 20⟩),
      .ok ⟨.terminator, "", ⟨20, 20⟩⟩]
    source.utf8ByteSize < 2 ^ 32 ∧ (ByteReader.ofSource source).Yields events ∧
      (∃ spelling, Token.SpelledAs ⟨.string, "ü", ⟨3, 7⟩⟩ spelling ∧
        slice? source 3 7 = some (String.ofList spelling)) ∧
      Covered 0 source.toList events := by
  intro source events
  have hevents : (TokenStream.ofSource source).events = events := by
    have hfirst : (TokenStream.ofSource source).next =
        .ok (some ⟨.symbol, "é", ⟨0, 2⟩⟩) ⟨20, " \"ü\" -- ä\n  \"日".toList, [], []⟩ := by cbv
    have hsecond : TokenStream.next ⟨20, " \"ü\" -- ä\n  \"日".toList, [], []⟩ =
        .ok (some ⟨.string, "ü", ⟨3, 7⟩⟩) ⟨20, " -- ä\n  \"日".toList, [], []⟩ := by cbv
    have hthird : TokenStream.next ⟨20, " -- ä\n  \"日".toList, [], []⟩ =
        .error (.unclosedString ⟨16, 20⟩) ⟨20, [], [2], []⟩ := by cbv
    have hfourth : TokenStream.next ⟨20, [], [2], []⟩ =
        .ok (some ⟨.terminator, "", ⟨20, 20⟩⟩) ⟨20, [], [], []⟩ := by cbv
    have hend : TokenStream.next ⟨20, [], [], []⟩ = .ok none ⟨20, [], [], []⟩ := by cbv
    rw [TokenStream.events_eq, hfirst]
    dsimp only
    rw [TokenStream.events_eq, hsecond]
    dsimp only
    rw [TokenStream.events_eq, hthird]
    dsimp only
    rw [TokenStream.events_eq, hfourth]
    dsimp only
    rw [TokenStream.events_eq, hend]
  have hsize : source.utf8ByteSize < 2 ^ 32 := by decide
  obtain ⟨hyields, -, -, hslice, hcovered⟩ := events_cover hsize
  rw [hevents] at hyields hslice hcovered
  exact ⟨hsize, hyields, hslice ⟨.string, "ü", ⟨3, 7⟩⟩ (by simp [events]), hcovered⟩

end Offside
