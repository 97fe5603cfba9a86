import FourFunction.Proofs.ExpressionLanguage

/-!
# A scanner asked again and again

A scanner can be asked for the next token or for all of them in any order, also after an objection.
What a call for the next token can do is listed once (`Scanner.Reads`), and a call for all tokens
ends with such a call (`Scanner.exists_last_next`).
-/

namespace FourFunction

namespace Scanner

/-! ### Calls -/

inductive Call where
  | next
  | all
deriving DecidableEq

/-- What a scanner answers if it does not object. -/
inductive Answer where
  | token (token : Option Token)
  | tokens (tokens : List Token)
deriving DecidableEq

def answer (s : Scanner) : Call → Except LexError Answer × Scanner
  | .next => (s.next.1.map .token, s.next.2)
  | .all => (s.all.1.map .tokens, s.all.2)

def drive (s : Scanner) (calls : List Call) : Scanner :=
  calls.foldl (fun s call => (s.answer call).2) s

/-! ### Passed characters -/

theorem byteCount_eq (s : List Char) : byteCount s = (String.ofList s).utf8ByteSize := by
  induction s with
  | nil => rfl
  | cons c s ih =>
    rw [String.ofList_cons, String.utf8ByteSize_append, String.utf8ByteSize_singleton, ← ih]
    rfl

theorem byteCount_append (s t : List Char) : byteCount (s ++ t) = byteCount s + byteCount t := by
  simp only [byteCount_eq, String.ofList_append, String.utf8ByteSize_append]

/-- The place `s'` is behind `s`, with the characters `passed` between them. -/
structure Passes (s : Scanner) (passed : List Char) (s' : Scanner) : Prop where
  rest_eq : s.rest = passed ++ s'.rest
  column_eq : s'.column = s.column + passed.length
  offset_eq : s'.offset = s.offset + byteCount passed

section

variable {s s' s'' : Scanner} {passed more : List Char}

theorem Passes.refl (s : Scanner) : s.Passes [] s := ⟨rfl, rfl, rfl⟩

theorem Passes.trans (h : s.Passes passed s') (h' : s'.Passes more s'') :
    s.Passes (passed ++ more) s'' where
  rest_eq := by rw [h.rest_eq, h'.rest_eq, List.append_assoc]
  column_eq := by rw [h'.column_eq, h.column_eq, List.length_append, Nat.add_assoc]
  offset_eq := by rw [h'.offset_eq, h.offset_eq, byteCount_append, Nat.add_assoc]

theorem passes_advance {rest : List Char} (h : s.rest = passed ++ rest) :
    s.Passes passed (s.advance passed.length) ∧ (s.advance passed.length).rest = rest := by
  simp only [advance, h, List.drop_left, List.take_left, and_true]
  exact ⟨h, rfl, rfl⟩

theorem advance_zero (s : Scanner) : s.advance 0 = s := by
  simp [advance, byteCount]

theorem passes_skipBlanks {blanks t : List Char} (h : s.rest = blanks ++ t)
    (hblanks : ∀ c ∈ blanks, isBlank c = true) (ht : ∀ c ∈ t.head?, isBlank c = false) :
    s.Passes blanks s.skipBlanks ∧ s.skipBlanks.rest = t := by
  rw [skipBlanks_eq_advance h hblanks ht]
  exact passes_advance h

end

/-! ### The next token -/

/-- What a call for the next token can do: its answer, and the place after it. -/
inductive Reads (s : Scanner) : Except LexError (Option Token) → Scanner → Prop where
  | nothing {blanks : List Char} {s' : Scanner} (passes : s.Passes blanks s')
      (hblanks : blanks ∈ blankRuns) (hrest : s'.rest = []) : s.Reads (.ok none) s'
  | token {blanks lexeme : List Char} {token : Token} {s' : Scanner}
      (passes : s.Passes (blanks ++ lexeme) s') (hblanks : blanks ∈ blankRuns)
      (hlexeme : lexeme ∈ token.texts)
      (hmaximal : token.isOperator = true ∨ ∀ c ∈ s'.rest.head?, startsNumber c = false) :
      s.Reads (.ok (some token)) s'
  | unknown {blanks rest : List Char} {c : Char} {s' : Scanner} (passes : s.Passes blanks s')
      (hblanks : blanks ∈ blankRuns) (hrest : s'.rest = c :: rest) (hc : ¬IsExpressionChar c) :
      s.Reads (.error ⟨.unexpectedChar, c, s'.column⟩) s'
  | refused {blanks taken : List Char} {e : LexError} {s' : Scanner}
      (passes : s.Passes (blanks ++ taken) s') (hblanks : blanks ∈ blankRuns) (hne : taken ≠ [])
      (htaken : ∀ c ∈ taken, startsNumber c = true) (hkind : e.kind ≠ .unexpectedChar) :
      s.Reads (.error e) s'

end Scanner

theorem kind_of_numberToken {first : Char} {whole fraction : List Char} {e : LexError}
    (h : numberToken first whole fraction = .error e) : e.kind = .literalOutOfRange := by
  unfold numberToken at h
  dsimp only at h
  split_ifs at h
  rw [← Except.error.inj h]

theorem kind_of_scanNumber {first : Char} {rest : List Char} {e : LexError}
    (h : (scanNumber first rest).2 = .error e) : e.kind ≠ .unexpectedChar := by
  unfold scanNumber at h
  dsimp only at h
  split at h
  · dsimp only at h
    split_ifs at h
    · simp [← Except.error.inj h]
    · simp [← Except.error.inj h]
    · simp [kind_of_numberToken h]
  · simp [kind_of_numberToken h]

/-- What is taken for a number, accepted or not, are digits and points. -/
theorem exists_taken_scanNumber (first : Char) (rest : List Char) :
    ∃ taken s, first :: rest = taken ++ s ∧ taken.length = (scanNumber first rest).1 ∧
      ∀ c ∈ taken, startsNumber c = true := by
  have hdigits : ∀ s : List Char, ∀ c ∈ s.takeWhile Char.isDigit, startsNumber c = true :=
    fun s c hc => startsNumber_of_isDigit (List.mem_takeWhile_imp hc)
  have hsplit : ∀ s : List Char, s = s.takeWhile Char.isDigit ++ s.dropWhile Char.isDigit :=
    fun s => List.takeWhile_append_dropWhile.symm
  unfold scanNumber
  simp only [splitDigits]
  split
  · next afterPoint hafter =>
    refine ⟨(first :: rest).takeWhile Char.isDigit ++ '.' :: afterPoint.takeWhile Char.isDigit,
      afterPoint.dropWhile Char.isDigit, ?_, ?_, ?_⟩
    · rw [List.append_assoc, List.cons_append, ← hsplit, ← hafter, ← hsplit]
    · rw [List.length_append, List.length_cons]
      omega
    · rw [List.forall_mem_append, List.forall_mem_cons]
      exact ⟨hdigits _, rfl, hdigits _⟩
  · exact ⟨_, _, hsplit _, rfl, hdigits _⟩

theorem not_isExpressionChar_iff {c : Char} :
    ¬IsExpressionChar c ↔
      startsNumber c = false ∧ Operator.ofChar? c = none ∧ isBlank c = false := by
  simp [IsExpressionChar, ← Operator.ofChar?_eq_some_iff, Option.eq_none_iff_forall_ne_some]

namespace Scanner

section

variable {s start : Scanner} {blanks rest : List Char} {first : Char}
  (hpasses : s.Passes blanks start) (hblanks : blanks ∈ blankRuns)
  (hrest : start.rest = first :: rest)

include hpasses hblanks hrest

theorem reads_number (hstart : startsNumber first = true) :
    s.Reads (((scanToken first rest).2.map some).mapError (·.shifted start.column))
      (start.advance (scanToken first rest).1) := by
  obtain ⟨run, u, rfl, hrun, hu⟩ := exists_run_append startsNumber rest
  have hrun' : ∀ c ∈ first :: run, startsNumber c = true := List.forall_mem_cons.2 ⟨hstart, hrun⟩
  have hscan : ScansPiece first (run ++ u) (first :: run) := scansPiece_run rfl hrun' hu
  unfold ScansPiece at hscan
  cases hfault : pieceFault? (first :: run) with
  | none =>
    obtain ⟨x, hx, htoken⟩ := exists_texts_of_run (by simp) hrun' hfault
    simp only [hfault] at hscan
    obtain ⟨token, htoken', hscan⟩ := hscan
    obtain rfl : Token.number x = token := Option.some.inj (htoken.symm.trans htoken')
    have hfront : start.rest = (first :: run) ++ u := hrest
    obtain ⟨hrun, hbehind⟩ := passes_advance hfront
    rw [hscan]
    refine .token (hpasses.trans hrun) hblanks hx (.inr ?_)
    rwa [hbehind]
  | some e =>
    simp only [hfault] at hscan
    have htoken : scanToken first (run ++ u) = scanNumber first (run ++ u) := if_pos hstart
    rw [htoken] at hscan ⊢
    have hkind : e.kind ≠ .unexpectedChar := kind_of_scanNumber hscan
    obtain ⟨taken, v, htaken, hlength, hstarts⟩ := exists_taken_scanNumber first (run ++ u)
    have hne : taken ≠ [] := by
      rintro rfl
      exact absurd hlength (scanNumber_pos hstart).ne
    obtain ⟨hnumber, -⟩ := passes_advance (hrest.trans htaken)
    rw [hscan, ← hlength]
    exact .refused (hpasses.trans hnumber) hblanks hne hstarts hkind

theorem reads_sign (hstart : startsNumber first = false) (hblank : isBlank first = false) :
    s.Reads (((scanToken first rest).2.map some).mapError (·.shifted start.column))
      (start.advance (scanToken first rest).1) := by
  rw [scanToken, if_neg (by simp [hstart])]
  cases hop : Operator.ofChar? first with
  | some op =>
    have hfront : start.rest = [first] ++ rest := hrest
    obtain ⟨hsign, -⟩ := passes_advance hfront
    refine .token (hpasses.trans hsign) hblanks ?_ (.inl rfl)
    rw [Operator.ofChar?_eq_some_iff.1 hop]
    rfl
  | none =>
    have hunknown := not_isExpressionChar_iff.2 ⟨hstart, hop, hblank⟩
    show s.Reads (.error ⟨.unexpectedChar, first, 0 + start.column⟩) (start.advance 0)
    rw [advance_zero, Nat.zero_add]
    exact .unknown hpasses hblanks hrest hunknown

end

theorem reads_next (s : Scanner) : s.Reads s.next.1 s.next.2 := by
  obtain ⟨blanks, t, hs, hblanks, ht⟩ := exists_run_append isBlank s.rest
  obtain ⟨hskip, hrest⟩ := passes_skipBlanks hs hblanks ht
  cases t with
  | nil =>
    have hnext : s.next = (.ok none, s.skipBlanks) := by simp only [next, hrest]
    rw [hnext]
    exact .nothing hskip hblanks hrest
  | cons first rest =>
    rw [next_eq hrest]
    cases hstart : startsNumber first with
    | true => exact reads_number hskip hblanks hrest hstart
    | false => exact reads_sign hskip hblanks hrest hstart (ht first rfl)

/-! ### What a call passes -/

section

variable {s s' : Scanner}

theorem Reads.exists_passes {result : Except LexError (Option Token)} (h : s.Reads result s') :
    ∃ passed, s.Passes passed s' := by
  cases h with
  | nothing hpasses => exact ⟨_, hpasses⟩
  | token hpasses => exact ⟨_, hpasses⟩
  | unknown hpasses => exact ⟨_, hpasses⟩
  | refused hpasses => exact ⟨_, hpasses⟩

/-- A call for all tokens ends with a call for the next one at a place on the way. -/
theorem exists_last_next (s : Scanner) :
    ∃ passed last, s.Passes passed last ∧ s.all.2 = last.next.2 ∧
      ∀ e, s.all.1 = .error e ↔ last.next.1 = .error e := by
  induction s using Scanner.all.induct with
  | case1 s e s' hnext =>
    rw [all_of_next_error hnext]
    exact ⟨[], s, .refl s, by rw [hnext], fun e' => by simp [hnext]⟩
  | case2 s s' hnext =>
    rw [all_of_next_none hnext]
    exact ⟨[], s, .refl s, by rw [hnext], fun e' => by simp [hnext]⟩
  | case3 s token s' hnext _ _ _ ih =>
    obtain ⟨passed, last, hpasses, hplace, herror⟩ := ih
    obtain ⟨front, hfront⟩ := (reads_next s).exists_passes
    rw [hnext] at hfront
    rw [all_of_next_some hnext]
    refine ⟨_, last, hfront.trans hpasses, hplace, fun e => ?_⟩
    rw [map_eq_error_iff, herror]

theorem exists_passes_answer (s : Scanner) (call : Call) :
    ∃ passed, s.Passes passed (s.answer call).2 := by
  cases call with
  | next => exact (reads_next s).exists_passes
  | all =>
    obtain ⟨passed, last, hpasses, hplace, -⟩ := exists_last_next s
    obtain ⟨more, hmore⟩ := (reads_next last).exists_passes
    rw [← hplace] at hmore
    exact ⟨_, hpasses.trans hmore⟩

theorem exists_passes_drive (s : Scanner) (calls : List Call) :
    ∃ passed, s.Passes passed (s.drive calls) := by
  induction calls generalizing s with
  | nil => exact ⟨[], .refl s⟩
  | cons call calls ih =>
    obtain ⟨passed, hpasses⟩ := exists_passes_answer s call
    obtain ⟨more, hmore⟩ := ih (s.answer call).2
    exact ⟨_, hpasses.trans hmore⟩

end

/-! ### The characters ahead -/

def moved (s : Scanner) (column offset : Nat) : Scanner :=
  ⟨s.rest, s.column + column, s.offset + offset⟩

section

variable (s : Scanner) (column offset : Nat)

theorem eq_moved : s = (ofText (String.ofList s.rest)).moved s.column s.offset := by
  simp [moved, ofText]

theorem advance_moved (n : Nat) :
    (s.moved column offset).advance n = (s.advance n).moved column offset := by
  simp only [moved, advance, mk.injEq, true_and]
  omega

theorem skipBlanks_moved :
    (s.moved column offset).skipBlanks = s.skipBlanks.moved column offset :=
  advance_moved s column offset _

theorem next_moved :
    (s.moved column offset).next =
      (s.next.1.mapError (·.shifted column), s.next.2.moved column offset) := by
  cases hrest : s.skipBlanks.rest with
  | nil => 
    have hrest' : (s.moved column offset).skipBlanks.rest = [] := by rwa [skipBlanks_moved]
    simp only [next, hrest, hrest']
    rw [skipBlanks_moved]
    rfl
  | cons first rest =>
    have hrest' : (s.moved column offset).skipBlanks.rest = first :: rest := by
      rwa [skipBlanks_moved]
    rw [next_eq hrest, next_eq hrest', skipBlanks_moved, advance_moved]
    cases (scanToken first rest).2 with
    | ok token => rfl
    | error e => simp [LexError.shifted_shifted, moved]

theorem all_moved :
    (s.moved column offset).all =
      (s.all.1.mapError (·.shifted column), s.all.2.moved column offset) := by
  induction s using Scanner.all.induct with
  | case1 s e s' hnext =>
    have hmoved := next_moved s column offset
    rw [hnext] at hmoved
    rw [all_of_next_error hnext, all_of_next_error hmoved]
    rfl
  | case2 s s' hnext =>
    have hmoved := next_moved s column offset
    rw [hnext] at hmoved
    rw [all_of_next_none hnext, all_of_next_none hmoved]
    rfl
  | case3 s token s' hnext _ _ _ ih =>
    have hmoved := next_moved s column offset
    rw [hnext] at hmoved
    rw [all_of_next_some hnext, all_of_next_some hmoved, ih]
    cases s'.all.1 <;> rfl

/-- What is in front of a place only moves the errors and the place after the call. -/
theorem answer_moved (call : Call) :
    (s.moved column offset).answer call =
      ((s.answer call).1.mapError (·.shifted column), (s.answer call).2.moved column offset) := by
  cases call with
  | next =>
    simp only [answer, next_moved]
    cases s.next.1 <;> rfl
  | all =>
    simp only [answer, all_moved]
    cases s.all.1 <;> rfl

end

/-! ### An unknown character -/

section

variable {s : Scanner} {c : Char} {rest : List Char} (hrest : s.rest = c :: rest)
  (hc : ¬IsExpressionChar c)

include hrest hc

theorem answer_of_unknown (call : Call) :
    s.answer call = (.error ⟨.unexpectedChar, c, s.column⟩, s) := by
  obtain ⟨hstart, hop, hblank⟩ := not_isExpressionChar_iff.1 hc
  have hskip : s.skipBlanks = s := by
    rw [skipBlanks, hrest, List.takeWhile_cons_of_neg (by simp [hblank])]
    exact advance_zero s
  have hscan : scanToken c rest = (0, .error ⟨.unexpectedChar, c, 0⟩) := by
    rw [scanToken, if_neg (by simp [hstart]), hop]
  have hnext : s.next = (.error ⟨.unexpectedChar, c, s.column⟩, s) := by
    rw [next_eq (by rw [hskip, hrest]), hscan, hskip, advance_zero]
    simp [LexError.shifted]
  cases call with
  | next =>
    rw [answer, hnext]
    rfl
  | all =>
    rw [answer, all_of_next_error hnext]
    rfl

theorem drive_of_unknown (calls : List Call) : s.drive calls = s := by
  induction calls with
  | nil => rfl
  | cons call calls ih =>
    rw [drive, List.foldl_cons, answer_of_unknown hrest hc call]
    exact ih

end

/-! ### A call after calls -/

/-- An objection ends a call for the next token, at the place of the call or on the way. -/
theorem exists_next_of_answer {s : Scanner} {call : Call} {e : LexError}
    (h : (s.answer call).1 = .error e) :
    ∃ passed last, s.Passes passed last ∧ last.Reads (.error e) (s.answer call).2 := by
  cases call with
  | next =>
    have hread := reads_next s
    rw [map_eq_error_iff.1 h] at hread
    exact ⟨[], s, .refl s, hread⟩
  | all =>
    obtain ⟨passed, last, hpasses, hplace, herror⟩ := exists_last_next s
    have hread := reads_next last
    rw [(herror e).1 (map_eq_error_iff.1 h), ← hplace] at hread
    exact ⟨passed, last, hpasses, hread⟩

theorem Passes.exists_read {text : String} {passed : List Char} {s : Scanner}
    (h : (ofText text).Passes passed s) :
    ∃ read, text = read ++ String.ofList s.rest ∧ read.length = s.column ∧
      read.utf8ByteSize = s.offset := by
  refine ⟨String.ofList passed, ?_, ?_, ?_⟩
  · rw [← String.ofList_append, ← h.rest_eq]
    exact (String.ofList_toList (s := text)).symm
  · rw [String.length_ofList, h.column_eq]
    exact (Nat.zero_add _).symm
  · rw [← byteCount_eq, h.offset_eq]
    exact (Nat.zero_add _).symm

theorem exists_lexeme_of_answer {s : Scanner} {call : Call} {token : Token}
    (h : (s.answer call).1 = .ok (.token (some token))) :
    ∃ blanks lexeme, s.rest = blanks ++ (lexeme ++ (s.answer call).2.rest) ∧
      blanks ∈ blankRuns ∧ lexeme ∈ token.texts ∧
      (token.isOperator = true ∨ ∀ c ∈ (s.answer call).2.rest.head?, startsNumber c = false) := by
  cases call with
  | next =>
    obtain ⟨found, hfound, htoken⟩ := map_eq_ok_iff.1 h
    obtain rfl : found = some token := by simpa using htoken
    have hread := reads_next s
    rw [hfound] at hread
    cases hread with
    | token hpasses hblanks hlexeme hmaximal =>
      exact ⟨_, _, hpasses.rest_eq.trans (List.append_assoc _ _ _), hblanks, hlexeme, hmaximal⟩
  | all =>
    obtain ⟨tokens, -, htokens⟩ := map_eq_ok_iff.1 h
    cases htokens

/-- An objection to an unknown character leaves the place in front of it. -/
theorem exists_rest_of_unexpectedChar {s : Scanner} {call : Call} {e : LexError}
    (h : (s.answer call).1 = .error e) (hkind : e.kind = .unexpectedChar) :
    ∃ rest, (s.answer call).2.rest = e.char :: rest ∧ ¬IsExpressionChar e.char ∧
      e = ⟨.unexpectedChar, e.char, (s.answer call).2.column⟩ := by
  obtain ⟨-, last, -, hread⟩ := exists_next_of_answer h
  cases hread with
  | unknown _ _ hrest hc => exact ⟨_, hrest, hc, rfl⟩
  | refused _ _ _ _ hnumber => exact absurd hkind hnumber

theorem exists_consumed_of_answer {s : Scanner} {call : Call} {e : LexError}
    (h : (s.answer call).1 = .error e) (hkind : e.kind ≠ .unexpectedChar) :
    ∃ consumed, s.rest = consumed ++ (s.answer call).2.rest ∧
      ∃ c ∈ consumed, isBlank c = false := by
  obtain ⟨front, last, hfront, hread⟩ := exists_next_of_answer h
  cases hread with
  | unknown => exact absurd rfl hkind
  | @refused blanks taken _ _ hpasses _ hne htaken _ =>
    obtain ⟨c, more, rfl⟩ := List.exists_cons_of_ne_nil hne
    have hc : startsNumber c = true := htaken c List.mem_cons_self
    exact ⟨_, (hfront.trans hpasses).rest_eq, c, by simp, isBlank_of_startsNumber hc⟩

/-- Column and offset count the characters and bytes that were read.  A call answers as it does at
the front of the characters ahead; a token takes its own text; an objection stays in front of an
unknown character, or has passed a character that is no blank. -/
theorem call_after_calls (text : String) (calls : List Call) (call : Call) :
    let s := (ofText text).drive calls
    let s' := (s.answer call).2
    let fresh := (ofText (String.ofList s.rest)).answer call
    (∃ read, text = read ++ String.ofList s.rest ∧ read.length = s.column ∧
      read.utf8ByteSize = s.offset) ∧
    String.Pos.Raw.IsValid text ⟨s.offset⟩ ∧ s.column ≤ s'.column ∧ s.offset ≤ s'.offset ∧
    (s.answer call).1 = fresh.1.mapError (·.shifted s.column) ∧
    s' = fresh.2.moved s.column s.offset ∧
    (∀ token, (s.answer call).1 = .ok (.token (some token)) →
      ∃ blanks lexeme, s.rest = blanks ++ (lexeme ++ s'.rest) ∧ blanks ∈ blankRuns ∧
        lexeme ∈ token.texts ∧
        (token.isOperator = true ∨ ∀ c ∈ s'.rest.head?, startsNumber c = false)) ∧
    ∀ e, (s.answer call).1 = .error e →
      (e.kind = .unexpectedChar → s'.rest.head? = some e.char ∧ s'.column = e.position ∧
        ∀ more again, (s'.drive more).answer again = (.error e, s')) ∧
      (e.kind ≠ .unexpectedChar →
        ∃ consumed, s.rest = consumed ++ s'.rest ∧ ∃ c ∈ consumed, isBlank c = false) := by
  intro s s' fresh
  obtain ⟨passed, hpassed⟩ := exists_passes_drive (ofText text) calls
  obtain ⟨read, htext, hcolumn, hoffset⟩ := hpassed.exists_read
  obtain ⟨more, hmore⟩ := exists_passes_answer s call
  have hmoved : s.answer call =
      (fresh.1.mapError (·.shifted s.column), fresh.2.moved s.column s.offset) :=
    (congrArg (answer · call) s.eq_moved).trans (answer_moved _ _ _ call)
  have hvalid : String.Pos.Raw.IsValid text ⟨s.offset⟩ :=
    String.Pos.Raw.isValid_iff_exists_append.2
      ⟨read, _, htext, String.Pos.Raw.ext hoffset.symm⟩
  refine ⟨⟨read, htext, hcolumn, hoffset⟩, hvalid, ?_, ?_, congrArg Prod.fst hmoved,
    congrArg Prod.snd hmoved, fun token htoken => exists_lexeme_of_answer htoken,
    fun e he => ⟨fun hkind => ?_, exists_consumed_of_answer he⟩⟩
  · exact hmore.column_eq ▸ Nat.le_add_right _ _
  · exact hmore.offset_eq ▸ Nat.le_add_right _ _
  · obtain ⟨rest, hrest, hc, heq⟩ := exists_rest_of_unexpectedChar he hkind
    refine ⟨by rw [hrest]; rfl, (congrArg LexError.position heq).symm, fun more again => ?_⟩
    rw [drive_of_unknown hrest hc, answer_of_unknown hrest hc, ← heq]

/-- After the objection to `1..2é` the number is read, and then `é` is met by every call. -/
theorem call_after_second_point :
    ((ofText "1..2é").drive [.next, .next]).rest = ['é'] ∧
      (((ofText "1..2é").answer .next).1 = .error ⟨.extraDecimalPoint, '.', 2⟩ ∧
        ∃ consumed, "1..2é".toList = consumed ++ ['.', '2', 'é'] ∧
          ∃ c ∈ consumed, isBlank c = false) ∧
      ∀ more again, (((ofText "1..2é").drive [.next, .next, .next]).drive more).answer again =
        (.error ⟨.unexpectedChar, 'é', 4⟩, ⟨['é'], 4, 4⟩) := by
  have hpoint : ((ofText "1..2é").answer .next).1 = .error ⟨.extraDecimalPoint, '.', 2⟩ := by
    decide +kernel
  have hunknown : (((ofText "1..2é").drive [.next, .next]).answer .next).1 =
      .error ⟨.unexpectedChar, 'é', 4⟩ := by
    decide +kernel
  have hplace : (ofText "1..2é").drive [.next, .next, .next] = ⟨['é'], 4, 4⟩ := by decide +kernel
  obtain ⟨-, -, -, -, -, -, -, herror⟩ := call_after_calls "1..2é" [] .next
  obtain ⟨-, -, -, -, -, -, -, herror'⟩ := call_after_calls "1..2é" [.next, .next] .next
  refine ⟨by decide +kernel, ⟨hpoint, ?_⟩, fun more again => ?_⟩
  · exact (herror _ hpoint).2 (by decide)
  · have h := ((herror' _ hunknown).1 rfl).2.2 more again
    rw [← hplace]
    exact h

end Scanner

end FourFunction
