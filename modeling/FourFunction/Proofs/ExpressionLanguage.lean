import FourFunction.Proofs.MaximalRuns
import FourFunction.Proofs.Unchecked
import Mathlib.Computability.Language

/-!
# The language of expressions

An expression is a numeral and any count of links, each an operator and a numeral, with blanks
between all of these and around them (`expressions`).  The scanner and the check of the arrangement
together accept exactly this language (`mem_expressions_iff`).
-/

namespace FourFunction

open scoped Computability

/-! ### The language -/

def blankRuns : Language Char := {s | ∀ c ∈ s, isBlank c = true}

def digitRuns : Language Char := {s | ∀ c ∈ s, c.isDigit = true}

def someDigits : Language Char := {s | s ∈ digitRuns ∧ s ≠ []}

/-- Digits that a point and further digits may follow, or a point and digits. -/
def literals : Language Char :=
  someDigits * (1 + {['.']} * digitRuns) + {['.']} * someDigits

/-- The literals that are read as a finite number. -/
def numerals : Language Char :=
  {s | s ∈ literals ∧ ∃ x, Binary64.ofText? (String.ofList s) = some x ∧ x.isFinite = true}

def operatorSigns : Language Char := {s | ∃ op : Operator, s = [op.symbol]}

def linkTexts : Language Char := blankRuns * operatorSigns * blankRuns * numerals

def expressions : Language Char := blankRuns * numerals * linkTexts∗ * blankRuns

/-- The numerals that are read as a number, or the sign of an operator. -/
def Token.texts : Token → Language Char
  | .number x =>
    {s | s ∈ literals ∧ Binary64.ofText? (String.ofList s) = some x ∧ x.isFinite = true}
  | .operator op => {[op.symbol]}

/-! ### Literals -/

/-- A literal has no point, or one and a digit on one side of it. -/
theorem mem_literals_iff {s : List Char} :
    s ∈ literals ↔ s ∈ digitRuns ∧ s ≠ [] ∨
      ∃ whole fraction, whole ∈ digitRuns ∧ fraction ∈ digitRuns ∧
        (whole ≠ [] ∨ fraction ≠ []) ∧ s = whole ++ '.' :: fraction := by
  rw [literals, Language.mem_add, Language.mem_mul, Language.mem_mul]
  constructor
  · rintro (⟨whole, ⟨hwhole, hne⟩, _, rfl | ⟨_, rfl, fraction, hfraction, rfl⟩, rfl⟩ |
      ⟨_, rfl, fraction, ⟨hfraction, hne⟩, rfl⟩)
    · exact .inl ⟨by simpa using hwhole, by simpa using hne⟩
    · exact .inr ⟨whole, fraction, hwhole, hfraction, .inl hne, rfl⟩
    · exact .inr ⟨[], fraction, fun c hc => absurd hc List.not_mem_nil, hfraction, .inr hne, rfl⟩
  · rintro (⟨hwhole, hne⟩ | ⟨whole, fraction, hwhole, hfraction, hne, rfl⟩)
    · exact .inl ⟨s, ⟨hwhole, hne⟩, [], .inl rfl, List.append_nil s⟩
    · by_cases hempty : whole = []
      · subst hempty
        exact .inr ⟨['.'], rfl, fraction, ⟨hfraction, hne.resolve_left (by simp)⟩, rfl⟩
      · exact .inl ⟨whole, ⟨hwhole, hempty⟩, _, .inr ⟨['.'], rfl, fraction, hfraction, rfl⟩, rfl⟩

/-- The literals are the runs of digits and points with a digit and without a second point. -/
theorem mem_literals_iff_count {s : List Char} :
    s ∈ literals ↔
      (∀ c ∈ s, startsNumber c = true) ∧ s.any Char.isDigit = true ∧ s.count '.' ≤ 1 := by
  rw [mem_literals_iff]
  constructor
  · rintro (⟨hdigits, hne⟩ | ⟨whole, fraction, hwhole, hfraction, hne, rfl⟩)
    · exact ⟨fun c hc => startsNumber_of_isDigit (hdigits c hc), any_isDigit_of_ne_nil hdigits hne,
        (count_point_of_isDigit hdigits).trans_le (Nat.zero_le 1)⟩
    · refine ⟨?_, any_isDigit_point hwhole hfraction hne,
        (count_point_append hwhole hfraction).le⟩
      rw [List.forall_mem_append, List.forall_mem_cons]
      exact ⟨fun c hc => startsNumber_of_isDigit (hwhole c hc), rfl,
        fun c hc => startsNumber_of_isDigit (hfraction c hc)⟩
  · rintro ⟨hrun, hany, hcount⟩
    rcases run_cases hrun with hdigits | ⟨whole, fraction, hwhole, hfraction, rfl | ⟨more, rfl⟩⟩
    · refine .inl ⟨hdigits, ?_⟩
      rintro rfl
      cases hany
    · refine .inr ⟨whole, fraction, hwhole, hfraction, ?_, rfl⟩
      rw [← not_and_or]
      rintro ⟨rfl, rfl⟩
      exact absurd hany (by decide)
    · simp only [List.count_append, List.count_cons_self] at hcount
      omega

theorem ne_nil_of_mem_literals {s : List Char} (h : s ∈ literals) : s ≠ [] := by
  rintro rfl
  exact absurd (mem_literals_iff_count.1 h).2.1 (by decide)

theorem mem_numerals_iff {s : List Char} :
    s ∈ numerals ↔ (∀ c ∈ s, startsNumber c = true) ∧ IsNumberRun s := by
  have hmem : s ∈ numerals ↔
      s ∈ literals ∧ ∃ x, Binary64.ofText? (String.ofList s) = some x ∧ x.isFinite = true := Iff.rfl
  rw [hmem, mem_literals_iff_count, IsNumberRun, and_assoc, and_assoc]
  rfl

theorem mem_numerals_iff_exists_texts {s : List Char} :
    s ∈ numerals ↔ ∃ x, s ∈ (Token.number x).texts :=
  ⟨fun ⟨hs, x, hx⟩ => ⟨x, hs, hx⟩, fun ⟨x, hs, hx⟩ => ⟨hs, x, hx⟩⟩

theorem exists_texts_of_run {run : List Char} (hne : run ≠ [])
    (hrun : ∀ c ∈ run, startsNumber c = true) (h : pieceFault? run = none) :
    ∃ x, run ∈ (Token.number x).texts ∧ pieceToken? run = some (.number x) := by
  have hnumber := (pieceFault?_run_eq_none_iff hne hrun).1 h
  obtain ⟨x, hx⟩ := mem_numerals_iff_exists_texts.1 (mem_numerals_iff.2 ⟨hrun, hnumber⟩)
  obtain ⟨first, rest, rfl⟩ := List.exists_cons_of_ne_nil hne
  have hread : runValue? (first :: rest) = some x := hx.2.1
  refine ⟨x, hx, ?_⟩
  rw [pieceToken?, if_pos (hrun first List.mem_cons_self), hread]
  rfl

/-! ### The front of a text with tokens -/

/-- A token is read from its text, with blanks in front of it, if no run goes on behind it. -/
theorem lexPieces_texts_append {token : Token} {blanks piece s : List Char} {tokens : List Token}
    (hblanks : blanks ∈ blankRuns) (hpiece : piece ∈ token.texts)
    (hs : token.isOperator = true ∨ ∀ c ∈ s.head?, startsNumber c = false)
    (h : lexPieces (pieces s) = .ok tokens) :
    lexPieces (pieces (blanks ++ (piece ++ s))) = .ok (token :: tokens) := by
  rw [lexPieces_pieces_blanks hblanks, mapError_eq_ok_iff]
  cases token with
  | number x =>
    obtain ⟨hrun, hnumber⟩ := mem_numerals_iff.1 (mem_numerals_iff_exists_texts.2 ⟨x, hpiece⟩)
    have hs : ∀ c ∈ s.head?, startsNumber c = false := hs.resolve_left (by simp [Token.isOperator])
    obtain ⟨first, rest, rfl⟩ := List.exists_cons_of_ne_nil (ne_nil_of_mem_literals hpiece.1)
    have htoken : pieceToken? (first :: rest) = some (.number x) := by
      have hread : runValue? (first :: rest) = some x := hpiece.2.1
      rw [pieceToken?, if_pos (hrun first (by simp)), hread, Option.map_some]
    rw [pieces_run_append (by simp) hrun hs, lexPieces_cons_eq_ok_iff, htoken]
    exact ⟨(pieceFault?_run_eq_none_iff (by simp) hrun).2 hnumber, tokens, h, rfl⟩
  | operator op =>
    obtain rfl : piece = [op.symbol] := hpiece
    rw [List.singleton_append, lexPieces_symbol_cons, h]
    rfl

/-- A text with tokens is blank, or starts with the text of its first token behind blanks. -/
theorem cases_of_lexPieces_eq_ok {s : List Char} {tokens : List Token}
    (h : lexPieces (pieces s) = .ok tokens) :
    s ∈ blankRuns ∧ tokens = [] ∨
      ∃ blanks piece rest token more, s = blanks ++ (piece ++ rest) ∧ tokens = token :: more ∧
        blanks ∈ blankRuns ∧ piece ∈ token.texts ∧ lexPieces (pieces rest) = .ok more := by
  obtain ⟨blanks, t, rfl, hblanks, ht⟩ := exists_run_append isBlank s
  rw [lexPieces_pieces_blanks hblanks, mapError_eq_ok_iff] at h
  cases t with
  | nil =>
    rw [List.append_nil]
    exact .inl ⟨hblanks, (Except.ok.inj h).symm⟩
  | cons first rest =>
    refine .inr ?_
    cases hstart : startsNumber first with
    | true =>
      obtain ⟨run, u, rfl, hrun, hu⟩ := exists_run_append startsNumber rest
      have hrun' : ∀ c ∈ first :: run, startsNumber c = true :=
        List.forall_mem_cons.2 ⟨hstart, hrun⟩
      rw [← List.cons_append, pieces_run_append (by simp) hrun' hu, lexPieces_cons_eq_ok_iff] at h
      obtain ⟨hfault, more, hmore, rfl⟩ := h
      obtain ⟨x, hx, htoken⟩ := exists_texts_of_run (by simp) hrun' hfault
      refine ⟨blanks, first :: run, u, .number x, more, rfl, ?_, hblanks, hx, hmore⟩
      rw [htoken]
      rfl
    | false =>
      rw [pieces_cons hstart, lexPieces_cons_eq_ok_iff] at h
      obtain ⟨hfault, more, hmore, rfl⟩ := h
      obtain hnumber | ⟨op, rfl⟩ | hblank := (pieceFault?_single_eq_none_iff hstart).1 hfault
      · exact absurd hnumber (by simp [hstart])
      · refine ⟨blanks, [op.symbol], rest, .operator op, more, rfl, ?_, hblanks, rfl, hmore⟩
        rw [pieceToken?, if_neg (by simp [hstart]), Operator.ofChar?_symbol]
        rfl
      · exact absurd hblank (by simp [ht first rfl])

theorem blank_of_lexPieces_eq_nil {s : List Char} (h : lexPieces (pieces s) = .ok []) :
    s ∈ blankRuns := by
  obtain ⟨hs, -⟩ | ⟨_, _, _, _, _, -, htokens, -⟩ := cases_of_lexPieces_eq_ok h
  · exact hs
  · cases htokens

theorem exists_texts_of_lexPieces_eq_cons {s : List Char} {token : Token} {tokens : List Token}
    (h : lexPieces (pieces s) = .ok (token :: tokens)) :
    ∃ blanks piece rest, s = blanks ++ (piece ++ rest) ∧ blanks ∈ blankRuns ∧
      piece ∈ token.texts ∧ lexPieces (pieces rest) = .ok tokens := by
  obtain ⟨-, htokens⟩ | ⟨blanks, piece, rest, _, _, rfl, htokens, hfront⟩ :=
    cases_of_lexPieces_eq_ok h
  · cases htokens
  · obtain ⟨rfl, rfl⟩ := List.cons.inj htokens
    exact ⟨blanks, piece, rest, rfl, hfront⟩

/-! ### Links -/

theorem mem_linkTexts_iff {s : List Char} :
    s ∈ linkTexts ↔ ∃ before op after numeral, before ∈ blankRuns ∧ after ∈ blankRuns ∧
      numeral ∈ numerals ∧ s = before ++ Operator.symbol op :: (after ++ numeral) := by
  simp only [linkTexts, Language.mem_mul]
  constructor
  · rintro ⟨_, ⟨_, ⟨before, hbefore, _, ⟨op, rfl⟩, rfl⟩, after, hafter, rfl⟩, numeral, hnumeral,
      rfl⟩
    exact ⟨before, op, after, numeral, hbefore, hafter, hnumeral, by simp⟩
  · rintro ⟨before, op, after, numeral, hbefore, hafter, hnumeral, rfl⟩
    exact ⟨_, ⟨_, ⟨before, hbefore, _, ⟨op, rfl⟩, rfl⟩, after, hafter, rfl⟩, numeral, hnumeral,
      by simp⟩

/-- Nothing that may stand behind a numeral prolongs it. -/
theorem startsNumber_head_of_mem {s : List Char} (h : s ∈ linkTexts∗ * blankRuns) :
    ∀ c ∈ s.head?, startsNumber c = false := by
  have hblank : ∀ {blanks : List Char}, blanks ∈ blankRuns →
      ∀ c ∈ blanks.head?, startsNumber c = false := fun hblanks c hc =>
    startsNumber_of_isBlank (hblanks c (List.mem_of_mem_head? hc))
  obtain ⟨_, ⟨texts, rfl, htexts⟩, blanks, hblanks, rfl⟩ := Language.mem_mul.1 h
  cases texts with
  | nil => exact hblank hblanks
  | cons text texts =>
    obtain ⟨before, op, after, numeral, hbefore, -, -, rfl⟩ :=
      mem_linkTexts_iff.1 (htexts _ List.mem_cons_self)
    cases before with
    | nil => simpa using startsNumber_symbol op
    | cons c before => simpa using hblank hbefore

/-- The texts of links with blanks behind them. -/
theorem mem_links_blanks_iff {s : List Char} :
    s ∈ linkTexts∗ * blankRuns ↔ ∃ links : List Link,
      (∀ link ∈ links, link.2.isFinite = true) ∧ lexPieces (pieces s) = .ok (linkTokens links) := by
  constructor
  · intro h
    obtain ⟨_, ⟨texts, rfl, htexts⟩, blanks, hblanks, rfl⟩ := Language.mem_mul.1 h
    clear h
    induction texts with
    | nil =>
      refine ⟨[], by simp, ?_⟩
      rw [List.flatten_nil, List.nil_append, ← List.append_nil blanks,
        lexPieces_pieces_blanks hblanks]
      rfl
    | cons text texts ih =>
      obtain ⟨htext, hrest⟩ := List.forall_mem_cons.1 htexts
      obtain ⟨links, hlinks, hlex⟩ := ih hrest
      obtain ⟨before, op, after, numeral, hbefore, hafter, hnumeral, rfl⟩ :=
        mem_linkTexts_iff.1 htext
      obtain ⟨x, hx⟩ := mem_numerals_iff_exists_texts.1 hnumeral
      have hbehind : texts.flatten ++ blanks ∈ linkTexts∗ * blankRuns :=
        Language.append_mem_mul (Language.join_mem_kstar hrest) hblanks
      have hhead := startsNumber_head_of_mem hbehind
      have hnumber := lexPieces_texts_append hafter hx (.inr hhead) hlex
      have hsign : [op.symbol] ∈ (Token.operator op).texts := rfl
      have hlink := lexPieces_texts_append hbefore hsign (.inl rfl) hnumber
      refine ⟨(op, x) :: links, List.forall_mem_cons.2 ⟨hx.2.2, hlinks⟩, ?_⟩
      simpa [chainTokens] using hlink
  · rintro ⟨links, hlinks, hlex⟩
    induction links generalizing s with
    | nil =>
      exact Language.append_mem_mul (Language.nil_mem_kstar _) (blank_of_lexPieces_eq_nil hlex)
    | cons link links ih =>
      obtain ⟨hlink, hlinks⟩ := List.forall_mem_cons.1 hlinks
      obtain ⟨before, sign, t, rfl, hbefore, hsign, hnumber⟩ :=
        exists_texts_of_lexPieces_eq_cons hlex
      obtain ⟨after, numeral, rest, rfl, hafter, hnumeral, hrest⟩ :=
        exists_texts_of_lexPieces_eq_cons hnumber
      obtain rfl : sign = [link.1.symbol] := hsign
      obtain ⟨_, ⟨texts, rfl, htexts⟩, blanks, hblanks, rfl⟩ := Language.mem_mul.1 (ih hlinks hrest)
      have htext : before ++ link.1.symbol :: (after ++ numeral) ∈ linkTexts :=
        mem_linkTexts_iff.2 ⟨before, link.1, after, numeral, hbefore, hafter,
          mem_numerals_iff_exists_texts.2 ⟨_, hnumeral⟩, rfl⟩
      have hmem := Language.append_mem_mul
        (Language.join_mem_kstar (List.forall_mem_cons.2 ⟨htext, htexts⟩)) hblanks
      simpa using hmem

/-! ### Expressions -/

theorem mem_expressions_iff {s : List Char} :
    s ∈ expressions ↔ ∃ x links, lexPieces (pieces s) = .ok (chainTokens x links) ∧
      x.isFinite = true ∧ ∀ link ∈ links, link.2.isFinite = true := by
  rw [expressions, mul_assoc, Language.mem_mul]
  constructor
  · rintro ⟨_, ⟨blanks, hblanks, numeral, hnumeral, rfl⟩, behind, hbehind, rfl⟩
    obtain ⟨x, hx⟩ := mem_numerals_iff_exists_texts.1 hnumeral
    obtain ⟨links, hlinks, hlex⟩ := mem_links_blanks_iff.1 hbehind
    refine ⟨x, links, ?_, hx.2.2, hlinks⟩
    have hs := startsNumber_head_of_mem hbehind
    simpa [chainTokens] using lexPieces_texts_append hblanks hx (.inr hs) hlex
  · rintro ⟨x, links, hlex, -, hlinks⟩
    obtain ⟨blanks, numeral, rest, rfl, hblanks, hnumeral, hrest⟩ :=
      exists_texts_of_lexPieces_eq_cons hlex
    have hfront : blanks ++ numeral ∈ blankRuns * numerals :=
      Language.append_mem_mul hblanks (mem_numerals_iff_exists_texts.2 ⟨x, hnumeral⟩)
    exact ⟨_, hfront, rest, mem_links_blanks_iff.2 ⟨links, hlinks, hrest⟩, List.append_assoc _ _ _⟩

/-- The scanner and the check of the arrangement together accept exactly the expressions. -/
theorem mem_expressions_iff_exists_tokens {text : String} :
    text.toList ∈ expressions ↔
      ∃ tokens, tokenize text = .ok tokens ∧ checkArrangement tokens = .ok () := by
  simp only [mem_expressions_iff, tokenize_eq_lexPieces, checkArrangement_eq_ok_iff]
  constructor
  · rintro ⟨x, links, hlex, hfinite⟩
    exact ⟨_, hlex, x, links, rfl, hfinite⟩
  · rintro ⟨_, hlex, x, links, rfl, hfinite⟩
    exact ⟨x, links, hlex, hfinite⟩

/-! ### What is never objected to -/

/-- The scanner gives finite numbers only. -/
theorem isNonFinite_of_lexPieces {s : List Char} {tokens : List Token}
    (h : lexPieces (pieces s) = .ok tokens) : ∀ token ∈ tokens, token.isNonFinite = false := by
  induction tokens generalizing s with
  | nil => simp
  | cons token tokens ih =>
    obtain ⟨_, piece, rest, -, -, hpiece, hrest⟩ := exists_texts_of_lexPieces_eq_cons h
    refine List.forall_mem_cons.2 ⟨?_, ih hrest⟩
    cases token with
    | number x => simp [Token.isNonFinite, hpiece.2.2]
    | operator op => rfl

theorem adjacent?_ne_nonFiniteNumber (tokens : List Token) (start position : Nat) :
    adjacent? tokens start ≠ some (.nonFiniteNumber position) := by
  fun_induction adjacent? tokens start with
  | case1 | case2 | case4 => simp
  | case3 _ _ _ _ _ _ ih => exact ih

theorem cases_of_checkArrangement_eq_error {tokens : List Token} {reason : ArrangementError}
    (h : checkArrangement tokens = .error reason) :
    reason ∈ [.empty, .leadingOperator, .trailingOperator] ∨ adjacent? tokens 1 = some reason ∨
      ∃ position, reason = .nonFiniteNumber position ∧
        tokens.findIdx? Token.isNonFinite = some position := by
  unfold checkArrangement at h
  split at h
  · obtain rfl := Except.error.inj h
    exact .inl (by simp)
  · split at h
    · obtain rfl := Except.error.inj h
      exact .inl (by simp)
    · split at h
      · next hadjacent =>
        obtain rfl := Except.error.inj h
        exact .inr (.inl hadjacent)
      · split at h
        · obtain rfl := Except.error.inj h
          exact .inl (by simp)
        · split at h
          · next position hindex =>
            obtain rfl := Except.error.inj h
            exact .inr (.inr ⟨position, rfl, hindex⟩)
          · cases h

theorem checkArrangement_ne_nonFiniteNumber {tokens : List Token}
    (h : ∀ token ∈ tokens, token.isNonFinite = false) (position : Nat) :
    checkArrangement tokens ≠ .error (.nonFiniteNumber position) := by
  intro he
  obtain hother | hadjacent | ⟨_, -, hindex⟩ := cases_of_checkArrangement_eq_error he
  · simp at hother
  · exact adjacent?_ne_nonFiniteNumber tokens 1 position hadjacent
  · rw [List.findIdx?_eq_none_iff.2 h] at hindex
    cases hindex

theorem evaluate_eq_structural_iff {tokens : List Token} {reason : ArrangementError} :
    evaluate tokens = .error (.structural reason) ↔ checkArrangement tokens = .error reason := by
  refine ⟨fun he => ?_, evaluate_of_checkArrangement⟩
  cases hcheck : checkArrangement tokens with
  | ok accepted => exact absurd rfl ((isArithmetic_of_evaluate hcheck he).ne_structural _)
  | error found =>
    rw [evaluate_of_checkArrangement hcheck] at he
    obtain rfl := CalcError.structural.inj (Except.error.inj he)
    rfl

theorem evaluate_ne_nonFiniteNumber {tokens : List Token}
    (h : ∀ token ∈ tokens, token.isNonFinite = false) (position : Nat) :
    evaluate tokens ≠ .error (.structural (.nonFiniteNumber position)) :=
  fun he => checkArrangement_ne_nonFiniteNumber h position (evaluate_eq_structural_iff.1 he)

/-! ### The outcome of a text -/

theorem evaluateText_of_tokenize_eq_error {text : String} {e : LexError}
    (h : tokenize text = .error e) : evaluateText text = .error (.lexical e) := by
  rw [evaluateText, h, mapError_error, error_bind]

theorem evaluateText_of_tokenize_eq_ok {text : String} {tokens : List Token}
    (h : tokenize text = .ok tokens) : evaluateText text = evaluate tokens := by
  rw [evaluateText, h, mapError_ok, ok_bind]

theorem exists_structural_of_notMem {text : String} {tokens : List Token}
    (h : tokenize text = .ok tokens) (hmem : text.toList ∉ expressions) :
    ∃ reason, evaluateText text = .error (.structural reason) := by
  rw [evaluateText_of_tokenize_eq_ok h]
  exact evaluate_of_rejected fun hcheck =>
    hmem (mem_expressions_iff_exists_tokens.2 ⟨tokens, h, hcheck⟩)

theorem evaluate_ne_lexical (tokens : List Token) (e : LexError) :
    evaluate tokens ≠ .error (.lexical e) := by
  intro he
  cases hcheck : checkArrangement tokens with
  | ok accepted => obtain h | h := isArithmetic_of_evaluate hcheck he <;> cases h
  | error reason =>
    rw [evaluate_of_checkArrangement hcheck] at he
    cases he

theorem evaluateText_eq_lexical_iff {text : String} {e : LexError} :
    evaluateText text = .error (.lexical e) ↔ tokenize text = .error e := by
  refine ⟨fun he => ?_, evaluateText_of_tokenize_eq_error⟩
  cases htokens : tokenize text with
  | error e' =>
    rw [evaluateText_of_tokenize_eq_error htokens] at he
    obtain rfl := CalcError.lexical.inj (Except.error.inj he)
    rfl
  | ok tokens =>
    rw [evaluateText_of_tokenize_eq_ok htokens] at he
    exact absurd he (evaluate_ne_lexical tokens e)

theorem isArithmetic_of_mem_expressions {text : String} (hmem : text.toList ∈ expressions)
    {e : CalcError} (he : evaluateText text = .error e) : e.IsArithmetic := by
  obtain ⟨tokens, htokens, hcheck⟩ := mem_expressions_iff_exists_tokens.1 hmem
  rw [evaluateText_of_tokenize_eq_ok htokens] at he
  exact isArithmetic_of_evaluate hcheck he

theorem evaluateText_ne_nonFiniteNumber (text : String) (position : Nat) :
    evaluateText text ≠ .error (.structural (.nonFiniteNumber position)) := by
  intro he
  cases htokens : tokenize text with
  | error e =>
    rw [evaluateText_of_tokenize_eq_error htokens] at he
    cases he
  | ok tokens =>
    rw [evaluateText_of_tokenize_eq_ok htokens] at he
    rw [tokenize_eq_lexPieces] at htokens
    exact evaluate_ne_nonFiniteNumber (isNonFinite_of_lexPieces htokens) position he

/-- A text is refused neither by the scanner nor for its arrangement exactly if it is an expression,
and then arithmetic alone can fail.  The scanner objects first, and never does an infinity or a NaN
cause an objection. -/
theorem evaluateText_outcome (text : String) :
    (((∀ e, evaluateText text ≠ .error (.lexical e)) ∧
        ∀ reason, evaluateText text ≠ .error (.structural reason)) ↔
      text.toList ∈ expressions) ∧
    (∀ e, tokenize text = .error e → evaluateText text = .error (.lexical e)) ∧
    (∀ tokens, tokenize text = .ok tokens → text.toList ∉ expressions →
      ∃ reason, evaluateText text = .error (.structural reason)) ∧
    (∀ position, evaluateText text ≠ .error (.structural (.nonFiniteNumber position))) ∧
    (text.toList ∈ expressions → ∀ e, evaluateText text = .error e →
      e = .divisionByZero ∨ e = .overflow) := by
  refine ⟨⟨fun ⟨hnolexical, hnostructural⟩ => ?_,
      fun hmem => ⟨fun e he => ?_, fun reason he => ?_⟩⟩,
    fun e => evaluateText_of_tokenize_eq_error, fun tokens => exists_structural_of_notMem,
    evaluateText_ne_nonFiniteNumber text, fun hmem e => isArithmetic_of_mem_expressions hmem⟩
  · by_contra hmem
    cases htokens : tokenize text with
    | error e => exact hnolexical e (evaluateText_of_tokenize_eq_error htokens)
    | ok tokens =>
      obtain ⟨reason, hreason⟩ := exists_structural_of_notMem htokens hmem
      exact hnostructural reason hreason
  · obtain h | h := isArithmetic_of_mem_expressions hmem he <;> cases h
  · exact (isArithmetic_of_mem_expressions hmem he).ne_structural reason rfl

/-- Points at either end of a literal are fine; blanks alone between two literals and a second point
are not, although the divisor is zero in all three. -/
theorem evaluateText_outcome_of_quotients :
    " .5\t/0. ".toList ∈ expressions ∧
    (∃ reason, evaluateText "1 2/0" = .error (.structural reason)) ∧
    evaluateText "1 2/0.0.0" = .error (.lexical ⟨.extraDecimalPoint, '.', 7⟩) := by
  have hquotient : evaluateText " .5\t/0. " = .error .divisionByZero := by decide +kernel
  have hgap : tokenize "1 2/0" = .ok [.number (.ofBits 0x3ff0000000000000),
      .number (.ofBits 0x4000000000000000), .operator .div, .number (.ofBits 0)] := by
    decide +kernel
  have hvalue : evaluateText "1 2/0" = .error (.structural (.adjacentNumbers 1)) := by
    decide +kernel
  have hpoints : tokenize "1 2/0.0.0" = .error ⟨.extraDecimalPoint, '.', 7⟩ := by decide +kernel
  obtain ⟨hexpression, -⟩ := evaluateText_outcome " .5\t/0. "
  obtain ⟨hnone, -, hstructural, -⟩ := evaluateText_outcome "1 2/0"
  obtain ⟨-, hlexical, -⟩ := evaluateText_outcome "1 2/0.0.0"
  refine ⟨hexpression.1 ?_, hstructural _ hgap fun hmem => (hnone.2 hmem).2 _ hvalue,
    hlexical _ hpoints⟩
  rw [hquotient]
  exact ⟨nofun, nofun⟩

end FourFunction
