import FourFunction.Proofs.DrivenScanner
import FourFunction.Proofs.SessionOrigin

/-!
# Objections to what is shown

An unknown character can only be one of the text of an answer, which keys typed onto it have made
unreadable.  A buffer has no blanks, so the digits and points of two neighbouring numbers would be
one run (`Scanner.spaced_all`).
-/

namespace FourFunction

def plainDecimals : Language Char := {s | ∃ negative, ∃ t ∈ literals, s = signed negative t}

theorem isExpressionChar_of_mem_plainDecimals {s : List Char} (h : s ∈ plainDecimals) :
    ∀ c ∈ s, IsExpressionChar c := by
  obtain ⟨negative, t, ht, rfl⟩ := h
  have hrun : ∀ c ∈ t, IsExpressionChar c := fun c hc =>
    .inl ((mem_literals_iff_count.1 ht).1 c hc)
  cases negative with
  | false => exact hrun
  | true => exact List.forall_mem_cons.2 ⟨.inr (.inl ⟨.sub, rfl⟩), hrun⟩

theorem IsKeyChar.isExpressionChar {c : Char} (h : IsKeyChar c) : IsExpressionChar c :=
  h.imp_right .inl

theorem isBlank_symbol (op : Operator) : isBlank op.symbol = false := by cases op <;> rfl

theorem IsKeyChar.isBlank_eq_false {c : Char} (h : IsKeyChar c) : isBlank c = false := by
  obtain hstart | ⟨op, rfl⟩ := h
  · exact isBlank_of_startsNumber hstart
  · exact isBlank_symbol op

theorem Binary64.isBlank_of_mem_resultText {x : Binary64} (hx : x.isFinite = true) :
    ∀ c ∈ x.resultText.toList, isBlank c = false := by
  rcases resultText_cases hx with ⟨n, hn, -, htext⟩ | ⟨negative, htext⟩
  · have hsigns : ∀ c ∈ ['-', '+', '.', 'e'], isBlank c = false := by simp [isBlank]
    rw [htext, String.toList_ofList]
    intro c hc
    obtain hdigit | hsign := hn.isDigit_or_mem c hc
    · exact isBlank_of_startsNumber (startsNumber_of_isDigit hdigit)
    · exact hsigns c hsign
  · rw [htext, String.toList_ofList]
    cases negative <;> simp [signed, isBlank]

/-- The scanner objects to a character as unknown if it may not stand in an expression. -/
theorem not_isExpressionChar_of_tokenize {text : String} {e : LexError}
    (h : tokenize text = .error e) (hkind : e.kind = .unexpectedChar) :
    ¬IsExpressionChar e.char := by
  have hanswer : ((Scanner.ofText text).answer .all).1 = .error e := map_eq_error_iff.2 h
  obtain ⟨rest, -, hc, -⟩ := Scanner.exists_rest_of_unexpectedChar hanswer hkind
  exact hc

/-! ### Neighbouring numbers -/

/-- Of any two neighbours one at least is an operator. -/
def Spaced (tokens : List Token) : Prop :=
  tokens.IsChain fun a b => a.isOperator = true ∨ b.isOperator = true

theorem adjacent?_ne_adjacentNumbers {tokens : List Token} (h : Spaced tokens)
    (start position : Nat) : adjacent? tokens start ≠ some (.adjacentNumbers position) := by
  fun_induction adjacent? tokens start with
  | case1 | case4 => simp
  | case2 x y rest start => simp [Spaced, Token.isOperator] at h
  | case3 _ _ _ _ _ _ ih => exact ih (List.isChain_cons_cons.1 h).2

theorem evaluate_ne_adjacentNumbers {tokens : List Token} (h : Spaced tokens) (position : Nat) :
    evaluate tokens ≠ .error (.structural (.adjacentNumbers position)) := by
  rw [Ne, evaluate_eq_structural_iff]
  intro he
  obtain hother | hadjacent | ⟨_, hreason, -⟩ := cases_of_checkArrangement_eq_error he
  · simp at hother
  · exact adjacent?_ne_adjacentNumbers h 1 position hadjacent
  · cases hreason

theorem Token.isOperator_or_startsNumber {token : Token} {lexeme : List Char}
    (h : lexeme ∈ token.texts) :
    token.isOperator = true ∨ ∃ c ∈ lexeme.head?, startsNumber c = true := by
  cases token with
  | operator op => exact .inl rfl
  | number x =>
    obtain ⟨hrun, -⟩ := mem_literals_iff_count.1 h.1
    obtain ⟨c, rest, rfl⟩ := List.exists_cons_of_ne_nil (ne_nil_of_mem_literals h.1)
    exact .inr ⟨c, rfl, hrun c List.mem_cons_self⟩

/-- A text without blanks has no two numbers next to each other. -/
theorem Scanner.spaced_all {s : Scanner} (hblank : ∀ c ∈ s.rest, isBlank c = false)
    {tokens : List Token} (h : s.all.1 = .ok tokens) :
    Spaced tokens ∧ ∀ token ∈ tokens.head?, token.isOperator = true ∨
      ∃ c ∈ s.rest.head?, startsNumber c = true := by
  induction s using Scanner.all.induct generalizing tokens with
  | case1 s e s' hnext =>
    rw [all_of_next_error hnext] at h
    cases h
  | case2 s s' hnext =>
    rw [all_of_next_none hnext] at h
    obtain rfl := Except.ok.inj h
    exact ⟨.nil, by simp⟩
  | case3 s token s' hnext _ _ _ ih =>
    rw [all_of_next_some hnext] at h
    obtain ⟨more, hmore, rfl⟩ := map_eq_ok_iff.1 h
    have hread := reads_next s
    rw [hnext] at hread
    cases hread with
    | @token blanks lexeme _ _ hpasses hblanks hlexeme hmaximal =>
      have hfront := hpasses.rest_eq
      rw [hfront] at hblank ⊢
      simp only [List.forall_mem_append] at hblank
      obtain ⟨⟨hfree, -⟩, hbehind⟩ := hblank
      obtain rfl : blanks = [] := List.eq_nil_iff_forall_not_mem.2 fun c hc => by
        simpa [hfree c hc] using hblanks c hc
      obtain ⟨hspaced, hhead⟩ := ih hbehind hmore
      refine ⟨List.isChain_cons.2 ⟨fun next hmem => ?_, hspaced⟩, fun first hfirst => ?_⟩
      · -- a number behind a number would go on with it
        obtain hop | ⟨c, hc, hstart⟩ := hhead next hmem
        · exact .inr hop
        · refine .inl (hmaximal.resolve_right fun hend => ?_)
          rw [hend c hc] at hstart
          cases hstart
      · obtain rfl := Option.some.inj hfirst
        refine (Token.isOperator_or_startsNumber hlexeme).imp_right ?_
        rintro ⟨c, hc, hstart⟩
        exact ⟨c, List.mem_head?_append_of_mem_head? hc, hstart⟩

theorem spaced_of_tokenize {text : String} (hblank : ∀ c ∈ text.toList, isBlank c = false)
    {tokens : List Token} (h : tokenize text = .ok tokens) : Spaced tokens :=
  (Scanner.spaced_all (s := .ofText text) hblank h).1

/-- Behind a number, the text starts with an operator. -/
theorem spaced_number_cons {text : String} (hblank : ∀ c ∈ text.toList, isBlank c = false)
    (hhead : ∀ c ∈ text.toList.head?, ∃ op : Operator, c = op.symbol) {tokens : List Token}
    (h : tokenize text = .ok tokens) (x : Binary64) : Spaced (.number x :: tokens) := by
  obtain ⟨hspaced, hfirst⟩ := Scanner.spaced_all (s := .ofText text) hblank h
  refine List.isChain_cons.2 ⟨fun token htoken => ?_, hspaced⟩
  obtain hop | ⟨c, hc, hstart⟩ := hfirst token htoken
  · exact .inr hop
  · obtain ⟨op, rfl⟩ := hhead c hc
    rw [startsNumber_symbol] at hstart
    cases hstart

namespace Session

/-! ### What is scanned -/

/-- The count of characters in front of what an evaluation scans. -/
def skipped (s : Session) : Nat := s.carry.elim 0 Carry.length

def scanned (s : Session) : String := String.ofList (s.buffer.toList.drop s.skipped)

def carried (s : Session) : List Token := (s.carry.map fun carry => .number carry.value).toList

theorem toList_scanned (s : Session) : s.scanned.toList = s.buffer.toList.drop s.skipped :=
  String.toList_ofList

theorem evaluate_eq (s : Session) :
    s.evaluate.1 =
      ((tokenize s.scanned).mapError fun e => .lexical (e.shifted s.skipped)) >>= fun tokens =>
        FourFunction.evaluate (s.carried ++ tokens) := by
  rw [evaluate_fst, scanned, skipped, carried]
  cases s.carry with
  | none => simp [evaluateBuffer, evaluateText]
  | some carry => rfl

theorem exists_tokenize_of_lexical {s : Session} {e : LexError}
    (h : s.evaluate.1 = .error (.lexical e)) :
    ∃ e', tokenize s.scanned = .error e' ∧ e = e'.shifted s.skipped := by
  rw [evaluate_eq] at h
  cases htokens : tokenize s.scanned with
  | ok tokens =>
    rw [htokens, mapError_ok, ok_bind] at h
    exact absurd h (evaluate_ne_lexical _ e)
  | error e' =>
    rw [htokens, mapError_error, error_bind] at h
    exact ⟨e', rfl, (CalcError.lexical.inj (Except.error.inj h)).symm⟩

theorem exists_tokens_of_structural {s : Session} {reason : ArrangementError}
    (h : s.evaluate.1 = .error (.structural reason)) :
    ∃ tokens, tokenize s.scanned = .ok tokens ∧
      FourFunction.evaluate (s.carried ++ tokens) = .error (.structural reason) := by
  rw [evaluate_eq] at h
  cases htokens : tokenize s.scanned with
  | ok tokens =>
    rw [htokens, mapError_ok, ok_bind] at h
    exact ⟨tokens, rfl, h⟩
  | error e =>
    rw [htokens, mapError_error, error_bind] at h
    cases h

theorem getElem?_of_lexical {s : Session} {e : LexError}
    (h : s.evaluate.1 = .error (.lexical e)) : s.buffer.toList[e.position]? = some e.char := by
  obtain ⟨e', htokens, rfl⟩ := exists_tokenize_of_lexical h
  obtain ⟨hget, -⟩ := getElem?_of_tokenize_eq_error htokens
  rw [toList_scanned, List.getElem?_drop] at hget
  rw [LexError.shifted, Nat.add_comm]
  exact hget

/-! ### Neighbours of a carried number -/

section

variable {s : Session} (h : s.Coherent)

include h

theorem nonFiniteNumber_of_coherent (position : Nat) :
    s.evaluate.1 ≠ .error (.structural (.nonFiniteNumber position)) := by
  intro he
  obtain ⟨tokens, htokens, he⟩ := exists_tokens_of_structural he
  rw [tokenize_eq_lexPieces] at htokens
  refine FourFunction.evaluate_ne_nonFiniteNumber ?_ position he
  refine List.forall_mem_append.2 ⟨fun token htoken => ?_, isNonFinite_of_lexPieces htokens⟩
  obtain ⟨carry, hcarry, rfl⟩ :
      ∃ carry, s.carry = some carry ∧ Token.number carry.value = token := by
    simpa [carried] using htoken
  obtain ⟨shown, behind, -, hfronts⟩ := h.fronts carry hcarry
  simp [Token.isNonFinite, hfronts.isFinite_value]

theorem adjacentNumbers_of_coherent (hblank : ∀ c ∈ s.buffer.toList, isBlank c = false)
    (position : Nat) : s.evaluate.1 ≠ .error (.structural (.adjacentNumbers position)) := by
  intro he
  obtain ⟨tokens, htokens, he⟩ := exists_tokens_of_structural he
  have hfree : ∀ c ∈ s.scanned.toList, isBlank c = false := by
    rw [toList_scanned]
    exact fun c hc => hblank c (List.mem_of_mem_drop hc)
  refine FourFunction.evaluate_ne_adjacentNumbers ?_ position he
  cases hcarry : s.carry with
  | none =>
    simp only [carried, hcarry, Option.map_none, Option.toList_none, List.nil_append]
    exact spaced_of_tokenize hfree htokens
  | some carry =>
    obtain ⟨shown, behind, hbuffer, hfronts⟩ := h.fronts carry hcarry
    have hscanned : s.scanned.toList = behind := by
      rw [toList_scanned, skipped, hcarry, hbuffer, Option.elim_some, ← hfronts.length_eq,
        List.drop_left]
    simp only [carried, hcarry, Option.map_some, Option.toList_some, List.singleton_append]
    refine spaced_number_cons hfree ?_ htokens carry.value
    rw [hscanned]
    exact hfronts.head_behind

end

/-! ### The objections of a session -/

theorem Origin.isBlank_of_mem {s : Session} {changes : List Change} (h : s.Origin changes) :
    ∀ c ∈ s.buffer.toList, isBlank c = false := by
  cases h with
  | scratch _ hchars => exact fun c hc => (hchars c hc).isBlank_eq_false
  | answer hgoes _ =>
    rw [hgoes.toList_buffer, List.forall_mem_append, List.forall_mem_append]
    exact ⟨⟨Binary64.isBlank_of_mem_resultText hgoes.isFinite_answer,
      fun c hc => isBlank_of_startsNumber (hgoes.startsNumber_of_mem c hc)⟩,
      fun c hc => (hgoes.mem_behind c hc).isBlank_eq_false⟩

theorem exists_unknown_of_lexical {s : Session} {e : LexError}
    (he : s.evaluate.1 = .error (.lexical e)) (hkind : e.kind = .unexpectedChar) :
    ∃ c ∈ s.scanned.toList, ¬IsExpressionChar c := by
  obtain ⟨e', htokens, rfl⟩ := exists_tokenize_of_lexical he
  obtain ⟨hget, -⟩ := getElem?_of_tokenize_eq_error htokens
  exact ⟨e'.char, List.mem_of_getElem? hget, not_isExpressionChar_of_tokenize htokens hkind⟩

namespace GoesOnFrom

variable {s : Session} {answer : Binary64} {onto behind : List Char}

/-- If a number is carried, only what stands behind it is scanned. -/
theorem toList_scanned (h : s.GoesOnFrom answer onto behind) {carry : Carry}
    (hcarry : carryOnto answer onto = some carry) : s.scanned.toList = behind := by
  have hskipped : s.skipped = (answer.resultText.toList ++ onto).length := by
    rw [skipped, h.carry_eq, hcarry, Option.elim_some, length_of_carryOnto hcarry,
      List.length_append, String.length_append, String.length_ofList, String.length_toList]
  rw [Session.toList_scanned, h.toList_buffer, hskipped, List.drop_left]

/-- Keys type no unknown characters. -/
theorem mem_resultText_of_unknown (h : s.GoesOnFrom answer onto behind) {c : Char}
    (hmem : c ∈ s.buffer.toList) (hc : ¬IsExpressionChar c) : c ∈ answer.resultText.toList := by
  rw [h.toList_buffer, List.mem_append, List.mem_append] at hmem
  obtain (hanswer | honto) | hbehind := hmem
  · exact hanswer
  · exact absurd (.inl (h.startsNumber_of_mem c honto)) hc
  · exact absurd (h.mem_behind c hbehind).isExpressionChar hc

end GoesOnFrom

/-- An unknown character is one of an answer that digits and points have made unreadable. -/
theorem Origin.of_unexpectedChar {s : Session} {changes : List Change} (h : s.Origin changes)
    {e : LexError} (he : s.evaluate.1 = .error (.lexical e)) (hkind : e.kind = .unexpectedChar) :
    ∃ before expression answer onto behind,
      changes = before ++ .answered expression answer :: (onto ++ behind).map .typed ∧
      s.GoesOnFrom answer onto behind ∧ answer.resultText.toList ∉ plainDecimals ∧ onto ≠ [] ∧
      ¬ReadsFinite (answer.resultText.toList ++ onto) := by
  obtain ⟨c, hscanned, hunknown⟩ := exists_unknown_of_lexical he hkind
  have hmem : c ∈ s.buffer.toList := by
    rw [Session.toList_scanned] at hscanned
    exact List.mem_of_mem_drop hscanned
  cases h with
  | scratch _ hchars => exact absurd (hchars c hmem).isExpressionChar hunknown
  | @answer before expression answer onto behind hgoes hchanges =>
    cases hcarry : carryOnto answer onto with
    | some carry =>
      rw [hgoes.toList_scanned hcarry] at hscanned
      exact absurd (hgoes.mem_behind c hscanned).isExpressionChar hunknown
    | none =>
      obtain ⟨hne, hread⟩ := carryOnto_eq_none_iff.1 hcarry
      refine ⟨before, expression, answer, onto, behind, hchanges, hgoes, fun hplain => ?_, hne,
        hread⟩
      have hanswer := hgoes.mem_resultText_of_unknown hmem hunknown
      exact hunknown (isExpressionChar_of_mem_plainDecimals hplain c hanswer)

/-- An objection of the scanner names the character of the display at its place.  An unknown
character comes only from the text of an answer with digits and points typed onto it.  No evaluation
finds two numbers next to each other, or an infinity or a NaN. -/
theorem objections_after_run (style : ErrorStyle) (ops : List Operation) :
    let s := (new style).performAll ops
    (∀ e, s.evaluate.1 = .error (.lexical e) →
      s.display = s.buffer ∧ s.display.toList[e.position]? = some e.char ∧
      (e.kind = .unexpectedChar → ∃ before expression answer onto behind,
        (new style).changesOf ops =
          before ++ .answered expression answer :: (onto ++ behind).map .typed ∧
        s.display = answer.resultText ++ String.ofList onto ++ String.ofList behind ∧
        answer.resultText.toList ∉ plainDecimals ∧
        onto ≠ [] ∧ (∀ c ∈ onto, startsNumber c = true) ∧
        (∀ c ∈ behind.head?, ∃ op : Operator, c = op.symbol) ∧
        ¬∃ w, Binary64.ofText? (answer.resultText ++ String.ofList onto) = some w ∧
          w.isFinite = true)) ∧
    (∀ position, s.evaluate.1 ≠ .error (.structural (.adjacentNumbers position))) ∧
    ∀ position, s.evaluate.1 ≠ .error (.structural (.nonFiniteNumber position)) := by
  intro s
  have hcoherent : s.Coherent := coherent_performAll style ops
  have horigin : s.Origin ((new style).changesOf ops) := origin_performAll style ops
  refine ⟨fun e he => ?_, adjacentNumbers_of_coherent hcoherent horigin.isBlank_of_mem,
    nonFiniteNumber_of_coherent hcoherent⟩
  have hget := getElem?_of_lexical he
  have herror : s.lastError = none := by
    by_contra hne
    rw [(hcoherent.empty_of_error hne).1] at hget
    cases hget
  have hdisplay : s.display = s.buffer := by rw [display, herror]
  rw [hdisplay]
  refine ⟨rfl, hget, fun hkind => ?_⟩
  obtain ⟨before, expression, answer, onto, behind, hchanges, hgoes, hplain, hne, hread⟩ :=
    horigin.of_unexpectedChar he hkind
  refine ⟨before, expression, answer, onto, behind, hchanges, hgoes.buffer_eq, hplain, hne,
    hgoes.startsNumber_of_mem, hgoes.head_behind, ?_⟩
  rwa [ReadsFinite, String.ofList_append, String.ofList_toList] at hread

/-- The exponent of an answer with `.5` typed onto it, and a second point. -/
theorem objections_to_exponent_and_point :
    let s := (new .brief).performAll [.pressText "1000000000000000000000=.5"]
    let s' := (new .brief).performAll [.pressText "2-3=+1.2.3"]
    (s.evaluate.1 = .error (.lexical ⟨.unexpectedChar, 'e', 1⟩) ∧ s.display.toList[1]? = some 'e' ∧
      ∃ before expression answer onto behind,
        (new .brief).changesOf [.pressText "1000000000000000000000=.5"] =
          before ++ .answered expression answer :: (onto ++ behind).map .typed ∧
        "1e+21.5" = answer.resultText ++ String.ofList onto ++ String.ofList behind ∧
        answer.resultText.toList ∉ plainDecimals ∧ onto ≠ []) ∧
    s'.evaluate.1 = .error (.lexical ⟨.extraDecimalPoint, '.', 6⟩) ∧
      s'.display.toList[6]? = some '.' := by
  intro s s'
  have hexponent : s.evaluate.1 = .error (.lexical ⟨.unexpectedChar, 'e', 1⟩) := by decide +kernel
  have hpoint : s'.evaluate.1 = .error (.lexical ⟨.extraDecimalPoint, '.', 6⟩) := by
    decide +kernel
  have hdisplay : s.display = "1e+21.5" := by decide +kernel
  obtain ⟨hobjections, -⟩ := objections_after_run .brief [.pressText "1000000000000000000000=.5"]
  obtain ⟨hobjections', -⟩ := objections_after_run .brief [.pressText "2-3=+1.2.3"]
  obtain ⟨-, hletter, hunknown⟩ := hobjections _ hexponent
  obtain ⟨before, expression, answer, onto, behind, hchanges, htext, hplain, hne, -⟩ :=
    hunknown rfl
  refine ⟨⟨hexponent, hletter, before, expression, answer, onto, behind, hchanges, ?_, hplain, hne⟩,
    hpoint, (hobjections' _ hpoint).2.1⟩
  rw [← hdisplay]
  exact htext

end Session

end FourFunction
