import FourFunction.Expression.Scanner
import FourFunction.Proofs.Failing
import FourFunction.Proofs.Numeral
import Mathlib.Data.List.SplitBy

/-!
# The pieces of a text

A text is cut into *pieces*: its maximal runs of digits and points, and every other character by
itself.  The scanner reads each piece without a look at the others (`Scanner.all_eq_lexPieces`).
-/

namespace FourFunction

/-! ### Cutting -/

def pieces (text : List Char) : List (List Char) :=
  text.splitBy fun a b => startsNumber a && startsNumber b

@[simp] theorem pieces_nil : pieces [] = [] := rfl

@[simp] theorem flatten_pieces (text : List Char) : (pieces text).flatten = text :=
  List.flatten_splitBy _ _

/-- Texts are cut independently where no run goes on from one to the other. -/
theorem pieces_append {s t : List Char}
    (h : ∀ a ∈ s.getLast?, ∀ b ∈ t.head?, (startsNumber a && startsNumber b) = false) :
    pieces (s ++ t) = pieces s ++ pieces t :=
  List.splitBy_append h

theorem pieces_cons {c : Char} (hc : startsNumber c = false) (s : List Char) :
    pieces (c :: s) = [c] :: pieces s := by
  have h := pieces_append (s := [c]) (t := s) (by simp [hc])
  rw [List.singleton_append] at h
  rw [h]
  rfl

theorem pieces_run_append {run s : List Char} (hne : run ≠ [])
    (hrun : ∀ c ∈ run, startsNumber c = true) (hs : ∀ c ∈ s.head?, startsNumber c = false) :
    pieces (run ++ s) = run :: pieces s := by
  have hpieces : pieces run = [run] := by
    refine List.splitBy_of_isChain hne (List.Pairwise.isChain ?_)
    exact List.pairwise_of_forall_mem_list fun a ha b hb => by simp [hrun a ha, hrun b hb]
  rw [pieces_append fun a _ b hb => by simp [hs b hb], hpieces, List.singleton_append]

theorem mem_pieces {text piece : List Char} (h : piece ∈ pieces text) :
    (piece ≠ [] ∧ ∀ c ∈ piece, startsNumber c = true) ∨
      ∃ c, piece = [c] ∧ startsNumber c = false := by
  have hchain := List.isChain_of_mem_splitBy h
  simp only [Bool.and_eq_true] at hchain
  match piece, List.ne_nil_of_mem_splitBy h, hchain with
  | [c], _, _ =>
    cases hc : startsNumber c with
    | true => exact Or.inl (by simp [hc])
    | false => exact Or.inr ⟨c, rfl, hc⟩
  | a :: b :: rest, hne, hchain =>
    have ha : startsNumber a = true := (List.isChain_cons_cons.1 hchain).1.1
    have hrest := List.IsChain.cons_induction (startsNumber · = true) (b :: rest) hchain
      (fun _ _ hxy _ => hxy.2) ha
    exact Or.inl ⟨hne, List.forall_mem_cons.2 ⟨ha, hrest⟩⟩

/-! ### Reading a piece -/

def secondPoint? (run : List Char) : Option Nat := (run.findIdxs (· == '.'))[1]?

/-- The number a run reads as: of any size, so maybe an infinity. -/
def runValue? (run : List Char) : Option Binary64 := Binary64.ofText? (String.ofList run)

/-- The objection to a piece, placed from its front. -/
def pieceFault? (piece : List Char) : Option LexError :=
  match piece with
  | [] => none
  | first :: _ =>
    if startsNumber first then
      match secondPoint? piece with
      | some index => some ⟨.extraDecimalPoint, '.', index⟩
      | none =>
        if piece = ['.'] then some ⟨.bareDecimalPoint, '.', 0⟩
        else if runValue? piece = some (.infinite false) then some ⟨.literalOutOfRange, first, 0⟩
        else none
    else if (Operator.ofChar? first).isSome || isBlank first then none
    else some ⟨.unexpectedChar, first, 0⟩

/-- The token that a faultless piece stands for; a blank stands for none. -/
def pieceToken? (piece : List Char) : Option Token :=
  match piece with
  | [] => none
  | first :: _ =>
    if startsNumber first then (runValue? piece).map .number
    else (Operator.ofChar? first).map .operator

/-- The objection to the leftmost faulty piece. -/
def firstFault? : List (List Char) → Option LexError
  | [] => none
  | piece :: rest => (pieceFault? piece).or ((firstFault? rest).map (·.shifted piece.length))

/-- The tokens of pieces, or the objection to the leftmost faulty one. -/
def lexPieces (ps : List (List Char)) : Except LexError (List Token) :=
  match firstFault? ps with
  | some e => .error e
  | none => .ok (ps.filterMap pieceToken?)

/-! ### The shape of a run -/

theorem not_isDigit_point {c : Char} (h : c.isDigit = true) : (c == '.') = false := by
  rw [beq_eq_false_iff_ne]
  rintro rfl
  simp at h

theorem startsNumber_of_isDigit {c : Char} (h : c.isDigit = true) : startsNumber c = true := by
  simp [startsNumber, h]

theorem run_cases {run : List Char} (hrun : ∀ c ∈ run, startsNumber c = true) :
    (∀ c ∈ run, c.isDigit = true) ∨
      ∃ whole fraction, (∀ c ∈ whole, c.isDigit = true) ∧ (∀ c ∈ fraction, c.isDigit = true) ∧
        (run = whole ++ '.' :: fraction ∨
          ∃ more, run = whole ++ '.' :: (fraction ++ '.' :: more)) := by
  -- digits up to anything else, which in a run is a point
  have hsplit : ∀ s : List Char, (∀ c ∈ s, startsNumber c = true) →
      ∃ digits, (∀ c ∈ digits, c.isDigit = true) ∧ (s = digits ∨ ∃ t, s = digits ++ '.' :: t) := by
    intro s hs
    obtain ⟨digits, rest, rfl, hdigits, hrest⟩ := exists_run_append Char.isDigit s
    refine ⟨digits, hdigits, ?_⟩
    cases rest with
    | nil => exact Or.inl (List.append_nil digits)
    | cons c t =>
      have hstart : startsNumber c = true := hs c (by simp)
      have hdigit : c.isDigit = false := hrest c (by simp)
      have hc : c = '.' := by simpa [startsNumber, hdigit] using hstart
      exact Or.inr ⟨t, by rw [hc]⟩
  obtain ⟨whole, hwhole, rfl | ⟨t, rfl⟩⟩ := hsplit run hrun
  · exact Or.inl hwhole
  · have ht : ∀ c ∈ t, startsNumber c = true := fun c hc => hrun c (by simp [hc])
    obtain ⟨fraction, hfraction, rfl | ⟨more, rfl⟩⟩ := hsplit t ht
    · exact Or.inr ⟨whole, t, hwhole, hfraction, Or.inl rfl⟩
    · exact Or.inr ⟨whole, fraction, hwhole, hfraction, Or.inr ⟨more, rfl⟩⟩

theorem findIdxs_point_of_isDigit {digits : List Char} (h : ∀ c ∈ digits, c.isDigit = true)
    (start : Nat) : digits.findIdxs (· == '.') start = [] :=
  List.findIdxs_eq_nil_iff.2 fun c hc => not_isDigit_point (h c hc)

theorem secondPoint?_digits {whole : List Char} (h : ∀ c ∈ whole, c.isDigit = true) :
    secondPoint? whole = none := by
  rw [secondPoint?, findIdxs_point_of_isDigit h]
  rfl

theorem secondPoint?_point {whole fraction : List Char} (hwhole : ∀ c ∈ whole, c.isDigit = true)
    (hfraction : ∀ c ∈ fraction, c.isDigit = true) :
    secondPoint? (whole ++ '.' :: fraction) = none := by
  rw [secondPoint?, List.findIdxs_append, findIdxs_point_of_isDigit hwhole, List.findIdxs_cons,
    findIdxs_point_of_isDigit hfraction]
  simp

theorem secondPoint?_points {whole fraction : List Char} (more : List Char)
    (hwhole : ∀ c ∈ whole, c.isDigit = true) (hfraction : ∀ c ∈ fraction, c.isDigit = true) :
    secondPoint? (whole ++ '.' :: (fraction ++ '.' :: more)) =
      some (whole.length + 1 + fraction.length) := by
  rw [secondPoint?, List.findIdxs_append, findIdxs_point_of_isDigit hwhole, List.findIdxs_cons,
    List.findIdxs_append, findIdxs_point_of_isDigit hfraction, List.findIdxs_cons]
  simp

theorem runValue?_digits {whole : List Char} (hwhole : ∀ c ∈ whole, c.isDigit = true)
    (hne : whole ≠ []) :
    runValue? whole = some ((Decimal.ofParts whole [] 0).toBinary64 false) := by
  have h := Binary64.ofText?_ofList false
    (fun c hc => Or.inl (hwhole c (List.mem_of_mem_head? hc))) hne
  rw [Decimal.ofNumeral?_digits hwhole hne] at h
  exact h

theorem runValue?_point {whole fraction : List Char} (hwhole : ∀ c ∈ whole, c.isDigit = true)
    (hfraction : ∀ c ∈ fraction, c.isDigit = true) (hne : whole ≠ [] ∨ fraction ≠ []) :
    runValue? (whole ++ '.' :: fraction) =
      some ((Decimal.ofParts whole fraction 0).toBinary64 false) := by
  have hhead : ∀ c ∈ (whole ++ '.' :: fraction).head?, c.isDigit = true ∨ c = '.' := by
    cases whole with
    | nil => simp
    | cons c whole => simp [hwhole c]
  have h := Binary64.ofText?_ofList false hhead (by simp)
  rw [Decimal.ofNumeral?_point hwhole hfraction hne] at h
  exact h

/-! ### The scanner on a run -/

theorem scanNumber_digits {first : Char} {rest whole s : List Char}
    (htext : first :: rest = whole ++ s) (hwhole : ∀ c ∈ whole, c.isDigit = true)
    (hs : ∀ c ∈ s.head?, startsNumber c = false) :
    scanNumber first rest = (whole.length, numberToken first whole []) := by
  have hhead : ∀ c ∈ s.head?, c.isDigit = false ∧ c ≠ '.' := by
    intro c hc
    simpa [startsNumber] using hs c hc
  have hsplit := splitDigits_append hwhole fun c hc => (hhead c hc).1
  rw [scanNumber, htext, hsplit]
  cases s with
  | nil => rfl
  | cons c s =>
    have hc : c ≠ '.' := (hhead c (by simp)).2
    simp [hc]

theorem scanNumber_point {first : Char} {rest whole fraction s : List Char}
    (htext : first :: rest = whole ++ '.' :: (fraction ++ s))
    (hwhole : ∀ c ∈ whole, c.isDigit = true) (hfraction : ∀ c ∈ fraction, c.isDigit = true)
    (hs : ∀ c ∈ s.head?, c.isDigit = false) :
    scanNumber first rest =
      (whole.length + 1 + fraction.length,
        if s.head? = some '.' then
          .error ⟨.extraDecimalPoint, '.', whole.length + 1 + fraction.length⟩
        else if whole.isEmpty && fraction.isEmpty then .error ⟨.bareDecimalPoint, '.', 0⟩
        else numberToken first whole fraction) := by
  have hsplit : splitDigits (whole ++ '.' :: (fraction ++ s)) = (whole, '.' :: (fraction ++ s)) :=
    splitDigits_append hwhole (by simp)
  rw [scanNumber, htext, hsplit]
  simp only [splitDigits_append hfraction hs]

/-- The scanner makes of a text what the piece at its front is read as. -/
def ScansPiece (first : Char) (rest piece : List Char) : Prop :=
  match pieceFault? piece with
  | some e => (scanToken first rest).2 = .error e
  | none => ∃ token, pieceToken? piece = some token ∧
      scanToken first rest = (piece.length, .ok token)

theorem toBinary64_eq_infinite_iff {d : Decimal} {s : Bool} :
    d.toBinary64 s = .infinite s ↔ ¬ (d.toBinary64 s).isFinite = true := by
  unfold Decimal.toBinary64 Binary64.ofRank
  split <;> simp [Binary64.isFinite]

/-- A run with one point at most that is not a bare point is accepted if its number is finite. -/
theorem scansPiece_of_numberToken {first : Char} {rest run whole fraction : List Char}
    (hstart : startsNumber first = true) (hpoint : secondPoint? (first :: run) = none)
    (hbare : first :: run ≠ ['.'])
    (hx : runValue? (first :: run) = some ((Decimal.ofParts whole fraction 0).toBinary64 false))
    (hscan : scanNumber first rest = ((first :: run).length, numberToken first whole fraction)) :
    ScansPiece first rest (first :: run) := by
  simp only [ScansPiece, pieceFault?, pieceToken?, scanToken, hstart, hpoint, hx, hscan,
    numberToken, if_true, if_neg hbare, Option.map_some, Option.some.injEq,
    toBinary64_eq_infinite_iff, ite_not]
  split_ifs with hfinite
  · exact ⟨_, rfl, rfl⟩
  · rfl

theorem scansPiece_digits {first : Char} {rest run s : List Char}
    (htext : first :: rest = first :: run ++ s) (hrun : ∀ c ∈ first :: run, c.isDigit = true)
    (hs : ∀ c ∈ s.head?, startsNumber c = false) : ScansPiece first rest (first :: run) := by
  have hfirst : first.isDigit = true := hrun first (by simp)
  refine scansPiece_of_numberToken (startsNumber_of_isDigit hfirst) (secondPoint?_digits hrun) ?_
    (runValue?_digits hrun (by simp)) (scanNumber_digits htext hrun hs)
  intro h
  rw [h] at hrun
  simp at hrun

theorem scansPiece_point {first : Char} {rest run whole fraction s : List Char}
    (htext : first :: rest = first :: run ++ s) (hstart : startsNumber first = true)
    (hrun : first :: run = whole ++ '.' :: fraction) (hwhole : ∀ c ∈ whole, c.isDigit = true)
    (hfraction : ∀ c ∈ fraction, c.isDigit = true) (hs : ∀ c ∈ s.head?, startsNumber c = false) :
    ScansPiece first rest (first :: run) := by
  have hhead : ∀ c ∈ s.head?, c.isDigit = false ∧ c ≠ '.' := by
    intro c hc
    simpa [startsNumber] using hs c hc
  have hscan := scanNumber_point (s := s) (by rw [htext, hrun, List.append_assoc, List.cons_append])
    hwhole hfraction fun c hc => (hhead c hc).1
  have hnopoint : s.head? ≠ some '.' := fun h => (hhead '.' h).2 rfl
  rw [if_neg hnopoint] at hscan
  have hpoint : secondPoint? (first :: run) = none := by
    rw [hrun]
    exact secondPoint?_point hwhole hfraction
  -- the bare point is the only run with one point that has no number
  by_cases hempty : whole = [] ∧ fraction = []
  · obtain ⟨rfl, rfl⟩ := hempty
    obtain ⟨rfl, rfl⟩ : first = '.' ∧ run = [] := by simpa using hrun
    have hfault : pieceFault? ['.'] = some ⟨.bareDecimalPoint, '.', 0⟩ := by decide
    rw [ScansPiece, hfault, scanToken, if_pos hstart, hscan]
    rfl
  · have hne : whole ≠ [] ∨ fraction ≠ [] := by
      rw [not_and_or] at hempty
      exact hempty
    have hlength : (first :: run).length = whole.length + 1 + fraction.length := by
      rw [hrun, List.length_append, List.length_cons]
      omega
    rw [if_neg (by simpa using hempty), ← hlength] at hscan
    refine scansPiece_of_numberToken hstart hpoint ?_ ?_ hscan
    · intro h
      rw [h] at hlength
      rcases hne with hne | hne <;> have := List.length_pos_iff.2 hne <;> simp at hlength <;> omega
    · rw [hrun]
      exact runValue?_point hwhole hfraction hne

theorem scansPiece_points {first : Char} {rest run whole fraction more s : List Char}
    (htext : first :: rest = first :: run ++ s) (hstart : startsNumber first = true)
    (hrun : first :: run = whole ++ '.' :: (fraction ++ '.' :: more))
    (hwhole : ∀ c ∈ whole, c.isDigit = true) (hfraction : ∀ c ∈ fraction, c.isDigit = true) :
    ScansPiece first rest (first :: run) := by
  have hscan := scanNumber_point (s := '.' :: (more ++ s))
    (by rw [htext, hrun]; simp) hwhole hfraction (by simp)
  have hpoint : secondPoint? (first :: run) = some (whole.length + 1 + fraction.length) := by
    rw [hrun]
    exact secondPoint?_points more hwhole hfraction
  simp only [ScansPiece, pieceFault?, scanToken, hstart, hpoint, hscan, if_true, List.head?_cons]

theorem scansPiece_run {first : Char} {rest run s : List Char}
    (htext : first :: rest = first :: run ++ s) (hrun : ∀ c ∈ first :: run, startsNumber c = true)
    (hs : ∀ c ∈ s.head?, startsNumber c = false) : ScansPiece first rest (first :: run) := by
  have hstart : startsNumber first = true := hrun first (by simp)
  rcases run_cases hrun with hdigits | ⟨whole, fraction, hwhole, hfraction, heq | ⟨more, heq⟩⟩
  · exact scansPiece_digits htext hdigits hs
  · exact scansPiece_point htext hstart heq hwhole hfraction hs
  · exact scansPiece_points htext hstart heq hwhole hfraction

/-- A text that starts with no digit, no point and no blank. -/
theorem scansPiece_single {first : Char} (rest : List Char) (hstart : startsNumber first = false)
    (hblank : isBlank first = false) : ScansPiece first rest [first] := by
  simp only [ScansPiece, pieceFault?, pieceToken?, scanToken, hstart, hblank, Bool.or_false,
    Bool.false_eq_true, if_false]
  cases Operator.ofChar? first with
  | none => rfl
  | some op => exact ⟨_, rfl, rfl⟩

/-! ### The scanner on a whole text -/

theorem toNat_of_isBlank {c : Char} (h : isBlank c = true) : c.toNat ≤ 32 ∨ 0x85 ≤ c.toNat := by
  simp only [isBlank, Bool.or_eq_true, Bool.and_eq_true, decide_eq_true_eq, beq_iff_eq] at h
  omega

theorem startsNumber_of_isBlank {c : Char} (h : isBlank c = true) : startsNumber c = false := by
  rw [Bool.eq_false_iff]
  intro hstart
  have hblank := toNat_of_isBlank h
  rw [startsNumber, Bool.or_eq_true, beq_iff_eq] at hstart
  rcases hstart with hdigit | rfl
  · obtain ⟨hge, hle⟩ := Char.isDigit_iff_toNat.1 hdigit
    rw [show '0'.toNat = 48 from rfl] at hge
    rw [show '9'.toNat = 57 from rfl] at hle
    omega
  · exact absurd hblank (by decide)

theorem isBlank_of_startsNumber {c : Char} (h : startsNumber c = true) : isBlank c = false := by
  rw [Bool.eq_false_iff]
  intro hblank
  rw [startsNumber_of_isBlank hblank] at h
  cases h

theorem ofChar?_of_isBlank {c : Char} (h : isBlank c = true) : Operator.ofChar? c = none := by
  rw [Option.eq_none_iff_forall_ne_some]
  intro op hop
  rw [Operator.ofChar?_eq_some_iff.1 hop] at h
  cases op <;> exact absurd h (by decide)

theorem lexPieces_cons_of_fault {piece : List Char} {e : LexError} (h : pieceFault? piece = some e)
    (ps : List (List Char)) : lexPieces (piece :: ps) = .error e := by
  simp [lexPieces, firstFault?, h]

theorem lexPieces_cons {piece : List Char} (h : pieceFault? piece = none)
    (ps : List (List Char)) :
    lexPieces (piece :: ps) =
      ((lexPieces ps).map ((pieceToken? piece).toList ++ ·)).mapError (·.shifted piece.length) := by
  simp only [lexPieces, firstFault?, h, Option.none_or]
  cases firstFault? ps with
  | some e => rfl
  | none =>
    simp only [Option.map_none, map_ok, mapError_ok, List.filterMap_cons]
    cases pieceToken? piece <;> rfl

theorem lexPieces_cons_eq_ok_iff {piece : List Char} {ps : List (List Char)}
    {tokens : List Token} :
    lexPieces (piece :: ps) = .ok tokens ↔ pieceFault? piece = none ∧
      ∃ more, lexPieces ps = .ok more ∧ (pieceToken? piece).toList ++ more = tokens := by
  cases hfault : pieceFault? piece with
  | some e => simp [lexPieces_cons_of_fault hfault]
  | none => simp only [lexPieces_cons hfault, mapError_eq_ok_iff, map_eq_ok_iff, true_and]

theorem startsNumber_symbol (op : Operator) : startsNumber op.symbol = false := by cases op <;> rfl

/-- An operator is read by itself, whatever follows it. -/
theorem lexPieces_symbol_cons (op : Operator) (s : List Char) :
    lexPieces (pieces (op.symbol :: s)) =
      ((lexPieces (pieces s)).map (Token.operator op :: ·)).mapError (·.shifted 1) := by
  have hfault : pieceFault? [op.symbol] = none := by cases op <;> rfl
  have htoken : pieceToken? [op.symbol] = some (.operator op) := by cases op <;> rfl
  rw [pieces_cons (startsNumber_symbol op), lexPieces_cons hfault, htoken]
  rfl

/-- Blanks in front of a text move its errors and change nothing else. -/
theorem lexPieces_pieces_blanks {blanks : List Char} (hblanks : ∀ c ∈ blanks, isBlank c = true)
    (s : List Char) :
    lexPieces (pieces (blanks ++ s)) =
      (lexPieces (pieces s)).mapError (·.shifted blanks.length) := by
  induction blanks with
  | nil => cases h : lexPieces (pieces s) <;> simp [h]
  | cons c blanks ih =>
    rw [List.forall_mem_cons] at hblanks
    have hstart := startsNumber_of_isBlank hblanks.1
    have hop := ofChar?_of_isBlank hblanks.1
    have hfault : pieceFault? [c] = none := by simp [pieceFault?, hstart, hblanks.1]
    have htoken : pieceToken? [c] = none := by simp [pieceToken?, hstart, hop]
    rw [List.cons_append, pieces_cons hstart, lexPieces_cons hfault, ih hblanks.2, htoken]
    cases lexPieces (pieces s) with
    | ok tokens => rfl
    | error e => simp [LexError.shifted_shifted]

theorem exists_scansPiece {first : Char} (rest : List Char) (h : isBlank first = false) :
    ∃ piece s, first :: rest = piece ++ s ∧ piece ≠ [] ∧
      pieces (first :: rest) = piece :: pieces s ∧ ScansPiece first rest piece := by
  cases hstart : startsNumber first with
  | false =>
    exact ⟨[first], rest, rfl, by simp, pieces_cons hstart rest, scansPiece_single rest hstart h⟩
  | true =>
    obtain ⟨run, s, rfl, hrun, hs⟩ := exists_run_append startsNumber rest
    have hrun' : ∀ c ∈ first :: run, startsNumber c = true :=
      List.forall_mem_cons.2 ⟨hstart, hrun⟩
    exact ⟨first :: run, s, rfl, by simp, pieces_run_append (by simp) hrun' hs,
      scansPiece_run rfl hrun' hs⟩

namespace Scanner

theorem all_of_next_error {s s' : Scanner} {e : LexError} (h : s.next = (.error e, s')) :
    s.all = (.error e, s') := by
  rw [all]
  split <;> simp_all

theorem all_of_next_none {s s' : Scanner} (h : s.next = (.ok none, s')) : s.all = (.ok [], s') := by
  rw [all]
  split <;> simp_all

theorem all_of_next_some {s s' : Scanner} {token : Token} (h : s.next = (.ok (some token), s')) :
    s.all = (s'.all.1.map (token :: ·), s'.all.2) := by
  rw [all]
  split <;> simp_all

theorem skipBlanks_eq_advance {s : Scanner} {blanks t : List Char} (h : s.rest = blanks ++ t)
    (hblanks : ∀ c ∈ blanks, isBlank c = true) (ht : ∀ c ∈ t.head?, isBlank c = false) :
    s.skipBlanks = s.advance blanks.length := by
  rw [skipBlanks, h, takeWhile_append_of_forall hblanks ht]

/-- The next token is the one at the front behind blanks. -/
theorem next_eq {s : Scanner} {first : Char} {rest : List Char}
    (hrest : s.skipBlanks.rest = first :: rest) :
    s.next = (((scanToken first rest).2.map some).mapError (·.shifted s.skipBlanks.column),
      s.skipBlanks.advance (scanToken first rest).1) := by
  simp only [next, hrest]
  obtain ⟨taken, result⟩ := scanToken first rest
  cases result <;> rfl

/-- Errors in the rest of a text are placed from the start of the text. -/
theorem all_eq_lexPieces (s : Scanner) :
    s.all.1 = (lexPieces (pieces s.rest)).mapError (·.shifted s.column) := by
  -- each piece makes the rest shorter
  induction hn : s.rest.length using Nat.strong_induction_on generalizing s with
  | h n ih =>
    subst hn
    obtain ⟨blanks, t, hs, hblanks, ht⟩ := exists_run_append isBlank s.rest
    have hskip := skipBlanks_eq_advance hs hblanks ht
    have hrest : s.skipBlanks.rest = t := by rw [hskip, advance, hs, List.drop_left]
    have hcolumn : s.skipBlanks.column = s.column + blanks.length := by rw [hskip, advance]
    rw [hs, lexPieces_pieces_blanks hblanks]
    cases t with
    | nil =>
      have hnext : s.next = (.ok none, s.skipBlanks) := by simp only [next, hrest]
      rw [all_of_next_none hnext]
      rfl
    | cons first rest =>
      obtain ⟨piece, u, htext, hne, hpieces, hscan⟩ := exists_scansPiece rest (ht first (by simp))
      rw [hpieces]
      unfold ScansPiece at hscan
      cases hfault : pieceFault? piece with
      | some e =>
        simp only [hfault] at hscan
        have hnext : s.next = (.error (e.shifted s.skipBlanks.column),
            s.skipBlanks.advance (scanToken first rest).1) := by
          rw [next_eq hrest, hscan]
          rfl
        rw [all_of_next_error hnext, lexPieces_cons_of_fault hfault, hcolumn]
        simp [LexError.shifted_shifted, Nat.add_comm]
      | none =>
        simp only [hfault] at hscan
        obtain ⟨token, htoken, hscan⟩ := hscan
        have hnext : s.next = (.ok (some token), s.skipBlanks.advance piece.length) := by
          rw [next_eq hrest, hscan]
          rfl
        have hu : (s.skipBlanks.advance piece.length).rest = u := by
          simp [advance, hrest, htext]
        have hlength : u.length < s.rest.length := by
          have := List.length_pos_iff.2 hne
          rw [hs, htext, List.length_append, List.length_append]
          omega
        have ih := ih _ hlength (s.skipBlanks.advance piece.length) (by rw [hu])
        rw [all_of_next_some hnext, ih, hu, lexPieces_cons hfault, htoken]
        simp only [advance, hcolumn]
        cases lexPieces (pieces u) with
        | ok tokens => rfl
        | error e => simp [LexError.shifted_shifted, Nat.add_comm, Nat.add_assoc]

end Scanner

theorem tokenize_eq_lexPieces (text : String) : tokenize text = lexPieces (pieces text.toList) := by
  rw [tokenize, Scanner.all_eq_lexPieces]
  simp only [Scanner.ofText]
  cases lexPieces (pieces text.toList) <;> simp

end FourFunction
