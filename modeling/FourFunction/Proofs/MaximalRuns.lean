import FourFunction.Proofs.Pieces

/-!
# Which texts have tokens

A text has tokens exactly if it has no unknown character and all of its runs of digits and points
are numbers of finite value; an objection names a character of the text by its place.
-/

namespace FourFunction

def runs (text : List Char) : List (List Char) :=
  (pieces text).filter fun piece => piece.all startsNumber

/-- The run has a digit, one point at most, and a finite reading. -/
def IsNumberRun (run : List Char) : Prop :=
  run.any Char.isDigit = true ∧ run.count '.' ≤ 1 ∧
    ∃ x, runValue? run = some x ∧ x.isFinite = true

def IsExpressionChar (c : Char) : Prop :=
  startsNumber c = true ∨ (∃ op : Operator, c = op.symbol) ∨ isBlank c = true

/-! ### Places of objections -/

theorem getElem?_of_secondPoint? {run : List Char} {index : Nat}
    (h : secondPoint? run = some index) : run[index]? = some '.' := by
  obtain ⟨hlt, hpoint⟩ := List.mem_findIdxs_iff_exists_getElem_pos.1 (List.mem_of_getElem? h)
  rw [List.getElem?_eq_getElem hlt, beq_iff_eq.1 hpoint]

theorem getElem?_of_pieceFault? {piece : List Char} {e : LexError}
    (h : pieceFault? piece = some e) :
    piece[e.position]? = some e.char ∧ isBlank e.char = false := by
  match piece with
  | [] => simp [pieceFault?] at h
  | first :: rest =>
    cases hstart : startsNumber first with
    | false =>
      simp only [pieceFault?, hstart, Bool.false_eq_true, if_false] at h
      split_ifs at h with hknown
      obtain rfl := Option.some.inj h
      exact ⟨rfl, by simp_all⟩
    | true =>
      have hblank : isBlank first = false := isBlank_of_startsNumber hstart
      simp only [pieceFault?, hstart, if_true] at h
      cases hpoint : secondPoint? (first :: rest) with
      | some index =>
        simp only [hpoint] at h
        obtain rfl := Option.some.inj h
        exact ⟨getElem?_of_secondPoint? hpoint, rfl⟩
      | none =>
        simp only [hpoint] at h
        split_ifs at h with hbare hrange
        · obtain rfl := Option.some.inj h
          exact ⟨by rw [hbare]; rfl, rfl⟩
        · obtain rfl := Option.some.inj h
          exact ⟨rfl, hblank⟩

theorem getElem?_of_firstFault? {ps : List (List Char)} {e : LexError}
    (h : firstFault? ps = some e) :
    ps.flatten[e.position]? = some e.char ∧ isBlank e.char = false := by
  induction ps generalizing e with
  | nil => simp [firstFault?] at h
  | cons piece ps ih =>
    rw [firstFault?, Option.or_eq_some_iff, Option.map_eq_some_iff] at h
    rw [List.flatten_cons]
    rcases h with h | ⟨-, e', h, rfl⟩
    · obtain ⟨hget, hblank⟩ := getElem?_of_pieceFault? h
      have hlt : e.position < piece.length := (List.getElem?_eq_some_iff.1 hget).1
      exact ⟨by rw [List.getElem?_append_left hlt, hget], hblank⟩
    · obtain ⟨hget, hblank⟩ := ih h
      refine ⟨?_, hblank⟩
      simp only [LexError.shifted]
      rw [List.getElem?_append_right (by omega), Nat.add_sub_cancel, hget]

/-! ### Faultless texts -/

theorem firstFault?_eq_none_iff {ps : List (List Char)} :
    firstFault? ps = none ↔ ∀ piece ∈ ps, pieceFault? piece = none := by
  induction ps with
  | nil => simp [firstFault?]
  | cons piece ps ih => simp [firstFault?, ih]

theorem count_point_of_isDigit {digits : List Char} (h : ∀ c ∈ digits, c.isDigit = true) :
    digits.count '.' = 0 :=
  List.count_eq_zero.2 fun hmem => absurd (h '.' hmem) (by decide)

theorem any_isDigit_of_ne_nil {digits : List Char} (h : ∀ c ∈ digits, c.isDigit = true)
    (hne : digits ≠ []) : digits.any Char.isDigit = true := by
  obtain ⟨c, rest, rfl⟩ := List.exists_cons_of_ne_nil hne
  simp [h c]

section

variable {whole fraction : List Char} (hwhole : ∀ c ∈ whole, c.isDigit = true)
  (hfraction : ∀ c ∈ fraction, c.isDigit = true)

include hwhole hfraction

theorem any_isDigit_point (hne : whole ≠ [] ∨ fraction ≠ []) :
    (whole ++ '.' :: fraction).any Char.isDigit = true := by
  rw [List.any_append, List.any_cons]
  rcases hne with hne | hne
  · simp [any_isDigit_of_ne_nil hwhole hne]
  · simp [any_isDigit_of_ne_nil hfraction hne]

theorem count_point_append : (whole ++ '.' :: fraction).count '.' = 1 := by
  rw [List.count_append, List.count_cons_self, count_point_of_isDigit hwhole,
    count_point_of_isDigit hfraction]

end

/-- A run with one point at most that is not a bare point is faultless if its number is finite. -/
theorem pieceFault?_eq_none_iff_of_runValue? {run : List Char} {d : Decimal} (hne : run ≠ [])
    (hrun : ∀ c ∈ run, startsNumber c = true) (hpoint : secondPoint? run = none)
    (hbare : run ≠ ['.']) (hx : runValue? run = some (d.toBinary64 false)) :
    pieceFault? run = none ↔ ∃ x, runValue? run = some x ∧ x.isFinite = true := by
  obtain ⟨first, rest, rfl⟩ := List.exists_cons_of_ne_nil hne
  have hstart : startsNumber first = true := hrun first (by simp)
  simp [pieceFault?, hstart, hpoint, hbare, hx, toBinary64_eq_infinite_iff]

theorem pieceFault?_run_eq_none_iff {run : List Char} (hne : run ≠ [])
    (hrun : ∀ c ∈ run, startsNumber c = true) : pieceFault? run = none ↔ IsNumberRun run := by
  have hread := fun d => pieceFault?_eq_none_iff_of_runValue? (d := d) hne hrun
  -- no point, one point, or a second one that is found before the number is looked at
  rcases run_cases hrun with hdigits | ⟨whole, fraction, hwhole, hfraction, rfl | ⟨more, rfl⟩⟩
  · have hbare : run ≠ ['.'] := by
      rintro rfl
      simp at hdigits
    rw [hread _ (secondPoint?_digits hdigits) hbare (runValue?_digits hdigits hne), IsNumberRun,
      count_point_of_isDigit hdigits, any_isDigit_of_ne_nil hdigits hne]
    simp
  · by_cases hempty : whole = [] ∧ fraction = []
    · obtain ⟨rfl, rfl⟩ := hempty
      have hfault : pieceFault? ['.'] = some ⟨.bareDecimalPoint, '.', 0⟩ := by decide
      simp [IsNumberRun, hfault]
    · have hne' : whole ≠ [] ∨ fraction ≠ [] := not_and_or.1 hempty
      have hany := any_isDigit_point hwhole hfraction hne'
      have hbare : whole ++ '.' :: fraction ≠ ['.'] := by
        intro h
        rw [h] at hany
        exact absurd hany (by decide)
      rw [hread _ (secondPoint?_point hwhole hfraction) hbare
          (runValue?_point hwhole hfraction hne'), IsNumberRun, hany, count_point_append hwhole hfraction]
      simp
  · have hcount : ¬ (whole ++ '.' :: (fraction ++ '.' :: more)).count '.' ≤ 1 := by
      simp only [List.count_append, List.count_cons_self]
      omega
    obtain ⟨first, rest, heq⟩ := List.exists_cons_of_ne_nil hne
    have hstart : startsNumber first = true := hrun first (by rw [heq]; simp)
    have hpoint := secondPoint?_points more hwhole hfraction
    rw [heq] at hpoint hcount ⊢
    simp only [pieceFault?, hstart, hpoint, if_true, IsNumberRun, hcount]
    simp

theorem pieceFault?_single_eq_none_iff {c : Char} (hc : startsNumber c = false) :
    pieceFault? [c] = none ↔ IsExpressionChar c := by
  have hop : (∃ op : Operator, c = op.symbol) ↔ (Operator.ofChar? c).isSome = true := by
    simp only [← Operator.ofChar?_eq_some_iff, Option.isSome_iff_exists]
  rw [IsExpressionChar, hop, ← Bool.or_eq_true]
  simp only [pieceFault?, hc, Bool.false_eq_true, if_false, false_or]
  split_ifs with hknown <;> simp [hknown]

theorem pieces_faultless_iff (text : List Char) :
    (∀ piece ∈ pieces text, pieceFault? piece = none) ↔
      (∀ c ∈ text, IsExpressionChar c) ∧ ∀ run ∈ runs text, IsNumberRun run := by
  have hchars : (∀ c ∈ text, IsExpressionChar c) ↔
      ∀ piece ∈ pieces text, ∀ c ∈ piece, IsExpressionChar c := by
    conv_lhs => rw [← flatten_pieces text]
    simp only [List.mem_flatten]
    exact ⟨fun h piece hpiece c hc => h c ⟨piece, hpiece, hc⟩,
      fun h c ⟨piece, hpiece, hc⟩ => h piece hpiece c hc⟩
  simp only [hchars, runs, List.mem_filter, and_imp]
  rw [← forall₂_and]
  refine forall₂_congr fun piece hpiece => ?_
  rcases mem_pieces hpiece with ⟨hne, hrun⟩ | ⟨c, rfl, hc⟩
  · have hall : piece.all startsNumber = true := List.all_eq_true.2 hrun
    rw [pieceFault?_run_eq_none_iff hne hrun]
    exact ⟨fun h => ⟨fun c hc => Or.inl (hrun c hc), fun _ => h⟩, fun h => h.2 hall⟩
  · rw [pieceFault?_single_eq_none_iff hc]
    simp [hc]

/-- A text has tokens exactly if its characters are known and its runs are numbers. -/
theorem exists_tokens_iff (text : String) :
    (∃ tokens, tokenize text = .ok tokens) ↔
      (∀ c ∈ text.toList, IsExpressionChar c) ∧ ∀ run ∈ runs text.toList, IsNumberRun run := by
  rw [← pieces_faultless_iff, ← firstFault?_eq_none_iff, tokenize_eq_lexPieces, lexPieces]
  cases firstFault? (pieces text.toList) <;> simp

/-- An objection to a text names the character at its place, which is no blank. -/
theorem getElem?_of_tokenize_eq_error {text : String} {e : LexError}
    (h : tokenize text = .error e) :
    text.toList[e.position]? = some e.char ∧ isBlank e.char = false := by
  rw [tokenize_eq_lexPieces, lexPieces] at h
  cases hfault : firstFault? (pieces text.toList) with
  | none => simp [hfault] at h
  | some e' =>
    obtain rfl : e' = e := by simpa [hfault] using h
    simpa using getElem?_of_firstFault? hfault

/-- A text is read piece by piece.  It has tokens exactly if its characters are known and its runs
are numbers; otherwise the leftmost faulty piece is objected to. -/
theorem tokenize_pieces (text : String) :
    tokenize text = lexPieces (pieces text.toList) ∧
    ((∃ tokens, tokenize text = .ok tokens) ↔
      (∀ c ∈ text.toList, IsExpressionChar c) ∧ ∀ run ∈ runs text.toList, IsNumberRun run) ∧
    ∀ e, tokenize text = .error e →
      text.toList[e.position]? = some e.char ∧ isBlank e.char = false :=
  ⟨tokenize_eq_lexPieces text, exists_tokens_iff text, fun _ => getElem?_of_tokenize_eq_error⟩

end FourFunction
