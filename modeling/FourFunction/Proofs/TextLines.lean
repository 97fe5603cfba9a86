import FourFunction.Console.Repl
import Mathlib.Tactic

/-!
# Lines of a text

The bytes of a line end at its line feed whatever comes after it (`textLines_lineBytes_append`), as
the bytes of line feeds and carriage returns stand for nothing else.
-/

namespace FourFunction

def bytesOf (text : String) : List UInt8 := text.toUTF8.data.toList

def lineBytes (line : String) : List UInt8 := bytesOf line ++ [10]

/-- A text without one carriage return at its end. -/
def withoutReturn (text : String) : String :=
  if text.toList.getLast? = some '\r' then String.ofList text.toList.dropLast else text

/-! ### Bytes of characters -/

theorem bytesOf_ofList (s : List Char) :
    bytesOf (String.ofList s) = s.flatMap String.utf8EncodeChar := by
  rw [bytesOf, String.toUTF8_eq_toByteArray, String.toByteArray_ofList, List.utf8Encode,
    List.toList_data_toByteArray]

/-- A byte below 128 is the only byte of its character. -/
theorem utf8EncodeChar_of_mem {c : Char} {byte : UInt8} (hmem : byte ∈ String.utf8EncodeChar c)
    (hbyte : byte.toNat < 128) : String.utf8EncodeChar c = [byte] ∧ c.toNat = byte.toNat := by
  -- every byte of a longer encoding has its highest bit set
  have hhigh : ∀ {n m k : Nat}, 0 < m → 128 ≤ k → m + k ≤ 256 → byte ≠ UInt8.ofNat (n % m + k) := by
    rintro n m k hm hk hle rfl
    have hmod := Nat.mod_lt n hm
    rw [UInt8.toNat_ofNat', Nat.mod_eq_of_lt (by omega)] at hbyte
    omega
  unfold String.utf8EncodeChar at hmem ⊢
  dsimp only at hmem ⊢
  split_ifs at hmem ⊢ with hone htwo hthree
  · obtain rfl := List.mem_singleton.1 hmem
    rw [UInt8.toNat_ofNat', Nat.mod_eq_of_lt (by omega)]
    exact ⟨rfl, rfl⟩
  all_goals
    refine absurd hmem ?_
    simp only [List.mem_cons, List.not_mem_nil, or_false, not_or]
    repeat' apply And.intro
    all_goals exact hhigh (by decide) (by decide) (by decide)

theorem ten_notMem_bytesOf {text : String} (h : '\n' ∉ text.toList) : 10 ∉ bytesOf text := by
  rw [← String.ofList_toList (s := text), bytesOf_ofList]
  intro hmem
  obtain ⟨c, hc, hbyte⟩ := List.mem_flatMap.1 hmem
  obtain ⟨-, htoNat⟩ := utf8EncodeChar_of_mem hbyte (by decide)
  have hnewline : c = '\n' := Char.toNat_inj.1 htoNat
  exact h (hnewline ▸ hc)

theorem dropReturn_bytesOf (text : String) :
    dropReturn (bytesOf text) = bytesOf (withoutReturn text) := by
  obtain ⟨s, rfl⟩ : ∃ s, text = String.ofList s := ⟨text.toList, String.ofList_toList.symm⟩
  rcases s.eq_nil_or_concat' with rfl | ⟨front, c, rfl⟩
  · rfl
  · have hbytes : bytesOf (String.ofList (front ++ [c])) =
        front.flatMap String.utf8EncodeChar ++ String.utf8EncodeChar c := by
      rw [bytesOf_ofList, List.flatMap_append, List.flatMap_singleton]
    rw [dropReturn, hbytes, withoutReturn, String.toList_ofList, List.getLast?_concat,
      List.dropLast_concat]
    by_cases hc : c = '\r'
    · subst hc
      have hreturn : String.utf8EncodeChar '\r' = [13] := by decide
      rw [hreturn, List.getLast?_concat, if_pos rfl, if_pos rfl, List.dropLast_concat,
        bytesOf_ofList]
    · have hlast : (front.flatMap String.utf8EncodeChar ++ String.utf8EncodeChar c).getLast? ≠
          some 13 := by
        rw [List.getLast?_append_of_ne_nil _ String.utf8EncodeChar_ne_nil]
        intro hlast
        obtain ⟨-, htoNat⟩ := utf8EncodeChar_of_mem (List.mem_of_getLast? hlast) (by decide)
        exact hc (Char.toNat_inj.1 htoNat)
      have hchar : some c ≠ some '\r' := fun heq => hc (Option.some.inj heq)
      rw [if_neg hlast, if_neg hchar, hbytes]

theorem fromUTF8?_toUTF8 (text : String) : String.fromUTF8? text.toUTF8 = some text := by
  rw [String.toUTF8_eq_toByteArray, String.fromUTF8?, dif_pos text.isValidUTF8]
  rfl

theorem decode?_bytesOf (text : String) : decode? (bytesOf text) = some text := by
  rw [decode?, bytesOf, Array.toArray_toList]
  exact fromUTF8?_toUTF8 text

/-- A carriage return at the end is a blank that trimming takes away. -/
theorem trimBlanks_withoutReturn (text : String) :
    trimBlanks (withoutReturn text) = trimBlanks text := by
  obtain ⟨s, rfl⟩ : ∃ s, text = String.ofList s := ⟨text.toList, String.ofList_toList.symm⟩
  unfold withoutReturn
  split_ifs with hlast
  · rw [String.toList_ofList] at hlast ⊢
    obtain ⟨front, rfl⟩ := List.getLast?_eq_some_iff.1 hlast
    have hreturn : isBlank '\r' = true := by decide
    rw [List.dropLast_concat, trimBlanks, trimBlanks, String.toList_ofList, String.toList_ofList,
      List.dropWhile_append]
    split_ifs with hempty
    · rw [List.isEmpty_iff.1 hempty]
      simp [hreturn]
    · simp [hreturn]
  · rfl

/-! ### Lines -/

theorem linesFrom_append {bytes : List UInt8} (h : 10 ∉ bytes) (line rest : List UInt8) :
    linesFrom line (bytes ++ 10 :: rest) =
      decode? (dropReturn (line.reverse ++ bytes)) :: linesFrom [] rest := by
  induction bytes generalizing line with
  | nil => simp [linesFrom]
  | cons byte bytes ih =>
    have hbyte : byte ≠ 10 := fun heq => h (heq ▸ List.mem_cons_self)
    have hbytes : 10 ∉ bytes := fun hmem => h (List.mem_cons_of_mem _ hmem)
    rw [List.cons_append, linesFrom, if_neg hbyte, ih hbytes]
    simp

theorem textLines_append (front rest : List UInt8) :
    textLines (front ++ 10 :: rest) = textLines (front ++ [10]) ++ textLines rest := by
  have hlines : ∀ line, linesFrom line (front ++ 10 :: rest) =
      linesFrom line (front ++ [10]) ++ linesFrom [] rest := by
    induction front with
    | nil => simp [linesFrom]
    | cons byte front ih =>
      intro line
      simp only [List.cons_append, linesFrom]
      split_ifs
      · rw [ih, List.cons_append]
      · exact ih _
  exact hlines []

theorem textLines_lineBytes_append {line : String} (h : '\n' ∉ line.toList) (rest : List UInt8) :
    textLines (lineBytes line ++ rest) = some (withoutReturn line) :: textLines rest := by
  rw [lineBytes, List.append_assoc, List.singleton_append, textLines,
    linesFrom_append (ten_notMem_bytesOf h), List.reverse_nil, List.nil_append, dropReturn_bytesOf,
    decode?_bytesOf]
  rfl

theorem textLines_flatMap_append {lines : List String} (h : ∀ line ∈ lines, '\n' ∉ line.toList)
    (rest : List UInt8) : textLines (lines.flatMap lineBytes ++ rest) =
      (lines.map fun line => some (withoutReturn line)) ++ textLines rest := by
  induction lines with
  | nil => rfl
  | cons line lines ih =>
    obtain ⟨hline, hlines⟩ := List.forall_mem_cons.1 h
    rw [List.flatMap_cons, List.append_assoc, textLines_lineBytes_append hline, ih hlines]
    rfl

end FourFunction
