import FourFunction.Console.Repl
import FourFunction.Proofs.Failing
import Mathlib.Data.List.DropRight
import Mathlib.Tactic

/-!
# The newest entries of a log

A history is the newest part of a log that has no bound (`History.ofEntries`), so the oldest entry
that a full history loses is never asked for again.
-/

namespace FourFunction

namespace History

theorem entries_ofEntries (entries : List Entry) (capacity : Nat) :
    (ofEntries entries capacity).entries = entries.rtake (max capacity 1) := rfl

theorem ofEntries_nil (capacity : Nat) : ofEntries [] capacity = empty capacity := by
  rw [ofEntries, List.drop_nil, empty]

theorem ofEntries_clear (entries : List Entry) (capacity : Nat) :
    (ofEntries entries capacity).clear = ofEntries [] capacity := by
  rw [ofEntries_nil]
  rfl

/-- The newest part of the log moves on over a record. -/
theorem ofEntries_record (entries : List Entry) (capacity : Nat) (e : Entry) :
    (ofEntries entries capacity).record e = ofEntries (entries ++ [e]) capacity := by
  have hbound : 1 ≤ max capacity 1 := le_max_right _ _
  simp only [ofEntries, record, List.length_drop, List.length_append, List.length_singleton]
  generalize max capacity 1 = bound at hbound
  congr 1
  -- a log that is shorter than the bound is kept whole
  by_cases hfull : bound ≤ entries.length
  · have hlength : entries.length - (entries.length - bound) = bound := by omega
    have hdrop : entries.length + 1 - bound = entries.length - bound + 1 := by omega
    rw [if_pos hlength, List.drop_drop, hdrop, List.drop_append_of_le_length (by omega)]
  · have hlength : entries.length - (entries.length - bound) ≠ bound := by omega
    have hdrop : entries.length - bound = 0 := by omega
    have hdrop' : entries.length + 1 - bound = 0 := by omega
    rw [if_neg hlength, hdrop, hdrop', List.drop_zero, List.drop_zero]

end History

namespace HistoryFile

/-- Where there is no file, there are no entries. -/
def entries : HistoryFile → Except CommandError (List Entry)
  | unused | absent => .ok []
  | present content =>
    match String.fromUTF8? content with
    | none => .error .undecodable
    | some text => (Json.parse (Json.readList Entry.read) text).mapError .json

theorem load_eq (file : HistoryFile) (size : Nat) :
    file.load size = file.entries.map (History.ofEntries · size) := by
  cases file with
  | unused | absent => rw [load, entries, map_ok, History.ofEntries_nil]
  | present content =>
    simp only [load, entries]
    cases String.fromUTF8? content with
    | none => rfl
    | some text =>
      simp only [History.ofJson]
      cases Json.parse (Json.readList Entry.read) text <;> rfl

end HistoryFile

end FourFunction
