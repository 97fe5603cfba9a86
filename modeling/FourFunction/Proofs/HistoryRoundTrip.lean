import FourFunction.Proofs.NewestEntries
import FourFunction.Proofs.SavedHistory

/-!
# Histories written and read

The text of a history of finite results is loaded as the newest of its entries.  An infinity or a
NaN is written as `null`, and the text is refused as a whole (`History.ofJson_toJson_all`).
-/

namespace FourFunction.History

theorem ofJson_toJson_error {h : History} (hinfinite : ∃ e ∈ h.entries, e.result.isFinite = false)
    (capacity : Nat) : ofJson h.toJson capacity = .error .mismatch := by
  have hread := Json.readList_array_refused (fun e : Entry => e.result.isFinite)
    (fun _ => Entry.reads_toJson) (fun _ => Entry.read_toJson_error)
    (fun _ => Json.exists_toList_object _) hinfinite []
  rw [List.append_nil] at hread
  rw [ofJson, Json.parse, toJson, hread]
  rfl

/-- The text of a history of finite results is loaded with any capacity, and gives the newest
entries if each number is read back as it was written.  With another result it is refused. -/
theorem ofJson_toJson_all (h : History) (capacity : Nat) :
    ((∀ e ∈ h.entries, e.result.isFinite = true) →
      ∃ loaded, ofJson h.toJson capacity = .ok loaded ∧ loaded.capacity = max capacity 1 ∧
        ((∀ e ∈ h.entries, e.reread = e) →
          loaded.entries = h.entries.rtake (min h.entries.length (max capacity 1)) ∧
          (h.entries.length ≤ capacity → loaded.toJson = h.toJson))) ∧
    ((∃ e ∈ h.entries, e.result.isFinite = false) →
      ofJson h.toJson capacity = .error .mismatch) := by
  refine ⟨fun hfinite => ⟨_, ofJson_toJson hfinite capacity, rfl, fun hread => ?_⟩,
    fun hinfinite => ofJson_toJson_error hinfinite capacity⟩
  rw [Entry.map_reread hread]
  refine ⟨?_, fun hlength => ?_⟩
  · have hdrop : h.entries.length - max capacity 1 =
        h.entries.length - min h.entries.length (max capacity 1) := by omega
    rw [entries_ofEntries, List.rtake, List.rtake, hdrop]
  · have hdrop : h.entries.length - max capacity 1 = 0 := by omega
    rw [toJson, toJson, entries_ofEntries, List.rtake, hdrop, List.drop_zero]

/-- Two finite results, the older one a negative zero, under texts with escaped characters. -/
def escapedHistory : History :=
  ⟨[⟨"", .ofBits 0x8000000000000000, 18446744073709551615⟩,
    ⟨"\"\\\n\x01é", .ofBits 0x0000000000000001, 0⟩], 5⟩

def infiniteHistory : History :=
  ⟨[⟨"1", .ofBits 0x3ff0000000000000, 0⟩, ⟨"", .ofBits 0x7ff0000000000000, 0⟩], 5⟩

theorem ofJson_toJson_escaped :
    (∃ loaded, ofJson escapedHistory.toJson 2 = .ok loaded ∧
      loaded.entries = escapedHistory.entries ∧ loaded.toJson = escapedHistory.toJson) ∧
    (∃ loaded, ofJson escapedHistory.toJson 0 = .ok loaded ∧
      loaded.entries = escapedHistory.entries.drop 1) ∧
    ofJson infiniteHistory.toJson 2 = .error .mismatch := by
  have hfinite : ∀ e ∈ escapedHistory.entries, e.result.isFinite = true := by decide
  have hread : ∀ e ∈ escapedHistory.entries, e.reread = e := by decide +kernel
  obtain ⟨both, hboth, -, hexact⟩ := (ofJson_toJson_all escapedHistory 2).1 hfinite
  obtain ⟨newest, hnewest, -, hexact'⟩ := (ofJson_toJson_all escapedHistory 0).1 hfinite
  obtain ⟨hentries, htext⟩ := hexact hread
  exact ⟨⟨both, hboth, hentries, htext (by decide)⟩, ⟨newest, hnewest, (hexact' hread).1⟩,
    (ofJson_toJson_all infiniteHistory 2).2 (by decide)⟩

end FourFunction.History
