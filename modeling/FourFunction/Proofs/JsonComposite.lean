import FourFunction.Json.Composite
import FourFunction.Proofs.JsonScalar
import Mathlib.Tactic

/-!
# Reading back JSON arrays and objects

What the readers of items and members take back from their texts, `readList` and `readRecord` take
back from arrays and objects; and what they guarantee of any text holds of what is accepted.
-/

namespace FourFunction.Json

variable {α β σ : Type}

theorem ends_cons {c : Char} (h : c.isDigit = false ∧ c ≠ '.' ∧ c ≠ 'e' ∧ c ≠ 'E')
    (rest : List Char) : Ends (c :: rest) := by
  rintro d hd
  obtain rfl : c = d := by simpa using hd
  exact h

theorem toList_intercalate_cons (item : String) (items : List String) :
    (",".intercalate (item :: items)).toList =
      item.toList ++ items.flatMap fun item => ',' :: item.toList := by
  induction items generalizing item with
  | nil => simp
  | cons next items ih =>
    rw [String.intercalate_cons_cons, String.toList_append, ih]
    simp

/-! ### Arrays -/

/-- The text of a value is read, and does not look like the end of an array. -/
structure Reads (reader : Reader α) (text : String) (a : α) : Prop where
  read : ∀ rest, Ends rest → reader (text.toList ++ rest) = .ok (a, rest)
  start : ∃ c s, text.toList = c :: s ∧ isGap c = false ∧ c ≠ ']'

/-- The texts of items, each after its comma. -/
def itemsBehind (text : β → String) (bs : List β) : List Char :=
  bs.flatMap fun b => ',' :: (text b).toList

theorem ends_itemsBehind (text : β → String) (bs : List β) {rest : List Char} (hrest : Ends rest) :
    Ends (itemsBehind text bs ++ rest) := by
  cases bs with
  | nil => exact hrest
  | cons b bs => exact ends_cons (by decide) _

theorem itemsBehind_cons_append (text : β → String) (b : β) (bs : List β) (rest : List Char) :
    itemsBehind text (b :: bs) ++ rest =
      ',' :: ((text b).toList ++ (itemsBehind text bs ++ rest)) := by
  simp [itemsBehind]

section

variable {item : Reader α} {text : β → String} {value : β → α}

/-- The reader takes back the items in front of a text and goes on with the text. -/
theorem readItems_append {bs : List β} (h : ∀ b ∈ bs, Reads item (text b) (value b))
    {rest : List Char} (hrest : Ends rest) :
    readItems item (itemsBehind text bs ++ rest) =
      (readItems item rest).map fun (as, last) => (bs.map value ++ as, last) := by
  induction bs with
  | nil =>
    rw [itemsBehind, List.flatMap_nil, List.nil_append]
    cases readItems item rest <;> rfl
  | cons b bs ih =>
    obtain ⟨hb, hbs⟩ := List.forall_mem_cons.1 h
    have hread := hb.read _ (ends_itemsBehind text bs hrest)
    have hshorter : (itemsBehind text bs ++ rest).length <
        (',' :: ((text b).toList ++ (itemsBehind text bs ++ rest))).length := by
      simp only [List.length_cons, List.length_append]
      omega
    rw [itemsBehind_cons_append, readItems, skipGap_cons (by decide)]
    simp only [hread, ok_bind, hshorter, ↓reduceDIte]
    rw [ih hbs]
    cases readItems item rest <;> rfl

theorem readItems_end (item : Reader α) (rest : List Char) :
    readItems item (']' :: rest) = .ok ([], rest) := by
  rw [readItems, skipGap_cons (by decide)]
  rfl

theorem toList_array_cons_append (text : β → String) (b : β) (bs : List β) (rest : List Char) :
    (array ((b :: bs).map text)).toList ++ rest =
      '[' :: ((text b).toList ++ (itemsBehind text bs ++ ']' :: rest)) := by
  rw [array, String.toList_append, String.toList_append, List.map_cons, toList_intercalate_cons]
  simp [itemsBehind, List.flatMap_map]

theorem readList_bracket (item : Reader α) {c : Char} (s : List Char) (hgap : isGap c = false)
    (hne : c ≠ ']') :
    readList item ('[' :: c :: s) = item (c :: s) >>= fun (a, rest) =>
      readItems item rest >>= fun (as, last) => .ok (a :: as, last) := by
  rw [readList, skipGap_cons (by decide)]
  simp only [skipGap_cons hgap]
  split
  · next hbracket => exact absurd (List.cons.inj hbracket).1 hne
  · rfl

/-- The reader of arrays takes back an array of values that their reader takes back. -/
theorem readList_array {bs : List β} (h : ∀ b ∈ bs, Reads item (text b) (value b))
    (rest : List Char) :
    readList item ((array (bs.map text)).toList ++ rest) = .ok (bs.map value, rest) := by
  cases bs with
  | nil =>
    have htext : (array ([].map text)).toList ++ rest = '[' :: ']' :: rest := by
      simp [array, String.intercalate_nil]
    have hopen := skipGap_cons (c := '[') (by decide) (']' :: rest)
    have hclose := skipGap_cons (c := ']') (by decide) rest
    rw [htext]
    simp only [readList, hopen, hclose, List.map_nil]
  | cons b bs =>
    obtain ⟨hb, hbs⟩ := List.forall_mem_cons.1 h
    have hend : Ends (']' :: rest) := ends_cons (by decide) rest
    have hread := hb.read _ (ends_itemsBehind text bs hend)
    obtain ⟨c, s, hstart, hgap, hne⟩ := hb.start
    rw [toList_array_cons_append]
    rw [hstart, List.cons_append] at hread ⊢
    rw [readList_bracket item _ hgap hne, hread, ok_bind]
    simp only [readItems_append hbs hend, readItems_end, map_ok, ok_bind, List.append_nil,
      List.map_cons]

theorem readItems_error {front : List β} {bad : β} {fault : Fault}
    (hfront : ∀ b ∈ front, Reads item (text b) (value b))
    (hbad : ∀ rest, item ((text bad).toList ++ rest) = .error fault) (back : List β)
    (rest : List Char) :
    readItems item (itemsBehind text (front ++ bad :: back) ++ rest) = .error fault := by
  have hitems : itemsBehind text (front ++ bad :: back) =
      itemsBehind text front ++ itemsBehind text (bad :: back) := List.flatMap_append
  have hcomma :=
    ends_cons (c := ',') (by decide) ((text bad).toList ++ (itemsBehind text back ++ rest))
  rw [hitems, List.append_assoc, itemsBehind_cons_append, readItems_append hfront hcomma, readItems,
    skipGap_cons (by decide)]
  simp only [hbad, error_bind, map_error]

/-- The reader of arrays fails at the first value that its reader refuses. -/
theorem readList_array_error {front : List β} {bad : β} {fault : Fault}
    (hfront : ∀ b ∈ front, Reads item (text b) (value b))
    (hbad : ∀ rest, item ((text bad).toList ++ rest) = .error fault)
    (hstart : ∃ c s, (text bad).toList = c :: s ∧ isGap c = false ∧ c ≠ ']') (back : List β)
    (rest : List Char) :
    readList item ((array ((front ++ bad :: back).map text)).toList ++ rest) = .error fault := by
  cases front with
  | nil =>
    obtain ⟨c, s, hstart, hgap, hne⟩ := hstart
    have hread := hbad (itemsBehind text back ++ ']' :: rest)
    rw [List.nil_append, toList_array_cons_append]
    rw [hstart, List.cons_append] at hread ⊢
    rw [readList_bracket item _ hgap hne, hread, error_bind]
  | cons b front =>
    obtain ⟨hb, hbehind⟩ := List.forall_mem_cons.1 hfront
    have hread := hb.read _ (ends_itemsBehind text (front ++ bad :: back)
      (ends_cons (c := ']') (by decide) rest))
    obtain ⟨c, s, hstart, hgap, hne⟩ := hb.start
    rw [List.cons_append, toList_array_cons_append]
    rw [hstart, List.cons_append] at hread ⊢
    rw [readList_bracket item _ hgap hne, hread, ok_bind]
    simp only [readItems_error hbehind hbad, error_bind]

/-- An array with a value that its reader refuses is refused, with the fault of that value. -/
theorem readList_array_refused {fault : Fault} (accepted : β → Bool)
    (hreads : ∀ b, accepted b = true → Reads item (text b) (value b))
    (hrefuses : ∀ b, accepted b = false → ∀ rest, item ((text b).toList ++ rest) = .error fault)
    (hstart : ∀ b, ∃ c s, (text b).toList = c :: s ∧ isGap c = false ∧ c ≠ ']') {bs : List β}
    (hrefused : ∃ b ∈ bs, accepted b = false) (rest : List Char) :
    readList item ((array (bs.map text)).toList ++ rest) = .error fault := by
  obtain ⟨b, hmem, hb⟩ := hrefused
  -- the first such value is where reading ends
  obtain ⟨bad, hfind⟩ : ∃ bad, bs.find? (fun b => !accepted b) = some bad :=
    Option.isSome_iff_exists.1 (List.find?_isSome.2 ⟨b, hmem, by simp [hb]⟩)
  obtain ⟨hbad, front, back, rfl, hfront⟩ := List.find?_eq_some_iff_append.1 hfind
  exact readList_array_error (fun b hb => hreads b (by simpa using hfront b hb))
    (hrefuses bad (by simpa using hbad)) (hstart bad) back rest

end

/-! ### Objects -/

theorem memberName_quote (name : String) (rest : List Char) :
    memberName ((quote name).toList ++ rest) = .ok (name, rest) := by
  rw [toList_quote_append, memberName, skipGap_cons (by decide)]
  simp only [stringBody_flatMap_escape, map_ok, String.ofList_toList]

/-- What stands in front of a member. -/
def separator (first : Bool) : List Char := if first then [] else [',']

theorem ends_separator (s : List Char) : Ends (separator false ++ s) := ends_cons (by decide) s

theorem nextName?_quote (first : Bool) (name : String) (rest : List Char) :
    nextName? first (separator first ++ ((quote name).toList ++ rest)) =
      .ok (some (name, rest)) := by
  have hname := memberName_quote name rest
  cases first with
  | true =>
    rw [toList_quote_append] at hname ⊢
    rw [separator, if_pos rfl, List.nil_append, nextName?, skipGap_cons (by decide)]
    simp [hname]
  | false =>
    rw [separator, if_neg Bool.false_ne_true, List.singleton_append, nextName?,
      skipGap_cons (by decide)]
    simp [hname]

theorem colon_cons (s : List Char) : colon (':' :: s) = .ok s := by
  have hgap := skipGap_cons (c := ':') (by decide) s
  simp only [colon, hgap]

theorem readMember_known {fields : List (Field σ)} {field : Field σ} {slots : σ} {name : String}
    (hfield : fields.find? (·.name == name) = some field) (hset : field.isSet slots = false)
    (s : List Char) : readMember fields slots name (':' :: s) = field.read slots s := by
  simp [readMember, hfield, hset, colon_cons]

theorem readMembers_separator {fields : List (Field σ)} {field : Field σ} {slots : σ}
    {name : String} (value : String) (rest : List Char) (first : Bool)
    (hfield : fields.find? (·.name == name) = some field) (hset : field.isSet slots = false) :
    readMembers fields first slots (separator first ++ ((member name value).toList ++ rest)) =
      field.read slots (value.toList ++ rest) >>= fun (slots', rest') =>
        if rest'.length < (separator first ++ ((member name value).toList ++ rest)).length then
          readMembers fields false slots' rest'
        else .error .malformed := by
  have htext : (member name value).toList ++ rest =
      (quote name).toList ++ (':' :: (value.toList ++ rest)) := by simp [member]
  rw [htext, readMembers, nextName?_quote, ok_bind]
  simp only [readMember_known hfield hset, dite_eq_ite]

theorem readMembers_member {fields : List (Field σ)} {field : Field σ} {slots slots' : σ}
    {name value : String} {rest : List Char} (first : Bool)
    (hfield : fields.find? (·.name == name) = some field) (hset : field.isSet slots = false)
    (hread : field.read slots (value.toList ++ rest) = .ok (slots', rest)) :
    readMembers fields first slots (separator first ++ ((member name value).toList ++ rest)) =
      readMembers fields false slots' rest := by
  have hshorter :
      rest.length < (separator first ++ ((member name value).toList ++ rest)).length := by
    simp only [member, toList_quote_append, String.toList_append, List.length_append,
      List.append_assoc, List.length_cons]
    omega
  rw [readMembers_separator value rest first hfield hset, hread, ok_bind]
  exact if_pos hshorter

theorem readMembers_member_error {fields : List (Field σ)} {field : Field σ} {slots : σ}
    {name value : String} {rest : List Char} {fault : Fault} (first : Bool)
    (hfield : fields.find? (·.name == name) = some field) (hset : field.isSet slots = false)
    (hread : field.read slots (value.toList ++ rest) = .error fault) :
    readMembers fields first slots (separator first ++ ((member name value).toList ++ rest)) =
      .error fault := by
  rw [readMembers_separator value rest first hfield hset, hread, error_bind]

theorem readMembers_end {fields : List (Field σ)} {slots : σ} (first : Bool) (rest : List Char) :
    readMembers fields first slots ('\x7d' :: rest) = .ok (slots, rest) := by
  have hclose := skipGap_cons (c := '\x7d') (by decide) rest
  rw [readMembers]
  simp [nextName?, hclose]

def membersText : (first : Bool) → List (String × String) → List Char
  | _, [] => []
  | first, m :: members =>
    separator first ++ ((member m.1 m.2).toList ++ membersText false members)

theorem membersText_cons_append (first : Bool) (name value : String)
    (members : List (String × String)) (rest : List Char) :
    membersText first ((name, value) :: members) ++ rest =
      separator first ++ ((member name value).toList ++ (membersText false members ++ rest)) := by
  simp [membersText]

theorem toList_object_append (members : List (String × String)) (rest : List Char) :
    (object members).toList ++ rest = '\x7b' :: (membersText true members ++ '\x7d' :: rest) := by
  have hbehind : ∀ members : List (String × String), membersText false members =
      (members.map fun m => member m.1 m.2).flatMap fun text => ',' :: text.toList := by
    intro members
    induction members with
    | nil => rfl
    | cons m members ih => simp [membersText, separator, ih]
  cases members with
  | nil => simp [object, membersText, String.intercalate_nil]
  | cons m members =>
    rw [object, String.toList_append, String.toList_append, List.map_cons, toList_intercalate_cons]
    simp [membersText, separator, hbehind]

theorem exists_toList_object (members : List (String × String)) :
    ∃ c s, (object members).toList = c :: s ∧ isGap c = false ∧ c ≠ ']' := by
  have htext := toList_object_append members []
  rw [List.append_nil] at htext
  exact ⟨'\x7b', _, htext, by decide, by decide⟩

theorem ends_membersText (members : List (String × String)) (rest : List Char) :
    Ends (membersText false members ++ '\x7d' :: rest) := by
  cases members with
  | nil => exact ends_cons (by decide) rest
  | cons m members =>
    rw [membersText_cons_append]
    exact ends_separator _

/-- Each member has the name of a field whose slot is still empty, and is read into that slot. -/
inductive Fills (fields : List (Field σ)) : σ → List (String × String) → σ → Prop where
  | nil (slots : σ) : Fills fields slots [] slots
  | cons {slots slots' last : σ} {name value : String} {members : List (String × String)}
      {field : Field σ} (hfield : fields.find? (·.name == name) = some field)
      (hset : field.isSet slots = false)
      (hread : ∀ rest, Ends rest → field.read slots (value.toList ++ rest) = .ok (slots', rest))
      (hbehind : Fills fields slots' members last) :
      Fills fields slots ((name, value) :: members) last

section

variable {fields : List (Field σ)} {start mid last : σ} {front : List (String × String)}

theorem Fills.readMembers_eq {members : List (String × String)}
    (h : Fills fields start members last) (first : Bool) (rest : List Char) :
    readMembers fields first start (membersText first members ++ '\x7d' :: rest) =
      .ok (last, rest) := by
  induction h generalizing first with
  | nil slots => exact readMembers_end first rest
  | cons hfield hset hread _ ih =>
    rw [membersText_cons_append,
      readMembers_member first hfield hset (hread _ (ends_membersText _ _)), ih]

/-- Members are refused at the first one whose value its field refuses. -/
theorem Fills.readMembers_error (h : Fills fields start front mid) {field : Field σ}
    {name value : String} {fault : Fault} (hfield : fields.find? (·.name == name) = some field)
    (hset : field.isSet mid = false)
    (hread : ∀ rest, field.read mid (value.toList ++ rest) = .error fault)
    (back : List (String × String)) (first : Bool) (rest : List Char) :
    readMembers fields first start
      (membersText first (front ++ (name, value) :: back) ++ '\x7d' :: rest) = .error fault := by
  induction h generalizing first with
  | nil slots =>
    rw [List.nil_append, membersText_cons_append,
      readMembers_member_error first hfield hset (hread _)]
  | cons hfield' hset' hread' _ ih =>
    rw [List.cons_append, membersText_cons_append,
      readMembers_member first hfield' hset' (hread' _ (ends_membersText _ _)), ih hset hread]

theorem readRecord_brace (fields : List (Field σ)) (start : σ) (finish : σ → Option α)
    (s : List Char) :
    readRecord fields start finish ('\x7b' :: s) = readMembers fields true start s >>=
      fun (slots, rest) => readRecord.complete finish slots rest := by
  rw [readRecord, skipGap_cons (by decide)]
  rfl

theorem Fills.readRecord_eq {members : List (String × String)}
    (h : Fills fields start members last) {finish : σ → Option α} {a : α}
    (hfinish : finish last = some a) (rest : List Char) :
    readRecord fields start finish ((object members).toList ++ rest) = .ok (a, rest) := by
  rw [toList_object_append, readRecord_brace, h.readMembers_eq, ok_bind]
  simp only [readRecord.complete, hfinish]

theorem Fills.readRecord_error (h : Fills fields start front mid) {field : Field σ}
    {name value : String} {fault : Fault} (hfield : fields.find? (·.name == name) = some field)
    (hset : field.isSet mid = false)
    (hread : ∀ rest, field.read mid (value.toList ++ rest) = .error fault)
    (finish : σ → Option α) (back : List (String × String)) (rest : List Char) :
    readRecord fields start finish ((object (front ++ (name, value) :: back)).toList ++ rest) =
      .error fault := by
  rw [toList_object_append, readRecord_brace, h.readMembers_error hfield hset hread, error_bind]

end

/-! ### Choices -/

theorem toList_object_singleton_append (name value : String) (rest : List Char) :
    (object [(name, value)]).toList ++ rest =
      '\x7b' :: ((quote name).toList ++ ':' :: (value.toList ++ '\x7d' :: rest)) := by
  simp [object, member]

section

variable {alternatives : List (Alternative α)} {alternative : Alternative α} {name : String}
  (hnamed : alternatives.find? (·.name == name) = some alternative)

include hnamed

/-- The name of an alternative without content is enough. -/
theorem readChoice_quote {a : α} (hbare : alternative.bare? = some a) (rest : List Char) :
    readChoice alternatives ((quote name).toList ++ rest) = .ok (a, rest) := by
  rw [toList_quote_append, readChoice, skipGap_cons (by decide)]
  simp only [stringBody_flatMap_escape, ok_bind, String.ofList_toList, readChoice.named, hnamed,
    Option.bind_some, hbare]

theorem readChoice_object {value : String} {rest : List Char} {a : α}
    (hread : alternative.content (value.toList ++ '\x7d' :: rest) = .ok (a, '\x7d' :: rest)) :
    readChoice alternatives ((object [(name, value)]).toList ++ rest) = .ok (a, rest) := by
  have hclose := skipGap_cons (c := '\x7d') (by decide) rest
  rw [toList_object_singleton_append, readChoice, skipGap_cons (by decide)]
  simp only [memberName_quote, ok_bind, readChoice.named, hnamed, colon_cons, hread, hclose]

theorem readChoice_object_error {value : String} {rest : List Char} {fault : Fault}
    (hread : alternative.content (value.toList ++ '\x7d' :: rest) = .error fault) :
    readChoice alternatives ((object [(name, value)]).toList ++ rest) = .error fault := by
  rw [toList_object_singleton_append, readChoice, skipGap_cons (by decide)]
  simp only [memberName_quote, ok_bind, readChoice.named, hnamed, colon_cons, hread, error_bind]

end

/-! ### Whole texts -/

/-- A text is parsed if its reader leaves nothing but blanks. -/
theorem parse_eq_ok {reader : Reader α} {text : String} {a : α} {rest : List Char}
    (hread : reader text.toList = .ok (a, rest)) (hrest : skipGap rest = []) :
    parse reader text = .ok a := by
  rw [parse, hread, ok_bind]
  dsimp only
  rw [hrest]
  rfl

/-- What is read off the front of any text is parsed from a text, and from a line. -/
theorem parse_text_line {reader : Reader α} {text : String} {a : α}
    (hread : ∀ rest, Ends rest → reader (text.toList ++ rest) = .ok (a, rest)) :
    parse reader text = .ok a ∧ parse reader (text.push '\n') = .ok a := by
  have htext : reader text.toList = .ok (a, []) := by
    simpa using hread [] (by simp [Ends])
  have hline : reader (text.push '\n').toList = .ok (a, ['\n']) := by
    rw [String.toList_push]
    exact hread ['\n'] (ends_cons (by decide) [])
  exact ⟨parse_eq_ok htext rfl, parse_eq_ok hline rfl⟩

/-! ### What a text that is accepted guarantees -/

theorem forall_of_readItems {P : α → Prop} {item : Reader α}
    (hitem : ∀ s a rest, item s = .ok (a, rest) → P a) {s : List Char} {as : List α}
    {last : List Char} (h : readItems item s = .ok (as, last)) : ∀ a ∈ as, P a := by
  induction hlength : s.length using Nat.strongRecOn generalizing s as last with
  | ind n ih =>
    rw [readItems] at h
    split at h
    · obtain ⟨rfl, -⟩ := Prod.mk.inj (Except.ok.inj h)
      simp
    · obtain ⟨⟨a, rest⟩, ha, h⟩ := bind_eq_ok_iff.1 h
      dsimp only at h
      split_ifs at h with hshorter
      obtain ⟨⟨as', last'⟩, has, h⟩ := bind_eq_ok_iff.1 h
      obtain ⟨rfl, -⟩ := Prod.mk.inj (Except.ok.inj h)
      exact List.forall_mem_cons.2
        ⟨hitem _ a rest ha, ih rest.length (hlength ▸ hshorter) has rfl⟩
    · cases h
    · cases h

/-- What holds of every item that is accepted holds of all items of an accepted array. -/
theorem forall_of_readList {P : α → Prop} {item : Reader α}
    (hitem : ∀ s a rest, item s = .ok (a, rest) → P a) {s : List Char} {as : List α}
    {last : List Char} (h : readList item s = .ok (as, last)) : ∀ a ∈ as, P a := by
  rw [readList] at h
  split at h
  · split at h
    · obtain ⟨rfl, -⟩ := Prod.mk.inj (Except.ok.inj h)
      simp
    · obtain ⟨⟨a, rest⟩, ha, h⟩ := bind_eq_ok_iff.1 h
      obtain ⟨⟨as', last'⟩, has, h⟩ := bind_eq_ok_iff.1 h
      obtain ⟨rfl, -⟩ := Prod.mk.inj (Except.ok.inj h)
      exact List.forall_mem_cons.2 ⟨hitem _ a rest ha, forall_of_readItems hitem has⟩
  · cases h

section

variable {P : σ → Prop} {fields : List (Field σ)}
  (hfields : ∀ field ∈ fields, ∀ slots s slots' rest,
    P slots → field.read slots s = .ok (slots', rest) → P slots')

include hfields

theorem readInOrder_keeps {remaining : List (Field σ)} (hsub : ∀ field ∈ remaining, field ∈ fields)
    {first : Bool} {slots slots' : σ} {s rest : List Char} (hslots : P slots)
    (h : readInOrder first slots remaining s = .ok (slots', rest)) : P slots' := by
  induction remaining generalizing first slots s with
  | nil =>
    rw [readInOrder] at h
    split at h
    · obtain ⟨rfl, -⟩ := Prod.mk.inj (Except.ok.inj h)
      exact hslots
    · cases h
    · cases h
  | cons field remaining ih =>
    obtain ⟨hfield, hremaining⟩ := List.forall_mem_cons.1 hsub
    rw [readInOrder] at h
    obtain ⟨next, -, h⟩ := bind_eq_ok_iff.1 h
    cases next with
    | none => cases h
    | some s' =>
      obtain ⟨⟨slots₁, rest₁⟩, hread, h⟩ := bind_eq_ok_iff.1 h
      exact ih hremaining (hfields field hfield _ _ _ _ hslots hread) h

theorem readMember_keeps {slots slots' : σ} {name : String} {s rest : List Char} (hslots : P slots)
    (h : readMember fields slots name s = .ok (slots', rest)) : P slots' := by
  rw [readMember] at h
  split at h
  · next field hfound =>
    split_ifs at h
    obtain ⟨s', -, h⟩ := bind_eq_ok_iff.1 h
    exact hfields field (List.mem_of_find?_eq_some hfound) _ _ _ _ hslots h
  · obtain ⟨s', -, h⟩ := bind_eq_ok_iff.1 h
    obtain ⟨rest', -, h⟩ := bind_eq_ok_iff.1 h
    obtain ⟨rfl, -⟩ := Prod.mk.inj (Except.ok.inj h)
    exact hslots

theorem readMembers_keeps {first : Bool} {slots slots' : σ} {s rest : List Char} (hslots : P slots)
    (h : readMembers fields first slots s = .ok (slots', rest)) : P slots' := by
  -- each member makes the text shorter, and the reader checks that
  induction hlength : s.length using Nat.strongRecOn generalizing first slots s with
  | ind n ih =>
    rw [readMembers] at h
    obtain ⟨next, -, h⟩ := bind_eq_ok_iff.1 h
    cases next with
    | none =>
      obtain ⟨rfl, -⟩ := Prod.mk.inj (Except.ok.inj h)
      exact hslots
    | some next =>
      obtain ⟨⟨slots₁, rest₁⟩, hmember, h⟩ := bind_eq_ok_iff.1 h
      dsimp only at h
      split_ifs at h with hshorter
      exact ih rest₁.length (hlength ▸ hshorter) (readMember_keeps hfields hslots hmember) h rfl

/-- What every field keeps of the slots holds of the slots of an accepted record. -/
theorem exists_slots_of_readRecord {start : σ} {finish : σ → Option α} (hstart : P start)
    {s : List Char} {a : α} {rest : List Char}
    (h : readRecord fields start finish s = .ok (a, rest)) :
    ∃ slots, P slots ∧ finish slots = some a := by
  have hcomplete : ∀ {slots last}, readRecord.complete finish slots last = .ok (a, rest) →
      finish slots = some a := by
    intro slots last hslots
    rw [readRecord.complete] at hslots
    split at hslots
    · next heq =>
      obtain ⟨rfl, -⟩ := Prod.mk.inj (Except.ok.inj hslots)
      exact heq
    · cases hslots
  rw [readRecord] at h
  split at h
  · obtain ⟨⟨slots, last⟩, hmembers, h⟩ := bind_eq_ok_iff.1 h
    exact ⟨slots, readMembers_keeps hfields hstart hmembers, hcomplete h⟩
  · obtain ⟨⟨slots, last⟩, hvalues, h⟩ := bind_eq_ok_iff.1 h
    exact ⟨slots, readInOrder_keeps hfields (fun _ => id) hstart hvalues, hcomplete h⟩
  · cases h

end

end FourFunction.Json
