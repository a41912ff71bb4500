import ReachableCode.Text.Csv

/-!
Reading comma-separated values. A field is quoted or not, and a quote inside a quoted one is written twice. Rows
of two or more fields are read back as they were, whatever their fields hold.
-/

namespace ReachableCode.Csv

/-- Where the reader of a text stands in a field, with the characters of the field so far, the last one first. -/
inductive Reading where
  | start
  /-- In a field without quotes. -/
  | bare (read : List Char)
  /-- Inside the quotes of a field. -/
  | quoted (read : List Char)
  /-- Behind a quote, which ends the field or is the first of two. -/
  | behindQuote (read : List Char)

namespace Reading

/-- The field, if it may end where the reader stands. -/
def field? : Reading → Option String
  | start => some ""
  | bare read | behindQuote read => some (String.ofList read.reverse)
  | quoted _ => none

/-- Takes a character that does not end the field. A field that does not start with a quote has none. -/
def next : Reading → Char → Option Reading
  | start, c => some (if c = '"' then quoted [] else bare [c])
  | bare read, c => if c = '"' then none else some (bare (c :: read))
  | quoted read, c => some (if c = '"' then behindQuote read else quoted (c :: read))
  | behindQuote read, c => if c = '"' then some (quoted ('"' :: read)) else none

/-- The row that ends with a field; a blank line is no row. -/
def endRow : Reading → List String → String → List (List String)
  | start, [], _ => []
  | _, fields, last => [fields ++ [last]]

end Reading

/-- Reads the rest of a text, given the fields of the row so far. Rows end with a line feed, a carriage return or
both. -/
def readRows (r : Reading) (fields : List String) : List Char → Option (List (List String))
  | [] => (r.field?).map (r.endRow fields)
  | c :: rest =>
    match r.field? with
    | none => (r.next c).bind (readRows · fields rest)
    | some s =>
      if c = ',' then readRows .start (fields ++ [s]) rest
      else if c = '\n' ∨ c = '\r' then (readRows .start [] rest).map (r.endRow fields s ++ ·)
      else (r.next c).bind (readRows · fields rest)

/-- The rows of a text. -/
def parse (text : String) : Option (List (List String)) :=
  readRows .start [] text.toList

variable {r : Reading} {fields done : List String} {s : String} {c : Char} {cs rest : List Char}

theorem isSpecial_eq_false : isSpecial c = false ↔ c ≠ ',' ∧ c ≠ '"' ∧ c ≠ '\n' ∧ c ≠ '\r' := by
  simp [isSpecial]

theorem readRows_of_not_special (hc : isSpecial c = false) :
    readRows r fields (c :: rest) = (r.next c).bind (readRows · fields rest) := by
  obtain ⟨comma, -, feed, carriage⟩ := isSpecial_eq_false.1 hc
  rw [readRows]
  split
  · rfl
  · rw [if_neg comma, if_neg (by simp [feed, carriage])]

theorem readRows_bare {read : List Char} (h : ∀ c ∈ cs, isSpecial c = false) :
    readRows (.bare read) fields (cs ++ rest) = readRows (.bare (cs.reverse ++ read)) fields rest := by
  induction cs generalizing read with
  | nil => rfl
  | cons c cs ih =>
    obtain ⟨hc, h⟩ := List.forall_mem_cons.1 h
    have next : (Reading.bare read).next c = some (.bare (c :: read)) := if_neg (isSpecial_eq_false.1 hc).2.1
    rw [List.cons_append, readRows_of_not_special hc, next, Option.bind_some, ih h]
    simp

/-- Whatever stands between the quotes is read; a comma or a line break there ends nothing. -/
theorem readRows_quoted (cs read : List Char) :
    readRows (.quoted read) fields (cs.flatMap double ++ '"' :: rest) =
      readRows (.behindQuote (cs.reverse ++ read)) fields rest := by
  induction cs generalizing read with
  | nil => simp [readRows, Reading.field?, Reading.next]
  | cons c cs ih =>
    rw [List.flatMap_cons, List.append_assoc]
    by_cases quote : c = '"'
    · simp [double, quote, readRows, Reading.field?, Reading.next, ih]
    · simp [double, quote, readRows, Reading.field?, Reading.next, ih]

/-- Behind the text of a field the reader stands where that field may end. -/
theorem exists_reading_field (s : String) : ∃ r : Reading, r.field? = some s ∧
    ∀ fields rest, readRows .start fields ((field s).toList ++ rest) = readRows r fields rest := by
  rw [field]
  split
  · refine ⟨.behindQuote s.toList.reverse, by simp [Reading.field?], fun fields rest => ?_⟩
    have opened : readRows .start fields ('"' :: (s.toList.flatMap double ++ '"' :: rest)) =
        readRows (.quoted []) fields (s.toList.flatMap double ++ '"' :: rest) := by
      simp [readRows, Reading.field?, Reading.next]
    simpa [opened] using readRows_quoted s.toList []
  next plain =>
    have plain : ∀ c ∈ s.toList, isSpecial c = false := by simpa using plain
    cases hs : s.toList with
    | nil => exact ⟨.start, by simp [Reading.field?, String.toList_eq_nil_iff.1 hs], fun _ _ => rfl⟩
    | cons c cs =>
      rw [hs] at plain
      obtain ⟨hc, plain⟩ := List.forall_mem_cons.1 plain
      refine ⟨.bare (cs.reverse ++ [c]), ?_, fun fields rest => ?_⟩
      · rw [Reading.field?, List.reverse_append, List.reverse_reverse]
        simp [← hs]
      · have next : Reading.start.next c = some (.bare [c]) :=
          congrArg some (if_neg (isSpecial_eq_false.1 hc).2.1)
        rw [List.cons_append, readRows_of_not_special hc, next, Option.bind_some, readRows_bare plain]

theorem readRows_comma (h : r.field? = some s) :
    readRows r fields (',' :: rest) = readRows .start (fields ++ [s]) rest := by
  simp [readRows, h]

theorem readRows_lineFeed (h : r.field? = some s) (hne : done ≠ []) :
    readRows r done ('\n' :: rest) = (readRows .start [] rest).map ((done ++ [s]) :: ·) := by
  obtain ⟨f, fs, rfl⟩ := List.exists_cons_of_ne_nil hne
  cases r <;> simp [readRows, h, Reading.endRow]

/-- A row of two or more fields is read back; of the fields before there may be some already. -/
theorem readRows_fields (done : List String) (h : done ≠ [] ∨ 2 ≤ fields.length) (hne : fields ≠ []) :
    readRows .start done ([','].intercalate (fields.map fun s => (field s).toList) ++ '\n' :: rest) =
      (readRows .start [] rest).map ((done ++ fields) :: ·) := by
  induction fields generalizing done with
  | nil => exact absurd rfl hne
  | cons s fields ih =>
    obtain ⟨r, ends, reads⟩ := exists_reading_field s
    cases fields with
    | nil =>
      have hd : done ≠ [] := h.resolve_right (by simp)
      rw [List.map_singleton, List.intercalate_singleton, reads, readRows_lineFeed ends hd]
    | cons t fields =>
      have more := ih (done ++ [s]) (Or.inl (by simp)) (by simp)
      rw [List.map_cons] at more
      rw [List.map_cons, List.map_cons, List.intercalate_cons_cons, List.append_assoc, List.append_assoc,
        reads, List.singleton_append, readRows_comma ends, more]
      simp

/-- Rows of two or more fields are read back. -/
theorem parse_rows (rows : List (List String)) (h : ∀ fields ∈ rows, 2 ≤ fields.length) :
    parse (String.join (rows.map row)) = some rows := by
  rw [parse, String.toList_join]
  induction rows with
  | nil => rfl
  | cons fields rows ih =>
    obtain ⟨two, h⟩ := List.forall_mem_cons.1 h
    have text : (row fields).toList = [','].intercalate (fields.map fun s => (field s).toList) ++ ['\n'] := by
      simp [row, String.toList_intercalate, Function.comp_def]
    rw [List.map_cons, List.flatMap_cons, text, List.append_assoc, List.singleton_append,
      readRows_fields [] (Or.inr two) (List.ne_nil_of_length_pos (by omega)), ih h]
    simp

end ReachableCode.Csv
