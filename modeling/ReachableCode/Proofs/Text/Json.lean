import Mathlib.Data.List.Forall2
import ReachableCode.Proofs.Text.Hex
import ReachableCode.Text.Json

/-!
Reading JSON. A text is cut into tokens, with any blanks between them, and the tokens are read with a stack of what
is open. The part of JSON that is read has texts, natural numbers, arrays and objects; a value of these is read back
as it was from either of its two forms, whatever its texts hold.
-/

namespace ReachableCode.Json

inductive Token where
  | openArray
  | closeArray
  | openObject
  | closeObject
  | comma
  | colon
  | string (s : String)
  | number (n : Nat)
  deriving DecidableEq

/-- Where the reader of a text stands among its tokens. Characters that are read are kept with the last one first. -/
inductive Lexing where
  | between
  | number (n : Nat)
  | string (read : List Char)
  /-- Behind a backslash. -/
  | escaped (read : List Char)
  /-- In a character that is given by its code, of which some digits are left. -/
  | unicode (read : List Char) (left code : Nat)
  deriving DecidableEq

def isBlank (c : Char) : Bool :=
  c = ' ' || c = '\n' || c = '\r' || c = '\t'

def digit? (c : Char) : Option Nat :=
  if '0' ≤ c ∧ c ≤ '9' then some (c.toNat - 48) else none

/-- The token that a character is by itself. -/
def mark? : Char → Option Token
  | '[' => some .openArray
  | ']' => some .closeArray
  | '\x7b' => some .openObject
  | '\x7d' => some .closeObject
  | ',' => some .comma
  | ':' => some .colon
  | _ => none

/-- The character that a character behind a backslash stands for. -/
def unescape? : Char → Option Char
  | '"' => some '"'
  | '\\' => some '\\'
  | '/' => some '/'
  | 'b' => some '\x08'
  | 'f' => some '\x0c'
  | 'n' => some '\n'
  | 'r' => some '\r'
  | 't' => some '\t'
  | _ => none

namespace Lexing

/-- Takes a character between tokens, which may be a token or begin one. -/
def start (c : Char) : Option (List Token × Lexing) :=
  if isBlank c then some ([], between)
  else if c = '"' then some ([], string [])
  else
    match digit? c with
    | some d => some ([], number d)
    | none => (mark? c).map fun t => ([t], between)

/-- Takes a character, which may complete tokens. No number has a zero before other digits, a text has no control
characters, and codes of halves of characters are not read. -/
def next : Lexing → Char → Option (List Token × Lexing)
  | between, c => start c
  | number n, c =>
    match digit? c with
    | some d => if n = 0 then none else some ([], number (10 * n + d))
    | none => (start c).map fun (ts, l) => (.number n :: ts, l)
  | string read, c =>
    if c = '"' then some ([.string (String.ofList read.reverse)], between)
    else if c = '\\' then some ([], escaped read)
    else if c.toNat < 32 then none
    else some ([], string (c :: read))
  | escaped read, c =>
    if c = 'u' then some ([], unicode read 4 0)
    else (unescape? c).map fun e => ([], string (e :: read))
  | unicode read left code, c => do
    let code := 16 * code + (← Hex.value? c)
    if 1 < left then return ([], unicode read (left - 1) code)
    else if code.isValidChar then return ([], string (Char.ofNat code :: read))
    else none

/-- The tokens of the rest of a text, if the text is one of tokens. -/
def tokens : Lexing → List Char → Option (List Token)
  | between, [] => some []
  | number n, [] => some [.number n]
  | _, [] => none
  | l, c :: rest => (l.next c).bind fun (ts, l) => (tokens l rest).map (ts ++ ·)

end Lexing

/-- An array or object whose end is not read yet, with what is read of it. -/
inductive Frame where
  | array (items : List Value)
  /-- The value of the key is next or has just been read. -/
  | object (fields : List (String × Value)) (key : String)

/-- What is next in the array or object that was begun last. -/
inductive Place where
  | value
  /-- A value or the end of an array that has none. -/
  | firstItem
  /-- A key or the end of an object that has none. -/
  | firstField
  | key (fields : List (String × Value))
  | colon (fields : List (String × Value)) (key : String)
  | after (v : Value)

namespace Place

/-- Takes a token where a value has to begin. -/
def beginValue (outer : List Frame) : Token → Option (Place × List Frame)
  | .string s => some (after (.string s), outer)
  | .number n => some (after (.number n), outer)
  | .openArray => some (firstItem, outer)
  | .openObject => some (firstField, outer)
  | _ => none

/-- Takes a token behind a value. -/
def endValue (v : Value) : List Frame → Token → Option (Place × List Frame)
  | .array items :: outer, .comma => some (value, .array (items ++ [v]) :: outer)
  | .array items :: outer, .closeArray => some (after (.array (items ++ [v])), outer)
  | .object fields k :: outer, .comma => some (key (fields ++ [(k, v)]), outer)
  | .object fields k :: outer, .closeObject => some (after (.object (fields ++ [(k, v)])), outer)
  | _, _ => none

def next (outer : List Frame) : Place → Token → Option (Place × List Frame)
  | value, t => beginValue outer t
  | firstItem, .closeArray => some (after (.array []), outer)
  | firstItem, t => beginValue (.array [] :: outer) t
  | firstField, .closeObject => some (after (.object []), outer)
  | firstField, .string k => some (colon [] k, outer)
  | key fields, .string k => some (colon fields k, outer)
  | colon fields k, .colon => some (value, .object fields k :: outer)
  | after v, t => endValue v outer t
  | _, _ => none

/-- The value that the rest of the tokens completes. -/
def read (place : Place) (outer : List Frame) : List Token → Option Value
  | [] =>
    match place, outer with
    | after v, [] => some v
    | _, _ => none
  | t :: rest => (place.next outer t).bind fun (place, outer) => read place outer rest

end Place

/-- The value that a text is. -/
def parse (text : String) : Option Value :=
  (Lexing.between.tokens text.toList).bind (Place.value.read [])

/-- Tokens with commas between them. -/
def joined : List (List Token) → List Token
  | [] => []
  | ts :: rest => ts ++ rest.flatMap (.comma :: ·)

mutual

/-- The tokens of a value. -/
def Value.tokens : Value → List Token
  | .string s => [.string s]
  | .number n => [.number n]
  | .array items => .openArray :: (joined (itemTokens items) ++ [.closeArray])
  | .object fields => .openObject :: (joined (fieldTokens fields) ++ [.closeObject])

def itemTokens : List Value → List (List Token)
  | [] => []
  | v :: rest => v.tokens :: itemTokens rest

def fieldTokens : List (String × Value) → List (List Token)
  | [] => []
  | (key, v) :: rest => (.string key :: .colon :: v.tokens) :: fieldTokens rest

end

/-- The first item of an array begins as any other value does. -/
theorem read_firstItem (v : Value) {outer : List Frame} {ts : List Token} :
    Place.firstItem.read outer (v.tokens ++ ts) = Place.value.read (.array [] :: outer) (v.tokens ++ ts) := by
  cases v <;> rw [Value.tokens] <;> rfl

-- The reader has a stack and no recursion over values, so each statement is about any stack that is open and any
-- tokens that follow; the recursion is that of the value whose tokens are read.
mutual

/-- The tokens of a value are read as that value, whatever it stands in and whatever follows. -/
theorem read_tokens (v : Value) (outer : List Frame) (ts : List Token) :
    Place.value.read outer (v.tokens ++ ts) = (Place.after v).read outer ts := by
  match v with
  | .string s => rw [Value.tokens]; rfl
  | .number n => rw [Value.tokens]; rfl
  | .array [] => rw [Value.tokens]; rfl
  | .array (v :: items) =>
    have first : Place.value.read outer ((Value.array (v :: items)).tokens ++ ts) =
        Place.firstItem.read outer (v.tokens ++ ((itemTokens items).flatMap (.comma :: ·) ++ .closeArray :: ts)) := by
      simp [Value.tokens, itemTokens, joined, Place.read, Place.next, Place.beginValue]
    rw [first, read_firstItem, read_tokens v, read_itemTokens items, List.nil_append]
  | .object [] => rw [Value.tokens]; rfl
  | .object ((k, v) :: fields) =>
    have first : Place.value.read outer ((Value.object ((k, v) :: fields)).tokens ++ ts) =
        Place.value.read (.object [] k :: outer)
          (v.tokens ++ ((fieldTokens fields).flatMap (.comma :: ·) ++ .closeObject :: ts)) := by
      simp [Value.tokens, fieldTokens, joined, Place.read, Place.next, Place.beginValue]
    rw [first, read_tokens v, read_fieldTokens fields, List.nil_append]

/-- The items behind one item of an array, up to its end. -/
theorem read_itemTokens (items : List Value) (done : List Value) (v : Value) (outer : List Frame) (ts : List Token) :
    (Place.after v).read (.array done :: outer) ((itemTokens items).flatMap (.comma :: ·) ++ .closeArray :: ts) =
      (Place.after (.array (done ++ v :: items))).read outer ts := by
  match items with
  | [] => rw [itemTokens]; rfl
  | w :: items =>
    have next : (Place.after v).read (.array done :: outer)
        ((itemTokens (w :: items)).flatMap (.comma :: ·) ++ .closeArray :: ts) =
        Place.value.read (.array (done ++ [v]) :: outer)
          (w.tokens ++ ((itemTokens items).flatMap (.comma :: ·) ++ .closeArray :: ts)) := by
      simp [itemTokens, Place.read, Place.next, Place.endValue]
    rw [next, read_tokens w, read_itemTokens items, List.append_assoc, List.singleton_append]

/-- The fields behind one field of an object, up to its end. -/
theorem read_fieldTokens (fields done : List (String × Value)) (k : String) (v : Value) (outer : List Frame)
    (ts : List Token) :
    (Place.after v).read (.object done k :: outer) ((fieldTokens fields).flatMap (.comma :: ·) ++ .closeObject :: ts) =
      (Place.after (.object (done ++ (k, v) :: fields))).read outer ts := by
  match fields with
  | [] => rw [fieldTokens]; rfl
  | (l, w) :: fields =>
    have next : (Place.after v).read (.object done k :: outer)
        ((fieldTokens ((l, w) :: fields)).flatMap (.comma :: ·) ++ .closeObject :: ts) =
        Place.value.read (.object (done ++ [(k, v)]) l :: outer)
          (w.tokens ++ ((fieldTokens fields).flatMap (.comma :: ·) ++ .closeObject :: ts)) := by
      simp [fieldTokens, Place.read, Place.next, Place.endValue]
    rw [next, read_tokens w, read_fieldTokens fields, List.append_assoc, List.singleton_append]

end

open Lexing (between)

section Lexing

variable {c d : Char} {cs ds gap rest read : List Char} {l m : Lexing} {t : Token} {ts us : List Token} {n : Nat}

/-- No digit goes on where the text is cut. -/
def Ends (rest : List Char) : Prop :=
  ∀ c ∈ rest.head?, digit? c = none

/-- A text is read as tokens, whatever follows but a digit. -/
def Reads (cs : List Char) (ts : List Token) : Prop :=
  ∀ rest, Ends rest → between.tokens (cs ++ rest) = (between.tokens rest).map (ts ++ ·)

theorem Ends.cons (hc : digit? c = none) : Ends (c :: rest) := by
  simpa [Ends] using hc

theorem tokens_cons (h : l.next c = some (ts, m)) :
    l.tokens (c :: rest) = (m.tokens rest).map (ts ++ ·) := by
  cases l <;> rw [Lexing.tokens, h, Option.bind_some]

theorem tokens_silent (h : l.next c = some ([], m)) : l.tokens (c :: rest) = m.tokens rest := by
  simp [tokens_cons h]

theorem digit?_of_isBlank (hc : isBlank c) : digit? c = none := by
  simp only [isBlank, Bool.or_eq_true, decide_eq_true_eq] at hc
  rcases hc with ((rfl | rfl) | rfl) | rfl <;> rfl

theorem digit?_of_mark (hc : mark? c = some t) : digit? c = none := by
  unfold mark? at hc
  split at hc <;> first | rfl | cases hc

theorem tokens_mark (hc : mark? c = some t) :
    between.tokens (c :: rest) = (between.tokens rest).map (t :: ·) := by
  have begins : between.next c = some ([t], between) := by
    unfold mark? at hc
    split at hc <;> cases hc <;> rfl
  exact tokens_cons begins

theorem tokens_blanks (hg : ∀ c ∈ gap, isBlank c) : between.tokens (gap ++ rest) = between.tokens rest := by
  induction gap with
  | nil => rfl
  | cons c gap ih =>
    obtain ⟨hc, hg⟩ := List.forall_mem_cons.1 hg
    have skip : between.next c = some ([], between) := if_pos hc
    rw [List.cons_append, tokens_silent skip, ih hg]

/-! ### Numbers -/

/-- A number is complete where no digit goes on. -/
theorem tokens_number (h : Ends rest) :
    (Lexing.number n).tokens rest = (between.tokens rest).map (.number n :: ·) := by
  cases rest with
  | nil => rfl
  | cons c rest =>
    have hc : digit? c = none := h c rfl
    have begins : (Lexing.number n).next c = (Lexing.start c).map fun (ts, l) => (.number n :: ts, l) := by
      rw [Lexing.next, hc]
    rw [Lexing.tokens, begins, Lexing.tokens, Lexing.next]
    cases Lexing.start c with
    | none => rfl
    | some x => simp [Function.comp_def]

theorem digit?_digitChar (hn : n < 10) : digit? n.digitChar = some n :=
  have all : ∀ d : Fin 10, digit? (Nat.digitChar d) = some d.val := by decide
  all ⟨n, hn⟩

theorem next_digitChar (hn : n < 10) : between.next n.digitChar = some ([], .number n) :=
  have all : ∀ d : Fin 10, between.next (Nat.digitChar d) = some ([], .number d.val) := by decide
  all ⟨n, hn⟩

theorem tokens_toDigits : between.tokens (Nat.toDigits 10 n ++ rest) = (Lexing.number n).tokens rest := by
  -- The last digit is read last, and what is before it is the number without it.
  induction n using Nat.strongRecOn generalizing rest with
  | ind n ih =>
    by_cases small : n < 10
    · rw [Nat.toDigits_of_lt_base small, List.singleton_append, tokens_silent (next_digitChar small)]
    · have more : (Lexing.number (n / 10)).next (n % 10).digitChar = some ([], .number n) := by
        rw [Lexing.next, digit?_digitChar (by omega)]
        simp only
        rw [if_neg (by omega), Nat.div_add_mod]
      rw [Nat.toDigits_of_base_le (by omega) (by omega), List.append_assoc, List.singleton_append,
        ih (n / 10) (by omega), tokens_silent more]

theorem reads_number : Reads (toString n).toList [.number n] := by
  intro rest h
  rw [Nat.toString_eq_repr, Nat.toList_repr, tokens_toDigits, tokens_number h]
  rfl

/-! ### Texts -/

theorem tokens_letter (hc : unescape? d = some c) (hu : d ≠ 'u') :
    (Lexing.string read).tokens ('\\' :: d :: rest) = (Lexing.string (c :: read)).tokens rest := by
  have behind : (Lexing.escaped read).next d = some ([], .string (c :: read)) := by
    rw [Lexing.next, if_neg hu, hc]
    rfl
  rw [tokens_silent (m := .escaped read) rfl, tokens_silent behind]

theorem digits_of_control (hn : n < 32) :
    (Hex.padded 4 n).toList = ['0', '0', Hex.digit (n / 16), Hex.digit (n % 16)] := by
  rw [Hex.padded, String.toList_ofList, Hex.digitList]
  split
  next small =>
    rw [Nat.div_eq_of_lt small, Nat.mod_eq_of_lt small]
    rfl
  next =>
    rw [Hex.digitList, if_pos (by omega)]
    rfl

/-- A control character that has no letter of its own is given by its code. -/
theorem tokens_code (hc : c.toNat < 32) : (Lexing.string read).tokens
    ('\\' :: 'u' :: (Hex.padded 4 c.toNat).toList ++ rest) = (Lexing.string (c :: read)).tokens rest := by
  have high : (Lexing.unicode read 2 0).next (Hex.digit (c.toNat / 16)) =
      some ([], .unicode read 1 (c.toNat / 16)) := by
    rw [Lexing.next, Hex.value?_digit (by omega)]
    simp
  have low : (Lexing.unicode read 1 (c.toNat / 16)).next (Hex.digit (c.toNat % 16)) =
      some ([], .string (c :: read)) := by
    rw [Lexing.next, Hex.value?_digit (by omega)]
    simp [Nat.div_add_mod]
    omega
  rw [digits_of_control hc]
  calc (Lexing.string read).tokens ('\\' :: 'u' :: '0' :: '0' :: Hex.digit (c.toNat / 16) ::
        Hex.digit (c.toNat % 16) :: rest)
    _ = (Lexing.unicode read 2 0).tokens (Hex.digit (c.toNat / 16) :: Hex.digit (c.toNat % 16) :: rest) := by
      rw [tokens_silent (m := .escaped read) rfl, tokens_silent (m := .unicode read 4 0) rfl,
        tokens_silent (m := .unicode read 3 0) rfl, tokens_silent (m := .unicode read 2 0) rfl]
    _ = (Lexing.string (c :: read)).tokens rest := by
      rw [tokens_silent high, tokens_silent low]

theorem tokens_escape :
    (Lexing.string read).tokens (escape c ++ rest) = (Lexing.string (c :: read)).tokens rest := by
  unfold escape
  split_ifs with quote backslash backspace feed line carriage tab control
  case pos => exact quote.symm ▸ tokens_letter rfl (by decide)
  case pos => exact backslash.symm ▸ tokens_letter rfl (by decide)
  case pos => exact backspace.symm ▸ tokens_letter rfl (by decide)
  case pos => exact feed.symm ▸ tokens_letter rfl (by decide)
  case pos => exact line.symm ▸ tokens_letter rfl (by decide)
  case pos => exact carriage.symm ▸ tokens_letter rfl (by decide)
  case pos => exact tab.symm ▸ tokens_letter rfl (by decide)
  case pos => exact tokens_code control
  case neg =>
    have plain : (Lexing.string read).next c = some ([], .string (c :: read)) := by
      rw [Lexing.next, if_neg quote, if_neg backslash, if_neg control]
    exact tokens_silent plain

theorem tokens_quote (s : String) : between.tokens ((quote s).toList ++ rest) =
    (between.tokens rest).map (.string s :: ·) := by
  have body : ∀ (cs read : List Char), (Lexing.string read).tokens (cs.flatMap escape ++ '"' :: rest) =
      (Lexing.string (cs.reverse ++ read)).tokens ('"' :: rest) := by
    intro cs
    induction cs with
    | nil => exact fun _ => rfl
    | cons c cs ih =>
      intro read
      rw [List.flatMap_cons, List.append_assoc, tokens_escape, ih]
      simp
  have text : (quote s).toList ++ rest = '"' :: (s.toList.flatMap escape ++ '"' :: rest) := by
    simp [quote]
  have opens : between.next '"' = some ([], .string []) := rfl
  have closes : (Lexing.string s.toList.reverse).next '"' = some ([.string s], between) := by
    simp [Lexing.next]
  rw [text, tokens_silent opens, body, List.append_nil, tokens_cons closes]
  rfl

theorem reads_quote (s : String) : Reads (quote s).toList [.string s] :=
  fun _ _ => tokens_quote s

/-! ### Arrays and objects -/

theorem reads_nil : Reads [] [] := by
  simp [Reads]

theorem Reads.mark (hc : mark? c = some t) (h : Reads cs ts) : Reads (c :: cs) (t :: ts) := by
  intro rest hr
  rw [List.cons_append, tokens_mark hc, h rest hr]
  simp [Function.comp_def]

theorem Reads.blanks (hg : ∀ c ∈ gap, isBlank c) (h : Reads cs ts) : Reads (gap ++ cs) ts := by
  intro rest hr
  rw [List.append_assoc, tokens_blanks hg, h rest hr]

theorem Reads.append (h : Reads cs ts) (h' : Reads ds us) (hd : ∀ rest, Ends rest → Ends (ds ++ rest)) :
    Reads (cs ++ ds) (ts ++ us) := by
  intro rest hr
  rw [List.append_assoc, h _ (hd rest hr), h' rest hr]
  simp [Function.comp_def]

theorem reads_intercalate {css : List (List Char)} {tss : List (List Token)} (h : List.Forall₂ Reads css tss) :
    Reads ([','].intercalate css) (joined tss) := by
  induction h with
  | nil => exact reads_nil
  | cons h more ih =>
    cases more with
    | nil => simpa [joined] using h
    | cons _ _ =>
      have comma := ih.mark (c := ',') rfl
      have both := h.append comma fun _ _ => Ends.cons rfl
      simpa [joined] using both

/-- Items with commas between them and a gap behind them are read in brackets of either kind. -/
theorem Reads.enclosed {opening closing : Token} (left right : Char) (gap : List Char)
    (hl : mark? left = some opening) (hr : mark? right = some closing) (hg : ∀ c ∈ gap, isBlank c) (h : Reads cs ts) :
    Reads (left :: (cs ++ (gap ++ [right]))) (opening :: (ts ++ [closing])) := by
  have closed : Reads (gap ++ [right]) [closing] := (reads_nil.mark hr).blanks hg
  refine (h.append closed fun rest _ => ?_).mark hl
  cases gap with
  | nil => exact Ends.cons (digit?_of_mark hr)
  | cons c gap => exact Ends.cons (digit?_of_isBlank (hg c List.mem_cons_self))

/-- A field is read, with or without a gap behind its colon. -/
theorem Reads.field (key : String) (gap : List Char) (hg : ∀ c ∈ gap, isBlank c) (h : Reads cs ts) :
    Reads ((quote key).toList ++ ':' :: (gap ++ cs)) (.string key :: .colon :: ts) :=
  (reads_quote key).append ((h.blanks hg).mark rfl) fun _ _ => Ends.cons rfl

end Lexing

/-! ### The two forms -/

namespace Value

mutual

theorem reads_compact (v : Value) : Reads v.compact.toList v.tokens := by
  match v with
  | .string s =>
    rw [compact, tokens]
    exact reads_quote s
  | .number n =>
    rw [compact, tokens]
    exact reads_number
  | .array items =>
    have items := reads_intercalate (reads_compactItems items)
    simpa [compact, tokens] using items.enclosed '[' ']' [] rfl rfl (by simp)
  | .object fields =>
    have fields := reads_intercalate (reads_compactFields fields)
    simpa [compact, tokens] using fields.enclosed '\x7b' '\x7d' [] rfl rfl (by simp)

theorem reads_compactItems (items : List Value) :
    List.Forall₂ Reads ((compactItems items).map String.toList) (itemTokens items) := by
  match items with
  | [] => exact .nil
  | v :: rest => exact .cons (reads_compact v) (reads_compactItems rest)

theorem reads_compactFields (fields : List (String × Value)) :
    List.Forall₂ Reads ((compactFields fields).map String.toList) (fieldTokens fields) := by
  match fields with
  | [] => exact .nil
  | (key, v) :: rest =>
    refine .cons ?_ (reads_compactFields rest)
    simpa using (reads_compact v).field key [] (by simp)

end

theorem isBlank_of_mem_indent {c : Char} (level : Nat) (hc : c ∈ '\n' :: List.replicate (2 * level) ' ') :
    isBlank c := by
  rcases List.mem_cons.1 hc with rfl | hc
  · rfl
  · rw [List.eq_of_mem_replicate hc]
    rfl

theorem reads_enclose {left right : String} {l r : Char} {opening closing : Token} {items : List String}
    {tss : List (List Token)} (level : Nat) (hl : left.toList = [l]) (hr : right.toList = [r])
    (ho : mark? l = some opening) (hc : mark? r = some closing)
    (h : List.Forall₂ Reads (items.map String.toList) tss) :
    Reads (enclose level left right items).toList (opening :: (joined tss ++ [closing])) := by
  rw [enclose]
  split
  next empty =>
    cases List.isEmpty_iff.1 empty
    cases h
    simpa [hl, hr, joined] using reads_nil.enclosed l r [] ho hc (by simp)
  next =>
    have indented : List.Forall₂ Reads
        (items.map fun s => '\n' :: List.replicate (2 * (level + 1)) ' ' ++ s.toList) tss := by
      rw [List.forall₂_map_left_iff] at h ⊢
      exact h.imp fun s ts reads => reads.blanks fun c hc => isBlank_of_mem_indent (level + 1) hc
    have read := (reads_intercalate indented).enclosed l r _ ho hc fun c hc => isBlank_of_mem_indent level hc
    simpa [hl, hr, Function.comp_def] using read

mutual

theorem reads_pretty (level : Nat) (v : Value) : Reads (v.pretty level).toList v.tokens := by
  match v with
  | .string s =>
    rw [pretty, tokens]
    exact reads_quote s
  | .number n =>
    rw [pretty, tokens]
    exact reads_number
  | .array items =>
    rw [pretty, tokens]
    exact reads_enclose level rfl rfl rfl rfl (reads_prettyItems (level + 1) items)
  | .object fields =>
    rw [pretty, tokens]
    exact reads_enclose level rfl rfl rfl rfl (reads_prettyFields (level + 1) fields)

theorem reads_prettyItems (level : Nat) (items : List Value) :
    List.Forall₂ Reads ((prettyItems level items).map String.toList) (itemTokens items) := by
  match items with
  | [] => exact .nil
  | v :: rest => exact .cons (reads_pretty level v) (reads_prettyItems level rest)

theorem reads_prettyFields (level : Nat) (fields : List (String × Value)) :
    List.Forall₂ Reads ((prettyFields level fields).map String.toList) (fieldTokens fields) := by
  match fields with
  | [] => exact .nil
  | (key, v) :: rest =>
    refine .cons ?_ (reads_prettyFields level rest)
    simpa using (reads_pretty level v).field key [' '] (by simp [isBlank])

end

variable {s : String}

theorem parse_of_reads {v : Value} (h : Reads s.toList v.tokens) : parse s = some v := by
  have tokens : between.tokens s.toList = some v.tokens := by
    simpa [Lexing.tokens] using h [] (by simp [Ends])
  have value := read_tokens v [] []
  rw [List.append_nil] at value
  rw [parse, tokens, Option.bind_some, value]
  rfl

/-- A value is read back from its one line. -/
theorem parse_compact (v : Value) : parse v.compact = some v :=
  parse_of_reads (reads_compact v)

/-- A value is read back from its lines, however far they are indented. -/
theorem parse_pretty (level : Nat) (v : Value) : parse (v.pretty level) = some v :=
  parse_of_reads (reads_pretty level v)

/-! ### The form on one line has no line feed -/

theorem lineFeed_not_mem_escape (c : Char) : '\n' ∉ escape c := by
  unfold escape
  split_ifs with _ _ _ _ line _ _ control
  any_goals decide
  · have digit : ∀ k : Fin 16, '\n' ≠ Hex.digit k := by decide
    have high := digit ⟨c.toNat / 16, by omega⟩
    have low := digit ⟨c.toNat % 16, by omega⟩
    simp [digits_of_control control, high, low]
  · simpa using Ne.symm line

theorem lineFeed_not_mem_quote (s : String) : '\n' ∉ (quote s).toList := by
  simp [quote, lineFeed_not_mem_escape]

theorem lineFeed_not_mem_intercalate {css : List (List Char)} (h : ∀ cs ∈ css, '\n' ∉ cs) :
    '\n' ∉ [','].intercalate css := by
  induction css with
  | nil => simp
  | cons cs rest ih =>
    obtain ⟨hs, h⟩ := List.forall_mem_cons.1 h
    cases rest with
    | nil => simpa using hs
    | cons ds rest => simpa [List.intercalate_cons_cons, hs] using ih h

mutual

theorem lineFeed_not_mem_compact (v : Value) : '\n' ∉ v.compact.toList := by
  match v with
  | .string s =>
    rw [compact]
    exact lineFeed_not_mem_quote s
  | .number n =>
    rw [compact, Nat.toString_eq_repr, Nat.toList_repr]
    exact fun h => absurd (Nat.isDigit_of_mem_toDigits (by omega) (by omega) h) (by decide)
  | .array items => simp [compact, lineFeed_not_mem_intercalate (lineFeed_not_mem_compactItems items)]
  | .object fields => simp [compact, lineFeed_not_mem_intercalate (lineFeed_not_mem_compactFields fields)]

theorem lineFeed_not_mem_compactItems (items : List Value) :
    ∀ cs ∈ (compactItems items).map String.toList, '\n' ∉ cs := by
  match items with
  | [] => exact fun _ h => absurd h List.not_mem_nil
  | v :: rest =>
    rw [compactItems, List.map_cons]
    exact List.forall_mem_cons.2 ⟨lineFeed_not_mem_compact v, lineFeed_not_mem_compactItems rest⟩

theorem lineFeed_not_mem_compactFields (fields : List (String × Value)) :
    ∀ cs ∈ (compactFields fields).map String.toList, '\n' ∉ cs := by
  match fields with
  | [] => exact fun _ h => absurd h List.not_mem_nil
  | (key, v) :: rest =>
    rw [compactFields, List.map_cons]
    refine List.forall_mem_cons.2 ⟨?_, lineFeed_not_mem_compactFields rest⟩
    simp [lineFeed_not_mem_quote key, lineFeed_not_mem_compact v]

end

end Value

end ReachableCode.Json
