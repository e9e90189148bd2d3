import Mathlib
import PseudoCost.JsonValue

/-!
# Reading JSON

A strict reader of JSON, byte by byte, that knows nothing of how texts are written here: blanks
anywhere between the parts, every escape, code points above the first plane in two halves, and
numbers with a fraction and an exponent. It refuses what the grammar refuses: control bytes in a
string, half of a pair, a superfluous zero, a comma before a closing bracket.

The text of a value is read back as that value, whatever follows it (`value_render`). What follows
has to be looked at for numbers only, which end where no digit, point or exponent goes on
(`Delimited`). The induction is on the value; `list_join` carries it through the commas of arrays
and objects at once.
-/

namespace PseudoCost

/-- What a JSON text stands for. Strings are sequences of bytes, and members keep their order. -/
inductive Datum where
  | null
  | bool (value : Bool)
  | number (value : ℚ)
  | string (value : Text)
  | array (items : List Datum)
  | object (members : List (Text × Datum))

/-! ## The reader -/

namespace JsonReader

/-- Reads something off the front of a text, and gives the rest. -/
abbrev Reader (α : Type) := Text → Option (α × Text)

/-- The bytes that may stand between the parts of a text. -/
def isSpace (b : UInt8) : Bool := b == 32 || b == 9 || b == 10 || b == 13

/-- The text from its first byte that is not a blank. -/
def skip (t : Text) : Text := t.dropWhile isSpace

/-- The value of a digit of base sixteen, in either case. -/
def hexValue? (b : UInt8) : Option Nat :=
  if Text.byte '0' ≤ b ∧ b ≤ Text.byte '9' then some (b.toNat - 48)
  else if Text.byte 'A' ≤ b ∧ b ≤ Text.byte 'F' then some (b.toNat - 55)
  else if Text.byte 'a' ≤ b ∧ b ≤ Text.byte 'f' then some (b.toNat - 87)
  else none

/-- Reads four digits of base sixteen. -/
def codeUnit : Reader Nat
  | a :: b :: c :: d :: rest =>
    ([a, b, c, d].mapM hexValue?).map fun ds => (ds.foldl (fun n k => 16 * n + k) 0, rest)
  | _ => none

/-- The UTF-8 bytes of a code point. -/
def utf8 (n : Nat) : Text := String.utf8EncodeChar (Char.ofNat n)

/-- Reads the second half of a code point above the first plane. -/
def lowHalf (high : Nat) : Reader Text
  | b :: c :: rest =>
    if b = Text.byte '\\' ∧ c = Text.byte 'u' then
      (codeUnit rest).bind fun (low, rest) =>
        if 0xDC00 ≤ low ∧ low ≤ 0xDFFF then
          some (utf8 (0x10000 + 0x400 * (high - 0xD800) + (low - 0xDC00)), rest)
        else none
    else none
  | _ => none

/-- Reads a code point in digits of base sixteen. -/
def codePoint : Reader Text := fun t =>
  (codeUnit t).bind fun (n, rest) =>
    if n < 0xD800 ∨ 0xDFFF < n then some (utf8 n, rest)
    else if n < 0xDC00 then lowHalf n rest
    else none

/-- The bytes that one letter after a backslash stands for. -/
def shortEscapes : List (UInt8 × UInt8) :=
  [(34, 34), (Text.byte '\\', Text.byte '\\'), (Text.byte '/', Text.byte '/'), (Text.byte 'b', 8),
   (Text.byte 'f', 12), (Text.byte 'n', 10), (Text.byte 'r', 13), (Text.byte 't', 9)]

/-- Reads one character of a string, and gives the bytes it stands for. -/
def char : Reader Text
  | [] => none
  | b :: rest =>
    if b = Text.byte '\\' then
      match rest with
      | [] => none
      | c :: rest =>
        if c = Text.byte 'u' then codePoint rest
        else (shortEscapes.lookup c).map fun e => ([e], rest)
    else if b < 32 then none
    else some ([b], rest)

/-- Reads the characters of a string up to its closing quote, at most so many. -/
def chars : Nat → Reader Text
  | 0, _ => none
  | _ + 1, [] => none
  | bound + 1, b :: rest =>
    if b = 34 then some ([], rest)
    else
      (char (b :: rest)).bind fun (c, rest) =>
        (chars bound rest).map fun (cs, rest) => (c ++ cs, rest)

/-- Reads a string with its quotes. -/
def string : Reader Text
  | [] => none
  | b :: rest => if b = 34 then chars rest.length rest else none

/-- Reads a run of digits. -/
def digits : Reader Text := fun t =>
  if t.takeWhile Text.isDigit = [] then none
  else some (t.takeWhile Text.isDigit, t.dropWhile Text.isDigit)

/-- Reads the whole part of a number, which has no superfluous zero. -/
def whole : Reader Text := fun t =>
  (digits t).bind fun (ds, rest) =>
    if 1 < ds.length ∧ ds.head? = some (Text.byte '0') then none else some (ds, rest)

/-- Reads the digits after a point, if there is one. -/
def fraction : Reader Text
  | [] => some ([], [])
  | b :: rest => if b = Text.byte '.' then digits rest else some ([], b :: rest)

/-- Reads an exponent, if there is one. -/
def exponent : Reader ℤ
  | [] => some (0, [])
  | b :: rest =>
    if b = Text.byte 'e' ∨ b = Text.byte 'E' then
      let negative := rest.head? = some (Text.byte '-')
      let signed := negative ∨ rest.head? = some (Text.byte '+')
      (digits (if signed then rest.tail else rest)).map fun (ds, rest) =>
        (if negative then -Text.digitsValue ds else Text.digitsValue ds, rest)
    else some (0, b :: rest)

/-- Reads a number. -/
def number : Reader ℚ := fun t =>
  let negative := t.head? = some (Text.byte '-')
  (whole (if negative then t.tail else t)).bind fun (ds, rest) =>
    (fraction rest).bind fun (fs, rest) =>
      (exponent rest).map fun (e, rest) =>
        let size : ℚ := Text.digitsValue (ds ++ fs) * 10 ^ (e - fs.length)
        (if negative then -size else size, rest)

/-- Reads a word that stands for a value. -/
def word (w : Text) (d : Datum) : Reader Datum := fun t =>
  if t.take w.length = w then some (d, t.drop w.length) else none

/-- Reads one or more items with commas between them up to a closing byte, at most so many. -/
def items {α : Type} (item : Reader α) (close : UInt8) : Nat → Reader (List α)
  | 0, _ => none
  | bound + 1, t =>
    (item t).bind fun (x, rest) =>
      match skip rest with
      | [] => none
      | b :: rest =>
        if b = Text.byte ',' then
          (items item close bound rest).map fun (xs, rest) => (x :: xs, rest)
        else if b = close then some ([x], rest)
        else none

/-- Reads items with commas between them up to a closing byte. -/
def list {α : Type} (item : Reader α) (close : UInt8) : Reader (List α) := fun t =>
  match skip t with
  | [] => none
  | b :: rest => if b = close then some ([], rest) else items item close t.length t

/-- Reads a member of an object: a string, a colon and what the given reader reads. -/
def member {α : Type} (item : Reader α) : Reader (Text × α) := fun t =>
  (string (skip t)).bind fun (key, rest) =>
    match skip rest with
    | [] => none
    | b :: rest =>
      if b = Text.byte ':' then (item rest).map fun (x, rest) => ((key, x), rest) else none

/-- Reads a value that is nested at most so deep. -/
def value : Nat → Reader Datum
  | 0, _ => none
  | depth + 1, t =>
    match skip t with
    | [] => none
    | b :: rest =>
      if b = 34 then (string (b :: rest)).map (Prod.map .string id)
      else if b = Text.byte '[' then
        (list (value depth) (Text.byte ']') rest).map (Prod.map .array id)
      else if b = Text.byte '\x7b' then
        (list (member (value depth)) (Text.byte '\x7d') rest).map (Prod.map .object id)
      else if b = Text.byte 't' then word "true" (.bool true) (b :: rest)
      else if b = Text.byte 'f' then word "false" (.bool false) (b :: rest)
      else if b = Text.byte 'n' then word "null" .null (b :: rest)
      else (number (b :: rest)).map (Prod.map .number id)

/-- Reads the first value of a text. No value is nested deeper than its text is long. -/
def first : Reader Datum := fun t => value (t.length + 1) t

/-- The value of a text that holds one value and nothing else but blanks. -/
def ofText? (t : Text) : Option Datum :=
  (first t).bind fun (d, rest) => if skip rest = [] then some d else none

/-! ## Strings -/

theorem codePoint_control {n : Nat} (hn : n < 32) (rest : Text) :
    codePoint (48 :: 48 :: JsonValue.hexDigit (n / 16) :: JsonValue.hexDigit (n % 16) :: rest)
      = some ([n.toUInt8], rest) := by
  have hdigits : ∀ n < 32, [48, 48, JsonValue.hexDigit (n / 16), JsonValue.hexDigit (n % 16)].mapM
      hexValue? = some [0, 0, n / 16, n % 16] := by decide
  have hunit : codeUnit
      (48 :: 48 :: JsonValue.hexDigit (n / 16) :: JsonValue.hexDigit (n % 16) :: rest)
        = some (n, rest) := by
    rw [codeUnit, hdigits n hn]
    simp only [Option.map_some, List.foldl_cons, List.foldl_nil]
    congr 2
    omega
  have hutf8 : ∀ n < 32, utf8 n = [n.toUInt8] := by decide
  rw [codePoint, hunit, Option.bind_some]
  dsimp only
  rw [if_pos (by omega), hutf8 n hn]

/-- A byte that is written is read back. -/
theorem char_escapeByte (b : UInt8) (rest : Text) :
    char (JsonValue.escapeByte b ++ rest) = some ([b], rest) := by
  rw [JsonValue.escapeByte]
  split_ifs with hquote hslash hb hf hn hr ht hcontrol
  · subst hquote
    rfl
  · subst hslash
    rfl
  · subst hb
    rfl
  · subst hf
    rfl
  · subst hn
    rfl
  · subst hr
    rfl
  · subst ht
    rfl
  · have hlt : b.toNat < 32 := UInt8.lt_iff_toNat_lt.mp hcontrol
    have hread := codePoint_control hlt rest
    rwa [show b.toNat.toUInt8 = b from UInt8.ofNat_toNat] at hread
  · show char (b :: rest) = _
    rw [char.eq_def]
    dsimp only
    rw [if_neg hslash, if_neg hcontrol]

/-- No byte is written so that it is taken for the closing quote. -/
theorem head_escapeByte (b : UInt8) : ∃ c t, JsonValue.escapeByte b = c :: t ∧ c ≠ 34 := by
  rw [JsonValue.escapeByte]
  split_ifs with hquote
  on_goal 9 => exact ⟨_, _, rfl, hquote⟩
  all_goals exact ⟨_, _, rfl, by decide⟩

theorem chars_escape (rest : Text) : ∀ (t : Text) {bound : Nat}, t.length < bound →
    chars bound (JsonValue.escape t ++ 34 :: rest) = some (t, rest)
  | [], bound + 1, _ => rfl
  | b :: t, bound + 1, h => by
      obtain ⟨c, u, hu, hc⟩ := head_escapeByte b
      have hchar := char_escapeByte b (JsonValue.escape t ++ 34 :: rest)
      have ih := chars_escape rest t (Nat.lt_of_succ_lt_succ h)
      rw [hu, List.cons_append] at hchar
      rw [JsonValue.escape, List.flatMap_cons, ← JsonValue.escape, List.append_assoc, hu,
        List.cons_append, chars, if_neg hc, hchar, Option.bind_some]
      dsimp only
      rw [ih]
      rfl

theorem length_le_escape : ∀ t : Text, t.length ≤ (JsonValue.escape t).length
  | [] => le_refl _
  | b :: t => by
      obtain ⟨c, u, hu, -⟩ := head_escapeByte b
      have ih := length_le_escape t
      rw [JsonValue.escape, List.flatMap_cons, ← JsonValue.escape, hu]
      simp only [List.length_cons, List.length_append]
      omega

theorem string_quoted (t rest : Text) : string (JsonValue.quoted t ++ rest) = some (t, rest) := by
  have hlen := length_le_escape t
  rw [JsonValue.quoted, List.cons_append, List.append_assoc, List.singleton_append, string,
    if_pos rfl]
  refine chars_escape rest t ?_
  rw [List.length_append, List.length_cons]
  omega

/-! ## Numbers -/

/-- The text is at its end, or goes on with a comma, a closing bracket or a new line. -/
def Delimited : Text → Prop
  | [] => True
  | b :: _ => b = Text.byte ',' ∨ b = Text.byte ']' ∨ b = Text.byte '\x7d' ∨ b = Text.newline

theorem ofNat_of_lt {n : Nat} (hn : n < 10) : Text.ofNat n = [48 + n.toUInt8] := by
  have hdigit : ∀ n < 10, Text.byte n.digitChar = 48 + n.toUInt8 := by decide
  rw [Text.ofNat, Nat.toDigits_of_lt_base hn, List.map_singleton, hdigit n hn]

theorem ofNat_of_le {n : Nat} (hn : 10 ≤ n) :
    Text.ofNat n = Text.ofNat (n / 10) ++ Text.ofNat (n % 10) := by
  rw [Text.ofNat, Nat.toDigits_of_base_le (by decide) hn, List.map_append, Text.ofNat, Text.ofNat,
    Nat.toDigits_of_lt_base (Nat.mod_lt n (by decide))]

theorem isDigit_of_mem_ofNat (n : Nat) : ∀ b ∈ Text.ofNat n, Text.isDigit b = true := by
  induction n using Nat.strongRecOn with
  | _ n ih =>
    intro b hb
    by_cases hn : n < 10
    · have hdigit : ∀ n < 10, Text.isDigit (48 + n.toUInt8) = true := by decide
      rw [ofNat_of_lt hn, List.mem_singleton] at hb
      rw [hb, hdigit n hn]
    · rw [ofNat_of_le (by omega), List.mem_append] at hb
      rcases hb with hb | hb
      · exact ih _ (by omega) b hb
      · exact ih _ (by omega) b hb

theorem exists_digit_ofNat (n : Nat) :
    ∃ b t, Text.ofNat n = b :: t ∧ Text.isDigit b = true := by
  have hall := isDigit_of_mem_ofNat n
  cases h : Text.ofNat n with
  | nil => exact absurd (List.map_eq_nil_iff.mp h) Nat.toDigits_ne_nil
  | cons b t => exact ⟨b, t, rfl, hall b (by rw [h]; exact List.mem_cons_self)⟩

/-- The first byte of a number: a digit or a minus sign. -/
def IsNumeric (b : UInt8) : Prop := Text.isDigit b = true ∨ b = Text.byte '-'

theorem IsNumeric.ne {b c : UInt8} (hb : IsNumeric b)
    (hc : Text.isDigit c = false ∧ c ≠ Text.byte '-') : b ≠ c := by
  rintro rfl
  rcases hb with hb | hb
  · rw [hc.1] at hb
    cases hb
  · exact hc.2 hb

theorem IsNumeric.not_isSpace {b : UInt8} (hb : IsNumeric b) : isSpace b = false := by
  rw [← Bool.not_eq_true]
  intro hspace
  simp only [isSpace, Bool.or_eq_true, beq_iff_eq] at hspace
  rcases hspace with ((h | h) | h) | h <;> exact hb.ne (by decide) h

theorem exists_numeric_ofInt : ∀ n : Int, ∃ b t, Text.ofInt n = b :: t ∧ IsNumeric b
  | .ofNat n => by
      obtain ⟨b, t, ht, hb⟩ := exists_digit_ofNat n
      exact ⟨b, t, ht, Or.inl hb⟩
  | .negSucc n => ⟨_, _, rfl, Or.inr rfl⟩

theorem digitsValue_ofNat (n : Nat) : Text.digitsValue (Text.ofNat n) = n := by
  induction n using Nat.strongRecOn with
  | _ n ih =>
    have hdigit : ∀ n < 10, (48 + n.toUInt8).toNat - 48 = n := by decide
    by_cases hn : n < 10
    · rw [ofNat_of_lt hn, Text.digitsValue, List.foldl_cons, List.foldl_nil, hdigit n hn]
      omega
    · have hlast : n % 10 < 10 := Nat.mod_lt n (by decide)
      have hfirst := ih (n / 10) (by omega)
      rw [Text.digitsValue] at hfirst
      rw [ofNat_of_le (by omega), ofNat_of_lt hlast, Text.digitsValue, List.foldl_append, hfirst,
        List.foldl_cons, List.foldl_nil, hdigit _ hlast]
      omega

/-- A positive number is not written with a zero in front. -/
theorem head_ofNat {n : Nat} (hn : 0 < n) :
    ∃ b t, Text.ofNat n = b :: t ∧ b ≠ Text.byte '0' := by
  induction n using Nat.strongRecOn with
  | _ n ih =>
    by_cases hlt : n < 10
    · have hdigit : ∀ n < 10, 0 < n → 48 + n.toUInt8 ≠ Text.byte '0' := by decide
      exact ⟨_, [], ofNat_of_lt hlt, hdigit n hlt hn⟩
    · obtain ⟨b, t, ht, hb⟩ := ih (n / 10) (by omega) (by omega)
      refine ⟨b, t ++ Text.ofNat (n % 10), ?_, hb⟩
      rw [ofNat_of_le (by omega), ht, List.cons_append]

theorem Delimited.not_isDigit {b : UInt8} {t : Text} (h : Delimited (b :: t)) :
    Text.isDigit b = false := by
  rcases h with rfl | rfl | rfl | rfl <;> rfl

theorem whole_ofNat (n : Nat) {rest : Text} (hrest : Delimited rest) :
    whole (Text.ofNat n ++ rest) = some (Text.ofNat n, rest) := by
  have hall := isDigit_of_mem_ofNat n
  have htake : rest.takeWhile Text.isDigit = [] := by
    cases rest with
    | nil => rfl
    | cons b t => rw [List.takeWhile_cons, hrest.not_isDigit]; rfl
  have hdrop : rest.dropWhile Text.isDigit = rest := by
    cases rest with
    | nil => rfl
    | cons b t => rw [List.dropWhile_cons, hrest.not_isDigit]; rfl
  have hne : Text.ofNat n ≠ [] := by
    obtain ⟨b, t, ht, -⟩ := exists_digit_ofNat n
    rw [ht]
    exact List.cons_ne_nil b t
  have hdigits : digits (Text.ofNat n ++ rest) = some (Text.ofNat n, rest) := by
    rw [digits, List.takeWhile_append_of_pos hall, List.dropWhile_append_of_pos hall, htake, hdrop,
      List.append_nil, if_neg hne]
  have hzero : ¬(1 < (Text.ofNat n).length ∧ (Text.ofNat n).head? = some (Text.byte '0')) := by
    rintro ⟨hlen, hhead⟩
    rcases Nat.eq_zero_or_pos n with rfl | hn
    · exact absurd hlen (by decide)
    · obtain ⟨b, t, ht, hb⟩ := head_ofNat hn
      rw [ht, List.head?_cons, Option.some.injEq] at hhead
      exact hb hhead
  rw [whole, hdigits, Option.bind_some]
  dsimp only
  rw [if_neg hzero]

/-- After a number nothing is taken for a fraction or an exponent. -/
theorem Delimited.ends {rest : Text} (h : Delimited rest) :
    fraction rest = some ([], rest) ∧ exponent rest = some (0, rest) := by
  cases rest with
  | nil => exact ⟨rfl, rfl⟩
  | cons b t => rcases h with rfl | rfl | rfl | rfl <;> exact ⟨rfl, rfl⟩

theorem number_ofInt (n : Int) {rest : Text} (hrest : Delimited rest) :
    number (Text.ofInt n ++ rest) = some ((n : ℚ), rest) := by
  obtain ⟨hfraction, hexponent⟩ := hrest.ends
  cases n with
  | ofNat n =>
      have hsign : (Text.ofNat n ++ rest).head? ≠ some (Text.byte '-') := by
        obtain ⟨b, t, ht, hb⟩ := exists_digit_ofNat n
        rw [ht, List.cons_append, List.head?_cons, ne_eq, Option.some.injEq]
        rintro rfl
        exact absurd hb (by decide)
      rw [Text.ofInt, number]
      simp only [hsign, if_false, whole_ofNat n hrest, hfraction, hexponent, Option.bind_some,
        Option.map_some]
      simp [digitsValue_ofNat]
  | negSucc n =>
      rw [Text.ofInt, number]
      simp only [List.cons_append, List.head?_cons, if_true, List.tail_cons,
        whole_ofNat (n + 1) hrest, hfraction, hexponent, Option.bind_some, Option.map_some]
      simp [digitsValue_ofNat, Int.negSucc_eq]

/-! ## Lists -/

/-- The text starts with a byte that is neither a blank nor a closing bracket. -/
def Starts (t : Text) : Prop :=
  ∃ b rest, t = b :: rest ∧ isSpace b = false ∧ b ≠ Text.byte ']' ∧ b ≠ Text.byte '\x7d'

theorem skip_cons {b : UInt8} (hb : isSpace b = false) (t : Text) : skip (b :: t) = b :: t := by
  rw [skip, List.dropWhile_cons, hb]
  rfl

/-- A closing byte of a list. -/
def IsClose (b : UInt8) : Prop := b = Text.byte ']' ∨ b = Text.byte '\x7d'

section Joined

variable {α β : Type} {item : Reader α} {write : β → Text} {f : β → α} {close : UInt8}

theorem join_singleton (write : β → Text) (x : β) : Text.join "," ([x].map write) = write x := by
  simp [Text.join]

theorem join_cons_cons (write : β → Text) (x y : β) (xs : List β) :
    Text.join "," ((x :: y :: xs).map write)
      = write x ++ Text.byte ',' :: Text.join "," ((y :: xs).map write) := by
  have hcomma : Text.ofString "," = [Text.byte ','] := by decide
  rw [List.map_cons, List.map_cons, Text.join, Text.join, hcomma, List.intercalate_cons_cons,
    List.append_assoc, List.singleton_append]

theorem items_join (hclose : IsClose close) (rest : Text) : ∀ {xs : List β} {bound : Nat},
    xs ≠ [] → xs.length ≤ bound →
    (∀ x ∈ xs, ∀ rest, Delimited rest → item (write x ++ rest) = some (f x, rest)) →
    items item close bound (Text.join "," (xs.map write) ++ close :: rest)
      = some (xs.map f, rest)
  | [], _, hxs, _, _ => absurd rfl hxs
  | [x], bound + 1, _, _, hitem => by
      have hx := hitem x (List.mem_singleton_self x) (close :: rest)
        (by rcases hclose with rfl | rfl <;> simp [Delimited])
      have hspace : isSpace close = false := by rcases hclose with rfl | rfl <;> rfl
      have hcomma : close ≠ Text.byte ',' := by rcases hclose with rfl | rfl <;> decide
      rw [join_singleton, items, hx, Option.bind_some]
      dsimp only
      rw [skip_cons hspace]
      dsimp only
      rw [if_neg hcomma, if_pos rfl, List.map_singleton]
  | x :: y :: xs, bound + 1, _, hlen, hitem => by
      have ih := items_join hclose rest (List.cons_ne_nil y xs) (Nat.le_of_succ_le_succ hlen)
        fun z hz => hitem z (List.mem_cons_of_mem _ hz)
      have hx := hitem x List.mem_cons_self
        (Text.byte ',' :: (Text.join "," ((y :: xs).map write) ++ close :: rest)) (Or.inl rfl)
      rw [join_cons_cons, List.append_assoc, List.cons_append, items, hx, Option.bind_some]
      dsimp only
      rw [skip_cons (by decide)]
      dsimp only
      rw [if_pos rfl, ih]
      rfl

theorem length_le_join : ∀ {xs : List β}, (∀ x ∈ xs, Starts (write x)) →
    xs.length ≤ (Text.join "," (xs.map write)).length
  | [], _ => Nat.zero_le _
  | [x], h => by
      obtain ⟨b, t, ht, -⟩ := h x (List.mem_singleton_self x)
      rw [join_singleton, ht, List.length_cons]
      exact Nat.le_add_left 1 t.length
  | x :: y :: xs, h => by
      have ih := length_le_join fun z (hz : z ∈ y :: xs) => h z (List.mem_cons_of_mem _ hz)
      rw [join_cons_cons]
      simp only [List.length_append, List.length_cons] at ih ⊢
      omega

theorem length_le_join_of_mem (write : β → Text) {x : β} : ∀ {xs : List β}, x ∈ xs →
    (write x).length ≤ (Text.join "," (xs.map write)).length
  | [], h => absurd h List.not_mem_nil
  | [y], h => by rw [List.mem_singleton.mp h, join_singleton]
  | y :: z :: xs, h => by
      rw [join_cons_cons, List.length_append, List.length_cons]
      rcases List.mem_cons.mp h with rfl | h
      · omega
      · have ih := length_le_join_of_mem write h
        omega

theorem starts_join {x : β} {xs : List β} (h : ∀ z ∈ x :: xs, Starts (write z)) :
    Starts (Text.join "," ((x :: xs).map write)) := by
  obtain ⟨b, t, ht, hb⟩ := h x List.mem_cons_self
  cases xs with
  | nil => exact ⟨b, t, by rw [join_singleton, ht], hb⟩
  | cons y xs =>
      refine ⟨b, t ++ Text.byte ',' :: Text.join "," ((y :: xs).map write), ?_, hb⟩
      rw [join_cons_cons, ht, List.cons_append]

/-- A list of things that are each read back is read back. -/
theorem list_join (hclose : IsClose close) {xs : List β} (hstart : ∀ x ∈ xs, Starts (write x))
    (hitem : ∀ x ∈ xs, ∀ rest, Delimited rest → item (write x ++ rest) = some (f x, rest))
    (rest : Text) :
    list item close (Text.join "," (xs.map write) ++ close :: rest) = some (xs.map f, rest) := by
  rw [list]
  cases xs with
  | nil =>
      have hspace : isSpace close = false := by rcases hclose with rfl | rfl <;> rfl
      rw [List.map_nil, show Text.join "," [] = [] from rfl, List.nil_append, skip_cons hspace]
      dsimp only
      rw [if_pos rfl, List.map_nil]
  | cons x xs =>
      have hlen : (x :: xs).length
          ≤ (Text.join "," ((x :: xs).map write) ++ close :: rest).length := by
        rw [List.length_append]
        exact Nat.le_add_right_of_le (length_le_join hstart)
      have hitems := items_join hclose rest (List.cons_ne_nil x xs) hlen hitem
      obtain ⟨b, t, ht, hspace, hbracket, hbrace⟩ := starts_join hstart
      rw [ht, List.cons_append] at hitems ⊢
      rw [skip_cons hspace]
      dsimp only
      rw [if_neg (by rcases hclose with rfl | rfl <;> assumption), hitems]

end Joined

end JsonReader

/-! ## Values -/

namespace JsonValue

mutual

/-- What a value stands for. -/
def datum : JsonValue → Datum
  | .null => .null
  | .bool value => .bool value
  | .number value => .number value
  | .string value => .string value
  | .array items => .array (datumsOf items)
  | .object members => .object (membersOf members)

/-- What several values stand for. -/
def datumsOf : List JsonValue → List Datum
  | [] => []
  | v :: vs => v.datum :: datumsOf vs

/-- What the members of an object stand for. -/
def membersOf : List (Text × JsonValue) → List (Text × Datum)
  | [] => []
  | (key, v) :: ms => (key, v.datum) :: membersOf ms

end

@[simp] theorem datumsOf_eq : ∀ vs : List JsonValue, datumsOf vs = vs.map datum
  | [] => rfl
  | v :: vs => by rw [datumsOf, datumsOf_eq vs, List.map_cons]

@[simp] theorem membersOf_eq : ∀ ms : List (Text × JsonValue),
    membersOf ms = ms.map (Prod.map id datum)
  | [] => rfl
  | (key, v) :: ms => by rw [membersOf, membersOf_eq ms, List.map_cons, Prod.map_apply, id]

@[simp] theorem datum_string (t : Text) : (string t).datum = .string t := by rw [datum]

@[simp] theorem datum_number (n : Int) : (number n).datum = .number n := by rw [datum]

@[simp] theorem datum_bool (b : Bool) : (bool b).datum = .bool b := by rw [datum]

@[simp] theorem datum_array (vs : List JsonValue) : (array vs).datum = .array (vs.map datum) := by
  rw [datum, datumsOf_eq]

/-- The text of a member. -/
def memberText (m : Text × JsonValue) : Text := quoted m.1 ++ (Text.byte ':' :: render m.2)

open JsonReader (join_singleton join_cons_cons)

theorem renderItems_eq : ∀ vs : List JsonValue, renderItems vs = Text.join "," (vs.map render)
  | [] => rfl
  | [v] => by rw [renderItems, join_singleton]
  | v :: u :: vs => by
      rw [renderItems, renderItems_eq (u :: vs), join_cons_cons, List.append_assoc]
      · rfl
      · exact List.cons_ne_nil u vs

theorem renderMembers_eq : ∀ ms : List (Text × JsonValue),
    renderMembers ms = Text.join "," (ms.map memberText)
  | [] => rfl
  | [(key, v)] => by
      rw [renderMembers, join_singleton, memberText, List.append_assoc]
      rfl
  | (key, v) :: m :: ms => by
      rw [renderMembers, renderMembers_eq (m :: ms), join_cons_cons, memberText]
      · simp only [List.append_assoc]
        rfl
      · exact List.cons_ne_nil m ms

theorem render_array (items : List JsonValue) :
    render (.array items)
      = Text.byte '[' :: (Text.join "," (items.map render) ++ [Text.byte ']']) := by
  rw [render, renderItems_eq, List.append_assoc]
  rfl

theorem render_object (members : List (Text × JsonValue)) :
    render (.object members)
      = Text.byte '\x7b' :: (Text.join "," (members.map memberText) ++ [Text.byte '\x7d']) := by
  rw [render, renderMembers_eq, List.append_assoc]
  rfl

end JsonValue

namespace JsonReader

open JsonValue

/-- The text of a value starts with a byte that tells what kind of value it is. -/
theorem starts_render (v : JsonValue) : Starts (render v) := by
  cases v with
  | number n =>
      obtain ⟨b, t, ht, hb⟩ := exists_numeric_ofInt n
      exact ⟨b, t, ht, hb.not_isSpace, hb.ne (by decide), hb.ne (by decide)⟩
  | bool value => cases value <;> exact ⟨_, _, rfl, by decide, by decide, by decide⟩
  | _ => exact ⟨_, _, rfl, by decide, by decide, by decide⟩

theorem starts_memberText (m : Text × JsonValue) : Starts (memberText m) :=
  ⟨_, _, rfl, by decide, by decide, by decide⟩

/-- The text of a value is read back as the value, to any depth that is more than its length. -/
def ReadsBack (v : JsonValue) : Prop :=
  ∀ (depth : Nat) (rest : Text), (render v).length ≤ depth → Delimited rest →
    value (depth + 1) (render v ++ rest) = some (v.datum, rest)

theorem readsBack_string (t : Text) : ReadsBack (.string t) := by
  intro depth rest _ _
  have hread := string_quoted t rest
  rw [quoted, List.cons_append] at hread
  rw [render, quoted, List.cons_append, value, skip_cons (by decide)]
  dsimp only
  rw [if_pos rfl, hread]
  rfl

theorem readsBack_number (n : Int) : ReadsBack (.number n) := by
  intro depth rest _ hrest
  have hread := number_ofInt n hrest
  obtain ⟨b, t, ht, hb⟩ := exists_numeric_ofInt n
  rw [ht, List.cons_append] at hread
  rw [render, ht, List.cons_append, value, skip_cons hb.not_isSpace]
  dsimp only
  rw [if_neg (hb.ne (by decide)), if_neg (hb.ne (by decide)), if_neg (hb.ne (by decide)),
    if_neg (hb.ne (by decide)), if_neg (hb.ne (by decide)), if_neg (hb.ne (by decide)), hread]
  rfl

theorem readsBack_array {items : List JsonValue} (h : ∀ v ∈ items, ReadsBack v) :
    ReadsBack (.array items) := by
  intro depth rest hdepth _
  have hitem : ∀ v ∈ items, ∀ rest, Delimited rest →
      value depth (render v ++ rest) = some (v.datum, rest) := by
    intro v hv rest hrest
    have hlen := length_le_join_of_mem render hv
    rw [render_array, List.length_cons, List.length_append, List.length_singleton] at hdepth
    obtain ⟨d, rfl⟩ : ∃ d, depth = d + 1 := ⟨depth - 1, by omega⟩
    exact h v hv d rest (by omega) hrest
  have hread := list_join (Or.inl rfl) (fun v _ => starts_render v) hitem rest
  rw [render_array, List.cons_append, List.append_assoc, List.singleton_append, value,
    skip_cons (by decide)]
  dsimp only
  rw [if_neg (by decide), if_pos rfl, hread, datum_array]
  rfl

theorem member_memberText {m : Text × JsonValue} {depth : Nat} (hv : ReadsBack m.2)
    (hdepth : (render m.2).length ≤ depth) {rest : Text} (hrest : Delimited rest) :
    member (value (depth + 1)) (memberText m ++ rest) = some (Prod.map id datum m, rest) := by
  have hskip : ∀ t rest, skip (quoted t ++ rest) = quoted t ++ rest := fun t rest =>
    skip_cons (by decide) _
  rw [member, memberText, List.append_assoc, hskip, string_quoted, Option.bind_some]
  dsimp only
  rw [List.cons_append, skip_cons (by decide)]
  dsimp only
  rw [if_pos rfl, hv depth rest hdepth hrest]
  rfl

theorem readsBack_object {members : List (Text × JsonValue)} (h : ∀ m ∈ members, ReadsBack m.2) :
    ReadsBack (.object members) := by
  intro depth rest hdepth _
  have hitem : ∀ m ∈ members, ∀ rest, Delimited rest →
      member (value depth) (memberText m ++ rest) = some (Prod.map id datum m, rest) := by
    intro m hm rest hrest
    have hlen := length_le_join_of_mem memberText hm
    rw [render_object, List.length_cons, List.length_append, List.length_singleton] at hdepth
    have hmember : (render m.2).length ≤ (memberText m).length := by
      rw [memberText, List.length_append, List.length_cons]
      omega
    obtain ⟨d, rfl⟩ : ∃ d, depth = d + 1 := ⟨depth - 1, by omega⟩
    exact member_memberText (h m hm) (by omega) hrest
  have hread := list_join (Or.inr rfl) (fun m _ => starts_memberText m) hitem rest
  rw [render_object, List.cons_append, List.append_assoc, List.singleton_append, value,
    skip_cons (by decide)]
  dsimp only
  rw [if_neg (by decide), if_neg (by decide), if_pos rfl, hread, datum, membersOf_eq]
  rfl

mutual

/-- Every value is read back. -/
theorem readsBack : ∀ v : JsonValue, ReadsBack v
  | .null => fun _ _ _ _ => rfl
  | .bool true | .bool false => fun _ _ _ _ => rfl
  | .number n => readsBack_number n
  | .string t => readsBack_string t
  | .array items => readsBack_array (readsBack_items items)
  | .object members => readsBack_object (readsBack_members members)

theorem readsBack_items : ∀ vs : List JsonValue, ∀ v ∈ vs, ReadsBack v
  | [] => fun _ h => absurd h List.not_mem_nil
  | u :: us => List.forall_mem_cons.mpr ⟨readsBack u, readsBack_items us⟩

theorem readsBack_members : ∀ ms : List (Text × JsonValue), ∀ m ∈ ms, ReadsBack m.2
  | [] => fun _ h => absurd h List.not_mem_nil
  | (_, v) :: ms => List.forall_mem_cons.mpr ⟨readsBack v, readsBack_members ms⟩

end

/-- The text of a value with a new line after it holds that value and nothing else. -/
theorem first_render (v : JsonValue) :
    first (render v ++ [Text.newline]) = some (v.datum, [Text.newline]) := by
  refine readsBack v _ _ ?_ (Or.inr (Or.inr (Or.inr rfl)))
  rw [List.length_append]
  exact Nat.le_add_right _ _

theorem ofText?_render (v : JsonValue) : ofText? (render v ++ [Text.newline]) = some v.datum := by
  rw [ofText?, first_render, Option.bind_some]
  rfl

end JsonReader

end PseudoCost
