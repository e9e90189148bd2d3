import PseudoCost.JsonWriter
import PseudoCost.Proofs.JsonReading

/-!
# What a writer writes

A value is written by a walk over it: its brackets, its keys, and its parts in order
(`JsonValue.write`). What this puts on the page is the text of the value, whatever stands there
already (`write_writes`).

The bit of the writer is all that ties one piece to the next. `Writes pieces ts` says that some
pieces amount to a list of complete ones with the texts `ts`: wherever a comma belongs in front of
the first, it is put, one is put in front of each of the others, and one belongs in front of
whatever comes next. There is one rule for each kind of piece, and brackets around such a list make
one piece of it, with the commas between the texts and nowhere else (`Writes.brackets`).
-/

namespace PseudoCost

namespace JsonWriter

/-! ## Pages -/

theorem ext_toList {w w' : JsonWriter} (hout : w.out.toList = w'.out.toList)
    (hcomma : w.needsComma = w'.needsComma) : w = w' := by
  obtain ⟨out, needsComma⟩ := w
  obtain ⟨out', needsComma'⟩ := w'
  obtain rfl : out = out' := Array.ext' hout
  obtain rfl : needsComma = needsComma' := hcomma
  rfl

/-- The comma that belongs in front of what comes next. -/
def comma (w : JsonWriter) : Text := if w.needsComma then "," else []

/-- The page after a complete piece with the given text. -/
def add (w : JsonWriter) (t : Text) : JsonWriter := ⟨w.out ++ w.comma ++ t, true⟩

theorem toList_add (w : JsonWriter) (t : Text) :
    (w.add t).out.toList = w.out.toList ++ (w.comma ++ t) := by
  simp [add]

/-- Behind an opening bracket, pieces stand with commas between them. -/
theorem toList_foldl_add (out : Array UInt8) (ts : List Text) :
    (ts.foldl add ⟨out, false⟩).out.toList = out.toList ++ Text.join "," ts := by
  -- The first piece goes without a comma; from there on one is needed.
  have hrest : ∀ (ts : List Text) (t : Text) (out : Array UInt8),
      (ts.foldl add ⟨out ++ t, true⟩).out.toList = out.toList ++ Text.join "," (t :: ts) := by
    intro ts
    induction ts with
    | nil =>
        intro t out
        simp [Text.join]
    | cons u us ih =>
        intro t out
        have hadd : add ⟨out ++ t, true⟩ u = ⟨out ++ t ++ Text.ofString "," ++ u, true⟩ := rfl
        have hjoin := JsonReader.join_cons_cons id t u us
        simp only [List.map_id_fun, id] at hjoin
        rw [List.foldl_cons, hadd, ih, hjoin]
        simp [show Text.ofString "," = [Text.byte ','] by decide]
  cases ts with
  | nil => simp [Text.join]
  | cons t ts =>
      have hadd : add ⟨out, false⟩ t = ⟨out ++ t, true⟩ := ext_toList (by simp [add, comma]) rfl
      rw [List.foldl_cons, hadd, hrest]

/-! ## Pieces -/

/-- The pieces amount to complete ones with the given texts. -/
def Writes (pieces : Writing) (ts : List Text) : Prop :=
  ∀ w, pieces.run w = ((), ts.foldl add w)

theorem run_andThen {a b : Writing} {w w' : JsonWriter} (ha : a.run w = ((), w')) :
    (do a; b).run w = b.run w' := by
  rw [StateT.run_bind, ha]
  rfl

theorem run_separate (w : JsonWriter) : separate.run w = ((), ⟨w.out ++ w.comma, true⟩) := by
  obtain ⟨out, needsComma⟩ := w
  cases needsComma with
  | true => rfl
  | false => exact congrArg (Prod.mk ()) (ext_toList (by simp [comma]) rfl)

theorem run_key (k : Text) (w : JsonWriter) :
    (key k).run w = ((), ⟨w.out ++ w.comma ++ (JsonValue.quoted k ++ (":" : Text)), false⟩) := by
  rw [key, run_andThen (run_separate w)]
  rfl

theorem run_opening (bracket : Char) (w : JsonWriter) :
    (opening bracket).run w = ((), ⟨w.out ++ w.comma ++ [Text.byte bracket], false⟩) := by
  rw [opening, run_andThen (run_separate w)]
  rfl

theorem writes_put (t : Text) : Writes (do separate; put t) [t] := by
  intro w
  rw [run_andThen (run_separate w)]
  rfl

namespace Writes

variable {a b : Writing} {ts us : List Text}

theorem nil : Writes (pure ()) [] := fun _ => rfl

theorem append (ha : Writes a ts) (hb : Writes b us) : Writes (do a; b) (ts ++ us) := by
  intro w
  rw [run_andThen (ha w), hb, List.foldl_append]

/-- A key clears the bit, so that its value follows without a comma. -/
theorem key {t : Text} (ha : Writes a [t]) (k : Text) :
    Writes (do JsonWriter.key k; a) [JsonValue.quoted k ++ ":" ++ t] := by
  intro w
  rw [run_andThen (run_key k w)]
  refine (ha _).trans (congrArg (Prod.mk ()) (ext_toList ?_ rfl))
  simp [add, comma]

/-- Brackets make one piece of what stands between them. -/
theorem brackets (ha : Writes a ts) (left right : Char) :
    Writes (do opening left; a; closing right)
      [Text.byte left :: (Text.join "," ts ++ [Text.byte right])] := by
  intro w
  have htext := toList_foldl_add (w.out ++ w.comma ++ [Text.byte left]) ts
  rw [run_andThen (run_opening left w), run_andThen (ha _)]
  generalize ts.foldl add ⟨w.out ++ w.comma ++ [Text.byte left], false⟩ = w' at htext ⊢
  have hout : ((closing right).run w').2.out.toList = w'.out.toList ++ [Text.byte right] :=
    Array.toList_appendList ..
  refine congrArg (Prod.mk ()) (ext_toList ?_ rfl)
  rw [List.foldl_cons, List.foldl_nil, toList_add]
  refine hout.trans ?_
  rw [htext]
  simp

end Writes

/-- The text of complete pieces on an empty page. -/
theorem Writes.text_eq {a : Writing} {t : Text} (ha : Writes a [t]) : text a = t := by
  rw [text, ha]
  simp [add, comma]

end JsonWriter

/-! ## Values -/

namespace JsonValue

open JsonWriter (Writing Writes opening closing writes_put)

mutual

/-- Writes a value. -/
def write : JsonValue → Writing
  | .null => JsonWriter.null
  | .bool value => JsonWriter.boolean value
  | .number value => JsonWriter.number value
  | .string value => JsonWriter.string value
  | .array items => do
    opening '['
    writeItems items
    closing ']'
  | .object members => do
    opening '\x7b'
    writeMembers members
    closing '\x7d'

/-- Writes the items of an array. -/
def writeItems : List JsonValue → Writing
  | [] => pure ()
  | v :: vs => do
    v.write
    writeItems vs

/-- Writes the members of an object. -/
def writeMembers : List (Text × JsonValue) → Writing
  | [] => pure ()
  | (k, v) :: ms => do
    JsonWriter.key k
    v.write
    writeMembers ms

end

theorem memberText_eq (k : Text) (v : JsonValue) :
    memberText (k, v) = quoted k ++ ":" ++ v.render := by
  rw [memberText, List.append_assoc]
  rfl

mutual

/-- What is written for a value is its text. -/
theorem write_writes : ∀ v : JsonValue, Writes v.write [v.render]
  | .null => writes_put _
  | .bool value => by
      rw [write, render]
      exact writes_put _
  | .number value => by
      rw [write, render]
      exact writes_put _
  | .string value => by
      rw [write, render]
      exact writes_put _
  | .array items => by
      rw [write, render_array]
      exact (writeItems_writes items).brackets '[' ']'
  | .object members => by
      rw [write, render_object]
      exact (writeMembers_writes members).brackets '\x7b' '\x7d'

theorem writeItems_writes : ∀ vs : List JsonValue, Writes (writeItems vs) (vs.map render)
  | [] => .nil
  | v :: vs => by
      rw [writeItems]
      exact (write_writes v).append (writeItems_writes vs)

theorem writeMembers_writes : ∀ ms : List (Text × JsonValue),
    Writes (writeMembers ms) (ms.map memberText)
  | [] => .nil
  | (k, v) :: ms => by
      have hmember := ((write_writes v).key k).append (writeMembers_writes ms)
      rwa [bind_assoc, ← memberText_eq] at hmember

end

theorem text_write (v : JsonValue) : JsonWriter.text v.write = v.render :=
  (write_writes v).text_eq

/-- A loop over some things writes them as the items of an array. -/
theorem writeItems_map {α : Type} {f : α → Writing} {json : α → JsonValue}
    (h : ∀ x, f x = (json x).write) : ∀ xs : List α, xs.forM f = writeItems (xs.map json)
  | [] => rfl
  | x :: xs => by
      rw [List.map_cons, writeItems, ← h x, ← writeItems_map h xs]
      rfl

end JsonValue

/-- An array of strings is written as the array of their values. -/
theorem JsonWriter.strings_eq (k : Text) (ts : List Text) :
    strings k ts = (do key k; JsonValue.write (.array (ts.map .string))) := by
  have hstring : ∀ t, string t = (JsonValue.string t).write := fun t => by rw [JsonValue.write]
  rw [strings, JsonValue.write, JsonValue.writeItems_map hstring]

end PseudoCost
