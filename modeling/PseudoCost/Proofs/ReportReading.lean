import PseudoCost.Report.Json
import PseudoCost.Proofs.JsonWriting

/-!
# Reading a report back

What someone finds who reads the JSON of a report: the fields of the report, each under its key.
Keys are looked up, not counted on to stand in some order, and a key that is there twice is no key
(`Datum.only`).

A `Codec` says how things of one kind stand in JSON, and carries the proof that what is shown of
them is found again. The codec of a record is a table of its fields (`Codec.record`); below there is
one for each part of a report, with the keys and what stands under them. What the writer is told to
write for that part is the value of the table (`writeJson_eq`).

Together with the reader this says that the JSON of a report is one value with a new line after it,
from which every field that was written is recovered (`jsonText_shown`).
-/

namespace PseudoCost

open Recurrence

/-! ## Looking things up -/

namespace Datum

variable {α β : Type}

/-- What stands under a key that occurs once. -/
def only (key : Text) (members : List (Text × α)) : Option α :=
  match members.filter (·.1 == key) with
  | [m] => some m.2
  | _ => none

/-- The member of an object under a key, as something that can be found in it. -/
def get? (d : Datum) (key : Text) (find? : Datum → Option α) : Option α :=
  match d with
  | .object members => (only key members).bind find?
  | _ => none

theorem only_map (f : α → β) (key : Text) (members : List (Text × α)) :
    only key (members.map (Prod.map id f)) = (only key members).map f := by
  have hfilter : (members.map (Prod.map id f)).filter (·.1 == key)
      = (members.filter (·.1 == key)).map (Prod.map id f) := by
    rw [List.filter_map]
    rfl
  rw [only, only, hfilter]
  generalize members.filter (·.1 == key) = found
  rcases found with _ | ⟨m, _ | ⟨m', ms⟩⟩ <;> rfl

/-- Where the keys are distinct, each member is found. -/
theorem only_of_mem {members : List (Text × α)} (hkeys : (members.map (·.1)).Nodup) {m : Text × α}
    (hm : m ∈ members) : only m.1 members = some m.2 := by
  have hone : members.filter (·.1 == m.1) = [m] := by
    induction members with
    | nil => cases hm
    | cons m' ms ih =>
        obtain ⟨hfresh, hrest⟩ := List.nodup_cons.mp hkeys
        rcases List.mem_cons.mp hm with rfl | hm
        · have hnone : ms.filter (·.1 == m.1) = [] := by
            refine List.filter_eq_nil_iff.mpr fun u hu hkey => hfresh ?_
            exact List.mem_map.mpr ⟨u, hu, beq_iff_eq.mp hkey⟩
          rw [List.filter_cons, if_pos (beq_self_eq_true _), hnone]
        · have hne : ¬ m'.1 == m.1 := fun hkey =>
            hfresh (List.mem_map.mpr ⟨m, hm, (beq_iff_eq.mp hkey).symm⟩)
          rw [List.filter_cons, if_neg hne, ih hrest hm]
  rw [only, hone]

theorem get?_object (members : List (Text × JsonValue)) (key : Text)
    (find? : Datum → Option α) :
    get? (JsonValue.object members).datum key find?
      = (only key members).bind fun v => find? v.datum := by
  rw [JsonValue.datum, JsonValue.membersOf_eq, get?, only_map, Option.bind_map]
  rfl

/-- The bytes of a string. -/
def text? : Datum → Option Text
  | .string t => some t
  | _ => none

/-- The value of a number that is whole. -/
def int? : Datum → Option Int
  | .number q => if q.den = 1 then some q.num else none
  | _ => none

/-- A truth value. -/
def truth? : Datum → Option Bool
  | .bool b => some b
  | _ => none

/-- The items of an array, each as something that can be found in it. -/
def list? (find? : Datum → Option α) : Datum → Option (List α)
  | .array items => items.mapM find?
  | _ => none

/-- Something that null stands for the absence of. -/
def option? (find? : Datum → Option α) : Datum → Option (Option α)
  | .null => some none
  | d => (find? d).map some

@[simp] theorem text?_string (t : Text) : text? (.string t) = some t := rfl

@[simp] theorem int?_number (n : Int) : int? (.number n) = some n := by
  rw [int?, Rat.den_intCast, if_pos rfl, Rat.num_intCast]

@[simp] theorem int?_natCast (n : Nat) : int? (.number n) = some (n : Int) := int?_number n

@[simp] theorem truth?_bool (b : Bool) : truth? (.bool b) = some b := rfl

/-- A list of things that are each found is found. -/
theorem list?_map {find? : Datum → Option β} {write : α → JsonValue} {f : α → β}
    (h : ∀ x, find? (write x).datum = some (f x)) : ∀ xs : List α,
      list? find? (.array (xs.map (JsonValue.datum ∘ write))) = some (xs.map f)
  | [] => rfl
  | x :: xs => by
      have ih := list?_map h xs
      rw [list?] at ih
      rw [list?, List.map_cons, List.mapM_cons, Function.comp_apply, h x, ih]
      rfl

theorem option?_of_ne {d : Datum} (hd : d ≠ .null) (find? : Datum → Option α) :
    option? find? d = (find? d).map some := by
  cases d with
  | null => exact absurd rfl hd
  | _ => rfl

/-- What can be found is found where it is present, and nothing where it is absent. -/
theorem option?_json {find? : Datum → Option β} {write : α → JsonValue} {f : α → β}
    (h : ∀ x, find? (write x).datum = some (f x)) (hnull : find? .null = none) (o : Option α) :
    option? find? ((o.map write).getD .null).datum = some (o.map f) := by
  cases o with
  | none => rfl
  | some x =>
      have hne : (write x).datum ≠ .null := by
        intro hd
        have hx := h x
        rw [hd, hnull] at hx
        cases hx
      rw [Option.map_some, Option.getD_some, option?_of_ne hne, h x]
      rfl

end Datum

@[simp] theorem Text.ofString_inj {s t : String} : Text.ofString s = Text.ofString t ↔ s = t := by
  rw [Text.ofString, Text.ofString, Array.toList_inj, ← ByteArray.ext_iff]
  exact String.toByteArray_inj

@[simp] theorem Text.ofString_beq (s t : String) :
    (Text.ofString s == Text.ofString t) = (s == t) := by
  rw [Bool.eq_iff_iff, beq_iff_eq, beq_iff_eq, Text.ofString_inj]

/-! ## Codecs -/

open JsonValue (datum)

/-- How things of one kind stand in JSON: the value that stands for each, what is shown of it, and
how that is found in what was read. What is found is what was shown. -/
structure Codec (α : Type) where
  Shown : Type
  json : α → JsonValue
  shown : α → Shown
  find? : Datum → Option Shown
  found : ∀ x, find? (json x).datum = some (shown x)

namespace Codec

open Datum (text? int? truth? list? option? get?)

variable {α β : Type}

/-- A string. -/
def text (f : α → Text) : Codec α where
  Shown := Text
  json x := .string (f x)
  shown := f
  find? := text?
  found _ := rfl

/-- A whole number. -/
def int (f : α → Int) : Codec α where
  Shown := Int
  json x := .number (f x)
  shown := f
  find? := int?
  found x := Datum.int?_number (f x)

/-- A truth value. -/
def truth (f : α → Bool) : Codec α where
  Shown := Bool
  json x := .bool (f x)
  shown := f
  find? := truth?
  found _ := rfl

/-- A part that has a codec of its own. -/
def on (f : α → β) (c : Codec β) : Codec α where
  Shown := c.Shown
  json x := c.json (f x)
  shown x := c.shown (f x)
  find? := c.find?
  found x := c.found (f x)

/-- An array of parts. -/
def list (f : α → List β) (c : Codec β) : Codec α where
  Shown := List c.Shown
  json x := .array ((f x).map c.json)
  shown x := (f x).map c.shown
  find? := list? c.find?
  found x := by
    rw [JsonValue.datum_array, List.map_map]
    exact Datum.list?_map c.found (f x)

/-- An array of strings. -/
def texts (f : α → List Text) : Codec α := list f (text id)

/-- A part that may be absent, with null in its place. -/
def optional (f : α → Option β) (c : Codec β) (hnull : c.find? .null = none) : Codec α where
  Shown := Option c.Shown
  json x := ((f x).map c.json).getD .null
  shown x := (f x).map c.shown
  find? := option? c.find?
  found x := Datum.option?_json c.found hnull (f x)

/-! ### Records -/

/-- What is shown of a record: one entry for each field, in the order of the table. -/
def FieldsShown : List (Text × Codec α) → Type
  | [] => Unit
  | (_, c) :: fields => c.Shown × FieldsShown fields

/-- The value of each field. -/
def shownOf : (fields : List (Text × Codec α)) → α → FieldsShown fields
  | [], _ => ()
  | (_, c) :: fields, x => (c.shown x, shownOf fields x)

/-- The members of an object that show a record. -/
def membersOf (fields : List (Text × Codec α)) (x : α) : List (Text × JsonValue) :=
  fields.map fun field => (field.1, field.2.json x)

/-- Each field, looked up under its key. -/
def findOf? : (fields : List (Text × Codec α)) → Datum → Option (FieldsShown fields)
  | [], _ => some ()
  | (key, c) :: fields, d => do return (← d.get? key c.find?, ← findOf? fields d)

/-- A field of an object is found under its key. -/
theorem get?_membersOf {all : List (Text × Codec α)} (hkeys : (all.map (·.1)).Nodup)
    {field : Text × Codec α} (hfield : field ∈ all) (x : α) :
    get? (JsonValue.object (membersOf all x)).datum field.1 field.2.find?
      = some (field.2.shown x) := by
  have hkeys' : ((membersOf all x).map (·.1)).Nodup := by rwa [membersOf, List.map_map]
  have hmem : (field.1, field.2.json x) ∈ membersOf all x := List.mem_map_of_mem hfield
  rw [Datum.get?_object, Datum.only_of_mem hkeys' hmem, Option.bind_some, field.2.found]

theorem findOf?_membersOf {all : List (Text × Codec α)} (hkeys : (all.map (·.1)).Nodup) (x : α) :
    ∀ fields ⊆ all,
      findOf? fields (JsonValue.object (membersOf all x)).datum = some (shownOf fields x)
  | [], _ => rfl
  | (key, c) :: fields, hsub => by
      have hhead := get?_membersOf hkeys (hsub List.mem_cons_self) x
      have htail := findOf?_membersOf hkeys x fields fun _ hf => hsub (List.mem_cons_of_mem _ hf)
      rw [findOf?, hhead, htail]
      rfl

/-- An object with a member for each field. -/
def record (fields : List (Text × Codec α)) (hkeys : (fields.map (·.1)).Nodup) : Codec α where
  Shown := FieldsShown fields
  json x := .object (membersOf fields x)
  shown := shownOf fields
  find? := findOf? fields
  found x := findOf?_membersOf hkeys x fields (List.Subset.refl _)

/-- Null is no record. -/
theorem record_null {field : Text × Codec α} {fields : List (Text × Codec α)}
    (hkeys : ((field :: fields).map (·.1)).Nodup) :
    (record (field :: fields) hkeys).find? .null = none := rfl

/-! ### The values of a table -/

@[simp] theorem membersOf_nil (x : α) : membersOf [] x = [] := rfl

@[simp] theorem membersOf_cons (key : Text) (c : Codec α) (fields : List (Text × Codec α)) (x : α) :
    membersOf ((key, c) :: fields) x = (key, c.json x) :: membersOf fields x := rfl

@[simp] theorem json_text (f : α → Text) (x : α) : (text f).json x = .string (f x) := rfl

@[simp] theorem json_int (f : α → Int) (x : α) : (int f).json x = .number (f x) := rfl

@[simp] theorem json_truth (f : α → Bool) (x : α) : (truth f).json x = .bool (f x) := rfl

@[simp] theorem json_on (f : α → β) (c : Codec β) (x : α) : (on f c).json x = c.json (f x) := rfl

@[simp] theorem json_list (f : α → List β) (c : Codec β) (x : α) :
    (list f c).json x = .array ((f x).map c.json) := rfl

@[simp] theorem json_texts (f : α → List Text) (x : α) :
    (texts f).json x = .array ((f x).map .string) := rfl

@[simp] theorem json_optional (f : α → Option β) (c : Codec β) (hnull : c.find? .null = none)
    (x : α) : (optional f c hnull).json x = ((f x).map c.json).getD .null := rfl

@[simp] theorem json_record (fields : List (Text × Codec α)) (hkeys : (fields.map (·.1)).Nodup)
    (x : α) : (record fields hkeys).json x = .object (membersOf fields x) := rfl

end Codec

/-! ## The parts of a report -/

variable {R : Type}

def Token.codec : Codec Token :=
  .record
    [("kind", .text (·.kind.label)), ("text", .text (·.text)), ("line", .int (·.pos.line)),
      ("col", .int (·.pos.col))]
    (by simp)

def Remark.codec : Codec Remark :=
  .record [("kind", .text (·.kind.text)), ("text", .text (·.text)), ("line", .int (·.line))]
    (by simp)

def LineCost.codec : Codec (LineCost R) :=
  .record
    [("line", .int (·.line)), ("code", .text (·.code)), ("cost", .text (·.costText)),
      ("explanation", .text (·.explanation)), ("origin", .text (·.origin.text)),
      ("scope", .text (·.scope))]
    (by simp)

def Cases.codec [Scalar R] : Codec (Cases R) :=
  .record
    [("best", .text (·.best.bigOmega)), ("average", .text (·.average.bigTheta)),
      ("worst", .text (·.worst.bigO))]
    (by simp)

namespace Recurrence

def Relation.codec : Codec (Relation R) :=
  .record
    [("procedure", .text (·.procedure)), ("equation", .text (·.equation)),
      ("explanation", .text (·.explanation)), ("base_case", .text (·.baseCase)),
      ("notes", .texts (·.notes))]
    (by simp)

theorem Relation.codec_null : Codec.find? (Relation.codec (R := R)) .null = none :=
  Codec.record_null _

def Step.codec : Codec Step :=
  .record [("label", .text (·.label)), ("value", .text (·.value))] (by simp)

def TreeLevel.codec : Codec (TreeLevel R) :=
  .record
    [("depth", .int (·.depth)), ("node_count", .int (·.nodeCount)), ("labels", .texts (·.labels)),
      ("node_cost", .text (·.nodeCost)), ("level_cost", .text (·.levelCost))]
    (by simp)

def TreeProfile.codec : Codec TreeProfile :=
  .record
    [("a", .int (·.calls)), ("b", .text (·.divisor)), ("height", .text (·.height)),
      ("shape", .text (·.shape))]
    (by simp)

namespace TreeNode

/-! ### Nodes of a tree

A node stands within nodes, so its table would need itself. It is written and found by walks. -/

mutual

/-- The value of a node. -/
def json : TreeNode → JsonValue
  | .node label cost children =>
    .object [("label", .string label), ("cost", .string cost),
      ("children", .array (jsonList children))]

def jsonList : List TreeNode → List JsonValue
  | [] => []
  | n :: ns => n.json :: jsonList ns

end

mutual

/-- All of a node and of the nodes below it is shown. -/
def ofDatum? : Datum → Option TreeNode
  | .object members => do
    -- The nodes below are found first, member by member: the recursion is on what was read.
    let label ← (Datum.only "label" members).bind Datum.text?
    let cost ← (Datum.only "cost" members).bind Datum.text?
    let children ← (Datum.only "children" (inMembers members)).bind id
    return .node label cost children
  | _ => none

def inItems : Datum → Option (List TreeNode)
  | .array items => ofItems? items
  | _ => none

def ofItems? : List Datum → Option (List TreeNode)
  | [] => some []
  | d :: ds => do return (← ofDatum? d) :: (← ofItems? ds)

def inMembers : List (Text × Datum) → List (Text × Option (List TreeNode))
  | [] => []
  | (key, d) :: ms => (key, inItems d) :: inMembers ms

end

mutual

theorem ofDatum?_json : ∀ n : TreeNode, ofDatum? n.json.datum = some n
  | .node label cost children => by
      have hchildren := ofItems?_jsonList children
      simp [json, datum, ofDatum?, inMembers, inItems, Datum.only, hchildren]

theorem ofItems?_jsonList : ∀ ns : List TreeNode, ofItems? ((jsonList ns).map datum) = some ns
  | [] => rfl
  | n :: ns => by
      rw [jsonList, List.map_cons, ofItems?, ofDatum?_json n, ofItems?_jsonList ns]
      rfl

end

def codec : Codec TreeNode where
  Shown := TreeNode
  json := json
  shown := id
  find? := ofDatum?
  found := ofDatum?_json

end TreeNode

def CallTree.codec : Codec (CallTree R) :=
  .record
    [("levels", .list (·.levels) TreeLevel.codec), ("structure", .on (·.profile) TreeProfile.codec),
      ("total", .text (·.total)), ("truncated", .truth (·.truncated)),
      ("root", .on (·.root) TreeNode.codec)]
    (by simp)

theorem CallTree.codec_null : Codec.find? (CallTree.codec (R := R)) .null = none :=
  Codec.record_null _

end Recurrence

namespace Report

/-! ## The whole report -/

def lexerCodec : Codec (Report R) :=
  .record [("tokens", .list (·.tokens) Token.codec)] (by simp)

def parserCodec : Codec (Report R) :=
  .record [("ast_dump", .text (·.outline)), ("statement_count", .int (·.statementCount))] (by simp)

def lineCostsCodec : Codec (Report R) :=
  .record [("rows", .list (·.lineCosts) LineCost.codec)] (by simp)

def extractionCodec : Codec (Report R) := .optional (·.relation) Relation.codec Relation.codec_null

def solutionCodec [Scalar R] : Codec (Report R) :=
  .record
    [("main_result", .text (·.mainResult)), ("cases", .on (·.cases) Cases.codec),
      ("method_used", .text (·.method)), ("justification", .text (·.justification)),
      ("math_steps", .list (·.steps) Step.codec),
      ("annotations", .list (·.remarks) Remark.codec), ("assumed", .truth (·.assumed))]
    (by simp)

def treeCodec : Codec (Report R) := .optional (·.tree) CallTree.codec CallTree.codec_null

/-- The object of a report: every field that is written, under its key. -/
def codec [Scalar R] : Codec (Report R) :=
  .record
    [("lexer", lexerCodec), ("parser", parserCodec), ("line_costs", lineCostsCodec),
      ("extraction", extractionCodec), ("solution", solutionCodec), ("recursion_tree", treeCodec),
      ("warnings", .texts (·.warnings))]
    (by simp)

end Report

/-! ## What is written

Each part is written member by member, and that is to write the value of its table. -/

open JsonValue (write writeItems writeMembers writeItems_map)

open JsonWriter (field numberField strings_eq)

theorem Token.writeJson_eq (t : Token) : t.writeJson = (Token.codec.json t).write := by
  simp [Token.writeJson, Token.codec, field, numberField, write, writeMembers]

theorem Remark.writeJson_eq (r : Remark) : r.writeJson = (Remark.codec.json r).write := by
  simp [Remark.writeJson, Remark.codec, field, numberField, write, writeMembers]

theorem LineCost.writeJson_eq (row : LineCost R) :
    row.writeJson = (LineCost.codec.json row).write := by
  simp [LineCost.writeJson, LineCost.codec, field, numberField, write, writeMembers]

namespace Recurrence

theorem Step.writeJson_eq (s : Step) : s.writeJson = (Step.codec.json s).write := by
  simp [Step.writeJson, Step.codec, field, write, writeMembers]

theorem TreeLevel.writeJson_eq (l : TreeLevel R) :
    l.writeJson = (TreeLevel.codec.json l).write := by
  simp [TreeLevel.writeJson, TreeLevel.codec, field, numberField, strings_eq, write, writeMembers]

namespace TreeNode

mutual

theorem writeJson_eq : ∀ n : TreeNode, n.writeJson = n.json.write
  | .node label cost children => by
      have hchildren := writeJsonList_eq children
      simp [writeJson, json, field, write, writeMembers, hchildren]

theorem writeJsonList_eq : ∀ ns : List TreeNode, writeJsonList ns = writeItems (jsonList ns)
  | [] => rfl
  | n :: ns => by
      rw [writeJsonList, jsonList, writeItems, writeJson_eq n, writeJsonList_eq ns]

end

end TreeNode

end Recurrence

namespace Report

theorem writeTokens_eq (r : Report R) :
    r.writeTokens = writeMembers [("lexer", lexerCodec.json r)] := by
  have htokens := writeItems_map Token.writeJson_eq r.tokens
  simp [writeTokens, lexerCodec, write, writeMembers, htokens]

theorem writeParser_eq (r : Report R) :
    r.writeParser = writeMembers [("parser", parserCodec.json r)] := by
  simp [writeParser, parserCodec, field, numberField, write, writeMembers]

theorem writeLineCosts_eq (r : Report R) :
    r.writeLineCosts = writeMembers [("line_costs", lineCostsCodec.json r)] := by
  have hrows := writeItems_map (fun row : LineCost R => row.writeJson_eq) r.lineCosts
  simp [writeLineCosts, lineCostsCodec, write, writeMembers, hrows]

theorem writeExtraction_eq (r : Report R) :
    r.writeExtraction = writeMembers [("extraction", extractionCodec.json r)] := by
  rw [extractionCodec, Codec.json_optional]
  cases hrel : r.relation with
  | none => simp [writeExtraction, hrel, write, writeMembers]
  | some rel =>
      simp [writeExtraction, hrel, Relation.codec, field, strings_eq, write, writeMembers]

theorem writeTree_eq (r : Report R) :
    r.writeTree = writeMembers [("recursion_tree", treeCodec.json r)] := by
  rw [treeCodec, Codec.json_optional]
  cases htree : r.tree with
  | none => simp [writeTree, htree, write, writeMembers]
  | some t =>
      have hlevels := writeItems_map (fun l : TreeLevel R => l.writeJson_eq) t.levels
      have hroot : t.root.writeJson = (TreeNode.codec.json t.root).write := t.root.writeJson_eq
      simp [writeTree, htree, CallTree.codec, TreeProfile.codec, field, numberField, write,
        writeMembers, hlevels, hroot]

variable [Scalar R]

theorem writeSolution_eq (r : Report R) :
    r.writeSolution = writeMembers [("solution", solutionCodec.json r)] := by
  have hsteps := writeItems_map Step.writeJson_eq r.steps
  have hremarks := writeItems_map Remark.writeJson_eq r.remarks
  simp [writeSolution, solutionCodec, Cases.codec, field, write, writeMembers, hsteps, hremarks]

/-- What is written of a report is the value of its table. -/
theorem writeJson_eq (r : Report R) : r.writeJson = (codec.json r).write := by
  simp [writeJson, codec, writeTokens_eq, writeParser_eq, writeLineCosts_eq, writeExtraction_eq,
    writeSolution_eq, writeTree_eq, strings_eq, write, writeMembers]

/-- **The JSON of a report is a faithful encoding.** What the writer has put down at the end is one
value with a new line after it, a strict reader of JSON accepts it and reads the object of the
report, and in that every field that is written is found under its key: texts byte for byte,
numbers, truth values, lists in order, the nodes of the tree, and the relation and the tree as
absent where they are. -/
theorem jsonText_shown (r : Report R) :
    JsonReader.first r.jsonText = some ((codec.json r).datum, [Text.newline])
      ∧ JsonReader.ofText? r.jsonText = some (codec.json r).datum
      ∧ codec.find? (codec.json r).datum = some (codec.shown r) := by
  have htext : r.jsonText = (codec.json r).render ++ [Text.newline] := by
    rw [jsonText, writeJson_eq, JsonValue.text_write]
  refine ⟨?_, ?_, codec.found r⟩
  · rw [htext, JsonReader.first_render]
  · rw [htext, JsonReader.ofText?_render]

end Report

end PseudoCost
