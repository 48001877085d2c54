import PegCompiler.Json.Reader
/-!
  Readers of values of an expected shape: texts, numbers and characters; records,
  which are objects or arrays of their fields in order; lists; and variants, which
  are objects of one entry or bare tags.

  Arrays and objects may nest to a limit. A reader of a shape that contains others
  is given as two: one for a place where one more level is left, and `noRoom` for
  the limit itself, where an opening bracket of the right kind is refused.

  Correspondence (program ↔ here):
    the derived `Deserialize` of records and variants ↔ `record`, `variantOf`, `listOf`
-/

namespace PegCompiler.Json

/-- The levels of arrays and objects that a document may have. -/
def depthLimit : Nat := 127

/-- Fails on a value that is not of the expected type; a text, a number or a word
is read first. -/
def wrongType {α : Type} (expected : String) : Reader α := do
  let found (f : Found) : Reader α := Reader.fail (.wrongType f expected)
  match ← peek with
  | none => Reader.faultAhead .endInValue
  | some 'n' => do word ['n', 'u', 'l', 'l']; found .null
  | some 't' => do word ['t', 'r', 'u', 'e']; found (.boolean true)
  | some 'f' => do word ['f', 'a', 'l', 's', 'e']; found (.boolean false)
  | some '"' => do drop; found (.string (← stringBody))
  | some '[' => found .sequence
  | some '\x7b' => found .map
  | some c =>
    if c == '-' || isDigit c then
      match (← numberToken).value with
      | .unsigned n => found (.integer n)
      | .negative n => found (.integer (-n))
      | .float negative d => found (.float negative d)
      | .outOfRange => Reader.fault .numberRange
    else Reader.faultAhead .expectedValue

/-! ## Plain values -/

/-- A text. -/
def text? (expected : String) : Reader String := do
  match ← peek with
  | some '"' => do drop; stringBody
  | _ => wrongType expected

/-- A text. -/
def textValue : Reader String := text? "a string"

/-- A truth value. -/
def boolValue : Reader Bool := do
  match ← peek with
  | some 't' => do word ['t', 'r', 'u', 'e']; pure true
  | some 'f' => do word ['f', 'a', 'l', 's', 'e']; pure false
  | _ => wrongType "a boolean"

/-- Null. -/
def nullValue : Reader Unit := do
  match ← peek with
  | some 'n' => word ['n', 'u', 'l', 'l']
  | _ => wrongType "unit"

/-- A single character. -/
def charValue : Reader Char := do
  let s ← text? "a character"
  match s.toList with
  | [c] => pure c
  | _ => Reader.fail (.wrongValue (.string s) "a character")

/-- A natural number below a limit. -/
def natValue (limit : Nat) (expected : String) : Reader Nat := do
  match ← peek with
  | some c =>
    if c == '-' || isDigit c then
      match (← numberToken).value with
      | .unsigned n =>
        if n < limit then pure n else Reader.fail (.wrongValue (.integer n) expected)
      | .negative n => Reader.fail (.wrongValue (.integer (-n)) expected)
      | .float negative d => Reader.fail (.wrongType (.float negative d) expected)
      | .outOfRange => Reader.fault .numberRange
    else wrongType expected
  | none => wrongType expected

/-- A number of 32 bits. -/
def wordValue : Reader UInt32 := do
  return UInt32.ofNat (← natValue UInt32.size "u32")

/-- A number of 64 bits. -/
def sizeValue : Reader UInt64 := do
  return UInt64.ofNat (← natValue UInt64.size "usize")

/-- A value, or null. -/
def nullable {α : Type} (read : Reader α) : Reader (Option α) := do
  match ← peek with
  | some 'n' => do word ['n', 'u', 'l', 'l']; pure none
  | _ => return some (← read)

/-! ## Where a construct ends -/

/-- The text behind a closing curly bracket, if one comes next. -/
def closeObject (rest : List Char) : List Char :=
  match rest.dropWhile isSpace with
  | '\x7d' :: rest => rest
  | rest => rest

/-- The text behind a closing square bracket or a comma, if one comes next. -/
def closeArray (rest : List Char) : List Char :=
  match rest.dropWhile isSpace with
  | ']' :: rest => rest
  | ',' :: rest => rest.dropWhile isSpace
  | rest => rest

/-- Says where the construct around a pending error ended. -/
def settle {α : Type} (close : List Char → List Char) (read : Reader α) : Reader α :=
  fun text =>
    match read text with
    | .ok r => .ok r
    | .error e =>
      .error (if e.pending then { e with rest := close e.rest, pending := false } else e)

/-- The end of an object. -/
def endObject : Reader Unit := do
  match ← peek with
  | some '\x7d' => drop
  | some ',' => Reader.faultAhead .trailingComma
  | some _ => Reader.faultAhead .trailingText
  | none => Reader.faultAhead .endInObject

/-- The end of an array. -/
def endArray : Reader Unit := do
  match ← peek with
  | some ']' => drop
  | some ',' => do
    drop
    match ← peek with
    | some ']' => Reader.faultAhead .trailingComma
    | _ => Reader.faultAhead .trailingText
  | some _ => Reader.faultAhead .trailingText
  | none => Reader.faultAhead .endInArray

/-! ## Records -/

/-- A field of a record. -/
structure Field (α : Type) where
  name : String
  read : Reader α
  /-- The value of a field that an object leaves out. -/
  absent : Option α := none
  /-- The value of a field that an array stops in front of. -/
  omitted : Option α := absent

/-- A field that has to be given. -/
def required {α : Type} (name : String) (read : Reader α) : Field α :=
  { name, read }

/-- A field that may be left out. -/
def withDefault {α : Type} (name : String) (value : α) (read : Reader α) : Field α :=
  { name, read, absent := some value }

/-- A field that may be left out or null. -/
def maybe {α : Type} (name : String) (read : Reader α) : Field (Option α) :=
  { name, read := nullable read, absent := some none }

/-- A field that may be null, and left out of objects only. -/
def maybeInObject {α : Type} (name : String) (read : Reader α) : Field (Option α) :=
  { name, read := nullable read, absent := some none, omitted := none }

/-- The value of an entry, for a field that has none yet. -/
def Field.fill {α : Type} (f : Field α) (slot : Option α) : Reader (Option α) := do
  if slot.isSome then
    Reader.failPending (.duplicateField f.name)
  colon
  return some (← f.read)

/-- The value of a field behind the last entry. -/
def Field.close {α : Type} (f : Field α) (slot : Option α) : Reader α :=
  match slot.or f.absent with
  | some v => pure v
  | none => Reader.failPending (.missingField f.name)

/-- The value of the field at a place of an array. -/
def Field.item {α : Type} (f : Field α) (place : Nat) (expected : String) : Reader α := do
  if ← nextItem (place == 0) then f.read
  else match f.omitted with
    | some v => pure v
    | none => Reader.failPending (.wrongLength place expected)

/-- The entries of an object, up to its end. `entry` reads the value of a key it
knows into the slots; values of other keys are passed over. -/
def entries {σ : Type} (entry : String → σ → Option (Reader σ)) :
    List Char → Bool → σ → Reader σ
  | [], _, _ => Reader.faultAhead .endInObject
  | _ :: room, first, slots => do
    if ← nextEntry first then
      let key ← stringBody
      match entry key slots with
      | some read => entries entry room false (← read)
      | none => do
        colon
        skip
        entries entry room false slots
    else pure slots

/-- A record, as an object or an array. -/
def record {σ α : Type} (expected : String) (empty : σ)
    (entry : String → σ → Option (Reader σ)) (close : σ → Reader α) (items : Reader α) :
    Reader α := do
  match ← peek with
  | some '[' =>
    drop
    let v ← settle closeArray items
    endArray
    pure v
  | some '\x7b' =>
    drop
    let object : Reader α := do
      let slots ← entries entry (← roomFor) true empty
      close slots
    let v ← settle closeObject object
    endObject
    pure v
  | _ => wrongType expected

/-- What a record of some fields is expected to be. -/
def withFields (expected : String) (n : Nat) : String :=
  expected ++ " with " ++ toString n ++ (if n == 1 then " element" else " elements")

/-- A record of one field. -/
def record1 {α : Type} (expected : String) (f : Field α) : Reader α :=
  record expected (none : Option α)
    (fun key a => if key == f.name then some (f.fill a) else none)
    f.close
    (f.item 0 (withFields expected 1))

/-- A record of two fields. -/
def record2 {α β : Type} (expected : String) (f : Field α) (g : Field β) : Reader (α × β) :=
  record expected ((none, none) : Option α × Option β)
    (fun key (a, b) =>
      if key == f.name then some do return (← f.fill a, b)
      else if key == g.name then some do return (a, ← g.fill b)
      else none)
    (fun (a, b) => do return (← f.close a, ← g.close b))
    (do
      let expected := withFields expected 2
      return (← f.item 0 expected, ← g.item 1 expected))

/-- A record of three fields. -/
def record3 {α β γ : Type} (expected : String) (f : Field α) (g : Field β) (h : Field γ) :
    Reader (α × β × γ) :=
  record expected ((none, none, none) : Option α × Option β × Option γ)
    (fun key (a, b, c) =>
      if key == f.name then some do return (← f.fill a, b, c)
      else if key == g.name then some do return (a, ← g.fill b, c)
      else if key == h.name then some do return (a, b, ← h.fill c)
      else none)
    (fun (a, b, c) => do return (← f.close a, ← g.close b, ← h.close c))
    (do
      let expected := withFields expected 3
      return (← f.item 0 expected, ← g.item 1 expected, ← h.item 2 expected))

/-! ## Lists -/

/-- The items of an array, up to its end. -/
def items {α : Type} (read : Reader α) : List Char → Bool → Reader (List α)
  | [], _ => Reader.faultAhead .endInArray
  | _ :: room, first => do
    if ← nextItem first then
      let v ← read
      let rest ← items read room false
      pure (v :: rest)
    else pure []

/-- A list. -/
def listOf {α : Type} (read : Reader α) : Reader (List α) := do
  match ← peek with
  | some '[' =>
    drop
    let all : Reader (List α) := do items read (← roomFor) true
    let vs ← settle closeArray all
    endArray
    pure vs
  | _ => wrongType "a sequence"

/-! ## Variants -/

/-- A variant: a bare tag, or a tag with a payload, which may be a record of its
own. -/
inductive Variant (α : Type) where
  | bare (tag : String) (value : α)
  | payload (tag : String) (read : Reader α)
  | fields (tag : String) (read : Reader α)

/-- The tag of a variant. -/
def Variant.tag {α : Type} : Variant α → String
  | .bare tag _ => tag
  | .payload tag _ => tag
  | .fields tag _ => tag

/-- A variant whose tag stands alone. -/
def Variant.readBare {α : Type} : Variant α → Reader α
  | .bare _ v => pure v
  | .payload .. => Reader.failPending (.wrongType .bareTag "newtype variant")
  | .fields .. => Reader.failPending (.wrongType .bareTag "struct variant")

/-- A variant whose tag stands in front of a value. -/
def Variant.readTagged {α : Type} : Variant α → Reader α
  | .bare _ v => do nullValue; pure v
  | .payload _ read => read
  | .fields _ read => read

/-- The variant of a tag. -/
def knownVariant {α : Type} (variants : List (Variant α)) (tag : String) : Reader (Variant α) :=
  match variants.find? (fun v => v.tag == tag) with
  | some v => pure v
  | none => Reader.fail (.unknownTag tag (variants.map Variant.tag))

/-- The value of the object of one entry that stands for a variant. -/
def taggedValue {α : Type} (variants : List (Variant α)) : Reader α := do
  drop
  discard (keyQuote (← peek))
  let variant ← knownVariant variants (← stringBody)
  colon
  let v ← variant.readTagged
  match ← peek with
  | some '\x7d' => do drop; pure v
  | some _ => Reader.fault .expectedValue
  | none => Reader.fault .endInObject

/-- One of several variants; `tagged` reads those that stand in an object. -/
def oneVariant {α : Type} (variants : List (Variant α)) (tagged : Reader α) : Reader α := do
  match ← peek with
  | some '\x7b' => tagged
  | some '"' => do
    drop
    let variant ← knownVariant variants (← stringBody)
    variant.readBare
  | some _ => Reader.faultAhead .expectedValue
  | none => Reader.faultAhead .endInValue

/-- One of several variants. -/
def variantOf {α : Type} (variants : List (Variant α)) : Reader α :=
  oneVariant variants (taggedValue variants)

/-! ## At the nesting limit -/

/-- Refuses one more level. -/
def tooDeep {α : Type} : Reader α :=
  Reader.failAhead .tooDeep

/-- A record where no level is left. -/
def noRoomRecord {α : Type} (expected : String) : Reader α := do
  match ← peek with
  | some '[' | some '\x7b' => tooDeep
  | _ => wrongType expected

/-- A list where no level is left. -/
def noRoomList {α : Type} : Reader α := do
  match ← peek with
  | some '[' => tooDeep
  | _ => wrongType "a sequence"

/-- One of several variants where no level is left: only bare tags can be read. -/
def noRoomVariant {α : Type} (variants : List (Variant α)) : Reader α :=
  oneVariant variants tooDeep

end PegCompiler.Json
