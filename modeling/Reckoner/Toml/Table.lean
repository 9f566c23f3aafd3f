import Reckoner.Toml.Statement

/-!
# Tables of TOML

What the statements of a document amount to. A table may be opened once by its header and only extended
by the statements that TOML lets extend it, which depends on how the table came to be; a key is given a
value once.
-/

namespace Reckoner.Toml

/-- How a table came to be. -/
inductive Origin
  /-- By a header of its own. -/
  | header
  /-- On the way to a table named by a header. -/
  | onTheWay
  /-- On the way of a dotted key. -/
  | dotted
  /-- In braces. -/
  | braces
  deriving DecidableEq, Repr

/-- A value with all its keys in place. -/
inductive Node
  | string (s : String)
  | scalar (s : Scalar)
  | array (items : List Node)
  | table (origin : Origin) (fields : List (String × Node))
  | tables (elements : List (List (String × Node)))

mutual

/-- Whether every scalar in a value denotes something. -/
def Node.denotes : Node → Bool
  | .string _ => true
  | .scalar s => s.denotes
  | .array items => itemsDenote items
  | .table _ fields => fieldsDenote fields
  | .tables elements => tablesDenote elements

/-- Whether all items of an array denote something. -/
def itemsDenote : List Node → Bool
  | [] => true
  | item :: rest => item.denotes && itemsDenote rest

/-- Whether the values of all keys denote something. -/
def fieldsDenote : List (String × Node) → Bool
  | [] => true
  | (_, node) :: rest => node.denotes && fieldsDenote rest

/-- Whether all tables of an array denote something. -/
def tablesDenote : List (List (String × Node)) → Bool
  | [] => true
  | fields :: rest => fieldsDenote fields && tablesDenote rest

end

/-- The keys of a table with their values. -/
abbrev Fields := List (String × Node)

namespace Fields

/-- The value of a key. -/
def get? (fields : Fields) (key : String) : Option Node :=
  fields.lookup key

/-- The fields with a new value for a key, in its old place if it has one. -/
def set (fields : Fields) (key : String) (node : Node) : Fields :=
  if (fields.get? key).isSome then
    fields.map fun field => if field.1 == key then (key, node) else field
  else fields ++ [(key, node)]

/-- Gives a key that has none yet its value. -/
def insertNew? (fields : Fields) (key : String) (node : Node) : Option Fields :=
  if (fields.get? key).isSome then none else some (fields ++ [(key, node)])

/-- Changes the table at a path of headers, opening the tables on the way that do not exist yet. Of an
array of tables the last is meant. -/
def descend? (change : Fields → Option Fields) : Path → Fields → Option Fields
  | [], fields => change fields
  | key :: path, fields =>
    match fields.get? key with
    | none => (descend? change path []).map fun inner => fields.set key (.table .onTheWay inner)
    | some (.table .braces _) => none
    | some (.table origin inner) =>
      (descend? change path inner).map fun inner => fields.set key (.table origin inner)
    | some (.tables elements) =>
      match elements.getLast? with
      | none => none
      | some inner =>
        (descend? change path inner).map fun inner =>
          fields.set key (.tables (elements.dropLast ++ [inner]))
    | some _ => none

/-- Opens a table by its header. -/
def open? (key : String) (fields : Fields) : Option Fields :=
  match fields.get? key with
  | none => some (fields.set key (.table .header []))
  | some (.table .onTheWay inner) => some (fields.set key (.table .header inner))
  | some _ => none

/-- Opens the next table of an array of tables. -/
def openNext? (key : String) (fields : Fields) : Option Fields :=
  match fields.get? key with
  | none => some (fields.set key (.tables [[]]))
  | some (.tables elements) => some (fields.set key (.tables (elements ++ [[]])))
  | some _ => none

/-- Gives a dotted key its value. The table that takes it has to be one that dotted keys made, and no
table with a header or in braces may be passed. -/
def assign? (node : Node) : Path → Origin → Fields → Option Fields
  | [], _, _ => none
  | [key], origin, fields => if origin = .dotted then fields.insertNew? key node else none
  | key :: path, _, fields =>
    match fields.get? key with
    | none => (assign? node path .dotted []).map fun inner => fields.set key (.table .dotted inner)
    | some (.table .dotted inner) =>
      (assign? node path .dotted inner).map fun inner => fields.set key (.table .dotted inner)
    | some (.table .onTheWay inner) =>
      (assign? node path .onTheWay inner).map fun inner => fields.set key (.table .onTheWay inner)
    | some (.tables elements) =>
      match elements.getLast? with
      | none => none
      | some inner =>
        (assign? node path .header inner).map fun inner =>
          fields.set key (.tables (elements.dropLast ++ [inner]))
    | some _ => none

/-- Gives a key of the table at hand its value; a key without dots only has to be new. -/
def assignHere? (path : Path) (node : Node) (fields : Fields) : Option Fields :=
  match path with
  | [key] => fields.insertNew? key node
  | _ => assign? node path .header fields

end Fields

mutual

/-- A written value with its keys put in place. -/
def Written.node? : Written → Option Node
  | .string s => some (.string s)
  | .scalar s => some (.scalar s)
  | .array items => (itemNodes? items).map .array
  | .table entries => (entryFields? [] entries).map (.table .braces)

/-- The values of an array. -/
def itemNodes? : List Written → Option (List Node)
  | [] => some []
  | item :: rest =>
    match item.node?, itemNodes? rest with
    | some node, some nodes => some (node :: nodes)
    | _, _ => none

/-- The fields of a table in braces, behind those already in place. -/
def entryFields? (fields : Fields) : List (Path × Written) → Option Fields
  | [] => some fields
  | (path, value) :: rest =>
    match value.node? with
    | none => none
    | some node =>
      match Fields.assignHere? path node fields with
      | none => none
      | some fields => entryFields? fields rest

end

/-- A document on the way: the whole table and the path of the table that keys go to. -/
structure Draft where
  root : Fields
  current : Path

namespace Draft

/-- The draft after a statement. -/
def step? (d : Draft) : Statement → Option Draft
  | .table path =>
    match path.getLast? with
    | none => none
    | some key => (Fields.descend? (Fields.open? key) path.dropLast d.root).map (⟨·, path⟩)
  | .tableArray path =>
    match path.getLast? with
    | none => none
    | some key => (Fields.descend? (Fields.openNext? key) path.dropLast d.root).map (⟨·, path⟩)
  | .assignment path value =>
    match value.node? with
    | none => none
    | some node =>
      (Fields.descend? (Fields.assignHere? path node) d.current d.root).map (⟨·, d.current⟩)

end Draft

/-- The table that a document is. -/
def ofText? (text : String) : Option Fields :=
  match Statement.ofText? text with
  | none => none
  | some statements => (statements.foldlM Draft.step? ⟨[], []⟩).map (·.root)

end Reckoner.Toml
