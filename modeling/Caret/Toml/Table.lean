namespace Caret

namespace Toml

mutual

/-- What a key stands for. Of values only booleans are told apart. A list holds the tables under one
double-bracketed header, the latest first. -/
inductive Item where
  | value (bool : Option Bool)
  | list (tables : List Table)
  | table (table : Table)

/-- A table is implicit while only keys and headers below it name it, and dotted if a dotted key
made it. -/
structure Table where
  isImplicit : Bool
  isDotted : Bool
  entries : List (String × Item)

end

namespace Table

def empty : Table := ⟨false, false, []⟩

def get? (table : Table) (key : String) : Option Item := table.entries.lookup key

def erase (table : Table) (key : String) : Table :=
  { table with entries := table.entries.filter fun entry => entry.1 ≠ key }

def set (table : Table) (key : String) (item : Item) : Table :=
  { table with entries := (table.erase key).entries ++ [(key, item)] }

/-- Changes the table that a path leads to; tables that are missing on the way are made. A dotted
key must not lead into a table that has a header of its own. -/
def alter (dotted : Bool) (change : Table → Option Table) : List String → Table → Option Table
  | [], table => change table
  | key :: path, table =>
    match table.get? key with
    | none => do
      let inner ← alter dotted change path ⟨true, dotted, []⟩
      some (table.set key (.table inner))
    | some (.value _) => none
    | some (.list []) => none
    | some (.list (last :: others)) => do
      let inner ← alter dotted change path last
      some (table.set key (.list (inner :: others)))
    | some (.table inner) =>
      if dotted && !inner.isImplicit then none
      else do
        let inner ← alter dotted change path inner
        some (table.set key (.table inner))

/-- Gives a key that is new in its table a value. All but the last part of a dotted key name tables
that only dotted keys make. -/
def assign (table : Table) (path : List String) (key : String) (bool : Option Bool) :
    Option Table :=
  table.alter true (fun inner =>
    if inner.isDotted = path.isEmpty || (inner.get? key).isSome then none
    else some (inner.set key (.value bool))) path

end Table

/-- A document that is read up to some line: the tables that are complete, and the one that lines
go to, with its header. -/
structure Progress where
  root : Table
  current : Table
  path : List String
  isList : Bool

namespace Progress

def start : Progress := ⟨.empty, .empty, [], false⟩

/-- Puts the current table where its header says. -/
def finish (progress : Progress) : Option Table :=
  match progress.path.getLast? with
  | none => some progress.current
  | some key =>
    progress.root.alter false (fun parent =>
      if progress.isList then
        match parent.get? key with
        | none => some (parent.set key (.list [progress.current]))
        | some (.list tables) => some (parent.set key (.list (progress.current :: tables)))
        | some _ => none
      else some (parent.set key (.table progress.current))) progress.path.dropLast

def assign (progress : Progress) (path : List String) (key : String) (bool : Option Bool) :
    Option Progress :=
  (progress.current.assign path key bool).map fun current => { progress with current := current }

/-- The table that a path leads to, and the document with what is made on the way. -/
def reach (root : Table) (path : List String) : Option (Table × Table) := do
  let reached ← root.alter false some path
  let table ← path.foldlM (fun (table : Table) key =>
    match table.get? key with
    | some (.table inner) => some inner
    | some (.list (last :: _)) => some last
    | _ => none) reached
  some (reached, table)

/-- Begins a table. The same header must not come twice, but a table that is implicit so far is
taken over with what it holds. -/
def openTable (progress : Progress) (path : List String) (key : String) : Option Progress := do
  let (root, parent) ← reach (← progress.finish) path
  match parent.get? key with
  | none => some ⟨root, .empty, path ++ [key], false⟩
  | some (.table inner) =>
    guard (inner.isImplicit && !inner.isDotted)
    let root ← root.alter false (fun table => some (table.erase key)) path
    some ⟨root, { inner with isImplicit := false, isDotted := false }, path ++ [key], false⟩
  | some _ => none

/-- Begins another table of a list. -/
def openListed (progress : Progress) (path : List String) (key : String) : Option Progress := do
  let (root, parent) ← reach (← progress.finish) path
  match parent.get? key with
  | none => some ⟨root, .empty, path ++ [key], true⟩
  | some (.list _) => some ⟨root, .empty, path ++ [key], true⟩
  | some _ => none

end Progress

end Toml

end Caret
