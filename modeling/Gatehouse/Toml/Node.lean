import Gatehouse.Keyed
import Gatehouse.Toml.Scalar

/-!
# TOML tables while they are written

A document defines its tables piece by piece, and a piece may only be added where the rules allow
it: a table that has its own header is complete, a table made by dotted keys grows by dotted keys
only, and one that is merely named by a longer header may still get a header of its own.
-/

namespace Gatehouse.Toml

/-- How a table came to be. -/
inductive Origin where
  /-- It is written as a value. -/
  | value
  /-- It has a header. -/
  | header
  /-- A longer header names it on the way. -/
  | implied
  /-- A dotted key names it on the way. -/
  | dotted
  deriving DecidableEq, Repr

/-- What stands under a key. -/
inductive Node where
  /-- A scalar. -/
  | scalar (value : Scalar)
  /-- An array that is written as a value. -/
  | array (items : List Node)
  /-- A table. -/
  | table (origin : Origin) (entries : List (String × Node))
  /-- An array of tables that have headers. -/
  | tables (items : List (List (String × Node)))
  deriving Repr, Inhabited

/-- The entries of a table. -/
abbrev Entries := List (String × Node)

namespace Entries

/-- Changes the last table of an array. -/
def onLast (f : Entries → Option Entries) : List Entries → Option (List Entries)
  | [] => none
  | [t] => (fun u => [u]) <$> f t
  | t :: r => (t :: ·) <$> onLast f r

/-- Adds a key with its value below the tables that the keys in front of it name.  The last of
these must be made by dotted keys; `isDotted` says so of the table itself, and `direct` that there
are no keys in front. -/
def insert (isDotted direct : Bool) (key : String) (node : Node) : List String → Entries →
    Option Entries
  | [], t =>
    if isDotted = direct then none
    else if (Keyed.get? key t).isSome then none
    else some (t ++ [(key, node)])
  | k :: path, t =>
    match Keyed.get? k t with
    | none =>
      (fun u => t ++ [(k, .table .dotted u)]) <$> insert true false key node path []
    | some (.table .dotted u) =>
      (fun u' => Keyed.set k (.table .dotted u') t) <$> insert true false key node path u
    | some (.table .implied u) =>
      (fun u' => Keyed.set k (.table .implied u') t) <$> insert false false key node path u
    | some (.tables us) =>
      (fun us' => Keyed.set k (.tables us') t) <$> onLast (insert false false key node path) us
    | some _ => none

/-- Adds a key, dotted or not, to a table with a header or to a table that is written as a
value. -/
def add (path : List String) (key : String) (node : Node) (t : Entries) : Option Entries :=
  insert false path.isEmpty key node path t

/-- Changes the table that the keys of a header lead to; tables that are not there yet are
implied. -/
def descend (f : Entries → Option Entries) : List String → Entries → Option Entries
  | [], t => f t
  | k :: path, t =>
    match Keyed.get? k t with
    | none => (fun u => t ++ [(k, .table .implied u)]) <$> descend f path []
    | some (.table .value _) => none
    | some (.table o u) => (fun u' => Keyed.set k (.table o u') t) <$> descend f path u
    | some (.tables us) => (fun us' => Keyed.set k (.tables us') t) <$> onLast (descend f path) us
    | some _ => none

/-- Starts the table of a header. -/
def openTable (key : String) (t : Entries) : Option Entries :=
  match Keyed.get? key t with
  | none => some (t ++ [(key, .table .header [])])
  | some (.table .implied u) => some (Keyed.set key (.table .header u) t)
  | some _ => none

/-- Starts one more table of an array of tables. -/
def openItem (key : String) (t : Entries) : Option Entries :=
  match Keyed.get? key t with
  | none => some (t ++ [(key, .tables [[]])])
  | some (.tables us) => some (Keyed.set key (.tables (us ++ [[]])) t)
  | some _ => none

end Entries

end Gatehouse.Toml
