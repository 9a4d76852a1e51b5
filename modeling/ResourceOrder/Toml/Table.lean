import ResourceOrder.Toml.Basic

/-!
# Tables in the making

A TOML text builds its tables bit by bit, and it matters how a table came about: what one way
has made another may not add to.

* `Origin`     a table is opened by a header of its own, lies on the way to one, or lies on the
               way to a member with a dotted key;
* `Items`      members with their values, tables, or tables in a row that share a name;
* `within`     changes the items at the end of a way, and makes the tables on it that are missing;
* `assign`     a new member with a value;
* `openTable`, `openRow`  a header for a table, or for one more table in a row;
* `Items.toToml`  the finished table.

Each has an answer only if what is there admits the change: nothing is written twice, a value is
never added to, and dotted keys add only to tables that no header has opened.
-/

namespace ResourceOrder.Toml

inductive Origin where
  | header
  | onTheWay
  | dotted
deriving DecidableEq

inductive Item where
  | value (v : Toml)
  | table (origin : Origin) (members : List (String × Item))
  /-- tables that share a name, the last one first -/
  | row (tables : List (List (String × Item)))

abbrev Items := List (String × Item)

/-- the items with the one under `key` changed; `f` is given what stands there -/
def update (key : String) (f : Option Item → Option Item) : Items → Option Items
  | [] => (f none).map fun i => [(key, i)]
  | (k, i) :: rest =>
    if k = key then (f (some i)).map fun j => (k, j) :: rest
    else (update key f rest).map ((k, i) :: ·)

/-- changes the items at the end of a way; `f` is given the origin of the table there and its
items.  Of tables in a row the way leads to the last one.  With `dotted`, the way leads through
no table that a header has opened, and the tables that are made belong to dotted keys. -/
def within (dotted : Bool) (f : Origin → Items → Option Items) (origin : Origin) :
    List String → Items → Option Items
  | [], items => f origin items
  | key :: keys, items =>
    update key (fun
      | none =>
        let made := if dotted then Origin.dotted else .onTheWay
        (within dotted f made keys []).map (.table made)
      | some (.value _) => none
      | some (.table o members) =>
        if dotted ∧ o = .header then none
        else (within dotted f o keys members).map (.table o)
      | some (.row []) => none
      | some (.row (last :: others)) =>
        (within dotted f .header keys last).map fun t => .row (t :: others)) items

/-- adds a value under a key that is not there yet, in the table at the end of a dotted way -/
def assign (way : List String) (key : String) (v : Toml) (items : Items) : Option Items :=
  within true (fun origin items =>
    if way ≠ [] ∧ origin ≠ .dotted then none
    else update key (fun
      | none => some (.value v)
      | some _ => none) items) .header way items

/-- opens a table; it may lie on the way to tables that were opened before -/
def openTable (way : List String) (key : String) (items : Items) : Option Items :=
  within false (fun _ items => update key (fun
    | none => some (.table .header [])
    | some (.table .onTheWay members) => some (.table .header members)
    | some _ => none) items) .header way items

def openRow (way : List String) (key : String) (items : Items) : Option Items :=
  within false (fun _ items => update key (fun
    | none => some (.row [[]])
    | some (.row tables) => some (.row ([] :: tables))
    | some _ => none) items) .header way items

mutual

def Item.toToml : Item → Toml
  | .value v => v
  | .table _ members => .table (membersToToml members)
  | .row tables => .array (rowToToml tables).reverse

def membersToToml : List (String × Item) → List (String × Toml)
  | [] => []
  | (k, i) :: rest => (k, i.toToml) :: membersToToml rest

/-- the finished tables of a row, in the order in which they stand -/
def rowToToml : List (List (String × Item)) → List Toml
  | [] => []
  | members :: rest => .table (membersToToml members) :: rowToToml rest

end

end ResourceOrder.Toml
