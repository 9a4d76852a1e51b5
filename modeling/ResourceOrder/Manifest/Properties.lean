/-!
# The properties of a manifest

A property has a name and a value, which is one string or a list of strings.

* `PropertyValue`  a string or a list of strings;
* `Properties`     at most one value for each name, in the order of the names; the order is that
                   of strings, by the numbers of their characters.

A name that is written again takes its new value, whatever shape the old one had
(`get?_insert`, `get?_ofList`).
-/

namespace ResourceOrder.Manifest

inductive PropertyValue where
  | scalar (s : String)
  | list (items : List String)
deriving DecidableEq

namespace PropertyValue

def scalar? : PropertyValue → Option String
  | .scalar s => some s
  | .list _ => none

def list? : PropertyValue → Option (List String)
  | .scalar _ => none
  | .list items => some items

def strings : PropertyValue → List String
  | .scalar s => [s]
  | .list items => items

end PropertyValue

/-! ## entries in order -/

abbrev Entries := List (String × PropertyValue)

namespace Entries

/-- in strictly increasing order of names -/
def Sorted (es : Entries) : Prop := es.Pairwise fun a b => a.1 < b.1

def find? (key : String) : Entries → Option PropertyValue
  | [] => none
  | (k, v) :: es => if k = key then some v else find? key es

/-- the entries with `value` under `key` -/
def put (key : String) (value : PropertyValue) : Entries → Entries
  | [] => [(key, value)]
  | (k, v) :: es =>
    if key < k then (key, value) :: (k, v) :: es
    else if key = k then (key, value) :: es
    else (k, v) :: put key value es

theorem lt_of_not_lt_of_ne {a b : String} (h : ¬ a < b) (hne : a ≠ b) : b < a := by
  by_cases hb : b < a
  · exact hb
  · exact absurd (String.le_antisymm (String.not_lt.1 hb) (String.not_lt.1 h)) hne

theorem mem_put {e : String × PropertyValue} {key : String} {value : PropertyValue}
    {es : Entries} (h : e ∈ put key value es) : e = (key, value) ∨ e ∈ es := by
  induction es with
  | nil => simpa [put] using h
  | cons d ds ih =>
    obtain ⟨k, v⟩ := d
    rw [put] at h
    split at h
    · simpa using h
    · split at h
      · rcases List.mem_cons.1 h with h | h
        · exact .inl h
        · exact .inr (List.mem_cons_of_mem _ h)
      · rcases List.mem_cons.1 h with h | h
        · exact .inr (h ▸ List.mem_cons_self)
        · exact (ih h).imp_right (List.mem_cons_of_mem _)

theorem sorted_put (key : String) (value : PropertyValue) {es : Entries} (h : Sorted es) :
    Sorted (put key value es) := by
  induction es with
  | nil => simp [put, Sorted]
  | cons d ds ih =>
    obtain ⟨k, v⟩ := d
    have hd := List.pairwise_cons.1 h
    rw [put]
    split
    · rename_i hlt
      refine List.pairwise_cons.2 ⟨fun e he => ?_, h⟩
      rcases List.mem_cons.1 he with rfl | he
      · exact hlt
      · exact String.lt_trans hlt (hd.1 e he)
    · rename_i hlt
      split
      · rename_i heq
        exact List.pairwise_cons.2 ⟨fun e he => heq ▸ hd.1 e he, hd.2⟩
      · rename_i hne
        refine List.pairwise_cons.2 ⟨fun e he => ?_, ih hd.2⟩
        rcases mem_put he with rfl | he
        · exact lt_of_not_lt_of_ne hlt hne
        · exact hd.1 e he

theorem find?_put (key key' : String) (value : PropertyValue) (es : Entries) :
    find? key' (put key value es) = if key = key' then some value else find? key' es := by
  induction es with
  | nil => rfl
  | cons d ds ih =>
    obtain ⟨k, v⟩ := d
    rw [put]
    split
    · rfl
    · split
      · rename_i heq
        subst heq
        by_cases h : key = key' <;> simp [find?, h]
      · rename_i hne
        by_cases hk : k = key'
        · subst hk; simp [find?, hne]
        · simp [find?, hk, ih]

end Entries

/-! ## properties -/

structure Properties where
  entries : Entries
  sorted : entries.Sorted
deriving DecidableEq

namespace Properties

def empty : Properties := ⟨[], .nil⟩

def get? (p : Properties) (key : String) : Option PropertyValue := p.entries.find? key

/-- the properties with `value` for `key`, in place of the value it may have had -/
def insert (p : Properties) (key : String) (value : PropertyValue) : Properties :=
  ⟨p.entries.put key value, Entries.sorted_put key value p.sorted⟩

/-- the properties written one after the other; of a name the last value counts -/
def ofList (writes : List (String × PropertyValue)) : Properties :=
  writes.foldl (fun p w => p.insert w.1 w.2) empty

def scalar? (p : Properties) (key : String) : Option String :=
  (p.get? key).bind PropertyValue.scalar?

def list? (p : Properties) (key : String) : Option (List String) :=
  (p.get? key).bind PropertyValue.list?

def contains (p : Properties) (key : String) : Bool := (p.get? key).isSome

def size (p : Properties) : Nat := p.entries.length

def isEmpty (p : Properties) : Bool := p.entries.isEmpty

@[simp] theorem get?_empty (key : String) : empty.get? key = none := rfl

theorem get?_insert (p : Properties) (key key' : String) (value : PropertyValue) :
    (p.insert key value).get? key' = if key = key' then some value else p.get? key' :=
  Entries.find?_put key key' value p.entries

theorem get?_writes (p : Properties) (writes : List (String × PropertyValue)) (key : String) :
    (writes.foldl (fun p w => p.insert w.1 w.2) p).get? key =
      (writes.reverse.lookup key).or (p.get? key) := by
  induction writes generalizing p with
  | nil => rfl
  | cons w ws ih =>
    obtain ⟨k, value⟩ := w
    rw [List.foldl_cons, ih, get?_insert, List.reverse_cons, List.lookup_append, Option.or_assoc,
      List.lookup_cons]
    by_cases h : k = key
    · rw [if_pos h, h, beq_self_eq_true, Option.some_or]
    · rw [if_neg h, beq_false_of_ne (Ne.symm h)]
      rfl

/-- of a name that is written several times the last value counts -/
theorem get?_ofList (writes : List (String × PropertyValue)) (key : String) :
    (ofList writes).get? key = writes.reverse.lookup key := by
  rw [ofList, get?_writes, get?_empty, Option.or_none]

end Properties

end ResourceOrder.Manifest
