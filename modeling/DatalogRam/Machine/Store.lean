import DatalogRam.Machine.Rows

/-!
# Stores

A store gives every relation name a set of rows, which is empty unless rows were put there. What a store holds
is known through `Store.rows` alone.
-/

namespace DatalogRam.Machine

structure Store where
  entries : List (String × Rows)

namespace Store

def empty : Store :=
  ⟨[]⟩

instance : Inhabited Store := ⟨empty⟩

/-- The rows of a relation. -/
def rows (store : Store) (relation : String) : Rows :=
  (store.entries.lookup relation).getD .empty

/-- Give a relation a new set of rows. -/
def put (store : Store) (relation : String) (rows : Rows) : Store :=
  ⟨(relation, rows) :: store.entries.filter (fun entry => entry.1 != relation)⟩

def insert (store : Store) (relation : String) (row : Row) : Store :=
  store.put relation ((store.rows relation).insert row)

def clear (store : Store) (relation : String) : Store :=
  store.put relation .empty

/-- Exchange the rows of two relations. -/
def swap (store : Store) (left right : String) : Store :=
  (store.put left (store.rows right)).put right (store.rows left)

/-- Add the rows of `source` to `target`. -/
def merge (store : Store) (source target : String) : Store :=
  store.put target ((store.rows target).union (store.rows source))

@[simp] theorem rows_empty (relation : String) : empty.rows relation = .empty := rfl

theorem lookup_filter_ne (entries : List (String × Rows)) {relation other : String}
    (different : other ≠ relation) :
    (entries.filter (fun entry => entry.1 != relation)).lookup other = entries.lookup other := by
  induction entries with
  | nil => rfl
  | cons entry entries ih =>
      obtain ⟨name, rows⟩ := entry
      by_cases same : name = relation
      · subst same
        simp [ih, List.lookup_cons, beq_false_of_ne different]
      · simp [same, ih, List.lookup_cons]

@[simp] theorem rows_put (store : Store) (relation other : String) (rows : Rows) :
    (store.put relation rows).rows other = if other = relation then rows else store.rows other := by
  by_cases same : other = relation
  · simp [put, Store.rows, same]
  · have lookup := lookup_filter_ne store.entries same
    simp [put, Store.rows, same, List.lookup_cons, beq_false_of_ne same, lookup]

theorem rows_insert (store : Store) (relation other : String) (row : Row) :
    (store.insert relation row).rows other =
      if other = relation then (store.rows relation).insert row else store.rows other := by
  simp [insert]

theorem rows_clear (store : Store) (relation other : String) :
    (store.clear relation).rows other = if other = relation then .empty else store.rows other := by
  simp [clear]

theorem rows_swap (store : Store) (left right other : String) :
    (store.swap left right).rows other =
      if other = right then store.rows left
      else if other = left then store.rows right else store.rows other := by
  simp [swap]

theorem rows_merge (store : Store) (source target other : String) :
    (store.merge source target).rows other =
      if other = target then (store.rows target).union (store.rows source) else store.rows other := by
  simp [merge]

end Store

end DatalogRam.Machine
