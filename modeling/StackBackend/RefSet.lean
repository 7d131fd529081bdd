import StackBackend.Ref

/-! Sets and maps over references, kept in order of position. -/

namespace StackBackend

variable {table : Table}

structure RefSet (table : Table) where
  toList : List (Ref table)
  sorted : toList.Pairwise (fun a b => a.index < b.index)
deriving DecidableEq

namespace RefSet

def empty : RefSet table := ⟨[], .nil⟩

def contains (s : RefSet table) (r : Ref table) : Bool := s.toList.contains r

def insertInto (r : Ref table) : List (Ref table) → List (Ref table)
  | [] => [r]
  | x :: rest =>
    if r.index < x.index then r :: x :: rest
    else if r.index = x.index then x :: rest
    else x :: insertInto r rest

theorem mem_insertInto {r x : Ref table} {xs : List (Ref table)} :
    x ∈ insertInto r xs ↔ x = r ∨ x ∈ xs := by
  induction xs with
  | nil => simp [insertInto]
  | cons y rest ih =>
    simp only [insertInto]
    split
    · simp
    · split
      · rename_i h
        have : r = y := Ref.ext_index h
        simp [this]
      · simp [ih, or_left_comm]

theorem sorted_insertInto (r : Ref table) {xs : List (Ref table)}
    (h : xs.Pairwise (fun a b => a.index < b.index)) :
    (insertInto r xs).Pairwise (fun a b => a.index < b.index) := by
  induction xs with
  | nil => exact List.pairwise_singleton _ _
  | cons y rest ih =>
    obtain ⟨head, tail⟩ := List.pairwise_cons.mp h
    simp only [insertInto]
    split
    · rename_i lt
      refine List.pairwise_cons.mpr ⟨fun x hx => ?_, h⟩
      rcases List.mem_cons.mp hx with rfl | hx
      · exact lt
      · exact Nat.lt_trans lt (head x hx)
    · split
      · exact h
      · refine List.pairwise_cons.mpr ⟨fun x hx => ?_, ih tail⟩
        rcases mem_insertInto.mp hx with rfl | hx
        · omega
        · exact head x hx

def insert (s : RefSet table) (r : Ref table) : RefSet table :=
  ⟨insertInto r s.toList, sorted_insertInto r s.sorted⟩

theorem mem_insert {s : RefSet table} {r x : Ref table} :
    x ∈ (s.insert r).toList ↔ x = r ∨ x ∈ s.toList := mem_insertInto

def insertAll (s : RefSet table) (rs : List (Ref table)) : RefSet table := rs.foldl insert s

def ofList (rs : List (Ref table)) : RefSet table := empty.insertAll rs

end RefSet

structure RefMap (table : Table) (α : Type) where
  entries : List (Ref table × α)

namespace RefMap

variable {α : Type}

def empty : RefMap table α := ⟨[]⟩

def find? (m : RefMap table α) (r : Ref table) : Option α := m.entries.lookup r

def contains (m : RefMap table α) (r : Ref table) : Bool := (m.find? r).isSome

def keys (m : RefMap table α) : List (Ref table) := m.entries.map Prod.fst

def insertInto (r : Ref table) (a : α) : List (Ref table × α) → List (Ref table × α)
  | [] => [(r, a)]
  | entry :: rest =>
    if r.index < entry.1.index then (r, a) :: entry :: rest
    else if r.index = entry.1.index then (r, a) :: rest
    else entry :: insertInto r a rest

/-- Maps a key to a value, in place of what it was mapped to. -/
def insert (m : RefMap table α) (r : Ref table) (a : α) : RefMap table α :=
  ⟨insertInto r a m.entries⟩

end RefMap

end StackBackend
