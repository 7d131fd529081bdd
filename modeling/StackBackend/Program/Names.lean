import StackBackend.Ref

/-! The names of a scope, kept in order of their characters. Each name stands for
the definition inserted last. -/

namespace StackBackend

structure NameTable where
  entries : List (String × DefnId)
  sorted : entries.Pairwise (fun a b => a.1 < b.1)

namespace NameTable

def empty : NameTable := ⟨[], .nil⟩

def find? (t : NameTable) (name : String) : Option DefnId :=
  (t.entries.find? (·.1 = name)).map Prod.snd

def insertEntry (name : String) (defn : DefnId) :
    List (String × DefnId) → List (String × DefnId)
  | [] => [(name, defn)]
  | entry :: rest =>
    if name < entry.1 then (name, defn) :: entry :: rest
    else if name = entry.1 then (name, defn) :: rest
    else entry :: insertEntry name defn rest

theorem mem_insertEntry {name : String} {defn : DefnId} {entries : List (String × DefnId)}
    {x : String × DefnId} (h : x ∈ insertEntry name defn entries) :
    x = (name, defn) ∨ x ∈ entries := by
  induction entries with
  | nil => simpa [insertEntry] using h
  | cons entry rest ih =>
    simp only [insertEntry] at h
    split at h
    · simpa using h
    · split at h
      · rcases List.mem_cons.mp h with h | h
        · exact .inl h
        · exact .inr (List.mem_cons_of_mem _ h)
      · rcases List.mem_cons.mp h with h | h
        · exact .inr (h ▸ List.mem_cons_self)
        · exact (ih h).imp id (List.mem_cons_of_mem _)

theorem sorted_insertEntry (name : String) (defn : DefnId) (entries : List (String × DefnId))
    (h : entries.Pairwise (fun a b => a.1 < b.1)) :
    (insertEntry name defn entries).Pairwise (fun a b => a.1 < b.1) := by
  induction entries with
  | nil => exact List.pairwise_singleton _ _
  | cons entry rest ih =>
    obtain ⟨head, tail⟩ := List.pairwise_cons.mp h
    simp only [insertEntry]
    split
    · rename_i lt
      refine List.pairwise_cons.mpr ⟨fun x hx => ?_, h⟩
      rcases List.mem_cons.mp hx with rfl | hx
      · exact lt
      · exact String.lt_trans lt (head x hx)
    · rename_i notLt
      split
      · rename_i eq
        exact List.pairwise_cons.mpr ⟨fun x hx => eq ▸ head x hx, tail⟩
      · rename_i ne
        refine List.pairwise_cons.mpr ⟨fun x hx => ?_, ih tail⟩
        rcases mem_insertEntry hx with rfl | hx
        · rcases Std.lt_trichotomy name entry.1 with lt | eq | gt
          · exact absurd lt notLt
          · exact absurd eq ne
          · exact gt
        · exact head x hx

def insert (t : NameTable) (name : String) (defn : DefnId) : NameTable :=
  ⟨insertEntry name defn t.entries, sorted_insertEntry name defn t.entries t.sorted⟩

/-- A table of the given pairs; of two pairs with one name the later counts. -/
def ofList (pairs : List (String × DefnId)) : NameTable :=
  pairs.foldl (fun t p => t.insert p.1 p.2) empty

end NameTable

end StackBackend
