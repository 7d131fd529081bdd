import Mathlib.Data.List.Nodup
import Mathlib.Data.List.Perm.Subperm
import StackBackend.RefSet

/-! Sets and maps over references, seen as sets and as functions. Maps that are built by
insertion list every key once. -/

namespace StackBackend

variable {table : Table}
variable {r x : Ref table} {rs : List (Ref table)} {s : RefSet table}

namespace RefSet

@[simp] theorem mem_empty {x : Ref table} : x ∉ (empty : RefSet table).toList := List.not_mem_nil

@[simp] theorem contains_iff {s : RefSet table} {r : Ref table} :
    s.contains r = true ↔ r ∈ s.toList := by
  rw [contains, List.contains_iff_mem]

theorem mem_insertAll :
    ∀ {s : RefSet table} {x : Ref table}, x ∈ (s.insertAll rs).toList ↔ x ∈ s.toList ∨ x ∈ rs := by
  induction rs with
  | nil => intro s x; simp [insertAll]
  | cons r rest ih =>
    intro s x
    have hstep : s.insertAll (r :: rest) = (s.insert r).insertAll rest := rfl
    rw [hstep, ih, mem_insert, List.mem_cons, or_comm (a := x = r), or_assoc]

theorem mem_ofList : x ∈ (ofList rs).toList ↔ x ∈ rs := by
  rw [ofList, mem_insertAll]
  simp

theorem eq_empty (h : ∀ r, r ∉ s.toList) : s = .empty := by
  obtain ⟨rs, _⟩ := s
  obtain rfl : rs = [] := List.eq_nil_iff_forall_not_mem.mpr h
  rfl

theorem nodup (s : RefSet table) : s.toList.Nodup := by
  refine List.Pairwise.imp (fun {a b} hlt heq => ?_) s.sorted
  rw [heq] at hlt
  exact Nat.lt_irrefl _ hlt

theorem eq_of_perm {t : RefSet table} (hperm : s.toList.Perm t.toList) : s = t := by
  have heq : s.toList = t.toList :=
    hperm.eq_of_pairwise (fun a b _ _ hab hba => absurd hab (Nat.lt_asymm hba)) s.sorted t.sorted
  obtain ⟨_, _⟩ := s
  obtain ⟨_, _⟩ := t
  cases heq
  rfl

theorem length_lt {t : RefSet table} (hsub : ∀ x ∈ s.toList, x ∈ t.toList) (hne : t ≠ s) :
    s.toList.length < t.toList.length := by
  have hsubperm := List.subperm_of_subset s.nodup hsub
  refine Nat.lt_of_le_of_ne hsubperm.length_le fun hlen => hne ?_
  exact (eq_of_perm (hsubperm.perm_of_length_le (Nat.le_of_eq hlen.symm))).symm

end RefSet

namespace RefMap

variable {α : Type} {m : RefMap table α} {a : α}

@[simp] theorem find?_empty {x : Ref table} : (empty : RefMap table α).find? x = none := rfl

theorem lookup_cons {k : Ref table} {b : α} {rest : List (Ref table × α)} :
    ((k, b) :: rest).lookup x = if x = k then some b else rest.lookup x := by
  rw [List.lookup_cons]
  by_cases hx : x = k
  · rw [if_pos hx, show (x == k) = true from beq_iff_eq.mpr hx]
  · rw [if_neg hx, show (x == k) = false from beq_false_of_ne hx]

theorem lookup_insertInto (entries : List (Ref table × α)) :
    (insertInto r a entries).lookup x = if x = r then some a else entries.lookup x := by
  induction entries with
  | nil => exact lookup_cons
  | cons entry rest ih =>
    obtain ⟨k, b⟩ := entry
    simp only [insertInto]
    split
    · exact lookup_cons
    · split
      · rename_i heq
        obtain rfl : r = k := Ref.ext_index heq
        rw [lookup_cons, lookup_cons]
        by_cases hx : x = r <;> simp [hx]
      · rename_i hne
        rw [lookup_cons, lookup_cons, ih]
        by_cases hx : x = k
        · have hr : x ≠ r := fun h => hne (by rw [← h, hx])
          rw [if_pos hx, if_neg hr, if_pos hx]
        · rw [if_neg hx, if_neg hx]

@[simp] theorem find?_insert {r x : Ref table} :
    (m.insert r a).find? x = if x = r then some a else m.find? x :=
  lookup_insertInto m.entries

theorem find?_insert_self :
    (m.insert r a).find? r = some a := by
  rw [find?_insert, if_pos rfl]

theorem find?_insert_ne (h : x ≠ r) :
    (m.insert r a).find? x = m.find? x := by
  rw [find?_insert, if_neg h]

theorem of_find?_insert {a b : α}
    (h : (m.insert r a).find? x = some b) : (x = r ∧ b = a) ∨ (x ≠ r ∧ m.find? x = some b) := by
  rw [find?_insert] at h
  by_cases hx : x = r
  · rw [if_pos hx] at h
    exact .inl ⟨hx, (Option.some.inj h).symm⟩
  · rw [if_neg hx] at h
    exact .inr ⟨hx, h⟩

theorem forall_find?_insert {P : Ref table → α → Prop} (ha : P r a)
    (h : ∀ {x b}, m.find? x = some b → P x b) {x : Ref table} {b : α}
    (hx : (m.insert r a).find? x = some b) : P x b := by
  rcases of_find?_insert hx with ⟨rfl, rfl⟩ | ⟨_, hx⟩
  · exact ha
  · exact h hx

theorem exists_find?_insert
    (h : ∃ b, m.find? x = some b) : ∃ b, (m.insert r a).find? x = some b := by
  by_cases hx : x = r
  · exact ⟨a, by rw [hx, find?_insert_self]⟩
  · obtain ⟨b, hb⟩ := h
    exact ⟨b, by rw [find?_insert_ne hx, hb]⟩

theorem mem_keys_iff :
    x ∈ m.keys ↔ ∃ a, m.find? x = some a := by
  obtain ⟨entries⟩ := m
  unfold keys find?
  induction entries with
  | nil => simp
  | cons entry rest ih =>
    obtain ⟨k, b⟩ := entry
    simp only [List.map_cons, List.mem_cons, lookup_cons] at ih ⊢
    by_cases hx : x = k <;> simp [hx, ih]

theorem mem_of_find? (h : m.find? x = some a) :
    (x, a) ∈ m.entries := by
  obtain ⟨entries⟩ := m
  unfold find? at h
  induction entries with
  | nil => cases h
  | cons entry rest ih =>
    obtain ⟨k, b⟩ := entry
    rw [lookup_cons] at h
    by_cases hx : x = k
    · rw [if_pos hx] at h
      cases h
      rw [hx]
      exact .head _
    · rw [if_neg hx] at h
      exact .tail _ (ih h)

/-- Keys are in order, so none is listed twice. -/
def Sorted (m : RefMap table α) : Prop := m.entries.Pairwise fun a b => a.1.index < b.1.index

theorem sorted_empty : (empty : RefMap table α).Sorted := .nil

theorem mem_insertInto {entries : List (Ref table × α)}
    {entry : Ref table × α} (h : entry ∈ insertInto r a entries) :
    entry = (r, a) ∨ entry ∈ entries := by
  induction entries with
  | nil => exact .inl (List.mem_singleton.mp h)
  | cons head rest ih =>
    simp only [insertInto] at h
    split at h
    · exact (List.mem_cons.mp h)
    · split at h
      · exact (List.mem_cons.mp h).imp_right (List.mem_cons_of_mem _)
      · rcases List.mem_cons.mp h with rfl | h
        · exact .inr (.head _)
        · exact (ih h).imp_right (List.mem_cons_of_mem _)

theorem Sorted.insert (h : m.Sorted) (r : Ref table) (a : α) :
    (m.insert r a).Sorted := by
  obtain ⟨entries⟩ := m
  unfold Sorted RefMap.insert at *
  dsimp only at h ⊢
  induction entries with
  | nil => exact List.pairwise_singleton _ _
  | cons head rest ih =>
    obtain ⟨hhead, htail⟩ := List.pairwise_cons.mp h
    simp only [insertInto]
    split
    · rename_i hlt
      refine List.pairwise_cons.mpr ⟨fun x hx => ?_, h⟩
      rcases List.mem_cons.mp hx with rfl | hx
      · exact hlt
      · exact Nat.lt_trans hlt (hhead x hx)
    · split
      · rename_i heq
        refine List.pairwise_cons.mpr ⟨fun x hx => ?_, htail⟩
        rw [show (r, a).1.index = head.1.index from heq]
        exact hhead x hx
      · refine List.pairwise_cons.mpr ⟨fun x hx => ?_, ih htail⟩
        rcases mem_insertInto hx with rfl | hx
        · dsimp only
          omega
        · exact hhead x hx

theorem Sorted.nodup_keys (h : m.Sorted) : m.keys.Nodup := by
  refine List.pairwise_map.mpr (List.Pairwise.imp (fun {a b} hlt heq => ?_) h)
  rw [heq] at hlt
  exact Nat.lt_irrefl _ hlt

theorem find?_of_mem (h : m.keys.Nodup) (hx : (x, a) ∈ m.entries) : m.find? x = some a := by
  obtain ⟨entries⟩ := m
  unfold keys at h
  unfold find?
  induction entries with
  | nil => exact absurd hx List.not_mem_nil
  | cons head rest ih =>
    obtain ⟨hhead, htail⟩ := List.nodup_cons.mp h
    obtain ⟨k, b⟩ := head
    rcases List.mem_cons.mp hx with heq | hx
    · cases heq
      simp
    · have hne : x ≠ k := fun heq => hhead (List.mem_map.mpr ⟨_, hx, heq⟩)
      rw [lookup_cons, if_neg hne]
      exact ih htail hx

end RefMap

end StackBackend
