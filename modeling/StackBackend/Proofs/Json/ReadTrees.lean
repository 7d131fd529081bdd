import StackBackend.Json.Reader
import StackBackend.Proofs.Json.WrittenTokens

/-! Reading a written tree gives the tree back, down to the level where the reader
stops. Main statement: `parse? limit j.pretty` is `j` with every container that
stands inside `limit` others made unreadable, and this is `j` itself exactly when
`j` nests no deeper than `limit`. -/

namespace StackBackend.Json

open List (foldlM_cons nil_append length_cons append_assoc cons_append)
open Option (bind_some bind_eq_bind)

mutual
/-- The part of a tree that is read when containers may nest `room` deep. -/
def cut (room : Nat) : Json → Json
  | .array items => if room = 0 then .unreadable else .array (cutItems (room - 1) items)
  | .object members => if room = 0 then .unreadable else .object (cutMembers (room - 1) members)
  | .null => .null
  | .bool b => .bool b
  | .number literal => .number literal
  | .string s => .string s
  | .unreadable => .unreadable
def cutItems (room : Nat) : List Json → List Json
  | [] => []
  | item :: rest => cut room item :: cutItems room rest
def cutMembers (room : Nat) : List (String × Json) → List (String × Json)
  | [] => []
  | (key, value) :: rest => (key, cut room value) :: cutMembers room rest
end

mutual
/-- Exactly the trees that are too deep lose something. -/
theorem cut_eq_self_iff (room : Nat) :
    (j : Json) → j.Writable → (j.cut room = j ↔ j.depth ≤ room)
  | .null, _ => by simp [cut, depth]
  | .bool _, _ => by simp [cut, depth]
  | .number _, _ => by simp [cut, depth]
  | .string _, _ => by simp [cut, depth]
  | .array items, hj => by
    cases room with
    | zero => simp [cut, depth]
    | succ room => simpa [cut, depth] using cutItems_eq_self_iff room items hj
  | .object members, hj => by
    cases room with
    | zero => simp [cut, depth]
    | succ room => simpa [cut, depth] using cutMembers_eq_self_iff room members hj
theorem cutItems_eq_self_iff (room : Nat) :
    (items : List Json) → WritableItems items →
      (cutItems room items = items ↔ depthItems items ≤ room)
  | [], _ => by simp [cutItems, depthItems]
  | item :: rest, ⟨hitem, hrest⟩ => by
    rw [cutItems, depthItems, List.cons.injEq, cut_eq_self_iff room item hitem,
      cutItems_eq_self_iff room rest hrest, Nat.max_le]
theorem cutMembers_eq_self_iff (room : Nat) :
    (members : List (String × Json)) → WritableMembers members →
      (cutMembers room members = members ↔ depthMembers members ≤ room)
  | [], _ => by simp [cutMembers, depthMembers]
  | (key, value) :: rest, ⟨hvalue, hrest⟩ => by
    rw [cutMembers, depthMembers, List.cons.injEq, Prod.mk.injEq,
      cut_eq_self_iff room value hvalue, cutMembers_eq_self_iff room rest hrest, Nat.max_le]
    simp only [true_and]
end

/-! ### The reader over the tokens of a tree -/

namespace Reader

variable {limit : Nat}

/-- Where a value may start, any token but a closing bracket starts one. -/
def Starts (phase : Phase) : Prop := phase = .value ∨ phase = .firstItem

theorem step_eq_startValue {phase : Phase} (hphase : Starts phase) (frames : List Frame)
    {t : Token} (ht : t ≠ .closeArray) :
    step limit ⟨frames, phase⟩ t = startValue frames t := by
  rcases hphase with rfl | rfl
  · simp [step]
  · unfold step
    split <;> simp_all

theorem close_eq (frames : List Frame) (container : Json) :
    close limit frames container =
      ⟨frames, .complete (if limit - frames.length = 0 then .unreadable else container)⟩ := by
  simp only [close, List.length_take]
  by_cases h : frames.length < limit
  · rw [if_pos (by omega), if_neg (by omega)]
  · rw [if_neg (by omega), if_pos (by omega)]

theorem mapM_some_keys (members : List (String × Json)) :
    (members.map fun (key, value) => (some key, value)).mapM
      (fun (key, value) => key.map (·, value)) = some members := by
  induction members with
  | nil => rfl
  | cons member rest ih => simp [ih]

theorem ofMembers_some (members : List (String × Json)) :
    ofMembers (members.map fun (key, value) => (some key, value)) = .object members := by
  rw [ofMembers, mapM_some_keys]

theorem toTokens_eq_cons (j : Json) : ∃ t rest, j.toTokens = t :: rest ∧ t ≠ .closeArray := by
  cases j <;> simp [toTokens]

/-- What is read depends only on the containers around, not on where among them a
value starts. -/
theorem foldlM_toTokens_starts {phase : Phase} (hphase : Starts phase) (frames : List Frame)
    (j : Json) :
    j.toTokens.foldlM (step limit) ⟨frames, phase⟩
      = j.toTokens.foldlM (step limit) ⟨frames, .value⟩ := by
  obtain ⟨t, rest, hj, ht⟩ := toTokens_eq_cons j
  rw [hj, foldlM_cons, foldlM_cons, step_eq_startValue hphase frames ht,
    step_eq_startValue (.inl rfl) frames ht]

theorem foldlM_append_of {tokens : List Token} {r r' : Reader}
    (h : tokens.foldlM (step limit) r = some r') (more : List Token) :
    (tokens ++ more).foldlM (step limit) r = more.foldlM (step limit) r' := by
  simp [List.foldlM_append, h]

mutual
/-- The tokens of a tree complete the tree, as far as there is room for it. -/
theorem foldlM_toTokens (frames : List Frame) :
    (j : Json) → j.Writable →
      j.toTokens.foldlM (step limit) ⟨frames, .value⟩
        = some ⟨frames, .complete (j.cut (limit - frames.length))⟩
  | .null, _ => rfl
  | .bool _, _ => rfl
  | .number _, _ => rfl
  | .string _, _ => rfl
  | .array [], _ => by
    simp [toTokens, itemTokens, step, startValue, close_eq, cut, cutItems]
  | .array (item :: rest), ⟨hitem, hrest⟩ => by
    have hfirst := foldlM_toTokens (.array [] :: frames) item hitem
    have hmore := foldlM_itemTokens frames rest hrest []
      (item.cut (limit - (frames.length + 1)))
    have hstart : step limit ⟨frames, .value⟩ .openArray
        = some ⟨.array [] :: frames, .firstItem⟩ := rfl
    rw [← foldlM_toTokens_starts (.inr rfl)] at hfirst
    simp only [toTokens, itemTokens, foldlM_cons, hstart, if_true, nil_append,
      append_assoc, bind_eq_bind, bind_some, foldlM_append_of hfirst,
      length_cons, hmore, close_eq]
    simp [cut, cutItems, Nat.sub_add_eq]
  | .object [], _ => by
    simp [toTokens, memberTokens, step, startValue, close_eq, cut, cutMembers]
  | .object ((key, value) :: rest), ⟨hvalue, hrest⟩ => by
    have hfirst := foldlM_toTokens (.object [] (some key) :: frames) value hvalue
    have hmore := foldlM_memberTokens frames rest hrest [] (some key)
      (value.cut (limit - (frames.length + 1)))
    have hstart : step limit ⟨frames, .value⟩ .openObject = some ⟨frames, .key [] true⟩ := rfl
    have hkey : step limit ⟨frames, .key [] true⟩ (.string (some key))
        = some ⟨frames, .colon [] (some key)⟩ := by simp [step]
    have hcolon : step limit ⟨frames, .colon [] (some key)⟩ .colon
        = some ⟨.object [] (some key) :: frames, .value⟩ := by simp [step]
    have hmembers := ofMembers_some ((key, value.cut (limit - (frames.length + 1))) ::
      cutMembers (limit - (frames.length + 1)) rest)
    rw [List.map_cons] at hmembers
    simp only [toTokens, memberTokens, foldlM_cons, hstart, hkey, hcolon, if_true,
      nil_append, cons_append, append_assoc, bind_eq_bind,
      bind_some, foldlM_append_of hfirst, length_cons, hmore, close_eq,
      List.reverse_singleton, hmembers]
    simp [cut, cutMembers, Nat.sub_add_eq]
/-- Behind an item, the other items and the closing bracket complete the array. -/
theorem foldlM_itemTokens (frames : List Frame) :
    (items : List Json) → WritableItems items → (done : List Json) → (v : Json) →
      (itemTokens false items ++ [Token.closeArray]).foldlM (step limit)
          ⟨.array done :: frames, .complete v⟩
        = some (close limit frames
            (.array ((v :: done).reverse ++ cutItems (limit - (frames.length + 1)) items)))
  | [], _, done, v => by simp [itemTokens, step, cutItems]
  | item :: rest, ⟨hitem, hrest⟩, done, v => by
    have hitem := foldlM_toTokens (.array (v :: done) :: frames) item hitem
    have hmore := foldlM_itemTokens frames rest hrest (v :: done)
      (item.cut (limit - (frames.length + 1)))
    have hcomma : step limit ⟨.array done :: frames, .complete v⟩ .comma
        = some ⟨.array (v :: done) :: frames, .value⟩ := by simp [step]
    simp only [itemTokens, Bool.false_eq_true, if_false, cons_append, nil_append,
      append_assoc, foldlM_cons, hcomma, bind_eq_bind, bind_some,
      foldlM_append_of hitem, length_cons, hmore]
    simp [cutItems]
theorem foldlM_memberTokens (frames : List Frame) :
    (members : List (String × Json)) → WritableMembers members →
      (done : List (Option String × Json)) → (key : Option String) → (v : Json) →
      (memberTokens false members ++ [Token.closeObject]).foldlM (step limit)
          ⟨.object done key :: frames, .complete v⟩
        = some (close limit frames (ofMembers (((key, v) :: done).reverse ++
            (cutMembers (limit - (frames.length + 1)) members).map
              fun (key, value) => (some key, value))))
  | [], _, done, key, v => by simp [memberTokens, step, cutMembers]
  | (next, value) :: rest, ⟨hvalue, hrest⟩, done, key, v => by
    have hvalue := foldlM_toTokens (.object ((key, v) :: done) (some next) :: frames) value hvalue
    have hmore := foldlM_memberTokens frames rest hrest ((key, v) :: done) (some next)
      (value.cut (limit - (frames.length + 1)))
    have hcomma : step limit ⟨.object done key :: frames, .complete v⟩ .comma
        = some ⟨frames, .key ((key, v) :: done) false⟩ := by simp [step]
    have hkey : step limit ⟨frames, .key ((key, v) :: done) false⟩ (.string (some next))
        = some ⟨frames, .colon ((key, v) :: done) (some next)⟩ := by simp [step]
    have hcolon : step limit ⟨frames, .colon ((key, v) :: done) (some next)⟩ .colon
        = some ⟨.object ((key, v) :: done) (some next) :: frames, .value⟩ := by simp [step]
    simp only [memberTokens, Bool.false_eq_true, if_false, cons_append, nil_append,
      append_assoc, foldlM_cons, hcomma, hkey, hcolon, bind_eq_bind,
      bind_some, foldlM_append_of hvalue, length_cons, hmore]
    simp [cutMembers]
end

end Reader

/-- A written tree is read back down to `limit` containers inside each other. -/
theorem parse?_pretty {j : Json} (hj : j.Writable) (limit : Nat) :
    parse? limit j.pretty = some (j.cut limit) := by
  have hread := @Reader.foldlM_toTokens limit [] j hj
  simp only [parse?, tokens?_pretty hj, bind_eq_bind, bind_some, ofTokens?]
  rw [Reader.initial, hread]
  rfl

/-- The limit is exact: a tree comes back whole if and only if it nests no deeper. -/
theorem parse?_pretty_eq_some_iff {j : Json} (hj : j.Writable) (limit : Nat) :
    parse? limit j.pretty = some j ↔ j.depth ≤ limit := by
  rw [parse?_pretty hj, Option.some_inj, cut_eq_self_iff limit j hj]

end StackBackend.Json
