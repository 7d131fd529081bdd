import Mathlib.Data.List.TakeDrop
import StackBackend.Stored.Codec
import StackBackend.Proofs.Json.WrittenTokens

/-! What it takes for a value to survive being stored: its stored form is a tree that
can be written, and the value is read back from it. Lists, optional fields and
records of values that survive do so too, and numbers survive with their decimal
digits. -/

namespace StackBackend

open List

variable {members : List (String × Json)} {items : List Json}

namespace Json

/-- The stored form can be written, is not taken for a missing value, and is read
back as the value. -/
structure Survives {α : Type} (encode : α → Json) (decode : Json → Option α) (a : α) : Prop where
  writable : (encode a).Writable
  not_null : encode a ≠ .null
  read : decode (encode a) = some a

section

variable {α : Type} {encode : α → Json} {decode : Json → Option α} {a : α} {name : String}

theorem Survives.of_plain (hform : encode a = .string name)
    (hread : decode (.string name) = some a) : Survives encode decode a where
  writable := by rw [hform]; trivial
  not_null := by simp [hform]
  read := by rw [hform, hread]

theorem Survives.of_tagged {payload : Json} (hform : encode a = .tagged name payload)
    (hpayload : payload.Writable) (hread : decode (.tagged name payload) = some a) :
    Survives encode decode a where
  writable := by rw [hform]; exact ⟨hpayload, trivial⟩
  not_null := by simp [hform, tagged]
  read := by rw [hform, hread]

theorem Survives.of_payload {β : Type} {encodeData : β → Json} {decodeData : Json → Option β}
    {b : β} {make : β → α} (hb : Survives encodeData decodeData b)
    (hform : encode a = .tagged name (encodeData b))
    (hread : ∀ v, decode (.tagged name v) = (decodeData v).map make) (hmake : make b = a) :
    Survives encode decode a :=
  .of_tagged hform hb.writable (by rw [hread, hb.read, Option.map_some, hmake])

theorem Survives.of_object (hform : encode a = .object members)
    (hmembers : WritableMembers members) (hread : decode (.object members) = some a) :
    Survives encode decode a where
  writable := by rw [hform]; exact hmembers
  not_null := by simp [hform]
  read := by rw [hform, hread]

end

/-! ### Lists, options and records -/

theorem writableItems_iff : WritableItems items ↔ ∀ item ∈ items, item.Writable := by
  induction items with
  | nil => simp [WritableItems]
  | cons item rest ih => simp [WritableItems, ih]

theorem writableMembers_iff : WritableMembers members ↔ ∀ m ∈ members, m.2.Writable := by
  induction members with
  | nil => simp [WritableMembers]
  | cons member rest ih => simp [WritableMembers, ih]

theorem mapM_map_eq_some {α β : Type} {encode : α → β} {decode : β → Option α} {items : List α}
    (h : ∀ a ∈ items, decode (encode a) = some a) :
    (items.map encode).mapM decode = some items := by
  induction items with
  | nil => rfl
  | cons a rest ih =>
    have ha := h a (by simp)
    have hrest := ih fun b hb => h b (by simp [hb])
    simp [ha, hrest]

section

variable {α : Type} {encode : α → Json} {decode : Json → Option α}

theorem Survives.list {items : List α} (h : ∀ a ∈ items, Survives encode decode a) :
    Survives (.ofList encode) (list? decode) items where
  writable := writableItems_iff.mpr fun item hitem => by
    obtain ⟨a, ha, rfl⟩ := mem_map.mp hitem
    exact (h a ha).writable
  not_null := by simp [ofList]
  read := mapM_map_eq_some fun a ha => (h a ha).read

theorem Survives.writable_option {value : Option α} (h : ∀ a ∈ value, Survives encode decode a) :
    (ofOption encode value).Writable := by
  cases value with
  | none => trivial
  | some a => exact (h a rfl).writable

theorem Survives.maybe_option {value : Option α} (h : ∀ a ∈ value, Survives encode decode a) :
    maybe decode (some (ofOption encode value)) = some value := by
  cases value with
  | none => rfl
  | some a =>
    have ha := h a rfl
    simp only [ofOption]
    unfold maybe
    split
    · simp_all
    · rename_i heq
      exact absurd (Option.some_inj.mp heq) ha.not_null
    · rename_i heq
      rw [← Option.some_inj.mp heq, ha.read, Option.map_some]

/-! Records are read field by field, the first one first. -/

theorem Survives.need_bind {β : Type} {a : α} (h : Survives encode decode a) (f : α → Option β) :
    (need decode (some (encode a)) >>= f) = f a := by
  simp only [need, Option.bind_some, h.read, Option.bind_eq_bind]

theorem Survives.maybe_bind {β : Type} {value : Option α}
    (h : ∀ a ∈ value, Survives encode decode a) (f : Option α → Option β) :
    (maybe decode (some (ofOption encode value)) >>= f) = f value := by
  simp only [maybe_option h, Option.bind_some, Option.bind_eq_bind]

end

section

variable {α β γ δ ε : Type} {x : Option α} {y : Option β} {z : Option γ} {w : Option δ} {r : Option ε}
  {a : α} {b : β} {c : γ} {d : δ}

theorem read₂ {m : α → β → ε} (hx : x = some a) (hy : y = some b)
    (hr : r = x.bind fun a => y.bind fun b => some (m a b)) : r = some (m a b) := by
  rw [hr, hx, hy]
  rfl

theorem read₃ {m : α → β → γ → ε} (hx : x = some a) (hy : y = some b) (hz : z = some c)
    (hr : r = x.bind fun a => y.bind fun b => z.bind fun c => some (m a b c)) :
    r = some (m a b c) := by
  rw [hr, hx, hy, hz]
  rfl

theorem read₄ {m : α → β → γ → δ → ε} (hx : x = some a) (hy : y = some b) (hz : z = some c)
    (hw : w = some d)
    (hr : r = x.bind fun a => y.bind fun b => z.bind fun c => w.bind fun d => some (m a b c d)) :
    r = some (m a b c d) := by
  rw [hr, hx, hy, hz, hw]
  rfl

end

theorem Survives.pair {α β : Type} {encode : α → Json} {decode : Json → Option α}
    {encode' : β → Json} {decode' : Json → Option β} {p : α × β} (ha : Survives encode decode p.1)
    (hb : Survives encode' decode' p.2) :
    Survives (fun p => .array [encode p.1, encode' p.2]) (pair? decode decode') p where
  writable := ⟨ha.writable, hb.writable, trivial⟩
  not_null := by simp
  read := by simp [pair?, ha.read, hb.read]

theorem member?_of_nodup {name : String} {value : Json}
    (hnodup : (members.map Prod.fst).Nodup) (hmem : (name, value) ∈ members) :
    member? name members = some (some value) := by
  have hfilter : members.filter (·.1 = name) = [(name, value)] := by
    induction members with
    | nil => cases hmem
    | cons m rest ih =>
      rw [map_cons, nodup_cons] at hnodup
      rcases mem_cons.mp hmem with rfl | hrest
      · have hnone : rest.filter (·.1 = name) = [] := by
          rw [filter_eq_nil_iff]
          intro m hm heq
          exact hnodup.1 (mem_map.mpr ⟨m, hm, by simpa using heq⟩)
        simp [hnone]
      · have hne : m.1 ≠ name := by
          rintro rfl
          exact hnodup.1 (mem_map.mpr ⟨_, hrest, rfl⟩)
        rw [filter_cons_of_neg (by simpa using hne)]
        exact ih hnodup.2 hrest
  simp [member?, hfilter]

theorem fields?_object {names : List String}
    (hnames : members.map Prod.fst = names) (hnodup : names.Nodup) :
    (Json.object members).fields? names = some (members.map (some ·.2)) := by
  subst hnames
  have hall : ∀ part : List (String × Json), part ⊆ members →
      (part.map Prod.fst).mapM (member? · members) = some (part.map (some ·.2)) := by
    intro part hpart
    induction part with
    | nil => rfl
    | cons m rest ih =>
      have hm := member?_of_nodup hnodup (hpart (.head _))
      have hrest := ih fun x hx => hpart (.tail _ hx)
      simp [hm, hrest]
  exact hall members (List.Subset.refl _)

/-! ### Decimal numbers -/

theorem head_toDigits_ne_zero (n : Nat) (hn : 0 < n) :
    ∃ c rest, Nat.toDigits 10 n = c :: rest ∧ c ≠ '0' := by
  induction n using Nat.strongRecOn with
  | _ n ih =>
    rw [Nat.toDigits_eq_if (by decide)]
    split
    · rename_i hlt
      have hdigit : ∀ m < 10, 0 < m → Nat.digitChar m ≠ '0' := by decide
      exact ⟨_, _, rfl, hdigit n hlt hn⟩
    · obtain ⟨c, rest, hrest, hc⟩ := ih (n / 10) (by omega) (by omega)
      exact ⟨c, rest ++ [Nat.digitChar (n % 10)], by rw [hrest, cons_append], hc⟩

theorem wholeOk_toDigits (n : Nat) : Numeral.wholeOk (Nat.toDigits 10 n) = true := by
  rcases Nat.eq_zero_or_pos n with rfl | hn
  · decide
  · obtain ⟨c, rest, hdigits, hc⟩ := head_toDigits_ne_zero n hn
    rw [hdigits]
    cases rest <;> simp [Numeral.wholeOk, hc]

theorem isDigit_toDigits (n : Nat) : ∀ c ∈ Nat.toDigits 10 n, c.isDigit = true :=
  fun _ hc => Nat.isDigit_of_mem_toDigits (by decide) (by decide) hc

theorem digitsValue_toDigits (n : Nat) : digitsValue (Nat.toDigits 10 n) = n := by
  have h := Nat.ofDigitChars_toDigits (b := 10) (n := n) (by decide) (by decide)
  rw [Nat.ofDigitChars_eq_foldl] at h
  simpa [digitsValue, digitValue, Nat.mul_comm] using h

theorem digitRun_of_digits {digits : List Char} (h : ∀ c ∈ digits, c.isDigit = true) :
    Numeral.digitRun digits = (digits, []) := by
  have hrun : ∀ read : List Char,
      List.span.loop Char.isDigit digits read = (read.reverse ++ digits, []) := by
    induction digits with
    | nil => intro read; simp [List.span.loop]
    | cons c rest ih =>
      intro read
      simp [List.span.loop, h c (by simp), ih fun d hd => h d (by simp [hd])]
  exact hrun []

theorem ofChars?_toDigits (n : Nat) :
    Numeral.ofChars? (Nat.toDigits 10 n) = some ⟨false, Nat.toDigits 10 n, none, none⟩ := by
  have hsign : ∀ cs, Nat.toDigits 10 n ≠ '-' :: cs := fun cs h =>
    absurd (isDigit_toDigits n '-' (by simp [h])) (by decide)
  unfold Numeral.ofChars?
  split
  rename_i negative cs heq
  split at heq
  · rename_i cs' hcs
    exact absurd hcs (hsign cs')
  · cases heq
    simp [digitRun_of_digits (isDigit_toDigits n), wholeOk_toDigits, Numeral.readFraction,
      Numeral.readExponent]

theorem ofChars?_neg_toDigits (n : Nat) :
    Numeral.ofChars? ('-' :: Nat.toDigits 10 n) = some ⟨true, Nat.toDigits 10 n, none, none⟩ := by
  simp [Numeral.ofChars?, digitRun_of_digits (isDigit_toDigits n), wholeOk_toDigits,
    Numeral.readFraction, Numeral.readExponent]

theorem isNumeral_of_ofText? {literal : String} {n : Numeral}
    (hchars : literal.toList.all isWordChar = true)
    (h : Numeral.ofText? literal = some n) : IsNumeral literal := by
  refine ⟨hchars, ?_⟩
  rw [Numeral.ofText?] at h
  have hname : ∀ word, Numeral.ofChars? word = none → literal.toList ≠ word := by
    rintro word hnone rfl
    simp [hnone] at h
  unfold Token.ofWord?
  split
  · exact absurd ‹_› (hname _ rfl)
  · exact absurd ‹_› (hname _ rfl)
  · exact absurd ‹_› (hname _ rfl)
  · simp [h]

theorem isWordChar_of_isDigit {c : Char} (h : c.isDigit = true) : isWordChar c = true := by
  simp [isWordChar, Char.isAlphanum, h]

theorem toString_int_eq (n : Int) :
    (toString n).toList = (if n < 0 then ['-'] else []) ++ Nat.toDigits 10 n.natAbs := by
  cases n with
  | ofNat m =>
    have htext : toString (Int.ofNat m) = m.repr := rfl
    rw [htext, Nat.toList_repr, if_neg (by simp)]
    rfl
  | negSucc m =>
    have htext : toString (Int.negSucc m) = "-" ++ (m + 1).repr := rfl
    rw [htext, String.toList_append, Nat.toList_repr, if_pos (Int.negSucc_lt_zero m)]
    rfl

theorem ofText?_toString_int (n : Int) : Numeral.ofText? (toString n)
      = some ⟨decide (n < 0), Nat.toDigits 10 n.natAbs, none, none⟩ := by
  rw [Numeral.ofText?, toString_int_eq]
  by_cases h : n < 0
  · simp [h, ofChars?_neg_toDigits]
  · simp [h, ofChars?_toDigits]

theorem int?_numeral_toString (n : Int) :
    (Numeral.mk (decide (n < 0)) (Nat.toDigits 10 n.natAbs) none none).int? = some n := by
  simp only [Numeral.int?, digitsValue_toDigits]
  by_cases h : n < 0
  · rw [if_pos (by simpa using h), if_neg (by omega)]
    congr 1
    omega
  · rw [if_neg (by simpa using h)]
    congr 1
    omega

theorem writable_ofInt (n : Int) : (ofInt n).Writable := by
  refine isNumeral_of_ofText? (all_eq_true.mpr fun c hc => ?_) (ofText?_toString_int n)
  rw [toString_int_eq, mem_append] at hc
  rcases hc with hsign | hdigit
  · by_cases h : n < 0
    · have : c = '-' := by simpa [h] using hsign
      rw [this]
      decide
    · simp [h] at hsign
  · exact isWordChar_of_isDigit (isDigit_toDigits _ c hdigit)

theorem Survives.int {low high n : Int} (hlow : low ≤ n) (hhigh : n < high) :
    Survives ofInt (int? low high) n where
  writable := writable_ofInt n
  not_null := by simp [ofInt]
  read := by
    simp only [int?, numeral?, ofInt, ofText?_toString_int, Option.bind_eq_bind,
      Option.bind_some, int?_numeral_toString, hlow, hhigh, and_self, if_true]

theorem Survives.nat {limit n : Nat} (h : n < limit) : Survives ofNat (nat? limit) n where
  writable := writable_ofInt n
  not_null := by simp [ofNat]
  read := by
    have hform : ofNat n = ofInt n := rfl
    have hint : (ofInt n).int? 0 limit = some (n : Int) :=
      (Survives.int (by omega) (by omega)).read
    rw [nat?, hform, hint]
    rfl

theorem Survives.bool (b : Bool) : Survives Json.bool bool? b := ⟨trivial, by simp, rfl⟩

theorem Survives.string (s : String) : Survives Json.string string? s := ⟨trivial, by simp, rfl⟩

theorem depth_le_depthItems {item : Json} (h : item ∈ items) : item.depth ≤ depthItems items := by
  induction items with
  | nil => cases h
  | cons first rest ih =>
    rw [depthItems]
    rcases mem_cons.mp h with rfl | hrest
    · exact Nat.le_max_left ..
    · exact Nat.le_trans (ih hrest) (Nat.le_max_right ..)

end Json

def IsWord (n : Nat) : Prop := n < twoPow 32

instance (n : Nat) : Decidable (IsWord n) := inferInstanceAs (Decidable (n < twoPow 32))

theorem IsWord.survives {n : Nat} (h : IsWord n) : Json.Survives .ofNat Json.word? n :=
  Json.Survives.nat h

def IsSlot (n : Int) : Prop := -twoPow 31 ≤ n ∧ n < twoPow 31

instance (n : Int) : Decidable (IsSlot n) :=
  inferInstanceAs (Decidable (-twoPow 31 ≤ n ∧ n < twoPow 31))

namespace Ref

def Fits {table : Table} (r : Ref table) : Prop := IsWord r.index

instance {table : Table} (r : Ref table) : Decidable r.Fits :=
  inferInstanceAs (Decidable (IsWord r.index))

variable {table : Table} {r : Ref table}

theorem Fits.survives (h : r.Fits) : Json.Survives toJson ofJson? r where
  writable := (IsWord.survives h).writable
  not_null := (IsWord.survives h).not_null
  read := by rw [ofJson?, toJson, (IsWord.survives h).read, Option.map_some]

theorem survives_list {refs : List (Ref table)} (h : ∀ r ∈ refs, r.Fits) :
    Json.Survives (.ofList toJson) (Json.list? ofJson?) refs :=
  .list fun r hr => (h r hr).survives

theorem survives_option {ref : Option (Ref table)} (h : ∀ r ∈ ref, r.Fits) :
    ∀ r ∈ ref, Json.Survives toJson ofJson? r :=
  fun r hr => (h r hr).survives

end Ref

end StackBackend
