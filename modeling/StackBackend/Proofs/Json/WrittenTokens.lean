import StackBackend.Json.Writer
import StackBackend.Json.Token

/-! What the scanner makes of written JSON. The writer appends to a text, and the
scanner is a fold over it, so each writing function moves the scanner from one
state to another. A number or a name ends only at the character behind it; a
text that ends in one is settled: it scans like a text that ends between tokens. -/

namespace StackBackend.Json

open List

variable {text : String} {s s' : Scanner} {c : Char} {read : List Token}

mutual
def toTokens : Json → List Token
  | .null | .unreadable => [.null]
  | .bool b => [.bool b]
  | .number literal => [.number literal]
  | .string s => [.string (some s)]
  | .array items => .openArray :: (itemTokens true items ++ [.closeArray])
  | .object members => .openObject :: (memberTokens true members ++ [.closeObject])
def itemTokens (first : Bool) : List Json → List Token
  | [] => []
  | item :: rest =>
    (if first then [] else [.comma]) ++ (toTokens item ++ itemTokens false rest)
def memberTokens (first : Bool) : List (String × Json) → List Token
  | [] => []
  | (key, value) :: rest =>
    (if first then [] else [.comma]) ++
      (.string (some key) :: .colon :: (toTokens value ++ memberTokens false rest))
end

/-- The characters make one word, and the word is a number. -/
def IsNumeral (literal : String) : Prop :=
  literal.toList.all isWordChar = true ∧
    Token.ofWord? literal.toList = some (.number literal)

mutual
/-- Every value has a text, and the numbers are written as numbers. -/
def Writable : Json → Prop
  | .null | .bool _ | .string _ => True
  | .number literal => IsNumeral literal
  | .array items => WritableItems items
  | .object members => WritableMembers members
  | .unreadable => False
def WritableItems : List Json → Prop
  | [] => True
  | item :: rest => item.Writable ∧ WritableItems rest
def WritableMembers : List (String × Json) → Prop
  | [] => True
  | (_, value) :: rest => value.Writable ∧ WritableMembers rest
end

/-! ### Scanning a text that grows -/

/-- The state of the scanner behind `text`. -/
def Scanned (text : String) (s : Scanner) : Prop :=
  text.toList.foldlM Scanner.step Scanner.initial = some s

theorem Scanned.append (h : Scanned text s) (more : String)
    (hmore : more.toList.foldlM Scanner.step s = some s') : Scanned (text ++ more) s' := by
  simp only [Scanned, String.toList_append, List.foldlM_append] at h ⊢
  simp [h, hmore]

theorem Scanned.push (h : Scanned text s)
    (hstep : s.step c = some s') : Scanned (text.push c) s' := by
  simp only [Scanned, String.toList_push, List.foldlM_append] at h ⊢
  simp [h, hstep]

/-- Whatever follows, unless it continues a word, finds the tokens `read`, the last
one first. -/
def Scanner.SettledAt (s : Scanner) (read : List Token) : Prop :=
  (∀ c, isWordChar c = false → s.step c = Scanner.between read c) ∧ s.finish = some read.reverse

def Settled (text : String) (read : List Token) : Prop :=
  ∃ s, Scanned text s ∧ s.SettledAt read

theorem Scanned.settled (h : Scanned text ⟨.between, read⟩) : Settled text read :=
  ⟨_, h, fun _ _ => rfl, rfl⟩

theorem Settled.push (h : Settled text read) (hc : isWordChar c = false)
    (hstep : Scanner.between read c = some s) : Scanned (text.push c) s := by
  obtain ⟨s0, hscan, hnext, -⟩ := h
  exact hscan.push ((hnext c hc).trans hstep)

theorem Scanned.blanks (h : Scanned text ⟨.between, read⟩) (level : Nat) :
    Scanned ((List.replicate level "  ").foldl (· ++ ·) text) ⟨.between, read⟩ := by
  induction level generalizing text with
  | zero => exact h
  | succ level ih =>
    rw [replicate_succ, foldl_cons]
    exact ih (h.append "  " rfl)

theorem Settled.newLine (h : Settled text read)
    (level : Nat) : Scanned (Json.newLine text level) ⟨.between, read⟩ :=
  (h.push (by decide) rfl).blanks level

/-! ### Words -/

theorem Scanner.foldlM_step_word {word : List Char} (hword : word.all isWordChar = true)
    (read : List Char) (tokens : List Token) :
    word.foldlM Scanner.step ⟨.word read, tokens⟩
      = some ⟨.word (word.reverse ++ read), tokens⟩ := by
  induction word generalizing read with
  | nil => rfl
  | cons c rest ih =>
    rw [all_cons, Bool.and_eq_true] at hword
    rw [List.foldlM_cons, Scanner.step]
    simp only [hword.1, if_true, Option.bind_eq_bind, Option.bind_some]
    rw [ih hword.2]
    simp

theorem isWordChar_not_blank (h : isWordChar c = true) : isBlank c = false ∧ c ≠ '"' := by
  constructor
  · rw [Bool.eq_false_iff]
    intro hb
    simp only [isBlank, Bool.or_eq_true, decide_eq_true_eq] at hb
    rcases hb with ((rfl | rfl) | rfl) | rfl <;> exact absurd h (by decide)
  · rintro rfl
    exact absurd h (by decide)

theorem Scanned.word (h : Scanned text ⟨.between, read⟩)
    {word : String} {token : Token} (hword : word.toList.all isWordChar = true)
    (htoken : Token.ofWord? word.toList = some token) : Settled (text ++ word) (token :: read) := by
  cases hchars : word.toList with
  | nil =>
    rw [hchars] at htoken
    exact absurd htoken (by simp [show Token.ofWord? [] = none from rfl])
  | cons c rest =>
    rw [hchars] at hword htoken
    rw [all_cons, Bool.and_eq_true] at hword
    obtain ⟨hc, hrest⟩ := hword
    obtain ⟨hblank, hquote⟩ := isWordChar_not_blank hc
    refine ⟨⟨.word (rest.reverse ++ [c]), read⟩, h.append word ?_, ?_, ?_⟩
    · rw [hchars, List.foldlM_cons]
      simp only [Scanner.step, Scanner.between, hblank, hquote, hc, Bool.false_eq_true, if_false,
        if_true, Option.bind_eq_bind, Option.bind_some]
      exact Scanner.foldlM_step_word hrest [c] read
    · intro d hd
      simp [Scanner.step, hd, htoken]
    · simp [Scanner.finish, htoken]

/-! ### Texts in quotes -/

/-- The characters read so far, with no half of a pair among them. -/
def PartialText.ofChars (chars : List Char) : PartialText := ⟨some chars, none⟩

theorem PartialText.push_char (chars : List Char) (c : Char) :
    (PartialText.ofChars chars).push c.toNat = .ofChars (c :: chars) := by
  have hhalf : ¬ (0xD800 ≤ c.toNat ∧ c.toNat < 0xE000) := by
    have := c.valid
    simp only [UInt32.isValidChar, Nat.isValidChar, Char.toNat] at this ⊢
    omega
  have hhigh : isHighHalf c.toNat = false := by simp [isHighHalf]; omega
  have hlow : isLowHalf c.toNat = false := by simp [isLowHalf]; omega
  simp [PartialText.ofChars, PartialText.push, hhigh, hlow]

theorem hexValue?_hexDigit : ∀ n < 16, hexValue? (hexDigit n) = some n := by decide

theorem Scanner.foldlM_step_escaped (c : Char) (chars : List Char) (tokens : List Token) :
    (escaped c).toList.foldlM Scanner.step ⟨.text (.ofChars chars), tokens⟩
      = some ⟨.text (.ofChars (c :: chars)), tokens⟩ := by
  have hpush := PartialText.push_char chars
  unfold escaped
  split
  case h_8 hquote hslash _ _ _ _ _ =>
    split
    · rename_i hcontrol
      have h1 := hexValue?_hexDigit (c.toNat / 16) (by omega)
      have h2 := hexValue?_hexDigit (c.toNat % 16) (by omega)
      have hzero : hexValue? '0' = some 0 := by decide
      have hcode : c.toNat / 16 * 16 + c.toNat % 16 = c.toNat := by omega
      simp [Scanner.step, h1, h2, hzero, hcode, hpush]
    · rename_i hcontrol
      simp [Scanner.step, hpush, if_neg hquote, if_neg hslash, hcontrol]
  all_goals
    rw [← hpush]
    rfl

theorem Scanned.quoted (h : Scanned text ⟨.between, read⟩)
    (s : String) : Scanned (writeString text s) ⟨.between, .string (some s) :: read⟩ := by
  have hopen : Scanned (text.push '"') ⟨.text (.ofChars []), read⟩ := h.push rfl
  have hchars : ∀ (cs chars : List Char) (out : String),
      Scanned out ⟨.text (.ofChars chars), read⟩ →
      Scanned (cs.foldl (fun out c => out ++ escaped c) out)
        ⟨.text (.ofChars (cs.reverse ++ chars)), read⟩ := by
    intro cs
    induction cs with
    | nil => exact fun chars out hout => hout
    | cons c cs ih =>
      intro chars out hout
      have := ih (c :: chars) _ (hout.append _ (Scanner.foldlM_step_escaped c chars read))
      simpa using this
  have hbody := hchars s.toList [] _ hopen
  rw [writeString, String.foldl_eq_foldl_toList]
  refine hbody.push ?_
  simp [Scanner.step, PartialText.text?, PartialText.ofChars]

/-! ### Trees -/

theorem Settled.separated (h : Settled text read) (first : Bool) :
    Settled (if first then text else text.push ',')
      ((if first then [] else [.comma]).reverse ++ read) := by
  cases first with
  | true => exact h
  | false => exact (h.push (by decide) rfl).settled

mutual
theorem Scanned.writePretty {text : String} {read : List Token} (level : Nat) :
    (j : Json) → j.Writable → Scanned text ⟨.between, read⟩ →
      Settled (writePretty text level j) (j.toTokens.reverse ++ read)
  | .null, _, h => h.word rfl rfl
  | .bool true, _, h => h.word rfl rfl
  | .bool false, _, h => h.word rfl rfl
  | .number literal, hj, h => h.word hj.1 hj.2
  | .string s, _, h => (h.quoted s).settled
  | .array [], _, h => (h.append "[]" rfl).settled
  | .array (item :: rest), hj, h => by
    have hopen : Scanned (text.push '[') ⟨.between, .openArray :: read⟩ := h.push rfl
    have hitems := Settled.prettyItems (level + 1) true (item :: rest) hj hopen.settled
    have hclose : Scanned ((newLine _ level).push ']') ⟨.between, .closeArray :: _⟩ :=
      (hitems.newLine level).push rfl
    simpa [Json.writePretty, toTokens] using hclose.settled
  | .object [], _, h => (h.append "\x7b\x7d" rfl).settled
  | .object (member :: rest), hj, h => by
    have hopen : Scanned (text.push '\x7b') ⟨.between, .openObject :: read⟩ := h.push rfl
    have hmembers := Settled.prettyMembers (level + 1) true (member :: rest) hj hopen.settled
    have hclose : Scanned ((newLine _ level).push '\x7d') ⟨.between, .closeObject :: _⟩ :=
      (hmembers.newLine level).push rfl
    simpa [Json.writePretty, toTokens] using hclose.settled
theorem Settled.prettyItems {text : String} {read : List Token} (level : Nat) (first : Bool) :
    (items : List Json) → WritableItems items → Settled text read →
      Settled (prettyItems text level first items) ((itemTokens first items).reverse ++ read)
  | [], _, h => h
  | item :: rest, ⟨hitem, hrest⟩, h => by
    have hstart := h.separated first
    have hvalue := Scanned.writePretty level item hitem (hstart.newLine level)
    simpa [Json.prettyItems, itemTokens] using Settled.prettyItems level false rest hrest hvalue
theorem Settled.prettyMembers {text : String} {read : List Token} (level : Nat) (first : Bool) :
    (members : List (String × Json)) → WritableMembers members → Settled text read →
      Settled (prettyMembers text level first members)
        ((memberTokens first members).reverse ++ read)
  | [], _, h => h
  | (key, value) :: rest, ⟨hvalue, hrest⟩, h => by
    have hstart := h.separated first
    have hkey := ((hstart.newLine level).quoted key).append ": " rfl
    have hmember := Scanned.writePretty level value hvalue hkey
    simpa [Json.prettyMembers, memberTokens] using
      Settled.prettyMembers level false rest hrest hmember
end

/-- A written tree is scanned as its tokens. -/
theorem tokens?_pretty {j : Json} (hj : j.Writable) : tokens? j.pretty = some j.toTokens := by
  have hstart : Scanned "" ⟨.between, []⟩ := rfl
  obtain ⟨s, hscan, -, hfinish⟩ := hstart.writePretty 0 j hj
  rw [Scanned] at hscan
  simp [tokens?, pretty, hscan, hfinish]

end StackBackend.Json
