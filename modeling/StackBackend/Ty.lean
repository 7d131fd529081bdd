import StackBackend.Ref

/-! Types of the program being lowered, and the storage each one needs. -/

namespace StackBackend

inductive Ty where
  | unit
  | boolean
  | i8
  | i16
  | i32
  | i64
  | f32
  | f64
  /-- The bottom type: an expression of this type never completes normally. -/
  | nothing
  /-- The type of the `null` literal. -/
  | null
  | object (cls : ClassId) (args : List Ty) (nullable : Bool)
  | variable (param : TypeParamId)
deriving Repr

/-- An instantiated class, as a class names its superclass. -/
structure ClassTy where
  cls : ClassId
  args : List Ty
  nullable : Bool
deriving Repr

/-- How a field or a method result is stored. -/
inductive Storage where
  | bits8
  | bits16
  | bits32
  | bits64
  | pointer
  /-- A pointer whose static type is a type parameter. -/
  | erasedPointer
deriving DecidableEq, Repr

def Storage.isPointer : Storage → Bool
  | .pointer | .erasedPointer => true
  | _ => false

def Storage.text : Storage → String
  | .bits8 => "Bits8"
  | .bits16 => "Bits16"
  | .bits32 => "Bits32"
  | .bits64 => "Bits64"
  | .pointer => "Pointer"
  | .erasedPointer => "ErasedPointer"

def ClassTy.toTy (c : ClassTy) : Ty := .object c.cls c.args c.nullable

namespace Ty

/-- The class applied to no arguments. -/
def ofClass (c : ClassId) : Ty := .object c [] false

def generic (c : ClassId) (args : List Ty) : Ty := .object c args false

/-- Only class types have a nullable form; every other type is its own. -/
def toNullable : Ty → Ty
  | .object c args _ => .object c args true
  | ty => ty

def isObject : Ty → Bool
  | .object .. | .null | .variable _ => true
  | _ => false

def isNothing : Ty → Bool
  | .nothing => true
  | _ => false

def isNullable : Ty → Bool
  | .null | .variable _ => true
  | .object _ _ nullable => nullable
  | _ => false

def isInteger : Ty → Bool
  | .i8 | .i16 | .i32 | .i64 => true
  | _ => false

def isFloat : Ty → Bool
  | .f32 | .f64 => true
  | _ => false

def classTy? : Ty → Option ClassTy
  | .object c args nullable => some ⟨c, args, nullable⟩
  | _ => none

def class? (ty : Ty) : Option ClassId := ty.classTy?.map ClassTy.cls

/-- No value of the bottom type is ever stored. -/
def storage : Ty → Option Storage
  | .unit | .boolean | .i8 => some .bits8
  | .i16 => some .bits16
  | .i32 | .f32 => some .bits32
  | .i64 | .f64 => some .bits64
  | .object .. | .null => some .pointer
  | .variable _ => some .erasedPointer
  | .nothing => none

/-- The argument standing at the position of `param`, when there is one. -/
def argumentFor (params : List TypeParamId) (args : List Ty) (param : TypeParamId) : Option Ty :=
  (params.idxOf? param).bind (args[·]?)

mutual
/-- Replaces each of `params` by the argument at the same position. A parameter
without an argument stays. -/
def substitute (params : List TypeParamId) (args : List Ty) : Ty → Ty
  | .variable v => (argumentFor params args v).getD (.variable v)
  | .object c targs nullable => .object c (substituteAll params args targs) nullable
  | .unit => .unit
  | .boolean => .boolean
  | .i8 => .i8
  | .i16 => .i16
  | .i32 => .i32
  | .i64 => .i64
  | .f32 => .f32
  | .f64 => .f64
  | .nothing => .nothing
  | .null => .null
def substituteAll (params : List TypeParamId) (args : List Ty) : List Ty → List Ty
  | [] => []
  | ty :: rest => substitute params args ty :: substituteAll params args rest
end

theorem substituteAll_eq_map (params : List TypeParamId) (args tys : List Ty) :
    substituteAll params args tys = tys.map (substitute params args) := by
  induction tys with
  | nil => rfl
  | cons ty rest ih => simp [substituteAll, ih]

mutual
/-- The type as diagnostics write it, classes and parameters by position. -/
def text : Ty → String
  | .unit => "unit"
  | .boolean => "boolean"
  | .i8 => "i8"
  | .i16 => "i16"
  | .i32 => "i32"
  | .i64 => "i64"
  | .f32 => "f32"
  | .f64 => "f64"
  | .nothing => "nothing"
  | .null => "null"
  | .variable v => v.text
  | .object c args nullable =>
    c.text ++ (if args.isEmpty then "" else "[" ++ ", ".intercalate (texts args) ++ "]") ++
      (if nullable then "?" else "")
def texts : List Ty → List String
  | [] => []
  | ty :: rest => text ty :: texts rest
end

mutual
def beq : Ty → Ty → Bool
  | .unit, .unit | .boolean, .boolean | .i8, .i8 | .i16, .i16 | .i32, .i32 | .i64, .i64
  | .f32, .f32 | .f64, .f64 | .nothing, .nothing | .null, .null => true
  | .object c args n, .object c' args' n' => c == c' && beqAll args args' && n == n'
  | .variable v, .variable w => v == w
  | _, _ => false
def beqAll : List Ty → List Ty → Bool
  | [], [] => true
  | a :: as, b :: bs => beq a b && beqAll as bs
  | _, _ => false
end

mutual
theorem eq_of_beq : ∀ {a b : Ty}, beq a b = true → a = b
  | .object c args n, b, h => by
    cases b <;> simp only [beq, Bool.false_eq_true, Bool.and_eq_true, beq_iff_eq] at h
    rw [h.1.1, eq_of_beqAll h.1.2, h.2]
  | .variable v, b, h => by
    cases b <;> simp only [beq, Bool.false_eq_true, beq_iff_eq] at h
    rw [h]
  | .unit, b, h | .boolean, b, h | .i8, b, h | .i16, b, h | .i32, b, h | .i64, b, h
  | .f32, b, h | .f64, b, h | .nothing, b, h | .null, b, h => by
    cases b <;> first | rfl | simp [beq] at h
theorem eq_of_beqAll : ∀ {as bs : List Ty}, beqAll as bs = true → as = bs
  | [], bs, h => by cases bs <;> first | rfl | simp [beqAll] at h
  | a :: as, bs, h => by
    cases bs <;> simp only [beqAll, Bool.false_eq_true, Bool.and_eq_true] at h
    rw [eq_of_beq h.1, eq_of_beqAll h.2]
end

mutual
theorem beq_refl : ∀ a : Ty, beq a a = true
  | .object c args n => by simp [beq, beqAll_refl args]
  | .variable v => by simp [beq]
  | .unit | .boolean | .i8 | .i16 | .i32 | .i64 | .f32 | .f64 | .nothing | .null => rfl
theorem beqAll_refl : ∀ as : List Ty, beqAll as as = true
  | [] => rfl
  | a :: as => by simp [beqAll, beq_refl a, beqAll_refl as]
end

theorem beq_iff (a b : Ty) : beq a b = true ↔ a = b :=
  ⟨eq_of_beq, fun h => h ▸ beq_refl a⟩

instance : DecidableEq Ty := fun a b => decidable_of_iff _ (beq_iff a b)

end Ty

deriving instance DecidableEq for ClassTy

end StackBackend
