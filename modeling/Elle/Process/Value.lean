import Mathlib

/-!
# Values the process scheduler looks into (lib/process)

A message, an exit reason and a registered name are Elle values. The scheduler looks into arrays
and compares keywords, integers and `nil`; every other kind of value only passes through it and is
an `other`, told apart by a number.
-/

namespace Elle.Process

abbrev Pid := Nat

/-- A ref: what `make-ref-gen` counts out. Monitors, aliases and timers are named by one. -/
abbrev Ref := Nat

inductive Val where
  | nil
  | bool (b : Bool)
  | int (n : Int)
  | keyword (name : String)
  | array (items : List Val)
  | other (id : Nat)
  deriving Repr

namespace Val

mutual

def decEq : (a b : Val) → Decidable (a = b)
  | nil, nil => isTrue rfl
  | bool x, bool y => decidable_of_decidable_of_iff (p := x = y) (by simp)
  | int x, int y => decidable_of_decidable_of_iff (p := x = y) (by simp)
  | keyword x, keyword y => decidable_of_decidable_of_iff (p := x = y) (by simp)
  | other x, other y => decidable_of_decidable_of_iff (p := x = y) (by simp)
  | array xs, array ys =>
    have := decEqList xs ys
    decidable_of_decidable_of_iff (p := xs = ys) (by simp)
  | nil, bool _ | nil, int _ | nil, keyword _ | nil, array _ | nil, other _
  | bool _, nil | bool _, int _ | bool _, keyword _ | bool _, array _ | bool _, other _
  | int _, nil | int _, bool _ | int _, keyword _ | int _, array _ | int _, other _
  | keyword _, nil | keyword _, bool _ | keyword _, int _ | keyword _, array _ | keyword _, other _
  | array _, nil | array _, bool _ | array _, int _ | array _, keyword _ | array _, other _
  | other _, nil | other _, bool _ | other _, int _ | other _, keyword _ | other _, array _ =>
    isFalse nofun

def decEqList : (xs ys : List Val) → Decidable (xs = ys)
  | [], [] => isTrue rfl
  | [], _ :: _ | _ :: _, [] => isFalse nofun
  | x :: xs, y :: ys =>
    have := decEq x y
    have := decEqList xs ys
    decidable_of_decidable_of_iff (p := x = y ∧ xs = ys) (by simp)

end

instance : DecidableEq Val := decEq

/-- Everything but `nil` and `false` is true. -/
def truthy : Val → Bool
  | nil => false
  | bool b => b
  | _ => true

/-- A pid or a ref as the value a message carries. -/
abbrev num (n : Nat) : Val := int n

/-- `(get m i)` of an array: `nil` past its end. -/
def item (items : List Val) (i : Nat) : Val := items.getD i nil

end Val

def okVal : Val := .keyword "ok"

/-- What a `recv-timeout` is answered when its ticks have passed. -/
def timeoutVal : Val := .keyword "timeout"

def exitMsg (pid : Pid) (reason : Val) : Val := .array [.keyword "EXIT", .num pid, reason]

def downMsg (ref : Ref) (pid : Pid) (reason : Val) : Val :=
  .array [.keyword "DOWN", .num ref, .num pid, reason]

def replyMsg (ref : Ref) (value : Val) : Val := .array [.keyword "$reply", .num ref, value]

/-- Whether a message is `[tag ref ...]`, as `flush-tagged` asks. -/
def tagged (tag : String) (ref : Ref) : Val → Bool
  | .array items => Val.item items 0 == .keyword tag && Val.item items 1 == .num ref
  | _ => false

/-- Whether an exit reason is normal: `:normal`, or `[:normal value]` from a return. -/
def normal : Val → Bool
  | .keyword name => name == "normal"
  | .array (head :: _) => head == .keyword "normal"
  | _ => false

/-- Whether an exit reason ends a process against its will: a raise, a link or a kill. `first`
raises on an empty array, so there is no answer for that reason. -/
def imposed : Val → Option Bool
  | .array [] => none
  | .array (head :: _) =>
    some (head == .keyword "error" || head == .keyword "linked" || head == .keyword "killed")
  | _ => some false

def linkedReason (pid : Pid) (reason : Val) : Val := .array [.keyword "linked", .num pid, reason]

def killedReason (reason : Val) : Val := .array [.keyword "killed", reason]

@[simp] theorem exitMsg_inj {pid pid' : Pid} {reason reason' : Val} :
    exitMsg pid reason = exitMsg pid' reason' ↔ pid = pid' ∧ reason = reason' := by
  simp [exitMsg, Int.natCast_inj]

@[simp] theorem downMsg_inj {ref ref' : Ref} {pid pid' : Pid} {reason reason' : Val} :
    downMsg ref pid reason = downMsg ref' pid' reason' ↔ ref = ref' ∧ pid = pid' ∧ reason = reason' := by
  simp [downMsg, Int.natCast_inj]

@[simp] theorem imposed_linkedReason (pid : Pid) (reason : Val) :
    imposed (linkedReason pid reason) = some true := rfl

@[simp] theorem normal_linkedReason (pid : Pid) (reason : Val) :
    normal (linkedReason pid reason) = false := rfl

theorem imposed_eq_none {reason : Val} : imposed reason = none ↔ reason = .array [] := by
  unfold imposed
  split <;> simp_all

end Elle.Process
