import Elle.Gun.Value

/-!
# The merge of a gun graph

`lib/gun/field.lisp`, `state.lisp`, `ham.lisp` and `graph.lisp`: the verdict on one incoming field, and
the merge of a write of several fields into a node, which changes the graph in place.
-/

namespace Elle.Gun

variable {F : Type} [FiniteFloat F]

/-! ## Fields and states -/

/-- A field: `[state value]`, or `[state value signature]` in a user space. -/
structure Field (F : Type) where
  state : Int
  value : Value F
  signature : Option (List UInt8)
deriving DecidableEq

/-- `state:before?`. No state is before every state. -/
def stateBefore : Option Int → Option Int → Bool
  | _, none => false
  | none, some _ => true
  | some a, some b => a < b

def valueBefore (a b : Value F) : Bool := encode a < encode b

/-! ## The verdict -/

inductive Verdict where
  | future
  | stale
  | accept
  | same
deriving DecidableEq, Repr

/-- The verdict on a write over the current field, whose state is missing when the field is. -/
def verdict (now inState : Int) (inValue : Value F) (curState : Option Int) (curValue : Value F) :
    Verdict :=
  if stateBefore now inState then .future
  else if stateBefore inState curState then .stale
  else if stateBefore curState inState then .accept
  else if valueBefore curValue inValue then .accept
  else .same

/-! ## Nodes and graphs -/

/-- The fields of a write: a struct of keys, each once. -/
structure Fields (F : Type) where
  entries : List (Text × Field F)
  nodup : (entries.map Prod.fst).Nodup

def Fields.get (fields : Fields F) (key : Text) : Option (Field F) := fields.entries.lookup key

abbrev Node (F : Type) := Text → Option (Field F)

abbrev Graph (F : Type) := Text → Option (Node F)

def put {α : Type} (m : Text → Option α) (key : Text) (x : α) : Text → Option α :=
  fun key' => if key' = key then some x else m key'

def fieldAt (g : Graph F) (soul key : Text) : Option (Field F) := (g soul).bind fun n => n key

/-- What `merge-node` raises. -/
structure FutureState where
  soul : Text
  key : Text
  state : Int
  now : Int
  message : String := "a write carries a state after now"
deriving DecidableEq, Repr

/-- The verdict on a field against the node as it is. -/
def judge (current : Node F) (now : Int) (key : Text) (f : Field F) : Verdict :=
  let cur := current key
  verdict now f.state f.value (cur.map Field.state) ((cur.map Field.value).getD .nil)

/-- The loop over the fields: those accepted, unless one is of the future. -/
def accepted (current : Node F) (soul : Text) (now : Int) :
    List (Text × Field F) → Except FutureState (List (Text × Field F))
  | [] => .ok []
  | (key, f) :: rest =>
    match judge current now key f with
    | .future => .error { soul, key, state := f.state, now }
    | .accept => (accepted current soul now rest).map ((key, f) :: ·)
    | _ => accepted current soul now rest

/-- The fields accepted, and the graph after. -/
def mergeNode (g : Graph F) (soul : Text) (fields : Fields F) (now : Int) :
    Except FutureState (List (Text × Field F)) × Graph F :=
  let current := (g soul).getD fun _ => none
  match accepted current soul now fields.entries with
  | .error e => (.error e, g)
  | .ok diff =>
    if diff.isEmpty then (.ok diff, g)
    else
      let n := (g soul).getD fun _ => none
      (.ok diff, put g soul (diff.foldl (fun n (key, f) => put n key f) n))

/-- Split into the fields due and those of the future. -/
def due (fields : Fields F) (now : Int) : List (Text × Field F) × List (Text × Field F) :=
  fields.entries.partition fun (_, f) => !stateBefore now f.state

end Elle.Gun
