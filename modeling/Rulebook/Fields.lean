namespace Rulebook

/-- A map from names to values, in the order of the names' bytes, which for valid text is the order
of its code points. -/
abbrev Fields (α : Type) := List (String × α)

namespace Fields

variable {α : Type}

def get? (fs : Fields α) (name : String) : Option α := List.lookup name fs

def has (fs : Fields α) (name : String) : Bool := (get? fs name).isSome

def insert (name : String) (value : α) : Fields α → Fields α
  | [] => [(name, value)]
  | (n, v) :: fs =>
    if name < n then (name, value) :: (n, v) :: fs
    else if name = n then (name, value) :: fs
    else (n, v) :: insert name value fs

def set (name : String) (value : α) : Fields α → Fields α
  | [] => []
  | (n, v) :: fs => if name = n then (n, value) :: fs else (n, v) :: set name value fs

def put (name : String) (value : α) (fs : Fields α) : Fields α :=
  if has fs name then set name value fs else insert name value fs

def erase (fs : Fields α) (name : String) : Fields α := fs.filter fun f => f.1 != name

def names (fs : Fields α) : List String := fs.map Prod.fst

theorem names_set (name : String) (value : α) (fs : Fields α) :
    names (set name value fs) = names fs := by
  induction fs with
  | nil => rfl
  | cons f fs ih =>
    obtain ⟨n, v⟩ := f
    by_cases h : name = n
    · rw [set, if_pos h]
      rfl
    · rw [set, if_neg h]
      exact congrArg (n :: ·) ih

/-- What is looked up under some names, inserted under these names. -/
def readInto (fs : Fields α) (look : String → Option α) (names : List String) : Fields α :=
  names.foldl (fun fs name => match look name with
    | some v => insert name v fs
    | none => fs) fs

def ofList (fs : List (String × α)) : Fields α := fs.foldl (fun m f => insert f.1 f.2 m) []

def Sorted (fs : Fields α) : Prop := List.Pairwise (fun a b => a.1 < b.1) fs

end Fields

def sortedNames (names : List String) : List String :=
  Fields.names (Fields.ofList (names.map fun n => (n, ())))

end Rulebook
