/-!
# Ascending lists

Finite sets are kept as ascending lists without repetition, finite maps as lists of pairs whose keys
ascend. `insert` and `put` keep that form, so that equal sets and maps are equal lists. A map entry
that is put again replaces the earlier one.
-/

namespace AccessPolicy.Ascending

variable {κ α β : Type}

/-! ### Sets -/

/-- Insert an element; one that compares equal stays. -/
def insert [Ord α] (x : α) : List α → List α
  | [] => [x]
  | y :: ys =>
    match compare x y with
    | .lt => x :: y :: ys
    | .eq => y :: ys
    | .gt => y :: insert x ys

/-- The ascending list of the elements of a list. -/
def ofList [Ord α] (xs : List α) : List α :=
  xs.foldl (fun s x => insert x s) []

/-! ### Maps -/

/-- Bind a key. -/
def put [Ord κ] (k : κ) (v : α) : List (κ × α) → List (κ × α)
  | [] => [(k, v)]
  | (l, w) :: ms =>
    match compare k l with
    | .lt => (k, v) :: (l, w) :: ms
    | .eq => (k, v) :: ms
    | .gt => (l, w) :: put k v ms

/-- The map of a list of pairs, of which later ones win. -/
def ofPairs [Ord κ] (ms : List (κ × α)) : List (κ × α) :=
  ms.foldl (fun s m => put m.1 m.2 s) []

/-- The value of a key. -/
def get? [DecidableEq κ] (k : κ) : List (κ × α) → Option α
  | [] => none
  | (l, v) :: ms => if k = l then some v else get? k ms

/-- Whether a key is bound. -/
def hasKey [DecidableEq κ] (k : κ) (ms : List (κ × α)) : Bool :=
  (get? k ms).isSome

/-- The keys. -/
def keys (ms : List (κ × α)) : List κ :=
  ms.map (·.1)

end AccessPolicy.Ascending
