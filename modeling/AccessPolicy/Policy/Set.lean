import AccessPolicy.Policy.Basic

/-!
# Policy sets

A set holds static policies, templates and links of templates, each in the order in which they were
added. Ids are unique across all three. `PolicySet.effective` is what an authorization looks at: the
static policies followed by one policy for each link.

Adding and linking are `PolicySet.Change`s: they check a set and push to it where it stands.
`PolicySet.add` and `PolicySet.link` are for readers that give a set up when a change of it fails.
-/

namespace AccessPolicy

/-- A template given entities for its slots. -/
structure Link where
  /-- The id of the template. -/
  template : String
  /-- The id of the policy that comes of it. -/
  id : String
  /-- The entities, by ascending slot. -/
  values : List (Slot × Uid)
deriving DecidableEq

/-- A policy set. -/
structure PolicySet where
  /-- The static policies. -/
  policies : List Policy
  /-- The templates. -/
  templates : List Policy
  /-- The links. -/
  links : List Link
deriving DecidableEq

namespace PolicySet

/-- The set without policies. -/
def empty : PolicySet :=
  ⟨[], [], []⟩

/-- The static policy of an id. -/
def policy? (s : PolicySet) (id : String) : Option Policy :=
  s.policies.find? (·.id = id)

/-- The template of an id. -/
def template? (s : PolicySet) (id : String) : Option Policy :=
  s.templates.find? (·.id = id)

/-- Whether an id is taken. -/
def contains (s : PolicySet) (id : String) : Bool :=
  (s.policy? id).isSome || (s.template? id).isSome || s.links.any (·.id = id)

/-- Whether nothing was added. -/
def isEmpty (s : PolicySet) : Bool :=
  s.policies.isEmpty && s.templates.isEmpty && s.links.isEmpty

/-- A set with one more policy, which is a template if it mentions slots. -/
def push (s : PolicySet) (p : Policy) : PolicySet :=
  if p.isTemplate then { s with templates := s.templates ++ [p] }
  else { s with policies := s.policies ++ [p] }

/-! ### Changes in place

A set is changed where it stands: a change answers with success or an error, and in both cases there
is a set afterwards. Nothing takes back what a change did before it failed. That a change which
fails leaves the set as it was is up to the order of its steps, and holds because each of them
checks everything before it pushes anything. -/

/-- A change of a set in place, which may fail. The set outlives a failure. -/
abbrev Change := ExceptT Error (StateM PolicySet)

namespace Change

/-- Fail if an id is taken. -/
def ensureUnused (id : String) : Change Unit := do
  if (← get).contains id then throw (.duplicateId id)

/-- Add a policy. -/
def add (p : Policy) : Change Unit := do
  ensureUnused p.id
  modify (·.push p)

/-- Link a template under a new id. The values must name exactly its slots: the policy that comes of
it is made once, so that a link that cannot be resolved fails here and not in an authorization. -/
def link (template id : String) (values : List (Slot × Uid)) : Change Unit := do
  match (← get).template? template with
  | none => throw (.templateLink s!"no template with id \x60{template}\x60")
  | some t =>
    discard (liftExcept (t.link id values))
    ensureUnused id
    modify fun s => { s with links := s.links ++ [⟨template, id, values⟩] }

/-- The answer of a change, and the set after it. -/
def on {α : Type} (c : Change α) (s : PolicySet) : Except Error α × PolicySet :=
  c.run.run s

/-- The set that a change makes, if it succeeds. -/
def made (c : Change Unit) (s : PolicySet) : Except Error PolicySet :=
  match c.on s with
  | (.ok (), t) => .ok t
  | (.error e, _) => .error e

end Change

/-- Add a policy, among the templates if it mentions slots. -/
def add (s : PolicySet) (p : Policy) : Except Error PolicySet :=
  (Change.add p).made s

/-- Link a template under a new id. The values must name exactly its slots. -/
def link (s : PolicySet) (template id : String) (values : List (Slot × Uid)) :
    Except Error PolicySet :=
  (Change.link template id values).made s

/-- Add policies in order. -/
def addAll (s : PolicySet) : List Policy → Except Error PolicySet
  | [] => .ok s
  | p :: ps =>
    match s.add p with
    | .ok s => s.addAll ps
    | .error e => .error e

/-- The set of the given policies. -/
def ofPolicies (ps : List Policy) : Except Error PolicySet :=
  empty.addAll ps

/-- The policy that a link stands for. -/
def resolve (s : PolicySet) (l : Link) : Except Error Policy :=
  match s.template? l.template with
  | none =>
    let id := l.id
    let template := l.template
    .error (.templateLink s!"link \x60{id}\x60 refers to missing template \x60{template}\x60")
  | some t => t.link l.id l.values

/-- The static policies followed by the policies of the links. -/
def effective (s : PolicySet) : Except Error (List Policy) :=
  (s.links.mapM s.resolve).map (s.policies ++ ·)

end PolicySet

end AccessPolicy
