import AccessPolicy.Proofs.Parse.WellFormed
import AccessPolicy.Proofs.Tree.Decoded
import AccessPolicy.Proofs.Tree.Merged
import AccessPolicy.Proofs.Tree.RoundTrip
import AccessPolicy.Schema.Json

/-!
# The tree form loses nothing

* `PolicySet.Reachable s` — the set `s` comes of reading texts and trees, adding policies that were
  read and linking templates, in any order. A link may bind any uids: they come of the caller, and
  linking does not look at them.
* **Reachable sets are sound** (`PolicySet.Reachable.sound`), by induction on how they came about.
* **The tree of a reachable set decodes to the set** (`PolicySet.Reachable.tree_roundTrip`), if the
  uids that its links bind are valid; and if one of them is not, the tree is refused. The type of a
  uid is checked wherever one is read, but not where the namespaces of a schema make the uids of its
  actions (`PolicySet.Reachable.tree_roundTrip_spacedAction`).
-/

namespace AccessPolicy

/-- The policies that are read from texts and trees, alone or in a set. -/
inductive Policy.Read : Policy → Prop
  | text {text : String} {id : Option String} {p : Policy} (h : Policy.parse text id = .ok p) :
      Read p
  | tree {v : Json} {id : Option String} {p : Policy} (hv : v.Merged)
      (h : Policy.ofTree v id = .ok p) : Read p
  | textMember {text : String} {s : PolicySet} {p : Policy} (h : PolicySet.parse text = .ok s)
      (hp : p ∈ s.policies ++ s.templates) : Read p
  | treeMember {v : Json} {s : PolicySet} {p : Policy} (hv : v.Merged)
      (h : PolicySet.ofTree v = .ok s) (hp : p ∈ s.policies ++ s.templates) : Read p

/-- The policies of a well-formed set are well-formed. -/
theorem PolicySet.WellFormed.forall_mem {s : PolicySet} (hs : s.WellFormed) :
    ∀ p ∈ s.policies ++ s.templates, p.WellFormed :=
  List.forall_mem_append.mpr ⟨fun p hp => (hs.policies p hp).1, fun p hp => (hs.templates p hp).1⟩

/-- **A policy that was read** is well-formed. -/
theorem Policy.Read.wellFormed {p : Policy} (h : p.Read) : p.WellFormed := by
  cases h with
  | text h => exact Policy.wellFormed_of_parse h
  | tree hv h => exact Tree.wellFormed_of_policy hv h
  | textMember h hp => exact (PolicySet.wellFormed_of_parse h).forall_mem p hp
  | treeMember hv h hp => exact (PolicySet.wellFormed_of_ofTree hv h).forall_mem p hp

namespace PolicySet

/-- The sets that come of reading, adding what was read and linking. -/
inductive Reachable : PolicySet → Prop
  | empty : Reachable empty
  /-- A set that is read from a text. -/
  | text {text : String} {s : PolicySet} (h : parse text = .ok s) : Reachable s
  /-- A set that is read from a value, in which no object repeats a key. -/
  | tree {v : Json} {s : PolicySet} (hv : v.Merged) (h : ofTree v = .ok s) : Reachable s
  /-- A set that is read from a text that holds a tree. -/
  | treeText {text : String} {s : PolicySet} (h : ofTreeText text = .ok s) : Reachable s
  /-- A policy that was read is added. -/
  | add {s t : PolicySet} {p : Policy} (hs : Reachable s) (hp : p.Read) (h : s.add p = .ok t) :
      Reachable t
  /-- A template is linked: the values are a map from slots to uids, whatever they are. -/
  | link {s t : PolicySet} {template id : String} {values : List (Slot × Uid)} (hs : Reachable s)
      (hsorted : Ascending.Sorted (Ascending.keys values))
      (h : s.link template id values = .ok t) : Reachable t

/-- A set that is read from the text of a tree is well-formed. -/
theorem wellFormed_of_ofTreeText {text : String} {s : PolicySet} (h : ofTreeText text = .ok s) :
    s.WellFormed := by
  unfold ofTreeText at h
  split at h
  · cases h
  · rename_i v hv
    exact wellFormed_of_ofTree (Json.merged_of_parse hv) h

namespace Reachable

variable {s : PolicySet}

/-- **A reachable set is sound**, by induction on how it came about. -/
theorem sound (h : s.Reachable) : s.Sound := by
  induction h with
  | empty => exact sound_empty
  | text h => exact (wellFormed_of_parse h).sound
  | tree hv h => exact (wellFormed_of_ofTree hv h).sound
  | treeText h => exact (wellFormed_of_ofTreeText h).sound
  | add _ hp h ih => exact ih.add hp.wellFormed h
  | link _ hsorted h ih => exact ih.link hsorted h

/-- **The tree form loses nothing** where links bind valid uids. The tree of a reachable set repeats
no key in any object, and it decodes to the set; but it is refused if a link binds a uid that is not
valid. -/
theorem tree_roundTrip (h : s.Reachable) : s.toTree.Merged ∧
    (s.BindsValid → ofTree s.toTree = .ok s) ∧ (¬s.BindsValid → ∃ e, ofTree s.toTree = .error e) := by
  refine ⟨merged_toTree h.sound, h.sound.ofTree_toTree, fun hinvalid => ?_⟩
  exact exists_error_iff.mpr fun ⟨_, hdecoded⟩ => hinvalid (bindsValid_of_ofTree hdecoded)

/-- A template with a note that was read from a text and linked. -/
theorem tree_roundTrip_linkedTemplate :
    let t : Policy := ⟨"policy0", .permit, .eq (.slot .principal), .any, .is "Photo",
      [⟨.unlessTrue, .hasAttr (.var .context) "key"⟩], [("note", "n")]⟩
    let s : PolicySet := ⟨[], [t], [⟨"policy0", "l", [(.principal, ⟨"User", "ann"⟩)]⟩]⟩
    s.Reachable ∧ s.BindsValid ∧ s.toTree.Merged ∧ ofTree s.toTree = .ok s := by
  intro t s
  have hparse : parse "@note(\"n\")permit(principal==?principal,action,resource is Photo)
      unless\x7bcontext has key\x7d;" = .ok ⟨[], [t], []⟩ := by
    decide +kernel
  have hlink :
      PolicySet.link ⟨[], [t], []⟩ "policy0" "l" [(.principal, ⟨"User", "ann"⟩)] = .ok s := by
    decide +kernel
  have hs : s.Reachable := by
    refine .link (.text hparse) ?_ hlink
    exact List.pairwise_singleton _ _
  have hvalid : s.BindsValid := by decide
  obtain ⟨hmerged, hdecodes, -⟩ := tree_roundTrip hs
  exact ⟨hs, hvalid, hmerged, hdecodes hvalid⟩

/-- A schema whose one namespace has a name with a space; it declares an action. -/
def spacedSchema : Json :=
  .obj [("my app", .obj [("actions", .obj [("view", .obj [])])])]

/-- The uid that the schema gives the action. -/
def spacedAction : Uid :=
  ⟨"my app::Action", "view"⟩

/-- **A tree is refused**: a schema is accepted without a check of the name of its namespace, and a
template is linked to the uid of its action without a check of the type of the uid, which the reader
of trees then does not accept. -/
theorem tree_roundTrip_spacedAction :
    let t : Policy := ⟨"policy0", .permit, .eq (.slot .principal), .any, .any, [], []⟩
    let s : PolicySet := ⟨[], [t], [⟨"policy0", "l", [(.principal, spacedAction)]⟩]⟩
    Schema.ofJson spacedSchema = .ok ⟨[], [(spacedAction, .empty)]⟩ ∧ s.Reachable ∧
      ofTree s.toTree = .error (.schemaMismatch "$.templateLinks[0].values.?principal.type"
        (Error.message (.invalidFormat "invalid entity type name \x60my app::Action\x60"))) := by
  intro t s
  have hparse : parse "permit(principal==?principal,action,resource);" = .ok ⟨[], [t], []⟩ := by
    decide +kernel
  have hlink : PolicySet.link ⟨[], [t], []⟩ "policy0" "l" [(.principal, spacedAction)] = .ok s := by
    decide +kernel
  have hs : s.Reachable := by
    refine .link (.text hparse) ?_ hlink
    exact List.pairwise_singleton _ _
  exact ⟨by decide +kernel, hs, by decide +kernel⟩

end Reachable

end PolicySet

end AccessPolicy
