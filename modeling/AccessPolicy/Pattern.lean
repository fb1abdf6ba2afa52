import AccessPolicy.Text.Quoted

/-!
# Glob patterns

`Pattern.accepts` decides whether a pattern matches a text. It goes through both from the front. At
a wildcard it lets the run of the wildcard be empty, marks the place and goes on; where pattern and
text part, it turns back to the last mark and lets the run there take one character more. Earlier
marks are forgotten. `Scan.turn` is one turn of this loop, and every turn either shortens what the
mark leaves to try or, with the same mark, the pattern that is left.
-/

namespace AccessPolicy.Pattern

/-- Where the last wildcard stands. -/
structure Mark where
  /-- The places behind the wildcard. -/
  places : List Glob
  /-- The text behind the run that the wildcard has at present. -/
  text : List Char

/-- Where a scan stands. -/
structure Scan where
  /-- The places of the pattern that are left. -/
  places : List Glob
  /-- The characters of the text that are left. -/
  text : List Char
  /-- The last wildcard that was passed. -/
  mark? : Option Mark

/-- What a turn comes to. -/
inductive Turn
  /-- The scan is over. -/
  | done (answer : Bool)
  /-- The scan goes on. -/
  | again (s : Scan)

namespace Scan

/-- The scan of a whole text for a whole pattern. -/
def start (pattern : List Glob) (text : List Char) : Scan :=
  ⟨pattern, text, none⟩

/-- Go on behind the last wildcard, whose run takes one character more. -/
def turnBack (s : Scan) : Turn :=
  match s.mark? with
  | none => .done false
  | some m => .again ⟨m.places, m.text.tail, some ⟨m.places, m.text.tail⟩⟩

/-- One turn. Where the text is at its end, only wildcards may be left. -/
def turn (s : Scan) : Turn :=
  match s.text, s.places with
  | [], gs => .done (gs.all (· = .wildcard))
  | c :: cs, .wildcard :: gs => .again ⟨gs, c :: cs, some ⟨gs, c :: cs⟩⟩
  | c :: cs, .char d :: gs => if d = c then .again ⟨gs, cs, s.mark?⟩ else s.turnBack
  | _ :: _, [] => s.turnBack

/-! ### The end of a scan -/

/-- How many characters the scan may still go through, from where it stands or from the mark. -/
def reach (s : Scan) : Nat :=
  max s.text.length ((s.mark?.map (·.text.length)).getD 0)

/-- A scan that turns back has less to go through, if it does not stand at the end of the text. -/
theorem reach_turnBack {s s' : Scan} (htext : s.text ≠ []) (h : s.turnBack = .again s') :
    s'.reach < s.reach := by
  unfold turnBack at h
  have hpos : 0 < s.text.length := List.length_pos_iff.mpr htext
  split at h
  · cases h
  · rename_i m hm
    cases h
    simp only [reach, hm, Option.map_some, Option.getD_some, List.length_tail]
    omega

/-- Each turn that goes on leaves less to go through, or as much and a shorter pattern. -/
theorem turn_lt {s s' : Scan} (h : s.turn = .again s') :
    Prod.Lex (· < ·) (· < ·) (s'.reach, s'.places.length) (s.reach, s.places.length) := by
  unfold turn at h
  split at h
  · cases h
  · rename_i c cs gs htext hplaces
    cases h
    refine .right' _ ?_ ?_
    · simp only [reach, htext, Option.map_some, Option.getD_some, Nat.max_self]
      exact Nat.le_max_left _ _
    · simp [hplaces]
  · rename_i c cs d gs htext hplaces
    split at h
    · cases h
      refine .right' _ ?_ ?_
      · simp only [reach, htext, List.length_cons]
        omega
      · simp [hplaces]
    · exact .left _ _ (reach_turnBack (by simp [htext]) h)
  · rename_i htext _
    exact .left _ _ (reach_turnBack (by simp [htext]) h)

/-- The answer of a scan. -/
def run (s : Scan) : Bool :=
  match _h : s.turn with
  | .done answer => answer
  | .again s' => s'.run
termination_by (s.reach, s.places.length)
decreasing_by exact turn_lt ‹_›

end Scan

/-- Whether a pattern matches a text. -/
def accepts (pattern : List Glob) (text : String) : Bool :=
  (Scan.start pattern text.toList).run

end AccessPolicy.Pattern
