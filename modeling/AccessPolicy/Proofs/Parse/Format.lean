import AccessPolicy.Proofs.Except
import AccessPolicy.Proofs.Parse.Policy
import AccessPolicy.Proofs.Parse.WellFormed

/-!
# Formatting a formatted text

* `PolicySet.parse_print_of_parse` — the set of a text is read back from its printed text, unless
  the printed text nests too deeply.
* **Formatting is idempotent where the formatted text does not nest too deeply**
  (`PolicySet.format_format`): otherwise the reader complains about nesting and about nothing else,
  and it never does if all conditions are compact, which leaves the parentheses around a negative
  number or behind a minus sign as the only ones that a source can do without.
* `PolicySet.not_format_format` — a text that reaches the bound on nesting without the parentheses
  that the formatter puts around a negative number.
-/

namespace AccessPolicy

open Grammar

/-- Policies that were read can be read again. -/
theorem Policy.Parsed.legible {p : Policy} (h : p.Parsed) : p.Legible :=
  ⟨h.toShaped, fun c hc => ⟨(h.conditions c hc).legible, (h.conditions c hc).full⟩⟩

namespace PolicySet

variable {text out : String} {s : PolicySet} {options : LayoutOptions}

/-- The set of a text is read back from its printed text, where no condition nests too deeply. -/
theorem parse_print_of_parse (h : parse text = .ok s) (options : LayoutOptions) (fails : Prop)
    (hdeep : ∀ p ∈ s.policies ++ s.templates, ∀ c ∈ p.conditions, c.body.TooDeep → fails) :
    parse (s.print options) = .ok s ∨ fails ∧ ∃ position,
      parse (s.print options) = .error (.syntaxError Complaint.nesting.message position) :=
  parse_print_of (fun p hp => ((parsed_of_parse h).2 p hp).legible)
    ((wellFormed_of_parse h).addAll_eq_ok (parsed_of_parse h).1) options
    fails hdeep

/-- A printed text that is read back is formatted to itself. -/
theorem format_print (h : parse (s.print options) = .ok s) :
    format (s.print options) options = .ok (s.print options) := by
  rw [format, h]
  rfl

/-- **Formatting is idempotent where the formatted text does not nest too deeply.** A formatted text
is formatted to itself, or its reader complains about nesting. It does not if each condition is
compact or leaves two of the levels of nesting. -/
theorem format_format (h : format text options = .ok out) : ∃ s, parse text = .ok s ∧
    (format out options = .ok out ∨ ∃ position,
      format out options = .error (.syntaxError Complaint.nesting.message position)) ∧
    ((∀ p ∈ s.policies ++ s.templates, ∀ c ∈ p.conditions,
      c.body.Compact ∨ c.body.nesting + 2 ≤ nestingLimit) → format out options = .ok out) := by
  obtain ⟨s, hs, rfl⟩ := map_eq_ok.mp h
  refine ⟨s, hs, ?_, fun hbodies => ?_⟩
  · rcases parse_print_of_parse hs options True fun _ _ _ _ _ => trivial with hread |
      ⟨-, position, hread⟩
    · exact .inl (format_print hread)
    · exact .inr ⟨position, by rw [format, hread]; rfl⟩
  · have hread := parse_print_of_parse hs options False fun p hp c hc hdeep => ?_
    · exact format_print (hread.resolve_right And.left)
    have hcondition := ((parsed_of_parse hs).2 p hp).conditions c hc
    rcases hbodies p hp c hc with hcompact | hlevels
    · exact hcondition.compact hcompact hdeep
    · rcases hdeep with hdeep | hdeep
      · omega
      · exact absurd hdeep (Nat.not_lt_of_le hcondition.depth)

/-- Parentheses around a negative number, which leave levels of nesting. -/
theorem format_format_negative :
    let text := "permit(principal,action,resource) when \x7b-1.isEmpty()\x7d;"
    let out := "permit (\n  principal,\n  action,\n  resource\n)\nwhen \x7b (-1).isEmpty() \x7d;\n"
    format text .standard = .ok out ∧ format out .standard = .ok out := by
  intro text out
  have hformat : format text .standard = .ok out := by decide +kernel
  obtain ⟨s, hs, -, hsame⟩ := format_format hformat
  have hbodies : (parse text).toOption.all fun s => decide (∀ p ∈ s.policies ++ s.templates,
      ∀ c ∈ p.conditions, c.body.Compact ∨ c.body.nesting + 2 ≤ nestingLimit) := by
    decide +kernel
  rw [hs] at hbodies
  exact ⟨hformat, hsame (of_decide_eq_true hbodies)⟩

/-! ### A text that reaches the bound on nesting -/

/-- The characters of a text are all that its reader looks at. -/
theorem parse_eq_of_toList {cs : List Char} (h : text.toList = cs) : parse text =
    match tokensFrom cs.length 0 cs with
    | .error e => .error (e.toError text)
    | .ok ts => readTokens text policySet ts := by
  subst h
  have htokens : tokens text = tokensFrom text.toList.length 0 text.toList := rfl
  cases hscan : tokensFrom text.toList.length 0 text.toList with
  | error e => rw [parse, readText, htokens, hscan]
  | ok ts => rw [parse, readText, htokens, hscan]

/-- A member of a negative number behind 254 negations. -/
def negatedMember : Expr :=
  Nat.repeat (.unary .not) 254 (.unary .isEmpty (.lit (.long ⟨-1, by decide, by decide⟩)))

/-- A policy with that condition. -/
def negatedPolicy : Policy :=
  ⟨"policy0", .permit, .any, .any, .any, [⟨.whenTrue, negatedMember⟩], []⟩

/-- The characters of a text of the policy, without parentheses around the number. -/
def negatedChars : List Char :=
  "permit(principal, action, resource) when \x7b ".toList ++
    (List.replicate 254 '!' ++ "-1.isEmpty() \x7d;".toList)

/-- The text of these characters. -/
def negatedText : String :=
  String.ofList negatedChars

/-- The text with the negated number is read as the policy. -/
theorem parse_negatedText : parse negatedText = .ok ⟨[negatedPolicy], [], []⟩ := by
  have hchars : negatedText.toList = negatedChars := String.toList_ofList
  rw [parse_eq_of_toList hchars]
  decide +kernel

/-- The printed text is the document of the policy, laid out at the standard width, and a
newline. -/
theorem toList_print_negatedPolicy : (print ⟨[negatedPolicy], [], []⟩ .standard).toList =
    (Doc.layout 88 (negatedPolicy.doc 2 0) 0 .broken [] ⟨[], 0⟩).written.reverse ++ ['\n'] := by
  simp [print, printFrom, Policy.printAt, Doc.render, LayoutOptions.standard]

/-- **Formatting is not idempotent**: the parentheses that are put around a negative number take two
levels of nesting that the text did not need. -/
theorem not_format_format : ¬ ∀ (text out : String) (options : LayoutOptions),
    format text options = .ok out → format out options = .ok out := by
  intro h
  have hformat : format negatedText .standard =
      .ok (print ⟨[negatedPolicy], [], []⟩ .standard) := by
    rw [format, parse_negatedText]
    rfl
  obtain ⟨s, hs, -⟩ := map_eq_ok.mp (h _ _ _ hformat)
  have hnone : (parse (print ⟨[negatedPolicy], [], []⟩ .standard)).toOption.isNone := by
    rw [parse_eq_of_toList toList_print_negatedPolicy]
    decide +kernel
  rw [hs] at hnone
  cases hnone

end PolicySet

end AccessPolicy
