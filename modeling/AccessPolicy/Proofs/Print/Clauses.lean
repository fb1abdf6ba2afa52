import AccessPolicy.Proofs.Print.OneLine

/-!
# Clauses on one line

* `Clause.oneLine c` — a clause with its body between braces on one line.
* **A clause by itself** (`Clause.layout_eq_oneLine_iff`): in front of what is to come it is laid
  out on one line exactly if that line has the columns, counted as a signed 64-bit number.
* **The clauses of a policy** (`Policy.text_layout_doc`) are laid out one by one, each on a fresh
  line, and what stands before them does not depend on them; hence `Policy.printAt_clauses`.
-/

namespace AccessPolicy

open Doc

namespace Clause

/-- The form of a clause on one line. -/
def oneLine (c : Clause) : String :=
  c.kind.name ++ " \x7b " ++ c.body.oneLine ++ " \x7d"

/-- What is laid out flat or broken. -/
def content (indent : Nat) (c : Clause) : Doc :=
  Doc.concat
    [.text (c.kind.name ++ " \x7b"), .nest indent (Doc.concat [.line, c.body.doc indent]), .line,
     .text "\x7d"]

/-- A clause is a group, so that it is laid out on one line or broken as a whole. -/
theorem doc_eq_group (indent : Nat) (c : Clause) : c.doc indent = .group (c.content indent) :=
  rfl

/-- The word of a clause has no newline. -/
theorem not_mem_name (c : Clause) : '\n' ∉ c.kind.name.toList := by
  cases c.kind <;> decide

variable {v : Prop} {c : Clause} {indent width : Nat} {rest : List (Mode × Doc)} {n : Int}

/-- A clause has the same content at every indentation, but for that indentation. -/
theorem alike_content (i j : Nat) (h : v → c.body.Valid) :
    Alike v (c.content i) (c.content j) := by
  have opening : Alike v (.text (c.kind.name ++ " \x7b")) (.text (c.kind.name ++ " \x7b")) :=
    .text fun _ => by simpa using c.not_mem_name
  have closing : Alike v (.text "\x7d") (.text "\x7d") := .text fun _ => by decide
  have body := Alike.nest i j (Alike.line.cons (Expr.alike_doc i j h).single)
  exact opening.cons (body.cons (Alike.line.cons closing.single))

/-- The flat text of a clause is its one line, at every indentation. -/
theorem flatText_content (indent : Nat) (c : Clause) :
    (c.content indent).flatText = c.oneLine.toList := by
  have hbody : (c.body.doc indent).flatText = (c.body.doc 0).flatText :=
    (Expr.alike_doc (v := False) indent 0 nofun).flatText_eq
  simp [content, Doc.concat, flatText, oneLine, Expr.oneLine, hbody]

/-- With valid names the form on one line has no newline. -/
theorem not_mem_oneLine (h : c.body.Valid) : '\n' ∉ c.oneLine.toList := by
  rw [← flatText_content 0]
  exact (alike_content 0 0 fun _ => h).not_mem_flatText trivial

/-- The text of a clause in front of what is to come. -/
def textIn (width indent : Nat) (rest : List (Mode × Doc)) (c : Clause) : List Char :=
  (layout width (c.doc indent) 0 .broken rest ⟨[], 0⟩).text

/-- Broken, a clause has a newline behind its opening brace. -/
theorem text_layout_broken (width indent : Nat) (rest : List (Mode × Doc)) (c : Clause) : ∃ cs,
    (layout width (c.content indent) 0 .broken rest ⟨[], 0⟩).text =
      c.kind.name.toList ++ ' ' :: '\x7b' :: '\n' :: cs := by
  have hopen : ((⟨[], 0⟩ : Page).write (c.kind.name ++ " \x7b")).written =
      '\x7b' :: ' ' :: c.kind.name.toList.reverse := by
    simp [Page.write, List.reverseAux_eq]
  have hlayout : layout width (c.content indent) 0 .broken rest ⟨[], 0⟩ =
      layout width (.append .line (.append (.text "\x7d") .empty)) 0 .broken rest
        (layout width (.append (c.body.doc indent) .empty) (0 + indent) .broken
          ((.broken, .append .line (.append (.text "\x7d") .empty)) :: rest)
          (((⟨[], 0⟩ : Page).write (c.kind.name ++ " \x7b")).newline (0 + indent))) :=
    rfl
  have hfront (cs : List Char) :
      ('\x7b' :: ' ' :: c.kind.name.toList.reverse).reverse ++ '\n' :: cs =
      c.kind.name.toList ++ ' ' :: '\x7b' :: '\n' :: cs := by
    simp
  rw [hlayout, Page.newline_eq_behind (by simp [hopen]), layout_behind, layout_behind,
    Page.text_behind, hopen]
  exact ⟨_, hfront _⟩

/-- On a fresh line the columns left are the width, unless the width is too large for a signed
64-bit number and they come out negative. -/
theorem columnsLeft_zero (h : width < 18446744073709551616) :
    0 ≤ columnsLeft width 0 ∧ columnsLeft width 0 = width ∧ width < 9223372036854775808 ∨
      columnsLeft width 0 < 0 ∧ ¬ width < 9223372036854775808 := by
  unfold columnsLeft
  dsimp only
  split <;> omega

/-- **A clause by itself** is laid out on one line exactly if the line has the columns. -/
theorem textIn_eq_oneLine_iff (hwidth : width < 18446744073709551616) :
    c.textIn width indent rest = c.oneLine.toList ↔
      width < 9223372036854775808 ∧ c.oneLine.length ≤ width ∧
        measureAll rest (.left (width - c.oneLine.length)) ≠ .exceeded := by
  have halike : Alike False (c.content indent) (c.content indent) := alike_content _ _ nofun
  have hfits : fits (columnsLeft width 0) (c.content indent) rest ↔
      width < 9223372036854775808 ∧ c.oneLine.length ≤ width ∧
        measureAll rest (.left (width - c.oneLine.length)) ≠ .exceeded := by
    rcases columnsLeft_zero hwidth with ⟨hpos, hcolumns, hlt⟩ | ⟨hneg, hge⟩
    · rw [halike.fits_iff hpos, flatText_content, String.length_toList, hcolumns, Int.ofNat_le]
      exact (and_iff_right hlt).symm
    · exact iff_of_false (fun h => by have := (Doc.fits_iff.mp h).1; omega) fun h => hge h.1
  rw [← hfits, textIn, doc_eq_group, layout]
  by_cases h : fits (columnsLeft width 0) (c.content indent) rest
  · rw [if_pos (.inr h), halike.layout_flat, flatText_content]
    simp [Page.text, h]
  · obtain ⟨cs, hcs⟩ := text_layout_broken width indent rest c
    rw [if_neg (by simpa using h), hcs]
    refine iff_of_false (fun heq => ?_) h
    simp [oneLine] at heq

/-- A clause ends with its closing brace. -/
theorem head?_layout_doc (p : Page) :
    (layout width (c.doc indent) 0 .broken rest p).written.head? = some '\x7d' := by
  have hcontent (mode : Mode) :
      (layout width (c.content indent) 0 mode rest p).written.head? = some '\x7d' :=
    rfl
  rw [doc_eq_group, layout]
  split
  · exact hcontent .flat
  · exact hcontent .broken

end Clause

namespace Policy

/-! ### The clauses of a policy

Each clause begins on a line of its own, so that what stands before it has no influence. What comes
behind it begins with a newline too, except for the semicolon behind the last one. -/

/-- The clauses on lines of their own, and the semicolon. -/
def clauseDocs (indent : Nat) (cs : List Clause) : List Doc :=
  cs.map (fun c => Doc.concat [.hardLine, c.doc indent]) ++ [.text ";"]

/-- The texts of the clauses, each in front of the ones behind it. -/
def clauseTexts (width indent : Nat) : List Clause → List (List Char)
  | [] => []
  | c :: cs =>
    c.textIn width indent [(.broken, .empty), (.broken, Doc.concat (clauseDocs indent cs))] ::
      clauseTexts width indent cs

variable {width indent : Nat} {cs : List Clause} {c : Clause} {p : Page}

/-- There is one text for each clause. -/
theorem length_clauseTexts : (clauseTexts width indent cs).length = cs.length := by
  induction cs with
  | nil => rfl
  | cons c cs ih => rw [clauseTexts, List.length_cons, ih, List.length_cons]

/-- Behind a page without blanks at its end the clauses are laid out one by one. -/
theorem text_layout_clauseDocs (hp : p.written.head? ≠ some ' ') :
    (layout width (Doc.concat (clauseDocs indent cs)) 0 .broken [] p).text =
      p.text ++ (clauseTexts width indent cs).flatMap ('\n' :: ·) ++ [';'] := by
  induction cs generalizing p with
  | nil =>
      have hlayout :
          layout width (Doc.concat (clauseDocs indent [])) 0 .broken [] p = p.write ";" :=
        rfl
      rw [hlayout, Page.text_write]
      simp [clauseTexts]
  | cons c cs ih =>
      have hlayout : layout width (Doc.concat (clauseDocs indent (c :: cs))) 0 .broken [] p =
          layout width (Doc.concat (clauseDocs indent cs)) 0 .broken []
            (layout width (c.doc indent) 0 .broken
              [(.broken, .empty), (.broken, Doc.concat (clauseDocs indent cs))] (p.newline 0)) :=
        rfl
      have hclause : (layout width (c.doc indent) 0 .broken
          [(.broken, .empty), (.broken, Doc.concat (clauseDocs indent cs))] (p.newline 0)).text =
          p.text ++ '\n' :: c.textIn width indent
            [(.broken, .empty), (.broken, Doc.concat (clauseDocs indent cs))] := by
        rw [Page.newline_eq_behind hp, layout_behind, Page.text_behind]
        rfl
      rw [hlayout, ih (by rw [Clause.head?_layout_doc]; decide), hclause, clauseTexts,
        List.flatMap_cons, List.append_assoc p.text]

/-- The look-ahead from a clause ends at the next one, or sees the semicolon. -/
theorem measureAll_clauseDocs (n : Int) :
    measureAll [(.broken, .empty), (.broken, Doc.concat (clauseDocs indent cs))] (.left n) =
      if cs = [] then Room.take n 1 else .ended := by
  cases cs with
  | nil =>
      change measure .broken .empty (Room.take n 1) = Room.take n 1
      exact measure_empty
  | cons c cs =>
      change measure .broken
        (.append (Doc.concat (.hardLine :: [c.doc indent])) (Doc.concat (clauseDocs indent cs)))
        (.left n) = .ended
      rw [measure_append, measure_concat_hardLine, measure_ended]

/-- Each clause is on one line exactly if that line has the columns. -/
theorem clauseTexts_eq_oneLine_iff (indent : Nat) (hwidth : width < 18446744073709551616) {i : Nat}
    (hc : cs[i]? = some c) :
    (clauseTexts width indent cs)[i]? = some c.oneLine.toList ↔
      width < 9223372036854775808 ∧
        c.oneLine.length + (if i + 1 = cs.length then 1 else 0) ≤ width := by
  induction cs generalizing i with
  | nil => exact nomatch hc
  | cons d cs ih =>
      cases i with
      | succ i =>
          have hlength : i + 1 + 1 = (d :: cs).length ↔ i + 1 = cs.length := by
            rw [List.length_cons]
            omega
          rw [clauseTexts, List.getElem?_cons_succ, ih hc]
          simp only [hlength]
      | zero =>
          cases hc
          -- What is measured ahead of the last clause is the semicolon, and of any other nothing,
          -- for a new line follows.
          have hahead : measureAll [(.broken, .empty), (.broken, Doc.concat (clauseDocs indent cs))]
                (.left (width - c.oneLine.length)) ≠ .exceeded ↔
              (cs = [] → c.oneLine.length + 1 ≤ width) := by
            rw [measureAll_clauseDocs, Room.take]
            by_cases hcs : cs = []
            · simp only [hcs, if_true, forall_const]
              split <;> simp <;> omega
            · simp [hcs]
          have hlast : 0 + 1 = (c :: cs).length ↔ cs = [] := by
            simp
          rw [clauseTexts, List.getElem?_cons_zero, Option.some_inj,
            Clause.textIn_eq_oneLine_iff hwidth, hahead]
          simp only [hlast]
          refine and_congr_right' ?_
          by_cases hcs : cs = []
          · simp only [hcs, if_true, forall_const]
            omega
          · simp [hcs]

/-- What stands before the line of the closing parenthesis. -/
def headDocs (indent place : Nat) (p : Policy) : List Doc :=
  (if p.id = defaultId place then [] else [annotationDoc "id" p.id]) ++
    p.annotations.map (fun a => annotationDoc a.1 a.2) ++
    [.text (p.effect.name ++ " ("),
     .nest indent (Doc.concat
       [.hardLine, p.principal.doc indent "principal", .text ",",
        .hardLine, p.action.doc indent "action", .text ",",
        .hardLine, p.resource.doc indent "resource"])]

/-- A policy is its head, a closing bracket on a line of its own and its clauses. -/
theorem doc_eq_concat (indent place : Nat) (p : Policy) :
    p.doc indent place = Doc.concat
      (headDocs indent place p ++ .hardLine :: .text ")" :: clauseDocs indent p.conditions) := by
  simp [doc, headDocs, clauseDocs]

/-- A policy is its head, which does not depend on the clauses, and the clauses. -/
theorem exists_text_layout_doc (width indent place : Nat) (p : Policy) :
    ∃ head : List Char, ∀ cs : List Clause,
      (layout width ({ p with conditions := cs }.doc indent place) 0 .broken [] ⟨[], 0⟩).text =
        head ++ (clauseTexts width indent cs).flatMap ('\n' :: ·) ++ [';'] := by
  let scopes : Page := layout width (Doc.concat (headDocs indent place p)) 0 .broken
    [(.broken, Doc.concat (.hardLine :: []))] ⟨[], 0⟩
  refine ⟨((scopes.newline 0).write ")").text, fun cs => ?_⟩
  have hscopes : layout width (Doc.concat (headDocs indent place p)) 0 .broken
      [(.broken, Doc.concat (.hardLine :: .text ")" :: clauseDocs indent cs))] ⟨[], 0⟩ = scopes :=
    layout_congr (sameAhead_hardLine _ _ [] []) _ _ _ _
  have hclosing :
      layout width (Doc.concat (.hardLine :: .text ")" :: clauseDocs indent cs)) 0 .broken
      [] scopes =
        layout width (Doc.concat (clauseDocs indent cs)) 0 .broken [] ((scopes.newline 0).write ")") :=
    rfl
  have hhead : headDocs indent place { p with conditions := cs } = headDocs indent place p := rfl
  rw [doc_eq_concat, layout_concat_append, hhead, hscopes, hclosing]
  exact text_layout_clauseDocs (by simp [Page.write])

/-- **Clauses on one line**: the text of a policy is that of its head with each clause on lines of
its own behind it, and a semicolon. With a width of 64 bits a clause has the form `when { body }`
exactly if the width is below `2^63` and has the columns for it, and for the semicolon behind the
last clause. With valid names that form is one line. -/
theorem printAt_clauses (p : Policy) (options : LayoutOptions) (place : Nat)
    (hwidth : options.lineWidth < 18446744073709551616) :
    ∃ (head : String) (clauses : List String),
      { p with conditions := [] }.printAt options place = head ++ ";\n" ∧
      p.printAt options place = head ++ String.join (clauses.map ("\n" ++ ·)) ++ ";\n" ∧
      clauses.length = p.conditions.length ∧
      ∀ (i : Nat) (c : Clause), p.conditions[i]? = some c →
        (clauses[i]? = some c.oneLine ↔ options.lineWidth < 9223372036854775808 ∧
          c.oneLine.length + (if i + 1 = p.conditions.length then 1 else 0) ≤ options.lineWidth) ∧
        (c.body.Valid → '\n' ∉ c.oneLine.toList) := by
  obtain ⟨head, hhead⟩ := exists_text_layout_doc options.lineWidth options.indentWidth place p
  let texts := clauseTexts options.lineWidth options.indentWidth p.conditions
  -- The head does not depend on the conditions, so that it is also that of the policy without
  -- any.
  have hprint (cs : List Clause) : ({ p with conditions := cs }.printAt options place).toList =
      head ++ (clauseTexts options.lineWidth options.indentWidth cs).flatMap ('\n' :: ·) ++
        [';', '\n'] := by
    have hrender := hhead cs
    rw [Page.text] at hrender
    rw [printAt, render, String.toList_append, String.toList_ofList, hrender]
    simp
  refine ⟨String.ofList head, texts.map String.ofList, ?_, ?_, ?_, fun i c hc => ⟨?_, fun hv => ?_⟩⟩
  · refine String.toList_inj.mp ?_
    rw [hprint]
    simp [clauseTexts]
  · refine String.toList_inj.mp ?_
    have hp := hprint p.conditions
    rw [show { p with conditions := p.conditions } = p from rfl] at hp
    rw [hp]
    simp [texts, String.toList_join, List.flatMap_map]
  · rw [List.length_map, length_clauseTexts]
  · have hchars (t : List Char) : String.ofList t = c.oneLine ↔ t = c.oneLine.toList :=
      ⟨fun h => h ▸ String.toList_ofList.symm, fun h => h ▸ String.ofList_toList⟩
    rw [← clauseTexts_eq_oneLine_iff options.indentWidth hwidth hc, List.getElem?_map]
    simp [texts, hchars]
  · exact Clause.not_mem_oneLine hv

/-- A policy that permits everything under a condition. -/
def permitWhenTrue : Policy where
  id := "policy0"
  effect := .permit
  principal := .any
  action := .any
  resource := .any
  conditions := [⟨.whenTrue, .lit (.bool true)⟩]
  annotations := []

theorem printAt_clauses_standard :
    permitWhenTrue.print .standard =
      "permit (\n  principal,\n  action,\n  resource\n)\nwhen \x7b true \x7d;\n" ∧
    ∃ (head : String) (clauses : List String),
      { permitWhenTrue with conditions := [] }.printAt .standard 0 = head ++ ";\n" ∧
      permitWhenTrue.printAt .standard 0 = head ++ String.join (clauses.map ("\n" ++ ·)) ++ ";\n" ∧
      clauses.length = permitWhenTrue.conditions.length ∧
      ∀ (i : Nat) (c : Clause), permitWhenTrue.conditions[i]? = some c →
        (clauses[i]? = some c.oneLine ↔ 88 < 9223372036854775808 ∧
          c.oneLine.length + (if i + 1 = permitWhenTrue.conditions.length then 1 else 0) ≤ 88) ∧
        (c.body.Valid → '\n' ∉ c.oneLine.toList) :=
  ⟨by decide +kernel, printAt_clauses permitWhenTrue .standard 0 (by decide)⟩

/-- The greatest width of 64 bits has the columns for the clause, which is broken nevertheless: what
is left of the line is counted as a signed number. -/
theorem print_widest :
    (Clause.mk .whenTrue (.lit (.bool true))).oneLine = "when \x7b true \x7d" ∧
    "when \x7b true \x7d;".length ≤ 18446744073709551615 ∧
    permitWhenTrue.print ⟨18446744073709551615, 2⟩ =
      "permit (\n  principal,\n  action,\n  resource\n)\nwhen \x7b\n  true\n\x7d;\n" :=
  ⟨by decide +kernel, by decide, by decide +kernel⟩

end Policy

end AccessPolicy
