import AccessPolicy.Proofs.Grammar.Spelling

/-!
# Type names are paths

* **A name is its segments** (`Name.joined_segmentsFrom`): cutting a name at every pair of colons
  and joining the pieces gives the name back.
* **A type name is any join of identifiers** (`Name.isTypeName_of_joined`), so an identifier is one
  and so is a type name with one more segment (`Name.isTypeName_extend`).
* `Name.lexemes name` — the tokens of a type name; they spell it (`Name.spells_lexemes`).
-/

namespace AccessPolicy.Name

open Grammar

/-- Segments with pairs of colons between them. -/
def joined : List (List Char) → List Char
  | [] => []
  | [s] => s
  | s :: ss => s ++ ':' :: ':' :: joined ss

/-- Between two segments stands a pair of colons. -/
theorem joined_cons_cons (s t : List Char) (ss : List (List Char)) :
    joined (s :: t :: ss) = s ++ ':' :: ':' :: joined (t :: ss) :=
  rfl

/-- A name has a segment, be it an empty one. -/
theorem segmentsFrom_ne_nil (piece cs : List Char) : segmentsFrom piece cs ≠ [] := by
  fun_induction segmentsFrom piece cs <;> simp_all

/-- Joining the segments of a name gives the name. -/
theorem joined_segmentsFrom (piece cs : List Char) :
    joined (segmentsFrom piece cs) = piece.reverse ++ cs := by
  fun_induction segmentsFrom piece cs with
  | case1 piece => simp [joined]
  | case2 piece c => simp [joined]
  | case3 piece c d cs h ih =>
      obtain ⟨rfl, rfl⟩ := h
      obtain ⟨t, ss, ht⟩ := List.exists_cons_of_ne_nil (segmentsFrom_ne_nil [] cs)
      rw [ht, joined_cons_cons, ← ht, ih]
      simp
  | case4 piece c d cs h ih => simpa using ih

/-- Segments that are joined are the first one and each other one after a pair of colons. -/
theorem joined_cons (s : List Char) (ss : List (List Char)) :
    joined (s :: ss) = s ++ ss.flatMap fun t => ':' :: ':' :: t := by
  induction ss generalizing s with
  | nil => simp [joined]
  | cons t ss ih => simp [joined_cons_cons, ih]

/-- A name with one more segment. -/
def extend (name segment : String) : String :=
  name ++ "::" ++ segment

/-- A name is its first segment, extended by the others. -/
theorem foldl_extend {name s : String} {ss : List String} (h : segments name = s :: ss) :
    ss.foldl extend s = name := by
  have fold : ∀ (ss : List String) (s : String),
      (ss.foldl extend s).toList = s.toList ++ ss.flatMap fun t => ':' :: ':' :: t.toList := by
    intro ss
    induction ss with
    | nil => simp
    | cons t ss ih => simp [ih, extend]
  have hchars : segmentsFrom [] name.toList = s.toList :: ss.map String.toList := by
    have := congrArg (List.map String.toList) h
    simpa [segments, Function.comp_def] using this
  have hjoined := joined_segmentsFrom [] name.toList
  rw [hchars, joined_cons] at hjoined
  refine String.toList_inj.mp ?_
  rw [fold]
  simpa [List.flatMap_map] using hjoined

/-- The tokens of a type name. -/
def lexemes (name : String) : List Lexeme :=
  separated (.sym .pathSep) ((segments name).map fun s => [.ident s])

/-- The tokens of a type name begin with its first segment. -/
theorem lexemes_eq_cons (name : String) : ∃ s ss, segments name = s :: ss ∧
    lexemes name = .ident s :: ss.flatMap fun t => [.sym .pathSep, .ident t] := by
  have hne : segments name ≠ [] := by
    simp [segments, segmentsFrom_ne_nil]
  obtain ⟨s, ss, hs⟩ := List.exists_cons_of_ne_nil hne
  refine ⟨s, ss, hs, ?_⟩
  simp [lexemes, hs, separated, List.flatMap_map]

/-- An identifier starts with a character that may start a name. -/
theorem isStart_of_isIdentChars {s : List Char} (h : isIdentChars s) :
    ∃ c cs, s = c :: cs ∧ isStart c := by
  cases s with
  | nil => cases h
  | cons c cs =>
      simp only [isIdentChars, Bool.and_eq_true] at h
      exact ⟨c, cs, rfl, h.1⟩

/-- Every character of an identifier may go on with a name. -/
theorem isRest_of_isIdentChars {s : List Char} (h : isIdentChars s) : ∀ c ∈ s, isRest c := by
  cases s with
  | nil => cases h
  | cons c cs =>
      simp only [isIdentChars, Bool.and_eq_true, List.all_eq_true] at h
      intro d hd
      rcases List.mem_cons.mp hd with rfl | hd
      · exact isRest_of_isStart h.1
      · exact h.2 d hd

/-- An identifier is one token. -/
theorem spells_ident {s : List Char} (h : isIdentChars s) :
    Spells s [.ident (String.ofList s)] := by
  have hw : Lexeme.Writes (.ident (String.ofList s)) (String.ofList s).toList :=
    .ident (by rwa [isIdent, String.toList_ofList])
  rw [String.toList_ofList] at hw
  exact hw.spells

/-- A character other than a colon belongs to the segment that is being cut. -/
theorem segmentsFrom_cons_of_ne {c : Char} (h : c ≠ ':') (piece cs : List Char) :
    segmentsFrom piece (c :: cs) = segmentsFrom (c :: piece) cs := by
  cases cs with
  | nil => rfl
  | cons d cs => rw [segmentsFrom, if_neg fun hc => h hc.1]

/-- Characters other than colons stay in the segment where they stand. -/
theorem segmentsFrom_append {s : List Char} (h : ∀ c ∈ s, isRest c) (piece cs : List Char) :
    segmentsFrom piece (s ++ cs) = segmentsFrom (s.reverse ++ piece) cs := by
  induction s generalizing piece with
  | nil => rfl
  | cons c s ih =>
      have hc : c ≠ ':' := by
        rintro rfl
        exact absurd (h ':' List.mem_cons_self) (by decide)
      rw [List.cons_append, segmentsFrom_cons_of_ne hc,
        ih fun d hd => h d (List.mem_cons_of_mem c hd)]
      simp

/-- Identifiers that were joined are cut apart again. -/
theorem segmentsFrom_joined {ss : List (List Char)} (h : ∀ s ∈ ss, isIdentChars s)
    (hne : ss ≠ []) : segmentsFrom [] (joined ss) = ss := by
  induction ss with
  | nil => exact absurd rfl hne
  | cons s ss ih =>
      have hs := isRest_of_isIdentChars (h s List.mem_cons_self)
      cases ss with
      | nil =>
          have := segmentsFrom_append hs [] []
          simpa [joined, segmentsFrom] using this
      | cons t ss =>
          rw [joined_cons_cons, segmentsFrom_append hs, segmentsFrom, if_pos ⟨rfl, rfl⟩,
            ih (fun u hu => h u (List.mem_cons_of_mem s hu)) (List.cons_ne_nil t ss)]
          simp

/-- Identifiers with pairs of colons between them are a type name. -/
theorem isTypeName_of_joined {name : String} {ss : List (List Char)}
    (h : ∀ s ∈ ss, isIdentChars s) (hne : ss ≠ []) (hname : name.toList = joined ss) :
    isTypeName name := by
  rw [isTypeName, hname, segmentsFrom_joined h hne]
  exact List.all_eq_true.mpr h

/-- An identifier is a type name. -/
theorem isTypeName_of_isIdent {s : String} (h : isIdent s) : isTypeName s :=
  isTypeName_of_joined (by simpa [isIdent] using h) (List.cons_ne_nil s.toList []) rfl

/-- The first character of identifiers that are joined belongs to one of them. -/
theorem joined_head {ss : List (List Char)} (h : ∀ s ∈ ss, isIdentChars s) :
    ∀ c ∈ (joined ss).head?, isRest c := by
  cases ss with
  | nil => exact fun c hc => nomatch hc
  | cons s ss =>
      obtain ⟨d, ds, rfl, hd⟩ := isStart_of_isIdentChars (h s List.mem_cons_self)
      intro c hc
      have : c = d := by
        cases ss <;> simpa [joined] using hc.symm
      exact this ▸ isRest_of_isStart hd

/-- The last character of identifiers that are joined belongs to one of them. -/
theorem joined_getLast {ss : List (List Char)} (h : ∀ s ∈ ss, isIdentChars s) :
    ∀ a ∈ (joined ss).getLast?, isRest a := by
  induction ss with
  | nil => exact fun c hc => nomatch hc
  | cons s ss ih =>
      intro a ha
      cases ss with
      | nil =>
          exact isRest_of_isIdentChars (h s List.mem_cons_self) a (List.mem_of_getLast? ha)
      | cons t ss =>
          refine ih (fun u hu => h u (List.mem_cons_of_mem s hu)) a ?_
          obtain ⟨d, ds, rfl, -⟩ := isStart_of_isIdentChars (h t (by simp))
          have hne : joined ((d :: ds) :: ss) ≠ [] := by
            cases ss <;> simp [joined]
          rw [joined_cons_cons, Option.mem_def, List.getLast?_append] at ha
          rw [Option.mem_def, List.getLast?_eq_some_getLast hne]
          simpa [List.getLast?_cons, List.getLast?_eq_some_getLast hne] using ha

/-- Identifiers with pairs of colons between them spell their segments. -/
theorem spells_joined {ss : List (List Char)} (h : ∀ s ∈ ss, isIdentChars s) :
    Spells (joined ss)
      (separated (.sym .pathSep) (ss.map fun s => [.ident (String.ofList s)])) := by
  induction ss with
  | nil => exact .nil
  | cons s ss ih =>
      have hs := h s List.mem_cons_self
      have hss : ∀ t ∈ ss, isIdentChars t := fun t ht => h t (List.mem_cons_of_mem s ht)
      cases ss with
      | nil => exact spells_ident hs
      | cons t ss =>
          rw [joined_cons_cons]
          have colons : Spells ([':', ':'] ++ joined (t :: ss)) (.sym .pathSep :: _) :=
            .lexeme (.sym .pathSep) (fun a ha c hc => apart_of_isRest ?_) (ih hss)
          · have := (spells_ident hs).append colons fun a ha c hc => apart_of_isRest ?_
            · simpa [separated] using this
            · cases hc
              rw [isRest_of_isIdentChars hs a (List.mem_of_getLast? ha)]
              decide
          · cases ha
            rw [joined_head hss c hc]
            decide

section typeName

variable {name : String} (h : isTypeName name)

include h

/-- The segments of a type name are identifiers, and joining them gives the name. -/
theorem joined_segments : (∀ s ∈ segmentsFrom [] name.toList, isIdentChars s) ∧
    joined (segmentsFrom [] name.toList) = name.toList :=
  ⟨List.all_eq_true.mp h, joined_segmentsFrom [] name.toList⟩

/-- The last character of a type name is one that a name may go on with. -/
theorem isRest_getLast : ∀ a ∈ name.toList.getLast?, isRest a := by
  obtain ⟨hs, hj⟩ := joined_segments h
  rw [← hj]
  exact joined_getLast hs

end typeName

/-- A segment that is joined to the end stands after a pair of colons. -/
theorem joined_append_singleton {ss : List (List Char)} (hne : ss ≠ []) (s : List Char) :
    joined (ss ++ [s]) = joined ss ++ ':' :: ':' :: s := by
  obtain ⟨t, ss, rfl⟩ := List.exists_cons_of_ne_nil hne
  simp [joined_cons]

/-- The segments of a type name are those before it was extended, and the new one. -/
theorem segmentsFrom_extend {name s : String} (hname : isTypeName name) (hs : isIdent s) :
    segmentsFrom [] (extend name s).toList = segmentsFrom [] name.toList ++ [s.toList] := by
  obtain ⟨hss, hj⟩ := joined_segments hname
  have hall : ∀ t ∈ segmentsFrom [] name.toList ++ [s.toList], isIdentChars t :=
    List.forall_mem_append.mpr ⟨hss, by simpa [isIdent] using hs⟩
  rw [← segmentsFrom_joined hall (by simp), joined_append_singleton (segmentsFrom_ne_nil [] _), hj]
  simp [extend]

/-- A type name with one more segment is a type name. -/
theorem isTypeName_extend {name s : String} (hname : isTypeName name) (hs : isIdent s) :
    isTypeName (extend name s) := by
  rw [isTypeName, segmentsFrom_extend hname hs, List.all_append, List.all_cons, List.all_nil,
    Bool.and_true, Bool.and_eq_true]
  exact ⟨hname, hs⟩

/-- Extending a type name adds a segment at its end. -/
theorem segments_extend {name s : String} (hname : isTypeName name) (hs : isIdent s) :
    segments (extend name s) = segments name ++ [s] := by
  simp [segments, segmentsFrom_extend hname hs]

/-- An identifier is its only segment. -/
theorem segments_of_isIdent {s : String} (h : isIdent s) : segments s = [s] := by
  have hj : segmentsFrom [] (joined [s.toList]) = [s.toList] :=
    segmentsFrom_joined (by simpa [isIdent] using h) (List.cons_ne_nil _ _)
  simpa [segments, joined] using congrArg (List.map String.ofList) hj

/-- An identifier is one token. -/
theorem lexemes_of_isIdent {s : String} (h : isIdent s) : lexemes s = [.ident s] := by
  rw [lexemes, segments_of_isIdent h]
  rfl

/-- A type name spells its tokens. -/
theorem spells_lexemes {name : String} (h : isTypeName name) :
    Spells name.toList (lexemes name) := by
  obtain ⟨hs, hj⟩ := joined_segments h
  rw [← hj]
  simpa [lexemes, segments, Function.comp_def] using spells_joined hs

end AccessPolicy.Name

namespace AccessPolicy

open Grammar

/-- The tokens of a uid. -/
def Uid.lexemes (u : Uid) : List Lexeme :=
  Name.lexemes u.type ++
    [.sym .pathSep, .str (String.ofList (Quoted.encode u.id.toList))]

/-- The tokens of a uid begin with a name. -/
theorem Uid.lexemes_eq_cons (u : Uid) : ∃ s ls, u.lexemes = .ident s :: ls := by
  obtain ⟨s, ss, -, h⟩ := Name.lexemes_eq_cons u.type
  exact ⟨s, _, by rw [Uid.lexemes, h, List.cons_append]⟩

end AccessPolicy
