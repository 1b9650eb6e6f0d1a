import KernelForge.Proofs.Render.Bare
import KernelForge.Proofs.Render.Layout

/-!
# What a line says

The last character of a line tells a statement from a header and from the end of a block, and the
first word of a header tells the constructs apart. What stands between a header's words can be taken
out again, since no expression has a semicolon or a brace in it.
-/
namespace KernelForge

open Text

/-- A line for itself. A header keeps what it says about its expressions. -/
inductive Mark
  | expr (text : String)
  | includeFile (path : HeaderPath)
  | forLoop (init cond step : String)
  | whileLoop (cond : String)
  | firstArm (cond : String)
  | nextArm (cond : Option String)
  | switch (subject : String)
  | case (value : String)
  | default
  | function (header : String)
  | endBlock
  | endCase

namespace Mark

/-- What stands between two fixed texts. -/
def between? (before after : String) (cs : List Char) : Option String :=
  if before.toList.isPrefixOf cs then
    some (String.ofList ((cs.drop before.toList.length).take
      (cs.length - before.toList.length - after.toList.length)))
  else none

/-- The text up to the first semicolon, and the text behind it, without the blanks around it. -/
def cut (s : String) : String × String :=
  (String.ofList (s.toList.takeWhile (· ≠ ';')).dropLast,
    String.ofList ((s.toList.dropWhile (· ≠ ';')).drop 2))

def clauses (s : String) : Mark :=
  let (init, rest) := cut s
  let (cond, step) := cut rest
  .forLoop init cond step

def ofHeader (cs : List Char) : Mark :=
  if cs = "default: \x7b".toList then .default
  else if cs = "\x7d else \x7b".toList then .nextArm none
  else
    ((between? "for ( " " ) \x7b" cs).map clauses).getD <|
    ((between? "while ( " " ) \x7b" cs).map whileLoop).getD <|
    ((between? "if ( " " ) \x7b" cs).map firstArm).getD <|
    ((between? "\x7d else if ( " " ) \x7b" cs).map fun cond => nextArm (some cond)).getD <|
    ((between? "switch ( " " ) \x7b" cs).map switch).getD <|
    ((between? "case " " : \x7b" cs).map case).getD <| .function (String.ofList cs)

def ofPath (cs : List Char) : Mark :=
  let path := String.ofList cs.tail.dropLast
  .includeFile (if cs.head? = some '<' then .system path else .localFile path)

def ofLine (cs : List Char) : Mark :=
  match cs.getLast? with
  | some ';' => if cs.head? = some '\x7d' then .endCase else .expr (String.ofList cs.dropLast)
  | some '\x7b' => ofHeader cs
  | some '\x7d' => .endBlock
  | _ => ofPath (cs.drop "#include ".toList.length)

/-! ## Reading lines back -/

theorem between?_append (before s after : String) :
    between? before after (before ++ s ++ after).toList = some s := by
  have hprefix : before.toList.isPrefixOf (before ++ s ++ after).toList := by
    rw [List.isPrefixOf_iff_prefix, String.append_assoc, String.toList_append]
    exact List.prefix_append _ _
  have hlength : (before ++ s ++ after).toList.length - before.toList.length -
      after.toList.length = s.toList.length := by
    simp only [String.toList_append, List.length_append]
    omega
  have hdrop : (before ++ s ++ after).toList.drop before.toList.length =
      s.toList ++ after.toList := by
    rw [String.append_assoc, String.toList_append, List.drop_left, String.toList_append]
  rw [between?, if_pos hprefix, hlength, hdrop, List.take_left, String.ofList_toList]

theorem ofLine_expr {text : String} (h : IsBare text) : ofLine (text ++ ";").toList = .expr text := by
  have hhead : (text.toList ++ [';']).head? ≠ some '\x7d' := by
    intro hhead
    have hmem := List.mem_of_head? hhead
    rw [List.mem_append, List.mem_singleton] at hmem
    rcases hmem with hmem | hmem
    · exact h _ hmem (by simp)
    · exact absurd hmem (by decide)
  have hlist : (text ++ ";").toList = text.toList ++ [';'] := by simp
  rw [hlist, ofLine, List.getLast?_concat]
  simp only [if_neg hhead, List.dropLast_concat, String.ofList_toList]

theorem ofLine_path (path : HeaderPath) :
    ofLine ("#include " ++ path.text).toList = .includeFile path := by
  cases path <;> simp [ofLine, ofPath, HeaderPath.text, List.getLast?_cons, List.getLast?_append]

theorem ofLine_endBlock : ofLine "\x7d".toList = .endBlock := rfl

theorem ofLine_default : ofLine "default: \x7b".toList = .default := rfl

theorem ofLine_header {cs : List Char} (h : cs.getLast? = some '\x7b') : ofLine cs = ofHeader cs := by
  simp only [ofLine, h]

section

attribute [local simp] List.getLast?_cons List.getLast?_append ofHeader between?

theorem ofLine_while (cond : String) :
    ofLine (Outline.whileHeader cond).toList = .whileLoop cond := by
  rw [ofLine_header (by simp [Outline.whileHeader])]
  simp [Outline.whileHeader]

theorem ofLine_switch (subject : String) :
    ofLine (Outline.switchHeader subject).toList = .switch subject := by
  rw [ofLine_header (by simp [Outline.switchHeader])]
  simp [Outline.switchHeader]

theorem ofLine_case (value : String) : ofLine (Outline.caseHeader value).toList = .case value := by
  rw [ofLine_header (by simp [Outline.caseHeader])]
  simp [Outline.caseHeader]

theorem ofLine_firstArm (cond : String) :
    ofLine (Outline.armHeader true (some cond)).toList = .firstArm cond := by
  rw [ofLine_header (by simp [Outline.armHeader])]
  simp [Outline.armHeader]

theorem ofLine_nextArm (cond : Option String) :
    ofLine (Outline.armHeader false cond).toList = .nextArm cond := by
  cases cond with
  | none => rfl
  | some cond =>
    rw [ofLine_header (by simp [Outline.armHeader])]
    simp [Outline.armHeader]

theorem cut_append {s : String} (h : IsBare s) (rest : String) :
    cut (s ++ " ; " ++ rest) = (s, rest) := by
  have hs : ∀ c ∈ s.toList ++ [' '], (decide (c ≠ ';')) = true := by
    intro c hc
    rw [List.mem_append, List.mem_singleton] at hc
    rcases hc with hc | rfl
    · have := h c hc
      simp_all
    · decide
  have hlist : (s ++ " ; " ++ rest).toList = (s.toList ++ [' ']) ++ ';' :: ' ' :: rest.toList := by
    simp
  rw [cut, hlist, List.takeWhile_append_of_pos hs, List.dropWhile_append_of_pos hs]
  simp

theorem ofLine_for {init cond : String} (hinit : IsBare init) (hcond : IsBare cond) (step : String) :
    ofLine (Outline.forHeader init cond step).toList = .forLoop init cond step := by
  have hclauses : clauses (init ++ " ; " ++ (cond ++ " ; " ++ step)) = .forLoop init cond step := by
    rw [clauses, cut_append hinit]
    simp only [cut_append hcond]
  have hheader : Outline.forHeader init cond step =
      "for ( " ++ (init ++ " ; " ++ (cond ++ " ; " ++ step)) ++ " ) \x7b" := by
    simp only [Outline.forHeader, String.append_assoc]
  rw [ofLine_header (by simp [Outline.forHeader]), Mark.ofHeader,
    if_neg (by simp [Outline.forHeader]), if_neg (by simp [Outline.forHeader]), hheader,
    between?_append]
  exact hclauses

/-- The words that the types of results begin with. -/
def typeWords : List String :=
  ["void", "int8_t", "int16_t", "int32_t", "int64_t", "uint8_t", "uint16_t", "uint32_t", "uint64_t",
    "float", "double", "bool"]

theorem exists_typeWord (signature : Signature) (params : List Slot) :
    ∃ word ∈ typeWords, ∃ rest, functionHeader signature params = word ++ rest ++ "\x7b" := by
  have hkeyword : ∀ k : Kind, k.keyword ∈ typeWords := by
    intro k
    cases k <;> decide
  have hresult : ∃ word ∈ typeWords, ∃ rest, signature.resultText = word ++ rest := by
    unfold Signature.resultText
    cases signature.result with
    | none => exact ⟨"void", by decide, "", rfl⟩
    | some t =>
      obtain ⟨kind, form⟩ := t
      cases form with
      | scalar => exact ⟨_, hkeyword kind, "", by simp [ValueType.text]⟩
      | _ => exact ⟨_, hkeyword kind, _, rfl⟩
  obtain ⟨word, hword, rest, hrest⟩ := hresult
  refine ⟨word, hword, rest ++ " " ++ signature.name ++ (if params.isEmpty then "()" else
    "( " ++ ", ".intercalate (params.map Slot.parameter) ++ " )") ++ " ", ?_⟩
  simp [functionHeader, hrest, String.append_assoc]

theorem head?_functionHeader (signature : Signature) (params : List Slot) :
    ∃ c, (functionHeader signature params).toList.head? = some c ∧ c ≠ ' ' ∧ c ≠ '\x7d' := by
  obtain ⟨word, hword, rest, hheader⟩ := exists_typeWord signature params
  rw [hheader, String.append_assoc, String.toList_append]
  simp only [typeWords, List.mem_cons, List.not_mem_nil, or_false] at hword
  rcases hword with rfl | rfl | rfl | rfl | rfl | rfl | rfl | rfl | rfl | rfl | rfl | rfl <;>
    exact ⟨_, rfl, by decide, by decide⟩

theorem newline_functionHeader {signature : Signature} (hname : isIdentifier signature.name)
    (params : List Slot) : '\n' ∉ (functionHeader signature params).toList := by
  have harguments : IsBare (if params.isEmpty then "()" else
      "( " ++ ", ".intercalate (params.map Slot.parameter) ++ " )") := by
    split
    · decide
    · refine isBare_append.mpr ⟨isBare_append.mpr ⟨by decide, ?_⟩, by decide⟩
      refine isBare_intercalate (by decide) fun p hp => ?_
      obtain ⟨slot, -, rfl⟩ := List.mem_map.mp hp
      exact slot.isBare_parameter
  have hbare := isBare_append.mpr ⟨isBare_append.mpr ⟨isBare_append.mpr
    ⟨signature.isBare_resultText, (by decide : IsBare " ")⟩, isBare_of_isIdentifier hname⟩,
    harguments⟩
  intro hmem
  rw [functionHeader, String.toList_append, List.mem_append] at hmem
  rcases hmem with hmem | hmem
  · exact hbare.newline hmem
  · exact absurd hmem (by decide)

theorem ofHeader_of_typeWord {word : String} (hword : word ∈ typeWords) (cs : List Char) :
    ofHeader (word.toList ++ cs) = .function (String.ofList (word.toList ++ cs)) := by
  simp only [typeWords, List.mem_cons, List.not_mem_nil, or_false] at hword
  rcases hword with rfl | rfl | rfl | rfl | rfl | rfl | rfl | rfl | rfl | rfl | rfl | rfl <;> rfl

theorem ofLine_function (signature : Signature) (params : List Slot) :
    ofLine (functionHeader signature params).toList =
      .function (functionHeader signature params) := by
  obtain ⟨word, hword, rest, hheader⟩ := exists_typeWord signature params
  have h := ofHeader_of_typeWord hword (rest ++ "\x7b").toList
  rw [← String.toList_append, ← String.append_assoc, ← hheader, String.ofList_toList] at h
  rw [ofLine_header (by simp [hheader]), h]

end

end Mark

end KernelForge
