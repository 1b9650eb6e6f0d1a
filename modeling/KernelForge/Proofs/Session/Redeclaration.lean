import KernelForge.Proofs.Session.Interning
import KernelForge.Proofs.Text.Words

/-!
# Names that are asked for again

A name that a table has is granted to whoever asks for the very variable that is stored under it, and
refused to everyone else, with a description of both variables. Descriptions tell any two shapes
apart. They do not show names, and a variable that was renamed is not the one that is asked for,
whatever its shape.
-/
namespace KernelForge

/-! ## Descriptions -/

/-- What stands behind a number in a list. -/
def behindDecimal (ns : List Nat) : String :=
  match ns with
  | [] => ""
  | _ => ", " ++ ", ".intercalate (ns.map toString)

theorem intercalate_decimals (n : Nat) (ns : List Nat) :
    ", ".intercalate ((n :: ns).map toString) = toString n ++ behindDecimal ns := by
  cases ns with
  | nil => simp [behindDecimal]
  | cons m ns =>
    simp only [List.map_cons, String.intercalate_cons_cons, behindDecimal, String.append_assoc]

theorem decimal_append_inj {m n : Nat} {s t : String}
    (hs : ∀ c, s.toList.head? = some c → ¬ Text.isWordChar c)
    (ht : ∀ c, t.toList.head? = some c → ¬ Text.isWordChar c)
    (h : toString m ++ s = toString n ++ t) : m = n ∧ s = t := by
  have hlist := congrArg String.toList h
  rw [String.toList_append, String.toList_append] at hlist
  obtain ⟨hnumber, hrest⟩ := (Text.isWord_repr m).append_inj (Text.isWord_repr n) hs ht hlist
  have hvalue := congrArg (fun digits => Nat.ofDigitChars 10 digits 0) hnumber
  exact ⟨by simpa using hvalue, String.toList_inj.mp hrest⟩

theorem head?_behindDecimal (ns : List Nat) :
    ∀ c, (behindDecimal ns).toList.head? = some c → ¬ Text.isWordChar c := by
  intro c hc
  cases ns with
  | nil => simp [behindDecimal] at hc
  | cons n ns =>
    obtain rfl : ',' = c := by simpa [behindDecimal] using hc
    decide

theorem decimals_inj {ms ns : List Nat}
    (h : ", ".intercalate (ms.map toString) = ", ".intercalate (ns.map toString)) : ms = ns := by
  have hnil : ∀ n (ns : List Nat), "" ≠ ", ".intercalate ((n :: ns).map toString) := by
    intro n ns hempty
    have hlist := congrArg String.toList hempty
    rw [intercalate_decimals, String.toList_append] at hlist
    exact (Text.isWord_repr n).nonempty (List.append_eq_nil_iff.mp hlist.symm).1
  induction ms generalizing ns with
  | nil =>
    cases ns with
    | nil => rfl
    | cons n ns => exact absurd h (hnil n ns)
  | cons m ms ih =>
    cases ns with
    | nil => exact absurd h.symm (hnil m ms)
    | cons n ns =>
      rw [intercalate_decimals, intercalate_decimals] at h
      obtain ⟨rfl, hrest⟩ :=
        decimal_append_inj (head?_behindDecimal ms) (head?_behindDecimal ns) h
      cases ms with
      | nil =>
        cases ns with
        | nil => rfl
        | cons n ns => simp [behindDecimal] at hrest
      | cons k ms =>
        cases ns with
        | nil => simp [behindDecimal] at hrest
        | cons n ns => rw [ih ((String.append_right_inj ", ").mp hrest)]

namespace Shape

def firstWord : Shape → String
  | scalar k | array k _ | matrix k _ => k.name
  | pointer _ => "pointer"
  | reference _ => "reference"

/-- What the description says after its first word. -/
def furtherWords (name : String) : Shape → String
  | scalar _ => "scalar"
  | array _ length => "array [" ++ (toString length ++ "]")
  | matrix _ dims => "matrix [" ++ (", ".intercalate (dims.map toString) ++ "]")
  | pointer s | reference s => "to " ++ (s.named name).describe

/-- The letter with which the further words begin. -/
def letter : Shape → Char
  | scalar _ => 's'
  | array .. => 'a'
  | matrix .. => 'm'
  | pointer _ | reference _ => 't'

theorem isWord_firstWord (s : Shape) : Text.IsWord s.firstWord.toList := by
  cases s with
  | scalar k | array k | matrix k => exact k.isWord_name
  | pointer => exact Text.isWord_of_isIdentifier (s := "pointer") (by decide)
  | reference => exact Text.isWord_of_isIdentifier (s := "reference") (by decide)

theorem describe_named (s : Shape) (name : String) :
    (s.named name).describe = s.firstWord ++ (" " ++ s.furtherWords name) := by
  rw [← String.toList_inj]
  cases s <;> simp [named, Variable.describe, Variable.kind, Variable.formName, firstWord, furtherWords]

theorem head?_furtherWords (s : Shape) (name : String) :
    (s.furtherWords name).toList.head? = some s.letter := by
  cases s <;> simp [furtherWords, letter]

/-- A description does not depend on the name. -/
theorem describe_named_eq (s : Shape) (m n : String) :
    (s.named m).describe = (s.named n).describe := by
  induction s with
  | pointer s ih | reference s ih => simp only [named, Variable.describe, ih]
  | _ => rfl

/-- Equal descriptions have the same first word, and the same after it. -/
theorem words_of_describe {s t : Shape} {m n : String}
    (h : (s.named m).describe = (t.named n).describe) :
    s.firstWord = t.firstWord ∧ s.letter = t.letter ∧ s.furtherWords m = t.furtherWords n := by
  have hblank : ∀ (s : Shape) (m : String) (c : Char),
      (" " ++ s.furtherWords m).toList.head? = some c → ¬ Text.isWordChar c := by
    intro s m c hc
    obtain rfl : ' ' = c := by simpa using hc
    decide
  have hlist : s.firstWord.toList ++ (" " ++ s.furtherWords m).toList =
      t.firstWord.toList ++ (" " ++ t.furtherWords n).toList := by
    rw [← String.toList_append, ← String.toList_append, ← describe_named, ← describe_named, h]
  obtain ⟨hfirst, hrest⟩ := s.isWord_firstWord.append_inj t.isWord_firstWord
    (hblank s m) (hblank t n) hlist
  have hfurther := (String.append_right_inj " ").mp (String.toList_inj.mp hrest)
  refine ⟨String.toList_inj.mp hfirst, ?_, hfurther⟩
  have hletter := congrArg (fun words => words.toList.head?) hfurther
  simpa only [head?_furtherWords, Option.some.injEq] using hletter

/-- Descriptions tell shapes apart. -/
theorem describe_inj {s t : Shape} {m n : String} :
    (s.named m).describe = (t.named n).describe ↔ s = t := by
  constructor
  · intro h
    induction s generalizing t with
    | scalar k =>
      obtain ⟨hfirst, hletter, -⟩ := words_of_describe h
      cases t with
      | scalar l => rw [Kind.name_injective hfirst]
      | _ => simp [letter] at hletter
    | array k length =>
      obtain ⟨hfirst, hletter, hfurther⟩ := words_of_describe h
      cases t with
      | array l other =>
        have hbracket : ∀ c, "]".toList.head? = some c → ¬ Text.isWordChar c := by
          intro c hc
          obtain rfl : ']' = c := by simpa using hc
          decide
        obtain ⟨rfl, -⟩ := decimal_append_inj hbracket hbracket
          ((String.append_right_inj "array [").mp hfurther)
        rw [Kind.name_injective hfirst]
      | _ => simp [letter] at hletter
    | matrix k dims =>
      obtain ⟨hfirst, hletter, hfurther⟩ := words_of_describe h
      cases t with
      | matrix l others =>
        have hdims := (String.append_left_inj "]").mp
          ((String.append_right_inj "matrix [").mp hfurther)
        rw [Kind.name_injective hfirst, decimals_inj hdims]
      | _ => simp [letter] at hletter
    | pointer s ih =>
      obtain ⟨hfirst, hletter, hfurther⟩ := words_of_describe h
      cases t with
      | pointer t => rw [ih ((String.append_right_inj "to ").mp hfurther)]
      | reference t => simp [firstWord] at hfirst
      | _ => simp [letter] at hletter
    | reference s ih =>
      obtain ⟨hfirst, hletter, hfurther⟩ := words_of_describe h
      cases t with
      | reference t => rw [ih ((String.append_right_inj "to ").mp hfurther)]
      | pointer t => simp [firstWord] at hfirst
      | _ => simp [letter] at hletter
  · rintro rfl
    exact s.describe_named_eq m n

end Shape

/-! ## Redeclarations -/

namespace Session

variable {s : Session} {c : Nat} {name : String} {id : NodeId}

/-- What is stored under a name is storage of some shape, under this name or the one that an update
gave it. -/
theorem exists_stored (hs : s.Sound) (hl : (s.context c).lookup name = some id) :
    ∃ (shape : Shape) (stored : String), s.content? ⟨c, id⟩ = some (shape.named stored) := by
  obtain ⟨v, hv, hn⟩ := (hs c).symbol name id hl
  obtain ⟨shape, stored, rfl⟩ := Variable.exists_named hn
  exact ⟨shape, stored, hv⟩

/-- A request for a name that the table has is granted if it asks for the variable that is stored,
and refused otherwise. -/
theorem tryIntern_of_stored (hl : (s.context c).lookup name = some id) {shape : Shape}
    {stored : String} (hv : s.content? ⟨c, id⟩ = some (shape.named stored)) (requested : Shape) :
    tryIntern c name requested s =
      if shape = requested ∧ stored = name then (.ok ⟨c, id⟩, s)
      else (.error (.shapeMismatch name (shape.named stored) (requested.named name)), s) := by
  rw [tryIntern_apply, Context.tryIntern_of_lookup hl hv]
  simp only [Shape.named_inj]
  split_ifs
  · rw [replace_context]
    rfl
  · rw [replace_context]
    rfl

end Session

namespace Workspace

/-- After any actions, a name that the table of a context has stands for storage of some shape, under
that name or the one that an update gave it. `tryIntern` answers with its node exactly when that
shape is asked for and the name was not changed. Otherwise it does nothing and reports both
variables, and their descriptions differ exactly when the shapes do. -/
theorem run_tryIntern (role : Role) (provenances : List String) (actions : List Action) :
    let w := (new role provenances).run actions
    ∀ c name id, (w.session.context c).lookup name = some id →
      ∃ (shape : Shape) (stored : String),
        w.session.content? ⟨c, id⟩ = some (shape.named stored) ∧
        ∀ requested,
          (Session.tryIntern c name requested w.session =
            if shape = requested ∧ stored = name then (.ok ⟨c, id⟩, w.session)
            else (.error (.shapeMismatch name (shape.named stored) (requested.named name)),
              w.session)) ∧
          ((shape.named stored).describe = (requested.named name).describe ↔
            shape = requested) := by
  intro w c name id hl
  have hw : w.Valid := run_valid (valid_new role provenances) actions
  obtain ⟨shape, stored, hv⟩ := Session.exists_stored hw.sound hl
  exact ⟨shape, stored, hv, fun requested =>
    ⟨Session.tryIntern_of_stored hl hv requested, Shape.describe_inj⟩⟩

/-- An array is not granted under the name of a scalar. -/
theorem run_tryIntern_array :
    let w := (new .brisc ["a"]).run [.intern 0 "x" (.scalar .i32)]
    let e := SymbolError.shapeMismatch "x" (.scalar .i32 "x") (.array .i32 "x" 4)
    (w.session.context 0).lookup "x" = some ⟨0⟩ ∧
    Session.tryIntern 0 "x" (.array .i32 4) w.session = (.error e, w.session) ∧
    e.message = "`x` is already declared as i32 scalar, cannot redeclare as i32 array [4]" := by
  intro w e
  have hl : (w.session.context 0).lookup "x" = some ⟨0⟩ := rfl
  have hcontent : w.session.content? ⟨0, ⟨0⟩⟩ = some ((Shape.scalar .i32).named "x") := rfl
  obtain ⟨shape, stored, hv, hrequest⟩ :=
    run_tryIntern .brisc ["a"] [.intern 0 "x" (.scalar .i32)] 0 "x" ⟨0⟩ hl
  obtain ⟨rfl, rfl⟩ := Shape.named_inj.mp (Option.some.inj (hcontent.symm.trans hv))
  have hrefused := (hrequest (.array .i32 4)).1
  rw [if_neg (by simp)] at hrefused
  exact ⟨hl, hrefused, by decide⟩

/-- A scalar that was renamed is not granted under its first name, although its shape is the one that
is asked for, and the two descriptions are the same. -/
theorem tryIntern_refuses_same_shape :
    let w := (new .brisc ["a"]).run
      [.intern 0 "x" (.scalar .i32), .update 0 0 fun _ => .scalar .i32 "z"]
    (w.session.context 0).lookup "x" = some ⟨0⟩ ∧
    w.session.content? ⟨0, ⟨0⟩⟩ = some ((Shape.scalar .i32).named "z") ∧
    (Session.tryIntern 0 "x" (.scalar .i32) w.session).1 = .error
      (.shapeMismatch "x" ((Shape.scalar .i32).named "z") ((Shape.scalar .i32).named "x")) ∧
    ((Shape.scalar .i32).named "z").describe = ((Shape.scalar .i32).named "x").describe :=
  ⟨rfl, rfl, rfl, rfl⟩

end Workspace

end KernelForge
