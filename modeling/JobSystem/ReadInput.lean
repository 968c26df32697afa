import Mathlib.Algebra.Group.Int.Defs
import Mathlib.Data.List.Basic
import Mathlib.Data.List.TakeWhile
import Mathlib.Tactic.Common

/-! `ReadInput` of `main.cpp` over `std::stoi`: which argument strings become a thread count, which
end the program with a message, and which let an exception escape. -/
namespace JobSystem

/-- `isspace` in the locale that a program starts in. -/
def isSpace (c : Char) : Bool := c.toNat = 32 || 9 ≤ c.toNat && c.toNat ≤ 13

/-- The value of a list of digits, the first one counting most. -/
def decimal (digits : List Char) : ℕ := digits.foldl (fun v c => 10 * v + (c.toNat - '0'.toNat)) 0

inductive Sign where
  | none | plus | minus
  deriving DecidableEq

def Sign.chars : Sign → List Char
  | .none => []
  | .plus => ['+']
  | .minus => ['-']

def Sign.signed : Sign → ℕ → ℤ
  | .minus, v => -v
  | _, v => v

def splitSign : List Char → Sign × List Char
  | '+' :: s => (.plus, s)
  | '-' :: s => (.minus, s)
  | s => (.none, s)

inductive StoiError where
  | invalidArgument | outOfRange
  deriving DecidableEq

/-- The range of an `int`. -/
def FitsInt (v : ℤ) : Prop := -2 ^ 31 ≤ v ∧ v < 2 ^ 31

instance (v : ℤ) : Decidable (FitsInt v) := inferInstanceAs (Decidable (_ ∧ _))

/-- `std::stoi`: skip whitespace, take an optional sign and the longest prefix of digits, and leave
the rest of the string unread. -/
def stoi (s : List Char) : Except StoiError Int32 :=
  let (sign, t) := splitSign (s.dropWhile isSpace)
  let digits := t.takeWhile Char.isDigit
  if digits = [] then .error .invalidArgument
  else if FitsInt (sign.signed (decimal digits)) then
    .ok (.ofInt (sign.signed (decimal digits)))
  else .error .outOfRange

/-- How a call of `ReadInput` ends. -/
inductive Outcome where
  | returns (inputThreadCount : Int32)
  | exit (status : ℕ) (printed : String)
  /-- The exception goes on to the caller. -/
  | throws (e : StoiError)
  deriving DecidableEq

def readInput (argv : List (List Char)) : Outcome :=
  if h : argv.length ≥ 2 then
    match stoi argv[1] with
    | .error .invalidArgument => .exit 1 "Invalid argument."
    | .error e => .throws e
    | .ok inputThreadCount =>
      if inputThreadCount ≤ 0 then .exit 1 "Desired thread count must be bigger than zero."
      else .returns inputThreadCount
  else .returns 0

/-- The string is whitespace, a sign, digits, and a rest that does not go on with a digit. -/
structure Scans (s : List Char) (sign : Sign) (digits rest : List Char) : Prop where
  eq : ∃ ws : List Char, (∀ c ∈ ws, isSpace c) ∧ s = ws ++ (sign.chars ++ (digits ++ rest))
  ne_nil : digits ≠ []
  digit : ∀ c ∈ digits, c.isDigit
  rest : ∀ c ∈ rest.head?, ¬ c.isDigit

/-- The whole string denotes `v`, apart from leading whitespace and a sign. -/
def Numeral (s : List Char) (v : ℤ) : Prop :=
  ∃ sign digits, Scans s sign digits [] ∧ sign ≠ .minus ∧ v = decimal digits

/-- A positive `int` is returned for its numeral, and any other string ends the program with one of
the two messages. -/
def Validated (s : List Char) : Outcome → Prop
  | .returns v => Numeral s v.toInt ∧ 0 < v.toInt
  | .exit status printed => status = 1 ∧
    printed ∈ ["Invalid argument.", "Desired thread count must be bigger than zero."] ∧
    ∀ v, Numeral s v → 0 < v → ¬ FitsInt v
  | .throws _ => False

theorem not_isSpace_of_isDigit {c : Char} (h : c.isDigit) : ¬ isSpace c := by
  rw [Char.isDigit_iff_toNat] at h
  have h0 : '0'.toNat = 48 := rfl
  simp [isSpace]
  omega

theorem dropWhile_space {ws t : List Char} (hw : ∀ c ∈ ws, isSpace c)
    (ht : ∀ c ∈ t.head?, ¬ isSpace c) : (ws ++ t).dropWhile isSpace = t := by
  rw [List.dropWhile_append_of_pos hw]
  cases t with
  | nil => rfl
  | cons c t => exact List.dropWhile_cons_of_neg (ht c rfl)

theorem splitSign_of_digit {t : List Char} (ht : ∀ c ∈ t.head?, c.isDigit) :
    splitSign t = (.none, t) := by
  unfold splitSign
  split
  · exact absurd (ht '+' rfl) (by decide)
  · exact absurd (ht '-' rfl) (by decide)
  · rfl

theorem splitSign_chars (sign : Sign) {t : List Char} (ht : ∀ c ∈ t.head?, c.isDigit) :
    splitSign (sign.chars ++ t) = (sign, t) := by
  cases sign with
  | none => exact splitSign_of_digit ht
  | plus | minus => rfl

theorem head_append_digits {digits rest : List Char} (hne : digits ≠ [])
    (hd : ∀ c ∈ digits, c.isDigit) : ∀ c ∈ (digits ++ rest).head?, c.isDigit := by
  intro c hc
  cases digits with
  | nil => exact absurd rfl hne
  | cons d digits =>
    obtain rfl := Option.some.inj hc
    exact hd _ List.mem_cons_self

theorem takeWhile_digits {digits rest : List Char} (hd : ∀ c ∈ digits, c.isDigit)
    (hr : ∀ c ∈ rest.head?, ¬ c.isDigit) :
    (digits ++ rest).takeWhile Char.isDigit = digits := by
  rw [List.takeWhile_append_of_pos hd]
  cases rest with
  | nil => simp
  | cons c rest => simp [List.takeWhile_cons_of_neg (hr c rfl)]

/-- What the scanner reads off a string of the given parts. -/
theorem Scans.split {s digits rest : List Char} {sign : Sign} (h : Scans s sign digits rest) :
    splitSign (s.dropWhile isSpace) = (sign, digits ++ rest) := by
  obtain ⟨ws, hw, rfl⟩ := h.eq
  have hhead : ∀ c ∈ (digits ++ rest).head?, c.isDigit := head_append_digits h.ne_nil h.digit
  rw [dropWhile_space hw, splitSign_chars sign hhead]
  cases sign with
  | none => exact fun c hc => not_isSpace_of_isDigit (hhead c hc)
  | plus | minus =>
    intro c hc
    obtain rfl := Option.some.inj hc
    decide

theorem Scans.stoi_eq {s digits rest : List Char} {sign : Sign} (h : Scans s sign digits rest) :
    stoi s = if FitsInt (sign.signed (decimal digits)) then
      .ok (.ofInt (sign.signed (decimal digits))) else .error .outOfRange := by
  rw [stoi, h.split]
  simp only [takeWhile_digits h.digit h.rest, if_neg h.ne_nil]

/-- The parts are determined by the string. -/
theorem Scans.unique {s digits rest digits' rest' : List Char} {sign sign' : Sign}
    (h : Scans s sign digits rest) (h' : Scans s sign' digits' rest') :
    sign = sign' ∧ digits = digits' ∧ rest = rest' := by
  obtain ⟨hs, ht⟩ := Prod.ext_iff.mp (h.split.symm.trans h'.split)
  have hd : digits = digits' := by
    rw [← takeWhile_digits h.digit h.rest, ← takeWhile_digits h'.digit h'.rest]
    exact congrArg _ ht
  subst hd
  exact ⟨hs, rfl, List.append_cancel_left ht⟩

theorem splitSign_eq (t : List Char) : (splitSign t).1.chars ++ (splitSign t).2 = t := by
  unfold splitSign
  split <;> rfl

/-- The scanner finds a number whenever there is a digit for it. -/
theorem exists_scans {s : List Char} (h : stoi s ≠ .error .invalidArgument) :
    ∃ sign digits rest, Scans s sign digits rest := by
  let t := (splitSign (s.dropWhile isSpace)).2
  have hs : s = s.takeWhile isSpace ++ ((splitSign (s.dropWhile isSpace)).1.chars ++
      (t.takeWhile Char.isDigit ++ t.dropWhile Char.isDigit)) := by
    rw [List.takeWhile_append_dropWhile, splitSign_eq, List.takeWhile_append_dropWhile]
  refine ⟨_, t.takeWhile Char.isDigit, t.dropWhile Char.isDigit, ⟨_, ?_, hs⟩, ?_, ?_, ?_⟩
  · exact fun c hc => List.mem_takeWhile_imp hc
  · exact fun hn => h (if_pos hn)
  · exact fun c hc => List.mem_takeWhile_imp hc
  · intro c hc
    have hd := List.head?_dropWhile_not Char.isDigit t
    rw [Option.mem_def.mp hc] at hd
    rw [hd]
    exact Bool.false_ne_true

theorem toInt_ofInt {v : ℤ} (h : FitsInt v) : (Int32.ofInt v).toInt = v :=
  Int32.toInt_ofInt_of_le h.1 h.2

/-- The outcome for a string that begins with the number `v`. -/
theorem Scans.readInput_eq {s digits rest : List Char} {sign : Sign} (program : List Char)
    (args : List (List Char)) (h : Scans s sign digits rest) :
    readInput (program :: s :: args) =
      if FitsInt (sign.signed (decimal digits)) then
        if sign.signed (decimal digits) ≤ 0 then
          .exit 1 "Desired thread count must be bigger than zero."
        else .returns (.ofInt (sign.signed (decimal digits)))
      else .throws .outOfRange := by
  have hlen : (program :: s :: args).length ≥ 2 := by simp
  rw [readInput, dif_pos hlen, List.getElem_cons_succ, List.getElem_cons_zero, h.stoi_eq]
  by_cases hf : FitsInt (sign.signed (decimal digits))
  · have hle : Int32.ofInt (sign.signed (decimal digits)) ≤ 0 ↔
        sign.signed (decimal digits) ≤ 0 := by
      rw [Int32.le_iff_toInt_le, toInt_ofInt hf]
      rfl
    simp only [if_pos hf, hle]
  · simp only [if_neg hf]

/-- With no number at the front of the string, the first message is printed. -/
theorem readInput_of_invalid {s : List Char} (program : List Char) (args : List (List Char))
    (h : stoi s = .error .invalidArgument) :
    readInput (program :: s :: args) = .exit 1 "Invalid argument." := by
  have hlen : (program :: s :: args).length ≥ 2 := by simp
  rw [readInput, dif_pos hlen, List.getElem_cons_succ, List.getElem_cons_zero, h]

theorem Scans.pos_numeral {s digits rest : List Char} {sign : Sign} {v : ℤ}
    (h : Scans s sign digits rest) (hv : 0 < v) :
    Numeral s v ↔ rest = [] ∧ v = sign.signed (decimal digits) := by
  constructor
  · rintro ⟨sign', digits', h', hs, rfl⟩
    obtain ⟨rfl, rfl, rfl⟩ := h.unique h'
    refine ⟨rfl, ?_⟩
    cases sign with
    | minus => exact absurd rfl hs
    | none | plus => rfl
  · rintro ⟨rfl, rfl⟩
    refine ⟨sign, digits, h, ?_, ?_⟩
    · rintro rfl
      exact absurd hv (Int.not_lt.mpr (Int.neg_nonpos_of_nonneg (Int.natCast_nonneg _)))
    · cases sign with
      | minus => exact absurd hv (Int.not_lt.mpr (Int.neg_nonpos_of_nonneg (Int.natCast_nonneg _)))
      | none | plus => rfl

/-- The argument is validated exactly when the number at its front, if there is one, fits an
`int` and is not positive or makes up the rest of the string. -/
theorem validated_readInput (program s : List Char) (args : List (List Char)) :
    Validated s (readInput (program :: s :: args)) ↔
      ∀ sign digits rest, Scans s sign digits rest →
        FitsInt (sign.signed (decimal digits)) ∧
          (sign.signed (decimal digits) ≤ 0 ∨ rest = []) := by
  by_cases hi : stoi s = .error .invalidArgument
  · have hno : ∀ sign digits rest, ¬ Scans s sign digits rest := by
      intro sign digits rest h
      have he := h.stoi_eq.symm.trans hi
      split at he <;> cases he
    rw [readInput_of_invalid program args hi]
    refine iff_of_true ⟨rfl, by simp, ?_⟩ fun sign digits rest h => absurd h (hno _ _ _)
    rintro v ⟨sign, digits, h, -⟩
    exact absurd h (hno _ _ _)
  · obtain ⟨sign, digits, rest, h⟩ := exists_scans hi
    have hall : (∀ sign digits rest, Scans s sign digits rest →
        FitsInt (sign.signed (decimal digits)) ∧
          (sign.signed (decimal digits) ≤ 0 ∨ rest = [])) ↔
        FitsInt (sign.signed (decimal digits)) ∧
          (sign.signed (decimal digits) ≤ 0 ∨ rest = []) := by
      refine ⟨fun hc => hc _ _ _ h, fun hc sign' digits' rest' h' => ?_⟩
      obtain ⟨rfl, rfl, rfl⟩ := h.unique h'
      exact hc
    rw [hall, h.readInput_eq program args]
    by_cases hf : FitsInt (sign.signed (decimal digits))
    · by_cases hle : sign.signed (decimal digits) ≤ 0
      · rw [if_pos hf, if_pos hle]
        refine iff_of_true ⟨rfl, by simp, fun v hn hv => ?_⟩ ⟨hf, .inl hle⟩
        obtain ⟨-, rfl⟩ := (h.pos_numeral hv).mp hn
        omega
      · rw [if_pos hf, if_neg hle]
        have hpos : 0 < sign.signed (decimal digits) := by omega
        show Numeral s (Int32.ofInt _).toInt ∧ 0 < (Int32.ofInt _).toInt ↔ _
        rw [toInt_ofInt hf, h.pos_numeral hpos]
        simp [hf, hle, hpos]
    · rw [if_neg hf]
      exact iff_of_false id fun hc => hf hc.1

/-- A number too large for an `int` lets the exception escape, and letters behind a number are
not noticed. -/
theorem not_validated_readInput :
    ¬ Validated "99999999999".toList (readInput ["jobs".toList, "99999999999".toList]) ∧
      ¬ Validated "12abc".toList (readInput ["jobs".toList, "12abc".toList]) := by
  have hlarge : readInput ["jobs".toList, "99999999999".toList] = .throws .outOfRange := by decide
  have htail : readInput ["jobs".toList, "12abc".toList] = .returns 12 := by decide
  have hscan : Scans "12abc".toList .none ['1', '2'] ['a', 'b', 'c'] :=
    ⟨⟨[], by simp, rfl⟩, by simp, by simp, by simp⟩
  rw [hlarge, htail]
  refine ⟨id, fun h => ?_⟩
  have hn := (hscan.pos_numeral h.2).mp h.1
  exact absurd hn.1 (List.cons_ne_nil _ _)

end JobSystem
