import NetworkSystemProgramming.Texts

/-!
# Numeric arguments

`getNum`, `getInt` and `getLong` of `get_num.c`, which all programs of the repository share,
over `strtol` in the locale "C" with a `long` of 64 bits. A failure ends the program with a
message.
-/

namespace Arguments

open ByteBuffers Texts

def GN_NONNEG : Nat := 0o1
def GN_GT_0 : Nat := 0o2
def GN_ANY_BASE : Nat := 0o100
def GN_BASE_8 : Nat := 0o200
def GN_BASE_16 : Nat := 0o400

def LONG_MAX : Int := 2 ^ 63 - 1
def LONG_MIN : Int := -2 ^ 63
def INT_MAX : Int := 2 ^ 31 - 1
def INT_MIN : Int := -2 ^ 31

/-! ## `strtol` -/

/-- The value of a digit; no base has a digit of the value 255. -/
def digitValue (c : Byte) : Nat :=
  if 48 ≤ c.toNat ∧ c.toNat ≤ 57 then c.toNat - 48
  else if 97 ≤ c.toNat ∧ c.toNat ≤ 122 then c.toNat - 87
  else if 65 ≤ c.toNat ∧ c.toNat ≤ 90 then c.toNat - 55
  else 255

def isDigit (base : Nat) (c : Byte) : Bool := digitValue c < base

def value (base : Nat) (digits : List Byte) : Nat :=
  digits.foldl (fun n c => base * n + digitValue c) 0

def signed : List Byte → Bool × List Byte
  | c :: s => if c = 45 then (true, s) else if c = 43 then (false, s) else (false, c :: s)
  | [] => (false, [])

/-- The text begins with "0x" or "0X", and the base allows it. -/
def hexPrefixed (base : Nat) : List Byte → Bool
  | c :: x :: _ => (base = 0 || base = 16) && c = 48 && (x = 88 || x = 120)
  | _ => false

/-- The base of the digits. -/
def scanBase (base : Nat) (s : List Byte) : Nat :=
  if hexPrefixed base s then 16
  else if base = 0 then if s.head? = some 48 then 8 else 10
  else base

/-- The text from the first digit on. -/
def scanText (base : Nat) (s : List Byte) : List Byte := if hexPrefixed base s then s.drop 2 else s

structure Strtol where
  value : Int
  /-- What `*endptr` points to. -/
  rest : List Byte
  erange : Bool
  deriving DecidableEq, Repr

/-- The result for a number, when the digits end before `rest`. -/
def converted (n : Int) (rest : List Byte) : Strtol :=
  if LONG_MAX < n then ⟨LONG_MAX, rest, true⟩
  else if n < LONG_MIN then ⟨LONG_MIN, rest, true⟩
  else ⟨n, rest, false⟩

/-- Without digits nothing is converted, except for the 0 of a "0x". -/
def strtol (arg : List Byte) (base : Nat) : Strtol :=
  let (negative, s) := signed (arg.dropWhile isspace)
  let digits := (scanText base s).takeWhile (isDigit (scanBase base s))
  let rest := (scanText base s).dropWhile (isDigit (scanBase base s))
  if digits = [] then ⟨0, if hexPrefixed base s then s.drop 1 else arg, false⟩
  else
    let n : Int := value (scanBase base s) digits
    converted (if negative then -n else n) rest

/-! ## The functions -/

/-- A call of `gnFail`. -/
structure Failure where
  fname : String
  msg : String
  arg : Option (List Byte)
  name : Option String
  deriving DecidableEq, Repr

def characters (s : List Byte) : String := String.ofList (s.map fun b => Char.ofNat b.toNat)

def inName : Option String → String
  | some name => " (in " ++ name ++ ")"
  | none => ""

def offendingText : Option (List Byte) → String
  | none | some [] => ""
  | some arg => "        " ++ "offending text: " ++ characters arg ++ "\n"

/-- The text on stderr. -/
def Failure.text (f : Failure) : String :=
  f.fname ++ " error" ++ inName f.name ++ ": " ++ f.msg ++ "\n" ++ offendingText f.arg

def baseOf (flags : Nat) : Nat :=
  if flags &&& GN_ANY_BASE ≠ 0 then 0
  else if flags &&& GN_BASE_8 ≠ 0 then 8
  else if flags &&& GN_BASE_16 ≠ 0 then 16
  else 10

def getNum (fname : String) (arg : Option (List Byte)) (flags : Nat) (name : Option String) :
    Except Failure Int :=
  match arg with
  | none | some [] => .error ⟨fname, "null or empty string", arg, name⟩
  | some s =>
    let res := strtol s (baseOf flags)
    if res.erange then .error ⟨fname, "strtol() failed", arg, name⟩
    else if res.rest ≠ [] then .error ⟨fname, "nonnumeric characters", arg, name⟩
    else if flags &&& GN_NONNEG ≠ 0 ∧ res.value < 0 then
      .error ⟨fname, "negative value not allowed", arg, name⟩
    else if flags &&& GN_GT_0 ≠ 0 ∧ res.value ≤ 0 then
      .error ⟨fname, "value must be > 0", arg, name⟩
    else .ok res.value

def getLong (arg : Option (List Byte)) (flags : Nat) (name : Option String) :
    Except Failure Int :=
  getNum "getLong" arg flags name

def getInt (arg : Option (List Byte)) (flags : Nat) (name : Option String) :
    Except Failure Int :=
  match getNum "getInt" arg flags name with
  | .error failure => .error failure
  | .ok res =>
    if INT_MAX < res ∨ res < INT_MIN then .error ⟨"getInt", "integer out of range", arg, name⟩
    else .ok res

/-! ## Numerals -/

/-- The texts of a number without a sign. -/
inductive Numeral : Nat → List Byte → Nat → Prop
  | digits {base s} (given : base ≠ 0) (nonempty : s ≠ [])
      (all : ∀ c ∈ s, isDigit base c = true) : Numeral base s (value base s)
  | hexadecimal {base x s} (allowed : base = 0 ∨ base = 16) (ex : x = 88 ∨ x = 120)
      (nonempty : s ≠ []) (all : ∀ c ∈ s, isDigit 16 c = true) :
      Numeral base (48 :: x :: s) (value 16 s)
  | octal {s} (all : ∀ c ∈ s, isDigit 8 c = true) : Numeral 0 (48 :: s) (value 8 (48 :: s))
  | decimal {c s} (nonzero : c ≠ 48) (all : ∀ d ∈ c :: s, isDigit 10 d = true) :
      Numeral 0 (c :: s) (value 10 (c :: s))

inductive Sign : List Byte → Bool → Prop
  | none : Sign [] false
  | plus : Sign [43] false
  | minus : Sign [45] true

/-- The texts of an integer: white space, a sign and a numeral. -/
inductive Renders (base : Nat) : List Byte → Int → Prop
  | intro {spaces sign numeral negative n} (blank : ∀ c ∈ spaces, isspace c = true)
      (signed : Sign sign negative) (number : Numeral base numeral n) :
      Renders base (spaces ++ sign ++ numeral) (if negative then -n else n)

/-! ## What is accepted -/

theorem digit_char {base : Nat} {c : Byte} (small : base ≤ 16) (digit : isDigit base c = true) :
    48 ≤ c.toNat := by
  have less : digitValue c < base := by simpa [isDigit] using digit
  unfold digitValue at less
  split at less
  · omega
  · split at less
    · omega
    · split at less <;> omega

theorem hexPrefixed_iff {base : Nat} {s : List Byte} :
    hexPrefixed base s = true ↔
      (base = 0 ∨ base = 16) ∧ ∃ x rest, (x = 88 ∨ x = 120) ∧ s = 48 :: x :: rest := by
  constructor
  · intro h
    unfold hexPrefixed at h
    split at h
    · rename_i c x rest
      simp only [Bool.and_eq_true, Bool.or_eq_true, decide_eq_true_eq] at h
      obtain ⟨⟨allowed, rfl⟩, ex⟩ := h
      exact ⟨allowed, x, rest, ex, rfl⟩
    · cases h
  · rintro ⟨allowed, x, rest, ex, rfl⟩
    simp [hexPrefixed, allowed, ex]

/-- "x" is no digit of the bases that the prefix is for. -/
theorem ex_not_digit {x : Byte} (ex : x = 88 ∨ x = 120) {base : Nat} (small : base ≤ 16) :
    isDigit base x = false := by
  have big : ∀ n, 33 ≤ n → decide (n < base) = false := fun n le => by
    rw [decide_eq_false_iff_not]
    omega
  rcases ex with rfl | rfl
  · exact big 33 (Nat.le_refl _)
  · exact big 33 (Nat.le_refl _)

/-- A numeral is what `strtol` scans as a whole. -/
theorem numeral_iff {base : Nat} {s : List Byte} {n : Nat} :
    Numeral base s n ↔ scanText base s ≠ [] ∧
      (∀ c ∈ scanText base s, isDigit (scanBase base s) c = true) ∧
      n = value (scanBase base s) (scanText base s) := by
  constructor
  · intro number
    cases number with
    | digits given nonempty all =>
      have plain : hexPrefixed base s = false := by
        rw [Bool.eq_false_iff]
        intro hex
        obtain ⟨allowed, x, rest, ex, rfl⟩ := hexPrefixed_iff.mp hex
        rcases allowed with zero | rfl
        · exact given zero
        · have digit := all x (by simp)
          rw [ex_not_digit ex (Nat.le_refl _)] at digit
          cases digit
      simp only [scanText, scanBase, plain, Bool.false_eq_true, if_false, if_neg given]
      exact ⟨nonempty, all, trivial⟩
    | @hexadecimal _ x rest allowed ex nonempty all =>
      have hex : hexPrefixed base (48 :: x :: rest) = true :=
        hexPrefixed_iff.mpr ⟨allowed, x, rest, ex, rfl⟩
      simp only [scanText, scanBase, hex, if_true, List.drop_succ_cons, List.drop_zero]
      exact ⟨nonempty, all, trivial⟩
    | @octal rest all =>
      have plain : hexPrefixed 0 (48 :: rest) = false := by
        rw [Bool.eq_false_iff]
        intro hex
        obtain ⟨-, x, more, ex, same⟩ := hexPrefixed_iff.mp hex
        cases same
        have digit := all x (by simp)
        rw [ex_not_digit ex (by decide)] at digit
        cases digit
      simp only [scanText, scanBase, plain, Bool.false_eq_true, if_false, List.head?_cons, if_true]
      refine ⟨by simp, ?_, trivial⟩
      intro c member
      rcases List.mem_cons.mp member with rfl | behind
      · rfl
      · exact all c behind
    | @decimal c rest nonzero all =>
      have plain : hexPrefixed 0 (c :: rest) = false := by
        rw [Bool.eq_false_iff]
        intro hex
        obtain ⟨-, x, more, ex, same⟩ := hexPrefixed_iff.mp hex
        cases same
        exact nonzero rfl
      have first : (c :: rest).head? ≠ some 48 := by simpa using nonzero
      simp only [scanText, scanBase, plain, Bool.false_eq_true, if_false, if_true, if_neg first]
      exact ⟨by simp, all, trivial⟩
  · rintro ⟨nonempty, all, rfl⟩
    by_cases hex : hexPrefixed base s = true
    · obtain ⟨allowed, x, rest, ex, rfl⟩ := hexPrefixed_iff.mp hex
      simp only [scanText, scanBase, hex, if_true, List.drop_succ_cons, List.drop_zero]
        at nonempty all ⊢
      exact .hexadecimal allowed ex nonempty all
    · simp only [scanText, scanBase, hex, Bool.false_eq_true, if_false] at nonempty all ⊢
      by_cases zero : base = 0
      · subst zero
        obtain ⟨c, rest, rfl⟩ := List.exists_cons_of_ne_nil nonempty
        by_cases first : c = 48
        · subst first
          simp only [List.head?_cons, if_true] at all ⊢
          exact .octal fun d member => all d (List.mem_cons_of_mem _ member)
        · have head : (c :: rest).head? ≠ some 48 := by simpa using first
          simp only [if_true, if_neg head] at all ⊢
          exact .decimal first all
      · simp only [if_neg zero] at all ⊢
        exact .digits zero nonempty all

theorem Numeral.head {base : Nat} {s : List Byte} {n : Nat} (small : base ≤ 16)
    (number : Numeral base s n) : ∃ c rest, s = c :: rest ∧ 48 ≤ c.toNat := by
  cases number with
  | digits given nonempty all =>
    obtain ⟨c, rest, rfl⟩ := List.exists_cons_of_ne_nil nonempty
    exact ⟨c, rest, rfl, digit_char small (all c List.mem_cons_self)⟩
  | hexadecimal allowed ex nonempty all => exact ⟨48, _, rfl, by decide⟩
  | octal all => exact ⟨48, _, rfl, by decide⟩
  | @decimal c rest nonzero all =>
    exact ⟨c, rest, rfl, digit_char (by decide : 10 ≤ 16) (all c List.mem_cons_self)⟩

theorem Sign.signed_append {sign s : List Byte} {negative : Bool} (h : Sign sign negative)
    (plain : ∀ c ∈ s.head?, c ≠ 45 ∧ c ≠ 43) : signed (sign ++ s) = (negative, s) := by
  cases h with
  | none =>
    cases s with
    | nil => rfl
    | cons c s =>
      obtain ⟨minus, plus⟩ := plain c rfl
      simp [signed, minus, plus]
  | plus => rfl
  | minus => rfl

theorem signed_sign (s : List Byte) :
    ∃ sign, Sign sign (signed s).1 ∧ s = sign ++ (signed s).2 := by
  cases s with
  | nil => exact ⟨[], .none, rfl⟩
  | cons c s =>
    by_cases minus : c = 45
    · subst minus
      exact ⟨[45], .minus, rfl⟩
    · by_cases plus : c = 43
      · subst plus
        exact ⟨[43], .plus, rfl⟩
      · have kept : signed (c :: s) = (false, c :: s) := by simp [signed, minus, plus]
        rw [kept]
        exact ⟨[], .none, rfl⟩

theorem Sign.head {sign s : List Byte} {negative : Bool} (h : Sign sign negative)
    (plain : ∀ c ∈ s.head?, isspace c = false) : ∀ c ∈ (sign ++ s).head?, isspace c = false := by
  cases h with
  | none => exact plain
  | plus =>
    intro c member
    obtain rfl := Option.some.inj member
    rfl
  | minus =>
    intro c member
    obtain rfl := Option.some.inj member
    rfl

theorem converted_rest (n : Int) (rest : List Byte) : (converted n rest).rest = rest := by
  unfold converted
  split
  · rfl
  · split <;> rfl

/-- The text of an integer is converted as a whole. -/
theorem strtol_renders {base : Nat} {arg : List Byte} {v : Int} (small : base ≤ 16)
    (renders : Renders base arg v) : strtol arg base = converted v [] := by
  cases renders with
  | @intro spaces sign numeral negative n blank sign_ number =>
    obtain ⟨c, more, same, high⟩ := number.head small
    obtain ⟨noSpace, minus, plus⟩ := plain_char high
    have head : ∀ d ∈ numeral.head?, d = c := by
      intro d member
      rw [same] at member
      exact (Option.some.inj member).symm
    have skipped : (spaces ++ sign ++ numeral).dropWhile isspace = sign ++ numeral := by
      rw [List.append_assoc]
      exact dropWhile_run blank (sign_.head fun d member => by rw [head d member]; exact noSpace)
    have split : signed (sign ++ numeral) = (negative, numeral) := sign_.signed_append
      fun d member => by rw [head d member]; exact ⟨minus, plus⟩
    obtain ⟨nonempty, all, value_⟩ := numeral_iff.mp number
    have taken : (scanText base numeral).takeWhile (isDigit (scanBase base numeral)) =
        scanText base numeral := List.takeWhile_eq_self_iff.mpr all
    have dropped : (scanText base numeral).dropWhile (isDigit (scanBase base numeral)) = [] :=
      List.dropWhile_eq_nil_iff.mpr all
    simp only [strtol, skipped, split, taken, dropped, if_neg nonempty, value_]

/-- A text that is converted to its end is that of an integer. -/
theorem renders_of_strtol {base : Nat} {arg : List Byte} (nonempty : arg ≠ [])
    (all : (strtol arg base).rest = []) :
    ∃ v, Renders base arg v ∧ strtol arg base = converted v [] := by
  obtain ⟨sign, sign_, split⟩ := signed_sign (arg.dropWhile isspace)
  have whole : arg = arg.takeWhile isspace ++ sign ++ (signed (arg.dropWhile isspace)).2 := by
    rw [List.append_assoc, ← split, List.takeWhile_append_dropWhile]
  have blank : ∀ c ∈ arg.takeWhile isspace, isspace c = true := fun c member =>
    List.mem_takeWhile_imp member
  generalize number : signed (arg.dropWhile isspace) = parts at sign_ whole
  obtain ⟨negative, s⟩ := parts
  simp only [strtol, number] at all ⊢
  by_cases digits : (scanText base s).takeWhile (isDigit (scanBase base s)) = []
  · rw [if_pos digits] at all
    exfalso
    by_cases hex : hexPrefixed base s = true
    · obtain ⟨-, x, rest, -, rfl⟩ := hexPrefixed_iff.mp hex
      simp [hex] at all
    · simp only [hex, Bool.false_eq_true, if_false] at all
      exact nonempty all
  · rw [if_neg digits] at all ⊢
    rw [converted_rest] at all
    have ended : (scanText base s).dropWhile (isDigit (scanBase base s)) = [] := all
    have each := List.dropWhile_eq_nil_iff.mp ended
    have taken : (scanText base s).takeWhile (isDigit (scanBase base s)) = scanText base s :=
      List.takeWhile_eq_self_iff.mpr each
    rw [taken] at digits ⊢
    rw [ended]
    refine ⟨_, ?_, rfl⟩
    have renders := Renders.intro blank sign_ (numeral_iff.mpr ⟨digits, each, rfl⟩)
    rwa [← whole] at renders

theorem baseOf_small (flags : Nat) : baseOf flags ≤ 16 := by
  unfold baseOf
  split
  · omega
  · split
    · omega
    · split <;> omega

theorem Renders.nonempty {base : Nat} {s : List Byte} {v : Int} (small : base ≤ 16)
    (renders : Renders base s v) : s ≠ [] := by
  cases renders with
  | intro blank signed number =>
    obtain ⟨c, rest, rfl, -⟩ := number.head small
    simp

theorem converted_fits {v : Int} (low : LONG_MIN ≤ v) (high : v ≤ LONG_MAX) :
    converted v [] = ⟨v, [], false⟩ := by
  rw [converted, if_neg (Int.not_lt.mpr high), if_neg (Int.not_lt.mpr low)]

theorem converted_erange {v : Int} (fine : (converted v []).erange = false) :
    LONG_MIN ≤ v ∧ v ≤ LONG_MAX := by
  unfold converted at fine
  split at fine
  · cases fine
  · rename_i high
    split at fine
    · cases fine
    · rename_i low
      exact ⟨Int.not_lt.mp low, Int.not_lt.mp high⟩

/-- What a flag asks of the number. -/
structure Meets (flags : Nat) (v : Int) : Prop where
  nonneg : flags &&& GN_NONNEG ≠ 0 → 0 ≤ v
  positive : flags &&& GN_GT_0 ≠ 0 → 0 < v

theorem getNum_ok_iff (fname : String) (arg : Option (List Byte)) (flags : Nat)
    (name : Option String) (v : Int) :
    getNum fname arg flags name = .ok v ↔
      ∃ s, arg = some s ∧ Renders (baseOf flags) s v ∧ LONG_MIN ≤ v ∧ v ≤ LONG_MAX ∧
        Meets flags v := by
  constructor
  · intro ok
    unfold getNum at ok
    split at ok
    · cases ok
    · cases ok
    · rename_i s nonempty
      dsimp only at ok
      split at ok
      · cases ok
      · rename_i fine
        split at ok
        · cases ok
        · rename_i whole
          obtain ⟨u, renders, same⟩ := renders_of_strtol nonempty (not_not.mp whole)
          rw [same] at fine ok
          obtain ⟨low, high⟩ := converted_erange (by simpa using fine)
          rw [converted_fits low high] at ok
          split at ok
          · cases ok
          · rename_i nonneg
            split at ok
            · cases ok
            · rename_i positive
              cases ok
              exact ⟨s, rfl, renders, low, high,
                fun flag => Int.not_lt.mp fun less => nonneg ⟨flag, less⟩,
                fun flag => Int.not_le.mp fun le => positive ⟨flag, le⟩⟩
  · rintro ⟨s, rfl, renders, low, high, meets⟩
    have small := baseOf_small flags
    obtain ⟨c, rest, rfl⟩ := List.exists_cons_of_ne_nil (renders.nonempty small)
    have result := strtol_renders small renders
    rw [converted_fits low high] at result
    have nonneg : ¬ (flags &&& GN_NONNEG ≠ 0 ∧ v < 0) := fun both =>
      Int.not_lt.mpr (meets.nonneg both.1) both.2
    have positive : ¬ (flags &&& GN_GT_0 ≠ 0 ∧ v ≤ 0) := fun both =>
      Int.not_le.mpr (meets.positive both.1) both.2
    simp only [getNum, result, Bool.false_eq_true, if_false, ne_eq, not_true, if_neg nonneg,
      if_neg positive]

/-- The text says where the failure is and what it is, and quotes the argument. -/
structure Failure.Told (f : Failure) : Prop where
  function : ∃ behind, f.text = f.fname ++ " error" ++ behind
  name : ∀ n, f.name = some n → ∃ before behind, f.text = before ++ " (in " ++ n ++ ")" ++ behind
  msg : ∃ before behind, f.text = before ++ ": " ++ f.msg ++ "\n" ++ behind
  arg : ∀ s, f.arg = some s → s ≠ [] →
    ∃ before, f.text = before ++ "offending text: " ++ characters s ++ "\n"

theorem Failure.told (f : Failure) : f.Told where
  function := ⟨inName f.name ++ ": " ++ f.msg ++ "\n" ++ offendingText f.arg, by
    simp only [Failure.text, String.append_assoc]⟩
  name := by
    intro n named
    refine ⟨f.fname ++ " error", ": " ++ f.msg ++ "\n" ++ offendingText f.arg, ?_⟩
    simp only [Failure.text, named, inName, String.append_assoc]
  msg := ⟨f.fname ++ " error" ++ inName f.name, offendingText f.arg, rfl⟩
  arg := by
    intro s given nonempty
    obtain ⟨c, rest, rfl⟩ := List.exists_cons_of_ne_nil nonempty
    refine ⟨f.fname ++ " error" ++ inName f.name ++ ": " ++ f.msg ++ "\n" ++ "        ", ?_⟩
    simp only [Failure.text, given, offendingText, String.append_assoc]

/-- A failure carries the argument and its name, and the name of the caller. -/
theorem getNum_error {fname : String} {arg : Option (List Byte)} {flags : Nat}
    {name : Option String} {f : Failure} (failed : getNum fname arg flags name = .error f) :
    f.fname = fname ∧ f.arg = arg ∧ f.name = name := by
  unfold getNum at failed
  split at failed
  · cases failed; exact ⟨rfl, rfl, rfl⟩
  · cases failed; exact ⟨rfl, rfl, rfl⟩
  · dsimp only at failed
    split at failed
    · cases failed; exact ⟨rfl, rfl, rfl⟩
    · split at failed
      · cases failed; exact ⟨rfl, rfl, rfl⟩
      · split at failed
        · cases failed; exact ⟨rfl, rfl, rfl⟩
        · split at failed
          · cases failed; exact ⟨rfl, rfl, rfl⟩
          · cases failed

theorem getInt_ok (arg : Option (List Byte)) (flags : Nat) (name : Option String) (v : Int) :
    getInt arg flags name = .ok v ↔
      ∃ s, arg = some s ∧ Renders (baseOf flags) s v ∧ INT_MIN ≤ v ∧ v ≤ INT_MAX ∧
        Meets flags v := by
  have wide : LONG_MIN ≤ INT_MIN ∧ INT_MAX ≤ LONG_MAX := by decide
  constructor
  · intro ok
    unfold getInt at ok
    split at ok
    · cases ok
    · rename_i res number
      split at ok
      · cases ok
      · rename_i range
        cases ok
        obtain ⟨high, low⟩ := not_or.mp range
        obtain ⟨s, given, renders, -, -, meets⟩ := (getNum_ok_iff _ _ _ _ _).mp number
        exact ⟨s, given, renders, Int.not_lt.mp low, Int.not_lt.mp high, meets⟩
  · rintro ⟨s, given, renders, low, high, meets⟩
    have number := (getNum_ok_iff "getInt" arg flags name v).mpr
      ⟨s, given, renders, Int.le_trans wide.1 low, Int.le_trans high wide.2, meets⟩
    have range : ¬ (INT_MAX < v ∨ v < INT_MIN) :=
      not_or.mpr ⟨Int.not_lt.mpr high, Int.not_lt.mpr low⟩
    simp only [getInt, number, if_neg range]

theorem getInt_error {arg : Option (List Byte)} {flags : Nat} {name : Option String} {f : Failure}
    (failed : getInt arg flags name = .error f) :
    f.fname = "getInt" ∧ f.arg = arg ∧ f.name = name := by
  unfold getInt at failed
  split at failed
  · rename_i failure number
    cases failed
    exact getNum_error number
  · split at failed
    · cases failed
      exact ⟨rfl, rfl, rfl⟩
    · cases failed

/-- `getInt` and `getLong` accept the texts of the integers that an `int` or a `long` can hold
and that meet the flags, in the notations of the base, and return what they stand for. Every
failure names the function and the argument, in its text too. -/
theorem getInt_accepts_integers (arg : Option (List Byte)) (flags : Nat) (name : Option String) :
    (∀ v, getInt arg flags name = .ok v ↔
      ∃ s, arg = some s ∧ Renders (baseOf flags) s v ∧ INT_MIN ≤ v ∧ v ≤ INT_MAX ∧
        Meets flags v) ∧
    (∀ v, getLong arg flags name = .ok v ↔
      ∃ s, arg = some s ∧ Renders (baseOf flags) s v ∧ LONG_MIN ≤ v ∧ v ≤ LONG_MAX ∧
        Meets flags v) ∧
    (∀ f, getInt arg flags name = .error f →
      f.fname = "getInt" ∧ f.arg = arg ∧ f.name = name ∧ f.Told) ∧
    ∀ f, getLong arg flags name = .error f →
      f.fname = "getLong" ∧ f.arg = arg ∧ f.name = name ∧ f.Told := by
  refine ⟨getInt_ok arg flags name, getNum_ok_iff "getLong" arg flags name, ?_, ?_⟩
  · intro f failed
    obtain ⟨function, argument, named⟩ := getInt_error failed
    exact ⟨function, argument, named, f.told⟩
  · intro f failed
    obtain ⟨function, argument, named⟩ := getNum_error failed
    exact ⟨function, argument, named, f.told⟩

/-- A blank and a sign in front of a hexadecimal number. -/
example : getInt (some [32, 45, 48, 88, 49, 102]) GN_ANY_BASE none = .ok (-31) := by decide

/-! ## Reading a number back -/

def digitByte (d : Nat) : Byte := UInt8.ofNat (if d < 10 then 48 + d else 87 + d)

theorem digitValue_digitByte : ∀ d < 16, digitValue (digitByte d) = d := by decide

/-- The digits of a number, as `printf` writes them. -/
def numeralText (base n : Nat) : List Byte :=
  if n = 0 then [48] else (Nat.digits base n).reverse.map digitByte

inductive Style where
  | decimal
  | octal
  | hexadecimal
  deriving DecidableEq, Repr

def Style.base : Style → Nat
  | .decimal => 10
  | .octal => 8
  | .hexadecimal => 16

/-- The prefix that tells the styles apart when any base can be used. -/
def Style.mark (style : Style) (base : Nat) : List Byte :=
  if base = 0 then
    match style with
    | .decimal => []
    | .octal => [48]
    | .hexadecimal => [48, 120]
  else []

def Style.Allowed (style : Style) (base : Nat) : Prop := base = 0 ∨ base = style.base

def integerText (style : Style) (base : Nat) (v : Int) : List Byte :=
  (if v < 0 then [45] else []) ++ (style.mark base ++ numeralText style.base v.natAbs)

section
variable {base : Nat}

theorem value_digits (digits : List Nat) (small : ∀ d ∈ digits, d < 16) :
    value base (digits.reverse.map digitByte) = Nat.ofDigits base digits := by
  induction digits with
  | nil => rfl
  | cons d digits ih =>
    have last := digitValue_digitByte d (small d List.mem_cons_self)
    have before := ih fun e member => small e (List.mem_cons_of_mem d member)
    rw [value] at before
    rw [value, List.reverse_cons, List.map_append, List.foldl_append, before, List.map_singleton,
      List.foldl_cons, List.foldl_nil, last, Nat.ofDigits_cons, Nat.add_comm]

/-- A number in a base is written with digits of that base, and its value is the number. -/
theorem numeralText_spec (two : 2 ≤ base) (sixteen : base ≤ 16) (n : Nat) :
    numeralText base n ≠ [] ∧ (∀ c ∈ numeralText base n, isDigit base c = true) ∧
      value base (numeralText base n) = n := by
  by_cases zero : n = 0
  · subst zero
    have digit : isDigit base 48 = true := by
      have first : digitValue 48 = 0 := by decide
      rw [isDigit, first, decide_eq_true_eq]
      omega
    simp only [numeralText, if_true]
    exact ⟨by simp, by simpa using digit, by simp [value, digitValue]⟩
  · have bound : ∀ d ∈ Nat.digits base n, d < base := fun d member =>
      Nat.digits_lt_base (by omega) member
    simp only [numeralText, if_neg zero]
    refine ⟨?_, ?_, ?_⟩
    · simpa using Nat.digits_ne_nil_iff_ne_zero.mpr zero
    · intro c member
      obtain ⟨d, among, rfl⟩ := List.mem_map.mp member
      have less := bound d (List.mem_reverse.mp among)
      rw [isDigit, digitValue_digitByte d (by omega), decide_eq_true_eq]
      exact less
    · rw [value_digits _ fun d member => Nat.lt_of_lt_of_le (bound d member) sixteen,
        Nat.ofDigits_digits]

/-- Only 0 is written with a 0 in front. -/
theorem numeralText_head {n : Nat} (two : 2 ≤ base) (sixteen : base ≤ 16) (nonzero : n ≠ 0) :
    ∃ c rest, numeralText base n = c :: rest ∧ c ≠ 48 := by
  have nonempty : Nat.digits base n ≠ [] := Nat.digits_ne_nil_iff_ne_zero.mpr nonzero
  have last := Nat.getLast_digit_ne_zero base nonzero
  have bound := Nat.digits_lt_base (by omega) (List.getLast_mem nonempty)
  have split := List.dropLast_append_getLast nonempty
  rw [numeralText, if_neg nonzero, ← split, List.reverse_append, List.reverse_singleton,
    List.singleton_append, List.map_cons]
  refine ⟨_, _, rfl, ?_⟩
  intro same
  have zero := congrArg digitValue same
  rw [digitValue_digitByte _ (by omega)] at zero
  exact last zero

end

theorem Style.numeral {style : Style} {base : Nat} (allowed : style.Allowed base) (n : Nat) :
    Numeral base (style.mark base ++ numeralText style.base n) n := by
  have two : 2 ≤ style.base := by cases style <;> decide
  have sixteen : style.base ≤ 16 := by cases style <;> decide
  obtain ⟨nonempty, all, value_⟩ := numeralText_spec two sixteen n
  by_cases zero : base = 0
  · subst zero
    cases style with
    | decimal =>
      by_cases zero : n = 0
      · subst zero
        exact .octal fun c member => absurd member List.not_mem_nil
      · obtain ⟨c, rest, same, nonzero⟩ := numeralText_head two sixteen zero
        rw [same] at all value_
        rw [same]
        have number := Numeral.decimal nonzero all
        rwa [show value 10 (c :: rest) = n from value_] at number
    | octal =>
      have number := Numeral.octal all
      have same : value 8 (48 :: numeralText 8 n) = value 8 (numeralText 8 n) := rfl
      rwa [Style.base, same, show value 8 (numeralText 8 n) = n from value_] at number
    | hexadecimal =>
      have number : Numeral 0 (48 :: 120 :: numeralText 16 n) (value 16 (numeralText 16 n)) :=
        .hexadecimal (Or.inl rfl) (Or.inr rfl) nonempty all
      rwa [show value 16 (numeralText 16 n) = n from value_] at number
  · obtain rfl := allowed.resolve_left zero
    have unmarked : style.mark style.base = [] := by
      unfold Style.mark
      rw [if_neg zero]
    have number := Numeral.digits zero nonempty all
    rw [unmarked, List.nil_append]
    rwa [value_] at number

theorem integerText_renders {style : Style} {base : Nat} (allowed : style.Allowed base) (v : Int) :
    Renders base (integerText style base v) v := by
  have number := style.numeral allowed v.natAbs
  have blank : ∀ c ∈ ([] : List Byte), isspace c = true := fun c member =>
    absurd member List.not_mem_nil
  by_cases negative : v < 0
  · have renders := Renders.intro blank .minus number
    have same : (if true = true then -(v.natAbs : Int) else v.natAbs) = v := by
      rw [if_pos rfl]
      omega
    rw [same] at renders
    rwa [integerText, if_pos negative]
  · have renders := Renders.intro blank .none number
    have same : (if false = true then -(v.natAbs : Int) else v.natAbs) = v := by
      rw [if_neg Bool.false_ne_true]
      omega
    rw [same] at renders
    rwa [integerText, if_neg negative]

/-- An integer is read back from its text in every style that the flags allow. -/
theorem getInt_reads_back {style : Style} {flags : Nat} (allowed : style.Allowed (baseOf flags))
    {v : Int} (low : INT_MIN ≤ v) (high : v ≤ INT_MAX) (meets : Meets flags v)
    (name : Option String) :
    getInt (some (integerText style (baseOf flags) v)) flags name = .ok v :=
  (getInt_ok _ flags name v).mpr ⟨_, rfl, integerText_renders allowed v, low, high, meets⟩

/-- The least `int`, in hexadecimal, when any base can be used. -/
theorem least_int_read_back :
    getInt (some [45, 48, 120, 56, 48, 48, 48, 48, 48, 48, 48]) GN_ANY_BASE none =
      .ok (-2147483648) := by
  have text : integerText .hexadecimal (baseOf GN_ANY_BASE) (-2147483648) =
      [45, 48, 120, 56, 48, 48, 48, 48, 48, 48, 48] := by
    norm_num [integerText, Style.mark, baseOf, GN_ANY_BASE, numeralText, Style.base, digitByte]
    decide
  rw [← text]
  exact getInt_reads_back (Or.inl rfl) (by decide) (by decide)
    ⟨fun flag => absurd flag (by decide), fun flag => absurd flag (by decide)⟩ none

end Arguments
