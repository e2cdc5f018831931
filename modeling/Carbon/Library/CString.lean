import Mathlib.Data.Nat.Digits.Defs

-- Strings of C as the bytes in front of their NUL, and the functions of the C
-- library on them, by its documentation in the "C" locale.
namespace CString

def ascii (c : Char) : UInt8 := c.toUInt8

def text (s : String) : List UInt8 := s.toList.map ascii

def startsWith (ch : Char) (str : List UInt8) : Bool := str.head? = some (ascii ch)

def isSpace (ch : UInt8) : Bool := ch = ascii ' ' || (9 ≤ ch && ch ≤ 13)

def isDigit (ch : UInt8) : Bool := ascii '0' ≤ ch && ch ≤ ascii '9'

def isAlpha (ch : UInt8) : Bool :=
  (ascii 'a' ≤ ch && ch ≤ ascii 'z') || (ascii 'A' ≤ ch && ch ≤ ascii 'Z')

-- From the first occurrence of the character on.
def strchr (str : List UInt8) (ch : Char) : Option (List UInt8) :=
  match str.dropWhile (· ≠ ascii ch) with
  | [] => none
  | rest => some rest

def digitValue (ch : UInt8) : Nat :=
  if ascii '0' ≤ ch ∧ ch ≤ ascii '9' then ch.toNat - (ascii '0').toNat
  else if ascii 'a' ≤ ch ∧ ch ≤ ascii 'z' then ch.toNat - (ascii 'a').toNat + 10
  else if ascii 'A' ≤ ch ∧ ch ≤ ascii 'Z' then ch.toNat - (ascii 'A').toNat + 10
  else 36

def magnitude (base : Nat) (str : List UInt8) : Nat :=
  Nat.ofDigits base ((str.takeWhile fun ch => digitValue ch < base).map digitValue).reverse

-- The number a text begins with: white space, a sign, digits of the base up to
-- the first other character.
def numeral (base : Nat) (str : List UInt8) : Int :=
  let str := str.dropWhile isSpace
  if startsWith '-' str then -(magnitude base str.tail : Int)
  else if startsWith '+' str then magnitude base str.tail
  else magnitude base str

-- strtol lets 0x stand in front of hexadecimal digits and clips its value to the
-- range of a long.
def dropPrefix (base : Nat) (str : List UInt8) : List UInt8 :=
  if base = 16 ∧ (startsWith '0' str ∧ (startsWith 'x' str.tail ∨ startsWith 'X' str.tail)) then str.drop 2
  else str

def toLong (value : Int) : Int := max (-2 ^ 31) (min value (2 ^ 31 - 1))

def strtol (base : Nat) (str : List UInt8) : Int :=
  let str := str.dropWhile isSpace
  toLong <|
    if startsWith '-' str then -(magnitude base (dropPrefix base str.tail) : Int)
    else if startsWith '+' str then magnitude base (dropPrefix base str.tail)
    else magnitude base (dropPrefix base str)

def atoi (str : List UInt8) : Int := strtol 10 str

variable {base : Nat} {body rest : List UInt8}

theorem magnitude_append (hbody : ∀ ch ∈ body, digitValue ch < base)
    (hrest : ∀ ch ∈ rest.head?, base ≤ digitValue ch) :
    magnitude base (body ++ rest) = Nat.ofDigits base (body.map digitValue).reverse := by
  have hstop : rest.takeWhile (fun ch => digitValue ch < base) = [] := by
    cases rest with
    | nil => rfl
    | cons ch rest =>
        have hch := hrest ch rfl
        rw [List.takeWhile_cons_of_neg (by simpa using hch)]
  unfold magnitude
  rw [List.takeWhile_append_of_pos (by simpa using hbody), hstop, List.append_nil]

theorem numeral_space (base : Nat) {front : List UInt8} (hfront : ∀ ch ∈ front, isSpace ch = true)
    (rest : List UInt8) : numeral base (front ++ rest) = numeral base rest := by
  unfold numeral
  rw [List.dropWhile_append_of_pos hfront]

theorem numeral_minus (base : Nat) (rest : List UInt8) :
    numeral base (ascii '-' :: rest) = -(magnitude base rest : Int) := by
  unfold numeral
  rw [List.dropWhile_cons_of_neg (by decide)]
  rfl

theorem numeral_plus (base : Nat) (rest : List UInt8) :
    numeral base (ascii '+' :: rest) = magnitude base rest := by
  unfold numeral
  rw [List.dropWhile_cons_of_neg (by decide)]
  rfl

-- White space and signs are no digits.
theorem digitValue_space {ch : UInt8} (h : isSpace ch = true) : digitValue ch = 36 := by
  have hall : ∀ n < 256, isSpace (.ofNat n) = true → digitValue (.ofNat n) = 36 := by decide +kernel
  have hch := hall ch.toNat ch.toNat_lt
  rw [UInt8.ofNat_toNat] at hch
  exact hch h

theorem numeral_digits (hbase : base ≤ 16) (hne : body ≠ []) (hbody : ∀ ch ∈ body, digitValue ch < base)
    (hrest : ∀ ch ∈ rest.head?, base ≤ digitValue ch) :
    numeral base (body ++ rest) = (Nat.ofDigits base (body.map digitValue).reverse : Nat) := by
  rw [← magnitude_append hbody hrest]
  obtain ⟨ch, body, rfl⟩ := List.exists_cons_of_ne_nil hne
  have hch : digitValue ch < 16 := Nat.lt_of_lt_of_le (hbody ch (List.mem_cons_self ..)) hbase
  have hspace : ¬isSpace ch = true := fun h => by
    rw [digitValue_space h] at hch
    omega
  have hminus : ch ≠ ascii '-' := by
    rintro rfl
    exact absurd hch (by decide)
  have hplus : ch ≠ ascii '+' := by
    rintro rfl
    exact absurd hch (by decide)
  unfold numeral
  rw [List.cons_append, List.dropWhile_cons_of_neg hspace]
  simp [startsWith, hminus, hplus]

theorem dropPrefix_eq {str : List UInt8} (hlower : ascii 'x' ∉ str) (hupper : ascii 'X' ∉ str) :
    dropPrefix base str = str := by
  have hnext : ∀ ch : Char, ascii ch ∉ str → ¬startsWith ch str.tail = true := by
    intro ch hch hstart
    unfold startsWith at hstart
    exact hch (List.mem_of_mem_tail (List.mem_of_mem_head? (of_decide_eq_true hstart)))
  unfold dropPrefix
  rw [if_neg]
  rintro ⟨-, -, hx | hx⟩
  · exact hnext 'x' hlower hx
  · exact hnext 'X' hupper hx

-- Without a prefix strtol reads the number, clipped.
theorem strtol_numeral {str : List UInt8} (hlower : ascii 'x' ∉ str) (hupper : ascii 'X' ∉ str) :
    strtol base str = toLong (numeral base str) := by
  have hdrop : ∀ ch ∈ str.dropWhile isSpace, ch ∈ str :=
    fun ch hch => (List.dropWhile_sublist _).subset hch
  have htail : ∀ ch ∈ (str.dropWhile isSpace).tail, ch ∈ str :=
    fun ch hch => hdrop ch (List.mem_of_mem_tail hch)
  unfold strtol numeral
  dsimp only
  rw [dropPrefix_eq (mt (htail _) hlower) (mt (htail _) hupper),
    dropPrefix_eq (mt (hdrop _) hlower) (mt (hdrop _) hupper)]

end CString
