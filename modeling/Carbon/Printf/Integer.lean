import Carbon.Printf.Truncation

namespace Carbon

namespace Printf

open CString

-- The field out_rev_ puts for a buffer: padding in front or behind.
def field (buf : List UInt8) (width : Nat) (flags : Flags) : List UInt8 :=
  let spaces := List.replicate (width - buf.length) (ascii ' ')
  (if !flags.left && !flags.zeropad then spaces else []) ++ buf.reverse ++ if flags.left then spaces else []

theorem padSpaces_eq (n : Nat) (output : OutputGadget) :
    padSpaces n output = putChars output (List.replicate n (ascii ' ')) := by
  induction n generalizing output with
  | zero => rfl
  | succ n ih => rw [padSpaces, ih, List.replicate_succ, putChars_cons]

theorem padTo_eq {startPos width rounds : Nat} {output : OutputGadget} (hwidth : width < 2 ^ 32)
    (hpos : output.pos < 2 ^ 32) (hrounds : width ≤ rounds + uint32Sub output.pos startPos) :
    padTo startPos width rounds output =
      putChars output (List.replicate (width - uint32Sub output.pos startPos) (ascii ' ')) := by
  induction rounds generalizing output with
  | zero =>
      rw [Nat.sub_eq_zero_of_le (by omega)]
      rfl
  | succ rounds ih =>
      unfold padTo
      split
      · rename_i hshort
        -- one more character, one place further
        have hnext : uint32Sub (uint32 (output.pos + 1)) startPos = uint32Sub output.pos startPos + 1 := by
          unfold uint32Sub uint32 at hshort ⊢
          omega
        rw [ih (by rw [putcharViaGadget_pos]; exact uint32_lt _)
          (by rw [putcharViaGadget_pos, hnext]; omega), putcharViaGadget_pos, hnext,
          show width - uint32Sub output.pos startPos
            = width - (uint32Sub output.pos startPos + 1) + 1 by omega, List.replicate_succ, putChars_cons]
      · rw [Nat.sub_eq_zero_of_le (by omega)]
        rfl

theorem outRev_eq {output : OutputGadget} {buf : List UInt8} {width : Nat} (flags : Flags)
    (hpos : output.pos < 2 ^ 32) (hwidth : width < 2 ^ 32) (hbuf : buf.length < 2 ^ 32) :
    outRev output buf width flags = putChars output (field buf width flags) := by
  unfold outRev field
  cases hleft : flags.left with
  | false => cases hzero : flags.zeropad <;> simp [padSpaces_eq, putChars_append]
  | true =>
      have hcount : uint32Sub (uint32 (output.pos + buf.length)) output.pos = buf.length := by
        unfold uint32Sub uint32
        omega
      have hend : (putChars output buf.reverse).pos = uint32 (output.pos + buf.length) := by
        rw [putChars_pos _ hpos, List.length_reverse]
      simp only [Bool.not_true, Bool.false_and, Bool.false_eq_true, if_false, if_true, List.nil_append]
      rw [padTo_eq hwidth (by rw [hend]; exact uint32_lt _) (by rw [hend, hcount]; omega), hend,
        hcount, putChars_append]

theorem padZeros_eq (bound : Nat) {rounds : Nat} {buf : List UInt8}
    (hrounds : integerBufferSize ≤ rounds + buf.length) :
    padZeros bound rounds buf =
      buf ++ List.replicate (min bound integerBufferSize - buf.length) (ascii '0') := by
  induction rounds generalizing buf with
  | zero =>
      rw [Nat.sub_eq_zero_of_le (by omega), List.replicate_zero, List.append_nil]
      rfl
  | succ rounds ih =>
      unfold padZeros
      split
      · rw [ih (by rw [List.length_append]; simp only [List.length_singleton]; omega), List.append_assoc,
          List.length_append, List.length_singleton,
          show min bound integerBufferSize - buf.length
            = min bound integerBufferSize - (buf.length + 1) + 1 by omega, List.replicate_succ]
        rfl
      · rw [Nat.sub_eq_zero_of_le (by omega), List.replicate_zero, List.append_nil]

-- How long the digits get with the zeros in front of them.
def paddedLength (length precision width : Nat) (flags : Flags) : Nat :=
  max length (max (min precision integerBufferSize)
    (if !flags.left ∧ flags.zeropad then min width integerBufferSize else 0))

theorem paddedBuffer_eq {buf : List UInt8} (precision width : Nat) (flags : Flags)
    (hbuf : buf.length ≤ integerBufferSize) :
    paddedBuffer buf precision width flags =
      buf ++ List.replicate (paddedLength buf.length precision width flags - buf.length) (ascii '0') := by
  unfold paddedBuffer paddedLength
  split
  · dsimp only
    rw [padZeros_eq width (by omega), padZeros_eq precision (by omega), List.append_assoc,
      List.replicate_append_replicate, List.length_append, List.length_replicate]
    congr 2
    omega
  · dsimp only
    rw [padZeros_eq precision (by omega)]
    congr 2
    omega

theorem paddedBuffer_length {buf : List UInt8} (precision width : Nat) (flags : Flags)
    (hbuf : buf.length ≤ integerBufferSize) :
    (paddedBuffer buf precision width flags).length = paddedLength buf.length precision width flags := by
  rw [paddedBuffer_eq precision width flags hbuf, List.length_append, List.length_replicate]
  unfold paddedLength
  omega

theorem digitValue_digitChar {digit : Nat} (uppercase : Bool) (h : digit < 16) :
    digitValue (digitChar digit uppercase) = digit := by
  have hall : ∀ u, ∀ k < 16, digitValue (digitChar k u) = k := by decide
  exact hall uppercase digit h

-- The digits are those of the value as far as the buffer reaches.
theorem ofDigits_digitLoop {base : Nat} (uppercase : Bool) (hpos : 0 < base) (hbase : base ≤ 16)
    (room value : Nat) :
    Nat.ofDigits base ((digitLoop base uppercase room value).map digitValue) = value % base ^ room := by
  induction room generalizing value with
  | zero => simp [digitLoop, Nat.mod_one]
  | succ room ih =>
      have hdigit : digitValue (digitChar (value % base) uppercase) = value % base :=
        digitValue_digitChar uppercase (by have := Nat.mod_lt value hpos; omega)
      rw [digitLoop, List.map_cons, Nat.ofDigits_cons, hdigit, Nat.pow_succ', Nat.mod_mul]
      by_cases hzero : value / base = 0
      · simp [hzero]
      · rw [if_pos hzero, ih]

theorem digitLoop_digit {base : Nat} (uppercase : Bool) (hpos : 0 < base) (hbase : base ≤ 16)
    (room value : Nat) : ∀ ch ∈ digitLoop base uppercase room value, digitValue ch < base := by
  induction room generalizing value with
  | zero => simp [digitLoop]
  | succ room ih =>
      intro ch hch
      rw [digitLoop, List.mem_cons] at hch
      rcases hch with rfl | hch
      · have hlt := Nat.mod_lt value hpos
        rw [digitValue_digitChar uppercase (by omega)]
        exact hlt
      · split at hch
        · exact ih _ ch hch
        · cases hch

theorem digitLoop_length (base : Nat) (uppercase : Bool) (room value : Nat) :
    (digitLoop base uppercase room value).length ≤ room := by
  induction room generalizing value with
  | zero => exact Nat.le_refl _
  | succ room ih =>
      rw [digitLoop, List.length_cons]
      split
      · exact Nat.succ_le_succ (ih _)
      · simp

structure Digits (base value : Nat) (buf : List UInt8) : Prop where
  digit : ∀ ch ∈ buf, digitValue ch < base
  fits : buf.length ≤ integerBufferSize
  value : Nat.ofDigits base (buf.map digitValue) = value % base ^ integerBufferSize

theorem integerDigits_digits {base : Nat} (hpos : 1 < base) (hbase : base ≤ 16) (value : Nat) (flags : Flags) :
    Digits base value (integerDigits value base flags).1 := by
  have hnone : Digits base 0 [] := ⟨by simp, by simp, by simp⟩
  have hzero : Digits base 0 [ascii '0'] :=
    ⟨by intro ch hch; rw [List.mem_singleton.mp hch]; exact Nat.lt_of_lt_of_le (by decide) hpos, by decide,
      by simp [show digitValue (ascii '0') = 0 from rfl]⟩
  unfold integerDigits
  split
  · subst value
    split
    · exact hzero
    split
    · exact hnone
    · exact hnone
  · exact ⟨digitLoop_digit _ (by omega) hbase _ _, digitLoop_length .., ofDigits_digitLoop _ (by omega) hbase _ _⟩

-- Blanks are no part of a number.
theorem blanks_space (n : Nat) : ∀ ch ∈ List.replicate n (ascii ' '), isSpace ch = true := by
  intro ch hch
  rw [List.eq_of_mem_replicate hch]
  rfl

theorem blanks_head {base : Nat} (hbase : base ≤ 16) (n : Nat) :
    ∀ ch ∈ (List.replicate n (ascii ' ')).head?, base ≤ digitValue ch := by
  cases n with
  | zero => simp
  | succ n =>
      intro ch hch
      cases hch
      exact Nat.le_trans hbase (by decide)

theorem numeral_blanks {base : Nat} {body : List UInt8} (hbody : ∀ ch ∈ body, digitValue ch < base)
    (hbase : base ≤ 16) (n : Nat) :
    numeral base (body ++ List.replicate n (ascii ' ')) =
      (Nat.ofDigits base (body.map digitValue).reverse : Nat) := by
  by_cases hne : body = []
  · subst hne
    have hempty := numeral_space base (blanks_space n) []
    rw [List.append_nil] at hempty
    rw [List.nil_append, hempty]
    rfl
  · exact numeral_digits hbase hne hbody (blanks_head hbase n)

def signs : List (List UInt8) := [[], [ascii '-'], [ascii '+'], [ascii ' ']]

-- What is read of a field: blanks, the sign, digits, blanks.
theorem numeral_field {base : Nat} {body sign : List UInt8} (hbody : ∀ ch ∈ body, digitValue ch < base)
    (hbase : base ≤ 16) (hsign : sign ∈ signs) (m n : Nat) :
    numeral base (List.replicate m (ascii ' ') ++ (sign ++ (body ++ List.replicate n (ascii ' ')))) =
      if sign = [ascii '-'] then -((Nat.ofDigits base (body.map digitValue).reverse : Nat) : Int)
      else (Nat.ofDigits base (body.map digitValue).reverse : Nat) := by
  rw [numeral_space base (blanks_space m)]
  simp only [signs, List.mem_cons, List.not_mem_nil, or_false] at hsign
  rcases hsign with rfl | rfl | rfl | rfl
  · exact numeral_blanks hbody hbase n
  · rw [List.singleton_append, numeral_minus, magnitude_append hbody (blanks_head hbase n)]
    rfl
  · rw [List.singleton_append, numeral_plus, magnitude_append hbody (blanks_head hbase n)]
    rfl
  · rw [numeral_space base (by simp [isSpace])]
    exact numeral_blanks hbody hbase n

-- The sign in front of a number, where the buffer has room for it.
def signOf (length : Nat) (negative : Bool) (flags : Flags) : List UInt8 :=
  if length < integerBufferSize then
    if negative then [ascii '-'] else if flags.plus then [ascii '+'] else if flags.space then [ascii ' '] else []
  else []

theorem integerSign_eq (buf : List UInt8) (negative : Bool) (flags : Flags) :
    integerSign buf negative flags = buf ++ signOf buf.length negative flags := by
  unfold integerSign signOf push
  split_ifs <;> simp

theorem signOf_mem (length : Nat) (negative : Bool) (flags : Flags) : signOf length negative flags ∈ signs := by
  unfold signOf
  split_ifs <;> simp [signs]

theorem signOf_minus {length : Nat} {negative : Bool} {flags : Flags} :
    signOf length negative flags = [ascii '-'] ↔ negative = true ∧ length < integerBufferSize := by
  have hplus : ascii '+' ≠ ascii '-' := by decide
  have hspace : ascii ' ' ≠ ascii '-' := by decide
  unfold signOf
  split_ifs <;> simp_all

theorem signOf_length (length : Nat) (negative : Bool) (flags : Flags) :
    (signOf length negative flags).length ≤ 1 := by
  unfold signOf
  split_ifs <;> simp

-- The characters of an integer without the prefix of the alternative form.
def integerField (value : Nat) (negative : Bool) (base precision width : Nat) (flags : Flags) : List UInt8 :=
  let width := paddedWidth negative width flags
  let buf := paddedBuffer (integerDigits value base flags).1 precision width flags
  field (buf ++ signOf buf.length negative flags) width flags

theorem Flags.hash_false {flags : Flags} (hhash : flags.hash = false) :
    { flags with hash := false } = flags := by
  rw [← hhash]

theorem paddedWidth_le (negative : Bool) (width : Nat) (flags : Flags) :
    paddedWidth negative width flags ≤ width := by
  unfold paddedWidth
  split <;> omega

theorem paddedLength_le {length precision width : Nat} {flags : Flags} (h : length ≤ integerBufferSize) :
    paddedLength length precision width flags ≤ integerBufferSize := by
  unfold paddedLength
  split <;> omega

theorem signOf_reverse (length : Nat) (negative : Bool) (flags : Flags) :
    (signOf length negative flags).reverse = signOf length negative flags := by
  unfold signOf
  split_ifs <;> rfl

variable {value base precision width : Nat} {negative : Bool} {flags : Flags}

theorem integerField_number (hbase : 1 < base ∧ base ≤ 16) (value precision width : Nat) (flags : Flags) :
    Digits base value (paddedBuffer (integerDigits value base flags).1 precision width flags) ∧
      (paddedBuffer (integerDigits value base flags).1 precision width flags).length =
        paddedLength (integerDigits value base flags).1.length precision width flags := by
  have hdigits := integerDigits_digits hbase.1 hbase.2 value flags
  have hlength := paddedBuffer_length precision width flags hdigits.fits
  refine ⟨⟨?_, by rw [hlength]; exact paddedLength_le hdigits.fits, ?_⟩, hlength⟩
  · rw [paddedBuffer_eq precision width flags hdigits.fits]
    intro ch hch
    rcases List.mem_append.mp hch with hdigit | hzero
    · exact hdigits.digit ch hdigit
    · rw [List.eq_of_mem_replicate hzero]
      exact Nat.lt_of_le_of_lt (Nat.le_of_eq rfl) (by omega : 0 < base)
  · rw [paddedBuffer_eq precision width flags hdigits.fits, List.map_append, List.map_replicate,
      show digitValue (ascii '0') = 0 from rfl, Nat.ofDigits_append_replicate_zero]
    exact hdigits.value

theorem printIntegerFinalization_eq (output : OutputGadget) (buf : List UInt8) (hhash : flags.hash = false)
    (hpointer : flags.pointer = false) :
    printIntegerFinalization output buf negative base precision width flags =
      let width := paddedWidth negative width flags
      let buf := paddedBuffer buf precision width flags
      outRev output (buf ++ signOf buf.length negative flags) width flags := by
  have hsame : ∀ p [Decidable p], (if p then { flags with hash := false } else flags) = flags := by
    intro p _
    rw [Flags.hash_false hhash, ite_self]
  have hprefix : ∀ buf unpaddedLen width, integerPrefix buf unpaddedLen base precision width flags = buf := by
    intro buf unpaddedLen width
    simp only [integerPrefix, hhash, hpointer, Bool.or_self, Bool.false_eq_true, if_false]
  unfold printIntegerFinalization
  dsimp only
  rw [hsame, hprefix, integerSign_eq]

theorem printInteger_eq {output : OutputGadget} (hbase : 1 < base ∧ base ≤ 16) (hhash : flags.hash = false)
    (hpointer : flags.pointer = false) (hpos : output.pos < 2 ^ 32) (hwidth : width < 2 ^ 32) :
    printInteger output value negative base precision width flags =
      putChars output (integerField value negative base precision width flags) := by
  have hflags : (integerDigits value base flags).2 = flags := by
    unfold integerDigits
    split_ifs <;> simp [Flags.hash_false hhash]
  have hfits := (integerField_number hbase value precision (paddedWidth negative width flags) flags).1.fits
  have hsign := signOf_length (paddedBuffer (integerDigits value base flags).1 precision
    (paddedWidth negative width flags) flags).length negative flags
  unfold printInteger
  dsimp only
  rw [hflags, printIntegerFinalization_eq _ _ hhash hpointer]
  apply outRev_eq flags hpos
  · exact Nat.lt_of_le_of_lt (paddedWidth_le ..) hwidth
  · rw [List.length_append]
    unfold integerBufferSize at hfits
    omega

-- The field of an integer is blanks, the sign, the zeros and digits, blanks.
theorem integerField_parts (hbase : 1 < base ∧ base ≤ 16) (value precision width : Nat) (negative : Bool)
    (flags : Flags) :
    ∃ m n buf, Digits base value buf ∧
      buf.length = paddedLength (integerDigits value base flags).1.length precision
        (paddedWidth negative width flags) flags ∧
      integerField value negative base precision width flags = List.replicate m (ascii ' ') ++
        (signOf buf.length negative flags ++ (buf.reverse ++ List.replicate n (ascii ' '))) := by
  obtain ⟨hnumber, hlength⟩ := integerField_number hbase value precision (paddedWidth negative width flags) flags
  unfold integerField
  dsimp only
  generalize paddedBuffer (integerDigits value base flags).1 precision (paddedWidth negative width flags) flags
    = buf at hnumber hlength
  obtain ⟨m, n, hfield⟩ : ∃ m n, field (buf ++ signOf buf.length negative flags)
      (paddedWidth negative width flags) flags = List.replicate m (ascii ' ') ++
        (signOf buf.length negative flags ++ (buf.reverse ++ List.replicate n (ascii ' '))) := by
    unfold field
    rw [List.reverse_append, signOf_reverse]
    dsimp only
    split_ifs
    all_goals simp only [List.append_assoc]
    · exact ⟨_, _, rfl⟩
    · exact ⟨_, 0, rfl⟩
    · exact ⟨0, _, rfl⟩
    · exact ⟨0, 0, rfl⟩
  exact ⟨m, n, buf, hnumber, hlength, hfield⟩

-- The field of an integer reads back as the integer, as far as 32 digits reach
-- and while the digits and zeros leave a place for the sign.
theorem numeral_integerField (hbase : 1 < base ∧ base ≤ 16) :
    numeral base (integerField value negative base precision width flags) =
      if negative = true ∧ paddedLength (integerDigits value base flags).1.length precision
          (paddedWidth negative width flags) flags < integerBufferSize
      then -((value % base ^ integerBufferSize : Nat) : Int)
      else (value % base ^ integerBufferSize : Nat) := by
  obtain ⟨m, n, buf, hnumber, hlength, hfield⟩ :=
    integerField_parts hbase value precision width negative flags
  rw [hfield, ← hlength, numeral_field (fun ch hch => hnumber.digit ch (List.mem_reverse.mp hch)) hbase.2
    (signOf_mem buf.length negative flags), List.map_reverse, List.reverse_reverse, hnumber.value]
  simp only [signOf_minus]

-- It has no prefix that strtol would skip: no character of it is a letter behind
-- the digits of the base.
theorem integerField_unprefixed (hbase : 1 < base ∧ base ≤ 16) {ch : UInt8}
    (hletter : 16 ≤ digitValue ch) (halpha : isAlpha ch = true) :
    ch ∉ integerField value negative base precision width flags := by
  obtain ⟨m, n, buf, hnumber, _, hfield⟩ := integerField_parts hbase value precision width negative flags
  have hsign : ∀ sign ∈ signs, ch ∉ sign := by
    intro sign hsign hmem
    simp only [signs, List.mem_cons, List.not_mem_nil, or_false] at hsign
    rcases hsign with rfl | rfl | rfl | rfl
    · cases hmem
    all_goals
      obtain rfl := List.mem_singleton.mp hmem
      revert halpha
      decide
  have hblank : ∀ k, ch ∉ List.replicate k (ascii ' ') := by
    intro k hmem
    rw [List.eq_of_mem_replicate hmem] at halpha
    revert halpha
    decide
  rw [hfield]
  simp only [List.mem_append, List.mem_reverse, not_or]
  refine ⟨hblank m, hsign _ (signOf_mem buf.length negative flags), fun hdigit => ?_, hblank n⟩
  have := hnumber.digit ch hdigit
  omega

theorem strtol_integerField (hbase : 1 < base ∧ base ≤ 16) :
    strtol base (integerField value negative base precision width flags) =
      toLong (numeral base (integerField value negative base precision width flags)) :=
  strtol_numeral (integerField_unprefixed hbase (by decide) (by decide))
    (integerField_unprefixed hbase (by decide) (by decide))

theorem digitLoop_length_le {k : Nat} (uppercase : Bool) {room value : Nat} (hk : 0 < k)
    (hvalue : value < base ^ k) : (digitLoop base uppercase room value).length ≤ k := by
  induction room generalizing value k with
  | zero => exact Nat.zero_le _
  | succ room ih =>
      rw [digitLoop, List.length_cons]
      split
      · rename_i hmore
        -- more than one digit: the value reaches the base
        obtain ⟨k, rfl⟩ : ∃ j, k = j + 1 := ⟨k - 1, by omega⟩
        have hdiv : value / base < base ^ k := Nat.div_lt_of_lt_mul (by rwa [Nat.pow_succ'] at hvalue)
        have hk' : 0 < k := by
          rcases Nat.eq_zero_or_pos k with rfl | hpos
          · exact absurd (Nat.lt_one_iff.mp hdiv) hmore
          · exact hpos
        exact Nat.succ_le_succ (ih hk' hdiv)
      · exact hk

theorem integerDigits_length_le {k : Nat} (hk : 0 < k) (hvalue : value < base ^ k) :
    (integerDigits value base flags).1.length ≤ k := by
  unfold integerDigits
  split_ifs
  · exact hk
  · exact Nat.zero_le _
  · exact Nat.zero_le _
  · exact digitLoop_length_le _ hk hvalue

-- The conversions whose sign still fits into the buffer of 32 digits.
def SignFits (d : Directive) : Prop :=
  d.precision < integerBufferSize ∧
    (d.flags.zeropad = true ∧ d.flags.left = false ∧ d.flags.precision = false → d.width ≤ integerBufferSize)

instance (d : Directive) : Decidable (SignFits d) :=
  inferInstanceAs (Decidable (_ ∧ (_ → _)))

theorem field_length (buf : List UInt8) (width : Nat) (flags : Flags) :
    (field buf width flags).length =
      if flags.left = false ∧ flags.zeropad = true then buf.length else max buf.length width := by
  unfold field
  cases flags.left <;> cases flags.zeropad <;> simp <;> omega

-- A zero padded width has given up a place only to a sign that comes.
theorem paddedWidth_sign {length : Nat} (width : Nat) (negative : Bool) (flags : Flags)
    (hlength : length < integerBufferSize) :
    width ≤ paddedWidth negative width flags + (signOf length negative flags).length := by
  unfold paddedWidth signOf
  rw [if_pos hlength]
  by_cases hnegative : negative
  · rw [if_pos hnegative, List.length_singleton]
    split <;> omega
  by_cases hplus : flags.plus
  · rw [if_neg hnegative, if_pos hplus, List.length_singleton]
    split <;> omega
  by_cases hspace : flags.space
  · rw [if_neg hnegative, if_neg hplus, if_pos hspace, List.length_singleton]
    split <;> omega
  · simp [hnegative, hplus, hspace]

-- The field is at least as wide as asked for, if the zeros that should fill it
-- fit into the buffer.
theorem integerField_width (hbase : 1 < base ∧ base ≤ 16)
    (hzeros : flags.zeropad = true → flags.left = false → width ≤ integerBufferSize) :
    width ≤ (integerField value negative base precision width flags).length := by
  obtain ⟨-, hlength⟩ := integerField_number hbase value precision (paddedWidth negative width flags) flags
  unfold integerField
  dsimp only
  rw [field_length, List.length_append, hlength]
  split
  · rename_i hpadded
    have hfits := hzeros hpadded.2 hpadded.1
    have hle := paddedWidth_le negative width flags
    have hlong : paddedWidth negative width flags ≤
        paddedLength (integerDigits value base flags).1.length precision (paddedWidth negative width flags) flags := by
      unfold paddedLength
      rw [if_pos ⟨by rw [hpadded.1]; rfl, hpadded.2⟩]
      omega
    rcases Nat.lt_or_ge (paddedLength (integerDigits value base flags).1.length precision
      (paddedWidth negative width flags) flags) integerBufferSize with hroom | hfull
    · have hsign := paddedWidth_sign width negative flags hroom
      omega
    · omega
  · rename_i hspaces
    have hwidth : paddedWidth negative width flags = width := by
      unfold paddedWidth
      rw [if_neg (fun h => hspaces ⟨by simpa using h.1, h.2.2.1⟩)]
    rw [hwidth]
    exact Nat.le_max_right ..

-- The argument of an integer conversion.
def integerArgument (specifier : UInt8) (flags : Flags) (args : List Arg) : Option (Int × List Arg) :=
  if (integerFlags specifier flags).signed then signedValue (integerFlags specifier flags) args
  else (unsignedValue (integerFlags specifier flags) args).map fun r => ((r.1 : Int), r.2)

-- A signed argument fits a long long, an unsigned one an unsigned long long.
theorem signedValue_le {args args' : List Arg} {v : Int} (h : signedValue flags args = some (v, args')) :
    v.natAbs ≤ 2 ^ 63 := by
  have hword : ∀ n, 0 < n → n ≤ 64 → ∀ w : BitVec n, w.toInt.natAbs ≤ 2 ^ 63 := by
    intro n hpos hn w
    have hlow := w.le_toInt
    have hhigh := w.toInt_lt
    have hpow : (2 : Int) ^ (n - 1) ≤ 2 ^ 63 := by
      exact_mod_cast Nat.pow_le_pow_right (by decide) (by omega)
    omega
  unfold signedValue at h
  split_ifs at h
  all_goals
    obtain ⟨⟨w, _⟩, _, hr⟩ := Option.map_eq_some_iff.mp h
    cases hr
    try split_ifs
    all_goals exact hword _ (by decide) (by decide) _

theorem unsignedValue_lt {args args' : List Arg} {v : Nat} (h : unsignedValue flags args = some (v, args')) :
    v < 2 ^ 64 := by
  have hword : ∀ n, n ≤ 64 → ∀ w : BitVec n, w.toNat < 2 ^ 64 := fun n hn w =>
    Nat.lt_of_lt_of_le w.isLt (Nat.pow_le_pow_right (by decide) hn)
  unfold unsignedValue at h
  split_ifs at h
  all_goals
    obtain ⟨⟨w, _⟩, _, hr⟩ := Option.map_eq_some_iff.mp h
    cases hr
    try split_ifs
    all_goals exact hword _ (by decide) _

variable {specifier : UInt8}

theorem integerFlags_zeropad : (integerFlags specifier flags).zeropad = (flags.zeropad && !flags.precision) := by
  unfold integerFlags
  dsimp only
  split_ifs <;> simp_all

theorem integerFlags_left : (integerFlags specifier flags).left = flags.left := by
  unfold integerFlags
  dsimp only
  split_ifs <;> rfl

theorem integerFlags_pointer : (integerFlags specifier flags).pointer = flags.pointer := by
  unfold integerFlags
  dsimp only
  split_ifs <;> rfl

theorem integerFlags_hash (specifier : UInt8) (h : flags.hash = false ∨ integerBase specifier = baseDecimal) :
    (integerFlags specifier flags).hash = false := by
  unfold integerFlags
  dsimp only
  split_ifs <;> simp_all

theorem integerFlags_signed (h : flags.signed = false) :
    (integerFlags specifier flags).signed = true ↔ specifier = ascii 'd' ∨ specifier = ascii 'i' := by
  unfold integerFlags
  dsimp only
  split_ifs <;> simp_all

theorem integerBase_range (specifier : UInt8) : 1 < integerBase specifier ∧ integerBase specifier ≤ 16 := by
  unfold integerBase
  split_ifs <;> decide

theorem integerBase_signed (h : specifier = ascii 'd' ∨ specifier = ascii 'i') :
    integerBase specifier = baseDecimal := by
  rcases h with rfl | rfl <;> rfl

-- 32 digits hold every value, but for the binary ones of a long long.
theorem mod_base {v : Nat} (hv : v < 2 ^ 64) :
    v % integerBase specifier ^ integerBufferSize = if integerBase specifier = baseBinary then v % 2 ^ 32 else v := by
  have hlarge : ∀ b, 8 ≤ b → v % b ^ 32 = v := fun b hb =>
    Nat.mod_eq_of_lt (Nat.lt_of_lt_of_le hv (Nat.le_trans (by decide) (Nat.pow_le_pow_left hb 32)))
  unfold integerBase integerBufferSize
  split_ifs <;> first | exact hlarge _ (by decide) | rfl | contradiction

theorem signFits_iff (specifier : UInt8) (d : Directive) {length : Nat} (hlength : length < integerBufferSize) :
    paddedLength length d.precision (paddedWidth true d.width (integerFlags specifier d.flags))
      (integerFlags specifier d.flags) < integerBufferSize ↔ SignFits d := by
  unfold paddedLength SignFits integerBufferSize at *
  rw [integerFlags_zeropad, integerFlags_left]
  by_cases hzeros : d.flags.zeropad = true ∧ d.flags.left = false ∧ d.flags.precision = false
  · obtain ⟨hzeropad, hleft, hprecision⟩ := hzeros
    -- the sign takes one place of the padded width
    have hwidth : paddedWidth true d.width (integerFlags specifier d.flags) = d.width - 1 := by
      unfold paddedWidth
      rw [integerFlags_zeropad, integerFlags_left, hzeropad, hleft, hprecision]
      split_ifs with hzero
      · rfl
      · simp only [Bool.not_false, Bool.and_true, true_and, true_or, and_true, not_not, ne_eq] at hzero
        omega
    rw [hwidth, hzeropad, hleft, hprecision]
    simp only [Bool.not_false, Bool.and_true, and_self, if_true, forall_const]
    omega
  · have hnone : ¬((!d.flags.left) = true ∧ (d.flags.zeropad && !d.flags.precision) = true) := by
      simpa [and_comm, and_left_comm, and_assoc] using hzeros
    rw [if_neg hnone]
    simp only [hzeros, false_implies, and_true]
    omega

-- What parsing leaves alone: the specifier sets these flags.
def Flags.Unset (flags : Flags) : Prop := flags.signed = false ∧ flags.pointer = false

theorem parseFlagsFrom_unset {flags : Flags} (format : List UInt8) (h : flags.Unset) :
    (parseFlagsFrom flags format).1.Unset := by
  induction format generalizing flags with
  | nil => exact h
  | cons ch format ih =>
      unfold parseFlagsFrom
      split_ifs
      · exact ih h
      · exact ih h
      · exact ih h
      · exact ih h
      · exact ih h
      · exact h

theorem atouFrom_lt {i : Nat} (str : List UInt8) (hi : i < 2 ^ 32) : (atouFrom i str).1 < 2 ^ 32 := by
  induction str generalizing i with
  | nil => exact hi
  | cons ch str ih =>
      unfold atouFrom
      split
      · exact ih (uint32_lt _)
      · exact hi

theorem parseWidth_unset {flags' : Flags} {c c' : Cursor} (hflags : flags.Unset)
    (h : parseWidth flags c = some (flags', width, c')) : flags'.Unset ∧ width < 2 ^ 32 := by
  unfold parseWidth at h
  split at h
  · cases h
    exact ⟨hflags, atouFrom_lt c.format (by decide)⟩
  split at h
  · obtain ⟨⟨w, args⟩, _, hr⟩ := Option.map_eq_some_iff.mp h
    dsimp only at hr
    split at hr
    · cases hr
      exact ⟨hflags, (-w).isLt⟩
    · cases hr
      exact ⟨hflags, w.isLt⟩
  · cases h
    exact ⟨hflags, by decide⟩

theorem parsePrecision_unset {flags' : Flags} {c c' : Cursor} (hflags : flags.Unset)
    (h : parsePrecision flags c = some (flags', precision, c')) : flags'.Unset := by
  unfold parsePrecision at h
  dsimp only at h
  split_ifs at h
  · cases h
    exact hflags
  · obtain ⟨_, _, hr⟩ := Option.map_eq_some_iff.mp h
    cases hr
    exact hflags
  · cases h
    exact hflags
  · cases h
    exact hflags

theorem parseLength_unset (format : List UInt8) (h : flags.Unset) : (parseLength flags format).1.Unset := by
  unfold parseLength
  dsimp only
  split_ifs <;> exact h

theorem parseDirective_unset {c c' : Cursor} {d : Directive} (h : parseDirective c = some (d, c')) :
    d.flags.Unset ∧ d.width < 2 ^ 32 := by
  unfold parseDirective at h
  obtain ⟨⟨flags, width, c₁⟩, hwidth, h⟩ := Option.bind_eq_some_iff.mp h
  obtain ⟨⟨flags', precision, c₂⟩, hprecision, hr⟩ := Option.map_eq_some_iff.mp h
  cases hr
  obtain ⟨hflags, hlt⟩ := parseWidth_unset (parseFlagsFrom_unset c.format ⟨rfl, rfl⟩) hwidth
  exact ⟨parseLength_unset c₂.format (parsePrecision_unset hflags hprecision), hlt⟩

-- What is read of a decimal field.
theorem numeral_signed {d : Directive} {v : Int} (hdecimal : integerBase specifier = baseDecimal)
    (hv : v.natAbs ≤ 2 ^ 63) :
    numeral (integerBase specifier) (integerField (absForPrinting v) (v < 0) (integerBase specifier) d.precision
      d.width (integerFlags specifier d.flags)) = if 0 ≤ v ∨ SignFits d then v else -v := by
  have hlength : (integerDigits (absForPrinting v) (integerBase specifier) (integerFlags specifier d.flags)).1.length
      < integerBufferSize := by
    refine Nat.lt_of_le_of_lt (integerDigits_length_le (by decide : 0 < 19) ?_) (by decide)
    rw [hdecimal]
    exact Nat.lt_of_le_of_lt hv (by decide)
  have hmod : absForPrinting v % integerBase specifier ^ integerBufferSize = v.natAbs := by
    unfold absForPrinting
    rw [mod_base (Nat.lt_of_le_of_lt hv (by decide)), hdecimal]
    rfl
  rw [numeral_integerField (integerBase_range specifier), hmod]
  by_cases hneg : v < 0
  · have hfits := signFits_iff specifier d hlength
    simp only [hneg, decide_true, true_and, hfits, Int.not_le.mpr hneg, false_or]
    split <;> omega
  · simp only [hneg, decide_false, Bool.false_eq_true, false_and, if_false, Int.not_lt.mp hneg, true_or, if_true]
    omega

theorem numeral_unsigned {v : Nat} (hv : v < 2 ^ 64) :
    numeral (integerBase specifier) (integerField v false (integerBase specifier) precision width flags) =
      if integerBase specifier = baseBinary then (v : Int) % 2 ^ 32 else (v : Int) := by
  rw [numeral_integerField (integerBase_range specifier), mod_base hv]
  simp only [Bool.false_eq_true, false_and, if_false]
  split <;> rfl

end Printf

end Carbon
