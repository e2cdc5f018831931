import Carbon.Printf.Gadget

namespace Carbon

namespace Printf

open CString (ascii text startsWith)

-- printf_flags_t, one field for each bit the integer and string conversions use.
structure Flags where
  zeropad : Bool
  left : Bool
  plus : Bool
  space : Bool
  hash : Bool
  uppercase : Bool
  char : Bool
  short : Bool
  long : Bool
  longLong : Bool
  precision : Bool
  adaptExp : Bool
  pointer : Bool
  signed : Bool

def Flags.none : Flags :=
  ⟨false, false, false, false, false, false, false, false, false, false, false, false, false, false⟩

-- What the caller has passed, in order. On this target an int, a long and a
-- pointer are words of 32 bits, a double and a long long have 64. A string is
-- the object its pointer points into, from there to its end.
inductive Arg
  | word (w : BitVec 32)
  | longLong (w : BitVec 64)
  | double (bits : BitVec 64)
  | string (p : Option (List UInt8))
  | pointer (p : BitVec 32)
  deriving DecidableEq

-- va_arg of a type the caller has not passed is undefined.
def vaArgWord : List Arg → Option (BitVec 32 × List Arg)
  | .word w :: args => some (w, args)
  | _ => none

def vaArgLongLong : List Arg → Option (BitVec 64 × List Arg)
  | .longLong w :: args => some (w, args)
  | _ => none

def vaArgDouble : List Arg → Option (BitVec 64 × List Arg)
  | .double bits :: args => some (bits, args)
  | _ => none

def vaArgString : List Arg → Option (Option (List UInt8) × List Arg)
  | .string p :: args => some (p, args)
  | _ => none

def vaArgPointer : List Arg → Option (BitVec 32 × List Arg)
  | .pointer p :: args => some (p, args)
  | _ => none

def baseBinary : Nat := 2
def baseOctal : Nat := 8
def baseDecimal : Nat := 10
def baseHex : Nat := 16

def integerBufferSize : Nat := 32

-- strnlen_s_: the test reads a character before it looks at maxsize. Reading
-- past the end of the object is undefined.
def strnlen : List UInt8 → Nat → Option Nat
  | [], _ => none
  | ch :: str, maxsize =>
      if ch = 0 then some 0
      else match maxsize with
        | 0 => some 0
        | maxsize + 1 => (strnlen str maxsize).map (· + 1)

def isDigit (ch : UInt8) : Bool := ch ≥ ascii '0' && ch ≤ ascii '9'

-- atou_ from the value it has so far.
def atouFrom : Nat → List UInt8 → Nat × List UInt8
  | i, [] => (i, [])
  | i, ch :: str =>
      if isDigit ch then atouFrom (uint32 (i * 10 + (ch.toNat - (ascii '0').toNat))) str else (i, ch :: str)

def atou (str : List UInt8) : Nat × List UInt8 := atouFrom 0 str

def padSpaces : Nat → OutputGadget → OutputGadget
  | 0, output => output
  | n + 1, output => padSpaces n (putcharViaGadget output (ascii ' '))

-- The last loop of out_rev_. A round adds one character, so there are no more
-- than width of them.
def padTo (startPos width : Nat) : Nat → OutputGadget → OutputGadget
  | 0, output => output
  | rounds + 1, output =>
      if uint32Sub output.pos startPos < width then
        padTo startPos width rounds (putcharViaGadget output (ascii ' '))
      else output

-- out_rev_ of the first len characters of its buffer.
def outRev (output : OutputGadget) (buf : List UInt8) (width : Nat) (flags : Flags) : OutputGadget :=
  let startPos := output.pos
  let output := if !flags.left && !flags.zeropad then padSpaces (width - buf.length) output else output
  let output := putChars output buf.reverse
  if flags.left then padTo startPos width width output else output

def push (buf : List UInt8) (ch : UInt8) : List UInt8 :=
  if buf.length < integerBufferSize then buf ++ [ch] else buf

-- while ((len < bound) && (len < PRINTF_INTEGER_BUFFER_SIZE)) buf[len++] = '0';
def padZeros (bound : Nat) : Nat → List UInt8 → List UInt8
  | 0, buf => buf
  | rounds + 1, buf =>
      if buf.length < bound ∧ buf.length < integerBufferSize then
        padZeros bound rounds (buf ++ [ascii '0'])
      else buf

-- "handle hash": the prefix of a pointer or of the alternative form, after
-- taking back the padding it replaces.
def integerPrefix (buf : List UInt8) (unpaddedLen base precision width : Nat) (flags : Flags) :
    List UInt8 :=
  if flags.hash || flags.pointer then
    let buf :=
      if !flags.precision ∧ buf.length ≠ 0 ∧ (buf.length = precision ∨ buf.length = width) then
        let buf := if unpaddedLen < buf.length then buf.dropLast else buf
        if buf.length ≠ 0 ∧ (base = baseHex ∨ base = baseBinary) ∧ unpaddedLen < buf.length then
          buf.dropLast
        else buf
      else buf
    let buf :=
      if base = baseHex ∧ !flags.uppercase then push buf (ascii 'x')
      else if base = baseHex ∧ flags.uppercase then push buf (ascii 'X')
      else if base = baseBinary then push buf (ascii 'b')
      else buf
    push buf (ascii '0')
  else buf

def integerSign (buf : List UInt8) (negative : Bool) (flags : Flags) : List UInt8 :=
  if negative then push buf (ascii '-')
  else if flags.plus then push buf (ascii '+')
  else if flags.space then push buf (ascii ' ')
  else buf

-- print_integer_finalization. The sign has taken its place from a zero padded width.
def paddedWidth (negative : Bool) (width : Nat) (flags : Flags) : Nat :=
  if !flags.left ∧ width ≠ 0 ∧ flags.zeropad ∧ (negative ∨ flags.plus ∨ flags.space) then width - 1
  else width

def paddedBuffer (buf : List UInt8) (precision width : Nat) (flags : Flags) : List UInt8 :=
  let buf := if !flags.left ∧ flags.zeropad then padZeros width integerBufferSize buf else buf
  padZeros precision integerBufferSize buf

def printIntegerFinalization (output : OutputGadget) (buf : List UInt8) (negative : Bool)
    (base precision width : Nat) (flags : Flags) : OutputGadget :=
  let unpaddedLen := buf.length
  let width := paddedWidth negative width flags
  let buf := paddedBuffer buf precision width flags
  let flags := if base = baseOctal ∧ buf.length > unpaddedLen then { flags with hash := false } else flags
  let buf := integerPrefix buf unpaddedLen base precision width flags
  let buf := integerSign buf negative flags
  outRev output buf width flags

def digitChar (digit : Nat) (uppercase : Bool) : UInt8 :=
  if digit < 10 then .ofNat ((ascii '0').toNat + digit)
  else .ofNat ((if uppercase then ascii 'A' else ascii 'a').toNat + digit - 10)

-- The digits of print_integer, the last one first. The loop leaves when the
-- buffer is full.
def digitLoop (base : Nat) (uppercase : Bool) : Nat → Nat → List UInt8
  | 0, _ => []
  | room + 1, value =>
      digitChar (value % base) uppercase ::
        if value / base ≠ 0 then digitLoop base uppercase room (value / base) else []

def integerDigits (value base : Nat) (flags : Flags) : List UInt8 × Flags :=
  if value = 0 then
    if !flags.precision then ([ascii '0'], { flags with hash := false })
    else if base = baseHex then ([], { flags with hash := false })
    else ([], flags)
  else (digitLoop base flags.uppercase integerBufferSize value, flags)

def printInteger (output : OutputGadget) (value : Nat) (negative : Bool) (base precision width : Nat)
    (flags : Flags) : OutputGadget :=
  let digits := integerDigits value base flags
  printIntegerFinalization output digits.1 negative base precision width digits.2

def absForPrinting (value : Int) : Nat := value.natAbs

-- A number that %n stores: where, in how many bytes, which value.
structure Store where
  address : BitVec 32
  bytes : Nat
  value : Nat

-- Where a conversion stands: the format behind it and the arguments left.
structure Cursor where
  format : List UInt8
  args : List Arg

-- [flags][width][.precision][length] of a conversion.
structure Directive where
  flags : Flags
  width : Nat
  precision : Nat

def parseFlagsFrom : Flags → List UInt8 → Flags × List UInt8
  | flags, [] => (flags, [])
  | flags, ch :: format =>
      if ch = ascii '0' then parseFlagsFrom { flags with zeropad := true } format
      else if ch = ascii '-' then parseFlagsFrom { flags with left := true } format
      else if ch = ascii '+' then parseFlagsFrom { flags with plus := true } format
      else if ch = ascii ' ' then parseFlagsFrom { flags with space := true } format
      else if ch = ascii '#' then parseFlagsFrom { flags with hash := true } format
      else (flags, ch :: format)

def parseFlags (format : List UInt8) : Flags × List UInt8 := parseFlagsFrom .none format

-- "evaluate width field". The negation of a width is one of words.
def parseWidth (flags : Flags) (c : Cursor) : Option (Flags × Nat × Cursor) :=
  if c.format.head?.any isDigit then
    let (width, format) := atou c.format
    some (flags, width, { c with format })
  else if startsWith '*' c.format then
    (vaArgWord c.args).map fun (w, args) =>
      if w.toInt < 0 then ({ flags with left := true }, (-w).toNat, ⟨c.format.tail, args⟩)
      else (flags, w.toNat, ⟨c.format.tail, args⟩)
  else some (flags, 0, c)

-- "evaluate precision field".
def parsePrecision (flags : Flags) (c : Cursor) : Option (Flags × Nat × Cursor) :=
  if startsWith '.' c.format then
    let flags := { flags with precision := true }
    let c := { c with format := c.format.tail }
    if c.format.head?.any isDigit then
      let (precision, format) := atou c.format
      some (flags, precision, { c with format })
    else if startsWith '*' c.format then
      (vaArgWord c.args).map fun (w, args) =>
        (flags, if w.toInt > 0 then w.toNat else 0, ⟨c.format.tail, args⟩)
    else some (flags, 0, c)
  else some (flags, 0, c)

-- "evaluate length field". ptrdiff_t and size_t are as long as a long here,
-- intmax_t is not.
def parseLength (flags : Flags) (format : List UInt8) : Flags × List UInt8 :=
  if startsWith 'l' format then
    let flags := { flags with long := true }
    let format := format.tail
    if startsWith 'l' format then ({ flags with longLong := true }, format.tail) else (flags, format)
  else if startsWith 'h' format then
    let flags := { flags with short := true }
    let format := format.tail
    if startsWith 'h' format then ({ flags with char := true }, format.tail) else (flags, format)
  else if startsWith 't' format then ({ flags with long := true }, format.tail)
  else if startsWith 'j' format then ({ flags with longLong := true }, format.tail)
  else if startsWith 'z' format then ({ flags with long := true }, format.tail)
  else (flags, format)

def parseDirective (c : Cursor) : Option (Directive × Cursor) :=
  let (flags, format) := parseFlags c.format
  (parseWidth flags { c with format }).bind fun (flags, width, c) =>
    (parsePrecision flags c).map fun (flags, precision, c) =>
      let (flags, format) := parseLength flags c.format
      (⟨flags, width, precision⟩, { c with format })

def signedValue (flags : Flags) (args : List Arg) : Option (Int × List Arg) :=
  if flags.longLong then (vaArgLongLong args).map fun (w, args) => (w.toInt, args)
  else if flags.long then (vaArgWord args).map fun (w, args) => (w.toInt, args)
  else (vaArgWord args).map fun (w, args) =>
    (if flags.char then (w.setWidth 8).toInt else if flags.short then (w.setWidth 16).toInt else w.toInt, args)

def unsignedValue (flags : Flags) (args : List Arg) : Option (Nat × List Arg) :=
  if flags.longLong then (vaArgLongLong args).map fun (w, args) => (w.toNat, args)
  else if flags.long then (vaArgWord args).map fun (w, args) => (w.toNat, args)
  else (vaArgWord args).map fun (w, args) =>
    (if flags.char then (w.setWidth 8).toNat else if flags.short then (w.setWidth 16).toNat else w.toNat, args)

-- The cases d, i, u, x, X, o and b. Decimal integers have no alternative
-- presentation, and a precision makes the '0' flag ignored.
def integerBase (specifier : UInt8) : Nat :=
  if specifier = ascii 'x' ∨ specifier = ascii 'X' then baseHex
  else if specifier = ascii 'o' then baseOctal
  else if specifier = ascii 'b' then baseBinary
  else baseDecimal

def integerFlags (specifier : UInt8) (flags : Flags) : Flags :=
  let flags := if specifier = ascii 'd' ∨ specifier = ascii 'i' then { flags with signed := true } else flags
  let flags := if integerBase specifier = baseDecimal then { flags with hash := false } else flags
  let flags := if specifier = ascii 'X' then { flags with uppercase := true } else flags
  if flags.precision then { flags with zeropad := false } else flags

def integerSpecifier (specifier : UInt8) (d : Directive) (args : List Arg) (output : OutputGadget) :
    Option (OutputGadget × List Arg) :=
  let base := integerBase specifier
  let flags := integerFlags specifier d.flags
  if flags.signed then
    (signedValue flags args).map fun (value, args) =>
      (printInteger output (absForPrinting value) (value < 0) base d.precision d.width flags, args)
  else
    let flags := { flags with plus := false, space := false }
    (unsignedValue flags args).map fun (value, args) =>
      (printInteger output value false base d.precision d.width flags, args)

def charSpecifier (d : Directive) (args : List Arg) (output : OutputGadget) :
    Option (OutputGadget × List Arg) :=
  (vaArgWord args).map fun (w, args) =>
    let output := if !d.flags.left then padSpaces (d.width - 1) output else output
    let output := putcharViaGadget output (.ofNat w.toNat)
    let output := if d.flags.left then padSpaces (d.width - 1) output else output
    (output, args)

-- The output loop of the case s. Without the flag the precision only wraps around.
def stringLoop (precisionFlag : Bool) : List UInt8 → Nat → OutputGadget → Option OutputGadget
  | [], _, _ => none
  | ch :: p, precision, output =>
      if ch ≠ 0 ∧ (!precisionFlag ∨ precision ≠ 0) then
        stringLoop precisionFlag p (uint32Sub precision 1) (putcharViaGadget output ch)
      else some output

def stringSpecifier (d : Directive) (args : List Arg) (output : OutputGadget) :
    Option (OutputGadget × List Arg) :=
  (vaArgString args).bind fun (p, args) =>
    match p with
    | none => some (outRev output (text ")llun(") d.width d.flags, args)
    | some p =>
        (strnlen p (if d.precision ≠ 0 then d.precision else maxPossibleBufferSize)).bind fun l =>
          let l := if d.flags.precision then (if l < d.precision then l else d.precision) else l
          let output := if !d.flags.left then padSpaces (d.width - l) output else output
          (stringLoop d.flags.precision p d.precision output).map fun output =>
            (if d.flags.left then padSpaces (d.width - l) output else output, args)

def pointerSpecifier (d : Directive) (args : List Arg) (output : OutputGadget) :
    Option (OutputGadget × List Arg) :=
  let width := 4 * 2 + 2
  let flags := { d.flags with zeropad := true, pointer := true }
  (vaArgPointer args).map fun (value, args) =>
    (if value.toNat = 0 then outRev output (text ")lin(") width flags
      else printInteger output value.toNat false baseHex d.precision width flags, args)

-- The bytes %n stores. It asks for a long before it asks for a long long.
def writebackBytes (flags : Flags) : Nat :=
  if flags.char then 1 else if flags.short then 2 else if flags.long then 4
  else if flags.longLong then 8 else 4

def writebackSpecifier (d : Directive) (args : List Arg) (output : OutputGadget) :
    Option (OutputGadget × List Arg × List Store) :=
  let bytes := writebackBytes d.flags
  (vaArgPointer args).map fun (p, args) => (output, args, [⟨p, bytes, output.pos % 2 ^ (8 * bytes)⟩])

-- print_floating_point by the characters it puts for the bits of a double: it
-- computes in floating point and looks at its gadget only through differences of positions.
variable (printFloatingPoint : BitVec 64 → Directive → (preferExponential : Bool) → List UInt8)

def floatSpecifier (preferExponential : Bool) (d : Directive) (args : List Arg) (output : OutputGadget) :
    Option (OutputGadget × List Arg) :=
  (vaArgDouble args).map fun (bits, args) =>
    (putChars output (printFloatingPoint bits d preferExponential), args)

-- "evaluate specifier" for the character behind the directive.
def evaluateSpecifier (specifier : UInt8) (d : Directive) (args : List Arg) (output : OutputGadget) :
    Option (OutputGadget × List Arg × List Store) :=
  let plain (r : Option (OutputGadget × List Arg)) : Option (OutputGadget × List Arg × List Store) :=
    r.map fun (output, args) => (output, args, [])
  if specifier ∈ text "diuxXob" then plain (integerSpecifier specifier d args output)
  else if specifier ∈ text "fF" then
    let flags := if specifier = ascii 'F' then { d.flags with uppercase := true } else d.flags
    plain (floatSpecifier printFloatingPoint false { d with flags } args output)
  else if specifier ∈ text "eEgG" then
    let flags := if specifier ∈ text "gG" then { d.flags with adaptExp := true } else d.flags
    let flags := if specifier ∈ text "EG" then { flags with uppercase := true } else flags
    plain (floatSpecifier printFloatingPoint true { d with flags } args output)
  else if specifier = ascii 'c' then plain (charSpecifier d args output)
  else if specifier = ascii 's' then plain (stringSpecifier d args output)
  else if specifier = ascii 'p' then plain (pointerSpecifier d args output)
  else if specifier = ascii '%' then some (putcharViaGadget output (ascii '%'), args, [])
  else if specifier = ascii 'n' then writebackSpecifier d args output
  else some (putcharViaGadget output specifier, args, [])

-- The loop of _vsnprintf. The format is the object it lies in, from the
-- pointer on; reading past its end is undefined, as after a single % at the end
-- of a string, whose NUL counts as a specifier.
def formatLoop : Nat → Cursor → OutputGadget → Option (OutputGadget × List Store)
  | 0, _, _ => none
  | rounds + 1, c, output =>
      match c.format with
      | [] => none
      | ch :: format =>
          if ch = 0 then some (output, [])
          else if ch ≠ ascii '%' then formatLoop rounds { c with format } (putcharViaGadget output ch)
          else
            (parseDirective { c with format }).bind fun (d, c) =>
              match c.format with
              | [] => none
              | specifier :: format =>
                  (evaluateSpecifier printFloatingPoint specifier d c.args output).bind fun (output, args, stores) =>
                    (formatLoop rounds ⟨format, args⟩ output).map fun (output, rest) => (output, stores ++ rest)

-- _vsnprintf: the gadget behind the call, with its position as the int returned,
-- and what %n stored.
def vsnprintfGadget (output : OutputGadget) (format : List UInt8) (args : List Arg) :
    Option (OutputGadget × Int × List Store) :=
  (formatLoop printFloatingPoint (format.length + 1) ⟨format, args⟩ output).map fun (output, stores) =>
    (appendTerminationWithGadget output, int32 output.pos, stores)

def vsnprintf (s : Option (Nat → UInt8)) (n : Nat) (format : List UInt8) (args : List Arg) :
    Option (OutputGadget × Int × List Store) :=
  vsnprintfGadget printFloatingPoint (bufferGadget s n) format args

def vfctprintf (format : List UInt8) (args : List Arg) : Option (OutputGadget × Int × List Store) :=
  vsnprintfGadget printFloatingPoint functionGadget format args

end Printf

end Carbon
