import Carbon.Printf.Format

namespace Carbon

namespace Printf

open Sink
open CString (ascii text)

-- Every part of the formatter puts the same characters on all gadgets that
-- stand at the same position, whatever their limits and wherever the characters go.
theorem appends_putcharViaGadget (c : UInt8) : gadgetSink.Appends fun output => putcharViaGadget output c :=
  Appends.put c

theorem appends_padSpaces (n : Nat) : gadgetSink.Appends (padSpaces n) := by
  induction n with
  | zero => exact Appends.id
  | succ n ih => exact ih.comp (appends_putcharViaGadget (ascii ' '))

theorem appends_padTo (startPos width rounds : Nat) : gadgetSink.Appends (padTo startPos width rounds) := by
  induction rounds with
  | zero => exact Appends.id
  | succ rounds ih =>
      exact Appends.ite_view (p := fun pos => uint32Sub pos startPos < width)
        (ih.comp (appends_putcharViaGadget (ascii ' '))) Appends.id

theorem appends_outRev (buf : List UInt8) (width : Nat) (flags : Flags) :
    gadgetSink.Appends fun output => outRev output buf width flags := by
  -- the loop at the end counts from where the call started
  have hstart : ∀ startPos, gadgetSink.Appends fun output =>
      let output := if !flags.left && !flags.zeropad then padSpaces (width - buf.length) output else output
      let output := putChars output buf.reverse
      if flags.left then padTo startPos width width output else output := by
    intro startPos
    exact ((appends_padTo startPos width width).ite Appends.id).comp
      ((Appends.puts buf.reverse).comp ((appends_padSpaces _).ite Appends.id))
  exact Appends.seen hstart

theorem appends_printInteger (value : Nat) (negative : Bool) (base precision width : Nat) (flags : Flags) :
    gadgetSink.Appends fun output => printInteger output value negative base precision width flags :=
  appends_outRev _ _ _

theorem oblivious_integerSpecifier (specifier : UInt8) (d : Directive) (args : List Arg) :
    gadgetSink.Oblivious (integerSpecifier specifier d args) := by
  unfold integerSpecifier
  exact (Appends.given (fun _ => appends_printInteger _ _ _ _ _ _) _ _).ite
    (Appends.given (fun _ => appends_printInteger _ _ _ _ _ _) _ _)

theorem oblivious_charSpecifier (d : Directive) (args : List Arg) :
    gadgetSink.Oblivious (charSpecifier d args) := by
  refine Appends.given (fun r => ?_) _ _
  exact ((appends_padSpaces _).ite Appends.id).comp
    ((appends_putcharViaGadget _).comp ((appends_padSpaces _).ite Appends.id))

theorem oblivious_stringLoop (precisionFlag : Bool) (p : List UInt8) (precision : Nat) :
    gadgetSink.Oblivious fun output => (stringLoop precisionFlag p precision output).map fun output => (output, ()) := by
  induction p generalizing precision with
  | nil => exact Oblivious.undefined
  | cons ch p ih =>
      by_cases hput : ch ≠ 0 ∧ (!precisionFlag ∨ precision ≠ 0)
      · have hrest := ((appends_putcharViaGadget ch).oblivious ()).bind fun _ => ih (uint32Sub precision 1)
        simpa only [stringLoop, if_pos hput, Option.bind_some] using hrest
      · have hdone := (Appends.id (K := gadgetSink)).oblivious ()
        simpa only [stringLoop, if_neg hput, Option.map_some] using hdone

theorem oblivious_stringSpecifier (d : Directive) (args : List Arg) :
    gadgetSink.Oblivious (stringSpecifier d args) := by
  refine Oblivious.given (vaArgString args) fun r => ?_
  obtain ⟨p, args⟩ := r
  cases p with
  | none => exact (appends_outRev _ _ _).oblivious args
  | some p =>
      refine Oblivious.given (strnlen p _) fun l => ?_
      dsimp only
      generalize (if d.flags.precision then (if l < d.precision then l else d.precision) else l) = l
      have hbefore := ((appends_padSpaces (d.width - l)).ite (p := !d.flags.left) Appends.id).oblivious ()
      have hafter := ((appends_padSpaces (d.width - l)).ite (p := d.flags.left) Appends.id).oblivious args
      have hall := hbefore.bind fun _ =>
        (oblivious_stringLoop d.flags.precision p d.precision).bind fun _ => hafter
      simpa only [Option.bind_some, Option.map_eq_bind, Option.bind_assoc, Function.comp_def] using hall

theorem oblivious_pointerSpecifier (d : Directive) (args : List Arg) :
    gadgetSink.Oblivious (pointerSpecifier d args) :=
  Appends.given (fun _ => (appends_outRev _ _ _).ite (appends_printInteger _ _ _ _ _ _)) _ _

theorem oblivious_writebackSpecifier (d : Directive) (args : List Arg) :
    gadgetSink.Oblivious (writebackSpecifier d args) := by
  unfold writebackSpecifier
  cases vaArgPointer args with
  | none => exact Oblivious.undefined
  | some r =>
      let stores (pos : Nat) : List Store := [⟨r.1, writebackBytes d.flags, pos % 2 ^ (8 * writebackBytes d.flags)⟩]
      exact Oblivious.seen (K := gadgetSink) fun pos => (r.2, stores pos)

variable (printFloatingPoint : BitVec 64 → Directive → Bool → List UInt8)

theorem oblivious_floatSpecifier (preferExponential : Bool) (d : Directive) (args : List Arg) :
    gadgetSink.Oblivious (floatSpecifier printFloatingPoint preferExponential d args) :=
  Appends.given (fun _ => Appends.puts _) _ _

theorem oblivious_evaluateSpecifier (specifier : UInt8) (d : Directive) (args : List Arg) :
    gadgetSink.Oblivious (evaluateSpecifier printFloatingPoint specifier d args) := by
  have hplain : ∀ {f : OutputGadget → Option (OutputGadget × List Arg)}, gadgetSink.Oblivious f →
      gadgetSink.Oblivious fun output => (f output).map fun r => (r.1, r.2, ([] : List Store)) :=
    fun hf => hf.map fun args => (args, [])
  unfold evaluateSpecifier
  refine (hplain (oblivious_integerSpecifier specifier d args)).ite ?_
  refine (hplain (oblivious_floatSpecifier printFloatingPoint false _ args)).ite ?_
  refine (hplain (oblivious_floatSpecifier printFloatingPoint true _ args)).ite ?_
  refine (hplain (oblivious_charSpecifier d args)).ite ?_
  refine (hplain (oblivious_stringSpecifier d args)).ite ?_
  refine (hplain (oblivious_pointerSpecifier d args)).ite ?_
  refine ((appends_putcharViaGadget _).oblivious _).ite ?_
  exact (oblivious_writebackSpecifier d args).ite ((appends_putcharViaGadget _).oblivious _)

theorem oblivious_formatLoop (rounds : Nat) (c : Cursor) :
    gadgetSink.Oblivious (formatLoop printFloatingPoint rounds c) := by
  induction rounds generalizing c with
  | zero => exact Oblivious.undefined
  | succ rounds ih =>
      obtain ⟨format, args⟩ := c
      cases format with
      | nil => exact Oblivious.undefined
      | cons ch format =>
          refine ((Appends.id (K := gadgetSink)).oblivious _).ite (Oblivious.ite ?_ ?_)
          · exact ((appends_putcharViaGadget ch).oblivious ()).bind fun _ => ih ⟨format, args⟩
          · refine Oblivious.given _ fun r => ?_
            obtain ⟨d, ⟨format, args⟩⟩ := r
            cases format with
            | nil => exact Oblivious.undefined
            | cons specifier format =>
                exact (oblivious_evaluateSpecifier printFloatingPoint specifier d args).bind fun r =>
                  (ih ⟨format, r.1⟩).map fun rest => r.2 ++ rest

-- Every round of the loop takes a character of the format, so that one more
-- round than characters is enough: the loop is undefined only where the source is.
theorem atouFrom_length (i : Nat) (str : List UInt8) : (atouFrom i str).2.length ≤ str.length := by
  induction str generalizing i with
  | nil => exact Nat.le_refl _
  | cons ch str ih =>
      unfold atouFrom
      split
      · exact Nat.le_succ_of_le (ih _)
      · exact Nat.le_refl _

theorem parseFlagsFrom_length (flags : Flags) (format : List UInt8) :
    (parseFlagsFrom flags format).2.length ≤ format.length := by
  induction format generalizing flags with
  | nil => exact Nat.le_refl _
  | cons ch format ih =>
      unfold parseFlagsFrom
      split
      · exact Nat.le_succ_of_le (ih _)
      split
      · exact Nat.le_succ_of_le (ih _)
      split
      · exact Nat.le_succ_of_le (ih _)
      split
      · exact Nat.le_succ_of_le (ih _)
      split
      · exact Nat.le_succ_of_le (ih _)
      · exact Nat.le_refl _

theorem parseWidth_length {flags flags' : Flags} {c c' : Cursor} {width : Nat}
    (h : parseWidth flags c = some (flags', width, c')) : c'.format.length ≤ c.format.length := by
  unfold parseWidth at h
  split at h
  · cases h
    exact atouFrom_length 0 c.format
  split at h
  · obtain ⟨⟨w, args⟩, _, hr⟩ := Option.map_eq_some_iff.mp h
    dsimp only at hr
    split at hr <;> cases hr <;> simp
  · cases h
    exact Nat.le_refl _

theorem parsePrecision_length {flags flags' : Flags} {c c' : Cursor} {precision : Nat}
    (h : parsePrecision flags c = some (flags', precision, c')) : c'.format.length ≤ c.format.length := by
  have htail : c.format.tail.length ≤ c.format.length := by simp
  unfold parsePrecision at h
  split at h
  · dsimp only at h
    split at h
    · cases h
      exact Nat.le_trans (atouFrom_length 0 c.format.tail) htail
    split at h
    · obtain ⟨_, _, hr⟩ := Option.map_eq_some_iff.mp h
      cases hr
      simp
      omega
    · cases h
      exact htail
  · cases h
    exact Nat.le_refl _

theorem parseLength_length (flags : Flags) (format : List UInt8) :
    (parseLength flags format).2.length ≤ format.length := by
  unfold parseLength
  dsimp only
  repeat' split
  all_goals simp only [List.length_tail]; omega

theorem parseDirective_length {c c' : Cursor} {d : Directive} (h : parseDirective c = some (d, c')) :
    c'.format.length ≤ c.format.length := by
  unfold parseDirective at h
  obtain ⟨⟨flags, width, c₁⟩, hwidth, h⟩ := Option.bind_eq_some_iff.mp h
  obtain ⟨⟨flags', precision, c₂⟩, hprecision, hr⟩ := Option.map_eq_some_iff.mp h
  cases hr
  calc (parseLength flags' c₂.format).2.length
      ≤ c₂.format.length := parseLength_length flags' c₂.format
    _ ≤ c₁.format.length := parsePrecision_length hprecision
    _ ≤ (parseFlags c.format).2.length := parseWidth_length hwidth
    _ ≤ c.format.length := parseFlagsFrom_length .none c.format

theorem formatLoop_rounds {m n : Nat} (c : Cursor) (hm : c.format.length < m) (hn : c.format.length < n)
    (output : OutputGadget) :
    formatLoop printFloatingPoint m c output = formatLoop printFloatingPoint n c output := by
  induction m generalizing n c output with
  | zero => omega
  | succ m ih =>
      obtain ⟨n, rfl⟩ : ∃ k, n = k + 1 := ⟨n - 1, by omega⟩
      obtain ⟨format, args⟩ := c
      cases format with
      | nil => rfl
      | cons ch format =>
          simp only [List.length_cons] at hm hn
          simp only [formatLoop]
          split
          · rfl
          split
          · exact ih ⟨format, args⟩ (by simp only; omega) (by simp only; omega) _
          · refine Option.bind_congr fun r hr => ?_
            obtain ⟨d, ⟨format', args'⟩⟩ := r
            have hshorter := parseDirective_length hr
            cases format' with
            | nil => rfl
            | cons specifier format' =>
                simp only [List.length_cons] at hshorter
                refine Option.bind_congr fun r _ => ?_
                rw [ih (n := n) ⟨format', r.2.1⟩ (by simp only; omega) (by simp only; omega)]

-- A gadget that keeps every character, also after its position has wrapped around.
def recordingGadget : OutputGadget := { discardingGadget with function := some [], maxChars := 2 ^ 32 }

-- The characters of a call and what its %n store, none if the call is undefined.
def characters (format : List UInt8) (args : List Arg) : Option (List UInt8 × List Store) :=
  (formatLoop printFloatingPoint (format.length + 1) ⟨format, args⟩ recordingGadget).map
    fun (output, stores) => (output.function.getD [], stores)

theorem putChars_recording {gadget : OutputGadget} {sent : List UInt8} (cs : List UInt8)
    (hfunction : gadget.function = some sent) (hmax : gadget.maxChars = 2 ^ 32)
    (hpos : gadget.pos < 2 ^ 32) : (putChars gadget cs).function = some (sent ++ cs) := by
  induction cs generalizing gadget sent with
  | nil => rw [putChars_nil, hfunction, List.append_nil]
  | cons c cs ih =>
      have hrest := @ih { gadget with function := some (sent ++ [c]), pos := uint32 (gadget.pos + 1) }
        _ rfl hmax (uint32_lt _)
      rw [putChars_cons, putcharViaGadget_function hfunction (by omega), hrest, List.append_assoc,
        List.singleton_append]

-- All calls with one format and one list of arguments put the same characters
-- and store the same numbers.
theorem formatLoop_eq {output : OutputGadget} (hpos : output.pos = 0) (format : List UInt8)
    (args : List Arg) :
    formatLoop printFloatingPoint (format.length + 1) ⟨format, args⟩ output =
      (characters printFloatingPoint format args).map fun r => (putChars output r.1, r.2) := by
  unfold characters
  rcases (oblivious_formatLoop printFloatingPoint (format.length + 1) ⟨format, args⟩).agree 0 with
    hundefined | ⟨cs, stores, hputs⟩
  · rw [hundefined _ hpos, hundefined recordingGadget rfl]
    rfl
  · have hsent : (putChars recordingGadget cs).function = some ([] ++ cs) :=
      putChars_recording cs rfl rfl (by decide)
    rw [hputs _ hpos, hputs recordingGadget rfl]
    simp only [Option.map_some]
    rw [show (gadgetSink.puts recordingGadget cs).function = _ from hsent]
    rfl

theorem vsnprintfGadget_eq {output : OutputGadget} (hpos : output.pos = 0) (format : List UInt8)
    (args : List Arg) :
    vsnprintfGadget printFloatingPoint output format args =
      (characters printFloatingPoint format args).map fun r =>
        (appendTerminationWithGadget (putChars output r.1), int32 r.1.length, r.2) := by
  unfold vsnprintfGadget
  rw [formatLoop_eq printFloatingPoint hpos]
  cases characters printFloatingPoint format args with
  | none => rfl
  | some r =>
      have hlength : (putChars output r.1).pos = uint32 r.1.length := by
        rw [putChars_pos r.1 (by rw [hpos]; decide), hpos, Nat.zero_add]
      simp only [Option.map_some, hlength, int32_uint32]

-- What a call leaves in a buffer of n bytes.
def terminated (s : Nat → UInt8) (n : Nat) (cs : List UInt8) : Nat → UInt8 :=
  if n = 0 then s else Cells.write s 0 (cs.take (min n maxPossibleBufferSize - 1) ++ [0])

theorem bufferGadget_some (s : Nat → UInt8) (n : Nat) :
    bufferGadget (some s) n = ⟨none, some s, 0, min n maxPossibleBufferSize⟩ := by
  unfold bufferGadget
  by_cases hlarge : n > maxPossibleBufferSize
  · simp only [hlarge, if_true, discardingGadget, Nat.min_eq_right (Nat.le_of_lt hlarge)]
  · simp only [hlarge, if_false, discardingGadget, Nat.min_eq_left (Nat.le_of_not_lt hlarge)]

theorem append_terminated {s : Nat → UInt8} {cs : List UInt8} {n : Nat} (hn : 0 < n) :
    Cells.write (Cells.write s 0 (cs.take n)) (if cs.length < n then cs.length else n - 1) [0] =
      Cells.write s 0 (cs.take (n - 1) ++ [0]) := by
  by_cases hshort : cs.length < n
  · rw [if_pos hshort, List.take_of_length_le (by omega), List.take_of_length_le (by omega),
      Cells.write_append, Nat.zero_add]
  · -- the last character that fits gives way to the terminator
    have hlast : cs.take n = cs.take (n - 1) ++ [cs[n - 1]] := by
      rw [List.take_append_getElem, Nat.sub_add_cancel hn]
    have hstart : (cs.take (n - 1)).length = n - 1 := by
      rw [List.length_take]
      omega
    rw [if_neg hshort, hlast, Cells.write_append, Cells.write_append, hstart, Nat.zero_add,
      Cells.write_write (by simp)]

theorem terminated_gadget {s : Nat → UInt8} {cs : List UInt8} (n : Nat) (hlength : cs.length < 2 ^ 32) :
    (appendTerminationWithGadget (putChars (bufferGadget (some s) n) cs)).buffer =
      some (terminated s n cs) := by
  rw [bufferGadget_some, putChars_buffer rfl rfl (by simpa using hlength)]
  unfold appendTerminationWithGadget terminated
  by_cases hn : n = 0
  · subst hn
    simp
  · have hlimit : min n maxPossibleBufferSize ≠ 0 := by
      unfold maxPossibleBufferSize
      omega
    simp only [Option.isSome_none, Bool.false_eq_true, hlimit, or_self, if_false, hn, Nat.sub_zero,
      Nat.zero_add, Option.map_some, append_terminated (Nat.pos_of_ne_zero hlimit)]

variable {printFloatingPoint}

-- Whatever the size of the buffer, a call formats the same text, or it is
-- undefined for all sizes. It returns the length of all of the text, leaves in
-- the buffer as much as fits in front of a NUL and touches no byte behind.
theorem vsnprintf_truncates {format : List UInt8} {args : List Arg}
    (hlength : ∀ r, characters printFloatingPoint format args = some r → r.1.length < 2 ^ 32)
    (s : Nat → UInt8) (n : Nat) :
    (vsnprintf printFloatingPoint (some s) n format args).map (fun r => (r.1.buffer, r.2)) =
      (characters printFloatingPoint format args).map fun r =>
        (some (terminated s n r.1), int32 r.1.length, r.2) := by
  unfold vsnprintf
  rw [vsnprintfGadget_eq printFloatingPoint (by rw [bufferGadget_some])]
  cases hcall : characters printFloatingPoint format args with
  | none => rfl
  | some r => simp only [Option.map_some, terminated_gadget n (hlength r hcall)]

-- "%5d|%s" of -42 and "ok" in a buffer of eight bytes.
theorem vsnprintf_truncates_short :
    (vsnprintf (fun _ _ _ => []) (some fun _ => 255) 8 (text "%5d|%s" ++ [0])
        [.word (-42), .string (some (text "ok" ++ [0]))]).map (fun r => (r.1.buffer, r.2)) =
      some (some (Cells.write (fun _ => 255) 0 (text "  -42|o" ++ [0])), 8, []) := by
  have hcall : characters (fun _ _ _ => []) (text "%5d|%s" ++ [0])
      [.word (-42), .string (some (text "ok" ++ [0]))] = some (text "  -42|ok", []) := rfl
  have hcut := vsnprintf_truncates (by rw [hcall]; rintro r ⟨⟩; decide) (fun _ => 255) 8
  rw [hcall] at hcut
  exact hcut

theorem vfctprintf_eq {format : List UInt8} {args : List Arg} {r : List UInt8 × List Store}
    (hcall : characters printFloatingPoint format args = some r) (hlength : r.1.length < 2 ^ 31) :
    ∃ output, vfctprintf printFloatingPoint format args = some (output, (r.1.length : Int), r.2) ∧
      output.function = some r.1 := by
  have hput : putChars functionGadget r.1 = { functionGadget with
      function := some ([] ++ r.1.take (maxPossibleBufferSize - 0)), pos := 0 + r.1.length } :=
    putChars_function rfl (show 0 + r.1.length < 2 ^ 32 by omega)
  have hall : r.1.take (maxPossibleBufferSize - 0) = r.1 :=
    List.take_of_length_le (by unfold maxPossibleBufferSize; omega)
  rw [List.nil_append, hall] at hput
  refine ⟨_, by rw [vfctprintf, vsnprintfGadget_eq printFloatingPoint rfl, hcall, Option.map_some,
    int32_of_lt hlength], ?_⟩
  rw [hput]
  rfl

-- The length of a text may be asked for without a buffer.
theorem vsnprintf_length {format : List UInt8} {args : List Arg} {r : List UInt8 × List Store}
    (hcall : characters printFloatingPoint format args = some r) (hlength : r.1.length < 2 ^ 31) :
    ∃ output, vsnprintf printFloatingPoint none 0 format args = some (output, (r.1.length : Int), r.2) :=
  ⟨_, by rw [vsnprintf, vsnprintfGadget_eq printFloatingPoint rfl, hcall, Option.map_some,
    int32_of_lt hlength]⟩

end Printf

end Carbon
